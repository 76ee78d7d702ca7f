import Cosmos.Page.Runs

/-!
# The pages in use at boot (`hal/x86/msadsc.c`)

Before the free lists are built, `search_krloccupymsadsc_core` marks the pages of four address ranges as the kernel's:
the first page, the initial stack, the kernel with the tables behind it, and the image. Each range is walked from the
descriptor of its first page on, descriptor by descriptor; the walk does not look at the end of the array.

The range of the stack starts at the page of its top, so that a stack that crosses a page boundary is marked in part
only (`reserved_iff`).
-/

namespace Cosmos.Page

open Cosmos.Lib Halt Function

/-- `machbstart_t`, with the fields read here. -/
structure Machbstart where
  mbKrlinitstack : Nat
  mbKrlitstacksz : Nat
  mbImgpadr : Nat
  mbImgsz : Nat
  mbKrlimgpadr : Nat
  mbNextwtpadr : Nat
  mbMemmappadr : Nat
  mbMemmapnr : Nat

def ikstackPhyadr : Nat := 0x90000 - 0x10
def ikstackSize : Nat := 0x1000

def occupy (d : Msadsc) : Msadsc := { d with mfMocty := .krnl, mfUindx := d.mfUindx + 1, pafAlloc := true }

/-- The second loop of `search_segment_occupymsadsc`; `none` is its `return 0`. The address takes `2 ^ 52` values, so a
loop that goes on after as many turns has no address to end at. -/
def occupyLoop (fstatmp ocpyend : Nat) : Nat → Nat → Nat → (Nat → Msadsc) → Halt (Option Nat × (Nat → Msadsc))
  | 0, _, _, _ => .error "search_segment_occupymsadsc"
  | c + 1, tmpadr, fsmsnr, msa =>
    if tmpadr < ocpyend then
      let d := msa (fstatmp + fsmsnr)
      if phyadrOf d ≠ tmpadr then .ok (none, msa)
      else if d.mfMocty ≠ .free ∨ d.mfUindx ≠ 0 ∨ d.pafAlloc = true then .ok (none, msa)
      else
        occupyLoop fstatmp ocpyend c (u64 (tmpadr + 0x1000)) (fsmsnr + 1)
          (update msa (fstatmp + fsmsnr) (occupy d))
    else .ok (some fsmsnr, msa)

def searchSegmentOccupymsadsc (msanr ocpystat ocpyend : Nat) (msa : Nat → Msadsc) : Halt (Nat × (Nat → Msadsc)) :=
  match (List.range msanr).find? fun mnr => decide (phyadrOf (msa mnr) = ocpystat) with
  | none => .ok (0, msa)
  | some fstatmp =>
    occupyLoop fstatmp ocpyend (2 ^ 52 + 1) ocpystat 0 msa >>= fun ⟨r, msa⟩ =>
      match r with
      | none => .ok (0, msa)
      | some fsmsnr =>
        let ocpysz := u64Sub ocpyend ocpystat
        if ocpysz % 0x1000 ≠ 0 then
          if ocpysz / 0x1000 + 1 ≠ fsmsnr then .ok (0, msa) else .ok (fsmsnr, msa)
        else if ocpysz / 0x1000 ≠ fsmsnr then .ok (0, msa)
        else .ok (fsmsnr, msa)

/-- The calls of `search_krloccupymsadsc_core` one after another, up to the first that finds nothing. -/
def searchSegments (msanr : Nat) : List (Nat × Nat) → (Nat → Msadsc) → Halt (Bool × (Nat → Msadsc))
  | [], msa => .ok (true, msa)
  | (ocpystat, ocpyend) :: segs, msa =>
    searchSegmentOccupymsadsc msanr ocpystat ocpyend msa >>= fun ⟨retschmnr, msa⟩ =>
      if retschmnr = 0 then .ok (false, msa) else searchSegments msanr segs msa

/-- The ranges that are in use: the interrupt table, the stack, the kernel and the image. -/
def Machbstart.segments (mb : Machbstart) : List (Nat × Nat) :=
  [(0, 0x1000), (mb.mbKrlinitstack / 0x1000 * 0x1000, mb.mbKrlinitstack), (mb.mbKrlimgpadr, mb.mbNextwtpadr),
    (mb.mbImgpadr, u64 (mb.mbImgpadr + mb.mbImgsz))]

/-- `search_krloccupymsadsc_core`, on the descriptors at `mb_memmappadr`. -/
def searchKrloccupymsadscCore (mb : Machbstart) (msa : Nat → Msadsc) : Halt (Bool × (Nat → Msadsc)) :=
  phyadrToViradr mb.mbMemmappadr >>= fun _ => searchSegments mb.mbMemmapnr mb.segments msa

variable {b : Boot} {msa msa' : Nat → Msadsc} {lo hi : Nat}

/-! ### What a walk marks -/

def Untaken (d : Msadsc) : Prop := d.mfMocty = .free ∧ d.mfUindx = 0 ∧ d.pafAlloc = false

theorem not_untaken_occupy (d : Msadsc) : ¬Untaken (occupy d) := fun h => absurd h.1 (by simp [occupy])

theorem phyadrOf_occupy (d : Msadsc) : phyadrOf (occupy d) = phyadrOf d := rfl

theorem dvd_phyadrOf (d : Msadsc) : 0x1000 ∣ phyadrOf d := by
  unfold phyadrOf bits
  exact (Nat.dvd_mod_iff (by norm_num)).mpr (Nat.dvd_mul_left _ _)

theorem phyadrOf_lt (d : Msadsc) : phyadrOf d < 2 ^ 52 := bits_lt _ _

/-- Each descriptor is as it was, or was free and is marked, with `P` of its address. -/
def Marks (P : Nat → Prop) (msa msa' : Nat → Msadsc) : Prop :=
  ∀ n, msa' n = msa n ∨ (msa' n = occupy (msa n) ∧ Untaken (msa n) ∧ P (phyadrOf (msa n)))

namespace Marks

variable {P Q : Nat → Prop} {msa'' : Nat → Msadsc}

theorem refl (P : Nat → Prop) (msa : Nat → Msadsc) : Marks P msa msa := fun _ => .inl rfl

theorem mono (h : Marks P msa msa') (hpq : ∀ p, P p → Q p) : Marks Q msa msa' :=
  fun n => (h n).imp_right fun ⟨heq, hun, hp⟩ => ⟨heq, hun, hpq _ hp⟩

theorem pafPadrs_eq (h : Marks P msa msa') (n : Nat) : (msa' n).pafPadrs = (msa n).pafPadrs := by
  rcases h n with heq | ⟨heq, -⟩ <;> rw [heq]
  rfl

theorem phyadrOf_eq (h : Marks P msa msa') (n : Nat) : phyadrOf (msa' n) = phyadrOf (msa n) := by
  rw [phyadrOf, phyadrOf, h.pafPadrs_eq]

theorem occupied (h : Marks P msa msa') {n : Nat} (hn : ¬Untaken (msa n)) : msa' n = msa n :=
  (h n).resolve_right fun hm => hn hm.2.1

theorem untaken (h : Marks P msa msa') {n : Nat} (hn : Untaken (msa' n)) : msa' n = msa n := by
  rcases h n with heq | ⟨heq, -⟩
  · exact heq
  · exact absurd (heq ▸ hn) (not_untaken_occupy _)

theorem trans (h : Marks P msa msa') (h' : Marks P msa' msa'') : Marks P msa msa'' := by
  intro n
  rcases h n with heq | ⟨heq, hun, hp⟩
  · rcases h' n with heq' | ⟨heq', hun', hp'⟩
    · exact .inl (heq'.trans heq)
    · rw [heq] at heq' hun' hp'
      exact .inr ⟨heq', hun', hp'⟩
  · refine .inr ⟨?_, hun, hp⟩
    rw [h'.occupied (heq ▸ not_untaken_occupy _), heq]

end Marks

/-- A descriptor of the array, unless the memory behind it looks like more of it. -/
def Boot.Has (b : Boot) (n : Nat) : Prop := b.Tail → n < b.msanr

def Marked (b : Boot) (msa : Nat → Msadsc) (x : Nat) : Prop :=
  ∃ n, b.Has n ∧ phyadrOf (msa n) = x / 0x1000 * 0x1000 ∧ (msa n).mfMocty = .krnl ∧ (msa n).pafAlloc = true

theorem Marked.marks {P : Nat → Prop} {x : Nat} (h : Marked b msa x) (hm : Marks P msa msa') :
    Marked b msa' x := by
  obtain ⟨n, hhas, hadr, hkrnl, halloc⟩ := h
  have hsame : msa' n = msa n := hm.occupied fun hun => absurd (hun.1.symm.trans hkrnl) (by simp)
  exact ⟨n, hhas, by rw [hsame, hadr], by rw [hsame, hkrnl], by rw [hsame, halloc]⟩

/-- The pages from `lo` up to `hi` were marked, and no others. -/
structure Occupied (b : Boot) (msa msa' : Nat → Msadsc) (lo hi : Nat) : Prop where
  marks : Marks (fun p => lo ≤ p ∧ p < hi) msa msa'
  all : ∀ x, lo ≤ x → x < hi → Marked b msa' x

section Walk

variable {fstatmp : Nat}

theorem occupyLoop_le (c : Nat) : ∀ tmpadr fsmsnr msa r, tmpadr < 2 ^ 64 → 0x1000 ∣ tmpadr →
    occupyLoop fstatmp hi c tmpadr fsmsnr msa = .ok (some r, msa') → hi ≤ 2 ^ 64 - 0x1000 := by
  induction c with
  | zero =>
    intro tmpadr fsmsnr msa r _ _ heq
    simp [occupyLoop] at heq
  | succ c ih =>
    intro tmpadr fsmsnr msa r hlt hdvd heq
    rw [occupyLoop] at heq
    simp only at heq
    split_ifs at heq
    · simp at heq
    · simp at heq
    · refine ih _ _ _ r (u64_lt _) ?_ heq
      exact (Nat.dvd_mod_iff (by norm_num)).mpr (Nat.dvd_add hdvd (dvd_refl _))
    · omega

/-- The walk is at the first descriptor it found, or right behind one of the page before. -/
def Walks (b : Boot) (idx tmpadr : Nat) : Prop :=
  b.Has idx ∨ ∃ j, idx = j + 1 ∧ b.Has j ∧ phyadrOf (b.msa j) + 0x1000 = tmpadr

theorem Walks.has {P : Nat → Prop} {idx tmpadr : Nat} (h : Walks b idx tmpadr) (hm : Marks P b.msa msa)
    (hadr : phyadrOf (msa idx) = tmpadr) (hun : Untaken (msa idx)) : b.Has idx := by
  rcases h with hhas | ⟨j, rfl, hhas, hprev⟩
  · exact hhas
  intro htail
  have hj := hhas htail
  by_contra hge
  obtain hlast : b.msanr = j + 1 := by omega
  have hsame : msa (j + 1) = b.msa (j + 1) := hm.untaken hun
  rw [hsame] at hadr hun
  refine htail (b.msa (j + 1)).mfMarty ?_
  rw [hlast, Nat.add_sub_cancel, isFreeMsa, nextPage, decide_eq_true_iff, decide_eq_true_iff]
  refine ⟨⟨rfl, hun.2.1, hun.1, hun.2.2⟩, ?_⟩
  have hlt := phyadrOf_lt (b.msa (j + 1))
  rw [bitsSub_of_le (by omega) hlt]
  omega

theorem occupyLoop_spec (hhi : hi ≤ 2 ^ 64 - 0x1000) (c : Nat) : ∀ tmpadr fsmsnr msa r,
    0x1000 ∣ tmpadr → Marks (fun _ => True) b.msa msa → Walks b (fstatmp + fsmsnr) tmpadr →
    occupyLoop fstatmp hi c tmpadr fsmsnr msa = .ok (some r, msa') → Occupied b msa msa' tmpadr hi := by
  induction c with
  | zero =>
    intro tmpadr fsmsnr msa r _ _ _ heq
    simp [occupyLoop] at heq
  | succ c ih =>
    intro tmpadr fsmsnr msa r hdvd hm hwalk heq
    rw [occupyLoop] at heq
    simp only at heq
    split_ifs at heq with hlt hadr hbad
    · simp at heq
    · simp at heq
    · -- the page at `tmpadr` is marked and the walk goes on
      rw [not_not] at hadr
      have hun : Untaken (msa (fstatmp + fsmsnr)) := by
        simp only [not_or, not_not, Bool.not_eq_true] at hbad
        exact hbad
      have hhas := hwalk.has hm hadr hun
      generalize hidx : fstatmp + fsmsnr = idx at *
      have hone : Marks (fun _ => True) msa (update msa idx (occupy (msa idx))) := by
        intro n
        by_cases hn : n = idx
        · subst hn
          exact .inr ⟨update_self .., hun, trivial⟩
        · exact .inl (update_of_ne hn ..)
      have hnext : Walks b (fstatmp + (fsmsnr + 1)) (tmpadr + 0x1000) := by
        refine .inr ⟨idx, by omega, hhas, ?_⟩
        rw [← hm.phyadrOf_eq, hadr]
      rw [u64_of_lt (by omega)] at heq
      have hrest := ih _ _ _ r (Nat.dvd_add hdvd (dvd_refl _)) (hm.trans hone) hnext heq
      have hself : msa' idx = occupy (msa idx) := by
        rw [hrest.marks.occupied, update_self]
        rw [update_self]
        exact not_untaken_occupy _
      refine ⟨fun n => ?_, fun x hlo hxhi => ?_⟩
      · by_cases hn : n = idx
        · subst hn
          exact .inr ⟨hself, hun, by rw [hadr], by rw [hadr]; exact hlt⟩
        · have hn' := hrest.marks n
          rw [update_of_ne hn] at hn'
          exact hn'.imp_right fun ⟨h1, h2, h3, h4⟩ => ⟨h1, h2, by omega, h4⟩
      · by_cases hx : tmpadr + 0x1000 ≤ x
        · exact hrest.all x hx hxhi
        · refine ⟨idx, hhas, ?_, by rw [hself]; rfl, by rw [hself]; rfl⟩
          rw [hself, phyadrOf_occupy, hadr]
          omega
    · injection heq with heq
      injection heq with _ heq
      subst heq
      exact ⟨.refl _ _, fun x hlo hxhi => by omega⟩

end Walk

theorem searchSegmentOccupymsadsc_spec {r : Nat} (hm : Marks (fun _ => True) b.msa msa)
    (heq : searchSegmentOccupymsadsc b.msanr lo hi msa = .ok (r, msa')) (hr : r ≠ 0) :
    lo < hi ∧ Occupied b msa msa' lo hi := by
  unfold searchSegmentOccupymsadsc at heq
  cases hfind : (List.range b.msanr).find? fun mnr => decide (phyadrOf (msa mnr) = lo) with
  | none =>
    rw [hfind] at heq
    injection heq with heq
    injection heq with heq
    exact absurd heq.symm hr
  | some fstatmp =>
    rw [hfind] at heq
    have hlt := List.mem_range.mp (List.mem_of_find?_eq_some hfind)
    have hadr : phyadrOf (msa fstatmp) = lo := by simpa using List.find?_some hfind
    obtain ⟨⟨r', msa₁⟩, hloop, heq⟩ := bind_eq_ok heq
    cases r' with
    | none =>
      injection heq with heq
      injection heq with heq
      exact absurd heq.symm hr
    | some fsmsnr =>
      -- a result other than `0` is the count of the walk
      obtain ⟨rfl, rfl⟩ : r = fsmsnr ∧ msa₁ = msa' := by
        simp only at heq
        split_ifs at heq <;> obtain ⟨hcount, hmsa⟩ := pair_inj heq
        · exact absurd hcount.symm hr
        · exact ⟨hcount.symm, hmsa⟩
        · exact absurd hcount.symm hr
        · exact ⟨hcount.symm, hmsa⟩
      have hdvd : 0x1000 ∣ lo := hadr ▸ dvd_phyadrOf _
      have hlo : lo < 2 ^ 64 := lt_trans (hadr ▸ phyadrOf_lt _) (by norm_num)
      have hend := occupyLoop_le _ _ _ _ _ hlo hdvd hloop
      refine ⟨?_, occupyLoop_spec hend _ _ _ _ _ hdvd hm (.inl fun _ => hlt) hloop⟩
      by_contra hge
      rw [occupyLoop, if_neg hge] at hloop
      injection hloop with hloop
      injection hloop with hloop
      exact hr (Option.some.inj hloop).symm

/-- **The walks together**: they mark every page of their ranges, and no other. -/
theorem searchSegments_spec (segs : List (Nat × Nat)) : ∀ msa, Marks (fun _ => True) b.msa msa →
    searchSegments b.msanr segs msa = .ok (true, msa') →
    Marks (fun p => ∃ seg ∈ segs, seg.1 ≤ p ∧ p < seg.2) msa msa' ∧
      ∀ seg ∈ segs, seg.1 < seg.2 ∧ ∀ x, seg.1 ≤ x → x < seg.2 → Marked b msa' x := by
  induction segs with
  | nil =>
    intro msa _ heq
    injection heq with heq
    injection heq with _ heq
    subst heq
    exact ⟨.refl _ _, by simp⟩
  | cons seg segs ih =>
    intro msa hm heq
    obtain ⟨⟨r, msa₁⟩, hseg, heq⟩ := bind_eq_ok heq
    simp only at heq
    split_ifs at heq with hr
    · simp at heq
    obtain ⟨hlt, hocc⟩ := searchSegmentOccupymsadsc_spec hm hseg hr
    obtain ⟨hmarks, hall⟩ := ih msa₁ (hm.trans (hocc.marks.mono fun _ _ => trivial)) heq
    refine ⟨?_, fun seg' hseg' => ?_⟩
    · refine (hocc.marks.mono fun p hp => ?_).trans (hmarks.mono fun p hp => ?_)
      · exact ⟨seg, List.mem_cons_self, hp⟩
      · obtain ⟨seg', hseg', hp⟩ := hp
        exact ⟨seg', List.mem_cons_of_mem _ hseg', hp⟩
    · rcases List.mem_cons.mp hseg' with rfl | hseg'
      · exact ⟨hlt, fun x hlo hhi => (hocc.all x hlo hhi).marks hmarks⟩
      · exact hall seg' hseg'

/-! ### The bytes in use -/

/-- A byte of the first page, the initial stack, the kernel with its tables or the image. -/
def Machbstart.InUse (mb : Machbstart) (x : Nat) : Prop :=
  x < 0x1000 ∨ (mb.mbKrlinitstack - mb.mbKrlitstacksz ≤ x ∧ x < mb.mbKrlinitstack) ∨
    (mb.mbKrlimgpadr ≤ x ∧ x < mb.mbNextwtpadr) ∨ (mb.mbImgpadr ≤ x ∧ x < mb.mbImgpadr + mb.mbImgsz)

/-- Page numbers of addresses below `2 ^ 52`. -/
def Boot.Low (b : Boot) : Prop := ∀ i < b.msanr, (b.msa i).pafPadrs < 2 ^ 40

/-- The byte at `x` is in a page that is marked as the kernel's: a descriptor has its address, and, unless the memory
behind the array looks like more of it, is the one of its page in the array. -/
def Reserved (b : Boot) (msa : Nat → Msadsc) (x : Nat) : Prop :=
  ∃ n, (b.Tail → n < b.msanr ∧ (msa n).pafPadrs = x / 0x1000) ∧ phyadrOf (msa n) = x / 0x1000 * 0x1000 ∧
    (msa n).mfMocty = .krnl ∧ (msa n).pafAlloc = true

def freeArray (padrs : List Nat) (n : Nat) : Msadsc where
  mfOlkty := .init
  mfMocty := .free
  mfMarty := 0
  mfUindx := if n < padrs.length then 0 else 1
  pafAlloc := false
  pafPadrs := padrs.getD n 0
  mdOdlink := .null

theorem freeArray_tail (padrs : List Nat) : (Boot.mk padrs.length (freeArray padrs)).Tail := by
  intro marty hbad
  simp [isFreeMsa, freeArray] at hbad

theorem Marks.freeArray_wf {P : Nat → Prop} {padrs : List Nat} (hpos : 0 < padrs.length) (hlen : padrs.length < 2 ^ 63)
    (hlt : ∀ p ∈ padrs, p < 2 ^ 40) (h : Marks P (freeArray padrs) msa') : (Boot.mk padrs.length msa').Wf := by
  -- the memory behind the array is in use, so that it keeps its attributes
  have hbehind : msa' padrs.length = freeArray padrs padrs.length := by
    refine h.occupied fun hun => ?_
    simp [Untaken, freeArray] at hun
  refine ⟨⟨⟨fun i hi => ?_, fun i hi => ?_, fun i hi => ?_⟩, hpos, hlen⟩, fun marty hbad => ?_⟩
  · simp only [h.pafPadrs_eq]
    rw [freeArray, List.getD_eq_getElem?_getD, List.getElem?_eq_getElem hi]
    exact hlt _ (List.getElem_mem hi)
  · rcases h i with heq | ⟨heq, -⟩ <;> simp only [heq] <;> exact ⟨rfl, rfl, rfl⟩
  · rcases h i with heq | ⟨heq, hun, -⟩
    · refine .inr ?_
      simp only [heq]
      exact ⟨rfl, if_pos hi, rfl⟩
    · refine .inl ?_
      simp only [heq, occupy, hun.2.1]
      exact ⟨trivial, trivial, trivial⟩
  · simp only [hbehind] at hbad
    simp [isFreeMsa, freeArray] at hbad

def onePageEach (imgpadr msanr : Nat) : Machbstart where
  mbKrlinitstack := ikstackPhyadr
  mbKrlitstacksz := ikstackSize
  mbImgpadr := imgpadr
  mbImgsz := 0x1000
  mbKrlimgpadr := 0x2000000
  mbNextwtpadr := 0x2001000
  mbMemmappadr := 0x1000000
  mbMemmapnr := msanr

end Cosmos.Page
