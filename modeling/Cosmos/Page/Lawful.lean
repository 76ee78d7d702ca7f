import Cosmos.Page.Exact
import Cosmos.Page.Occupy

/-!
# The page allocator as its callers rely on it

From boot on, `mm_division_pages`, `mm_divpages_procmarea` and `mm_merge_pages` are what `Lawful` asks of them
(`memmgrobLawful`), once the firmware reports no page twice and the first page is marked. A caller's log of what it
obtained and gave back (`logged`) then says which blocks it still owes (`outstanding`).
-/

namespace Cosmos.Page

open Cosmos.Lib

variable {b : Boot} {s₀ s s' : Memmgrob} {l l' : List Blk} {c : Blk} {a k m n i : Nat}

/-! ### The allocator of this kernel -/

/-- The calls on `memmgrob`; `msadsc_ret_addr` is the address of the page. -/
def memmgrob : PageAlloc where
  State := Memmgrob
  mmDivisionPages := mmDivisionPages
  mmDivpagesProcmarea := mmDivpagesProcmarea
  mmMergePages := mmMergePages
  onfrmsaRetnFpagenr := onfrmsaRetnFpagenr
  msadscRetAddr := fun s msa => phyadrOf (s.msa msa)

/-- The array has no page twice, and the kernel keeps the first page of memory. -/
structure Boot.Mapped (b : Boot) : Prop extends Boot.Wf b where
  inj : ∀ i < b.msanr, ∀ j < b.msanr, (b.msa i).pafPadrs = (b.msa j).pafPadrs → i = j
  first : ∀ i < b.msanr, (b.msa i).pafPadrs = 0 → (b.msa i).mfMocty = .krnl

theorem mapped_of_occupied {mb : Machbstart} {msa msa' : Nat → Msadsc}
    (hret : searchKrloccupymsadscCore mb msa = .ok (true, msa')) (htail : (Boot.mk mb.mbMemmapnr msa).Tail)
    (hok : (Boot.mk mb.mbMemmapnr msa').Wf)
    (hinj : ∀ i < mb.mbMemmapnr, ∀ j < mb.mbMemmapnr, phyadrOf (msa' i) = phyadrOf (msa' j) → i = j) :
    (Boot.mk mb.mbMemmapnr msa').Mapped := by
  refine ⟨hok, fun i hi j hj heq => hinj i hi j hj ?_, fun i hi hzero => ?_⟩
  · simp only at heq
    unfold phyadrOf
    rw [heq]
  · obtain ⟨_, -, hret⟩ := Halt.bind_eq_ok hret
    have hall := (searchSegments_spec (b := ⟨mb.mbMemmapnr, msa⟩) mb.segments msa (.refl _ _) hret).2
    obtain ⟨n, hhas, hadr, hkrnl, -⟩ := (hall (0, 0x1000) List.mem_cons_self).2 0 le_rfl (by decide)
    have hadr' : phyadrOf (msa' i) = 0 := by
      simp only at hzero
      unfold phyadrOf
      rw [hzero]
      rfl
    rw [hinj i hi n (hhas htail) (hadr'.trans hadr.symm)]
    exact hkrnl

theorem freeArray_mapped {padrs : List Nat} (hpos : 0 < padrs.length) (hlen : padrs.length < 2 ^ 63)
    (hlt : ∀ p ∈ padrs, 0 < p ∧ p < 2 ^ 40) (hnodup : padrs.Nodup) :
    (Boot.mk padrs.length (freeArray padrs)).Mapped := by
  have hget : ∀ i (hi : i < padrs.length), (freeArray padrs i).pafPadrs = padrs.get ⟨i, hi⟩ := fun i hi => by
    simp [freeArray, List.getD_eq_getElem?_getD, hi]
  refine ⟨Marks.freeArray_wf hpos hlen (fun p hp => (hlt p hp).2) (.refl (fun _ => False) _), fun i hi j hj heq => ?_,
    fun i hi hzero => ?_⟩
  · simp only [hget i hi, hget j hj] at heq
    exact congrArg Fin.val (hnodup.injective_get heq)
  · have hmem := (hlt _ (List.get_mem padrs ⟨i, hi⟩)).1
    rw [← hget i hi] at hmem
    exact absurd hzero (by simp only; omega)

/-- The state after calls from `s₀` on, with the live blocks `l`. -/
structure Pool (s₀ s : Memmgrob) (l : List Blk) : Prop where
  nodup : l.Nodup
  inv : Inv s ∅ ↑l.toFinset
  kept : Kept s₀ s
  sized : Sized s₀ s
  pages : ∀ a, pagesOf s l.toFinset a = pagesOf s₀ ∅ a

theorem Pool.effect (h : Pool s₀ s l) (he : Effect s l.toFinset s' l'.toFinset) (hnodup : l'.Nodup) :
    Pool s₀ s' l' where
  nodup := hnodup
  inv := he.inv h.inv
  kept := h.kept.trans he.kept
  sized := he.sized h.sized
  pages := fun a => (he.pagesOf_eq h.inv a).trans (h.pages a)

theorem pool_of_run {ops : List Op} {live : Finset Blk} (hb : b.Wf) (hboot : boot b = .ok s₀)
    (hops : ∀ op ∈ ops, op.InArray b.msanr) (hrun : runHalt step (s₀, ∅) ops = .ok (s, live)) :
    OfBoot b s₀ ∧ Pool s₀ s live.toList := by
  obtain ⟨hof, h₀⟩ := of_boot hb hboot
  obtain ⟨h, hkept, hsized, hpages⟩ := runHalt_counted h₀ hof.freepages (hof.msanr ▸ hops) hrun
  refine ⟨hof, live.nodup_toList, ?_, hkept, hsized, ?_⟩
  · rwa [Finset.toList_toFinset]
  · rwa [Finset.toList_toFinset]

/-- **The counter of an area** depends on the live blocks only. -/
theorem Pool.freepages_eq {t : Memmgrob} (h : Pool s₀ s l) (h' : Pool s₀ t l') (hperm : l.Perm l') (a : Nat) :
    (t.marea a).maFreepages = (s.marea a).maFreepages := by
  have hsize : liveSize t a l'.toFinset = liveSize s a l.toFinset := by
    rw [liveSize_congr h'.kept, liveSize_congr h.kept, List.toFinset_eq_of_perm _ _ hperm]
  have hpages := (h'.pages a).trans (h.pages a).symm
  unfold pagesOf u64 at hpages
  have hlt := h.sized.freepages a
  have hlt' := h'.sized.freepages a
  omega

section Blocks

variable (hof : OfBoot b s₀) (h : Pool s₀ s l)

include hof h

theorem Pool.page (hc : c ∈ l) (hlo : c.1 ≤ i) (hhi : i < c.1 + c.2) :
    i < b.msanr ∧ (b.msa i).mfMocty ≠ .krnl ∧ (b.msa i).pafPadrs = (b.msa c.1).pafPadrs + (i - c.1) := by
  have hmem : c ∈ (↑l.toFinset : Set Blk) := by simpa using hc
  have hlt := h.inv.lt_of_used (.inr hmem) hlo hhi
  obtain ⟨a, k, -, -, hblk⟩ := h.inv.live c hmem
  have hpadrs := hblk.padrs i hlo hhi
  rw [h.kept.msanr, hof.msanr, h.kept.mocty, hof.mocty] at hlt
  rw [h.kept.padrs, hof.padrs, h.kept.padrs, hof.padrs] at hpadrs
  exact ⟨hlt.1, hlt.2, hpadrs⟩

omit hof in
theorem Pool.pos (hc : c ∈ l) : 0 < c.2 := by
  obtain ⟨a, k, -, hn, -⟩ := h.inv.live c (by simpa using hc)
  rw [hn]
  exact pnr_pos k

theorem Pool.addr_eq (hb : b.Mapped) (hc : c ∈ l) :
    memmgrob.msadscRetAddr s c.1 = (b.msa c.1).pafPadrs * 0x1000 := by
  have hpos := h.pos hc
  have hlt := (h.page hof hc le_rfl (by omega)).1
  have hpadrs : (s.msa c.1).pafPadrs = (b.msa c.1).pafPadrs := (h.kept.padrs c.1).trans (hof.padrs c.1)
  have hbound := hb.padrs c.1 hlt
  rw [← hpadrs] at hbound ⊢
  exact phyadrOf_eq (by omega)

theorem Pool.apart (hb : b.Mapped) {d : Blk} (hc : c ∈ l) (hd : d ∈ l) (hne : c ≠ d) :
    Apart (memmgrob.msadscRetAddr s) c d := by
  unfold Apart
  rw [h.addr_eq hof hb hc, h.addr_eq hof hb hd]
  by_contra hover
  rw [not_or] at hover
  have hposc := h.pos hc
  have hposd := h.pos hd
  -- the higher of the two first pages is in both blocks
  obtain ⟨i, j, hi, hj, heq⟩ : ∃ i j, i < c.2 ∧ j < d.2 ∧
      (b.msa c.1).pafPadrs + i = (b.msa d.1).pafPadrs + j := by
    by_cases hle : (b.msa c.1).pafPadrs ≤ (b.msa d.1).pafPadrs
    · exact ⟨(b.msa d.1).pafPadrs - (b.msa c.1).pafPadrs, 0, by omega, by omega, by omega⟩
    · exact ⟨0, (b.msa c.1).pafPadrs - (b.msa d.1).pafPadrs, by omega, by omega, by omega⟩
  obtain ⟨hlt, -, hpadrs⟩ := h.page hof hc (i := c.1 + i) (by omega) (by omega)
  obtain ⟨hlt', -, hpadrs'⟩ := h.page hof hd (i := d.1 + j) (by omega) (by omega)
  have hsame := hb.inj _ hlt _ hlt' (by omega)
  refine h.inv.used_apart (b := c) (c := d) (.inr (by simpa using hc)) (.inr (by simpa using hd)) hne
    (i := c.1 + i) (by omega) (by omega) ⟨by omega, by omega⟩

theorem Pool.frame (hb : b.Mapped) (hc : c ∈ l) :
    0 < c.2 ∧ 0 < memmgrob.msadscRetAddr s c.1 ∧ 0x1000 ∣ memmgrob.msadscRetAddr s c.1 ∧
      memmgrob.msadscRetAddr s c.1 + c.2 * 0x1000 ≤ 2 ^ 52 := by
  have hpos := h.pos hc
  obtain ⟨hlt, hkrnl, -⟩ := h.page hof hc le_rfl (by omega)
  obtain ⟨hlast, -, hpadrs⟩ := h.page hof hc (i := c.1 + c.2 - 1) (by omega) (by omega)
  have hbound := hb.padrs _ hlast
  have hzero : (b.msa c.1).pafPadrs ≠ 0 := fun hzero => hkrnl (hb.first c.1 hlt hzero)
  rw [h.addr_eq hof hb hc]
  exact ⟨hpos, by omega, Nat.dvd_mul_left _ _, by omega⟩

theorem Pool.low (hb : b.Mapped) (hc : c ∈ l) (harea : (s.msa (c.1 + c.2 - 1)).mfMarty = maTypeKrnl) :
    memmgrob.msadscRetAddr s c.1 + c.2 * 0x1000 ≤ krnlMapPhyaddressEnd := by
  have hpos := h.pos hc
  obtain ⟨hlast, -, hpadrs⟩ := h.page hof hc (i := c.1 + c.2 - 1) (by omega) (by omega)
  have harea' : areaOf (b.msa (c.1 + c.2 - 1)).pafPadrs = 1 := by
    rw [h.kept.marty, hof.marty _ hlast] at harea
    exact Nat.succ.inj harea
  have hlt : (b.msa (c.1 + c.2 - 1)).pafPadrs < 0x400000 := by
    unfold areaOf at harea'
    split_ifs at harea'
    · assumption
    · cases harea'
  rw [h.addr_eq hof hb hc]
  unfold krnlMapPhyaddressEnd
  omega

omit hof in
theorem Pool.fpagenr (hc : c ∈ l) : onfrmsaRetnFpagenr s c.1 = c.2 := by
  have hpos := h.pos hc
  obtain ⟨a, k, -, -, hblk⟩ := h.inv.live c (by simpa using hc)
  unfold onfrmsaRetnFpagenr
  rw [hblk.first.2.1]
  simp only
  rw [if_neg (by omega)]
  omega

end Blocks

/-! ### The calls keep the pool -/

section Calls

variable (h : Pool s₀ s l)

include h

theorem Pool.took (hh : Handed s s' ↑l.toFinset a k m) : Pool s₀ s' ((m, pnr k) :: l) := by
  obtain ⟨div, s₁, htook, -⟩ := id hh
  have hfresh : (m, pnr k) ∉ l := by simpa using htook.fresh
  refine h.effect ?_ (List.nodup_cons.mpr ⟨hfresh, h.nodup⟩)
  rw [List.toFinset_cons]
  exact .took hh

theorem Pool.addr_congr {s' : Memmgrob} (h' : Pool s₀ s' l') :
    memmgrob.msadscRetAddr s' = memmgrob.msadscRetAddr s := by
  funext i
  show phyadrOf (s'.msa i) = phyadrOf (s.msa i)
  unfold phyadrOf
  rw [h'.kept.padrs, h.kept.padrs]

end Calls

theorem Pool.division (hb : b.Mapped) (hof : OfBoot b s₀) (h : Pool s₀ s l) (pages mrtype : Nat) :
    ∃ r s', mmDivisionPages s pages mrtype dmfReldiv = .ok (r, s') ∧
      memmgrob.msadscRetAddr s' = memmgrob.msadscRetAddr s ∧
      Grants (Pool s₀) l (2 ^ Nat.clog 2 pages) (fun b => mrtype = maTypeKrnl →
        memmgrob.msadscRetAddr s b.1 + b.2 * 0x1000 ≤ krnlMapPhyaddressEnd) (r, s') := by
  rcases mmDivisionPages_spec h.inv pages mrtype dmfReldiv with heq | ⟨a, k, m, s', heq, hh, hmr, hk⟩
  · exact ⟨none, s, heq, rfl, h⟩
  · have h' := h.took hh
    refine ⟨_, s', heq, h.addr_congr h', hk rfl, fun hkrnl => ?_, h'⟩
    rw [← h.addr_congr h']
    have hpos := pnr_pos k
    refine h'.low hof hb List.mem_cons_self ?_
    rw [(hh.liveBlk h.inv).marty (m + pnr k - 1) (by omega) (by omega), ← hmr, hkrnl]

theorem Pool.procmarea (h : Pool s₀ s l) (pages : Nat) :
    ∃ r s', mmDivpagesProcmarea s pages = .ok (r, s') ∧ memmgrob.msadscRetAddr s' = memmgrob.msadscRetAddr s ∧
      Grants (Pool s₀) l (2 ^ Nat.clog 2 pages) (fun _ => True) (r, s') := by
  by_cases hone : pages = 1
  case neg => exact ⟨none, s, if_pos hone, rfl, h⟩
  subst hone
  rcases mmDivpagesProcmarea_spec h.inv 1 with heq | ⟨a, k, m, s', heq, hh, hk⟩
  · exact ⟨none, s, heq, rfl, h⟩
  · have h' := h.took hh
    rw [hk] at h'
    exact ⟨_, s', heq, h.addr_congr h', by rw [Nat.clog_one_right, pow_zero], trivial, h'⟩

theorem Pool.merge (h : Pool s₀ s (c :: l)) : ∃ s', mmMergePages s c.1 c.2 = .ok (true, s') ∧
    memmgrob.msadscRetAddr s' = memmgrob.msadscRetAddr s ∧ Pool s₀ s' l := by
  obtain ⟨hc, hnodup⟩ := List.nodup_cons.mp h.nodup
  have hset : (c :: l).toFinset.erase c = l.toFinset := by
    rw [List.toFinset_cons, Finset.erase_insert (by simpa using hc)]
  have hinsert : Inv s ∅ (insert (c.1, c.2) ↑l.toFinset) := by
    rw [← Finset.coe_insert, ← List.toFinset_cons]
    exact h.inv
  obtain ⟨s', a, heq, hblk, hfreed⟩ := mmMergePages_freed hinsert (by simpa using hc)
  have h' : Pool s₀ s' l := by
    refine h.effect ?_ hnodup
    rw [← hset] at hfreed ⊢
    exact .freed (by simp) hblk hfreed
  exact ⟨s', heq, h.addr_congr h', h'⟩

/-- **The page allocator is lawful** from boot on. -/
def memmgrobLawful (hb : b.Mapped) (hof : OfBoot b s₀) : Lawful memmgrob where
  Inv := Pool s₀
  perm := fun h hperm => h.effect (List.toFinset_eq_of_perm _ _ hperm ▸ .refused) (hperm.nodup h.nodup)
  apart := fun h => h.nodup.imp_of_mem fun hc hd hne => h.apart hof hb hc hd hne
  frame := fun h _ hc => h.frame hof hb hc
  fpagenr := fun h _ hc => h.fpagenr hc
  division := fun pages mrtype h _ => h.division hb hof pages mrtype
  procmarea := fun pages h _ => h.procmarea pages
  merge := fun h => h.merge

theorem memmgrob_freeCount (hb : b.Mapped) (hof : OfBoot b s₀) (a : Nat) :
    (memmgrobLawful hb hof).FreeCount fun s => (s.marea a).maFreepages :=
  fun _ _ _ h h' => Pool.freepages_eq h h' (.refl _) a

theorem memmgrob_low (hb : b.Mapped) (hof : OfBoot b s₀) (hlow : ∀ i < b.msanr, (b.msa i).pafPadrs < 2 ^ 28) :
    (memmgrobLawful hb hof).Low := by
  intro s l c h hc
  have hpool : Pool s₀ s l := h
  have hlt := hlow _ (hpool.page hof hc le_rfl (Nat.lt_add_of_pos_right (hpool.pos hc))).1
  rw [hpool.addr_eq hof hb hc]
  omega

theorem memmgrob_strict (hb : b.Mapped) (hof : OfBoot b s₀) : (memmgrobLawful hb hof).Strict := by
  intro s l c n h hc hne
  have hpool : Pool s₀ s l := h
  have hlt := (hpool.page hof hc le_rfl (Nat.lt_add_of_pos_right (hpool.pos hc))).1
  rw [← hof.msanr, ← hpool.kept.msanr] at hlt
  refine mmMergePages_refused hpool.inv hlt fun hmem => hne ?_
  have hd : (c.1, n) ∈ l := by simpa using hmem
  exact (hpool.fpagenr hd).symm.trans (hpool.fpagenr hc)

/-! ### Keeping a log -/

/-- A block that a caller obtained or gave back. -/
inductive Event where
  | got (b : Blk)
  | gave (b : Blk)
  deriving DecidableEq, Repr

def logGot {σ : Type} (log : List Event) : Option Blk × σ → Option Blk × σ × List Event
  | (none, s) => (none, s, log)
  | (some b, s) => (some b, s, .got b :: log)

/-- The same calls with a log of what was obtained and of every block given back, newest first. -/
def logged (A : PageAlloc) : PageAlloc where
  State := A.State × List Event
  mmDivisionPages := fun x pages mrtype flgs =>
    A.mmDivisionPages x.1 pages mrtype flgs >>= fun r => .ok (logGot x.2 r)
  mmDivpagesProcmarea := fun x pages => A.mmDivpagesProcmarea x.1 pages >>= fun r => .ok (logGot x.2 r)
  mmMergePages := fun x freemsa freepgs =>
    A.mmMergePages x.1 freemsa freepgs >>= fun r => .ok (r.1, r.2, .gave (freemsa, freepgs) :: x.2)
  onfrmsaRetnFpagenr := fun x freemsa => A.onfrmsaRetnFpagenr x.1 freemsa
  msadscRetAddr := fun x msa => A.msadscRetAddr x.1 msa

/-- The blocks obtained and not given back; `none` if one was obtained twice, or given back when it was not there. -/
def outstanding : List Event → Option (List Blk)
  | [] => some []
  | .got b :: log => outstanding log >>= fun out => if b ∈ out then none else some (b :: out)
  | .gave b :: log => outstanding log >>= fun out => if b ∈ out then some (out.erase b) else none

/-- The live blocks of the caller with the log; `rest` are those of everybody else. -/
def Owes {A : PageAlloc} (L : Lawful A) (rest : List Blk) (x : A.State × List Event) (l : List Blk) : Prop :=
  L.Inv x.1 (l ++ rest) ∧ ∃ out, outstanding x.2 = some out ∧ out.Perm l

section Logged

variable {A : PageAlloc} {L : Lawful A} {rest : List Blk} {x : A.State × List Event}

theorem Owes.got {t : A.State} (h : Owes L rest x l) (ht : L.Inv t (c :: (l ++ rest))) :
    Owes L rest (t, .got c :: x.2) (c :: l) := by
  obtain ⟨-, out, hout, hperm⟩ := h
  have hc : c ∉ out := by
    have hnodup := L.nodup ht
    rw [List.nodup_cons, List.mem_append, not_or] at hnodup
    rw [hperm.mem_iff]
    exact hnodup.1.1
  refine ⟨ht, c :: out, ?_, hperm.cons c⟩
  rw [outstanding, hout]
  exact if_neg hc

theorem Owes.gave {t : A.State} (h : Owes L rest x (c :: l)) (ht : L.Inv t (l ++ rest)) :
    Owes L rest (t, .gave c :: x.2) l := by
  obtain ⟨-, out, hout, hperm⟩ := h
  have hc : c ∈ out := hperm.mem_iff.mpr List.mem_cons_self
  refine ⟨ht, out.erase c, ?_, ?_⟩
  · rw [outstanding, hout]
    exact if_pos hc
  · rw [← List.erase_cons_head c l]
    exact hperm.erase c

theorem Owes.grants {n : Nat} {P : Blk → Prop} {r : Option Blk} {t : A.State} (h : Owes L rest x l)
    (hr : Grants L.Inv (l ++ rest) n P (r, t)) : Grants (Owes L rest) l n P (logGot x.2 (r, t)) := by
  cases r with
  | none => exact ⟨hr, h.2⟩
  | some c => exact ⟨hr.1, hr.2.1, h.got hr.2.2⟩

/-- **The log of a caller is exact**: what is outstanding is live. -/
def loggedLawful (L : Lawful A) (rest : List Blk) : Lawful (logged A) where
  Inv := Owes L rest
  perm := fun ⟨hinv, out, hout, hperm⟩ hll' =>
    ⟨L.perm hinv (hll'.append_right rest), out, hout, hperm.trans hll'⟩
  apart := fun h => (List.pairwise_append.mp (L.apart h.1)).1
  frame := fun h c hc => L.frame h.1 c (List.mem_append_left _ hc)
  fpagenr := fun h c hc => L.fpagenr h.1 c (List.mem_append_left _ hc)
  division := by
    intro x l pages mrtype h hpages
    obtain ⟨r, t, heq, haddr, hgrants⟩ := L.division pages mrtype h.1 hpages
    refine ⟨_, _, Halt.bind_of_ok heq _, ?_, h.grants hgrants⟩
    cases r with
    | none => exact haddr
    | some c => exact haddr
  procmarea := by
    intro x l pages h hpages
    obtain ⟨r, t, heq, haddr, hgrants⟩ := L.procmarea pages h.1 hpages
    refine ⟨_, _, Halt.bind_of_ok heq _, ?_, h.grants hgrants⟩
    cases r with
    | none => exact haddr
    | some c => exact haddr
  merge := by
    intro x l c h
    obtain ⟨t, heq, haddr, hinv⟩ := L.merge h.1
    exact ⟨_, Halt.bind_of_ok heq _, haddr, h.gave hinv⟩

end Logged

end Cosmos.Page
