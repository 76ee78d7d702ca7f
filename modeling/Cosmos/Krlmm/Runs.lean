import Cosmos.Krlmm.Model
import Cosmos.Obj.Runs

/-!
# Kernel memory comes back

A page block is recorded under the number of pages the page allocator handed out, a power of two, and looked for under
the number of pages of the size. The two agree exactly for the sizes of `Whole`: an object, or a power of two of pages.
In every run memory of such a size is found again and given back (`Inv.delete_whole`). A block of another size stays
live (`Inv.delete_lost`): nothing is found, or in the last list the record is dropped and the page allocator refuses the
number of pages.
-/

namespace Cosmos.Krlmm

open Cosmos.Lib Halt Cosmos.Page Function
open Obj (vadr classOf koblstMax Call)

variable {A : PageAlloc} {L : Lawful A} {addr : Nat → Nat} {rest : List Blk} {st st' : St A}

/-! ### Sizes -/

def pagesOfSize (sz : Nat) : Nat := pageAlign sz / 2 ^ pageSzrbit

def Whole (sz : Nat) : Prop := sz ≤ objsorpage ∨ ∃ k, pagesOfSize sz = 2 ^ k

theorem pagesOfSize_eq {sz : Nat} (h : sz ≤ malcszMax) : pagesOfSize sz = (sz + 0xfff) / 0x1000 := by
  have hmax : malcszMax = 0x400000 := rfl
  unfold pagesOfSize pageAlign pageSzrbit
  rw [alignUp_eq (by omega)]
  omega

theorem pagesOfSize_pos {sz : Nat} (h : sz ≤ malcszMax) (hpos : 1 ≤ sz) : 1 ≤ pagesOfSize sz := by
  rw [pagesOfSize_eq h]
  omega

theorem objsAlign_bounds {sz : Nat} (hpos : 1 ≤ sz) (h : sz ≤ objsorpage) :
    1 ≤ objsAlign sz ∧ objsAlign sz ≤ 2048 := by
  have hmax : objsorpage = 2048 := rfl
  unfold objsAlign
  rw [alignUp_eq (by omega)]
  omega

theorem clog_eq_self_iff {n : Nat} : 2 ^ Nat.clog 2 n = n ↔ ∃ k, n = 2 ^ k := by
  constructor
  · exact fun h => ⟨_, h.symm⟩
  · rintro ⟨k, rfl⟩
    rw [Nat.clog_pow 2 k (by omega)]

/-! ### Memory in use -/

/-- The objects in use by class, and the page blocks in use by address and number of pages asked for. -/
structure Uses where
  objs : Nat → List Nat
  pgs : List (Nat × Nat)

def handOut (u : Uses) (sz : Nat) : Option Nat → Uses
  | none => u
  | some a =>
    if objsorpage < sz then { u with pgs := (a, pagesOfSize sz) :: u.pgs }
    else { u with objs := Obj.handOut u.objs (objsAlign sz) (some a) }

def takeBack (u : Uses) (a sz : Nat) : Bool → Uses
  | false => u
  | true =>
    if objsorpage < sz then { u with pgs := u.pgs.erase (a, pagesOfSize sz) }
    else { u with objs := Obj.takeBack u.objs a (objsAlign sz) true }

/-- `krlnew` returned `a` for this size, or one of the same class or number of pages, and it was not freed. -/
def InUse (u : Uses) (a sz : Nat) : Prop :=
  1 ≤ sz ∧ sz ≤ malcszMax ∧
    if objsorpage < sz then (a, pagesOfSize sz) ∈ u.pgs else Obj.IsLive u.objs a (objsAlign sz)

instance (u : Uses) (a sz : Nat) : Decidable (InUse u a sz) :=
  inferInstanceAs (Decidable (1 ≤ sz ∧ sz ≤ malcszMax ∧
    if objsorpage < sz then (a, pagesOfSize sz) ∈ u.pgs else Obj.IsLive u.objs a (objsAlign sz)))

/-- A free of something else that is not simply refused: a page block with another number of pages than it was asked for
with, or an address that the object allocator takes wrongly. -/
def Misfree (st : St A) (u : Uses) (a sz : Nat) : Prop :=
  if objsorpage < sz then (a, pagesOfSize sz) ∉ u.pgs ∧ ∃ n, (a, n) ∈ u.pgs
  else Obj.Misfree st.obj u.objs a (objsAlign sz)

def step (x : St A × Uses) : Call → Halt (St A × Uses)
  | .new sz => krlnew x.1 sz >>= fun r => .ok (r.2, handOut x.2 sz r.1)
  | .delete a sz => krldelete x.1 a sz >>= fun r => .ok (r.2, takeBack x.2 a sz r.1)

/-- The calls of a run: a free is of a 64-bit address and no misfree. -/
def CallOk (x : St A × Uses) : Call → Prop
  | .new _ => True
  | .delete a sz => a < 2 ^ 64 ∧ ¬ Misfree x.1 x.2 a sz

def Step (x : St A × Uses) (c : Call) (y : St A × Uses) : Prop := CallOk x c ∧ step x c = .ok y

/-! ### The invariant -/

def blkOf (x : Nat × Nat) : Blk := (x.1, 2 ^ Nat.clog 2 x.2)

/-- The page blocks `held` are recorded, if anywhere, in the list of their number of pages, and those of a power of two
of pages are. -/
structure Records (kmplp : Nat → Msahead) (held : List (Nat × Nat)) : Prop where
  only : ∀ i, ∀ m ∈ (kmplp i).mlhMsalst, ∃ x ∈ held, x.1 = m ∧ msalstOf (blkOf x).2 = i
  whole : ∀ x ∈ held, (blkOf x).2 = x.2 → x.1 ∈ (kmplp (msalstOf x.2)).mlhMsalst
  nodup : ∀ i, (kmplp i).mlhMsalst.Nodup
  nr : ∀ i, (kmplp i).mlhNr = (kmplp i).mlhMsalst.length

/-- The state between calls: `held` are the page blocks in use, by descriptor and number of pages asked for. -/
structure Inv (L : Lawful A) (addr : Nat → Nat) (rest : List Blk) (st : St A) (u : Uses) (held : List (Nat × Nat)) :
    Prop where
  obj : Obj.Inv (L.pin addr) (held.map blkOf ++ rest) st.obj u.objs
  pgs : u.pgs.Perm (held.map fun x => (vadr addr x.1, x.2))
  low : ∀ x ∈ held, addr x.1 + (blkOf x).2 * 0x1000 ≤ krnlMapPhyaddressEnd
  records : Records st.mpMsalsthead held

section Inv

variable {u : Uses} {held : List (Nat × Nat)} {x y : Nat × Nat} {a sz n : Nat}

theorem Inv.addr_eq (h : Inv L addr rest st u held) : A.msadscRetAddr st.obj.alc = addr := h.obj.alc.2

theorem Inv.alc (h : Inv L addr rest st u held) :
    L.Inv st.obj.alc (held.map blkOf ++ (Obj.total st.obj.blocks ++ rest)) := by
  refine L.perm h.obj.alc.1 ?_
  rw [← List.append_assoc, ← List.append_assoc]
  exact List.perm_append_comm.append_right rest

theorem Inv.blk_mem (hx : x ∈ held) : blkOf x ∈ held.map blkOf ++ (Obj.total st.obj.blocks ++ rest) :=
  List.mem_append_left _ (List.mem_map_of_mem hx)

theorem Inv.eq_of_vadr (h : Inv L addr rest st u held) (hx : x ∈ held) (hy : y ∈ held)
    (heq : vadr addr x.1 = vadr addr y.1) : x = y := by
  have hnodup : (held.map blkOf).Nodup := (List.nodup_append.mp (L.nodup h.alc)).1
  refine List.inj_on_of_nodup_map hnodup hx hy (L.eq_of_addr h.alc (Inv.blk_mem hx) (Inv.blk_mem hy) ?_)
  rw [h.addr_eq]
  unfold vadr at heq
  exact Nat.add_left_cancel heq

theorem Inv.held_nodup (h : Inv L addr rest st u held) : held.Nodup :=
  (List.nodup_append.mp (L.nodup h.alc)).1.of_map

theorem Inv.lt_end (h : Inv L addr rest st u held) (hx : x ∈ held) : addr x.1 < krnlMapPhyaddressEnd := by
  have hlow := h.low x hx
  have hpos := (L.frame h.alc _ (Inv.blk_mem hx)).1
  omega

theorem Inv.mem_pgs (h : Inv L addr rest st u held) (ha : (a, n) ∈ u.pgs) :
    ∃ m, (m, n) ∈ held ∧ vadr addr m = a := by
  obtain ⟨x, hx, heq⟩ := List.mem_map.mp (h.pgs.mem_iff.mp ha)
  obtain ⟨rfl, rfl⟩ := Prod.mk.inj heq
  exact ⟨x.1, hx, rfl⟩

end Inv

/-! ### Free memory -/

def Vacant (L : Lawful A) (s : A.State) (a n : Nat) : Prop :=
  ∃ l, L.Inv s l ∧ ∀ b ∈ l, a + n ≤ vadr (A.msadscRetAddr s) b.1 ∨ vadr (A.msadscRetAddr s) b.1 + b.2 * 0x1000 ≤ a

theorem clear_of_inside {s : A.State} {own l : List Blk} {c : Blk} {a n : Nat} (h : L.Inv s (own ++ l)) (hc : c ∈ own)
    (hlo : vadr (A.msadscRetAddr s) c.1 ≤ a) (hhi : a + n ≤ vadr (A.msadscRetAddr s) c.1 + c.2 * 0x1000) :
    ∀ b ∈ l, a + n ≤ vadr (A.msadscRetAddr s) b.1 ∨ vadr (A.msadscRetAddr s) b.1 + b.2 * 0x1000 ≤ a := by
  intro b hb
  have hapart := (List.pairwise_append.mp (L.apart h)).2.2 c hc b hb
  unfold Apart at hapart
  unfold vadr at *
  omega

/-! ### The records -/

theorem findMsadsc_eq {s : A.State} (haddr : A.msadscRetAddr s = addr) (fradr : Nat) (l : List Nat)
    (hlow : ∀ m ∈ l, addr m < krnlMapPhyaddressEnd) :
    findMsadsc s fradr l = .ok (l.find? fun m => decide (vadr addr m = fradr)) := by
  induction l with
  | nil => rfl
  | cons m l ih =>
    have hvaddr : A.msadscRetVaddr s m = .ok (vadr addr m) := by
      unfold PageAlloc.msadscRetVaddr
      rw [haddr]
      exact phyadrToViradr_ok (hlow m List.mem_cons_self)
    rw [findMsadsc, bind_of_ok hvaddr, List.find?_cons]
    by_cases heq : vadr addr m = fradr
    · simp [heq]
    · simp only [heq, if_false, decide_false]
      exact ih fun m' hm' => hlow m' (List.mem_cons_of_mem _ hm')

def drop (kmplp : Nat → Msahead) (i msa : Nat) : Nat → Msahead :=
  update kmplp i ⟨(kmplp i).mlhNr - 1, (kmplp i).mlhMsalst.erase msa⟩

section Records

variable {kmplp : Nat → Msahead} {held held' : List (Nat × Nat)} {x : Nat × Nat} {i m : Nat}

theorem Records.add (h : Records kmplp held) (hnew : ∀ y ∈ held, y.1 ≠ x.1) :
    Records (update kmplp (msalstOf (blkOf x).2) ⟨(kmplp (msalstOf (blkOf x).2)).mlhNr + 1,
      x.1 :: (kmplp (msalstOf (blkOf x).2)).mlhMsalst⟩) (x :: held) := by
  refine ⟨fun i m hm => ?_, fun y hy hw => ?_, fun i => ?_, fun i => ?_⟩
  · by_cases hi : i = msalstOf (blkOf x).2
    · subst hi
      rw [update_self] at hm
      rcases List.mem_cons.mp hm with rfl | hm
      · exact ⟨x, List.mem_cons_self, rfl, rfl⟩
      · obtain ⟨y, hy, hym⟩ := h.only _ m hm
        exact ⟨y, List.mem_cons_of_mem _ hy, hym⟩
    · rw [update_of_ne hi] at hm
      obtain ⟨y, hy, hym⟩ := h.only _ m hm
      exact ⟨y, List.mem_cons_of_mem _ hy, hym⟩
  · rcases List.mem_cons.mp hy with rfl | hy
    · rw [hw, update_self]
      exact List.mem_cons_self
    · have hold := h.whole y hy hw
      by_cases hi : msalstOf y.2 = msalstOf (blkOf x).2
      · rw [hi] at hold ⊢
        rw [update_self]
        exact List.mem_cons_of_mem _ hold
      · rwa [update_of_ne hi]
  · by_cases hi : i = msalstOf (blkOf x).2
    · subst hi
      rw [update_self]
      refine List.nodup_cons.mpr ⟨fun hm => ?_, h.nodup _⟩
      obtain ⟨y, hy, hym, -⟩ := h.only _ _ hm
      exact hnew y hy hym
    · rw [update_of_ne hi]
      exact h.nodup i
  · by_cases hi : i = msalstOf (blkOf x).2
    · subst hi
      rw [update_self]
      simp only [List.length_cons, h.nr]
    · rw [update_of_ne hi]
      exact h.nr i

theorem Records.drop (h : Records kmplp held) (hinj : ∀ y ∈ held, ∀ z ∈ held, y.1 = z.1 → y = z)
    (hm : m ∈ (kmplp i).mlhMsalst)
    (hkeep : ∀ y ∈ held, y.1 ≠ m → y ∈ held') (hsub : ∀ y ∈ held', y ∈ held)
    (hother : ∀ y ∈ held', (blkOf y).2 = y.2 → y.1 ≠ m) : Records (drop kmplp i m) held' := by
  have hsame : ∀ j, ∀ m' ∈ (Krlmm.drop kmplp i m j).mlhMsalst, m' ∈ (kmplp j).mlhMsalst ∧ (j = i → m' ≠ m) := by
    intro j m' hm'
    by_cases hj : j = i
    · subst hj
      simp only [Krlmm.drop, update_self] at hm'
      obtain ⟨hne, hmem⟩ := (h.nodup j).mem_erase_iff.mp hm'
      exact ⟨hmem, fun _ => hne⟩
    · simp only [Krlmm.drop, update_of_ne hj] at hm'
      exact ⟨hm', fun heq => absurd heq hj⟩
  obtain ⟨x, hx, rfl, hxi⟩ := h.only i m hm
  refine ⟨fun j m' hm' => ?_, fun y hy hw => ?_, fun j => ?_, fun j => ?_⟩
  · obtain ⟨hmem, hne⟩ := hsame j m' hm'
    obtain ⟨y, hy, rfl, hyj⟩ := h.only j m' hmem
    refine ⟨y, hkeep y hy fun heq => ?_, rfl, hyj⟩
    -- another record of the same block would be in the same list
    obtain rfl := hinj y hy x hx heq
    exact hne (hyj.symm.trans hxi) rfl
  · have hold := h.whole y (hsub y hy) hw
    have hne := hother y hy hw
    by_cases hi : msalstOf y.2 = i
    · rw [hi] at hold ⊢
      simp only [Krlmm.drop, update_self]
      exact (h.nodup i).mem_erase_iff.mpr ⟨hne, hold⟩
    · simpa only [Krlmm.drop, update_of_ne hi] using hold
  · by_cases hj : j = i
    · subst hj
      simp only [Krlmm.drop, update_self]
      exact (h.nodup j).erase _
    · simp only [Krlmm.drop, update_of_ne hj]
      exact h.nodup j
  · by_cases hj : j = i
    · subst hj
      simp only [Krlmm.drop, update_self, List.length_erase_of_mem hm, h.nr]
    · simp only [Krlmm.drop, update_of_ne hj]
      exact h.nr j

end Records

/-! ### The calls -/

section Calls

variable {u : Uses} {held : List (Nat × Nat)} {x : Nat × Nat} {a m n sz : Nat}

theorem Inv.inj (h : Inv L addr rest st u held) : ∀ y ∈ held, ∀ z ∈ held, y.1 = z.1 → y = z :=
  fun _ hy _ hz heq => h.eq_of_vadr hy hz (congrArg (vadr addr) heq)

theorem Inv.recorded_lt (h : Inv L addr rest st u held) (i : Nat) :
    ∀ m ∈ (st.mpMsalsthead i).mlhMsalst, addr m < krnlMapPhyaddressEnd := by
  intro m hm
  obtain ⟨x, hx, rfl, -⟩ := h.records.only i m hm
  exact h.lt_end hx

theorem Inv.del_none (h : Inv L addr rest st u held)
    (hnone : ∀ m ∈ (st.mpMsalsthead (msalstOf n)).mlhMsalst, vadr addr m ≠ a) :
    msadscDelKmempool st.obj.alc st.mpMsalsthead n a = .ok (none, st.mpMsalsthead) := by
  unfold msadscDelKmempool
  split_ifs with hbad
  · rfl
  · simp only
    rw [findMsadsc_eq h.addr_eq a _ (h.recorded_lt _), ok_bind]
    have hfind : (st.mpMsalsthead (msalstOf n)).mlhMsalst.find? (fun m => decide (vadr addr m = a)) = none := by
      rw [List.find?_eq_none]
      intro m hm
      simpa using hnone m hm
    rw [hfind]

theorem vadr_ne_zero (addr : Nat → Nat) (m : Nat) : vadr addr m ≠ 0 := by
  have hstart : 0 < krnlMapVirtaddressStart := by decide
  unfold vadr
  omega

theorem Inv.del_some (h : Inv L addr rest st u held) (hn : 1 ≤ n) (hx : x ∈ held)
    (hmem : x.1 ∈ (st.mpMsalsthead (msalstOf n)).mlhMsalst) :
    msadscDelKmempool st.obj.alc st.mpMsalsthead n (vadr addr x.1) =
      .ok (some x.1, drop st.mpMsalsthead (msalstOf n) x.1) := by
  unfold msadscDelKmempool
  have hzero := vadr_ne_zero addr x.1
  rw [if_neg (by omega)]
  simp only
  rw [findMsadsc_eq h.addr_eq _ _ (h.recorded_lt _), ok_bind]
  have hfind : (st.mpMsalsthead (msalstOf n)).mlhMsalst.find? (fun m => decide (vadr addr m = vadr addr x.1)) =
      some x.1 := by
    cases hfound : (st.mpMsalsthead (msalstOf n)).mlhMsalst.find? (fun m => decide (vadr addr m = vadr addr x.1)) with
    | none => exact absurd (List.find?_eq_none.mp hfound x.1 hmem) (by simp)
    | some m =>
      obtain ⟨y, hy, rfl, -⟩ := h.records.only _ m (List.mem_of_find?_eq_some hfound)
      have hadr : vadr addr y.1 = vadr addr x.1 := by simpa using List.find?_some hfound
      rw [h.eq_of_vadr hy hx hadr]
  rw [hfind]
  rfl

theorem Inv.withAlc {alc : A.State} {rest' : List Blk} (h : Inv L addr rest st u held)
    (halc : L.Inv alc (held.map blkOf ++ (Obj.total st.obj.blocks ++ rest'))) (haddr : A.msadscRetAddr alc = addr) :
    Inv L addr rest' { st with obj := { st.obj with alc := alc } } u held := by
  refine ⟨h.obj.withAlc ⟨L.perm halc ?_, haddr⟩ (haddr.trans h.addr_eq.symm), h.pgs, h.low, h.records⟩
  rw [← List.append_assoc, ← List.append_assoc]
  exact List.perm_append_comm.append_right rest'

theorem Inv.pagesNew (h : Inv L addr rest st u held) (hsz : objsorpage < sz) (hmax : sz ≤ malcszMax) :
    ∃ r st' held', kmempoolPagesNew st sz = .ok (r, st') ∧ Inv L addr rest st' (handOut u sz r) held' := by
  have hpos : 1 ≤ pagesOfSize sz := pagesOfSize_pos hmax (by omega)
  obtain ⟨r, alc, heq, haddr, hgrants⟩ := L.division (pagesOfSize sz) maTypeKrnl h.alc hpos
  unfold kmempoolPagesNew kmempoolPagesCoreNew
  rw [bind_of_ok (show A.mmDivisionPages st.obj.alc (pageAlign sz / 2 ^ 12) maTypeKrnl dmfReldiv = _ from heq)]
  have hpin : A.msadscRetAddr alc = addr := haddr.trans h.addr_eq
  cases r with
  | none =>
    exact ⟨none, _, held, rfl, h.withAlc hgrants hpin⟩
  | some b =>
    obtain ⟨hpnr, hlow, hinv⟩ := hgrants
    rw [h.addr_eq] at hlow
    have hblk : blkOf (b.1, pagesOfSize sz) = b := Prod.ext rfl hpnr.symm
    have hrel : ¬ b.2 < 1 := by
      have hfr := (L.frame hinv b List.mem_cons_self).1
      omega
    have hadd : msadscAddKmempool st.mpMsalsthead b.1 b.2 =
        .ok (update st.mpMsalsthead (msalstOf b.2) ⟨(st.mpMsalsthead (msalstOf b.2)).mlhNr + 1,
          b.1 :: (st.mpMsalsthead (msalstOf b.2)).mlhMsalst⟩) := if_neg hrel
    have hvaddr : A.msadscRetVaddr alc b.1 = .ok (vadr addr b.1) := by
      have hend := hlow rfl
      unfold PageAlloc.msadscRetVaddr
      rw [hpin]
      exact phyadrToViradr_ok (by omega)
    simp only
    rw [bind_of_ok hadd, bind_of_ok hvaddr]
    refine ⟨some (vadr addr b.1), _, (b.1, pagesOfSize sz) :: held, rfl, ?_⟩
    unfold handOut
    simp only [if_pos hsz]
    refine ⟨h.obj.withAlc ⟨L.perm hinv ?_, hpin⟩ haddr, h.pgs.cons _, fun x hx => ?_, ?_⟩
    · rw [List.map_cons, hblk, List.cons_append, ← List.append_assoc]
      refine List.Perm.trans ?_ List.perm_middle.symm
      rw [← List.append_assoc]
      exact (List.perm_append_comm.append_right rest).cons b
    · rcases List.mem_cons.mp hx with rfl | hx
      · rw [hblk]
        exact hlow rfl
      · exact h.low x hx
    · have hadded := h.records.add (x := (b.1, pagesOfSize sz)) fun y hy heq => ?_
      · rwa [hblk] at hadded
      -- the new block starts no block in use
      have hsame := L.eq_of_addr hinv (List.mem_cons_of_mem b (Inv.blk_mem hy)) List.mem_cons_self
        (congrArg (A.msadscRetAddr alc) heq)
      have hnodup := L.nodup hinv
      rw [← hsame] at hnodup
      exact (List.nodup_cons.mp hnodup).1 (Inv.blk_mem hy)

theorem pagesDelete_of_none {kmplp : Nat → Msahead}
    (h : msadscDelKmempool st.obj.alc st.mpMsalsthead (pagesOfSize sz) a = .ok (none, kmplp)) :
    kmempoolPagesDelete st a sz = .ok (false, { st with mpMsalsthead := kmplp }) := bind_of_ok h _

theorem pagesDelete_of_some {kmplp : Nat → Msahead} {rets : Bool} {alc : A.State}
    (h : msadscDelKmempool st.obj.alc st.mpMsalsthead (pagesOfSize sz) a = .ok (some m, kmplp))
    (hmerge : A.mmMergePages st.obj.alc m (pagesOfSize sz) = .ok (rets, alc)) :
    kmempoolPagesDelete st a sz = .ok (rets, ⟨{ st.obj with alc := alc }, kmplp⟩) :=
  (bind_of_ok h _).trans (bind_of_ok hmerge _)

theorem Inv.pagesDelete_whole (h : Inv L addr rest st u held) (hsz : objsorpage < sz) (hmax : sz ≤ malcszMax)
    (hx : (m, pagesOfSize sz) ∈ held) (hw : 2 ^ Nat.clog 2 (pagesOfSize sz) = pagesOfSize sz) :
    ∃ st', kmempoolPagesDelete st (vadr addr m) sz = .ok (true, st') ∧
      Vacant L st'.obj.alc (vadr addr m) (2 ^ Nat.clog 2 (pagesOfSize sz) * 0x1000) ∧
      Inv L addr rest st' (takeBack u (vadr addr m) sz true) (held.erase (m, pagesOfSize sz)) := by
  have hpos : 1 ≤ pagesOfSize sz := pagesOfSize_pos hmax (by omega)
  have hperm := List.perm_cons_erase hx
  have hmem := h.records.whole _ hx hw
  have hblk : blkOf (m, pagesOfSize sz) = (m, pagesOfSize sz) := Prod.ext rfl hw
  have hlive : L.Inv st.obj.alc ((m, pagesOfSize sz) ::
      ((held.erase (m, pagesOfSize sz)).map blkOf ++ (Obj.total st.obj.blocks ++ rest))) := by
    refine L.perm h.alc ?_
    have hmap := (hperm.map blkOf).append_right (Obj.total st.obj.blocks ++ rest)
    rwa [List.map_cons, hblk] at hmap
  obtain ⟨alc, hmerge, haddr, hinv⟩ := L.merge hlive
  refine ⟨_, pagesDelete_of_some (h.del_some hpos hx hmem) hmerge, ⟨_, hinv, ?_⟩, ?_⟩
  · have hown : L.Inv st.obj.alc ([(m, pagesOfSize sz)] ++ _) := hlive
    have hclear := clear_of_inside (a := vadr addr m) (n := pagesOfSize sz * 0x1000) hown (List.mem_singleton_self _)
      (by rw [h.addr_eq]) (by rw [h.addr_eq])
    rw [hw]
    rwa [← haddr] at hclear
  unfold takeBack
  simp only [if_pos hsz]
  refine ⟨h.obj.withAlc ⟨L.perm hinv ?_, haddr.trans h.addr_eq⟩ haddr, ?_, ?_, ?_⟩
  · rw [← List.append_assoc, ← List.append_assoc]
    exact List.perm_append_comm.append_right rest
  · have hpgs := (h.pgs.trans (hperm.map fun x => (vadr addr x.1, x.2))).erase (vadr addr m, pagesOfSize sz)
    rwa [List.map_cons, List.erase_cons_head] at hpgs
  · exact fun x hx' => h.low x (List.mem_of_mem_erase hx')
  · refine h.records.drop h.inj hmem (fun y hy hne => ?_) (fun y hy => List.mem_of_mem_erase hy) fun y hy _ heq => ?_
    · exact (List.mem_erase_of_ne fun heq => hne (congrArg Prod.fst heq)).mpr hy
    · obtain rfl : y = (m, pagesOfSize sz) := h.inj y (List.mem_of_mem_erase hy) _ hx heq
      exact (h.held_nodup.mem_erase_iff.mp hy).1 rfl

/-- A block of another number of pages stays in use, whatever becomes of its record. -/
theorem Inv.pagesDelete_lost (hstrict : L.Strict) (h : Inv L addr rest st u held) (hsz : objsorpage < sz)
    (hmax : sz ≤ malcszMax) (hx : (m, pagesOfSize sz) ∈ held)
    (hw : 2 ^ Nat.clog 2 (pagesOfSize sz) ≠ pagesOfSize sz) :
    ∃ st', kmempoolPagesDelete st (vadr addr m) sz = .ok (false, st') ∧ Inv L addr rest st' u held := by
  have hpos : 1 ≤ pagesOfSize sz := pagesOfSize_pos hmax (by omega)
  by_cases hmem : m ∈ (st.mpMsalsthead (msalstOf (pagesOfSize sz))).mlhMsalst
  · -- the last list: the record goes, and the page allocator refuses the number of pages
    have hrefused : A.mmMergePages st.obj.alc m (pagesOfSize sz) = .ok (false, st.obj.alc) :=
      hstrict h.alc (Inv.blk_mem hx) hw.symm
    refine ⟨_, pagesDelete_of_some (h.del_some hpos hx hmem) hrefused, h.obj, h.pgs, h.low, h.records.drop h.inj hmem
      (fun y hy _ => hy) (fun y hy => hy) ?_⟩
    rintro y hy hyw rfl
    rw [h.inj y hy _ hx rfl] at hyw
    exact hw hyw
  · have hnone : msadscDelKmempool st.obj.alc st.mpMsalsthead (pagesOfSize sz) (vadr addr m) =
        .ok (none, st.mpMsalsthead) := by
      refine h.del_none fun m' hm' heq => hmem ?_
      obtain ⟨y, hy, rfl, -⟩ := h.records.only _ m' hm'
      rw [h.eq_of_vadr hy hx heq] at hm'
      exact hm'
    exact ⟨st, pagesDelete_of_none hnone, h⟩

theorem Inv.pagesDelete_unknown (h : Inv L addr rest st u held) (hno : ∀ n, (a, n) ∉ u.pgs) (sz : Nat) :
    kmempoolPagesDelete st a sz = .ok (false, st) := by
  refine pagesDelete_of_none (h.del_none fun m hm heq => ?_)
  obtain ⟨x, hx, rfl, -⟩ := h.records.only _ m hm
  exact hno x.2 (h.pgs.mem_iff.mpr (List.mem_map.mpr ⟨x, hx, Prod.ext heq rfl⟩))

/-! ### By size -/

theorem krlnew_eq (st : St A) (hpos : 1 ≤ sz) (hmax : sz ≤ malcszMax) :
    krlnew st sz = if objsorpage < sz then kmempoolPagesNew st sz else kmempoolObjszCoreNew st (objsAlign sz) := by
  have hmin : malcszMin = 0 ∧ kmempalcszMin = 1 ∧ kmempalcszMax = malcszMax := ⟨rfl, rfl, rfl⟩
  unfold krlnew kmempoolNew kmempoolOnsizeNew
  rw [if_neg (by omega), if_neg (by omega)]
  split_ifs with hbig
  · rfl
  · have hobj := (objsAlign_bounds hpos (Nat.le_of_not_lt hbig)).2
    exact if_neg (Nat.not_lt.mpr hobj)

theorem krldelete_eq (st : St A) (ha : a ≠ 0) (hpos : 1 ≤ sz) (hmax : sz ≤ malcszMax) :
    krldelete st a sz =
      if objsorpage < sz then kmempoolPagesDelete st a sz else kmempoolObjszCoreDelete st a (objsAlign sz) := by
  have hmin : malcszMin = 0 ∧ kmempalcszMin = 1 ∧ kmempalcszMax = malcszMax := ⟨rfl, rfl, rfl⟩
  unfold krldelete kmempoolDelete kmempoolOnsizeDelete
  rw [if_neg (by omega), if_neg (by omega)]
  split_ifs with hbig
  · rfl
  · have hobj := (objsAlign_bounds hpos (Nat.le_of_not_lt hbig)).2
    exact if_neg (Nat.not_lt.mpr hobj)

theorem Inv.withObj {obj : Obj.St A} {objs : Nat → List Nat} (h : Inv L addr rest st u held)
    (hobj : Obj.Inv (L.pin addr) (held.map blkOf ++ rest) obj objs) :
    Inv L addr rest { st with obj := obj } { u with objs := objs } held :=
  ⟨hobj, h.pgs, h.low, h.records⟩

theorem classOf_objsAlign (hpos : 1 ≤ sz) (hsz : sz ≤ objsorpage) : classOf (objsAlign sz) = classOf sz := by
  have hmax : objsorpage = 2048 := rfl
  unfold objsAlign classOf
  rw [alignUp_eq (by omega)]
  omega

/-- **`krlnew`** returns, and hands out nothing or one more object or block. -/
theorem krlnew_spec (h : Inv L addr rest st u held) (sz : Nat) :
    ∃ r st' held', krlnew st sz = .ok (r, st') ∧ Inv L addr rest st' (handOut u sz r) held' := by
  by_cases hbad : sz = malcszMin ∨ malcszMax < sz
  · exact ⟨none, st, held, if_pos hbad, h⟩
  have hpos : 1 ≤ sz := by
    have hmin : malcszMin = 0 := rfl
    omega
  rw [krlnew_eq st hpos (by omega)]
  split_ifs with hbig
  · exact h.pagesNew hbig (by omega)
  · obtain ⟨r, obj, heq, hspec⟩ := Obj.kmsobNew_spec h.obj (objsAlign sz)
    refine ⟨r, { st with obj := obj }, held, bind_of_ok heq _, ?_⟩
    cases r with
    | none => exact h.withObj hspec
    | some a =>
      unfold handOut
      simp only [if_neg hbig]
      exact h.withObj hspec.2.2

/-- What was obtained for `a` is available again: it is not recorded, and its pages are free, or, for an object whose
page run is still needed, it is on the free list of its class. -/
structure GivenBack (L : Lawful A) (st : St A) (a sz : Nat) : Prop where
  unrecorded : ∀ i, ∀ m ∈ (st.mpMsalsthead i).mlhMsalst, vadr st.obj.addr m ≠ a
  pages : objsorpage < sz → Vacant L st.obj.alc a (2 ^ Nat.clog 2 (pagesOfSize sz) * 0x1000)
  object : sz ≤ objsorpage → Vacant L st.obj.alc a (Obj.sizeOf (classOf (objsAlign sz))) ∨
    ∃ p ∈ (st.obj.mgr.ksMsoblst (classOf (objsAlign sz))).olEmplst, a ∈ (st.obj.kmsob p).soFrelst

theorem Inv.pagesGivenBack (h : Inv L addr rest st u held) (hsz : objsorpage < sz) (hmax : sz ≤ malcszMax)
    (hx : (m, pagesOfSize sz) ∈ held) (hw : 2 ^ Nat.clog 2 (pagesOfSize sz) = pagesOfSize sz) :
    ∃ st', krldelete st (vadr addr m) sz = .ok (true, st') ∧ GivenBack L st' (vadr addr m) sz ∧
      Inv L addr rest st' (takeBack u (vadr addr m) sz true) (held.erase (m, pagesOfSize sz)) := by
  obtain ⟨st', heq, hvacant, hinv⟩ := h.pagesDelete_whole hsz hmax hx hw
  refine ⟨st', ?_, ⟨fun i m' hm' hadr => ?_, fun _ => hvacant, fun hle => absurd hsz (Nat.not_lt.mpr hle)⟩, hinv⟩
  · rw [krldelete_eq st (vadr_ne_zero addr m) (by omega) hmax, if_pos hsz]
    exact heq
  · obtain ⟨y, hy, rfl, -⟩ := hinv.records.only i m' hm'
    have haddr : st'.obj.addr = addr := hinv.addr_eq
    rw [haddr] at hadr
    obtain rfl := h.eq_of_vadr (List.mem_of_mem_erase hy) hx hadr
    exact (h.held_nodup.mem_erase_iff.mp hy).1 rfl

theorem Inv.inside (h : Inv L addr rest st u held) (hlive : Obj.IsLive u.objs a n) :
    ∃ c ∈ st.obj.blocks (classOf n), vadr addr c.1 ≤ a ∧ a + Obj.sizeOf (classOf n) ≤ vadr addr c.1 + c.2 * 0x1000 := by
  obtain ⟨p, hp, c, hc, hlo, hhi⟩ := h.obj.sound.inside _ (Obj.classOf_lt hlive.2.1) a hlive.2.2
  have haddr : st.obj.addr = addr := h.addr_eq
  rw [haddr] at hlo hhi
  exact ⟨c, List.mem_flatMap.mpr ⟨p, hp, hc⟩, hlo, hhi⟩

theorem Inv.objectGivenBack (h : Inv L addr rest st u held) (hpos : 1 ≤ sz) (hsz : sz ≤ objsorpage)
    (hlive : Obj.IsLive u.objs a (objsAlign sz)) :
    ∃ st', krldelete st a sz = .ok (true, st') ∧ GivenBack L st' a sz ∧
      Inv L addr rest st' (takeBack u a sz true) held := by
  obtain ⟨obj, heq, hret, hobj⟩ := Obj.kmsobDelete_returned h.obj hlive.1 hlive.2.1 hlive.2.2
  obtain ⟨c, hc, hlo, hhi⟩ := h.inside hlive
  have hsplit := (h.obj.split (Obj.classOf_lt hlive.2.1)).1
  have haddr : A.msadscRetAddr obj.alc = A.msadscRetAddr st.obj.alc := hobj.alc.2.trans h.addr_eq.symm
  have hclear := clear_of_inside (a := a) (n := Obj.sizeOf (classOf (objsAlign sz))) hsplit hc
    (by rwa [h.addr_eq]) (by rwa [h.addr_eq])
  rw [← haddr] at hclear
  have hzero : a ≠ 0 := by
    have hnum : 0 < krnlMapVirtaddressStart := by decide
    unfold vadr at hlo
    omega
  refine ⟨{ st with obj := obj }, ?_, ⟨fun i m hm hadr => ?_, fun hbig => absurd hbig (Nat.not_lt.mpr hsz),
    fun _ => ?_⟩, ?_⟩
  · have hmax : objsorpage ≤ malcszMax := by decide
    rw [krldelete_eq st hzero hpos (hsz.trans hmax), if_neg (Nat.not_lt.mpr hsz)]
    exact bind_of_ok heq _
  · -- a recorded block is apart from the block of the object
    obtain ⟨x, hx, rfl, -⟩ := h.records.only i m hm
    have hmem : blkOf x ∈ Obj.totalBut (classOf (objsAlign sz)) st.obj.blocks ++ (held.map blkOf ++ rest) :=
      List.mem_append_right _ (List.mem_append_left _ (List.mem_map_of_mem hx))
    have hapart := hclear _ hmem
    have hpnr := (L.frame h.alc _ (Inv.blk_mem hx)).1
    have hsize := Obj.sizeOf_pos (classOf (objsAlign sz))
    have hadr' : vadr (A.msadscRetAddr obj.alc) (blkOf x).1 = a := hadr
    omega
  · rcases hret with hfree | ⟨-, hinv⟩
    · exact .inr hfree
    · exact .inl ⟨_, hinv.1, hclear⟩
  · unfold takeBack
    simp only [if_neg (Nat.not_lt.mpr hsz)]
    exact h.withObj hobj

theorem whole_iff (hsz : objsorpage < sz) : Whole sz ↔ 2 ^ Nat.clog 2 (pagesOfSize sz) = pagesOfSize sz := by
  unfold Whole
  rw [clog_eq_self_iff]
  constructor
  · exact fun h => h.resolve_left (by omega)
  · exact .inr

theorem Inv.delete_whole (h : Inv L addr rest st u held) (huse : InUse u a sz) (hw : Whole sz) :
    ∃ st' held', krldelete st a sz = .ok (true, st') ∧ GivenBack L st' a sz ∧
      Inv L addr rest st' (takeBack u a sz true) held' := by
  obtain ⟨hpos, hmax, huse⟩ := huse
  split_ifs at huse with hbig
  · obtain ⟨m, hx, rfl⟩ := h.mem_pgs huse
    obtain ⟨st', hspec⟩ := h.pagesGivenBack hbig hmax hx ((whole_iff hbig).mp hw)
    exact ⟨st', _, hspec⟩
  · obtain ⟨st', hspec⟩ := h.objectGivenBack hpos (Nat.le_of_not_lt hbig) huse
    exact ⟨st', held, hspec⟩

theorem Inv.delete_lost (hstrict : L.Strict) (h : Inv L addr rest st u held) (huse : InUse u a sz) (hw : ¬ Whole sz) :
    ∃ st', krldelete st a sz = .ok (false, st') ∧ Inv L addr rest st' u held := by
  obtain ⟨hpos, hmax, huse⟩ := huse
  have hbig : objsorpage < sz := Nat.lt_of_not_le fun hle => hw (.inl hle)
  rw [if_pos hbig] at huse
  obtain ⟨m, hx, rfl⟩ := h.mem_pgs huse
  rw [krldelete_eq st (vadr_ne_zero addr m) hpos hmax, if_pos hbig]
  exact h.pagesDelete_lost hstrict hbig hmax hx fun heq => hw ((whole_iff hbig).mpr heq)

theorem Inv.delete_refused (h : Inv L addr rest st u held) (ha : a < 2 ^ 64) (hnot : ¬ InUse u a sz)
    (hmis : ¬ Misfree st u a sz) : krldelete st a sz = .ok (false, st) := by
  by_cases hbad : a = 0 ∨ sz = malcszMin ∨ malcszMax < sz
  · exact if_pos hbad
  have hpos : 1 ≤ sz := by
    have hmin : malcszMin = 0 := rfl
    omega
  have hmax : sz ≤ malcszMax := by omega
  rw [krldelete_eq st (by omega) hpos hmax]
  unfold InUse at hnot
  unfold Misfree at hmis
  split_ifs at hnot hmis ⊢ with hbig
  · have hother : (a, pagesOfSize sz) ∉ u.pgs := fun hmem => hnot ⟨hpos, hmax, hmem⟩
    exact h.pagesDelete_unknown (fun n hmem => hmis ⟨hother, n, hmem⟩) sz
  · have hrefused := Obj.kmsobDelete_refused h.obj ha (fun hlive => hnot ⟨hpos, hmax, hlive⟩) hmis
    exact bind_of_ok hrefused _

end Calls

/-! ### Runs -/

def Uses.none : Uses := ⟨fun _ => [], []⟩

theorem inv_initKrlmm {alc : A.State} (kmsob : Nat → Obj.Kmsob) (h : L.Inv alc rest) :
    Inv L (A.msadscRetAddr alc) rest (initKrlmm alc kmsob) .none [] where
  obj := Obj.inv_initKmsob kmsob ⟨h, rfl⟩
  pgs := .nil
  low := fun _ hx => absurd hx List.not_mem_nil
  records :=
    { only := fun _ _ hm => absurd hm List.not_mem_nil
      whole := fun _ hx => absurd hx List.not_mem_nil
      nodup := fun _ => List.nodup_nil
      nr := fun _ => rfl }

theorem inv_step (hstrict : L.Strict) {x y : St A × Uses} {c : Call} (h : ∃ held, Inv L addr rest x.1 x.2 held)
    (hstep : Step x c y) : ∃ held, Inv L addr rest y.1 y.2 held := by
  obtain ⟨held, h⟩ := h
  obtain ⟨hok, heq⟩ := hstep
  cases c with
  | new sz =>
    obtain ⟨r, st', held', hnew, hinv⟩ := krlnew_spec h sz
    rw [step, bind_of_ok hnew] at heq
    cases heq
    exact ⟨held', hinv⟩
  | delete a sz =>
    by_cases huse : InUse x.2 a sz
    · by_cases hw : Whole sz
      · obtain ⟨st', held', hdel, -, hinv⟩ := h.delete_whole huse hw
        rw [step, bind_of_ok hdel] at heq
        cases heq
        exact ⟨held', hinv⟩
      · obtain ⟨st', hdel, hinv⟩ := h.delete_lost hstrict huse hw
        rw [step, bind_of_ok hdel] at heq
        cases heq
        exact ⟨held, hinv⟩
    · rw [step, bind_of_ok (h.delete_refused hok.1 huse hok.2)] at heq
      cases heq
      exact ⟨held, h⟩

theorem inv_of_run (hstrict : L.Strict) {alc : A.State} {kmsob : Nat → Obj.Kmsob} {calls : List Call} {y : St A × Uses}
    (halc : L.Inv alc rest) (hrun : Trace Step (initKrlmm alc kmsob, .none) calls y) :
    ∃ held, Inv L (A.msadscRetAddr alc) rest y.1 y.2 held :=
  hrun.keeps (J := fun x => ∃ held, Inv L (A.msadscRetAddr alc) rest x.1 x.2 held)
    (fun _ _ _ h hstep => inv_step hstrict h hstep) ⟨[], inv_initKrlmm kmsob halc⟩

/-- `krldelete(a, sz)` returns `TRUE`, and what was obtained for `a` is available again. -/
def RoundTrip (L : Lawful A) (st : St A) (a sz : Nat) : Prop :=
  ∃ st', krldelete st a sz = .ok (true, st') ∧ GivenBack L st' a sz

theorem Inv.roundTrip_iff {u : Uses} {held : List (Nat × Nat)} {a sz : Nat} (hstrict : L.Strict)
    (h : Inv L addr rest st u held) (huse : InUse u a sz) : RoundTrip L st a sz ↔ Whole sz := by
  constructor
  · rintro ⟨st', hdel, -⟩
    by_contra hw
    obtain ⟨st'', hfalse, -⟩ := h.delete_lost hstrict huse hw
    rw [hfalse] at hdel
    cases hdel
  · intro hw
    obtain ⟨st', held', hdel, hback, -⟩ := h.delete_whole huse hw
    exact ⟨st', hdel, hback⟩

/-- **Kernel memory comes back exactly for the sizes of `Whole`**: over the page allocator in any state it reached,
after every run of calls without a misfree, for all memory in use. -/
theorem round_trip_iff_whole {b : Boot} (hb : b.Mapped) {s₀ s : Memmgrob} (hboot : boot b = .ok s₀) {ops : List Op}
    {used : Finset Blk} (hops : ∀ op ∈ ops, op.InArray b.msanr) (hpages : runHalt Page.step (s₀, ∅) ops = .ok (s, used))
    {kmsob : Nat → Obj.Kmsob} {calls : List Call} {y : St memmgrob × Uses}
    (hrun : Trace Step (initKrlmm (A := memmgrob) s kmsob, .none) calls y) {a sz : Nat} (huse : InUse y.2 a sz) :
    RoundTrip (memmgrobLawful hb (of_boot hb.toWf hboot).1) y.1 a sz ↔ Whole sz := by
  have hstrict := memmgrob_strict hb (of_boot hb.toWf hboot).1
  obtain ⟨held, h⟩ := inv_of_run hstrict (pool_of_run hb.toWf hboot hops hpages).2 hrun
  exact h.roundTrip_iff hstrict huse

def fourPages : Boot := ⟨4, freeArray [0x3001, 0x3002, 0x3003, 0x3004]⟩

theorem fourPages_mapped : fourPages.Mapped :=
  freeArray_mapped (by decide : 0 < [0x3001, 0x3002, 0x3003, 0x3004].length) (by decide) (by decide) (by decide)

def CallInUse (x : St A × Uses) : Call → Prop
  | .new _ => True
  | .delete a sz => a < 2 ^ 64 ∧ InUse x.2 a sz

instance (x : St A × Uses) : (c : Call) → Decidable (CallInUse x c)
  | .new _ => isTrue trivial
  | .delete a sz => inferInstanceAs (Decidable (a < 2 ^ 64 ∧ InUse x.2 a sz))

theorem CallInUse.ok {x : St A × Uses} {c : Call} (h : CallInUse x c) : CallOk x c := by
  cases c with
  | new sz => trivial
  | delete a sz =>
    obtain ⟨ha, -, -, huse⟩ := h
    refine ⟨ha, ?_⟩
    unfold Misfree
    split_ifs at huse ⊢
    · exact fun hmis => hmis.1 huse
    · exact fun hmis => hmis.1 huse

theorem run_of_four_pages {β : Type} {f : St memmgrob × Uses → β} {v : β} {c : List Call}
    (h : Except.map f (boot fourPages >>= fun s₀ => runHalt (fun x c => if CallInUse x c then step x c else .error "")
      (initKrlmm (A := memmgrob) s₀ fun _ => ⟨0, 0, 0, 0, 0, [], [], 0, Obj.msomdcTInit, [], 0⟩, .none) c) = .ok v) :
    ∃ s₀ y, boot fourPages = .ok s₀ ∧ f y = v ∧ Trace Step
      (initKrlmm (A := memmgrob) s₀ fun _ => ⟨0, 0, 0, 0, 0, [], [], 0, Obj.msomdcTInit, [], 0⟩, .none) c y := by
  obtain ⟨y, hall, hf⟩ := exists_of_map h
  obtain ⟨s₀, hboot, hrun⟩ := bind_eq_ok hall
  exact ⟨s₀, y, hboot, hf, (Trace.of_runHalt _ hrun).imp fun _ _ _ hstep => ⟨hstep.1.ok, hstep.2⟩⟩

/-- Two pages come back after an object was allocated and freed. -/
theorem round_trip_of_two_pages : ∃ s₀, ∃ hboot : boot fourPages = .ok s₀, ∃ y, Trace Step
      (initKrlmm (A := memmgrob) s₀ fun _ => ⟨0, 0, 0, 0, 0, [], [], 0, Obj.msomdcTInit, [], 0⟩, .none)
      [.new 0x2000, .new 32, .delete 0xffff800003003fd0 32] y ∧ InUse y.2 0xffff800003001000 0x2000 ∧
    RoundTrip (memmgrobLawful fourPages_mapped (of_boot fourPages_mapped.toWf hboot).1) y.1 0xffff800003001000
      0x2000 := by
  obtain ⟨s₀, y, hboot, hf, hrun⟩ := run_of_four_pages (f := fun y => decide (InUse y.2 0xffff800003001000 0x2000))
    (v := true) (c := [.new 0x2000, .new 32, .delete 0xffff800003003fd0 32]) (by decide +kernel)
  have huse := of_decide_eq_true hf
  have hnone : ∀ op ∈ ([] : List Op), op.InArray fourPages.msanr := by simp
  exact ⟨s₀, hboot, y, hrun, huse,
    (round_trip_iff_whole fourPages_mapped hboot hnone rfl hrun huse).mpr (.inr ⟨1, by decide⟩)⟩

/-- Three pages are handed out as a block of four, which `krldelete` does not find: it stays recorded, and not one of
the four pages can be had again. -/
theorem three_pages_lost : ∃ s₀ y st' st'', boot fourPages = .ok s₀ ∧ Trace Step
      (initKrlmm (A := memmgrob) s₀ fun _ => ⟨0, 0, 0, 0, 0, [], [], 0, Obj.msomdcTInit, [], 0⟩, .none)
      [.new 0x3000] y ∧ InUse y.2 0xffff800003001000 0x3000 ∧
    krldelete y.1 0xffff800003001000 0x3000 = .ok (false, st') ∧ (st'.mpMsalsthead 4).mlhMsalst = [0] ∧
    krlnew st' 0x1000 = .ok (none, st'') := by
  obtain ⟨s₀, y, hboot, hf, hrun⟩ := run_of_four_pages
    (f := fun y => (decide (InUse y.2 0xffff800003001000 0x3000),
      krldelete y.1 0xffff800003001000 0x3000 >>= fun x =>
        krlnew x.2 0x1000 >>= fun r => (.ok (x.1, (x.2.mpMsalsthead 4).mlhMsalst, r.1) : Except String _)))
    (v := (true, .ok (false, [0], none))) (c := [.new 0x3000]) (by decide +kernel)
  obtain ⟨huse, hcalls⟩ := Prod.mk.inj hf
  obtain ⟨⟨rets, st'⟩, hdel, hcalls⟩ := bind_eq_ok hcalls
  obtain ⟨⟨r, st''⟩, hnew, hseen⟩ := bind_eq_ok hcalls
  obtain ⟨rfl, hlst, rfl⟩ : rets = false ∧ _ ∧ r = none := by simpa using Except.ok.inj hseen
  exact ⟨s₀, y, st', st'', hboot, hrun, of_decide_eq_true huse, hdel, hlst, hnew⟩

end Cosmos.Krlmm
