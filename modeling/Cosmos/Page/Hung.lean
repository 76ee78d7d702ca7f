import Cosmos.Page.Boot
import Cosmos.Page.Merge

/-!
# The state while boot builds the free lists

The first loop of `merlove_mem_core` flags every page with its area (`setflgsLoop_eq`). While the second one builds
the lists, the pages not yet on a list are blocks of one page in hand (`Hung`); `Hung.hangAt` moves some of them to a
list as one block.
-/

namespace Cosmos.Page

open Cosmos.Lib Function

/-- Descriptors as they are before `init_merlove_mem`: page numbers of addresses below `2 ^ 52`, each page free or
marked as the kernel's. -/
structure Boot.Pages (b : Boot) : Prop where
  padrs : ∀ i < b.msanr, (b.msa i).pafPadrs < 2 ^ 40
  fresh : ∀ i < b.msanr, (b.msa i).mfOlkty = .init ∧ (b.msa i).mdOdlink = .null ∧ (b.msa i).mfMarty = 0
  marks : ∀ i < b.msanr,
    ((b.msa i).mfMocty = .krnl ∧ (b.msa i).mfUindx = 1 ∧ (b.msa i).pafAlloc = true) ∨
    ((b.msa i).mfMocty = .free ∧ (b.msa i).mfUindx = 0 ∧ (b.msa i).pafAlloc = false)

structure Boot.Arr (b : Boot) : Prop extends Boot.Pages b where
  pos : 0 < b.msanr
  small : b.msanr < 2 ^ 63

/-- What is behind the array does not look like a free page next to the last one. No code sees to it: the scan of a
run counts `mo_msanr` descriptors from the first one of the run on. -/
def Boot.Tail (b : Boot) : Prop :=
  ∀ marty, ¬(isFreeMsa marty (b.msa b.msanr) = true ∧ nextPage (b.msa (b.msanr - 1)) (b.msa b.msanr) = true)

structure Boot.Wf (b : Boot) : Prop extends Boot.Arr b where
  tail : b.Tail

/-- The order in which `init_msadsc` writes the descriptors of sorted memory. -/
structure Boot.Sorted (b : Boot) : Prop extends Boot.Pages b where
  sorted : ∀ i j, i < j → j < b.msanr → (b.msa i).pafPadrs < (b.msa j).pafPadrs

variable {b : Boot} {s s' : Memmgrob} {a k m n : Nat}

/-! ### The areas of the pages -/

def areaOf (padrs : Nat) : Nat := if padrs < 0x2000 then 0 else if padrs < 0x400000 then 1 else 2

theorem phyadrOf_eq {d : Msadsc} (hd : d.pafPadrs < 2 ^ 40) : phyadrOf d = d.pafPadrs * 0x1000 :=
  bits_of_lt (by omega)

theorem nextPage_of_eq {d d' : Msadsc} (hd' : d'.pafPadrs < 2 ^ 40) (heq : d'.pafPadrs = d.pafPadrs + 1) :
    nextPage d d' = true := by
  rw [nextPage, decide_eq_true_iff, phyadrOf_eq hd', phyadrOf_eq (by omega), heq, bitsSub_of_le (by omega) (by omega)]
  omega

/-- The last page of the address space is followed by the first one, which is of another area. -/
theorem nextPage_iff {d d' : Msadsc} (hd : d.pafPadrs < 2 ^ 40) (hd' : d'.pafPadrs < 2 ^ 40)
    (harea : areaOf d'.pafPadrs = areaOf d.pafPadrs) :
    nextPage d d' = true ↔ d'.pafPadrs = d.pafPadrs + 1 := by
  refine ⟨fun hnext => ?_, nextPage_of_eq hd'⟩
  rw [nextPage, decide_eq_true_iff, phyadrOf_eq hd, phyadrOf_eq hd', bitsSub, bits] at hnext
  unfold areaOf at harea
  split_ifs at harea <;> omega

/-- Page numbers that grow are at least the indices, so the array has at most `2 ^ 40` descriptors. -/
theorem Boot.Sorted.arr (hb : b.Sorted) (hpos : 0 < b.msanr) : b.Arr where
  toPages := hb.toPages
  pos := hpos
  small := by
    have hge : ∀ i < b.msanr, i ≤ (b.msa i).pafPadrs := by
      intro i
      induction i with
      | zero => exact fun _ => Nat.zero_le _
      | succ i ih =>
        intro hi
        have hlt := hb.sorted i (i + 1) (Nat.lt_succ_self i) hi
        have hle := ih (by omega)
        omega
    have hlast := hge (b.msanr - 1) (by omega)
    have hlt := hb.padrs (b.msanr - 1) (by omega)
    omega

theorem inMarea_iff {ma : Memarea} {d : Msadsc} (hd : d.pafPadrs < 2 ^ 40) (ha : a < 3)
    (hstart : ma.maLogicstart = (initMemareaCore a).maLogicstart)
    (hend : ma.maLogicend = (initMemareaCore a).maLogicend) : inMarea ma d = true ↔ areaOf d.pafPadrs = a := by
  rw [inMarea, decide_eq_true_iff, phyadrOf_eq hd, u64_of_lt (by omega), hstart, hend]
  unfold areaOf
  interval_cases a <;> simp only [initMemareaCore, memareaInit]
  · exact ⟨fun h => if_pos (by omega), fun h => by split_ifs at h; omega⟩
  · exact ⟨fun h => by rw [if_neg (by omega), if_pos (by omega)], fun h => by split_ifs at h <;> omega⟩
  · exact ⟨fun h => by rw [if_neg (by omega), if_neg (by omega)], fun h => by split_ifs at h <;> omega⟩

/-- The state in which the pages of the first `a` areas have their `mf_marty`. -/
def flagged (b : Boot) (a : Nat) : Memmgrob :=
  { bootSt b with
    msa := fun i =>
      if i < b.msanr then
        { b.msa i with
          mfMarty := if areaOf (b.msa i).pafPadrs < a then areaOf (b.msa i).pafPadrs + 1 else 0 }
      else b.msa i }

theorem flagged_zero (hb : b.Arr) : flagged b 0 = bootSt b := by
  have hmsa : (flagged b 0).msa = b.msa := by
    funext i
    by_cases hi : i < b.msanr
    · simp only [flagged, if_pos hi, Nat.not_lt_zero, if_false]
      rw [← (hb.fresh i hi).2.2]
    · simp only [flagged, if_neg hi]
  show { bootSt b with msa := (flagged b 0).msa } = bootSt b
  rw [hmsa]
  rfl

theorem setallmarflgsLoop_eq (s : Memmgrob) (a marty n : Nat) : setallmarflgsLoop a marty n s =
    ((List.range n).countP fun i => decide ((s.msa i).mfMarty = 0) && inMarea (s.marea a) (s.msa i),
      { s with
        msa := fun i =>
          if i < n ∧ (s.msa i).mfMarty = 0 ∧ inMarea (s.marea a) (s.msa i) = true then
            { s.msa i with mfMarty := marty }
          else s.msa i }) := by
  induction n with
  | zero => simp [setallmarflgsLoop]
  | succ n ih =>
    rw [setallmarflgsLoop, ih, List.range_succ, List.countP_append]
    simp only [lt_irrefl, false_and, if_false]
    by_cases hn : (s.msa n).mfMarty = 0 ∧ inMarea (s.marea a) (s.msa n) = true
    · rw [if_pos hn]
      refine Prod.ext (by simp [hn]) ?_
      simp only [Memmgrob.setMsa, lt_irrefl, false_and, if_false, Memmgrob.mk.injEq, true_and, and_true]
      funext i
      by_cases hi : i = n
      · subst hi
        rw [update_self, if_pos ⟨Nat.lt_succ_self i, hn⟩]
      · rw [update_of_ne hi]
        simp only [show i < n + 1 ↔ i < n by omega]
    · rw [if_neg hn]
      refine Prod.ext ?_ ?_
      · rw [← decide_eq_true_iff (p := (s.msa n).mfMarty = 0), ← Bool.and_eq_true] at hn
        simp [hn]
      · simp only [Memmgrob.mk.injEq, true_and, and_true]
        funext i
        by_cases hi : i = n
        · subst hi
          simp [hn]
        · simp only [show i < n + 1 ↔ i < n by omega]

theorem flagged_msa_of_lt {i : Nat} (hi : i < b.msanr) (a : Nat) : (flagged b a).msa i =
    { b.msa i with mfMarty := if areaOf (b.msa i).pafPadrs < a then areaOf (b.msa i).pafPadrs + 1 else 0 } := if_pos hi

theorem martyOf_eq (ha : a < 3) : martyOf (a + 1) = some (a + 1) := if_pos (by
  unfold maTypeHwad maTypeKrnl maTypeProc
  omega)

theorem maType_eq (ha : a < 3) : (initMemareaCore a).maType = a + 1 := by
  interval_cases a <;> rfl

theorem flagged_succ (hb : b.Arr) (ha : a < 3) : ∃ n, merloveSetallmarflgsOnmemarea (flagged b a) a =
    (some n, flagged b (a + 1)) ∧ testSetflgs (flagged b (a + 1)) a = some n := by
  have hpos := hb.pos
  have hmarea : ∀ a', (flagged b a').marea a = initMemareaCore a := fun _ => rfl
  have hmsanr : ∀ a', (flagged b a').moMsanr = b.msanr := fun _ => rfl
  have hshar : a + 1 ≠ maTypeShar := by
    unfold maTypeShar
    omega
  -- which pages the loop flags, and which the test counts
  have hin : ∀ i < b.msanr, ∀ a', inMarea (initMemareaCore a) ((flagged b a').msa i) = true ↔
      areaOf (b.msa i).pafPadrs = a := fun i hi a' => by
    rw [flagged_msa_of_lt hi]
    exact inMarea_iff (hb.padrs i hi) ha rfl rfl
  have hzero : ∀ i < b.msanr, areaOf (b.msa i).pafPadrs = a → ((flagged b a).msa i).mfMarty = 0 := fun i hi harea => by
    rw [flagged_msa_of_lt hi]
    exact if_neg (by omega)
  have hcount : ∀ i ∈ List.range b.msanr,
      ((decide (((flagged b a).msa i).mfMarty = 0) && inMarea (initMemareaCore a) ((flagged b a).msa i)) = true ↔
        (inMarea (initMemareaCore a) ((flagged b (a + 1)).msa i) &&
          decide (((flagged b (a + 1)).msa i).mfMarty = a + 1)) = true) := by
    intro i hi
    rw [List.mem_range] at hi
    rw [Bool.and_eq_true, Bool.and_eq_true, decide_eq_true_iff, decide_eq_true_iff, hin i hi, hin i hi]
    refine ⟨fun h => ⟨h.2, ?_⟩, fun h => ⟨hzero i hi h.1, h.1⟩⟩
    rw [flagged_msa_of_lt hi]
    exact (if_pos (by omega)).trans (by rw [h.2])
  refine ⟨(List.range b.msanr).countP fun i =>
    inMarea (initMemareaCore a) ((flagged b (a + 1)).msa i) &&
      decide (((flagged b (a + 1)).msa i).mfMarty = a + 1), ?_, ?_⟩
  · unfold merloveSetallmarflgsOnmemarea
    rw [hmsanr, if_neg (by omega), hmarea, maType_eq ha, if_neg hshar, martyOf_eq ha]
    simp only [setallmarflgsLoop_eq, hmarea]
    refine Prod.ext (congrArg some (List.countP_congr hcount)) ?_
    simp only [flagged, Memmgrob.mk.injEq, true_and, and_true]
    funext i
    by_cases hi : i < b.msanr
    · have hin' := hin i hi a
      have hzero' := hzero i hi
      simp only [flagged, if_pos hi] at hin' hzero' ⊢
      by_cases harea : areaOf (b.msa i).pafPadrs = a
      · rw [if_pos ⟨hi, hzero' harea, hin'.mpr harea⟩, if_pos (by omega), harea]
      · rw [if_neg fun h => harea (hin'.mp h.2.2)]
        simp only [show areaOf (b.msa i).pafPadrs < a + 1 ↔ areaOf (b.msa i).pafPadrs < a by omega]
    · simp only [hi, false_and, if_false]
  · unfold testSetflgs
    rw [hmsanr, if_neg (by omega), hmarea, maType_eq ha, if_neg hshar, martyOf_eq ha, Option.map_some]

theorem setflgsLoop_eq (hb : b.Arr) : setflgsLoop memareaMax 0 (bootSt b) = (true, flagged b 3) := by
  have hstep : ∀ c a, a < 3 → setflgsLoop (c + 1) a (flagged b a) = setflgsLoop c (a + 1) (flagged b (a + 1)) := by
    intro c a ha
    obtain ⟨n, hset, htest⟩ := flagged_succ hb ha
    simp only [setflgsLoop, hset, htest, ne_eq, not_true_eq_false, if_false]
  have hpos := hb.pos
  have hmsanr : (flagged b 3).moMsanr ≠ 0 := by
    show b.msanr ≠ 0
    omega
  have hshar : ((flagged b 3).marea 3).maType = maTypeShar := rfl
  rw [← flagged_zero hb, memareaMax, hstep 3 0 (by omega), hstep 2 1 (by omega), hstep 1 2 (by omega)]
  simp only [setflgsLoop, merloveSetallmarflgsOnmemarea, testSetflgs, if_neg hmsanr, if_pos hshar, ne_eq,
    not_true_eq_false, if_false]

/-! ### Pages still to hang -/

/-- What the loops over the areas leave as `flagged` made it. -/
structure OfBoot (b : Boot) (s : Memmgrob) : Prop where
  msanr : s.moMsanr = b.msanr
  mocty : ∀ i, (s.msa i).mfMocty = (b.msa i).mfMocty
  padrs : ∀ i, (s.msa i).pafPadrs = (b.msa i).pafPadrs
  uindx : ∀ i, (s.msa i).mfUindx = (b.msa i).mfUindx
  alloc : ∀ i, (s.msa i).pafAlloc = (b.msa i).pafAlloc
  marty : ∀ i < b.msanr, (s.msa i).mfMarty = areaOf (b.msa i).pafPadrs + 1
  behind : (s.msa b.msanr).mfMarty = (b.msa b.msanr).mfMarty
  stus : ∀ a k, (s.bafh a k).afStus = (memdivmerInit k).afStus
  unused : ∀ a k, ¬SlotOk a k → s.bafh a k = memdivmerInit k
  start : ∀ a, (s.marea a).maLogicstart = (initMemareaCore a).maLogicstart
  last : ∀ a, (s.marea a).maLogicend = (initMemareaCore a).maLogicend
  shar : s.marea 3 = initMemareaCore 3
  freepages : ∀ a, (s.marea a).maFreepages < 2 ^ 64

/-- While area `a` is at descriptor `fnt`: a page of a later area, or of this one from `fnt` on. -/
def Todo (s : Memmgrob) (a fnt i : Nat) : Prop :=
  i < s.moMsanr ∧ (s.msa i).mfMocty ≠ .krnl ∧
    (a + 1 < (s.msa i).mfMarty ∨ ((s.msa i).mfMarty = a + 1 ∧ fnt ≤ i))

/-- The lists while area `a` is at descriptor `fnt`. -/
structure Hung (b : Boot) (s : Memmgrob) (a fnt : Nat) : Prop extends OfBoot b s where
  inv : Inv s { x | x.2 = 1 ∧ Todo s a fnt x.1 } ∅
  fresh : ∀ i, Todo s a fnt i → (s.msa i).mfOlkty = .init ∧ (s.msa i).mdOdlink = .null
  below : ∀ k, ∀ x ∈ (s.bafh a k).afFrelst, x + pnr k ≤ fnt
  later : ∀ a', a < a' → ∀ k, (s.bafh a' k).afFrelst = []

theorem OfBoot.idle (h : OfBoot b s) (hb : b.Arr) {i : Nat} (hi : i < b.msanr) (hne : (s.msa i).mfMocty ≠ .krnl) :
    (s.msa i).mfMocty = .free ∧ (s.msa i).mfUindx = 0 ∧ (s.msa i).pafAlloc = false := by
  rw [h.mocty] at hne ⊢
  rw [h.uindx, h.alloc]
  exact (hb.marks i hi).resolve_left fun hk => hne hk.1

theorem OfBoot.nextPage_iff (h : OfBoot b s) (hb : b.Arr) {i : Nat} (hi : i + 1 < b.msanr)
    (hfree : isFreeMsa (a + 1) (s.msa i) = true) (hfree' : isFreeMsa (a + 1) (s.msa (i + 1)) = true) :
    nextPage (s.msa i) (s.msa (i + 1)) = true ↔ (s.msa (i + 1)).pafPadrs = (s.msa i).pafPadrs + 1 := by
  have hpadrs := hb.padrs i (by omega)
  have hpadrs' := hb.padrs (i + 1) hi
  rw [isFreeMsa, decide_eq_true_iff] at hfree hfree'
  have hmarty : areaOf (b.msa (i + 1)).pafPadrs = areaOf (b.msa i).pafPadrs := by
    rw [← Nat.add_right_cancel_iff (n := 1), ← h.marty (i + 1) hi, ← h.marty i (by omega), hfree.1, hfree'.1]
  rw [← h.padrs] at hpadrs hpadrs'
  refine Page.nextPage_iff hpadrs hpadrs' ?_
  rw [h.padrs, h.padrs, hmarty]

theorem Hung.isFreeMsa_iff (h : Hung b s a m) (hb : b.Arr) {i : Nat} (hi : i < b.msanr) (hlo : m ≤ i) :
    isFreeMsa (a + 1) (s.msa i) = true ↔ Todo s a m i ∧ (s.msa i).mfMarty = a + 1 := by
  rw [isFreeMsa, decide_eq_true_iff, Todo, h.msanr]
  constructor
  · rintro ⟨h1, -, h3, -⟩
    exact ⟨⟨hi, by rw [h3]; simp, .inr ⟨h1, hlo⟩⟩, h1⟩
  · rintro ⟨⟨-, hne, -⟩, hm⟩
    have hidle := h.idle hb hi hne
    exact ⟨hm, hidle.2.1, hidle.1, hidle.2.2⟩

theorem hung_flagged (hb : b.Arr) : Hung b (flagged b 3) 0 0 := by
  have hmsa : ∀ i < b.msanr, (flagged b 3).msa i = { b.msa i with mfMarty := areaOf (b.msa i).pafPadrs + 1 } := by
    intro i hi
    rw [flagged_msa_of_lt hi, if_pos (by unfold areaOf; split_ifs <;> omega)]
  -- a field other than `mf_marty` is as before
  have hfield : ∀ i, ∃ marty, (flagged b 3).msa i = { b.msa i with mfMarty := marty } := by
    intro i
    by_cases hi : i < b.msanr
    · exact ⟨_, hmsa i hi⟩
    · exact ⟨(b.msa i).mfMarty, if_neg hi⟩
  have hof : OfBoot b (flagged b 3) := by
    refine ⟨rfl, ?_, ?_, ?_, ?_, fun i hi => by rw [hmsa i hi], ?_, fun _ _ => rfl, fun _ _ _ => rfl, fun _ => rfl,
      fun _ => rfl, rfl, fun a => ?_⟩
    · intro i
      obtain ⟨marty, heq⟩ := hfield i
      rw [heq]
    · intro i
      obtain ⟨marty, heq⟩ := hfield i
      rw [heq]
    · intro i
      obtain ⟨marty, heq⟩ := hfield i
      rw [heq]
    · intro i
      obtain ⟨marty, heq⟩ := hfield i
      rw [heq]
    · show (if b.msanr < b.msanr then _ else b.msa b.msanr).mfMarty = _
      rw [if_neg (lt_irrefl _)]
    · show (initMemareaCore a).maFreepages < 2 ^ 64
      unfold initMemareaCore
      split <;> exact Nat.two_pow_pos 64
  have hnil : ∀ a k, ((flagged b 3).bafh a k).afFrelst = [] := by
    intro a k
    show (memdivmerInit k).afFrelst = []
    unfold memdivmerInit
    split <;> rfl
  have htodo : ∀ i, Todo (flagged b 3) 0 0 i ↔ i ∈ pages (flagged b 3) := by
    intro i
    refine ⟨fun h => ⟨h.1, h.2.1⟩, fun h => ⟨h.1, h.2, ?_⟩⟩
    rw [hof.marty i h.1]
    omega
  have htile : Tiling Owner.ext (pages (flagged b 3))
      (blocks (flagged b 3) ({ x | x.2 = 1 ∧ Todo (flagged b 3) 0 0 x.1 } ∪ ∅)) := by
    have hblocks : blocks (flagged b 3) ({ x | x.2 = 1 ∧ Todo (flagged b 3) 0 0 x.1 } ∪ ∅) =
        (fun i => Owner.used i 1) '' pages (flagged b 3) := by
      ext o
      cases o with
      | free a k x => simp [hnil]
      | used x n =>
        simp only [mem_blocks_used, Set.union_empty, Set.mem_image, Owner.used.injEq, Set.mem_ofPred_eq, htodo]
        constructor
        · exact fun h => ⟨x, h.2, rfl, h.1.symm⟩
        · rintro ⟨i, hi, rfl, rfl⟩
          exact ⟨rfl, hi⟩
    rw [hblocks]
    refine .singles _ fun i => ?_
    ext j
    show i ≤ j ∧ j < i + 1 ↔ j = i
    omega
  refine { hof with inv := ?_, fresh := fun i hi => ?_, below := fun k x hx => ?_, later := fun a' _ k => hnil a' k }
  · refine ⟨rfl, fun a ha => ?_, fun a k hslot => ?_, ?_, ?_, ?_, hb.small, ?_, htile, ?_, ?_, ?_, ?_, ?_⟩
    · unfold memareaMax at ha
      interval_cases a <;> rfl
    · show (memdivmerInit k).afOderpnr = pnr k
      unfold memdivmerInit
      split
      · next hk => exact (pnr_of_lt hk).symm
      · next hk =>
        unfold SlotOk at hslot
        exact (if_pos (show k = onemsalst by omega)).symm
    · intro a k x hx
      simp [hnil] at hx
    · intro a k
      simp [hnil]
    · intro a k _
      rw [hnil]
      show (memdivmerInit k).afFobjnr = 0 ∧ (memdivmerInit k).afMobjnr = 0
      unfold memdivmerInit
      split <;> exact ⟨rfl, rfl⟩
    · intro i hi
      rw [hof.padrs]
      exact hb.padrs i hi
    · intro x _ hx
      simp at hx
    · intro a k x hx
      simp [hnil] at hx
    · intro x hx
      simp at hx
    · intro i hi _
      rw [hmsa i hi]
      exact ⟨(hb.fresh i hi).1, (hb.fresh i hi).2.1⟩
    · intro a _ k _ x hx
      simp [hnil] at hx
  · rw [hmsa i hi.1]
    exact ⟨(hb.fresh i hi.1).1, (hb.fresh i hi.1).2.1⟩
  · simp [hnil] at hx

/-! ### One more block -/

def hangAt (s : Memmgrob) (a k m : Nat) : Memmgrob :=
  countHung (addFrelst (s.markFree a k m (m + pnr k - 1)) a k m) a (pnr k)

theorem hangAt_msa (s : Memmgrob) (a k m : Nat) : (hangAt s a k m).msa = (s.markFree a k m (m + pnr k - 1)).msa := rfl

theorem hangAt_bafh_self (s : Memmgrob) (a k m : Nat) :
    ((hangAt s a k m).bafh a k).afFrelst = m :: (s.bafh a k).afFrelst := by
  show ((addFrelst (s.markFree a k m (m + pnr k - 1)) a k m).bafh a k).afFrelst = _
  rw [addFrelst, setBafh_self]
  rfl

theorem hangAt_bafh_of_ne (s : Memmgrob) {a' k' : Nat} (h : ¬(a' = a ∧ k' = k)) :
    (hangAt s a k m).bafh a' k' = s.bafh a' k' := by
  show (addFrelst (s.markFree a k m (m + pnr k - 1)) a k m).bafh a' k' = _
  rw [addFrelst, setBafh_of_ne _ _ h]
  rfl

theorem hangAt_marea (s : Memmgrob) (a k m : Nat) {β : Type} (p : Memarea → β)
    (hp : ∀ ma n, p { ma with
      maMaxpages := u64 (ma.maMaxpages + n)
      maFreepages := u64 (ma.maFreepages + n)
      maAllmsadscnr := u64 (ma.maAllmsadscnr + n) } = p ma) (a' : Nat) :
    p ((hangAt s a k m).marea a') = p (s.marea a') := by
  by_cases ha : a' = a
  · subst ha
    simp only [hangAt, countHung, Memmgrob.setMarea, update_self]
    exact hp _ _
  · simp only [hangAt, countHung, Memmgrob.setMarea, update_of_ne ha]
    rfl

theorem OfBoot.hangAt (h : OfBoot b s) (hslot : SlotOk a k) : OfBoot b (hangAt s a k m) := by
  have hsame := same_markFree s a k m (m + pnr k - 1)
  refine ⟨h.msanr, fun i => (hsame.mocty i).trans (h.mocty i), fun i => (hsame.padrs i).trans (h.padrs i),
    fun i => (markFree_uindx s i).trans (h.uindx i), fun i => (markFree_alloc s i).trans (h.alloc i),
    fun i hi => (hsame.marty i).trans (h.marty i hi), (hsame.marty _).trans h.behind, fun a' k' => ?_,
    fun a' k' hno => ?_, fun a' => ?_, fun a' => ?_, ?_, fun a' => ?_⟩
  · by_cases heq : a' = a ∧ k' = k
    · obtain ⟨rfl, rfl⟩ := heq
      show ((addFrelst (s.markFree a' k' m (m + pnr k' - 1)) a' k' m).bafh a' k').afStus = _
      rw [addFrelst, setBafh_self]
      exact h.stus a' k'
    · rw [hangAt_bafh_of_ne s heq, h.stus]
  · have hne : ¬(a' = a ∧ k' = k) := by
      rintro ⟨rfl, rfl⟩
      exact hno hslot
    rw [hangAt_bafh_of_ne s hne, h.unused a' k' hno]
  · exact (hangAt_marea s a k m Memarea.maLogicstart (fun _ _ => rfl) a').trans (h.start a')
  · exact (hangAt_marea s a k m Memarea.maLogicend (fun _ _ => rfl) a').trans (h.last a')
  · have hlt := hslot.lt
    simp only [Page.hangAt, countHung, Memmgrob.setMarea, update_of_ne (show (3 : Nat) ≠ a by omega)]
    exact h.shar
  · by_cases ha : a' = a
    · subst ha
      simp only [Page.hangAt, countHung, Memmgrob.setMarea, update_self]
      exact u64_lt _
    · simp only [Page.hangAt, countHung, Memmgrob.setMarea, update_of_ne ha]
      exact h.freepages a'

theorem todo_hangAt (s : Memmgrob) (a k m a' fnt i : Nat) : Todo (hangAt s a k m) a' fnt i ↔ Todo s a' fnt i := by
  have hsame := same_markFree s a k m (m + pnr k - 1)
  unfold Todo
  rw [hangAt_msa, hsame.mocty, hsame.marty]
  rfl

theorem Hung.gather (h : Hung b s a m)
    (hpages : ∀ i, m ≤ i → i < m + pnr k → Todo s a m i ∧ (s.msa i).mfMarty = a + 1) :
    Inv s (insert (m, pnr k) { x | x.2 = 1 ∧ Todo s a (m + pnr k) x.1 }) ∅ := by
  have hpos := pnr_pos k
  -- what is left are the pages still to hang outside the block
  have hrest : ∀ i, Todo s a (m + pnr k) i ↔ Todo s a m i ∧ ¬(m ≤ i ∧ i < m + pnr k) := by
    intro i
    constructor
    · intro hi
      refine ⟨⟨hi.1, hi.2.1, hi.2.2.imp_right fun hm => ⟨hm.1, by omega⟩⟩, fun hin => ?_⟩
      have hm := (hpages i hin.1 hin.2).2
      rcases hi.2.2 with hgt | heq <;> omega
    · rintro ⟨⟨h1, h2, h3⟩, hout⟩
      exact ⟨h1, h2, h3.imp_right fun hm => ⟨hm.1, by omega⟩⟩
  refine { h.inv with tile := ?_, apart := fun _ _ hx => by simp at hx }
  refine h.inv.swap_used { x | x.2 = 1 ∧ m ≤ x.1 ∧ x.1 < m + pnr k } {(m, pnr k)} ?_ ?_ ?_ ?_ ?_
  · rintro x ⟨hx, hlo, hhi⟩
    exact .inl ⟨hx, (hpages x.1 hlo hhi).1⟩
  · rintro x rfl
    exact hpos
  · intro i
    constructor
    · rintro ⟨x, rfl, hlo, hhi⟩
      exact ⟨(i, 1), ⟨rfl, hlo, hhi⟩, le_rfl, Nat.lt_succ_self i⟩
    · rintro ⟨⟨x, n⟩, ⟨hx, hlo, hhi⟩, hlo', hhi'⟩
      simp only at hx hlo hhi hlo' hhi'
      exact ⟨(m, pnr k), rfl, show m ≤ i by omega, show i < m + pnr k by omega⟩
  · rintro x rfl y rfl i - - - -
    rfl
  · intro x
    simp only [Set.union_empty, Set.mem_insert_iff, Set.mem_ofPred_eq, Set.mem_singleton_iff, hrest]
    tauto

theorem Hung.hangAt (hb : b.Arr) (h : Hung b s a m) (hslot : SlotOk a k)
    (hpages : ∀ i, m ≤ i → i < m + pnr k → Todo s a m i ∧ (s.msa i).mfMarty = a + 1)
    (hpadrs : ∀ i, m ≤ i → i < m + pnr k → (s.msa i).pafPadrs = (s.msa m).pafPadrs + (i - m))
    (halone : a < 2 → k < mdivmerArrLmax - 1 → ∀ x ∈ (s.bafh a k).afFrelst, ¬Adjacent s.msa x (pnr k) m) :
    Hung b (hangAt s a k m) a (m + pnr k) := by
  have hpos := pnr_pos k
  have hsame := same_markFree s a k m (m + pnr k - 1)
  have htodo : { x : Blk | x.2 = 1 ∧ Todo (Page.hangAt s a k m) a (m + pnr k) x.1 } =
      { x | x.2 = 1 ∧ Todo s a (m + pnr k) x.1 } := by
    ext x
    simp only [Set.mem_ofPred_eq, todo_hangAt]
  have hnotin : (m, pnr k) ∉ { x : Blk | x.2 = 1 ∧ Todo s a (m + pnr k) x.1 } := by
    rintro ⟨-, -, -, hgt | ⟨-, hge⟩⟩
    · have := (hpages m le_rfl (by omega)).2
      simp only at hgt
      omega
    · simp only at hge
      omega
  have hwrite : Inv (s.markFree a k m (m + pnr k - 1)) (insert (m, pnr k) { x | x.2 = 1 ∧ Todo s a (m + pnr k) x.1 })
      ∅ := by
    refine (h.gather hpages).write (Set.mem_insert _ _) hsame rfl fun i hi => ?_
    refine markFree_of_ne s ?_ ?_ <;> rintro rfl <;> simp at hi <;> omega
  have hfree : FreeBlk (s.markFree a k m (m + pnr k - 1)).msa a k m := by
    refine freeBlk_markFree ⟨fun i hlo hhi => (hpages i hlo hhi).2, hpadrs⟩ (fun i hlo hhi => ?_) fun i hlo hhi => ?_
    · have hi := (hpages i hlo hhi).1
      exact (h.idle hb (h.msanr ▸ hi.1) hi.2.1).2
    · exact h.fresh i (hpages i (by omega) (by omega)).1
  refine ⟨h.toOfBoot.hangAt hslot, ?_, fun i hi => ?_, fun k' x hx => ?_, fun a' ha' k' => ?_⟩
  · rw [htodo]
    have hhang := hwrite.hang hnotin hslot hfree (fun ha hk x hx => by
        rw [hsame.adjacent_iff, hsame.adjacent_iff]
        refine ⟨fun hadj => ?_, halone ha hk x hx⟩
        have := hadj.1
        have := h.below k x hx
        omega)
      (f := fun bafh =>
        { bafh with
          afFrelst := m :: bafh.afFrelst
          afFobjnr := u64 (bafh.afFobjnr + 1)
          afMobjnr := u64 (bafh.afMobjnr + 1) }) (fun _ => rfl) rfl rfl rfl
    exact hhang.recount rfl rfl rfl (hangAt_marea s a k m Memarea.maType fun _ _ => rfl) rfl
  · rw [todo_hangAt] at hi
    have hout : ¬(m ≤ i ∧ i < m + pnr k) := fun hin => by
      have := (hpages i hin.1 hin.2).2
      rcases hi.2.2 with hgt | heq <;> omega
    rw [hangAt_msa, markFree_of_ne s (by omega) (by omega)]
    exact h.fresh i ⟨hi.1, hi.2.1, hi.2.2.imp_right fun hm => ⟨hm.1, by omega⟩⟩
  · by_cases heq : k' = k
    · subst heq
      rw [hangAt_bafh_self] at hx
      rcases List.mem_cons.mp hx with rfl | hx
      · exact le_rfl
      · have := h.below k' x hx
        omega
    · rw [hangAt_bafh_of_ne s (by omega)] at hx
      have := h.below k' x hx
      omega
  · rw [hangAt_bafh_of_ne s (by omega), h.later a' ha' k']

end Cosmos.Page
