import Mathlib.Algebra.BigOperators.Intervals
import Mathlib.Algebra.Order.BigOperators.Group.Finset
import Mathlib.Order.Interval.Finset.Nat
import Cosmos.Page.Coalesce

/-!
# The counters

Boot counts every block it hangs (`Tallied`). After that every call moves the pages of one block between the free and
the allocated pages of one area (`Shift`), and the counters of the area and of the whole allocator follow it
(`Balanced`). As an area has less than `2 ^ 63` pages, no sum or difference wraps.
-/

namespace Cosmos.Page

open Cosmos.Lib Halt

variable {b : Boot} {s s' s₀ : Memmgrob} {live live' : Finset Blk} {a k m n : Nat}

/-! ### Boot counts what it hangs -/

def listSize (s : Memmgrob) (a : Nat) : Nat :=
  ∑ k ∈ Finset.range (onemsalst + 1), (s.bafh a k).afOderpnr * (s.bafh a k).afFrelst.length

/-- The counters of the areas are those of the pages on their lists, with none allocated. -/
def Tallied (s : Memmgrob) : Prop :=
  ∀ a, (s.marea a).maFreepages = u64 (listSize s a) ∧ (s.marea a).maMaxpages = u64 (listSize s a) ∧
    (s.marea a).maAllocpages = 0

theorem Tallied.congr (h : Tallied s) (hmarea : s'.marea = s.marea) (hbafh : s'.bafh = s.bafh) : Tallied s' := by
  intro a
  have hsize : listSize s' a = listSize s a := by simp only [listSize, hbafh]
  rw [hmarea, hsize]
  exact h a

theorem listSize_addFrelst (s : Memmgrob) (hk : k ≤ onemsalst) (m : Nat) :
    listSize (addFrelst s a k m) a = listSize s a + (s.bafh a k).afOderpnr := by
  have hmem : k ∈ Finset.range (onemsalst + 1) := Finset.mem_range.mpr (by omega)
  unfold listSize
  rw [← Finset.add_sum_erase _ _ hmem, ← Finset.add_sum_erase _ (fun k => (s.bafh a k).afOderpnr * _) hmem]
  have hself : (addFrelst s a k m).bafh a k = _ := setBafh_self s _
  have hrest : ∀ k' ∈ (Finset.range (onemsalst + 1)).erase k, (addFrelst s a k m).bafh a k' = s.bafh a k' := by
    intro k' hk'
    exact setBafh_of_ne s _ fun heq => Finset.ne_of_mem_erase hk' heq.2
  rw [Finset.sum_congr rfl fun k' hk' => by rw [hrest k' hk'], hself]
  simp only [List.length_cons]
  ring

theorem listSize_addFrelst_of_ne (s : Memmgrob) {a' : Nat} (ha : a' ≠ a) (k m : Nat) :
    listSize (addFrelst s a k m) a' = listSize s a' := by
  refine Finset.sum_congr rfl fun k' _ => ?_
  have hbafh : (addFrelst s a k m).bafh a' k' = s.bafh a' k' := setBafh_of_ne s _ fun heq => ha heq.1
  rw [hbafh]

theorem Tallied.hang (h : Tallied s) (hk : k ≤ onemsalst) (hn : (s.bafh a k).afOderpnr = n) (m : Nat) :
    Tallied (countHung (addFrelst s a k m) a n) := by
  intro a'
  have hsize : listSize (countHung (addFrelst s a k m) a n) a' = listSize (addFrelst s a k m) a' := rfl
  rw [hsize]
  by_cases ha : a' = a
  · subst ha
    rw [listSize_addFrelst s hk, hn]
    simp only [countHung, Memmgrob.setMarea, addFrelst, setBafh_marea, Function.update_self]
    rw [(h a').1, (h a').2.1]
    exact ⟨u64_u64_add _ _, u64_u64_add _ _, (h a').2.2⟩
  · rw [listSize_addFrelst_of_ne s ha]
    simp only [countHung, Memmgrob.setMarea, addFrelst, setBafh_marea, Function.update_of_ne ha]
    exact h a'

/-- The slots of process memory keep their order in the loop, so that each turn counts one page. -/
theorem tallied_addProcLoop (hk : k ≤ onemsalst) (fstat tmpnr : Nat) :
    ∀ s, Tallied s → (s.bafh a k).afOderpnr = 1 →
      Tallied (addProcLoop a k fstat tmpnr s) ∧ ((addProcLoop a k fstat tmpnr s).bafh a k).afOderpnr = 1 := by
  induction tmpnr with
  | zero =>
    intro s h hone
    exact ⟨h, hone⟩
  | succ tmpnr ih =>
    intro s h hone
    obtain ⟨h₁, hone₁⟩ := ih s h hone
    rw [addProcLoop]
    refine ⟨?_, ?_⟩
    · apply Tallied.hang _ hk
      · exact hone₁
      · exact h₁.congr rfl rfl
    · show ((addFrelst _ a k (fstat + tmpnr)).bafh a k).afOderpnr = 1
      rw [addFrelst, setBafh_self]
      exact hone₁

theorem findContinumsaInbafhlst_le {fmnr : Nat} (h : findContinumsaInbafhlst s a fmnr = some k) : k ≤ onemsalst := by
  unfold findContinumsaInbafhlst at h
  simp only at h
  split_ifs at h
  · exact (Option.some.inj h).ge
  · have hmem := List.mem_of_getLast? h
    rw [List.mem_filter, List.mem_range] at hmem
    exact hmem.1.le

theorem tallied_mareabafhCore {mstat mend retval mstat' mnr' : Nat} (h : Tallied s)
    (heq : continumsadscMareabafhCore s a mstat mend retval = some (mstat', mnr', s')) : Tallied s' := by
  unfold continumsadscMareabafhCore at heq
  split_ifs at heq
  cases hfind : findContinumsaInbafhlst s a retval with
  | none => simp [hfind] at heq
  | some k =>
    have hk := findContinumsaInbafhlst_le hfind
    simp only [hfind] at heq
    split_ifs at heq with _ _ hadd _ hadd
    · simp only [continumsadscAddBafhlst] at hadd heq
      split_ifs at hadd heq
      simp only [Option.some.injEq, Prod.mk.injEq] at heq
      obtain ⟨-, -, rfl⟩ := heq
      apply Tallied.hang _ hk
      · rfl
      · exact h.congr rfl rfl
    · simp only [continumsadscAddProcmareabafh] at hadd heq
      split_ifs at hadd heq with _ _ hone
      simp only [Option.some.injEq, Prod.mk.injEq] at heq
      obtain ⟨-, -, rfl⟩ := heq
      exact (tallied_addProcLoop hk _ _ s h (not_not.mp hone)).1

theorem tallied_mareabafhLoop (mend c : Nat) : ∀ mstat mnr s, Tallied s →
    mareabafhLoop a mend c mstat mnr s = .ok s' → Tallied s' := by
  induction c with
  | zero =>
    intro mstat mnr s h heq
    cases mnr with
    | zero => exact Except.ok.inj heq ▸ h
    | succ mnr => simp [mareabafhLoop] at heq
  | succ c ih =>
    intro mstat mnr s h heq
    cases mnr with
    | zero => exact Except.ok.inj heq ▸ h
    | succ mnr =>
      rw [mareabafhLoop] at heq
      cases hcore : continumsadscMareabafhCore s a mstat mend (mnr + 1) with
      | none => simp [hcore] at heq
      | some r =>
        obtain ⟨mstat', mnr', s₁⟩ := r
        rw [hcore] at heq
        exact ih mstat' mnr' s₁ (tallied_mareabafhCore h hcore) heq

theorem tallied_onmemareaLoop (c : Nat) : ∀ fntmnr s, Tallied s →
    onmemareaLoop a c fntmnr s = .ok s' → Tallied s' := by
  induction c with
  | zero =>
    intro fntmnr s h heq
    rw [onmemareaLoop] at heq
    split_ifs at heq
    exact Except.ok.inj heq ▸ h
  | succ c ih =>
    intro fntmnr s h heq
    rw [onmemareaLoop] at heq
    split_ifs at heq
    · obtain ⟨retscan, -, heq⟩ := bind_eq_ok heq
      rcases retscan with _ | ⟨fntmnr', _ | ⟨retstat, retend, retfindmnr⟩⟩
      · cases heq
      · exact ih fntmnr' s h heq
      · simp only at heq
        split_ifs at heq
        obtain ⟨s₁, hmarea, heq⟩ := bind_eq_ok heq
        unfold merloveContinumsadscMareabafh at hmarea
        split_ifs at hmarea
        exact ih fntmnr' s₁ (tallied_mareabafhLoop _ _ _ _ s h hmarea) heq
    · exact Except.ok.inj heq ▸ h

theorem tallied_onmemareasLoop (c : Nat) : ∀ maidx s r, Tallied s →
    onmemareasLoop c maidx s = .ok (r, s') → Tallied s' := by
  induction c with
  | zero =>
    intro maidx s r h heq
    obtain ⟨-, rfl⟩ := pair_inj heq
    exact h
  | succ c ih =>
    intro maidx s r h heq
    obtain ⟨⟨r₁, s₁⟩, hone, heq⟩ := bind_eq_ok heq
    have h₁ : Tallied s₁ := by
      unfold merloveMemOnmemarea at hone
      split_ifs at hone
      · obtain ⟨-, rfl⟩ := pair_inj hone
        exact h
      · obtain ⟨-, rfl⟩ := pair_inj hone
        exact h
      · obtain ⟨-, rfl⟩ := pair_inj hone
        exact h
      · obtain ⟨s₂, hloop, hone⟩ := bind_eq_ok hone
        obtain ⟨-, rfl⟩ := pair_inj hone
        exact tallied_onmemareaLoop _ _ s h hloop
    cases r₁ with
    | true => exact ih _ s₁ r h₁ heq
    | false =>
      obtain ⟨-, rfl⟩ := pair_inj heq
      exact h₁

theorem tallied_bootSt (b : Boot) : Tallied (bootSt b) := by
  intro a
  have hsize : listSize (bootSt b) a = 0 := by
    refine Finset.sum_eq_zero fun k _ => ?_
    show (memdivmerInit k).afOderpnr * (memdivmerInit k).afFrelst.length = 0
    unfold memdivmerInit
    split <;> rfl
  rw [hsize]
  show (initMemareaCore a).maFreepages = 0 ∧ (initMemareaCore a).maMaxpages = 0 ∧ (initMemareaCore a).maAllocpages = 0
  unfold initMemareaCore
  split <;> exact ⟨rfl, rfl, rfl⟩

theorem tallied_merloveMemCore (hb : b.Arr) {r : Bool} (heq : merloveMemCore (bootSt b) = .ok (r, s)) : Tallied s := by
  unfold merloveMemCore at heq
  rw [show (bootSt b).moMareanr = memareaMax from rfl, setflgsLoop_eq hb] at heq
  have hflagged : Tallied (flagged b 3) := (tallied_bootSt b).congr rfl rfl
  exact tallied_onmemareasLoop _ _ _ _ hflagged heq

/-- **After boot the counters are those of the lists.** -/
theorem tallied_boot (hb : b.Wf) (hboot : boot b = .ok s) : Tallied s := by
  obtain ⟨s₁, hinit, heq⟩ := bind_eq_ok hboot
  obtain ⟨⟨ok, s₂⟩, hcore, hcheck⟩ := bind_eq_ok hinit
  have h₂ := tallied_merloveMemCore hb.toArr hcore
  cases ok with
  | false => simp at hcheck
  | true =>
    obtain ⟨_, -, hcheck⟩ := bind_eq_ok hcheck
    obtain rfl := Except.ok.inj hcheck
    obtain rfl := Except.ok.inj heq
    exact h₂.congr rfl rfl

/-! ### The pages of an area -/

def areaPages (s : Memmgrob) (a : Nat) : Finset Nat :=
  (Finset.range s.moMsanr).filter fun i => (s.msa i).mfMocty ≠ .krnl ∧ (s.msa i).mfMarty = a + 1

def freePages (s : Memmgrob) (a k : Nat) : Finset Nat :=
  (s.bafh a k).afFrelst.toFinset.biUnion fun m => Finset.Ico m (m + pnr k)

def livePages (s : Memmgrob) (live : Finset Blk) (a : Nat) : Finset Nat :=
  (live.filter fun c => (s.msa c.1).mfMarty = a + 1).biUnion fun c => Finset.Ico c.1 (c.1 + c.2)

theorem mem_freePages {i : Nat} : i ∈ freePages s a k ↔ ∃ m ∈ (s.bafh a k).afFrelst, m ≤ i ∧ i < m + pnr k := by
  simp only [freePages, Finset.mem_biUnion, List.mem_toFinset, Finset.mem_Ico]

theorem mem_livePages {i : Nat} : i ∈ livePages s live a ↔
    ∃ c ∈ live, (s.msa c.1).mfMarty = a + 1 ∧ c.1 ≤ i ∧ i < c.1 + c.2 := by
  simp only [livePages, Finset.mem_biUnion, Finset.mem_filter, Finset.mem_Ico, and_assoc]

theorem Kept.areaPages_eq (h : Kept s s') (a : Nat) : areaPages s' a = areaPages s a := by
  simp only [areaPages, h.msanr, h.mocty, h.marty]

theorem SlotOk.le (h : SlotOk a k) : k ≤ onemsalst := by
  rcases h with ⟨-, hk⟩ | ⟨-, rfl⟩
  · exact hk.le
  · exact le_rfl

section Size

variable (h : Inv s ∅ ↑live)

include h

theorem Inv.card_freePages (a k : Nat) :
    (freePages s a k).card = (s.bafh a k).afOderpnr * (s.bafh a k).afFrelst.length := by
  by_cases hslot : SlotOk a k
  · unfold freePages
    rw [Finset.card_biUnion]
    · simp only [Nat.card_Ico, Nat.add_sub_cancel_left, Finset.sum_const, smul_eq_mul]
      rw [List.toFinset_card_of_nodup (h.nodup a k), h.oder a k hslot, Nat.mul_comm]
    · intro m hm m' hm' hne
      rw [Finset.mem_coe, List.mem_toFinset] at hm hm'
      rw [Function.onFun, Finset.disjoint_left]
      intro i hi hi'
      rw [Finset.mem_Ico] at hi hi'
      have heq := h.tile.once (.free a k m) hm (.free a k m') hm' i hi hi'
      injection heq with _ _ heq
      exact hne heq
  · have hnil : (s.bafh a k).afFrelst = [] := by
      rw [List.eq_nil_iff_forall_not_mem]
      exact fun m hm => hslot (h.slot a k m hm)
    simp [freePages, hnil]

theorem Inv.card_livePages (a : Nat) : (livePages s live a).card = liveSize s a live := by
  unfold livePages liveSize
  rw [Finset.card_biUnion]
  · simp only [Nat.card_Ico, Nat.add_sub_cancel_left]
  · intro c hc c' hc' hne
    rw [Finset.mem_coe, Finset.mem_filter] at hc hc'
    rw [Function.onFun, Finset.disjoint_left]
    intro i hi hi'
    rw [Finset.mem_Ico] at hi hi'
    exact h.used_apart (.inr hc.1) (.inr hc'.1) hne hi.1 hi.2 hi'

theorem Inv.areaPages_eq (a : Nat) :
    areaPages s a = (Finset.range (onemsalst + 1)).biUnion (freePages s a) ∪ livePages s live a := by
  ext i
  simp only [areaPages, Finset.mem_filter, Finset.mem_range, Finset.mem_union, Finset.mem_biUnion, mem_freePages,
    mem_livePages]
  constructor
  · rintro ⟨hi, hkrnl, hmarty⟩
    obtain ⟨o, ho, hio⟩ := (h.tile.cover i).mp ⟨hi, hkrnl⟩
    cases o with
    | free a' k m =>
      have ha := (h.free a' k m ho).marty i hio.1 hio.2
      obtain rfl : a' = a := by omega
      exact .inl ⟨k, Nat.lt_succ_of_le (h.slot a' k m ho).le, m, ho, hio⟩
    | used m n =>
      have hmem : (m, n) ∈ live := by simpa using ho
      obtain ⟨a', k, -, -, hblk⟩ := h.live (m, n) hmem
      have ha := hblk.marty i hio.1 hio.2
      have hm := hblk.marty m le_rfl (lt_of_le_of_lt hio.1 hio.2)
      exact .inr ⟨(m, n), hmem, by simp only; omega, hio⟩
  · rintro (⟨k, -, m, hm, hlo, hhi⟩ | ⟨c, hc, hmarty, hlo, hhi⟩)
    · have hpage := h.lt_of_free hm hlo hhi
      exact ⟨hpage.1, hpage.2, (h.free a k m hm).marty i hlo hhi⟩
    · have hpage := h.lt_of_used (.inr hc) hlo hhi
      obtain ⟨a', k, -, -, hblk⟩ := h.live c hc
      have ha := hblk.marty i hlo hhi
      have hm := hblk.marty c.1 le_rfl (by omega)
      exact ⟨hpage.1, hpage.2, by omega⟩

/-- **The pages of an area** are those on its lists and those of its live blocks. -/
theorem Inv.card_areaPages (a : Nat) : (areaPages s a).card = listSize s a + liveSize s a live := by
  have hslots : ((Finset.range (onemsalst + 1) : Finset Nat) : Set Nat).PairwiseDisjoint (freePages s a) := by
    intro k _ k' _ hne
    rw [Function.onFun, Finset.disjoint_left]
    intro i hi hi'
    obtain ⟨m, hm, hio⟩ := mem_freePages.mp hi
    obtain ⟨m', hm', hio'⟩ := mem_freePages.mp hi'
    have heq := h.tile.once (.free a k m) hm (.free a k' m') hm' i hio hio'
    injection heq with _ heq
    exact hne heq
  have hfree : ((Finset.range (onemsalst + 1)).biUnion (freePages s a)).card = listSize s a := by
    rw [Finset.card_biUnion hslots]
    exact Finset.sum_congr rfl fun k _ => h.card_freePages a k
  have happart : Disjoint ((Finset.range (onemsalst + 1)).biUnion (freePages s a)) (livePages s live a) := by
    rw [Finset.disjoint_left]
    intro i hi hi'
    obtain ⟨k, -, hi⟩ := Finset.mem_biUnion.mp hi
    obtain ⟨m, hm, hlo, hhi⟩ := mem_freePages.mp hi
    obtain ⟨c, hc, -, hio⟩ := mem_livePages.mp hi'
    exact h.free_apart hm (.inr hc) hlo hhi hio
  rw [h.areaPages_eq, Finset.card_union_of_disjoint happart, hfree, h.card_livePages]

theorem Inv.areaPages_lt (a : Nat) : (areaPages s a).card < 2 ^ 63 := by
  have hle := (Finset.range s.moMsanr).card_filter_le fun i => (s.msa i).mfMocty ≠ .krnl ∧ (s.msa i).mfMarty = a + 1
  rw [Finset.card_range] at hle
  exact lt_of_le_of_lt hle h.small

theorem Inv.pnr_le_listSize (hm : m ∈ (s.bafh a k).afFrelst) : pnr k ≤ listSize s a := by
  have hslot := h.slot a k m hm
  have hmem : k ∈ Finset.range (onemsalst + 1) := Finset.mem_range.mpr (Nat.lt_succ_of_le hslot.le)
  have hle := Finset.single_le_sum
    (fun k _ => Nat.zero_le ((s.bafh a k).afOderpnr * (s.bafh a k).afFrelst.length)) hmem
  rw [h.oder a k hslot] at hle
  exact le_trans (Nat.le_mul_of_pos_right _ (List.length_pos_of_mem hm)) hle

end Size

theorem sum_card_areaPages (s : Memmgrob) : ∑ a ∈ Finset.range memareaMax, (areaPages s a).card =
    ((Finset.range s.moMsanr).filter fun i =>
      (s.msa i).mfMocty ≠ .krnl ∧ 1 ≤ (s.msa i).mfMarty ∧ (s.msa i).mfMarty ≤ memareaMax).card := by
  have hfiber : ∀ a ∈ Finset.range memareaMax, areaPages s a =
      (((Finset.range s.moMsanr).filter fun i => (s.msa i).mfMocty ≠ .krnl ∧ 1 ≤ (s.msa i).mfMarty).filter fun i =>
        (s.msa i).mfMarty - 1 = a) := by
    intro a _
    ext i
    simp only [areaPages, Finset.mem_filter, and_assoc]
    refine and_congr_right fun _ => and_congr_right fun _ => ?_
    omega
  rw [Finset.sum_congr rfl fun a ha => by rw [hfiber a ha], Finset.sum_card_fiberwise_eq_card_filter]
  congr 1
  ext i
  simp only [Finset.mem_filter, Finset.mem_range, and_assoc]
  refine and_congr_right fun _ => and_congr_right fun _ => and_congr_right fun _ => ?_
  omega

theorem Inv.sum_listSize_le (h : Inv s ∅ ↑live) (ha : a < memareaMax) :
    (∑ a ∈ Finset.range memareaMax, listSize s a) + liveSize s a live ≤ s.moMsanr := by
  have hsum : ∑ a ∈ Finset.range memareaMax, (areaPages s a).card ≤ s.moMsanr := by
    rw [sum_card_areaPages]
    exact le_trans (Finset.card_filter_le _ _) (Finset.card_range _).le
  have hone := Finset.single_le_sum (fun a _ => Nat.zero_le (liveSize s a live)) (Finset.mem_range.mpr ha)
  rw [Finset.sum_congr rfl fun a _ => h.card_areaPages a, Finset.sum_add_distrib] at hsum
  omega

/-! ### What a call moves -/

/-- From one state to the other `n` pages of area `a` go from its lists to its live blocks. -/
structure Shift (s : Memmgrob) (live : Finset Blk) (s' : Memmgrob) (live' : Finset Blk) (a n : Nat) : Prop where
  lt : a < 3
  lists : ∀ a', listSize s a' = listSize s' a' + if a' = a then n else 0
  used : ∀ a', liveSize s' a' live' = liveSize s a' live + if a' = a then n else 0

theorem Shift.sum_eq (h : Shift s live s' live' a n) :
    ∑ a ∈ Finset.range memareaMax, listSize s a = (∑ a ∈ Finset.range memareaMax, listSize s' a) + n := by
  have hmem : a ∈ Finset.range memareaMax := Finset.mem_range.mpr (lt_trans h.lt (by decide))
  rw [Finset.sum_congr rfl fun a' _ => h.lists a', Finset.sum_add_distrib, Finset.sum_ite_eq', if_pos hmem]

theorem Effect.size_eq (he : Effect s live s' live') (h : Inv s ∅ ↑live) (a' : Nat) :
    listSize s' a' + liveSize s' a' live' = listSize s a' + liveSize s a' live := by
  rw [← (he.inv h).card_areaPages, ← h.card_areaPages, he.kept.areaPages_eq]

/-- **Every call** does nothing, or moves the pages of one block and counts them. -/
theorem Effect.shift (he : Effect s live s' live') (h : Inv s ∅ ↑live) :
    s' = s ∧ live' = live ∨ ∃ a n s₁, Same s s₁ ∧
      (s' = counted s₁ a n ∧ Shift s live s' live' a n ∨ s' = countFree s₁ a n ∧ Shift s' live' s live a n) := by
  have hsize := he.size_eq h
  have hkept := he.kept
  have hinv := he.inv h
  cases he with
  | refused => exact .inl ⟨rfl, rfl⟩
  | @took s' a k m hh =>
    obtain ⟨div, s₁, htook, rfl⟩ := hh
    have hmarty := htook.marty h
    have hused : ∀ a', liveSize (counted s₁ a (pnr k)) a' (insert (m, pnr k) live) =
        liveSize s a' live + if a' = a then pnr k else 0 := by
      intro a'
      rw [liveSize_congr hkept, liveSize_insert (by simpa using htook.fresh), hmarty]
      simp only [Nat.add_right_cancel_iff, eq_comm]
    refine .inr ⟨a, pnr k, s₁, htook.same, .inl ⟨rfl, htook.slot.lt, fun a' => ?_, hused⟩⟩
    have h1 := hsize a'
    have h2 := hused a'
    omega
  | @freed s' a m n hmem hblk hf =>
    obtain ⟨s₁, hsame, rfl⟩ := hf.counted
    obtain ⟨a', k, hslot, -, hblk'⟩ := h.live (m, n) hmem
    have hpos := h.used_pos (.inr hmem)
    have hmarty : (s.msa m).mfMarty = a + 1 := hblk.marty m le_rfl (Nat.lt_add_of_pos_right hpos)
    have hmarty' : (s.msa m).mfMarty = a' + 1 := hblk'.marty m le_rfl (Nat.lt_add_of_pos_right hpos)
    have hused : ∀ a', liveSize s a' live =
        liveSize (countFree s₁ a n) a' (live.erase (m, n)) + if a' = a then n else 0 := by
      intro a'
      have hinsert := liveSize_insert (s := s) (show (m, n) ∉ live.erase (m, n) by simp) a'
      rw [Finset.insert_erase hmem, hmarty] at hinsert
      rw [liveSize_congr hkept, hinsert]
      simp only [Nat.add_right_cancel_iff, eq_comm]
    have hlt := hslot.lt
    refine .inr ⟨a, n, s₁, hsame, .inr ⟨rfl, by omega, fun a' => ?_, hused⟩⟩
    have h1 := hsize a'
    have h2 := hused a'
    omega

/-! ### The counters in every state -/

/-- Every counter is that of what it counts. -/
structure Balanced (s : Memmgrob) (live : Finset Blk) : Prop where
  objnr : ∀ a k, (s.bafh a k).afFobjnr = (s.bafh a k).afFrelst.length ∧
    (s.bafh a k).afMobjnr = (s.bafh a k).afFrelst.length
  free : ∀ a, (s.marea a).maFreepages = listSize s a
  alloc : ∀ a, (s.marea a).maAllocpages = liveSize s a live
  max : ∀ a, (s.marea a).maMaxpages = listSize s a + liveSize s a live
  allFree : s.moFreepages = ∑ a ∈ Finset.range memareaMax, listSize s a
  all : s.moFreepages + s.moAlocpages = s.moMsanr

section Counted

variable {s₁ : Memmgrob}

theorem counted_marea (s₁ : Memmgrob) (a n a' : Nat) : (counted s₁ a n).marea a' =
    if a' = a then
      { s₁.marea a with
        maFreepages := u64Sub (s₁.marea a).maFreepages n
        maAllocpages := u64 ((s₁.marea a).maAllocpages + n) }
    else s₁.marea a' := by
  by_cases ha : a' = a
  · subst ha
    simp [counted, mmUpdateMemmgrob, mmUpdateMemarea, Memmgrob.setMarea]
  · simp [counted, mmUpdateMemmgrob, mmUpdateMemarea, Memmgrob.setMarea, ha]

theorem countFree_marea (s₁ : Memmgrob) (a n a' : Nat) : (countFree s₁ a n).marea a' =
    if a' = a then
      { s₁.marea a with
        maFreepages := u64 ((s₁.marea a).maFreepages + n)
        maAllocpages := u64Sub (s₁.marea a).maAllocpages n }
    else s₁.marea a' := by
  by_cases ha : a' = a
  · subst ha
    simp [countFree, mmUpdateMemmgrob, mmUpdateMemarea, Memmgrob.setMarea]
  · simp [countFree, mmUpdateMemmgrob, mmUpdateMemarea, Memmgrob.setMarea, ha]

end Counted

theorem Same.objnr {s₁ : Memmgrob} (hsame : Same s s₁) (h : Balanced s live) (hinv : Inv s' ∅ ↑live')
    (hbafh : s'.bafh = s₁.bafh) (a k : Nat) : (s'.bafh a k).afFobjnr = (s'.bafh a k).afFrelst.length ∧
      (s'.bafh a k).afMobjnr = (s'.bafh a k).afFrelst.length := by
  by_cases hslot : SlotOk a k
  · exact hinv.count a k hslot
  · rw [hbafh, hsame.unused a k hslot]
    exact h.objnr a k

theorem u64Sub_add_self {x n : Nat} (h : x + n < 2 ^ 64) : u64Sub (x + n) n = x := by
  rw [u64Sub_of_le (Nat.le_add_left n x) h, Nat.add_sub_cancel]

/-- **The counters follow every call.** -/
theorem Effect.balanced (he : Effect s live s' live') (hinv : Inv s ∅ ↑live) (h : Balanced s live) :
    Balanced s' live' := by
  have hinv' := he.inv hinv
  have hmsanr := he.kept.msanr
  have hlt := hinv.small
  have hall := h.all
  have hallFree := h.allFree
  have hsmall : ∀ a, listSize s a + liveSize s a live < 2 ^ 63 := fun a => hinv.card_areaPages a ▸ hinv.areaPages_lt a
  have hmax : ∀ a, (s'.marea a).maMaxpages = listSize s' a + liveSize s' a live' := by
    intro a
    have hwords : Sized s s := ⟨fun a' => by rw [h.free]; have := hsmall a'; omega, fun _ => rfl⟩
    rw [(he.sized hwords).maxpages, h.max, he.size_eq hinv]
  rcases he.shift hinv with ⟨rfl, rfl⟩ | ⟨a, n, s₁, hsame, ⟨rfl, hshift⟩ | ⟨rfl, hshift⟩⟩
  · exact h
  · -- pages of area `a` are taken
    have hsum := hshift.sum_eq
    have hfree : (counted s₁ a n).moFreepages = ∑ a' ∈ Finset.range memareaMax, listSize (counted s₁ a n) a' := by
      show u64Sub s₁.moFreepages n = _
      rw [hsame.freepages, hallFree, hsum]
      exact u64Sub_add_self (by omega)
    have haloc : (counted s₁ a n).moAlocpages = s.moAlocpages + n := by
      show u64 (s₁.moAlocpages + n) = _
      rw [hsame.alocpages]
      exact u64_of_lt (by omega)
    refine ⟨hsame.objnr h hinv' rfl, fun a' => ?_, fun a' => ?_, hmax, hfree, by omega⟩
    all_goals
      have hlists := hshift.lists a'
      have hused := hshift.used a'
      have hsize := hsmall a'
      rw [counted_marea, hsame.marea]
      by_cases ha : a' = a
    · subst ha
      rw [if_pos rfl] at hlists ⊢
      simp only [h.free, hlists]
      exact u64Sub_add_self (by omega)
    · rw [if_neg ha] at hlists ⊢
      rw [h.free, hlists, Nat.add_zero]
    · subst ha
      rw [if_pos rfl] at hlists hused ⊢
      simp only [h.alloc, hused]
      exact u64_of_lt (by omega)
    · rw [if_neg ha] at hused ⊢
      rw [h.alloc, hused, Nat.add_zero]
  · -- pages of area `a` come back
    have hsum := hshift.sum_eq
    have hroom := hinv.sum_listSize_le (lt_trans hshift.lt (by decide))
    have hle : n ≤ liveSize s a live := by
      have hused := hshift.used a
      rw [if_pos rfl] at hused
      omega
    have hfree : (countFree s₁ a n).moFreepages = ∑ a' ∈ Finset.range memareaMax, listSize (countFree s₁ a n) a' := by
      show u64 (s₁.moFreepages + n) = _
      rw [hsame.freepages, hallFree, hsum]
      exact u64_of_lt (by omega)
    have haloc : (countFree s₁ a n).moAlocpages + n = s.moAlocpages := by
      show u64Sub s₁.moAlocpages n + n = _
      rw [hsame.alocpages, u64Sub_of_le (by omega) (by omega)]
      omega
    refine ⟨hsame.objnr h hinv' rfl, fun a' => ?_, fun a' => ?_, hmax, hfree, by omega⟩
    all_goals
      have hlists := hshift.lists a'
      have hused := hshift.used a'
      have hsize := hsmall a'
      rw [countFree_marea, hsame.marea]
      by_cases ha : a' = a
    · subst ha
      rw [if_pos rfl] at hlists hused ⊢
      simp only [h.free, hlists]
      exact u64_of_lt (by omega)
    · rw [if_neg ha] at hlists ⊢
      rw [h.free, hlists, Nat.add_zero]
    · subst ha
      rw [if_pos rfl] at hlists hused ⊢
      simp only [h.alloc, hused]
      exact u64Sub_add_self (by omega)
    · rw [if_neg ha] at hused ⊢
      rw [h.alloc, hused, Nat.add_zero]

theorem OfBoot.card_pages (hb : b.Wf) (hof : OfBoot b s) : (∑ a ∈ Finset.range memareaMax, (areaPages s a).card) +
    ((List.range s.moMsanr).countP fun i =>
      decide ((s.msa i).mfUindx = 1 ∧ (s.msa i).mfMocty = .krnl ∧ (s.msa i).pafAlloc = true)) = s.moMsanr := by
  have hidle : (Finset.range s.moMsanr).filter (fun i =>
      (s.msa i).mfMocty ≠ .krnl ∧ 1 ≤ (s.msa i).mfMarty ∧ (s.msa i).mfMarty ≤ memareaMax) =
      (Finset.range s.moMsanr).filter fun i => (s.msa i).mfMocty ≠ .krnl := by
    refine Finset.filter_congr fun i hi => and_iff_left ?_
    rw [hof.marty i (hof.msanr ▸ Finset.mem_range.mp hi)]
    unfold areaOf memareaMax
    split_ifs <;> omega
  have hkrnl : ((List.range s.moMsanr).countP fun i =>
      decide ((s.msa i).mfUindx = 1 ∧ (s.msa i).mfMocty = .krnl ∧ (s.msa i).pafAlloc = true)) =
      ((Finset.range s.moMsanr).filter fun i => ¬(s.msa i).mfMocty ≠ .krnl).card := by
    have hcongr : ∀ i ∈ List.range s.moMsanr,
        (decide ((s.msa i).mfUindx = 1 ∧ (s.msa i).mfMocty = .krnl ∧ (s.msa i).pafAlloc = true) = true ↔
          decide (¬(s.msa i).mfMocty ≠ .krnl) = true) := by
      intro i hi
      have hmarks := hb.marks i (hof.msanr ▸ List.mem_range.mp hi)
      rw [← hof.mocty, ← hof.uindx, ← hof.alloc] at hmarks
      rw [decide_eq_true_iff, decide_eq_true_iff, not_not]
      refine ⟨fun h => h.2.1, fun h => ?_⟩
      rcases hmarks with ⟨hm, hu, hal⟩ | ⟨hm, -, -⟩
      · exact ⟨hu, hm, hal⟩
      · rw [h] at hm
        cases hm
    rw [List.countP_congr hcongr, List.countP_eq_length_filter]
    rfl
  rw [sum_card_areaPages, hidle, hkrnl, Finset.card_filter_add_card_filter_not, Finset.card_range]

theorem card_areaPages_of_nil (h : Inv s ∅ ∅) (a : Nat) : (areaPages s a).card = listSize s a := by
  have hinv : Inv s ∅ ↑(∅ : Finset Blk) := by rwa [Finset.coe_empty]
  rw [hinv.card_areaPages, liveSize, Finset.filter_empty, Finset.sum_empty, Nat.add_zero]

theorem Tallied.exact (h : Tallied s) (hinv : Inv s ∅ ∅) (a : Nat) : (s.marea a).maFreepages = listSize s a ∧
    (s.marea a).maMaxpages = listSize s a ∧ (s.marea a).maAllocpages = 0 := by
  have hlt : listSize s a < 2 ^ 63 := by
    have hinv' : Inv s ∅ ↑(∅ : Finset Blk) := by rwa [Finset.coe_empty]
    rw [← card_areaPages_of_nil hinv]
    exact hinv'.areaPages_lt a
  have htally := h a
  rwa [u64_of_lt (show listSize s a < 2 ^ 64 by omega)] at htally

theorem balanced_boot (hb : b.Wf) (hboot : boot b = .ok s) : Balanced s ∅ := by
  obtain ⟨hof, hinv⟩ := of_boot hb hboot
  have hlive : ∀ a, liveSize s a ∅ = 0 := fun a => by simp [liveSize]
  have htally := (tallied_boot hb hboot).exact hinv
  have hpages : (∑ a ∈ Finset.range memareaMax, listSize s a) + ((List.range s.moMsanr).countP fun i =>
      decide ((s.msa i).mfUindx = 1 ∧ (s.msa i).mfMocty = .krnl ∧ (s.msa i).pafAlloc = true)) = s.moMsanr := by
    rw [← Finset.sum_congr rfl fun a _ => card_areaPages_of_nil hinv a]
    exact hof.card_pages hb
  have hlt := hinv.small
  obtain ⟨s₁, -, heq⟩ := bind_eq_ok hboot
  obtain rfl := Except.ok.inj heq
  have haloc : (initMemmgrob s₁).moAlocpages = (List.range (initMemmgrob s₁).moMsanr).countP fun i =>
      decide (((initMemmgrob s₁).msa i).mfUindx = 1 ∧ ((initMemmgrob s₁).msa i).mfMocty = .krnl ∧
        ((initMemmgrob s₁).msa i).pafAlloc = true) := rfl
  rw [← haloc] at hpages
  have hfree : (initMemmgrob s₁).moFreepages = u64Sub (initMemmgrob s₁).moMsanr (initMemmgrob s₁).moAlocpages := rfl
  rw [u64Sub_of_le (by omega) (by omega)] at hfree
  refine ⟨fun a k => ?_, fun a => (htally a).1, fun a => (htally a).2.2.trans (hlive a).symm, fun a => ?_, ?_, ?_⟩
  · by_cases hslot : SlotOk a k
    · exact hinv.count a k hslot
    · rw [hof.unused a k hslot, memdivmerInit]
      split <;> exact ⟨rfl, rfl⟩
  · rw [(htally a).2.1, hlive, Nat.add_zero]
  · omega
  · omega

theorem balanced_of_run (hb : b.Wf) (hboot : boot b = .ok s₀) {ops : List Op} (hops : ∀ op ∈ ops, op.InArray b.msanr)
    (hrun : runHalt step (s₀, ∅) ops = .ok (s, live)) : Inv s ∅ ↑live ∧ Balanced s live := by
  obtain ⟨hof, hinv₀⟩ := of_boot hb hboot
  have hstart : Inv s₀ ∅ ↑(∅ : Finset Blk) := by rwa [Finset.coe_empty]
  have hstep : ∀ (t : Memmgrob × Finset Blk) op, Op.InArray s₀.moMsanr op →
      (Inv t.1 ∅ ↑t.2 ∧ Kept s₀ t.1) ∧ Balanced t.1 t.2 →
      ∃ t', step t op = .ok t' ∧ ((Inv t'.1 ∅ ↑t'.2 ∧ Kept s₀ t'.1) ∧ Balanced t'.1 t'.2) := by
    rintro ⟨t, l⟩ op hop ⟨⟨hinv, hkept⟩, hbal⟩
    obtain ⟨t', l', heq, he⟩ := step_effect hinv (hkept.msanr ▸ hop)
    exact ⟨(t', l'), heq, ⟨he.inv hinv, hkept.trans he.kept⟩, he.balanced hinv hbal⟩
  obtain ⟨t, heq, ⟨hinv, -⟩, hbal⟩ := runHalt_inv hstep ops (hof.msanr ▸ hops) (s₀, ∅)
    ⟨⟨hstart, .refl s₀⟩, balanced_boot hb hboot⟩
  rw [hrun] at heq
  obtain rfl := Except.ok.inj heq
  exact ⟨hinv, hbal⟩

/-- **The counters are exact** in every state of every run. -/
theorem counters_exact (hb : b.Wf) (hboot : boot b = .ok s₀) {ops : List Op} (hops : ∀ op ∈ ops, op.InArray b.msanr)
    (hrun : runHalt step (s₀, ∅) ops = .ok (s, live)) (a : Nat) :
    (s.marea a).maFreepages = listSize s a ∧ (s.marea a).maMaxpages = listSize s a + liveSize s a live := by
  obtain ⟨-, hbal⟩ := balanced_of_run hb hboot hops hrun
  exact ⟨hbal.free a, hbal.max a⟩

/-! ### No counter wraps -/

/-- The counters of one state say that `n` pages of area `a` that are free there are allocated in the other: sums and
differences of numbers, not of words. -/
structure Moved (s s' : Memmgrob) (a n : Nat) : Prop where
  free : ∀ a', (s.marea a').maFreepages = (s'.marea a').maFreepages + if a' = a then n else 0
  alloc : ∀ a', (s'.marea a').maAllocpages = (s.marea a').maAllocpages + if a' = a then n else 0
  max : ∀ a', (s'.marea a').maMaxpages = (s.marea a').maMaxpages
  allFree : s.moFreepages = s'.moFreepages + n
  allAloc : s'.moAlocpages = s.moAlocpages + n

theorem Shift.moved (h : Shift s live s' live' a n) (hbal : Balanced s live) (hbal' : Balanced s' live')
    (hmsanr : s'.moMsanr = s.moMsanr) : Moved s s' a n := by
  have hfree : s.moFreepages = s'.moFreepages + n := by
    rw [hbal.allFree, hbal'.allFree]
    exact h.sum_eq
  refine ⟨fun a' => ?_, fun a' => ?_, fun a' => ?_, hfree, ?_⟩
  · rw [hbal.free, hbal'.free]
    exact h.lists a'
  · rw [hbal.alloc, hbal'.alloc]
    exact h.used a'
  · have hlists := h.lists a'
    have hused := h.used a'
    rw [hbal.max, hbal'.max]
    omega
  · have hall := hbal.all
    have hall' := hbal'.all
    omega

theorem Effect.moved (he : Effect s live s' live') (hinv : Inv s ∅ ↑live) (hbal : Balanced s live) :
    s' = s ∨ ∃ a n, Moved s s' a n ∨ Moved s' s a n := by
  have hbal' := he.balanced hinv hbal
  have hmsanr := he.kept.msanr
  rcases he.shift hinv with ⟨rfl, -⟩ | ⟨a, n, s₁, -, ⟨-, hshift⟩ | ⟨-, hshift⟩⟩
  · exact .inl rfl
  · exact .inr ⟨a, n, .inl (hshift.moved hbal hbal' hmsanr)⟩
  · exact .inr ⟨a, n, .inr (hshift.moved hbal' hbal hmsanr.symm)⟩

/-- What the counters of a state say, with the number of page descriptors. -/
structure CountersOk (s : Memmgrob) (msanr : Nat) : Prop where
  lists : ∀ a < memareaMax, ∀ k ≤ onemsalst, (s.bafh a k).afFobjnr = (s.bafh a k).afFrelst.length ∧
    (s.bafh a k).afMobjnr = (s.bafh a k).afFrelst.length
  free : ∀ a < memareaMax, (s.marea a).maFreepages =
    ∑ k ∈ Finset.range (onemsalst + 1), (s.bafh a k).afFrelst.length * (s.bafh a k).afOderpnr
  area : ∀ a < memareaMax, (s.marea a).maFreepages + (s.marea a).maAllocpages = (s.marea a).maMaxpages
  allFree : s.moFreepages = ∑ a ∈ Finset.range memareaMax, (s.marea a).maFreepages
  all : s.moFreepages + s.moAlocpages = msanr
  small : msanr < 2 ^ 63 ∧ ∀ a < memareaMax, (s.marea a).maMaxpages < 2 ^ 63

theorem Balanced.countersOk (h : Balanced s live) (hinv : Inv s ∅ ↑live) : CountersOk s s.moMsanr where
  lists := fun a _ k _ => h.objnr a k
  free := fun a _ => by
    rw [h.free, listSize]
    exact Finset.sum_congr rfl fun k _ => Nat.mul_comm _ _
  area := fun a _ => by rw [h.free, h.alloc, h.max]
  allFree := by rw [h.allFree, Finset.sum_congr rfl fun a _ => (h.free a).symm]
  all := h.all
  small := ⟨hinv.small, fun a _ => by
    rw [h.max, ← hinv.card_areaPages]
    exact hinv.areaPages_lt a⟩

/-- **The counters of pages** in every state of every run: they are those of the lists, free and allocated pages add up
to all pages, and every call changes them without a wrap. -/
theorem counters_of_run (b : Boot) (hb : b.Wf) (ops : List Op) (hops : ∀ op ∈ ops, op.InArray b.msanr) :
    ∃ s₀ s live, boot b = .ok s₀ ∧ runHalt step (s₀, ∅) ops = .ok (s, live) ∧ CountersOk s b.msanr ∧
      ∀ op, op.InArray b.msanr → ∃ s' live', step (s, live) op = .ok (s', live') ∧
        (s' = s ∨ ∃ a n, Moved s s' a n ∨ Moved s' s a n) := by
  obtain ⟨s₀, s, live, hboot, hrun, hof, hinv, hkept⟩ := run_of_boot hb hops
  obtain ⟨-, hbal⟩ := balanced_of_run hb hboot hops hrun
  have hmsanr : s.moMsanr = b.msanr := hkept.msanr.trans hof.msanr
  refine ⟨s₀, s, live, hboot, hrun, hmsanr ▸ hbal.countersOk hinv, fun op hop => ?_⟩
  obtain ⟨s', live', heq, he⟩ := step_effect hinv (hmsanr ▸ hop)
  exact ⟨s', live', heq, he.moved hinv hbal⟩

/-- One page of four is taken. -/
theorem counters_of_four : ∃ s₀ s live, boot (freeBoot 4) = .ok s₀ ∧
    runHalt step (s₀, ∅) [.divisionPages 1 maTypeHwad dmfReldiv] = .ok (s, live) ∧ CountersOk s 4 := by
  obtain ⟨s₀, s, live, hboot, hrun, hok, -⟩ := counters_of_run (freeBoot 4)
    (freeBoot_wf (by norm_num) (by norm_num)) [.divisionPages 1 maTypeHwad dmfReldiv] (by simp [Op.InArray])
  exact ⟨s₀, s, live, hboot, hrun, hok⟩

/-- One free page, and behind the array what looks like the next: the area counts two free pages and the manager one,
which wraps when both are handed out. -/
theorem wrapped_behind : (behind 2 [0] [0, 1, 2]).Arr ∧
    ∃ s₀ s live, boot (behind 2 [0] [0, 1, 2]) = .ok s₀ ∧
      runHalt step (s₀, ∅) [.divisionPages 2 maTypeHwad dmfReldiv] = .ok (s, live) ∧
      (s₀.marea 0).maFreepages = 2 ∧ s₀.moFreepages = 1 ∧ s.moFreepages = 2 ^ 64 - 1 ∧ ¬CountersOk s 2 := by
  refine ⟨behind_arr (by decide), ?_⟩
  obtain ⟨s₀, s, live, hboot, hrun, hwrap⟩ := exists_run (behind 2 [0] [0, 1, 2])
    [.divisionPages 2 maTypeHwad dmfReldiv] (fun t => t.1.moFreepages = 2 ^ 64 - 1) (by decide +kernel)
  obtain ⟨s₁, hboot₁, hcount⟩ : ∃ s₁, boot (behind 2 [0] [0, 1, 2]) = .ok s₁ ∧
      ((s₁.marea 0).maFreepages, s₁.moFreepages) = (2, 1) := exists_of_map (by decide +kernel)
  obtain rfl := Except.ok.inj (hboot.symm.trans hboot₁)
  obtain ⟨hfree, hall⟩ := Prod.mk.inj hcount
  refine ⟨s₀, s, live, hboot, hrun, hfree, hall, hwrap, fun hok => ?_⟩
  have hsum := hok.all
  simp only at hwrap
  omega

end Cosmos.Page
