import Cosmos.Page.Counters

/-!
# The free lists that boot builds (`merlove_mem_core`)

Every free page is in one block of its area. A maximal run of free pages of the areas with orders is cut like the binary
expansion of its length, the highest bit first (`InCut`). That every block is such a piece is what the loops keep
(`CutBelow`); that every piece is a block follows, as the pieces of a run do not overlap and each page is in a block.
-/

namespace Cosmos.Page

open Cosmos.Lib

variable {b : Boot} {s : Memmgrob} {a k m n : Nat}

/-! ### Maximal runs -/

theorem MaxRun.continues {i : Nat} (h : MaxRun b a m n) (hlo : m < i) (hhi : i < m + n) : Continues b a i := by
  refine ⟨by omega, h.free (i - 1) (by omega) (by omega), h.free i hlo.le hhi, ?_⟩
  rw [h.padrs i hlo.le hhi, h.padrs (i - 1) (by omega) (by omega)]
  omega

theorem MaxRun.unique {m' n' i : Nat} (h : MaxRun b a m n) (h' : MaxRun b a m' n') (hi : m ≤ i ∧ i < m + n)
    (hi' : m' ≤ i ∧ i < m' + n') : m = m' ∧ n = n' := by
  obtain rfl : m = m' := by
    rcases Nat.lt_trichotomy m m' with hlt | heq | hgt
    · exact absurd (h.continues hlt (by omega)) h'.first
    · exact heq
    · exact absurd (h'.continues hgt (by omega)) h.first
  refine ⟨rfl, ?_⟩
  rcases Nat.lt_trichotomy n n' with hlt | heq | hgt
  · exact absurd (h'.continues (by omega) (by omega)) h.last
  · exact heq
  · exact absurd (h.continues (by omega) (by omega)) h'.last

/-! ### The lists -/

section Lists

variable (hb : b.Arr) (hof : OfBoot b s) (hinv : Inv s ∅ ∅)

include hb hof hinv

theorem freePage_of_mem {x i : Nat} (hx : x ∈ (s.bafh a k).afFrelst) (hlo : x ≤ i) (hhi : i < x + pnr k) :
    FreePage b a i := by
  obtain ⟨hlt, hne⟩ := hinv.lt_of_free hx hlo hhi
  rw [hof.msanr] at hlt
  have hmarty := (hinv.free a k x hx).marty i hlo hhi
  rw [hof.marty i hlt] at hmarty
  have hfree := (hof.idle hb hlt hne).1
  rw [hof.mocty] at hfree
  exact ⟨hlt, hfree, by omega⟩

theorem exists_mem_of_freePage {i : Nat} (hi : FreePage b a i) :
    ∃ k x, x ∈ (s.bafh a k).afFrelst ∧ x ≤ i ∧ i < x + pnr k := by
  have hne : (s.msa i).mfMocty ≠ .krnl := by
    rw [hof.mocty, hi.2.1]
    simp
  obtain ⟨o, ho, hio⟩ := (hinv.tile.cover i).mp ⟨hof.msanr ▸ hi.1, hne⟩
  cases o with
  | free a' k x =>
    have harea := (freePage_of_mem hb hof hinv ho hio.1 hio.2).2.2
    rw [hi.2.2] at harea
    subst harea
    exact ⟨k, x, ho, hio⟩
  | used x n => simp at ho

theorem mem_iff_inCut (hcut : CutBelow b s 3) (ha : a < 2) (hrun : MaxRun b a m n) (k x : Nat) :
    (x ∈ (s.bafh a k).afFrelst ∧ m ≤ x ∧ x < m + n) ↔ InCut m n k x := by
  -- a block that has a page of the run is one of its pieces
  have hpiece : ∀ k' x' i, x' ∈ (s.bafh a k').afFrelst → x' ≤ i → i < x' + pnr k' → m ≤ i → i < m + n →
      InCut m n k' x' ∧ pnr k' = 2 ^ k' := by
    intro k' x' i hx' hlo' hhi' hlo hhi
    obtain ⟨m', n', hrun', hin'⟩ := hcut a (by omega) ha k' x' hx'
    have hpnr : pnr k' = 2 ^ k' := by
      have hslot := hinv.slot a k' x' hx'
      unfold SlotOk at hslot
      exact pnr_of_lt (by omega)
    have hbounds := hin'.bounds
    obtain ⟨rfl, rfl⟩ := hrun.unique hrun' ⟨hlo, hhi⟩ ⟨by omega, by omega⟩
    exact ⟨hin', hpnr⟩
  constructor
  · rintro ⟨hx, hlo, hhi⟩
    exact (hpiece k x x hx le_rfl (Nat.lt_add_of_pos_right (pnr_pos k)) hlo hhi).1
  · intro hin
    have hbounds := hin.bounds
    have hpos := Nat.two_pow_pos k
    obtain ⟨k', x', hx', hlo', hhi'⟩ := exists_mem_of_freePage hb hof hinv (hrun.free x hbounds.1 (by omega))
    obtain ⟨hin', hpnr⟩ := hpiece k' x' x hx' hlo' hhi' hbounds.1 (by omega)
    obtain ⟨rfl, rfl⟩ := hin.unique hin' hlo' (hpnr ▸ hhi')
    exact ⟨hx', hbounds.1, by omega⟩

end Lists

theorem areaPages_eq_freePages (hb : b.Arr) (hof : OfBoot b s) (a : Nat) :
    areaPages s a = (Finset.range b.msanr).filter (FreePage b a) := by
  unfold areaPages
  rw [hof.msanr]
  refine Finset.filter_congr fun i hi => ?_
  rw [Finset.mem_range] at hi
  rw [hof.marty i hi]
  constructor
  · rintro ⟨hne, hmarty⟩
    have hfree := (hof.idle hb hi hne).1
    rw [hof.mocty] at hfree
    exact ⟨hi, hfree, by omega⟩
  · rintro ⟨-, hfree, harea⟩
    rw [hof.mocty, hfree, harea]
    simp

/-- The lists and counters that boot leaves, for the descriptors it found. -/
structure BootLists (b : Boot) (s : Memmgrob) : Prop where
  /-- A page has the area whose range contains it. -/
  marty : ∀ i < b.msanr, ∃ a < 3, (s.msa i).mfMarty = (s.marea a).maType ∧ areaOf (b.msa i).pafPadrs = a ∧
    (s.marea a).maLogicstart ≤ (b.msa i).pafPadrs * 0x1000 ∧
    (b.msa i).pafPadrs * 0x1000 + 0xfff ≤ (s.marea a).maLogicend
  /-- A free page of an area is in one block of its lists. -/
  once : ∀ a i, FreePage b a i →
    ∃! p : Nat × Nat, p.2 ∈ (s.bafh a p.1).afFrelst ∧ p.2 ≤ i ∧ i < p.2 + (s.bafh a p.1).afOderpnr
  /-- A block has free pages of its area only. -/
  only : ∀ a k, ∀ x ∈ (s.bafh a k).afFrelst, ∀ i, x ≤ i → i < x + (s.bafh a k).afOderpnr → FreePage b a i
  /-- In the areas with orders the blocks of a maximal run are the bits of its length. -/
  cut : ∀ a < 2, ∀ m n, MaxRun b a m n → ∀ k x,
    ((x ∈ (s.bafh a k).afFrelst ∧ m ≤ x ∧ x < m + n) ↔ InCut m n k x) ∧
      (x ∈ (s.bafh a k).afFrelst → (s.bafh a k).afOderpnr = 2 ^ k)
  /-- Process memory is cut into single pages. -/
  single : (∀ i, i ∈ (s.bafh 2 onemsalst).afFrelst ↔ FreePage b 2 i) ∧ (s.bafh 2 onemsalst).afOderpnr = 1 ∧
    ∀ k ≠ onemsalst, (s.bafh 2 k).afFrelst = []
  maxpages : ∀ a, (s.marea a).maMaxpages = ((Finset.range b.msanr).filter (FreePage b a)).card
  check : ∀ a, checkOneMemarea s a = .ok true

theorem bootLists_of_cut (hb : b.Arr) (hof : OfBoot b s) (hinv : Inv s ∅ ∅) (hcut : CutBelow b s 3)
    (htally : Tallied s) : BootLists b s := by
  have hoder : ∀ a k x, x ∈ (s.bafh a k).afFrelst → (s.bafh a k).afOderpnr = pnr k := fun a k x hx =>
    hinv.oder a k (hinv.slot a k x hx)
  refine ⟨fun i hi => ?_, fun a i hi => ?_, fun a k x hx i hlo hhi => ?_, fun a ha m n hrun k x => ⟨?_, fun hx => ?_⟩,
    ⟨fun i => ⟨fun hi => ?_, fun hi => ?_⟩, ?_, fun k hk => ?_⟩, fun a => ?_, checkOneMemarea_eq hb hof hinv⟩
  · have ha : areaOf (b.msa i).pafPadrs < 3 := by
      unfold areaOf
      split_ifs <;> omega
    have hpadrs := hb.padrs i hi
    have hin := (inMarea_iff hpadrs ha (hof.start _) (hof.last _)).mpr rfl
    rw [inMarea, decide_eq_true_iff, phyadrOf_eq hpadrs, u64_of_lt (by omega)] at hin
    refine ⟨_, ha, ?_, rfl, hin⟩
    rw [hof.marty i hi, hinv.type _ (lt_trans ha (by decide))]
  · obtain ⟨k, x, hx, hlo, hhi⟩ := exists_mem_of_freePage hb hof hinv hi
    refine ⟨(k, x), ⟨hx, hlo, by rwa [hoder a k x hx]⟩, ?_⟩
    rintro ⟨k', x'⟩ ⟨hx', hlo', hhi'⟩
    rw [hoder a k' x' hx'] at hhi'
    have heq := hinv.tile.once (.free a k' x') hx' (.free a k x) hx i ⟨hlo', hhi'⟩ ⟨hlo, hhi⟩
    injection heq with _ hk hx
    rw [hk, hx]
  · rw [hoder a k x hx] at hhi
    exact freePage_of_mem hb hof hinv hx hlo hhi
  · exact mem_iff_inCut hb hof hinv hcut ha hrun k x
  · have hslot := hinv.slot a k x hx
    rw [hoder a k x hx]
    unfold SlotOk at hslot
    exact pnr_of_lt (by omega)
  · exact freePage_of_mem hb hof hinv hi le_rfl (Nat.lt_add_of_pos_right (pnr_pos _))
  · obtain ⟨k, x, hx, hlo, hhi⟩ := exists_mem_of_freePage hb hof hinv hi
    have hslot := hinv.slot 2 k x hx
    obtain rfl : k = onemsalst := by
      unfold SlotOk at hslot
      omega
    rw [pnr, if_pos rfl] at hhi
    obtain rfl : x = i := by omega
    exact hx
  · exact hinv.oder 2 onemsalst (.inr ⟨rfl, rfl⟩)
  · rw [List.eq_nil_iff_forall_not_mem]
    intro x hx
    have hslot := hinv.slot 2 k x hx
    unfold SlotOk at hslot
    omega
  · rw [(htally.exact hinv a).2.1, ← card_areaPages_of_nil hinv, areaPages_eq_freePages hb hof]

theorem bootLists_bootSt (h : b.msanr = 0) : BootLists b (bootSt b) := by
  have hnone : ∀ a i, ¬FreePage b a i := fun a i hi => absurd hi.1 (by omega)
  have hnil : ∀ a k, ((bootSt b).bafh a k).afFrelst = [] := by
    intro a k
    show (memdivmerInit k).afFrelst = []
    unfold memdivmerInit
    split <;> rfl
  have hmax : ∀ a, ((bootSt b).marea a).maMaxpages = 0 := by
    intro a
    show (initMemareaCore a).maMaxpages = 0
    unfold initMemareaCore
    split <;> rfl
  refine ⟨fun i hi => by omega, fun a i hi => absurd hi (hnone a i), fun a k x hx => ?_, fun a _ m n hrun => ?_,
    ⟨fun i => ?_, rfl, fun k _ => hnil 2 k⟩, fun a => ?_, fun a => ?_⟩
  · simp [hnil] at hx
  · exact absurd (hrun.free m le_rfl (Nat.lt_add_of_pos_right hrun.pos)) (hnone a m)
  · rw [hnil]
    exact ⟨fun hi => absurd hi List.not_mem_nil, fun hi => absurd hi (hnone 2 i)⟩
  · rw [hmax, h]
    rfl
  · unfold checkOneMemarea
    rw [hmax, if_pos Nat.one_pos]

/-- **Boot tiles memory**: for every array of descriptors in the order of their addresses with any pages marked as the
kernel's, behind which nothing looks like a free page next to the last one, `merlove_mem_core` returns and leaves these
lists; its answer is `TRUE` if there is a descriptor. -/
theorem merloveMemCore_bootLists (b : Boot) (hb : b.Sorted) (htail : b.Tail) :
    ∃ s, merloveMemCore (bootSt b) = .ok (decide (0 < b.msanr), s) ∧ BootLists b s := by
  by_cases hpos : 0 < b.msanr
  · have harr := hb.arr hpos
    obtain ⟨s, heq, hof, hinv, hcut⟩ := merloveMemCore_spec (b := b) { harr with tail := htail }
    exact ⟨s, by rw [heq, decide_eq_true hpos], bootLists_of_cut harr hof hinv hcut (tallied_merloveMemCore harr heq)⟩
  · have hzero : b.msanr = 0 := by omega
    refine ⟨bootSt b, ?_, bootLists_bootSt hzero⟩
    have hset : merloveSetallmarflgsOnmemarea (bootSt b) 0 = (none, bootSt b) := if_pos hzero
    rw [decide_eq_false hpos, merloveMemCore, show (bootSt b).moMareanr = 3 + 1 from rfl]
    simp only [setflgsLoop, hset]
    rfl

/-- Seven free pages from address 0 on: blocks of four, two and one. -/
theorem bootLists_of_seven : ∃ s, merloveMemCore (bootSt (freeBoot 7)) = .ok (true, s) ∧ BootLists (freeBoot 7) s ∧
    0 ∈ (s.bafh 0 2).afFrelst ∧ 4 ∈ (s.bafh 0 1).afFrelst ∧ 6 ∈ (s.bafh 0 0).afFrelst := by
  have hwf := freeBoot_wf (n := 7) (by norm_num) (by norm_num)
  obtain ⟨s, heq, hlists⟩ := merloveMemCore_bootLists (freeBoot 7) ⟨hwf.toPages, fun _ _ hij _ => hij⟩ hwf.tail
  have hfree : ∀ i < 7, FreePage (freeBoot 7) 0 i := fun i hi => ⟨hi, rfl, if_pos (show i < 0x2000 by omega)⟩
  have hrun : MaxRun (freeBoot 7) 0 0 7 :=
    ⟨by norm_num, fun i _ hi => hfree i (by omega), fun i _ _ => (Nat.zero_add _).symm, not_continues_zero _ _,
      fun h => absurd h.2.2.1.1 (lt_irrefl 7)⟩
  have hcut : ∀ k x, InCut 0 7 k x → x ∈ (s.bafh 0 k).afFrelst := fun k x hin =>
    ((hlists.cut 0 (by norm_num) 0 7 hrun k x).1.mpr hin).1
  exact ⟨s, heq, hlists, hcut 2 0 (by decide), hcut 1 4 (by decide), hcut 0 6 (by decide)⟩

end Cosmos.Page
