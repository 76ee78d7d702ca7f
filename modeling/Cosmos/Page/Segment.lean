import Cosmos.Page.Occupy

/-!
# Marking one address range (`hal/x86/msadsc.c`)

`search_segment_occupymsadsc` looks for the descriptor of the first page inside the array and walks on from there
without a look at the array's end. What it does is decided by the memory from that descriptor on (`searchSegment_eq`):
if it holds free descriptors of all pages of the range, these are marked and counted, else the answer is `0`. The answer
is right but for a range that goes on behind the array's last page, over memory that looks like more of it
(`segment_exact_iff`).
-/

namespace Cosmos.Page

open Cosmos.Lib Function

variable {msa : Nat → Msadsc} {msanr fstatmp lo hi n i : Nat}

/-! ### The walk -/

/-- The number of pages from `lo` up to `hi`, the last of them perhaps a part of one. -/
def segPages (lo hi : Nat) : Nat := (hi - lo + 0xfff) / 0x1000

/-- From the descriptor `f` on stand free ones of `n` pages from `lo` on. -/
def FreeFrom (msa : Nat → Msadsc) (f lo n : Nat) : Prop :=
  ∀ k < n, phyadrOf (msa (f + k)) = lo + k * 0x1000 ∧ Untaken (msa (f + k))

def marked (msa : Nat → Msadsc) (f n : Nat) : Nat → Msadsc :=
  fun i => if f ≤ i ∧ i < f + n then occupy (msa i) else msa i

theorem marked_of_inside (hlo : fstatmp ≤ i) (hhi : i < fstatmp + n) : marked msa fstatmp n i = occupy (msa i) :=
  if_pos ⟨hlo, hhi⟩

theorem marked_of_outside (h : ¬(fstatmp ≤ i ∧ i < fstatmp + n)) : marked msa fstatmp n i = msa i := if_neg h

theorem marked_zero (msa : Nat → Msadsc) (f : Nat) : marked msa f 0 = msa := by
  funext i
  exact marked_of_outside (by omega)

theorem marked_succ (msa : Nat → Msadsc) (f n : Nat) :
    marked (update msa f (occupy (msa f))) (f + 1) n = marked msa f (n + 1) := by
  funext i
  by_cases hi : i = f
  · subst hi
    rw [marked_of_outside (by omega), update_self, marked_of_inside le_rfl (by omega)]
  · unfold marked
    rw [update_of_ne hi]
    refine if_congr ?_ rfl rfl
    omega

theorem FreeFrom.head (h : FreeFrom msa fstatmp lo (n + 1)) : phyadrOf (msa fstatmp) = lo ∧ Untaken (msa fstatmp) := by
  have h0 := h 0 (Nat.succ_pos n)
  rwa [Nat.zero_mul, Nat.add_zero, Nat.add_zero] at h0

theorem freeFrom_succ (hadr : phyadrOf (msa fstatmp) = lo) (hun : Untaken (msa fstatmp)) (d : Msadsc) :
    FreeFrom (update msa fstatmp d) (fstatmp + 1) (lo + 0x1000) n ↔ FreeFrom msa fstatmp lo (n + 1) := by
  have hshift {k : Nat} : update msa fstatmp d (fstatmp + 1 + k) = msa (fstatmp + (k + 1)) := by
    rw [update_of_ne (by omega), Nat.add_assoc, Nat.add_comm 1 k]
  constructor
  · intro h k hk
    cases k with
    | zero =>
      rw [Nat.zero_mul, Nat.add_zero, Nat.add_zero]
      exact ⟨hadr, hun⟩
    | succ k =>
      have hk' := h k (Nat.lt_of_succ_lt_succ hk)
      rw [hshift] at hk'
      exact ⟨by rw [hk'.1]; omega, hk'.2⟩
  · intro h k hk
    have hk' := h (k + 1) (Nat.succ_lt_succ hk)
    rw [hshift]
    exact ⟨by rw [hk'.1]; omega, hk'.2⟩

theorem segPages_succ (h : lo < hi) : segPages lo hi = segPages (lo + 0x1000) hi + 1 := by
  unfold segPages
  omega

theorem segPages_of_le (h : hi ≤ lo) : segPages lo hi = 0 := by
  unfold segPages
  omega

/-- **The walk marks a run that is free to its end, or answers `0`.** -/
theorem occupyLoop_eq (hhi : hi ≤ 2 ^ 64 - 0x1000) (fstatmp c tmpadr fsmsnr : Nat) (msa : Nat → Msadsc)
    (hc : segPages tmpadr hi < c) :
    (FreeFrom msa (fstatmp + fsmsnr) tmpadr (segPages tmpadr hi) →
      occupyLoop fstatmp hi c tmpadr fsmsnr msa =
        .ok (some (fsmsnr + segPages tmpadr hi), marked msa (fstatmp + fsmsnr) (segPages tmpadr hi))) ∧
    (¬FreeFrom msa (fstatmp + fsmsnr) tmpadr (segPages tmpadr hi) →
      ∃ msa', occupyLoop fstatmp hi c tmpadr fsmsnr msa = .ok (none, msa')) := by
  induction c generalizing tmpadr fsmsnr msa with
  | zero => exact absurd hc (Nat.not_lt_zero _)
  | succ c ih =>
    rw [occupyLoop]
    by_cases hlt : tmpadr < hi
    · rw [if_pos hlt, segPages_succ hlt, u64_of_lt (by omega)]
      rw [segPages_succ hlt] at hc
      by_cases hadr : phyadrOf (msa (fstatmp + fsmsnr)) = tmpadr
      · by_cases hun : Untaken (msa (fstatmp + fsmsnr))
        · -- the descriptor is marked, and the rest of the run decides
          have hfree : ¬((msa (fstatmp + fsmsnr)).mfMocty ≠ .free ∨ (msa (fstatmp + fsmsnr)).mfUindx ≠ 0 ∨
              (msa (fstatmp + fsmsnr)).pafAlloc = true) := by
            simp [hun.1, hun.2.1, hun.2.2]
          have hnext := ih (tmpadr + 0x1000) (fsmsnr + 1)
            (update msa (fstatmp + fsmsnr) (occupy (msa (fstatmp + fsmsnr)))) (by omega)
          rw [← Nat.add_assoc, freeFrom_succ hadr hun, marked_succ] at hnext
          simp only [hadr, ne_eq, not_true_eq_false, if_false, if_neg hfree]
          rwa [show fsmsnr + (segPages (tmpadr + 0x1000) hi + 1) = fsmsnr + 1 + segPages (tmpadr + 0x1000) hi by omega]
        · refine ⟨fun h => absurd h.head.2 hun, fun _ => ⟨msa, ?_⟩⟩
          have htaken : (msa (fstatmp + fsmsnr)).mfMocty ≠ .free ∨ (msa (fstatmp + fsmsnr)).mfUindx ≠ 0 ∨
              (msa (fstatmp + fsmsnr)).pafAlloc = true := by
            by_contra hno
            simp only [not_or, not_not, Bool.not_eq_true] at hno
            exact hun hno
          simp only [hadr, ne_eq, not_true_eq_false, if_false]
          exact if_pos htaken
      · exact ⟨fun h => absurd h.head.1 hadr, fun _ => ⟨msa, if_pos hadr⟩⟩
    · rw [if_neg hlt, segPages_of_le (by omega), marked_zero]
      exact ⟨fun _ => rfl, fun hno => absurd (fun k hk => absurd hk (Nat.not_lt_zero k)) hno⟩

/-! ### The search -/

/-- `f` is the first descriptor of the page at `lo`. -/
structure IsFirst (msanr : Nat) (msa : Nat → Msadsc) (lo f : Nat) : Prop where
  lt : f < msanr
  adr : phyadrOf (msa f) = lo
  min : ∀ g < f, phyadrOf (msa g) ≠ lo

theorem sizeCheck_eq {r : Halt (Nat × (Nat → Msadsc))} (hlt : lo < hi) (hhi : hi < 2 ^ 64)
    (r' : Halt (Nat × (Nat → Msadsc))) :
    (let ocpysz := u64Sub hi lo
      if ocpysz % 0x1000 ≠ 0 then if ocpysz / 0x1000 + 1 ≠ segPages lo hi then r' else r
      else if ocpysz / 0x1000 ≠ segPages lo hi then r' else r) = r := by
  simp only [u64Sub_of_le hlt.le hhi]
  unfold segPages
  split_ifs <;> first | rfl | omega

/-- **What the search answers**: nothing found, all pages marked, or `0` with some of them marked. -/
theorem searchSegment_eq (msanr : Nat) (msa : Nat → Msadsc) (hlt : lo < hi) (hhi : hi ≤ 2 ^ 64 - 0x1000) :
    ((∀ f < msanr, phyadrOf (msa f) ≠ lo) ∧ searchSegmentOccupymsadsc msanr lo hi msa = .ok (0, msa)) ∨
    ∃ f, IsFirst msanr msa lo f ∧
      ((FreeFrom msa f lo (segPages lo hi) ∧
          searchSegmentOccupymsadsc msanr lo hi msa = .ok (segPages lo hi, marked msa f (segPages lo hi))) ∨
        (¬FreeFrom msa f lo (segPages lo hi) ∧ ∃ msa', searchSegmentOccupymsadsc msanr lo hi msa = .ok (0, msa'))) := by
  unfold searchSegmentOccupymsadsc
  cases hfind : (List.range msanr).find? fun mnr => decide (phyadrOf (msa mnr) = lo) with
  | none =>
    refine .inl ⟨fun f hf heq => ?_, rfl⟩
    have hno := List.find?_eq_none.mp hfind f (List.mem_range.mpr hf)
    exact hno (decide_eq_true heq)
  | some f =>
    have hf : f < msanr := List.mem_range.mp (List.mem_of_find?_eq_some hfind)
    have hadr : phyadrOf (msa f) = lo := by simpa using List.find?_some hfind
    have hmin : ∀ g < f, phyadrOf (msa g) ≠ lo := by
      rw [List.find?_range_eq_some] at hfind
      simpa using hfind.2.2
    have hloop := occupyLoop_eq hhi f (2 ^ 52 + 1) lo 0 msa (by unfold segPages; omega)
    rw [Nat.add_zero, Nat.zero_add] at hloop
    refine .inr ⟨f, ⟨hf, hadr, hmin⟩, ?_⟩
    by_cases hrun : FreeFrom msa f lo (segPages lo hi)
    · exact .inl ⟨hrun, (Halt.bind_of_ok (hloop.1 hrun) _).trans (sizeCheck_eq hlt (by omega) _)⟩
    · obtain ⟨msa', hnone⟩ := hloop.2 hrun
      exact .inr ⟨hrun, msa', Halt.bind_of_ok hnone _⟩

/-! ### The answer -/

/-- The answer is right. A count is that of the pages of the range: their descriptors were free and are the kernel's,
and no other has changed. If a page of the range has no free descriptor, the answer is `0`. -/
structure SegmentExact (msanr lo hi : Nat) (msa : Nat → Msadsc) (r : Nat) (msa' : Nat → Msadsc) : Prop where
  count : 0 < r → r = segPages lo hi ∧ 0x1000 ∣ lo
  pages : 0 < r → ∀ k < r, ∃ i < msanr, (msa i).pafPadrs * 0x1000 = lo + k * 0x1000 ∧ Untaken (msa i) ∧
    msa' i = { msa i with mfMocty := .krnl, mfUindx := 1, pafAlloc := true }
  others : 0 < r → ∀ i, ¬(i < msanr ∧ ∃ k < r, (msa i).pafPadrs * 0x1000 = lo + k * 0x1000) → msa' i = msa i
  missing : (∃ k < segPages lo hi, ∀ i < msanr, ¬((msa i).pafPadrs * 0x1000 = lo + k * 0x1000 ∧ Untaken (msa i))) →
    r = 0

/-- The range goes on behind the last page of the array, and the memory there looks like its other pages. -/
def Overruns (msanr lo hi : Nat) (msa : Nat → Msadsc) : Prop :=
  ∃ f < msanr, msanr < f + segPages lo hi ∧ FreeFrom msa f lo (segPages lo hi)

/-- The pages of the array in the order of their addresses. -/
structure Increasing (msanr : Nat) (msa : Nat → Msadsc) : Prop where
  low : ∀ i < msanr, (msa i).pafPadrs < 2 ^ 40
  lt : ∀ i j, i < j → j < msanr → (msa i).pafPadrs < (msa j).pafPadrs

theorem Increasing.adr (h : Increasing msanr msa) (hi : i < msanr) : phyadrOf (msa i) = (msa i).pafPadrs * 0x1000 :=
  phyadrOf_eq (h.low i hi)

theorem Increasing.le (h : Increasing msanr msa) {j : Nat} (hij : i ≤ j) (hj : j < msanr) :
    (msa i).pafPadrs ≤ (msa j).pafPadrs := by
  rcases Nat.lt_or_eq_of_le hij with hlt | rfl
  · exact (h.lt i j hlt hj).le
  · exact le_rfl

theorem Increasing.inj (h : Increasing msanr msa) {j : Nat} (hi : i < msanr) (hj : j < msanr)
    (heq : phyadrOf (msa i) = phyadrOf (msa j)) : i = j := by
  rw [h.adr hi, h.adr hj] at heq
  rcases Nat.lt_trichotomy i j with hlt | rfl | hlt
  · have := h.lt i j hlt hj
    omega
  · rfl
  · have := h.lt j i hlt hi
    omega

theorem segPages_pos (h : lo < hi) : 0 < segPages lo hi := by
  unfold segPages
  omega

theorem FreeFrom.adr (h : FreeFrom msa fstatmp lo n) (hn : 0 < n) : phyadrOf (msa fstatmp) = lo := by
  obtain ⟨n, rfl⟩ := Nat.exists_eq_add_of_lt hn
  exact h.head.1

theorem segmentExact_zero (msa' : Nat → Msadsc) : SegmentExact msanr lo hi msa 0 msa' where
  count h := absurd h (lt_irrefl 0)
  pages h := absurd h (lt_irrefl 0)
  others h := absurd h (lt_irrefl 0)
  missing _ := rfl

theorem segmentExact_marked {f : Nat} (hinc : Increasing msanr msa) (hlt : lo < hi)
    (hrun : FreeFrom msa f lo (segPages lo hi))
    (hin : f + segPages lo hi ≤ msanr) :
    SegmentExact msanr lo hi msa (segPages lo hi) (marked msa f (segPages lo hi)) where
  count _ := ⟨rfl, hrun.adr (segPages_pos hlt) ▸ dvd_phyadrOf _⟩
  pages _ k hk := by
    obtain ⟨hadr, hun⟩ := hrun k hk
    rw [hinc.adr (by omega)] at hadr
    refine ⟨f + k, by omega, hadr, hun, ?_⟩
    rw [marked_of_inside (by omega) (by omega), occupy, hun.2.1]
  others _ i hother := by
    refine marked_of_outside fun hi => hother ⟨by omega, i - f, by omega, ?_⟩
    rw [← (hrun (i - f) (by omega)).1, Nat.add_sub_cancel' hi.1, hinc.adr (by omega)]
  missing hmiss := by
    obtain ⟨k, hk, hno⟩ := hmiss
    refine absurd ?_ (hno (f + k) (by omega))
    rw [← hinc.adr (by omega)]
    exact hrun k hk

theorem not_exact_of_overrun (hinc : Increasing msanr msa) {f r : Nat} {msa' : Nat → Msadsc} (hf : f < msanr)
    (hover : msanr < f + segPages lo hi) (hrun : FreeFrom msa f lo (segPages lo hi)) (hr : 0 < r) :
    ¬SegmentExact msanr lo hi msa r msa' := by
  intro h
  refine hr.ne' (h.missing ⟨msanr - f, by omega, fun i hi hpage => ?_⟩)
  have hle := hinc.le (show i ≤ msanr - 1 by omega) (by omega)
  have hlast := (hrun (msanr - 1 - f) (by omega)).1
  rw [show f + (msanr - 1 - f) = msanr - 1 by omega, hinc.adr (by omega)] at hlast
  have hpage := hpage.1
  omega

/-- **The answer is right unless the range runs over the end of the array**, and there is always an answer. -/
theorem segment_exact_iff (msanr lo hi : Nat) (msa : Nat → Msadsc) (hinc : Increasing msanr msa) (hlt : lo < hi)
    (hhi : hi ≤ 2 ^ 64 - 0x1000) : ∃ r msa', searchSegmentOccupymsadsc msanr lo hi msa = .ok (r, msa') ∧
      (SegmentExact msanr lo hi msa r msa' ↔ ¬Overruns msanr lo hi msa) := by
  have hpos := segPages_pos hlt
  rcases searchSegment_eq msanr msa hlt hhi with
    ⟨hno, hret⟩ | ⟨f, hf, ⟨hrun, hret⟩ | ⟨hrun, msa', hret⟩⟩
  · refine ⟨0, msa, hret, iff_of_true (segmentExact_zero msa) ?_⟩
    rintro ⟨g, hg, -, hrun⟩
    exact hno g hg (hrun.adr hpos)
  · refine ⟨_, _, hret, ?_⟩
    by_cases hin : f + segPages lo hi ≤ msanr
    · refine iff_of_true (segmentExact_marked hinc hlt hrun hin) ?_
      rintro ⟨g, hg, hover, hrun'⟩
      have hgf : g = f := hinc.inj hg hf.lt ((hrun'.adr hpos).trans hf.adr.symm)
      omega
    · have hover : msanr < f + segPages lo hi := by omega
      exact iff_of_false (not_exact_of_overrun hinc hf.lt hover hrun hpos) fun h => h ⟨f, hf.lt, hover, hrun⟩
  · refine ⟨0, msa', hret, iff_of_true (segmentExact_zero msa') ?_⟩
    rintro ⟨g, hg, -, hrun'⟩
    have hgf : g = f := hinc.inj hg hf.lt ((hrun'.adr hpos).trans hf.adr.symm)
    exact hrun (hgf ▸ hrun')

/-- Two pages of an array of three. -/
theorem segment_exact_of_three :
    ∃ r msa', searchSegmentOccupymsadsc 3 0x2000 0x3800 (freeArray [1, 2, 3]) = .ok (r, msa') ∧
    r = 2 ∧ SegmentExact 3 0x2000 0x3800 (freeArray [1, 2, 3]) r msa' := by
  have hinc : Increasing 3 (freeArray [1, 2, 3]) := by
    have hall : ∀ j < 3, ∀ i < j, (freeArray [1, 2, 3] i).pafPadrs < (freeArray [1, 2, 3] j).pafPadrs := by decide
    exact ⟨by decide, fun i j hij hj => hall j hj i hij⟩
  obtain ⟨r, msa', hret, hiff⟩ := segment_exact_iff 3 0x2000 0x3800 (freeArray [1, 2, 3]) hinc (by decide) (by decide)
  refine ⟨r, msa', hret, ?_, hiff.mpr ?_⟩
  · have hfst : Except.map Prod.fst (searchSegmentOccupymsadsc 3 0x2000 0x3800 (freeArray [1, 2, 3])) = .ok 2 := by
      decide +kernel
    rw [hret] at hfst
    exact Except.ok.inj hfst
  · rintro ⟨f, hf, hover, hrun⟩
    have hadr := hrun.adr (by decide)
    have hone : f = 1 := hinc.inj hf (by decide) hadr
    rw [hone] at hover
    exact absurd hover (by decide)

/-- One free page, and behind the array what looks like a free descriptor of the next: a range of both pages is counted
and marked, though the second has no descriptor. -/
theorem segment_behind_array : ∃ r msa', searchSegmentOccupymsadsc 1 0x1000 0x3000 (freeArray [1, 2]) = .ok (r, msa') ∧
    Increasing 1 (freeArray [1, 2]) ∧ r = 2 ∧ (∀ i < 1, (freeArray [1, 2] i).pafPadrs * 0x1000 ≠ 0x2000) ∧
    ¬SegmentExact 1 0x1000 0x3000 (freeArray [1, 2]) r msa' := by
  have hfst : Except.map Prod.fst (searchSegmentOccupymsadsc 1 0x1000 0x3000 (freeArray [1, 2])) = .ok 2 := by
    decide +kernel
  obtain ⟨⟨r, msa'⟩, hret, hr⟩ := Halt.exists_of_map hfst
  have hmiss : ∀ i < 1, (freeArray [1, 2] i).pafPadrs * 0x1000 ≠ 0x2000 := by decide
  refine ⟨r, msa', hret, ⟨by decide, fun i j hij hj => by omega⟩, hr, hmiss, fun h => ?_⟩
  have hzero := h.missing ⟨1, by decide, fun i hi hpage => hmiss i hi hpage.1⟩
  exact absurd (hzero.symm.trans hr) (by decide)

end Cosmos.Page
