import Cosmos.Lib.Dyadic
import Cosmos.Page.Hung

/-!
# Boot builds a sound state

From any descriptor array with any pages marked as the kernel's, `boot` returns a state that satisfies the
allocator's invariant with no block allocated (`boot_spec`): each scan finds a maximal run of free pages of the area,
and the run is hung in blocks of decreasing size, so that no two blocks of one order are neighbours.
-/

namespace Cosmos.Page

open Cosmos.Lib Halt

variable {b : Boot} {s s' : Memmgrob} {a k m n : Nat}

/-! ### The scan for a run -/

/-- `n` consecutive free pages of area `a` from descriptor `m` on. -/
structure FreeRun (b : Boot) (s : Memmgrob) (a m n : Nat) : Prop where
  le : m + n ≤ b.msanr
  free : ∀ i, m ≤ i → i < m + n → isFreeMsa (a + 1) (s.msa i) = true
  padrs : ∀ i, m ≤ i → i < m + n → (s.msa i).pafPadrs = (s.msa m).pafPadrs + (i - m)

theorem isFreeMsa_congr {d d' : Msadsc} (h1 : d.mfMarty = d'.mfMarty) (h2 : d.mfUindx = d'.mfUindx)
    (h3 : d.mfMocty = d'.mfMocty) (h4 : d.pafAlloc = d'.pafAlloc) (marty : Nat) :
    isFreeMsa marty d = isFreeMsa marty d' := by
  rw [isFreeMsa, isFreeMsa, h1, h2, h3, h4]

def FreePage (b : Boot) (a i : Nat) : Prop :=
  i < b.msanr ∧ (b.msa i).mfMocty = .free ∧ areaOf (b.msa i).pafPadrs = a

instance (b : Boot) (a i : Nat) : Decidable (FreePage b a i) := inferInstanceAs (Decidable (_ ∧ _ ∧ _))

def Continues (b : Boot) (a i : Nat) : Prop :=
  0 < i ∧ FreePage b a (i - 1) ∧ FreePage b a i ∧ (b.msa i).pafPadrs = (b.msa (i - 1)).pafPadrs + 1

/-- A run of `n` consecutive free pages of area `a` from descriptor `m` on that is part of no longer one. -/
structure MaxRun (b : Boot) (a m n : Nat) : Prop where
  pos : 0 < n
  free : ∀ i, m ≤ i → i < m + n → FreePage b a i
  padrs : ∀ i, m ≤ i → i < m + n → (b.msa i).pafPadrs = (b.msa m).pafPadrs + (i - m)
  first : ¬Continues b a m
  last : ¬Continues b a (m + n)

def Whole (b : Boot) (a : Nat) : Prop :=
  ∀ i < b.msanr, FreePage b a i ∧ (b.msa i).pafPadrs = (b.msa 0).pafPadrs + i

/-- The scan ends with the array: what is behind it does not look like the next page of the run, or the array is one
run, and the scan ends because it counts the descriptors. -/
def Ends (b : Boot) (a : Nat) : Prop :=
  ¬(FreePage b a (b.msanr - 1) ∧ isFreeMsa (a + 1) (b.msa b.msanr) = true ∧
    nextPage (b.msa (b.msanr - 1)) (b.msa b.msanr) = true) ∨ Whole b a

theorem Boot.Wf.ends (hb : b.Wf) (a : Nat) : Ends b a := .inl fun h => hb.tail (a + 1) h.2

theorem OfBoot.isFreeMsa_iff (h : OfBoot b s) (hb : b.Arr) {i : Nat} (hi : i < b.msanr) :
    isFreeMsa (a + 1) (s.msa i) = true ↔ FreePage b a i := by
  rw [isFreeMsa, decide_eq_true_iff, h.marty i hi, h.uindx, h.mocty, h.alloc]
  constructor
  · rintro ⟨h1, -, h3, -⟩
    exact ⟨hi, h3, by omega⟩
  · rintro ⟨-, hfree, harea⟩
    rcases hb.marks i hi with hkrnl | hidle
    · rw [hkrnl.1] at hfree
      cases hfree
    · exact ⟨by omega, hidle.2.1, hidle.1, hidle.2.2⟩

theorem OfBoot.continues_iff (h : OfBoot b s) (hb : b.Arr) {i : Nat} (hi : i + 1 < b.msanr)
    (hfree : isFreeMsa (a + 1) (s.msa i) = true) : Continues b a (i + 1) ↔
      isFreeMsa (a + 1) (s.msa (i + 1)) = true ∧ nextPage (s.msa i) (s.msa (i + 1)) = true := by
  have hnext := h.nextPage_iff hb hi hfree
  rw [h.padrs, h.padrs] at hnext
  constructor
  · intro hc
    have hfree' := (h.isFreeMsa_iff hb hi).mpr hc.2.2.1
    exact ⟨hfree', (hnext hfree').mpr hc.2.2.2⟩
  · rintro ⟨hfree', hpage⟩
    exact ⟨Nat.succ_pos i, (h.isFreeMsa_iff hb (by omega)).mp hfree, (h.isFreeMsa_iff hb hi).mp hfree',
      (hnext hfree').mp hpage⟩

/-- What a scan of at most `c` pairs from descriptor `i` on finds: `len` descriptors that continue the run of `i`. -/
structure RunAt (msa : Nat → Msadsc) (marty c i len : Nat) : Prop where
  le : len ≤ c
  free : ∀ j, i ≤ j → j ≤ i + len → isFreeMsa marty (msa j) = true
  next : ∀ j, i ≤ j → j < i + len → nextPage (msa j) (msa (j + 1)) = true
  stop : len < c →
    ¬(isFreeMsa marty (msa (i + len + 1)) = true ∧ nextPage (msa (i + len)) (msa (i + len + 1)) = true)

theorem runAt_zero {msa : Nat → Msadsc} {marty c i : Nat} (hfree : isFreeMsa marty (msa i) = true)
    (hstop : 0 < c → ¬(isFreeMsa marty (msa (i + 1)) = true ∧ nextPage (msa i) (msa (i + 1)) = true)) :
    RunAt msa marty c i 0 := by
  refine ⟨Nat.zero_le c, fun j hlo hhi => ?_, fun j hlo hhi => by omega, hstop⟩
  obtain rfl : j = i := by omega
  exact hfree

theorem scanLenLoop_spec (msa : Nat → Msadsc) (marty c : Nat) : ∀ i r, isFreeMsa marty (msa i) = true →
    ∃ len, scanLenLoop msa marty c i r = some (r + len) ∧ RunAt msa marty c i len := by
  induction c with
  | zero => exact fun i r hfree => ⟨0, rfl, runAt_zero hfree fun hlt => absurd hlt (lt_irrefl 0)⟩
  | succ c ih =>
    intro i r hfree
    by_cases hnext : isFreeMsa marty (msa (i + 1)) = true ∧ nextPage (msa i) (msa (i + 1)) = true
    · have hok : continumsadscIsOk (msa i) (msa (i + 1)) marty = 2 := by
        rw [continumsadscIsOk, if_pos hfree, if_pos hnext.1, if_pos hnext.2]
      obtain ⟨len, heq, hrun⟩ := ih (i + 1) (r + 1) hnext.1
      have hle := hrun.le
      refine ⟨len + 1, ?_, by omega, fun j hlo hhi => ?_, fun j hlo hhi => ?_, fun hlt => ?_⟩
      · simp only [scanLenLoop, hok, heq]
        rw [if_neg (by omega), if_neg (by omega)]
        congr 1
        omega
      · by_cases hj : j = i
        · rw [hj]
          exact hfree
        · exact hrun.free j (by omega) (by omega)
      · by_cases hj : j = i
        · rw [hj]
          exact hnext.2
        · exact hrun.next j (by omega) (by omega)
      · rw [show i + (len + 1) = i + 1 + len by omega]
        exact hrun.stop (by omega)
    · have hok : continumsadscIsOk (msa i) (msa (i + 1)) marty = 1 := by
        rw [continumsadscIsOk, if_pos hfree]
        by_cases hfree' : isFreeMsa marty (msa (i + 1)) = true
        · rw [if_pos hfree', if_neg fun hn => hnext ⟨hfree', hn⟩]
        · rw [if_neg hfree']
      refine ⟨0, ?_, runAt_zero hfree fun _ => hnext⟩
      simp only [scanLenLoop, hok]
      rw [if_neg (by omega), if_pos trivial, Nat.add_zero]

section RunAt

variable {c i len : Nat} (hb : b.Arr) (h : OfBoot b s) (hrun : RunAt s.msa (a + 1) c i len)

include hb h hrun

theorem RunAt.freeRun (hlt : i + len < b.msanr) : FreeRun b s a i (len + 1) := by
  refine ⟨by omega, fun j hlo hhi => hrun.free j hlo (by omega), fun j hlo => ?_⟩
  induction j, hlo using Nat.le_induction with
  | base => exact fun _ => by rw [Nat.sub_self, Nat.add_zero]
  | succ j hlo ih =>
    intro hhi
    have hfree := hrun.free j hlo (by omega)
    have hfree' := hrun.free (j + 1) (by omega) (by omega)
    rw [(h.nextPage_iff hb (by omega) hfree hfree').mp (hrun.next j hlo (by omega)), ih (by omega)]
    omega

theorem RunAt.not_continues (hc : b.msanr ≤ i + c + 1) : ¬Continues b a (i + len + 1) := by
  intro hcont
  have hlt := hcont.2.2.1.1
  exact hrun.stop (by omega) ((h.continues_iff hb hlt (hrun.free _ (by omega) le_rfl)).mp hcont)

end RunAt

theorem RunAt.lt (hb : b.Arr) (h : OfBoot b s) {i len : Nat} (hrun : RunAt s.msa (a + 1) (b.msanr - 1) i len)
    (hends : Ends b a) (hi : i < b.msanr) (hfirst : ¬Continues b a i) : i + len < b.msanr := by
  have hpos := hb.pos
  have hle := hrun.le
  by_contra hout
  rcases hends with hstop | hwhole
  · refine hstop ⟨?_, ?_, ?_⟩
    · exact (h.isFreeMsa_iff hb (by omega)).mp (hrun.free (b.msanr - 1) (by omega) (by omega))
    · rw [← isFreeMsa_congr h.behind (h.uindx _) (h.mocty _) (h.alloc _)]
      exact hrun.free b.msanr (by omega) (by omega)
    · have hnext := hrun.next (b.msanr - 1) (by omega) (by omega)
      rw [Nat.sub_add_cancel hpos, nextPage, phyadrOf, phyadrOf, h.padrs, h.padrs] at hnext
      exact hnext
  · -- the scan that goes over the whole array starts at its first descriptor
    refine hfirst ⟨by omega, (hwhole (i - 1) (by omega)).1, (hwhole i hi).1, ?_⟩
    rw [(hwhole (i - 1) (by omega)).2, (hwhole i hi).2]
    omega

/-- One call of `merlove_scan_continumsadsc` that finds a run. -/
structure Found (b : Boot) (s : Memmgrob) (a fnt idx len : Nat) : Prop where
  find : ((List.range' fnt (b.msanr - fnt)).find? fun tmidx => isFreeMsa (a + 1) (s.msa tmidx)) = some idx
  le : fnt ≤ idx
  lt : idx < b.msanr
  skip : ∀ i, fnt ≤ i → i < idx → ¬FreePage b a i
  run : RunAt s.msa (a + 1) (b.msanr - 1) idx len
  scan : merloveScanContinumsadsc s a fnt = .ok (some (idx + len + 1, some (idx, idx + len, len + 1)))

theorem Found.first {fnt idx len : Nat} (h : Found b s a fnt idx len) (hedge : ¬Continues b a fnt) :
    ¬Continues b a idx := by
  intro hcont
  have hle := h.le
  by_cases heq : idx = fnt
  · exact hedge (heq ▸ hcont)
  · exact h.skip (idx - 1) (by omega) (by omega) hcont.2.1

theorem scan_cases (hb : b.Arr) (h : OfBoot b s) (hmarty : martyOf (s.marea a).maType = some (a + 1)) {fnt : Nat}
    (hlt : fnt < b.msanr) :
    (((List.range' fnt (b.msanr - fnt)).find? fun tmidx => isFreeMsa (a + 1) (s.msa tmidx)) = none ∧
      merloveScanContinumsadsc s a fnt = .ok (some (b.msanr, none)) ∧
      ∀ i, fnt ≤ i → i < b.msanr → ¬FreePage b a i) ∨ ∃ idx len, Found b s a fnt idx len := by
  have hpos := hb.pos
  cases hfind : (List.range' fnt (b.msanr - fnt)).find? fun tmidx => isFreeMsa (a + 1) (s.msa tmidx) with
  | none =>
    refine .inl ⟨rfl, ?_, fun i hlo hhi hfree => ?_⟩
    · unfold merloveScanContinumsadsc
      rw [h.msanr, if_neg (by omega), hmarty]
      simp only [hfind]
    · exact List.find?_eq_none.mp hfind i (List.mem_range'_1.mpr ⟨hlo, by omega⟩) ((h.isFreeMsa_iff hb hhi).mpr hfree)
  | some idx =>
    obtain ⟨hfree, hmem, hmin⟩ := List.find?_range'_eq_some.mp hfind
    have hidx := List.mem_range'_1.mp hmem
    obtain ⟨len, hlen, hrun⟩ := scanLenLoop_spec s.msa (a + 1) (b.msanr - 1) idx 0 hfree
    rw [Nat.zero_add] at hlen
    refine .inr ⟨idx, len, hfind, hidx.1, by omega, fun i hlo hhi hpage => ?_, hrun, ?_⟩
    · have hno := hmin i hlo hhi
      rw [(h.isFreeMsa_iff hb hpage.1).mpr hpage] at hno
      cases hno
    · unfold merloveScanContinumsadsc
      rw [h.msanr, if_neg (by omega), hmarty]
      simp only [hfind, scanLenMsadsc, if_neg hpos.ne', hlen]

theorem checkPairs_eq (hb : b.Arr) (h : OfBoot b s) (c : Nat) : ∀ ms, FreeRun b s a ms (c + 1) →
    checkPairs s.msa (a + 1) c ms = true := by
  induction c with
  | zero => exact fun _ _ => rfl
  | succ c ih =>
    intro ms hrun
    have hle := hrun.le
    have hnext : nextPage (s.msa ms) (s.msa (ms + 1)) = true := by
      refine (h.nextPage_iff hb (by omega) (hrun.free ms le_rfl (by omega))
        (hrun.free (ms + 1) (by omega) (by omega))).mpr ?_
      rw [hrun.padrs (ms + 1) (by omega) (by omega)]
      omega
    have hrest : FreeRun b s a (ms + 1) (c + 1) := by
      refine ⟨by omega, fun i hlo hhi => hrun.free i (by omega) (by omega), fun i hlo hhi => ?_⟩
      rw [hrun.padrs i (by omega) (by omega), hrun.padrs (ms + 1) (by omega) (by omega)]
      omega
    rw [checkPairs, hrun.free ms le_rfl (by omega), hrun.free (ms + 1) (by omega) (by omega), hnext, ih _ hrest]
    rfl

theorem checkContinumsadsc_ne (hb : b.Arr) (h : Hung b s a m) (ha : a < 3) {ms len : Nat}
    (hrun : FreeRun b s a ms (len + 1)) : checkContinumsadsc s a ms (ms + len) (len + 1) ≠ 0 := by
  have htype := h.inv.type a (by unfold memareaMax; omega)
  unfold checkContinumsadsc
  rw [if_neg (by omega), htype, martyOf_eq ha]
  by_cases hlen : len = 0
  · subst hlen
    simp only [Nat.add_zero, if_true]
    rw [if_pos ⟨hrun.free ms le_rfl (by omega), trivial⟩]
    omega
  · simp only
    rw [if_neg (by omega), show ms + len - ms = len by omega, checkPairs_eq hb h.toOfBoot len ms hrun]
    simp only [if_true]
    rw [if_neg (by simp)]
    exact hlen

/-! ### Hanging a run -/

theorem FreeRun.congr (h : OfBoot b s) (h' : OfBoot b s') (hrun : FreeRun b s a m n) : FreeRun b s' a m n := by
  have hle := hrun.le
  refine ⟨hle, fun i hlo hhi => ?_, fun i hlo hhi => ?_⟩
  · have hi : i < b.msanr := by omega
    rw [isFreeMsa_congr ((h'.marty i hi).trans (h.marty i hi).symm) ((h'.uindx i).trans (h.uindx i).symm)
      ((h'.mocty i).trans (h.mocty i).symm) ((h'.alloc i).trans (h.alloc i).symm)]
    exact hrun.free i hlo hhi
  · rw [h'.padrs, h'.padrs, ← h.padrs, ← h.padrs]
    exact hrun.padrs i hlo hhi

theorem FreeRun.split {n₁ n₂ : Nat} (hrun : FreeRun b s a m (n₁ + n₂)) :
    FreeRun b s a m n₁ ∧ FreeRun b s a (m + n₁) n₂ := by
  have hle := hrun.le
  refine ⟨⟨by omega, fun i hlo hhi => hrun.free i hlo (by omega), fun i hlo hhi => hrun.padrs i hlo (by omega)⟩,
    by omega, fun i hlo hhi => hrun.free i (by omega) (by omega), fun i hlo hhi => ?_⟩
  rw [hrun.padrs i (by omega) (by omega), hrun.padrs (m + n₁) (by omega) (by omega)]
  omega

theorem Hung.hangRun (hb : b.Arr) (h : Hung b s a m) (hslot : SlotOk a k) (hrun : FreeRun b s a m (pnr k))
    (halone : a < 2 → k < mdivmerArrLmax - 1 → ∀ x ∈ (s.bafh a k).afFrelst, ¬Adjacent s.msa x (pnr k) m) :
    Hung b (Page.hangAt s a k m) a (m + pnr k) := by
  have hle := hrun.le
  exact h.hangAt hb hslot
    (fun i hlo hhi => (h.isFreeMsa_iff hb (by omega) hlo).mp (hrun.free i hlo hhi)) hrun.padrs halone

theorem addProcLoop_spec (hb : b.Arr) (h : Hung b s 2 m) (n : Nat) (hrun : FreeRun b s 2 m n) :
    Hung b (addProcLoop 2 onemsalst m n s) 2 (m + n) := by
  induction n with
  | zero => exact h
  | succ n ih =>
    obtain ⟨hfst, hsnd⟩ := hrun.split
    have hn := ih hfst
    have heq : addProcLoop 2 onemsalst m (n + 1) s = hangAt (addProcLoop 2 onemsalst m n s) 2 onemsalst (m + n) := by
      simp only [addProcLoop, hangAt, Memmgrob.markFree, Memmgrob.setMsa, pnr, if_true, Nat.add_sub_cancel,
        Function.update_self, Function.update_idem]
    rw [heq]
    exact hn.hangRun hb (.inr ⟨rfl, rfl⟩) (hsnd.congr h.toOfBoot hn.toOfBoot) fun ha => absurd ha (by omega)

theorem filter_range_lt (t c : Nat) : (List.range (t + c)).filter (fun i => decide (i < t)) = List.range t := by
  induction c with
  | zero =>
    rw [Nat.add_zero, List.filter_eq_self]
    exact fun i hi => decide_eq_true (List.mem_range.mp hi)
  | succ c ih =>
    rw [← Nat.add_assoc, List.range_succ, List.filter_append, ih]
    simp

theorem findContinumsaInbafhlst_eq (h : Hung b s a m) (ha : a < 2) (hpos : 0 < n) (hn : n < 2 ^ 51) :
    findContinumsaInbafhlst s a n = some (Nat.log 2 n) := by
  have htype := h.inv.type a (by unfold memareaMax; omega)
  have hlog : Nat.log 2 n < 51 := Nat.log_lt_of_lt_pow (by omega) hn
  have hfits : (List.range mdivmerArrLmax).filter (fun li => decide ((s.bafh a li).afOderpnr ≤ n)) =
      List.range (Nat.log 2 n + 1) := by
    have hcongr : ∀ li ∈ List.range mdivmerArrLmax,
        decide ((s.bafh a li).afOderpnr ≤ n) = decide (li < Nat.log 2 n + 1) := by
      intro li hli
      rw [List.mem_range] at hli
      rw [h.inv.oder a li (.of_lt ha hli), pnr_of_lt hli, decide_eq_decide, Nat.lt_succ_iff,
        Nat.le_log_iff_pow_le (by omega) (by omega)]
    rw [List.filter_congr hcongr, show mdivmerArrLmax = Nat.log 2 n + 1 + (51 - Nat.log 2 n) by
      unfold mdivmerArrLmax
      omega]
    exact filter_range_lt _ _
  unfold findContinumsaInbafhlst
  rw [if_neg (by omega), htype, if_neg (by unfold maTypeProc; omega), if_neg (by unfold maTypeShar; omega)]
  simp only [hfits]
  rw [List.length_range, if_neg (by unfold mdivmerArrLmax; omega), List.range_succ, List.getLast?_concat]

theorem continumsadscMareabafhCore_eq (h : Hung b s a m) (ha : a < 2) (hpos : 0 < n) (hn : n < 2 ^ 51) (mend : Nat) :
    continumsadscMareabafhCore s a m mend n =
      some (m + pnr (Nat.log 2 n), n - pnr (Nat.log 2 n), hangAt s a (Nat.log 2 n) m) := by
  have htype := h.inv.type a (by unfold memareaMax; omega)
  have hlog : Nat.log 2 n < mdivmerArrLmax :=
    lt_trans (Nat.log_lt_of_lt_pow (b := 2) (by omega) hn) (by decide)
  have hoder := h.inv.oder a _ (.of_lt ha hlog)
  have hle : pnr (Nat.log 2 n) ≤ n := by
    rw [pnr_of_lt hlog]
    exact Nat.pow_log_le_self 2 (by omega)
  have hkpos := pnr_pos (Nat.log 2 n)
  have hstus : (s.bafh a (Nat.log 2 n)).afStus = .divm := by
    rw [h.stus, memdivmerInit, if_pos hlog]
    rfl
  have hadd : continumsadscAddBafhlst s a (Nat.log 2 n) m (m + (pnr (Nat.log 2 n) - 1)) (pnr (Nat.log 2 n)) =
      (true, hangAt s a (Nat.log 2 n) m) := by
    unfold continumsadscAddBafhlst
    rw [if_neg (by omega), hoder, if_neg (by simp), if_neg (by simp),
      show m + (pnr (Nat.log 2 n) - 1) = m + pnr (Nat.log 2 n) - 1 by omega]
    rfl
  unfold continumsadscMareabafhCore
  rw [if_neg (by omega), findContinumsaInbafhlst_eq h ha hpos hn]
  simp only [hoder, hstus, htype, hadd]
  rw [if_neg (by omega), if_pos ⟨.inr trivial, by unfold maTypeProc; omega⟩]
  rfl

/-- Where the blocks of a run go: a block that ends right before descriptor `m` has more than `n` pages. -/
def Sep (s : Memmgrob) (a m n : Nat) : Prop :=
  ∀ k, ∀ x ∈ (s.bafh a k).afFrelst, Adjacent s.msa x (pnr k) m → n < pnr k

theorem sep_hangAt (h : Hung b (hangAt s a k m) a (m + pnr k)) (hn : n < pnr k) :
    Sep (hangAt s a k m) a (m + pnr k) n := by
  intro k' x hx hadj
  have hpos := pnr_pos k
  have hpos' := pnr_pos k'
  have hend := hadj.1
  have hself : m ∈ ((hangAt s a k m).bafh a k).afFrelst := by
    rw [hangAt_bafh_self]
    exact List.mem_cons_self
  have heq := h.inv.tile.once (.free a k' x) hx (.free a k m) hself (m + pnr k - 1)
    ⟨by omega, by omega⟩ ⟨by omega, by omega⟩
  injection heq with _ hk
  rwa [hk]

/-- The lists after the run of `n` pages from `m` on is hung. -/
structure Cut (s s' : Memmgrob) (a m n : Nat) : Prop where
  self : a < 2 → ∀ k, ∀ x ∈ (s'.bafh a k).afFrelst, x ∈ (s.bafh a k).afFrelst ∨ InCut m n k x
  other : ∀ a', a' ≠ a → ∀ k, s'.bafh a' k = s.bafh a' k

/-- **A run is cut into blocks of decreasing size.** -/
theorem mareabafhLoop_spec (hb : b.Arr) (ha : a < 2) (mend c : Nat) : ∀ n m s, n ≤ c → n < 2 ^ 51 → Hung b s a m →
    FreeRun b s a m n → Sep s a m n →
    ∃ s', mareabafhLoop a mend c m n s = .ok s' ∧ Hung b s' a (m + n) ∧ Cut s s' a m n := by
  induction c with
  | zero =>
    intro n m s hc _ h _ _
    obtain rfl : n = 0 := by omega
    exact ⟨s, rfl, h, fun _ _ _ hx => .inl hx, fun _ _ _ => rfl⟩
  | succ c ih =>
    intro n m s hc hn h hrun hsep
    cases n with
    | zero => exact ⟨s, rfl, h, fun _ _ _ hx => .inl hx, fun _ _ _ => rfl⟩
    | succ n =>
      have hcore := continumsadscMareabafhCore_eq h ha (Nat.succ_pos n) hn mend
      have hlog : Nat.log 2 (n + 1) < mdivmerArrLmax :=
        lt_trans (Nat.log_lt_of_lt_pow (b := 2) (by omega) hn) (by decide)
      have hlo : 2 ^ Nat.log 2 (n + 1) ≤ n + 1 := Nat.pow_log_le_self 2 (by omega)
      have hhi : n + 1 < 2 ^ (Nat.log 2 (n + 1) + 1) := Nat.lt_pow_succ_log_self (by omega) (n + 1)
      generalize hk : Nat.log 2 (n + 1) = k at *
      have hpnr := pnr_of_lt hlog
      have hsucc := pow_succ 2 k
      have hpos := pnr_pos k
      rw [show n + 1 = pnr k + (n + 1 - pnr k) by omega] at hrun
      obtain ⟨hfst, hsnd⟩ := hrun.split
      -- a neighbour of the same order would have more than `n + 1` pages
      have hhung := h.hangRun hb (.of_lt ha hlog) hfst fun _ _ x hx hadj => by
        have := hsep k x hx hadj
        omega
      obtain ⟨s', heq, hs', hcut⟩ := ih (n + 1 - pnr k) (m + pnr k) _ (by omega) (by omega) hhung
        (hsnd.congr h.toOfBoot hhung.toOfBoot) (sep_hangAt hhung (by omega))
      refine ⟨s', ?_, ?_, fun _ k' x hx => ?_, fun a' ha' k' => ?_⟩
      · rw [mareabafhLoop, hcore]
        exact heq
      · rw [show m + (n + 1) = m + pnr k + (n + 1 - pnr k) by omega]
        exact hs'
      · rcases hcut.self ha k' x hx with hx | hrest
        · by_cases hk' : k' = k
          · subst hk'
            rw [hangAt_bafh_self] at hx
            rcases List.mem_cons.mp hx with rfl | hx
            · exact .inr (inCut_first hlo hhi)
            · exact .inl hx
          · rw [hangAt_bafh_of_ne s (by omega)] at hx
            exact .inl hx
        · rw [hpnr] at hrest
          exact .inr (hrest.of_rest hlo hhi)
      · rw [hcut.other a' ha' k', hangAt_bafh_of_ne s (by omega)]

theorem addProcLoop_other {a' : Nat} (ha : a' ≠ a) (fstat k' : Nat) (s : Memmgrob) : ∀ n,
    (addProcLoop a k fstat n s).bafh a' k' = s.bafh a' k'
  | 0 => rfl
  | n + 1 => by
    show ((addFrelst _ a k (fstat + n)).bafh a' k') = _
    rw [addFrelst, setBafh_of_ne _ _ fun heq => ha heq.1]
    exact addProcLoop_other ha fstat k' s n

theorem merloveContinumsadscMareabafh_spec (hb : b.Arr) (ha : a < 3) (h : Hung b s a m) {len : Nat}
    (hrun : FreeRun b s a m (len + 1)) (hsep : ∀ k, ∀ x ∈ (s.bafh a k).afFrelst, ¬Adjacent s.msa x (pnr k) m) :
    ∃ s', merloveContinumsadscMareabafh s a m (m + len) (len + 1) = .ok s' ∧ Hung b s' a (m + (len + 1)) ∧
      Cut s s' a m (len + 1) := by
  unfold merloveContinumsadscMareabafh
  rw [if_neg (by omega)]
  by_cases ha2 : a < 2
  · -- the run is shorter than the areas below process memory
    have hlen : len + 1 < 2 ^ 51 := by
      have hle := hrun.le
      have hlast := hrun.padrs (m + len) (by omega) (by omega)
      have hfree := hrun.free (m + len) (by omega) (by omega)
      rw [isFreeMsa, decide_eq_true_iff, h.marty _ (by omega), ← h.padrs] at hfree
      have harea := hfree.1
      unfold areaOf at harea
      split_ifs at harea <;> omega
    exact mareabafhLoop_spec hb ha2 (m + len) (len + 1) (len + 1) m s le_rfl hlen h hrun
      fun k x hx hadj => absurd hadj (hsep k x hx)
  · obtain rfl : a = 2 := by omega
    have htype : (s.marea 2).maType = maTypeProc := h.inv.type 2 (by decide)
    have hstus : (s.bafh 2 onemsalst).afStus = .onem := h.stus 2 onemsalst
    have hoder : (s.bafh 2 onemsalst).afOderpnr = 1 := h.inv.oder 2 onemsalst (.inr ⟨rfl, rfl⟩)
    have hadd : continumsadscAddProcmareabafh s 2 onemsalst m (m + len) (len + 1) =
        (true, addProcLoop 2 onemsalst m (len + 1) s) := by
      unfold continumsadscAddProcmareabafh
      rw [if_neg (by omega), if_neg (by simp [hstus, htype]), if_neg (by simp [hoder]), if_neg (by omega)]
    have hcore : continumsadscMareabafhCore s 2 m (m + len) (len + 1) =
        some (m, 0, addProcLoop 2 onemsalst m (len + 1) s) := by
      have hfind : findContinumsaInbafhlst s 2 (len + 1) = some onemsalst := by
        rw [findContinumsaInbafhlst, if_neg (by omega), if_pos htype]
      unfold continumsadscMareabafhCore
      rw [if_neg (by omega), hfind]
      simp only [hoder, hstus, htype, hadd]
      rw [if_neg (by omega), if_neg (by simp), if_pos ⟨trivial, trivial⟩]
      rfl
    refine ⟨_, ?_, addProcLoop_spec hb h (len + 1) hrun, fun hlt => absurd hlt (by omega), fun a' ha' k' => ?_⟩
    · rw [mareabafhLoop, hcore]
      cases len <;> rfl
    · exact addProcLoop_other ha' m k' s (len + 1)

/-! ### The areas -/

theorem Hung.martyOf_eq {fnt : Nat} (h : Hung b s a fnt) (ha : a < 3) :
    martyOf (s.marea a).maType = some (a + 1) := by
  have hareas : a < memareaMax := by
    unfold memareaMax
    omega
  rw [h.inv.type a hareas, Page.martyOf_eq ha]

theorem Hung.skip (hb : b.Arr) {fnt idx : Nat} (h : Hung b s a fnt) (hle : fnt ≤ idx)
    (hskip : ∀ i, fnt ≤ i → i < idx → ¬FreePage b a i) : Hung b s a idx := by
  have htodo : ∀ i, Todo s a idx i ↔ Todo s a fnt i := by
    intro i
    refine ⟨fun ⟨h1, h2, h3⟩ => ⟨h1, h2, h3.imp_right fun hm => ⟨hm.1, by omega⟩⟩, fun ⟨h1, h2, h3⟩ => ⟨h1, h2, ?_⟩⟩
    rcases h3 with hgt | ⟨heq, hge⟩
    · exact .inl hgt
    · refine .inr ⟨heq, ?_⟩
      by_contra hlt
      have hi := h.msanr ▸ h1
      have hfree := (h.isFreeMsa_iff hb hi hge).mpr ⟨⟨h1, h2, .inr ⟨heq, hge⟩⟩, heq⟩
      exact hskip i hge (by omega) ((h.toOfBoot.isFreeMsa_iff hb hi).mp hfree)
  refine ⟨h.toOfBoot, ?_, fun i hi => h.fresh i ((htodo i).mp hi), fun k x hx => le_trans (h.below k x hx) hle, h.later⟩
  simp only [htodo]
  exact h.inv

theorem Hung.continues_of_adjacent (hb : b.Arr) {fnt idx x : Nat} (h : Hung b s a fnt) (hidx : FreePage b a idx)
    (hx : x ∈ (s.bafh a k).afFrelst) (hadj : Adjacent s.msa x (pnr k) idx) : Continues b a idx := by
  obtain ⟨rfl, hphy⟩ := hadj
  have hpos := pnr_pos k
  obtain ⟨hlt, hne⟩ := h.inv.lt_of_free hx (i := x + pnr k - 1) (by omega) (by omega)
  rw [h.msanr] at hlt
  have hmarty := (h.inv.free a k x hx).marty (x + pnr k - 1) (by omega) (by omega)
  rw [h.marty _ hlt] at hmarty
  rw [h.padrs, h.padrs] at hphy
  have hfree := (h.idle hb hlt hne).1
  rw [h.mocty] at hfree
  exact ⟨by omega, ⟨hlt, hfree, by omega⟩, hidx, hphy.symm⟩

theorem Found.hang (hb : b.Arr) (ha : a < 3) {fnt idx len : Nat} (h : Hung b s a fnt) (hedge : ¬Continues b a fnt)
    (hfound : Found b s a fnt idx len) (hlt : idx + len < b.msanr) :
    MaxRun b a idx (len + 1) ∧ checkContinumsadsc s a idx (idx + len) (len + 1) ≠ 0 ∧
      ∃ s', merloveContinumsadscMareabafh s a idx (idx + len) (len + 1) = .ok s' ∧ Hung b s' a (idx + len + 1) ∧
        Cut s s' a idx (len + 1) := by
  have hof := h.toOfBoot
  have hskip := h.skip hb hfound.le hfound.skip
  have hrun := hfound.run.freeRun hb hof hlt
  have hpage : ∀ i, idx ≤ i → i < idx + (len + 1) → FreePage b a i := fun i hlo hhi =>
    (hof.isFreeMsa_iff hb (by omega)).mp (hrun.free i hlo hhi)
  have hfirst := hfound.first hedge
  refine ⟨⟨Nat.succ_pos len, hpage, fun i hlo hhi => ?_, hfirst, ?_⟩, checkContinumsadsc_ne hb hskip ha hrun, ?_⟩
  · rw [← hof.padrs, ← hof.padrs]
    exact hrun.padrs i hlo hhi
  · exact hfound.run.not_continues hb hof (by omega)
  · exact merloveContinumsadscMareabafh_spec hb ha hskip hrun fun k x hx hadj =>
      hfirst (h.continues_of_adjacent hb (hpage idx le_rfl (by omega)) hx hadj)

/-- The lists after an area is done: a new block is one of those into which a maximal run is cut. -/
structure Tiled (b : Boot) (s s' : Memmgrob) (a : Nat) : Prop where
  self : a < 2 → ∀ k, ∀ x ∈ (s'.bafh a k).afFrelst,
    x ∈ (s.bafh a k).afFrelst ∨ ∃ m n, MaxRun b a m n ∧ InCut m n k x
  other : ∀ a', a' ≠ a → ∀ k, s'.bafh a' k = s.bafh a' k

theorem onmemareaLoop_spec (hb : b.Arr) (ha : a < 3) (hends : Ends b a) (c : Nat) : ∀ fnt s, b.msanr ≤ fnt + c →
    fnt ≤ b.msanr → Hung b s a fnt → ¬Continues b a fnt →
    ∃ s', onmemareaLoop a c fnt s = .ok s' ∧ Hung b s' a b.msanr ∧ Tiled b s s' a := by
  -- at the end of the array the loop ends
  have hdone : ∀ c s, Hung b s a b.msanr → ∃ s', onmemareaLoop a c b.msanr s = .ok s' ∧ Hung b s' a b.msanr ∧
      Tiled b s s' a := by
    intro c s h
    refine ⟨s, ?_, h, fun _ _ _ hx => .inl hx, fun _ _ _ => rfl⟩
    cases c <;> rw [onmemareaLoop, h.msanr, if_neg (lt_irrefl _)]
  induction c with
  | zero =>
    intro fnt s hc hle h _
    obtain rfl : fnt = b.msanr := by omega
    exact hdone 0 s h
  | succ c ih =>
    intro fnt s hc hle h hedge
    by_cases hlt : fnt < b.msanr
    case neg =>
      obtain rfl : fnt = b.msanr := by omega
      exact hdone (c + 1) s h
    rw [onmemareaLoop, h.msanr, if_pos hlt]
    rcases scan_cases hb h.toOfBoot (h.martyOf_eq ha) hlt with ⟨-, hscan, hnone⟩ | ⟨idx, len, hfound⟩
    · rw [bind_of_ok hscan]
      exact hdone c s (h.skip hb hle hnone)
    · have hin := hfound.run.lt hb h.toOfBoot hends hfound.lt (hfound.first hedge)
      have hfnt := hfound.le
      obtain ⟨hmax, hcheck, s₁, hhang, hs₁, hcut⟩ := hfound.hang hb ha h hedge hin
      obtain ⟨s', heq, hs', htiled⟩ := ih (idx + len + 1) s₁ (by omega) (by omega) hs₁ hmax.last
      refine ⟨s', ?_, hs', fun ha2 k x hx => ?_, fun a' ha' k => ?_⟩
      · rw [bind_of_ok hfound.scan]
        simp only [if_neg hcheck]
        rw [bind_of_ok hhang]
        exact heq
      · rcases htiled.self ha2 k x hx with hx | hx
        · exact (hcut.self ha2 k x hx).imp_right fun hin => ⟨idx, len + 1, hmax, hin⟩
        · exact .inr hx
      · rw [htiled.other a' ha' k, hcut.other a' ha' k]

theorem Hung.next (h : Hung b s a b.msanr) : Hung b s (a + 1) 0 := by
  have htodo : ∀ i, Todo s (a + 1) 0 i ↔ Todo s a b.msanr i := by
    intro i
    refine ⟨fun ⟨h1, h2, h3⟩ => ⟨h1, h2, .inl (by omega)⟩, fun ⟨h1, h2, h3⟩ => ⟨h1, h2, ?_⟩⟩
    rcases h3 with hgt | ⟨-, hge⟩
    · omega
    · have := h.msanr ▸ h1
      omega
  refine ⟨h.toOfBoot, ?_, fun i hi => h.fresh i ((htodo i).mp hi), fun k x hx => ?_,
    fun a' ha' => h.later a' (by omega)⟩
  · simp only [htodo]
    exact h.inv
  · rw [h.later (a + 1) (by omega) k] at hx
    simp at hx

theorem not_continues_zero (b : Boot) (a : Nat) : ¬Continues b a 0 := fun h => absurd h.1 (lt_irrefl 0)

theorem merloveMemOnmemarea_spec (hb : b.Arr) (ha : a < 3) (hends : Ends b a) (h : Hung b s a 0) :
    ∃ s', merloveMemOnmemarea s a = .ok (true, s') ∧ Hung b s' (a + 1) 0 ∧ Tiled b s s' a := by
  have hpos := hb.pos
  have htype := h.inv.type a (by unfold memareaMax; omega)
  obtain ⟨s', heq, hs', htiled⟩ := onmemareaLoop_spec hb ha hends b.msanr 0 s (by omega) (by omega) h
    (not_continues_zero b a)
  refine ⟨s', ?_, hs'.next, htiled⟩
  unfold merloveMemOnmemarea
  rw [h.msanr, if_neg (by omega), htype, if_neg (by unfold maTypeShar; omega), if_neg (by unfold maTypeInit; omega),
    bind_of_ok heq]

theorem onmemareasLoop_snoc {s₁ s₂ : Memmgrob} {c : Nat} : ∀ maidx s, onmemareasLoop c maidx s = .ok (true, s₁) →
    merloveMemOnmemarea s₁ (maidx + c) = .ok (true, s₂) → onmemareasLoop (c + 1) maidx s = .ok (true, s₂) := by
  induction c with
  | zero =>
    intro maidx s h h₁
    obtain ⟨-, rfl⟩ := pair_inj h
    rw [Nat.add_zero] at h₁
    rw [onmemareasLoop, bind_of_ok h₁]
    rfl
  | succ c ih =>
    intro maidx s h h₁
    obtain ⟨⟨r, t⟩, hone, hrest⟩ := bind_eq_ok h
    cases r with
    | false => simp at hrest
    | true =>
      rw [onmemareasLoop, bind_of_ok hone]
      exact ih (maidx + 1) t hrest (by rwa [show maidx + 1 + c = maidx + (c + 1) by omega])

/-- The blocks of the areas below `a` are those into which their maximal runs are cut. -/
def CutBelow (b : Boot) (s : Memmgrob) (a : Nat) : Prop :=
  ∀ a' < a, a' < 2 → ∀ k, ∀ x ∈ (s.bafh a' k).afFrelst, ∃ m n, MaxRun b a' m n ∧ InCut m n k x

theorem onmemareasLoop_spec (hb : b.Arr) (a : Nat) : a ≤ 3 → (∀ a' < a, Ends b a') →
    ∃ s, onmemareasLoop a 0 (flagged b 3) = .ok (true, s) ∧ Hung b s a 0 ∧ CutBelow b s a := by
  induction a with
  | zero => exact fun _ _ => ⟨_, rfl, hung_flagged hb, fun a' ha' => absurd ha' (Nat.not_lt_zero a')⟩
  | succ a ih =>
    intro ha hends
    obtain ⟨s, heq, h, hcut⟩ := ih (by omega) fun a' ha' => hends a' (by omega)
    obtain ⟨s', hone, h', htiled⟩ := merloveMemOnmemarea_spec hb (by omega) (hends a (by omega)) h
    refine ⟨s', onmemareasLoop_snoc 0 _ heq (by rwa [Nat.zero_add]), h', fun a' ha' ha2 k x hx => ?_⟩
    by_cases haa : a' = a
    · subst haa
      refine (htiled.self ha2 k x hx).resolve_left fun hold => ?_
      have := h.below k x hold
      have := pnr_pos k
      omega
    · rw [htiled.other a' haa k] at hx
      exact hcut a' (by omega) ha2 k x hx

/-- **`merlove_mem_core`** puts every free page on a list. -/
theorem merloveMemCore_spec (hb : b.Wf) :
    ∃ s, merloveMemCore (bootSt b) = .ok (true, s) ∧ OfBoot b s ∧ Inv s ∅ ∅ ∧ CutBelow b s 3 := by
  have hpos := hb.pos
  obtain ⟨s, heq, h, hcut⟩ := onmemareasLoop_spec hb.toArr 3 le_rfl fun a' _ => hb.ends a'
  have hshar : merloveMemOnmemarea s 3 = .ok (true, s) := by
    unfold merloveMemOnmemarea
    rw [h.msanr, if_neg (by omega), h.shar]
    rfl
  refine ⟨s, ?_, h.toOfBoot, ?_, hcut⟩
  · have hset : setflgsLoop (bootSt b).moMareanr 0 (bootSt b) = (true, flagged b 3) := setflgsLoop_eq hb.toArr
    unfold merloveMemCore
    simp only [hset, if_true]
    exact onmemareasLoop_snoc 0 _ heq hshar
  · -- no page is of a fourth area
    have hempty : { x : Blk | x.2 = 1 ∧ Todo s 3 0 x.1 } = ∅ := by
      ext x
      simp only [Set.mem_ofPred_eq, Set.mem_empty_iff_false, iff_false]
      rintro ⟨-, h1, -, h3⟩
      rw [h.marty x.1 (h.msanr ▸ h1)] at h3
      unfold areaOf at h3
      split_ifs at h3 <;> omega
    have hinv := h.inv
    rwa [hempty] at hinv

/-! ### The check of the lists -/

theorem FreeBlk.inMarea (hb : b.Arr) (h : OfBoot b s) (hfree : FreeBlk s.msa a k m) (ha : a < 3) {i : Nat} (hlo : m ≤ i)
    (hhi : i < m + pnr k) (hi : i < b.msanr) : inMarea (s.marea a) (s.msa i) = true := by
  have hmarty := hfree.marty i hlo hhi
  rw [h.marty i hi] at hmarty
  rw [inMarea_iff (h.padrs i ▸ hb.padrs i hi) ha (h.start a) (h.last a), h.padrs]
  omega

theorem checkMultiPairs_eq (hb : b.Arr) (h : OfBoot b s) (hfree : FreeBlk s.msa a k m) (ha : a < 3)
    (htype : (s.marea a).maType = a + 1) (hlt : m + pnr k ≤ b.msanr) (c : Nat) : ∀ mi, m ≤ mi → mi + c + 1 = m + pnr k →
    checkMultiPairs s (s.marea a) c mi = true := by
  induction c with
  | zero => exact fun _ _ _ => rfl
  | succ c ih =>
    intro mi hlo hc
    have hpadrs := h.padrs mi ▸ hb.padrs mi (by omega)
    have hpadrs' := h.padrs (mi + 1) ▸ hb.padrs (mi + 1) (by omega)
    have hnext : (s.msa (mi + 1)).pafPadrs = (s.msa mi).pafPadrs + 1 := by
      rw [hfree.padrs (mi + 1) (by omega) (by omega), hfree.padrs mi hlo (by omega)]
      omega
    have hidle := hfree.idle mi hlo (by omega)
    have hidle' := hfree.idle (mi + 1) (by omega) (by omega)
    have hin := hfree.inMarea hb h ha hlo (by omega) (by omega)
    have hin' := hfree.inMarea hb h ha (i := mi + 1) (by omega) (by omega) (by omega)
    rw [Page.inMarea, decide_eq_true_iff] at hin hin'
    have hphy : u64 (phyadrOf (s.msa mi) + 0x1000) = phyadrOf (s.msa (mi + 1)) := by
      rw [phyadrOf_eq hpadrs, phyadrOf_eq hpadrs', hnext, u64_of_lt (by omega)]
      omega
    rw [checkMultiPairs, ih (mi + 1) (by omega) (by omega), Bool.and_true, decide_eq_true_iff, htype]
    exact ⟨hfree.marty mi hlo (by omega), hidle.2, hidle.1, hidle'.2, hidle'.1, hphy, hin.1, hin'.2⟩

theorem checkMultiMsadsc_eq (hb : b.Arr) (h : OfBoot b s) (hinv : Inv s ∅ ∅) (hm : m ∈ (s.bafh a k).afFrelst) :
    checkMultiMsadsc s a k m = .ok (pnr k) := by
  have hpos := pnr_pos k
  have hslot := hinv.slot a k m hm
  have hfree := hinv.free a k m hm
  have hhand := hfree.inHand
  have ha := hslot.lt
  have htype := hinv.type a (by unfold memareaMax; omega)
  have hlt := (hinv.lt_of_free hm (i := m + pnr k - 1) (by omega) (by omega)).1
  have hcount : msaCount m (m + pnr k - 1) = pnr k := by
    rw [msaCount_eq (by omega) (lt_trans hlt hinv.small)]
    omega
  rw [h.msanr] at hlt
  have herr : ¬(((s.msa m).mfOlkty ≠ .oder ∧ (s.msa m).mfOlkty ≠ .bafh) ∨ (s.msa m).mdOdlink = .null) := by
    rcases hhand.first with ⟨-, holk, hlink⟩ | ⟨holk, hlink⟩ <;> simp [holk, hlink]
  unfold checkMultiMsadsc
  simp only [if_neg herr, hhand.mend_eq, ok_bind, hcount, hinv.oder a k hslot, hfree.last.1, hfree.last.2]
  rw [if_neg (by simp), if_neg (by simp)]
  by_cases h1 : pnr k = 1
  · have hidle := hfree.idle m le_rfl (by omega)
    rw [if_pos h1, if_neg, h1]
    rw [hfree.marty m le_rfl (by omega), htype, hidle.1, hidle.2,
      hfree.inMarea hb h ha le_rfl (by omega) (by omega)]
    simp
  · rw [if_neg h1, checkMultiPairs_eq hb h hfree ha htype (by omega) (pnr k - 1) m le_rfl (by omega)]
    rfl

theorem checkOneBafhlst_eq (hb : b.Arr) (h : OfBoot b s) (hinv : Inv s ∅ ∅) (a k : Nat) :
    checkOneBafhlst s a k = .ok true := by
  unfold checkOneBafhlst
  by_cases hslot : SlotOk a k
  · have hloop : ∀ l, (∀ m ∈ l, m ∈ (s.bafh a k).afFrelst) → checkFrelst s a k l = .ok true := by
      intro l
      induction l with
      | nil => exact fun _ => rfl
      | cons m l ih =>
        intro hl
        rw [checkFrelst, bind_of_ok (checkMultiMsadsc_eq hb h hinv (hl m (by simp))), hinv.oder a k hslot,
          if_neg (by simp)]
        exact ih fun m' hm' => hl m' (by simp [hm'])
    obtain ⟨hfobj, hmobj⟩ := hinv.count a k hslot
    simp only
    split
    · rfl
    · rw [bind_of_ok (hloop _ fun _ hm => hm), hfobj, hmobj]
      simp
  · have hzero : (memdivmerInit k).afMobjnr < 1 ∧ (memdivmerInit k).afFobjnr < 1 := by
      unfold memdivmerInit
      split <;> exact ⟨Nat.one_pos, Nat.one_pos⟩
    rw [h.unused a k hslot, if_pos hzero]

theorem checkOneMemarea_eq (hb : b.Arr) (h : OfBoot b s) (hinv : Inv s ∅ ∅) (a : Nat) :
    checkOneMemarea s a = .ok true := by
  have hslots : ∀ ks, checkSlots s a ks = .ok true := by
    intro ks
    induction ks with
    | nil => rfl
    | cons k ks ih =>
      rw [checkSlots, bind_of_ok (checkOneBafhlst_eq hb h hinv a k)]
      exact ih
  unfold checkOneMemarea
  split
  · rfl
  · exact hslots _

theorem memCheckMareadata_eq (hb : b.Arr) (h : OfBoot b s) (hinv : Inv s ∅ ∅) (l : List Nat) :
    memCheckMareadata s l = .ok () := by
  induction l with
  | nil => rfl
  | cons a l ih =>
    rw [memCheckMareadata, bind_of_ok (checkOneMemarea_eq hb h hinv a)]
    exact ih

/-- **Boot** returns, and its state is sound with no block allocated. -/
theorem boot_spec (hb : b.Wf) : ∃ s, boot b = .ok s ∧ OfBoot b s ∧ Inv s ∅ ∅ := by
  obtain ⟨s, heq, h, hinv, -⟩ := merloveMemCore_spec hb
  have hmerlove : initMerloveMem (bootSt b) = .ok s := by
    unfold initMerloveMem
    rw [bind_of_ok heq]
    simp only [if_true]
    rw [bind_of_ok (memCheckMareadata_eq hb.toArr h hinv _)]
  refine ⟨initMemmgrob s, ?_, { h with }, hinv.recount rfl rfl rfl (fun _ => rfl) rfl⟩
  rw [boot, bind_of_ok hmerlove]

theorem of_boot (hb : b.Wf) (hboot : boot b = .ok s) : OfBoot b s ∧ Inv s ∅ ∅ := by
  obtain ⟨s₁, heq, h⟩ := boot_spec hb
  rw [hboot] at heq
  obtain rfl := Except.ok.inj heq
  exact h

end Cosmos.Page
