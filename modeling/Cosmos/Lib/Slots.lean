import Mathlib.Data.Finset.Card
import Mathlib.Data.List.Nodup
import Mathlib.Order.Interval.Finset.Nat
import Mathlib.Data.List.Range
import Mathlib.Tactic.Common

/-!
# Slots of equal size in a run of addresses

The slots of size `sz` that fit between `lo` and `hi`, one behind the other from `lo` on; and the slots of several runs
of addresses, each with a header before its slots.
-/

namespace Cosmos.Lib

def slots (lo hi sz : Nat) : List Nat := (List.range ((hi - lo) / sz)).map fun i => lo + i * sz

variable {lo hi sz a b : Nat}

theorem mem_slots (hsz : 0 < sz) : a ∈ slots lo hi sz ↔ lo ≤ a ∧ a + sz ≤ hi ∧ sz ∣ a - lo := by
  unfold slots
  rw [List.mem_map]
  constructor
  · rintro ⟨i, hi', rfl⟩
    rw [List.mem_range, Nat.lt_iff_add_one_le, Nat.le_div_iff_mul_le hsz, Nat.add_mul] at hi'
    refine ⟨by omega, by omega, ?_⟩
    rw [Nat.add_sub_cancel_left]
    exact Nat.dvd_mul_left sz i
  · rintro ⟨hlo, hend, i, hdvd⟩
    refine ⟨i, ?_, ?_⟩
    · rw [List.mem_range, Nat.lt_iff_add_one_le, Nat.le_div_iff_mul_le hsz, Nat.add_mul, Nat.mul_comm]
      omega
    · rw [Nat.mul_comm]
      omega

theorem nodup_slots (hsz : 0 < sz) : (slots lo hi sz).Nodup := by
  refine List.nodup_range.map fun i j hij => ?_
  have hmul : i * sz = j * sz := Nat.add_left_cancel hij
  exact Nat.eq_of_mul_eq_mul_right hsz hmul

@[simp] theorem length_slots : (slots lo hi sz).length = (hi - lo) / sz := by simp [slots]

theorem slots_apart (hsz : 0 < sz) (ha : a ∈ slots lo hi sz) (hb : b ∈ slots lo hi sz) (hne : a ≠ b) :
    a + sz ≤ b ∨ b + sz ≤ a := by
  obtain ⟨hloa, -, i, hi'⟩ := (mem_slots hsz).mp ha
  obtain ⟨hlob, -, j, hj⟩ := (mem_slots hsz).mp hb
  rcases Nat.lt_trichotomy i j with hlt | rfl | hlt
  · have hmul := Nat.mul_le_mul_left sz (show i + 1 ≤ j from hlt)
    rw [Nat.mul_add] at hmul
    omega
  · omega
  · have hmul := Nat.mul_le_mul_left sz (show j + 1 ≤ i from hlt)
    rw [Nat.mul_add] at hmul
    omega

theorem slots_eq_cons (hsz : 0 < sz) (h : lo + sz ≤ hi) : slots lo hi sz = lo :: slots (lo + sz) hi sz := by
  have hdiv : (hi - lo) / sz = (hi - (lo + sz)) / sz + 1 := by
    rw [show hi - lo = hi - (lo + sz) + sz by omega, Nat.add_div_right _ hsz]
  unfold slots
  rw [hdiv, List.range_succ_eq_map, List.map_cons, List.map_map]
  refine congrArg₂ List.cons (by omega) (List.map_congr_left fun i _ => ?_)
  simp only [Function.comp_apply, Nat.succ_mul]
  omega

theorem slots_eq_nil (hsz : 0 < sz) (h : hi < lo + sz) : slots lo hi sz = [] := by
  unfold slots
  rw [Nat.div_eq_of_lt (by omega)]
  rfl

theorem length_le_of_nodup {n : Nat} {l : List Nat} (hnodup : l.Nodup) (hl : ∀ a ∈ l, lo ≤ a ∧ a < lo + n) :
    l.length ≤ n := by
  have hsub : l.toFinset ⊆ Finset.Ico lo (lo + n) := by
    intro a ha
    rw [List.mem_toFinset] at ha
    exact Finset.mem_Ico.mpr (hl a ha)
  have hcard := Finset.card_le_card hsub
  rwa [List.toFinset_card_of_nodup hnodup, Nat.card_Ico, Nat.add_sub_cancel_left] at hcard

/-! ### Several runs -/

/-- The addresses `lo` to `hi`, with slots from `fo` on. -/
structure Run where
  lo : Nat
  fo : Nat
  hi : Nat
  deriving DecidableEq, Repr

def allSlots (runs : List Run) (sz : Nat) : List Nat := runs.flatMap fun r => slots r.fo r.hi sz

/-- Runs that share no address, each with its slots inside. -/
structure RunsOk (runs : List Run) : Prop where
  le : ∀ r ∈ runs, r.lo ≤ r.fo
  apart : runs.Pairwise fun r r' => r.hi < r'.lo ∨ r'.hi < r.lo

section Runs

variable {runs : List Run} {r r' : Run}

theorem mem_allSlots : a ∈ allSlots runs sz ↔ ∃ r ∈ runs, a ∈ slots r.fo r.hi sz := by
  simp only [allSlots, List.mem_flatMap]

theorem RunsOk.bounds (h : RunsOk runs) (hsz : 0 < sz) (hr : r ∈ runs) (ha : a ∈ slots r.fo r.hi sz) :
    r.lo ≤ a ∧ a + sz ≤ r.hi := by
  obtain ⟨hlo, hhi, -⟩ := (mem_slots hsz).mp ha
  exact ⟨(h.le r hr).trans hlo, hhi⟩

theorem RunsOk.eq_of_mem (h : RunsOk runs) (hr : r ∈ runs) (hr' : r' ∈ runs) (hlo : r.lo ≤ a) (hhi : a ≤ r.hi)
    (hlo' : r'.lo ≤ a) (hhi' : a ≤ r'.hi) : r = r' := by
  by_contra hne
  have hsymm : Std.Symm fun r r' : Run => r.hi < r'.lo ∨ r'.hi < r.lo := ⟨fun _ _ => Or.symm⟩
  have hapart := h.apart.forall hr hr' hne
  omega

theorem RunsOk.mem_allSlots_iff (h : RunsOk runs) (hsz : 0 < sz) (hr : r ∈ runs) (hlo : r.lo ≤ a) (hhi : a ≤ r.hi) :
    a ∈ allSlots runs sz ↔ a ∈ slots r.fo r.hi sz := by
  rw [mem_allSlots]
  constructor
  · rintro ⟨r', hr', ha⟩
    obtain ⟨hlo', hhi'⟩ := h.bounds hsz hr' ha
    rw [h.eq_of_mem hr hr' hlo hhi hlo' (by omega)]
    exact ha
  · exact fun ha => ⟨r, hr, ha⟩

theorem RunsOk.nodup_allSlots (h : RunsOk runs) (hsz : 0 < sz) : (allSlots runs sz).Nodup := by
  refine List.nodup_flatMap.mpr ⟨fun r _ => nodup_slots hsz, ?_⟩
  refine h.apart.imp_of_mem fun {r r'} hr hr' hapart a ha ha' => ?_
  obtain ⟨hlo, hhi⟩ := h.bounds hsz hr ha
  obtain ⟨hlo', hhi'⟩ := h.bounds hsz hr' ha'
  omega

theorem RunsOk.slots_apart (h : RunsOk runs) (hsz : 0 < sz) (ha : a ∈ allSlots runs sz) (hb : b ∈ allSlots runs sz)
    (hne : a ≠ b) : a + sz ≤ b ∨ b + sz ≤ a := by
  obtain ⟨r, hr, har⟩ := mem_allSlots.mp ha
  obtain ⟨hlo, hhi⟩ := h.bounds hsz hr har
  by_cases hin : r.lo ≤ b ∧ b ≤ r.hi
  · exact Lib.slots_apart hsz har ((h.mem_allSlots_iff hsz hr hin.1 hin.2).mp hb) hne
  · obtain ⟨r', hr', hbr⟩ := mem_allSlots.mp hb
    obtain ⟨hlo', hhi'⟩ := h.bounds hsz hr' hbr
    have hsymm : Std.Symm fun r r' : Run => r.hi < r'.lo ∨ r'.hi < r.lo := ⟨fun _ _ => Or.symm⟩
    have hrr : r ≠ r' := by
      rintro rfl
      omega
    have hapart := h.apart.forall hr hr' hrr
    omega

end Runs

end Cosmos.Lib
