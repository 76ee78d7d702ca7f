import Mathlib.Algebra.Order.Ring.Nat
import Mathlib.Data.Nat.ModEq
import Mathlib.Tactic.Ring
import Mathlib.Order.Interval.Set.Defs
import Cosmos.Lib.Tiling

/-!
# Aligned blocks of powers of two

A cell `(x, j)` is the interval of `2 ^ j` numbers from `x` on. Aligned cells that tile `[0, 2 ^ K)`, no two of one
size side by side, are the whole interval: the buddy of a smallest cell would be a cell of the same size. An interval
of any length is cut into cells as its length is into powers of two.
-/

namespace Cosmos.Lib

def cell (p : Nat × Nat) : Set Nat := { i | p.1 ≤ i ∧ i < p.1 + 2 ^ p.2 }

theorem cell_end_le {x j z i : Nat} (hx : 2 ^ j ∣ x) (hz : 2 ^ i ∣ z) (hji : j ≤ i) (hlt : x < z + 2 ^ i) :
    x + 2 ^ j ≤ z + 2 ^ i := by
  obtain ⟨c, hc⟩ : 2 ^ j ∣ z + 2 ^ i := by
    have hpow := Nat.pow_dvd_pow 2 hji
    exact Nat.dvd_add (hpow.trans hz) hpow
  obtain ⟨d, rfl⟩ := hx
  rw [hc] at hlt ⊢
  have hdc : d < c := Nat.lt_of_mul_lt_mul_left hlt
  calc 2 ^ j * d + 2 ^ j = 2 ^ j * (d + 1) := by ring
    _ ≤ 2 ^ j * c := Nat.mul_le_mul_left _ hdc

theorem cell_subset_of_meets {w j z i y : Nat} (hw : 2 ^ j ∣ w) (hz : 2 ^ i ∣ z) (hji : j ≤ i) (hy : y ∈ cell (w, j))
    (hyz : y ∈ cell (z, i)) : cell (w, j) ⊆ cell (z, i) := by
  obtain ⟨hwy, hyw⟩ := hy
  obtain ⟨hzy, hyz⟩ := hyz
  simp only at hwy hyw hzy hyz
  have hzw : z ≤ w := by
    by_contra hlt
    have hend := cell_end_le (i := j) (z := w) (x := z) ((Nat.pow_dvd_pow 2 hji).trans hz) hw le_rfl (by omega)
    have hpos := Nat.two_pow_pos j
    omega
  have hend := cell_end_le hw hz hji (by omega)
  intro n hn
  simp only [cell, Set.mem_ofPred_eq] at hn ⊢
  omega

/-- **Aligned cells without equal neighbours.** -/
theorem whole_mem_of_alone {T : Set (Nat × Nat)} {K : Nat} (htile : Tiling cell (Set.Iio (2 ^ K)) T)
    (halign : ∀ p ∈ T, 2 ^ p.2 ∣ p.1) (halone : ∀ x j, (x, j) ∈ T → (x + 2 ^ j, j) ∉ T) : (0, K) ∈ T := by
  classical
  -- a cell of the smallest size
  have hex : ∃ j x, (x, j) ∈ T := by
    obtain ⟨p, hp, -⟩ := (htile.cover 0).mp (Set.mem_Iio.mpr (Nat.two_pow_pos K))
    exact ⟨p.2, p.1, hp⟩
  obtain ⟨x, hxT⟩ := Nat.find_spec hex
  have hmin : ∀ z i, (z, i) ∈ T → Nat.find hex ≤ i := fun z i hz => Nat.find_min' hex ⟨z, hz⟩
  generalize Nat.find hex = j at hxT hmin
  have hxlt : x < 2 ^ K := htile.mem_of_mem hxT ⟨le_rfl, Nat.lt_add_of_pos_right (Nat.two_pow_pos j)⟩
  have hxend : x + 2 ^ j - 1 < 2 ^ K := htile.mem_of_mem hxT
    ⟨by have := Nat.two_pow_pos j; simp only; omega, by have := Nat.two_pow_pos j; simp only; omega⟩
  have hjK : j ≤ K := by
    by_contra hlt
    have hpow : 2 ^ K < 2 ^ j := Nat.pow_lt_pow_right (by omega) (by omega)
    omega
  rcases hjK.eq_or_lt with rfl | hlt
  · obtain ⟨c, hc⟩ := halign _ hxT
    simp only at hc
    have hzero : x = 0 := by
      rcases c.eq_zero_or_pos with rfl | hcpos
      · simpa using hc
      · have := Nat.le_mul_of_pos_right (2 ^ j) hcpos
        omega
    rwa [hzero] at hxT
  · -- the cell of twice the size around it, and the other half of that
    exfalso
    have hpow : 2 ^ (j + 1) = 2 ^ j + 2 ^ j := by ring
    have hjpos := Nat.two_pow_pos j
    obtain ⟨c, hc⟩ := halign _ hxT
    simp only at hc
    obtain ⟨w, hw, hbuddy⟩ : ∃ w, 2 ^ (j + 1) ∣ w ∧ (x = w ∨ x = w + 2 ^ j) := by
      refine ⟨2 ^ (j + 1) * (c / 2), Nat.dvd_mul_right _ _, ?_⟩
      rcases Nat.mod_two_eq_zero_or_one c with h0 | h1
      · left
        rw [hc, hpow]
        nth_rewrite 1 [show c = 2 * (c / 2) by omega]
        ring
      · right
        rw [hc, hpow]
        nth_rewrite 1 [show c = 2 * (c / 2) + 1 by omega]
        ring
    have hwend : w + 2 ^ (j + 1) ≤ 2 ^ K := by
      have := cell_end_le (z := 0) (i := K) hw (Nat.dvd_zero _) (by omega) (by omega)
      omega
    obtain ⟨y, hyw, hyx⟩ : ∃ y, y ∈ cell (w, j + 1) ∧ ((x = w ∧ y = w + 2 ^ j) ∨ (x = w + 2 ^ j ∧ y = w)) := by
      rcases hbuddy with h | h
      · exact ⟨w + 2 ^ j, ⟨by simp only; omega, by simp only; omega⟩, .inl ⟨h, rfl⟩⟩
      · exact ⟨w, ⟨le_rfl, by simp only; omega⟩, .inr ⟨h, rfl⟩⟩
    have hxw : x ∈ cell (w, j + 1) := by
      refine ⟨?_, ?_⟩ <;> simp only <;> omega
    obtain ⟨⟨z, i⟩, hzT, hyz⟩ := (htile.cover y).mp (Set.mem_Iio.mpr (by
      have := hyw.2
      simp only at this
      omega))
    have hji := hmin z i hzT
    rcases hji.eq_or_lt with rfl | hlt'
    · -- the other half is a cell
      have hydvd : 2 ^ j ∣ y := by
        have hw' : 2 ^ j ∣ w := (Nat.pow_dvd_pow 2 (Nat.le_succ j)).trans hw
        rcases hyx with ⟨-, rfl⟩ | ⟨-, rfl⟩
        · exact Nat.dvd_add hw' dvd_rfl
        · exact hw'
      have hzy : z = y := by
        have hzdvd := halign _ hzT
        simp only at hzdvd
        have hend := cell_end_le hydvd hzdvd le_rfl hyz.2
        have := hyz.1
        simp only at this
        omega
      subst hzy
      rcases hyx with ⟨hx, hy⟩ | ⟨hx, hy⟩
      · exact halone x j hxT (by rw [hx, ← hy]; exact hzT)
      · exact halone z j hzT (by rw [hy, ← hx]; exact hxT)
    · -- a larger cell would hold the smallest one too
      have hsub := cell_subset_of_meets hw (halign _ hzT) hlt' hyw hyz
      have heq := htile.once _ hxT _ hzT x ⟨le_rfl, by simp only; omega⟩ (hsub hxw)
      injection heq with _ hij
      omega

/-! ### The binary expansion of a length -/

section Cut

variable {m n k x k' x' : Nat}

/-- The interval of `n` numbers from `m` on, cut into cells of decreasing size: bit `k` of `n` is the cell `(x, k)`, and
the cells of the higher bits come before it. -/
def InCut (m n k x : Nat) : Prop := n.testBit k = true ∧ x = m + n / 2 ^ (k + 1) * 2 ^ (k + 1)

instance (m n k x : Nat) : Decidable (InCut m n k x) := inferInstanceAs (Decidable (_ ∧ _))

theorem inCut_first (hlo : 2 ^ k ≤ n) (hhi : n < 2 ^ (k + 1)) : InCut m n k m :=
  ⟨Nat.testBit_of_two_pow_le_and_two_pow_add_one_gt hlo hhi, by rw [Nat.div_eq_of_lt hhi, Nat.zero_mul, Nat.add_zero]⟩

theorem InCut.of_rest (hlo : 2 ^ k ≤ n) (hhi : n < 2 ^ (k + 1)) (h : InCut (m + 2 ^ k) (n - 2 ^ k) k' x) :
    InCut m n k' x := by
  obtain ⟨hbit, rfl⟩ := h
  have hrest : n - 2 ^ k = n % 2 ^ k := by
    rw [pow_succ] at hhi
    rw [Nat.mod_eq_sub_mod hlo, Nat.mod_eq_of_lt (by omega)]
  rw [hrest, Nat.testBit_mod_two_pow, Bool.and_eq_true, decide_eq_true_iff] at hbit
  refine ⟨hbit.2, ?_⟩
  have hdvd : 2 ^ (k' + 1) ∣ 2 ^ k := Nat.pow_dvd_pow 2 hbit.1
  have hdiv : n / 2 ^ (k' + 1) = 2 ^ k / 2 ^ (k' + 1) + (n - 2 ^ k) / 2 ^ (k' + 1) := by
    rw [← Nat.add_div_of_dvd_right hdvd, Nat.add_sub_cancel' hlo]
  rw [hdiv, Nat.add_mul, Nat.div_mul_cancel hdvd, Nat.add_assoc]

theorem InCut.add_mod (h : InCut m n k x) : x + n % 2 ^ (k + 1) = m + n ∧ n % 2 ^ (k + 1) = n % 2 ^ k + 2 ^ k := by
  obtain ⟨hbit, rfl⟩ := h
  refine ⟨?_, ?_⟩
  · rw [Nat.add_assoc, Nat.div_add_mod']
  · rw [Nat.testBit_eq_decide_div_mod_eq, decide_eq_true_iff] at hbit
    rw [Nat.mod_pow_succ, hbit, Nat.mul_one]

theorem InCut.bounds (h : InCut m n k x) : m ≤ x ∧ x + 2 ^ k ≤ m + n := by
  obtain ⟨hadd, hmod⟩ := h.add_mod
  have hle := Nat.mod_le n (2 ^ (k + 1))
  omega

theorem mod_two_pow_le (n : Nat) (h : k ≤ k') : n % 2 ^ k ≤ n % 2 ^ k' := by
  rw [← Nat.mod_mod_of_dvd n (Nat.pow_dvd_pow 2 h)]
  exact Nat.mod_le _ _

theorem InCut.unique (h : InCut m n k x) (h' : InCut m n k' x') (hlo : x' ≤ x) (hhi : x < x' + 2 ^ k') :
    k = k' ∧ x = x' := by
  obtain ⟨hadd, hmod⟩ := h.add_mod
  obtain ⟨hadd', hmod'⟩ := h'.add_mod
  have hpos := Nat.two_pow_pos k
  rcases Nat.lt_trichotomy k k' with hlt | rfl | hgt
  · -- a lower bit is behind
    have hle := mod_two_pow_le n (show k + 1 ≤ k' by omega)
    omega
  · exact ⟨rfl, by omega⟩
  · have hle := mod_two_pow_le n (show k' + 1 ≤ k by omega)
    omega

end Cut

end Cosmos.Lib
