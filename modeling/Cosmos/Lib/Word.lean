import Mathlib.Tactic

/-!
# 64-bit unsigned arithmetic on naturals

A machine word is a natural below `2 ^ 64`; sums and differences wrap. An unsigned bit-field of `w` bits is computed
with in `w` bits: a shift or a difference of bit-fields wraps at the width of the field, not of the word.
-/

namespace Cosmos.Lib

def u64 (n : Nat) : Nat := n % 2 ^ 64

def u64Sub (a b : Nat) : Nat := (a + (2 ^ 64 - b)) % 2 ^ 64

def bits (w n : Nat) : Nat := n % 2 ^ w

def bitsSub (w a b : Nat) : Nat := bits w (a + (2 ^ w - b))

/-- `ALIGN(x, a)`: round up to a multiple of the power of two `a`, wrapping (`(x + a - 1) & ~(a - 1)`). -/
def alignUp (x a : Nat) : Nat := u64 (x + a - 1) / a * a

theorem u64_of_lt {n : Nat} (h : n < 2 ^ 64) : u64 n = n := Nat.mod_eq_of_lt h

theorem u64_lt (n : Nat) : u64 n < 2 ^ 64 := Nat.mod_lt _ (by norm_num)

theorem u64Sub_of_le {a b : Nat} (h : b ≤ a) (ha : a < 2 ^ 64) : u64Sub a b = a - b := by
  rw [u64Sub, show a + (2 ^ 64 - b) = (a - b) + 2 ^ 64 by omega, Nat.add_mod_right]
  exact Nat.mod_eq_of_lt (by omega)

theorem bits_of_lt {w n : Nat} (h : n < 2 ^ w) : bits w n = n := Nat.mod_eq_of_lt h

theorem bits_eq_iff {w n : Nat} : bits w n = n ↔ n < 2 ^ w := Nat.mod_eq_iff_lt (Nat.two_pow_pos w).ne'

theorem bits_lt (w n : Nat) : bits w n < 2 ^ w := Nat.mod_lt _ (Nat.two_pow_pos w)

theorem bitsSub_of_le {w a b : Nat} (h : b ≤ a) (ha : a < 2 ^ w) : bitsSub w a b = a - b := by
  rw [bitsSub, bits, show a + (2 ^ w - b) = (a - b) + 2 ^ w by omega, Nat.add_mod_right]
  exact Nat.mod_eq_of_lt (by omega)

theorem alignUp_dvd (x a : Nat) : a ∣ alignUp x a := Dvd.intro_left _ rfl

theorem alignUp_lt (x a : Nat) : alignUp x a < 2 ^ 64 :=
  lt_of_le_of_lt (Nat.div_mul_le_self _ _) (u64_lt _)

theorem alignUp_eq {x a : Nat} (h : x + a ≤ 2 ^ 64) : alignUp x a = (x + a - 1) / a * a := by
  rw [alignUp, u64_of_lt (by omega)]

end Cosmos.Lib
