import Mathlib.Tactic

/-!
# UTF-8 as first defined

A code point below `2 ^ 31` is written in one to six bytes: the first byte tells how many there are and holds the
highest bits, each further byte is `0b10xxxxxx` with six bits. `leadLen` reads the number off a first byte, and
`Whole` says of bytes that they are cut into sequences of the lengths that their first bytes tell.
-/

namespace Cosmos.Lib.Utf8

def tail (c k : Nat) : UInt8 := UInt8.ofNat (0x80 + c / 64 ^ k % 64)

def tails (c : Nat) : Nat → List UInt8
  | 0 => []
  | k + 1 => tail c k :: tails c k

/-- The encoding of a code point up to `0x7fffffff`. -/
def encode (c : Nat) : List UInt8 :=
  if c < 0x80 then [UInt8.ofNat c]
  else if c < 0x800 then UInt8.ofNat (0xc0 + c / 64) :: tails c 1
  else if c < 0x10000 then UInt8.ofNat (0xe0 + c / 64 ^ 2) :: tails c 2
  else if c < 0x200000 then UInt8.ofNat (0xf0 + c / 64 ^ 3) :: tails c 3
  else if c < 0x4000000 then UInt8.ofNat (0xf8 + c / 64 ^ 4) :: tails c 4
  else UInt8.ofNat (0xfc + c / 64 ^ 5) :: tails c 5

/-- The length of the sequence that a first byte announces, `0` if no sequence begins with it. -/
def leadLen (b : UInt8) : Nat :=
  if b < 0x80 then 1
  else if b < 0xc0 then 0
  else if b < 0xe0 then 2
  else if b < 0xf0 then 3
  else if b < 0xf8 then 4
  else if b < 0xfc then 5
  else if b < 0xfe then 6
  else 0

/-- Bytes that are cut into sequences of the announced lengths; what the further bytes are is left open. -/
inductive Whole : List UInt8 → Prop
  | nil : Whole []
  | cons {b : UInt8} {t s : List UInt8} (hlen : leadLen b = t.length + 1) (hs : Whole s) : Whole (b :: t ++ s)

theorem exists_cut {b : UInt8} {t : List UInt8} (h0 : leadLen b ≠ 0) (hle : leadLen b ≤ t.length + 1) :
    ∃ u v, t = u ++ v ∧ leadLen b = u.length + 1 := by
  refine ⟨t.take (leadLen b - 1), t.drop (leadLen b - 1), (List.take_append_drop _ _).symm, ?_⟩
  rw [List.length_take]
  omega

theorem toNat_ofNat {n : Nat} (h : n < 256) : (UInt8.ofNat n).toNat = n := by
  simp [Nat.mod_eq_of_lt h]

theorem toNat_tail (c k : Nat) : (tail c k).toNat = 0x80 + c / 64 ^ k % 64 := toNat_ofNat (by omega)

theorem ne_zero_of_toNat {b : UInt8} (h : 0 < b.toNat) : b ≠ 0 := by
  rintro rfl
  simp at h

theorem tails_ne_zero (c k : Nat) : ∀ b ∈ tails c k, b ≠ 0 := by
  induction k with
  | zero => simp [tails]
  | succ k ih =>
    have htail : tail c k ≠ 0 := ne_zero_of_toNat (by rw [toNat_tail]; omega)
    exact List.forall_mem_cons.mpr ⟨htail, ih⟩

theorem encode_ne_zero {c : Nat} (h0 : c ≠ 0) (hc : c ≤ 0x7fffffff) : ∀ b ∈ encode c, b ≠ 0 := by
  have hlead {n : Nat} (h : 0 < n) (h' : n < 256) : UInt8.ofNat n ≠ 0 :=
    ne_zero_of_toNat (by rw [toNat_ofNat h']; exact h)
  unfold encode
  split_ifs
  · exact List.forall_mem_singleton.mpr (hlead (by omega) (by omega))
  all_goals exact List.forall_mem_cons.mpr ⟨hlead (by omega) (by omega), tails_ne_zero c _⟩

theorem length_tails (c k : Nat) : (tails c k).length = k := by
  induction k with
  | zero => rfl
  | succ k ih => rw [tails, List.length_cons, ih]

theorem length_encode_pos (c : Nat) : 0 < (encode c).length := by
  unfold encode
  split_ifs <;> simp

end Cosmos.Lib.Utf8
