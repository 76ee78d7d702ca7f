import Cosmos.Lib.Bytes

/-!
# Copies between ranges that overlap

A copy byte by byte reads what it has not overwritten yet if it goes upwards to a lower place or downwards to a higher
one (`copyUp_eq`, `copyDown_eq`). Addresses are taken modulo the size of the address space; what holds of a memory and
of every single write in it holds after the copy (`copyUp_inv`, `copyDown_inv`).
-/

namespace Cosmos.Lib

variable {m : Nat → UInt8} {size src dst n : Nat}

def copyUp (size src dst : Nat) : Nat → (Nat → UInt8) → Nat → UInt8
  | 0, m => m
  | n + 1, m =>
    Function.update (copyUp size src dst n m) ((dst + n) % size) (copyUp size src dst n m ((src + n) % size))

def copyDown (size src dst : Nat) : Nat → (Nat → UInt8) → Nat → UInt8
  | 0, m => m
  | n + 1, m => copyDown size src dst n (Function.update m ((dst + n) % size) (m ((src + n) % size)))

section Inv

variable {J : (Nat → UInt8) → Prop}

theorem copyUp_inv (hstep : ∀ m k, J m → J (Function.update m ((dst + k) % size) (m ((src + k) % size)))) (n : Nat)
    (h : J m) : J (copyUp size src dst n m) := by
  induction n with
  | zero => exact h
  | succ n ih => exact hstep _ n ih

theorem copyDown_inv (hstep : ∀ m k, J m → J (Function.update m ((dst + k) % size) (m ((src + k) % size)))) (n : Nat)
    (h : J m) : J (copyDown size src dst n m) := by
  induction n generalizing m with
  | zero => exact h
  | succ n ih => exact ih (hstep m n h)

end Inv

theorem blit_zero (src m : Nat → UInt8) (o : Nat) : blit src m o 0 = m := by
  funext i
  exact blit_of_outside (by omega)

theorem blit_succ (src m : Nat → UInt8) (o n : Nat) :
    Function.update (blit src m o n) (o + n) (src n) = blit src m o (n + 1) := by
  funext i
  by_cases hi : i = o + n
  · subst hi
    rw [Function.update_self, blit_add (Nat.lt_succ_self n)]
  · rw [Function.update_of_ne hi]
    unfold blit
    refine if_congr ?_ rfl rfl
    omega

theorem copyUp_eq (hs : src + n ≤ size) (hd : dst + n ≤ size) (h : dst ≤ src) :
    copyUp size src dst n m = blit (fun i => m (src + i)) m dst n := by
  induction n with
  | zero => exact (blit_zero _ m dst).symm
  | succ n ih =>
    have hread : blit (fun i => m (src + i)) m dst n (src + n) = m (src + n) := blit_of_outside (by omega)
    rw [copyUp, ih (by omega) (by omega), Nat.mod_eq_of_lt (by omega), Nat.mod_eq_of_lt (by omega), hread]
    exact blit_succ (fun i => m (src + i)) m dst n

theorem copyDown_eq (hs : src + n ≤ size) (hd : dst + n ≤ size) (h : src ≤ dst) :
    copyDown size src dst n m = blit (fun i => m (src + i)) m dst n := by
  induction n generalizing m with
  | zero => exact (blit_zero _ m dst).symm
  | succ n ih =>
    rw [copyDown, ih (by omega) (by omega), Nat.mod_eq_of_lt (by omega), Nat.mod_eq_of_lt (by omega),
      ← blit_succ (fun i => m (src + i)) m dst n]
    funext a
    by_cases ha : a = dst + n
    · subst ha
      rw [blit_of_outside (by omega), Function.update_self, Function.update_self]
    · rw [Function.update_of_ne ha]
      unfold blit
      split_ifs with hin
      · exact Function.update_of_ne (by omega) ..
      · exact Function.update_of_ne ha ..

end Cosmos.Lib
