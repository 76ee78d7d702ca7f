import Cosmos.Lib.Run

/-!
# What was made and what was given back

A ledger numbers the things a program makes in the order in which it makes them and notes which it gives back.
`Settles x y given kept`: between `x` and `y` a program that held `given` has given back everything it held or made,
each thing once, but for `kept`. The relation composes, and what a program does not touch can be added on both sides.
`Erases f x x'`: the program that keeps a ledger does, without it, what the other one does.
-/

namespace Cosmos.Lib

/-- How many things were made, and the numbers of those given back. -/
structure Ledger where
  born : Nat
  freed : List Nat
  deriving DecidableEq

def Ledger.make (x : Ledger) : Ledger := { x with born := x.born + 1 }

def Ledger.giveBack (x : Ledger) (i : Nat) : Ledger := { x with freed := x.freed ++ [i] }

/-- What was given back and what is kept are, each once, what was given and what was made. -/
structure Settles (x y : Ledger) (given kept : List Nat) : Prop where
  le : x.born ≤ y.born
  once : ∃ l, y.freed = x.freed ++ l ∧ (l ++ kept).Perm (given ++ List.range' x.born (y.born - x.born))

namespace Settles

variable {x y z : Ledger} {given kept kept' : List Nat}

theorem refl (x : Ledger) (given : List Nat) : Settles x x given given :=
  ⟨Nat.le_refl _, [], (List.append_nil _).symm, by simp⟩

theorem make (x : Ledger) (given : List Nat) : Settles x x.make given (x.born :: given) := by
  refine ⟨Nat.le_succ _, [], (List.append_nil _).symm, ?_⟩
  have hone : x.make.born - x.born = 1 := Nat.add_sub_cancel_left _ _
  rw [hone, List.range'_one, List.nil_append]
  exact (List.perm_append_singleton x.born given).symm

theorem giveBack (x : Ledger) (i : Nat) (given : List Nat) : Settles x (x.giveBack i) (i :: given) given := by
  refine ⟨Nat.le_refl _, [i], rfl, ?_⟩
  have hzero : (x.giveBack i).born - x.born = 0 := Nat.sub_self _
  rw [hzero, List.range'_zero, List.append_nil]
  exact List.Perm.refl _

theorem trans (h : Settles x y given kept) (h' : Settles y z kept kept') : Settles x z given kept' := by
  obtain ⟨hle, l, hfreed, hperm⟩ := h
  obtain ⟨hle', l', hfreed', hperm'⟩ := h'
  refine ⟨Nat.le_trans hle hle', l ++ l', ?_, ?_⟩
  · rw [hfreed', hfreed, List.append_assoc]
  · have hrange : List.range' x.born (z.born - x.born) =
        List.range' x.born (y.born - x.born) ++ List.range' y.born (z.born - y.born) := by
      rw [show z.born - x.born = (y.born - x.born) + (z.born - y.born) by omega, ← List.range'_append_1,
        Nat.add_sub_cancel' hle]
    -- first what the second part gave back, then what the first did
    have hsnd : (l ++ (l' ++ kept')).Perm (l ++ kept ++ List.range' y.born (z.born - y.born)) := by
      rw [List.append_assoc]
      exact hperm'.append_left l
    rw [hrange, ← List.append_assoc, List.append_assoc l]
    exact hsnd.trans (hperm.append_right _)

theorem frame (h : Settles x y given kept) (r : List Nat) : Settles x y (given ++ r) (kept ++ r) := by
  obtain ⟨hle, l, hfreed, hperm⟩ := h
  refine ⟨hle, l, hfreed, ?_⟩
  have hswap : (List.range' x.born (y.born - x.born) ++ r).Perm (r ++ List.range' x.born (y.born - x.born)) :=
    List.perm_append_comm
  rw [← List.append_assoc, List.append_assoc given]
  refine (hperm.append_right r).trans ?_
  rw [List.append_assoc]
  exact hswap.append_left given

theorem perm (h : Settles x y given kept) (hperm : kept.Perm kept') : Settles x y given kept' := by
  obtain ⟨hle, l, hfreed, hl⟩ := h
  exact ⟨hle, l, hfreed, (hperm.symm.append_left l).trans hl⟩

theorem after {a r : List Nat} (h' : Settles y z a kept) (h : Settles x y given (a ++ r)) :
    Settles x z given (kept ++ r) :=
  h.trans (h'.frame r)

theorem length_eq (h : Settles x y given kept) (h' : Settles x y given kept') : kept.length = kept'.length := by
  obtain ⟨-, l, hfreed, hperm⟩ := h
  obtain ⟨-, l', hfreed', hperm'⟩ := h'
  obtain rfl : l = l' := List.append_cancel_left (hfreed.symm.trans hfreed')
  have hlen := (hperm.trans hperm'.symm).length_eq
  rw [List.length_append, List.length_append] at hlen
  exact Nat.add_left_cancel hlen

end Settles

/-! ### Without the ledger -/

/-- Up to `f`, `x` computes what `x'` computes, and halts where it does. -/
def Erases {α β : Type} (f : α → β) (x : Halt α) (x' : Halt β) : Prop := x.map f = x'

namespace Erases

variable {α β γ δ : Type} {f : α → β} {g : γ → δ} {x : Halt α} {x' : Halt β} {k : α → Halt γ} {k' : β → Halt δ}

theorem bind (hx : Erases f x x') (hk : ∀ a, Erases g (k a) (k' (f a))) : Erases g (x >>= k) (x' >>= k') := by
  cases x with
  | error e =>
    obtain rfl : Except.error e = x' := hx
    rfl
  | ok a =>
    obtain rfl : Except.ok (f a) = x' := hx
    exact hk a

theorem ok (hx : Erases f x x') {a : α} (h : x = .ok a) : x' = .ok (f a) := by
  subst h
  exact hx.symm

end Erases

end Cosmos.Lib
