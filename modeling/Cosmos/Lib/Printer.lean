import Cosmos.Lib.Run

/-!
# Printers

A printer is given the room left in a buffer, writes from where the last one stopped, and halts where it would write
past the end. It may read its arguments on the way, and counts what it reads. `Prints p out n` says that `p` writes
`out` wherever that fits and reads `n` cells; one printer after another prints the concatenation (`Prints.andThen`).
-/

namespace Cosmos.Lib

variable {α : Type}

/-- From the room left, what is written and how many cells of the arguments are read. -/
abbrev Printer (α : Type) : Type := Nat → Halt (List α × Nat)

namespace Printer

def put (a : α) : Printer α
  | 0 => .error "write past the end of the buffer"
  | _ + 1 => .ok ([a], 0)

def andThen (p q : Printer α) : Printer α := fun room =>
  p room >>= fun r => q (room - r.1.length) >>= fun r' => .ok (r.1 ++ r'.1, r.2 + r'.2)

end Printer

open Printer

structure Prints (p : Printer α) (out : List α) (n : Nat) : Prop where
  fits : ∀ {k}, out.length ≤ k → p k = .ok (out, n)
  overruns : ∀ {k}, k < out.length → ∃ e, p k = .error e

variable {p q : Printer α} {out out' : List α} {n n' room : Nat} {r : List α × Nat}

namespace Prints

theorem put (a : α) : Prints (Printer.put a) [a] 0 where
  fits {room} h := by
    obtain ⟨room, rfl⟩ := Nat.exists_eq_add_of_le' h
    rfl
  overruns {room} h := by
    obtain rfl : room = 0 := Nat.lt_one_iff.mp h
    exact ⟨_, rfl⟩

theorem andThen (hp : Prints p out n) (hq : Prints q out' n') : Prints (p.andThen q) (out ++ out') (n + n') where
  fits {room} h := by
    rw [List.length_append] at h
    have hrest : q (room - out.length) = .ok (out', n') := hq.fits (by omega)
    rw [Printer.andThen, hp.fits (by omega), Halt.ok_bind, hrest]
    rfl
  overruns {room} h := by
    rw [List.length_append] at h
    rw [Printer.andThen]
    by_cases hroom : out.length ≤ room
    · obtain ⟨e, he⟩ := hq.overruns (k := room - out.length) (by omega)
      exact ⟨e, by rw [hp.fits hroom, Halt.ok_bind, he]; rfl⟩
    · obtain ⟨e, he⟩ := hp.overruns (k := room) (by omega)
      exact ⟨e, by rw [he]; rfl⟩

theorem ok_iff (hp : Prints p out n) : p room = .ok r ↔ out.length ≤ room ∧ r = (out, n) := by
  by_cases hroom : out.length ≤ room
  · rw [hp.fits hroom, Except.ok.injEq, eq_comm]
    exact ⟨fun h => ⟨hroom, h⟩, fun h => h.2⟩
  · obtain ⟨e, he⟩ := hp.overruns (k := room) (by omega)
    rw [he]
    exact iff_of_false (fun h => by cases h) fun h => hroom h.1

end Prints

theorem Printer.of_andThen (h : p.andThen q room = .ok r) :
    ∃ r₁ r₂, p room = .ok r₁ ∧ q (room - r₁.1.length) = .ok r₂ ∧ r = (r₁.1 ++ r₂.1, r₁.2 + r₂.2) := by
  obtain ⟨r₁, hp, h⟩ := Halt.bind_eq_ok h
  obtain ⟨r₂, hq, h⟩ := Halt.bind_eq_ok h
  exact ⟨r₁, r₂, hp, hq, (Except.ok.inj h).symm⟩

end Cosmos.Lib
