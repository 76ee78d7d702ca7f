import Cosmos.Lib.Run

/-!
# Postconditions of computations that may halt

`Yields ok x Q`: whatever `x` returns satisfies `Q`, and under `ok` it does return. The assumption `ok` stays the same
along a computation, so one proof of a function serves the runs in which nothing fails and the runs in which anything
may. `Exact P x a`: `x` returns `a` if `P` and halts if not; along a computation these conditions add up (`Exact.bind`).
-/

namespace Cosmos.Lib

/-- `Q` holds of what `x` returns, and `x` returns if `ok`. -/
structure Yields {α : Type} (ok : Prop) (x : Halt α) (Q : α → Prop) : Prop where
  post : ∀ a, x = .ok a → Q a
  returns : ok → ∃ a, x = .ok a

namespace Yields

variable {α β : Type} {ok ok' : Prop} {x : Halt α} {f : α → Halt β} {Q Q' : α → Prop} {R : β → Prop} {a : α}

theorem pure (h : Q a) : Yields ok (.ok a) Q where
  post := fun _ hb => Except.ok.inj hb ▸ h
  returns := fun _ => ⟨a, rfl⟩

theorem halt {e : String} (h : ¬ ok) : Yields ok (.error e : Halt α) Q where
  post := by
    intro a ha
    cases ha
  returns := fun hok => absurd hok h

theorem bind (hx : Yields ok x Q) (hf : ∀ a, Q a → Yields ok (f a) R) : Yields ok (x >>= f) R := by
  constructor
  · intro b hb
    obtain ⟨a, ha, hb⟩ := Halt.bind_eq_ok hb
    exact (hf a (hx.post a ha)).post b hb
  · intro hok
    obtain ⟨a, ha⟩ := hx.returns hok
    obtain ⟨b, hb⟩ := (hf a (hx.post a ha)).returns hok
    exact ⟨b, (Halt.bind_of_ok ha f).trans hb⟩

theorem self (hx : Yields ok x Q) : Yields ok x fun a => x = .ok a ∧ Q a :=
  ⟨fun a ha => ⟨ha, hx.post a ha⟩, hx.returns⟩

theorem imp (hx : Yields ok x Q) (h : ∀ a, Q a → Q' a) : Yields ok x Q' :=
  ⟨fun a ha => h a (hx.post a ha), hx.returns⟩

theorem weaken (hx : Yields ok x Q) (h : ok' → ok) : Yields ok' x Q :=
  ⟨hx.post, fun hok => hx.returns (h hok)⟩

end Yields

/-- `x` returns `a` if `P`, and halts otherwise. -/
structure Exact {α : Type} (P : Prop) (x : Halt α) (a : α) : Prop where
  returns : P → x = .ok a
  halts : ¬ P → ∃ e, x = .error e

namespace Exact

variable {α β : Type} {P Q : Prop} {x : Halt α} {f : α → Halt β} {a a' : α} {b : β}

theorem pure : Exact True (.ok a) a := ⟨fun _ => rfl, fun h => absurd trivial h⟩

theorem bind (hx : Exact P x a) (hf : P → Exact Q (f a) b) : Exact (P ∧ Q) (x >>= f) b := by
  by_cases hP : P
  · rw [hx.returns hP, Halt.ok_bind]
    exact ⟨fun h => (hf hP).returns h.2, fun h => (hf hP).halts fun hQ => h ⟨hP, hQ⟩⟩
  · obtain ⟨e, he⟩ := hx.halts hP
    rw [he, Halt.error_bind]
    exact ⟨fun h => absurd h.1 hP, fun _ => ⟨e, rfl⟩⟩

theorem of_ok (hx : Exact P x a) (h : x = .ok a') : P ∧ a' = a := by
  by_cases hP : P
  · exact ⟨hP, Except.ok.inj (h.symm.trans (hx.returns hP))⟩
  · obtain ⟨e, he⟩ := hx.halts hP
    rw [he] at h
    cases h

theorem returns_iff (hx : Exact P x a) : (∃ a, x = .ok a) ↔ P :=
  ⟨fun ⟨_, h⟩ => (hx.of_ok h).1, fun hP => ⟨a, hx.returns hP⟩⟩

theorem returns_bind (hx : Exact P x a) : (∃ b, (x >>= f) = .ok b) ↔ P ∧ ∃ b, f a = .ok b := by
  constructor
  · rintro ⟨b, h⟩
    obtain ⟨a', ha, hb⟩ := Halt.bind_eq_ok h
    obtain ⟨hP, rfl⟩ := hx.of_ok ha
    exact ⟨hP, b, hb⟩
  · rintro ⟨hP, b, hb⟩
    exact ⟨b, (Halt.bind_of_ok (hx.returns hP) f).trans hb⟩

theorem congr (hx : Exact P x a) (hP : Q ↔ P) (ha : Q → a' = a) : Exact Q x a' :=
  ⟨fun hQ => (ha hQ).symm ▸ hx.returns (hP.mp hQ), fun hQ => hx.halts fun h => hQ (hP.mpr h)⟩

end Exact

def Given {α : Type} (ok : Prop) (r : Option α) (a : α) : Prop := r = some a ∨ (r = none ∧ ¬ ok)

end Cosmos.Lib
