import Mathlib.Tactic.Common
import Mathlib.Data.List.Basic

/-!
# Computations that may stop the machine, and runs of a step

`Halt α` is a computation that returns an `α` or stops the machine with a message and never returns.
`Trace step s is t`: the step relation takes `s` to `t` through the inputs `is`. An invariant that every
step keeps holds at the end of every trace (`Trace.inv`), and a step that never stops the machine under
its invariant runs to the end on every list of inputs (`runHalt_inv`). `Along step P s is`: `P` holds at every
step of a run. A register that some inputs set and the others leave holds what the last of them set (`foldl_last`).
-/

namespace Cosmos.Lib

abbrev Halt (α : Type) := Except String α

@[simp] theorem Halt.ok_bind {α β : Type} (a : α) (f : α → Halt β) :
    ((Except.ok a : Halt α) >>= f) = f a := rfl

@[simp] theorem Halt.error_bind {α β : Type} (e : String) (f : α → Halt β) :
    ((Except.error e : Halt α) >>= f) = Except.error e := rfl

theorem Halt.bind_of_ok {α β : Type} {x : Halt α} {a : α} (h : x = Except.ok a) (f : α → Halt β) :
    (x >>= f) = f a := by
  rw [h]
  rfl

theorem Halt.bind_eq_ok {α β : Type} {x : Halt α} {f : α → Halt β} {b : β}
    (h : (x >>= f) = Except.ok b) : ∃ a, x = Except.ok a ∧ f a = Except.ok b := by
  cases x with
  | error e => simp at h
  | ok a => exact ⟨a, rfl, h⟩

theorem Halt.pair_inj {α β : Type} {a a' : α} {b b' : β} (h : (Except.ok (a, b) : Halt (α × β)) = Except.ok (a', b')) :
    a = a' ∧ b = b' := Prod.mk.inj (Except.ok.inj h)

theorem Halt.returns_bind_ok {α β : Type} {x : Halt α} {f : α → β} :
    (∃ b, (x >>= fun a => Except.ok (f a)) = Except.ok b) ↔ ∃ a, x = Except.ok a := by
  constructor
  · rintro ⟨b, h⟩
    obtain ⟨a, ha, -⟩ := Halt.bind_eq_ok h
    exact ⟨a, ha⟩
  · rintro ⟨a, rfl⟩
    exact ⟨f a, rfl⟩

theorem Halt.exists_bind_iff {α β : Type} {x : Halt α} {f : α → Halt β} {P : β → Prop} {Q : α → Prop}
    (h : ∀ a, x = Except.ok a → ((∃ b, f a = Except.ok b ∧ P b) ↔ Q a)) :
    (∃ b, (x >>= f) = Except.ok b ∧ P b) ↔ ∃ a, x = Except.ok a ∧ Q a := by
  constructor
  · rintro ⟨b, hb, hP⟩
    obtain ⟨a, ha, hf⟩ := Halt.bind_eq_ok hb
    exact ⟨a, ha, (h a ha).mp ⟨b, hf, hP⟩⟩
  · rintro ⟨a, ha, hQ⟩
    obtain ⟨b, hf, hP⟩ := (h a ha).mpr hQ
    exact ⟨b, (Halt.bind_of_ok ha f).trans hf, hP⟩

theorem Halt.exists_of_map {α β : Type} {x : Halt α} {f : α → β} {b : β} (h : Except.map f x = .ok b) :
    ∃ a, x = .ok a ∧ f a = b := by
  cases x with
  | error e => simp [Except.map] at h
  | ok a => exact ⟨a, rfl, Except.ok.inj h⟩

variable {σ ι : Type}

/-! ### Runs of a step relation -/

/-- The states a step relation links through a list of inputs. -/
inductive Trace (step : σ → ι → σ → Prop) : σ → List ι → σ → Prop
  | nil (s : σ) : Trace step s [] s
  | cons {s t u : σ} {i : ι} {is : List ι} :
      step s i t → Trace step t is u → Trace step s (i :: is) u

theorem Trace.inv {step : σ → ι → σ → Prop} {P : ι → Prop} {J : σ → Prop}
    (hstep : ∀ s i t, P i → J s → step s i t → J t) {s t : σ} {is : List ι}
    (htrace : Trace step s is t) (his : ∀ i ∈ is, P i) (hs : J s) : J t := by
  induction htrace with
  | nil s => exact hs
  | cons h _ ih =>
    exact ih (fun i hi => his i (by simp [hi])) (hstep _ _ _ (his _ (by simp)) hs h)

theorem Trace.keeps {step : σ → ι → σ → Prop} {J : σ → Prop} (hstep : ∀ s i t, J s → step s i t → J t) {s t : σ}
    {is : List ι} (htrace : Trace step s is t) (hs : J s) : J t :=
  htrace.inv (P := fun _ => True) (fun s i t _ => hstep s i t) (fun _ _ => trivial) hs

theorem Trace.append {step : σ → ι → σ → Prop} {s t u : σ} {is js : List ι}
    (hfst : Trace step s is t) (hsnd : Trace step t js u) : Trace step s (is ++ js) u := by
  induction hfst with
  | nil s => exact hsnd
  | cons h _ ih => exact .cons h (ih hsnd)

/-! ### Runs of a step function that may halt -/

/-- Feed the inputs to the step one after another. -/
def runHalt (step : σ → ι → Halt σ) : σ → List ι → Halt σ
  | s, [] => .ok s
  | s, i :: is => step s i >>= fun t => runHalt step t is

theorem Trace.imp {step step' : σ → ι → σ → Prop} {s t : σ} {is : List ι} (h : Trace step s is t)
    (himp : ∀ s i t, step s i t → step' s i t) : Trace step' s is t := by
  induction h with
  | nil s => exact .nil s
  | cons hstep _ ih => exact .cons (himp _ _ _ hstep) ih

theorem Trace.of_runHalt {step : σ → ι → Halt σ} {ok : σ → ι → Prop} [∀ s i, Decidable (ok s i)] (is : List ι) :
    ∀ {s t : σ}, runHalt (fun s i => if ok s i then step s i else .error "") s is = .ok t →
      Trace (fun s i t => ok s i ∧ step s i = .ok t) s is t := by
  induction is with
  | nil =>
    intro s t h
    cases h
    exact .nil s
  | cons i is ih =>
    intro s t h
    obtain ⟨mid, hmid, h⟩ := Halt.bind_eq_ok h
    simp only at hmid
    split_ifs at hmid with hok
    exact .cons ⟨hok, hmid⟩ (ih h)

theorem runHalt_inv {step : σ → ι → Halt σ} {P : ι → Prop} {Inv : σ → Prop}
    (hstep : ∀ s i, P i → Inv s → ∃ t, step s i = .ok t ∧ Inv t) (is : List ι) (his : ∀ i ∈ is, P i) :
    ∀ s, Inv s → ∃ t, runHalt step s is = .ok t ∧ Inv t := by
  induction is with
  | nil => exact fun s hs => ⟨s, rfl, hs⟩
  | cons i is ih =>
    intro s hs
    obtain ⟨t, ht, hinv⟩ := hstep s i (his i (by simp)) hs
    obtain ⟨u, hu, hinv⟩ := ih (fun j hj => his j (by simp [hj])) t hinv
    refine ⟨u, ?_, hinv⟩
    rw [runHalt, ht]
    exact hu

/-! ### Registers that the last writer decides -/

theorem foldl_last {β : Type} {step : σ → ι → σ} {J : σ → Prop} {f : σ → β} {sets : ι → Bool} {val : ι → β}
    (hinv : ∀ s i, J s → J (step s i)) (hset : ∀ s i, J s → sets i = true → f (step s i) = val i)
    (hkeep : ∀ s i, J s → sets i = false → f (step s i) = f s) (is : List ι) :
    ∀ s, J s → f (is.foldl step s) = ((is.filter sets).getLast?).elim (f s) val := by
  induction is with
  | nil => exact fun _ _ => rfl
  | cons i is ih =>
    intro s hs
    rw [List.foldl_cons, ih _ (hinv s i hs)]
    cases hi : sets i with
    | false => rw [List.filter_cons_of_neg (by simp [hi]), hkeep s i hs hi]
    | true =>
      rw [List.filter_cons_of_pos hi, List.getLast?_cons, hset s i hs hi]
      cases (is.filter sets).getLast? with
      | none => rfl
      | some j => rfl

/-! ### Conditions on every step of a run -/

/-- `P` holds at every step of the run, of the state before the step and its input. -/
def Along (step : σ → ι → σ) (P : σ → ι → Prop) : σ → List ι → Prop
  | _, [] => True
  | s, i :: is => P s i ∧ Along step P (step s i) is

instance (step : σ → ι → σ) (P : σ → ι → Prop) [∀ s i, Decidable (P s i)] :
    ∀ s is, Decidable (Along step P s is)
  | _, [] => isTrue trivial
  | s, i :: is => @instDecidableAnd _ _ _ (instDecidableAlong step P (step s i) is)

theorem along_iff_never {step : σ → ι → σ} {J P : σ → Prop} {ok bad : σ → ι → Prop}
    (hinv : ∀ s i, J s → ok s i → J (step s i))
    (hstep : ∀ s i, J s → ok s i → P s → (P (step s i) ↔ ¬bad s i)) (is : List ι) :
    ∀ s, J s → P s → Along step ok s is →
      (Along step (fun s i => P (step s i)) s is ↔ Along step (fun s i => ¬bad s i) s is) := by
  induction is with
  | nil => exact fun _ _ _ _ => Iff.rfl
  | cons i is ih =>
    intro s hs hp hok
    have hiff := hstep s i hs hok.1 hp
    constructor
    · intro hall
      exact ⟨hiff.mp hall.1, (ih _ (hinv s i hs hok.1) hall.1 hok.2).mp hall.2⟩
    · intro hnever
      have hp' := hiff.mpr hnever.1
      exact ⟨hp', (ih _ (hinv s i hs hok.1) hp' hok.2).mpr hnever.2⟩

end Cosmos.Lib
