import Mathlib.Data.List.Nodup
import Mathlib.Logic.Function.Basic

/-!
# Lists that share their nodes

An intrusive list links its elements through a node in the element, so an element is on at most one of the lists that
use this node. A family of such lists is a function from list heads to their elements, in order; taking an element off
does not name the list it is on.
-/

namespace Cosmos.Lib

variable {κ α : Type} [DecidableEq κ] [DecidableEq α]

def listDel (q : κ → List α) (t : α) : κ → List α := fun k => (q k).erase t

def listAdd (q : κ → List α) (k : κ) (t : α) : κ → List α := Function.update q k (t :: q k)

def listAddTail (q : κ → List α) (k : κ) (t : α) : κ → List α := Function.update q k (q k ++ [t])

/-- Every element is on at most one list, once. -/
structure Shared (q : κ → List α) : Prop where
  nodup : ∀ k, (q k).Nodup
  once : ∀ t k l, t ∈ q k → t ∈ q l → k = l

section Mem

variable {q : κ → List α} {t u : α} {k l : κ}

omit [DecidableEq α] in
theorem mem_listAdd : u ∈ listAdd q k t l ↔ (u = t ∧ l = k) ∨ u ∈ q l := by
  unfold listAdd
  by_cases h : l = k
  · subst h
    simp
  · simp [h]

omit [DecidableEq α] in
theorem mem_listAddTail : u ∈ listAddTail q k t l ↔ (u = t ∧ l = k) ∨ u ∈ q l := by
  unfold listAddTail
  by_cases h : l = k
  · subst h
    simp [or_comm]
  · simp [h]

omit [DecidableEq κ] in
theorem Shared.mem_listDel (h : Shared q) : u ∈ listDel q t l ↔ u ≠ t ∧ u ∈ q l := (h.nodup l).mem_erase_iff

omit [DecidableEq α] in
theorem length_listAdd : (listAdd q k t l).length = (q l).length + if l = k then 1 else 0 := by
  unfold listAdd
  by_cases h : l = k
  · subst h
    simp
  · simp [h]

omit [DecidableEq α] in
theorem length_listAddTail : (listAddTail q k t l).length = (q l).length + if l = k then 1 else 0 := by
  unfold listAddTail
  by_cases h : l = k
  · subst h
    simp
  · simp [h]

omit [DecidableEq κ] in
theorem length_listDel : (listDel q t l).length + (if t ∈ q l then 1 else 0) = (q l).length := by
  unfold listDel
  by_cases h : t ∈ q l
  · rw [if_pos h, List.length_erase_of_mem h]
    have := List.length_pos_of_mem h
    omega
  · rw [if_neg h, List.erase_of_not_mem h]
    omega

end Mem

namespace Shared

variable {q : κ → List α} {t : α}

omit [DecidableEq κ] in
protected theorem listDel (h : Shared q) (t : α) : Shared (listDel q t) where
  nodup := fun k => (h.nodup k).erase t
  once := fun u k l hk hl => h.once u k l (h.mem_listDel.mp hk).2 (h.mem_listDel.mp hl).2

omit [DecidableEq κ] [DecidableEq α] in
private theorem once_of_new (h : Shared q) (hnew : ∀ l, t ∉ q l) {u : α} {k l l' : κ}
    (hl : (u = t ∧ l = k) ∨ u ∈ q l) (hl' : (u = t ∧ l' = k) ∨ u ∈ q l') : l = l' := by
  rcases hl with ⟨rfl, rfl⟩ | hl
  · rcases hl' with ⟨-, rfl⟩ | hl'
    · rfl
    · exact absurd hl' (hnew l')
  · rcases hl' with ⟨rfl, rfl⟩ | hl'
    · exact absurd hl (hnew l)
    · exact h.once u l l' hl hl'

omit [DecidableEq α] in
protected theorem listAdd (h : Shared q) (hnew : ∀ l, t ∉ q l) (k : κ) : Shared (listAdd q k t) where
  nodup := fun l => by
    unfold Cosmos.Lib.listAdd
    by_cases hl : l = k
    · subst hl
      rw [Function.update_self]
      exact List.nodup_cons.mpr ⟨hnew l, h.nodup l⟩
    · rw [Function.update_of_ne hl]
      exact h.nodup l
  once := fun u l l' hl hl' => h.once_of_new hnew (mem_listAdd.mp hl) (mem_listAdd.mp hl')

omit [DecidableEq α] in
protected theorem listAddTail (h : Shared q) (hnew : ∀ l, t ∉ q l) (k : κ) : Shared (listAddTail q k t) where
  nodup := fun l => by
    unfold Cosmos.Lib.listAddTail
    by_cases hl : l = k
    · subst hl
      rw [Function.update_self]
      exact List.nodup_append.mpr ⟨h.nodup l, List.nodup_singleton t, fun u hu v hv huv => by
        rw [List.mem_singleton] at hv
        exact hnew l (hv ▸ huv ▸ hu)⟩
    · rw [Function.update_of_ne hl]
      exact h.nodup l
  once := fun u l l' hl hl' => h.once_of_new hnew (mem_listAddTail.mp hl) (mem_listAddTail.mp hl')

end Shared

end Cosmos.Lib
