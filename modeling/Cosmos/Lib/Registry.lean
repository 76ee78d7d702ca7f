import Mathlib.Tactic
import Mathlib.Data.List.Nodup
import Mathlib.Order.Interval.Finset.Nat

/-!
# Lists with unique keys

`Keyed key l`: no two entries of `l` have one key. A search by key then finds an entry exactly if it is in the list.
-/

namespace Cosmos.Lib

section Keyed

variable {α κ : Type} (key : α → κ)

def Keyed (l : List α) : Prop := (l.map key).Nodup

variable {key} {l : List α} {x y : α} {k : κ}

theorem Keyed.cons (h : Keyed key l) (hnew : ∀ y ∈ l, key y ≠ key x) : Keyed key (x :: l) := by
  refine List.nodup_cons.mpr ⟨fun hmem => ?_, h⟩
  obtain ⟨y, hy, hkey⟩ := List.mem_map.mp hmem
  exact hnew y hy hkey

theorem Keyed.nodup (h : Keyed key l) : l.Nodup := List.Nodup.of_map key h

theorem Keyed.eq_of_key (h : Keyed key l) (hx : x ∈ l) (hy : y ∈ l) (hkey : key x = key y) : x = y :=
  List.inj_on_of_nodup_map h hx hy hkey

theorem Keyed.filter (h : Keyed key l) (p : α → Bool) : Keyed key (l.filter p) :=
  List.Nodup.sublist ((List.filter_sublist (p := p)).map key) h

theorem Keyed.find?_eq_some_iff [DecidableEq κ] (h : Keyed key l) :
    l.find? (fun y => decide (k = key y)) = some x ↔ x ∈ l ∧ key x = k := by
  constructor
  · intro hfind
    have hk : k = key x := by simpa using List.find?_some hfind
    exact ⟨List.mem_of_find?_eq_some hfind, hk.symm⟩
  · rintro ⟨hx, hk⟩
    cases hfind : l.find? (fun y => decide (k = key y)) with
    | none =>
      have hne := List.find?_eq_none.mp hfind x hx
      exact absurd (decide_eq_true hk.symm) hne
    | some y =>
      have hy : k = key y := by simpa using List.find?_some hfind
      rw [h.eq_of_key hx (List.mem_of_find?_eq_some hfind) (hk.trans hy)]

end Keyed

theorem length_lt_of_nodup {l : List Nat} {n : Nat} (hn : 0 < n) (h : l.Nodup) (hl : ∀ x ∈ l, 0 < x ∧ x < n) :
    l.length < n := by
  have hsub : l.toFinset ⊆ Finset.Ioo 0 n := by
    intro x hx
    exact Finset.mem_Ioo.mpr (hl x (List.mem_toFinset.mp hx))
  have hcard := Finset.card_le_card hsub
  rw [List.toFinset_card_of_nodup h, Nat.card_Ioo] at hcard
  omega

end Cosmos.Lib
