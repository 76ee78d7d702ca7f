import Mathlib

/-!
# Sorting by exchanging neighbours

A pass over a list carries the larger of two neighbours upwards: `carry a l` is what it leaves behind and what it
arrives with at the end. After each pass one more entry is settled (`Settled.pass`): the settled entries are in order,
none before them is larger, and entries of one key stand as they stood. When all but one are settled the list is sorted,
and stably (`Settled.stableSort`).
-/

namespace Cosmos.Lib

variable {α κ : Type} [LinearOrder κ] {key : α → κ}

/-- The same entries, those of one key in the same order. -/
structure Rearranges (key : α → κ) (xs ys : List α) : Prop where
  perm : ys.Perm xs
  stable : ∀ v, ys.filter (fun a => key a = v) = xs.filter fun a => key a = v

/-- A rearrangement in the order of the keys. -/
structure StableSort (key : α → κ) (xs ys : List α) : Prop extends Rearranges key xs ys where
  sorted : ys.Pairwise fun a b => key a ≤ key b

namespace Rearranges

variable {xs ys zs : List α} {a b : α}

theorem refl (xs : List α) : Rearranges key xs xs := ⟨.refl xs, fun _ => rfl⟩

theorem trans (h : Rearranges key xs ys) (h' : Rearranges key ys zs) : Rearranges key xs zs :=
  ⟨h'.perm.trans h.perm, fun v => (h'.stable v).trans (h.stable v)⟩

theorem cons (a : α) (h : Rearranges key xs ys) : Rearranges key (a :: xs) (a :: ys) where
  perm := h.perm.cons a
  stable v := by rw [List.filter_cons, List.filter_cons, h.stable v]

theorem append_right (h : Rearranges key xs ys) (zs : List α) : Rearranges key (xs ++ zs) (ys ++ zs) where
  perm := h.perm.append_right zs
  stable v := by rw [List.filter_append, List.filter_append, h.stable v]

theorem swap (h : key b < key a) (xs : List α) : Rearranges key (a :: b :: xs) (b :: a :: xs) where
  perm := .swap a b xs
  stable v := by
    -- at most one of the two has the key `v`
    by_cases ha : key a = v
    · have hb : key b ≠ v := fun hb => h.ne (hb.trans ha.symm)
      simp [ha, hb]
    · simp [List.filter_cons, ha]

end Rearranges

/-! ### One pass -/

/-- A pass over `l` with `a` in hand: the entries it leaves, and the one it has in hand at the end. -/
def carry (key : α → κ) : α → List α → List α × α
  | a, [] => ([], a)
  | a, b :: l =>
    if key b < key a then (b :: (carry key a l).1, (carry key a l).2) else (a :: (carry key b l).1, (carry key b l).2)

theorem carry_cons_of_lt {a b : α} (h : key b < key a) (l : List α) :
    carry key a (b :: l) = (b :: (carry key a l).1, (carry key a l).2) := if_pos h

theorem carry_cons_of_le {a b : α} (h : key a ≤ key b) (l : List α) :
    carry key a (b :: l) = (a :: (carry key b l).1, (carry key b l).2) := if_neg h.not_gt

theorem length_carry (l : List α) (a : α) : (carry key a l).1.length = l.length := by
  induction l generalizing a with
  | nil => rfl
  | cons b l ih =>
    rcases lt_or_ge (key b) (key a) with h | h
    · rw [carry_cons_of_lt h, List.length_cons, List.length_cons, ih]
    · rw [carry_cons_of_le h, List.length_cons, List.length_cons, ih]

theorem rearranges_carry (l : List α) (a : α) :
    Rearranges key (a :: l) ((carry key a l).1 ++ [(carry key a l).2]) := by
  induction l generalizing a with
  | nil => exact .refl [a]
  | cons b l ih =>
    rcases lt_or_ge (key b) (key a) with h | h
    · rw [carry_cons_of_lt h]
      exact (Rearranges.swap h l).trans ((ih a).cons b)
    · rw [carry_cons_of_le h]
      exact (ih b).cons a

theorem le_carry (l : List α) (a : α) : ∀ b ∈ a :: l, key b ≤ key (carry key a l).2 := by
  induction l generalizing a with
  | nil =>
    intro b hb
    rw [List.mem_singleton.mp hb]
    exact le_rfl
  | cons c l ih =>
    intro b hb
    rcases lt_or_ge (key c) (key a) with h | h
    · rw [carry_cons_of_lt h]
      rcases List.mem_cons.mp hb with rfl | hb
      · exact ih b b (by simp)
      rcases List.mem_cons.mp hb with rfl | hb
      · exact h.le.trans (ih a a (by simp))
      · exact ih a b (by simp [hb])
    · rw [carry_cons_of_le h]
      rcases List.mem_cons.mp hb with rfl | hb
      · exact h.trans (ih c c (by simp))
      · exact ih c b hb

/-! ### Pass after pass -/

/-- `back` is settled: in order, and nothing in `front` is larger. -/
structure Settled (key : α → κ) (xs front back : List α) : Prop where
  rearranges : Rearranges key xs (front ++ back)
  sorted : back.Pairwise fun a b => key a ≤ key b
  le : ∀ a ∈ front, ∀ b ∈ back, key a ≤ key b

namespace Settled

variable {xs front back : List α} {a : α}

theorem start (xs : List α) : Settled key xs xs [] where
  rearranges := by
    rw [List.append_nil]
    exact .refl xs
  sorted := .nil
  le := by simp

/-- **A pass settles one more entry.** -/
theorem pass (h : Settled key xs (a :: front) back) :
    Settled key xs (carry key a front).1 ((carry key a front).2 :: back) := by
  have hpass : Rearranges key (a :: front) ((carry key a front).1 ++ [(carry key a front).2]) :=
    rearranges_carry front a
  have hmem : ∀ b ∈ (carry key a front).1 ++ [(carry key a front).2], b ∈ a :: front :=
    fun b hb => hpass.perm.mem_iff.mp hb
  refine ⟨?_, ?_, fun b hb c hc => ?_⟩
  · rw [← List.singleton_append, ← List.append_assoc]
    exact h.rearranges.trans (hpass.append_right back)
  · exact List.pairwise_cons.mpr ⟨h.le _ (hmem _ (by simp)), h.sorted⟩
  · have hb : b ∈ a :: front := hmem b (by simp [hb])
    rcases List.mem_cons.mp hc with rfl | hc
    · exact le_carry front a b hb
    · exact h.le b hb c hc

theorem stableSort (h : Settled key xs [a] back) : StableSort key xs (a :: back) where
  perm := h.rearranges.perm
  stable := h.rearranges.stable
  sorted := List.pairwise_cons.mpr ⟨h.le a (by simp), h.sorted⟩

end Settled

end Cosmos.Lib
