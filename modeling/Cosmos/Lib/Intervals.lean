import Mathlib.Tactic.Common
import Mathlib.Data.List.Basic

/-!
# Ordered lists of half-open intervals

Items of any type carry an interval `[lo, hi)`. In an ordered list (`Ordered`) an address lies in at most
one item, the one `at?` finds; the lemmas say what becomes of both when an item is replaced by others in
its room.
-/

namespace Cosmos.Lib

namespace Intervals

variable {α : Type} (lo hi : α → Nat)

/-- Every item ends before the next ones start, and no item is empty. -/
structure Ordered (l : List α) : Prop where
  sorted : l.Pairwise fun a b => hi a ≤ lo b
  pos : ∀ a ∈ l, lo a < hi a

/-- The item whose interval contains `x`. -/
def at? (l : List α) (x : Nat) : Option α :=
  l.find? fun a => decide (lo a ≤ x ∧ x < hi a)

variable {lo hi} {l l' pre mid post : List α} {k : α} {x : Nat}

theorem at?_append : at? lo hi (l ++ l') x = (at? lo hi l x).or (at? lo hi l' x) :=
  List.find?_append

theorem at?_cons_of_mem (h : lo k ≤ x ∧ x < hi k) : at? lo hi (k :: l) x = some k := by
  simp [at?, h]

theorem at?_cons_of_not_mem (h : ¬(lo k ≤ x ∧ x < hi k)) :
    at? lo hi (k :: l) x = at? lo hi l x := by
  simp only [at?, List.find?_cons, h, decide_false]

theorem at?_eq_none (h : ∀ a ∈ l, ¬(lo a ≤ x ∧ x < hi a)) : at? lo hi l x = none := by
  rw [at?, List.find?_eq_none]
  intro a ha
  simpa using h a ha

theorem at?_none_of_ends (b : Nat) (h : ∀ a ∈ l, hi a ≤ b) (hx : b ≤ x) : at? lo hi l x = none :=
  at?_eq_none fun a ha hmem => by have := h a ha; omega

theorem at?_none_of_starts (b : Nat) (h : ∀ a ∈ l, b ≤ lo a) (hx : x < b) : at? lo hi l x = none :=
  at?_eq_none fun a ha hmem => by have := h a ha; omega

theorem ordered_append : Ordered lo hi (l ++ l') ↔
    Ordered lo hi l ∧ Ordered lo hi l' ∧ ∀ a ∈ l, ∀ b ∈ l', hi a ≤ lo b := by
  constructor
  · rintro ⟨hsort, hpos⟩
    rw [List.pairwise_append] at hsort
    exact ⟨⟨hsort.1, fun a ha => hpos a (by simp [ha])⟩,
      ⟨hsort.2.1, fun a ha => hpos a (by simp [ha])⟩, hsort.2.2⟩
  · rintro ⟨⟨hl, hlpos⟩, ⟨hl', hlpos'⟩, hcross⟩
    refine ⟨List.pairwise_append.mpr ⟨hl, hl', hcross⟩, fun a ha => ?_⟩
    rcases List.mem_append.mp ha with ha | ha
    · exact hlpos a ha
    · exact hlpos' a ha

theorem ordered_cons : Ordered lo hi (k :: l) ↔
    lo k < hi k ∧ (∀ b ∈ l, hi k ≤ lo b) ∧ Ordered lo hi l := by
  constructor
  · rintro ⟨hsort, hpos⟩
    rw [List.pairwise_cons] at hsort
    exact ⟨hpos k (by simp), hsort.1, hsort.2, fun a ha => hpos a (by simp [ha])⟩
  · rintro ⟨hk, hcross, hsort, hpos⟩
    refine ⟨List.pairwise_cons.mpr ⟨hcross, hsort⟩, fun a ha => ?_⟩
    rcases List.mem_cons.mp ha with rfl | ha
    · exact hk
    · exact hpos a ha

theorem ordered_nil : Ordered lo hi ([] : List α) := ⟨List.Pairwise.nil, by simp⟩

theorem Ordered.split (h : Ordered lo hi (pre ++ k :: post)) :
    Ordered lo hi pre ∧ Ordered lo hi post ∧ lo k < hi k ∧ (∀ a ∈ pre, hi a ≤ lo k) ∧
      (∀ b ∈ post, hi k ≤ lo b) ∧ ∀ a ∈ pre, ∀ b ∈ post, hi a ≤ lo b := by
  obtain ⟨hpre, htail, hcross⟩ := ordered_append.mp h
  obtain ⟨hk, hpost, hordpost⟩ := ordered_cons.mp htail
  exact ⟨hpre, hordpost, hk, fun a ha => hcross a ha k (by simp), hpost,
    fun a ha b hb => hcross a ha b (by simp [hb])⟩

theorem Ordered.eq_of_mem {a b : α} (h : Ordered lo hi l) (ha : a ∈ l) (hb : b ∈ l) (hxa : lo a ≤ x ∧ x < hi a)
    (hxb : lo b ≤ x ∧ x < hi b) : a = b := by
  obtain ⟨pre, post, rfl⟩ := List.append_of_mem hb
  obtain ⟨-, -, -, hpre, hpost, -⟩ := h.split
  rcases List.mem_append.mp ha with ha | ha
  · have := hpre a ha
    omega
  · rcases List.mem_cons.mp ha with rfl | ha
    · rfl
    · have := hpost a ha
      omega

theorem Ordered.le_lo_of_head (h : Ordered lo hi l) (b : Nat) (hhead : ∀ a ∈ l.head?, b ≤ lo a) :
    ∀ a ∈ l, b ≤ lo a := by
  cases l with
  | nil => simp
  | cons k l =>
    obtain ⟨hk, hcross, -⟩ := ordered_cons.mp h
    have hb : b ≤ lo k := hhead k rfl
    intro a ha
    rcases List.mem_cons.mp ha with rfl | ha
    · exact hb
    · have := hcross a ha
      omega

theorem Ordered.add_length_le (h : Ordered lo hi l) {a b : Nat} (hab : a ≤ b) (hlo : ∀ k ∈ l, a ≤ lo k)
    (hhi : ∀ k ∈ l, hi k ≤ b) : a + l.length ≤ b := by
  induction l generalizing a with
  | nil => exact hab
  | cons k l ih =>
    obtain ⟨hk, hcross, hl⟩ := ordered_cons.mp h
    have hle := ih hl (hhi k (by simp)) hcross fun x hx => hhi x (by simp [hx])
    have hak := hlo k (by simp)
    rw [List.length_cons]
    omega

theorem not_mem_of_at?_eq_none (h : at? lo hi l x = none) {a : α} (ha : a ∈ l) : ¬(lo a ≤ x ∧ x < hi a) := by
  have hnone := List.find?_eq_none.mp h a ha
  simpa using hnone

theorem Ordered.exists_gap (h : Ordered lo hi l) {r n : Nat} (hn : 0 < n)
    (hfree : ∀ x, r ≤ x → x < r + n → at? lo hi l x = none) (hbelow : ∃ k ∈ l, hi k ≤ r) :
    ∃ pre k post, l = pre ++ k :: post ∧ hi k ≤ r ∧ ∀ p ∈ post, r + n ≤ lo p := by
  induction l with
  | nil => simp at hbelow
  | cons a l ih =>
    by_cases htail : ∃ k ∈ l, hi k ≤ r
    · have hfree' : ∀ x, r ≤ x → x < r + n → at? lo hi l x = none := fun x hlo hhi =>
        at?_eq_none fun k hk => not_mem_of_at?_eq_none (hfree x hlo hhi) (List.mem_cons_of_mem a hk)
      obtain ⟨pre, k, post, rfl, hk, hpost⟩ := ih (ordered_cons.mp h).2.2 hfree' htail
      exact ⟨a :: pre, k, post, rfl, hk, hpost⟩
    · have ha : hi a ≤ r := by
        obtain ⟨k, hk, hle⟩ := hbelow
        rcases List.mem_cons.mp hk with rfl | hk
        · exact hle
        · exact absurd ⟨k, hk, hle⟩ htail
      refine ⟨[], a, l, rfl, ha, fun p hp => ?_⟩
      -- otherwise the later of the two starts is an address of the range that `p` covers
      by_contra hlt
      have hend : r < hi p := by
        by_contra hle
        exact htail ⟨p, hp, by omega⟩
      have hpos := h.pos p (List.mem_cons_of_mem a hp)
      have hnot := not_mem_of_at?_eq_none (hfree (max (lo p) r) (by omega) (by omega)) (List.mem_cons_of_mem a hp)
      omega

/-! ### Replacing an item

Every update of the list puts the items `mid` in the place of one item `k`, inside the room `[lo k, b)` that
`k` and the gap behind it have. -/

theorem Ordered.replace (h : Ordered lo hi (pre ++ k :: post)) (hmid : Ordered lo hi mid) (b : Nat)
    (hlo : ∀ m ∈ mid, lo k ≤ lo m) (hhi : ∀ m ∈ mid, hi m ≤ b) (hb : ∀ p ∈ post, b ≤ lo p) :
    Ordered lo hi (pre ++ (mid ++ post)) := by
  obtain ⟨hpre, hpost, -, hprek, -, hcross⟩ := h.split
  refine ordered_append.mpr ⟨hpre, ordered_append.mpr ⟨hmid, hpost, fun m hm p hp => ?_⟩, ?_⟩
  · exact Nat.le_trans (hhi m hm) (hb p hp)
  · intro a ha c hc
    rcases List.mem_append.mp hc with hc | hc
    · exact Nat.le_trans (hprek a ha) (hlo c hc)
    · exact hcross a ha c hc

theorem Ordered.at?_replace (h : Ordered lo hi (pre ++ k :: post)) (b : Nat) (hkb : hi k ≤ b)
    (hlo : ∀ m ∈ mid, lo k ≤ lo m) (hhi : ∀ m ∈ mid, hi m ≤ b) (hb : ∀ p ∈ post, b ≤ lo p) :
    at? lo hi (pre ++ (mid ++ post)) x =
      if lo k ≤ x ∧ x < b then at? lo hi mid x else at? lo hi (pre ++ k :: post) x := by
  obtain ⟨-, -, -, hprek, -, -⟩ := h.split
  rw [at?_append, at?_append, at?_append]
  split
  · next hin =>
    have hpost : at? lo hi post x = none := at?_none_of_starts b hb hin.2
    rw [at?_none_of_ends (lo k) hprek hin.1, hpost, Option.none_or, Option.or_none]
  · next hout =>
    have hmid : at? lo hi mid x = none := at?_eq_none fun m hm hmem => by
      have := hlo m hm
      have := hhi m hm
      omega
    rw [hmid, at?_cons_of_not_mem (by omega), Option.none_or]

end Intervals

end Cosmos.Lib
