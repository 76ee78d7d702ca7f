import Mathlib.Tactic.Common
import Mathlib.Data.List.Nodup

/-!
# Linked lists of keyed nodes

A doubly linked list is the list of its nodes in order; a pointer to a node is the node's key. The
operations name a node by its key and reduce, on a list split at that node (`Split`), to plain list
surgery.
-/

namespace Cosmos.Lib

namespace Nodes

variable {α : Type} (key : α → Nat)

def next? (a : Nat) : List α → Option α
  | [] => none
  | x :: xs => if key x = a then xs.head? else next? a xs

def prev? (a : Nat) : List α → Option α
  | [] => none
  | [_] => none
  | x :: y :: xs => if key y = a then some x else prev? a (y :: xs)

def insertAfter (a : Nat) (new : α) : List α → List α
  | [] => []
  | x :: xs => if key x = a then x :: new :: xs else x :: insertAfter a new xs

def modify (a : Nat) (f : α → α) (l : List α) : List α :=
  l.map fun x => if key x = a then f x else x

def remove (a : Nat) (l : List α) : List α :=
  l.filter fun x => decide (key x ≠ a)

def get? (a : Nat) (l : List α) : Option α :=
  l.find? fun x => decide (key x = a)

/-- `l` is `pre`, then the node `k`, then `post`, and no other node has `k`'s key. -/
structure Split (l pre : List α) (k : α) (post : List α) : Prop where
  eq : l = pre ++ k :: post
  pre_ne : ∀ x ∈ pre, key x ≠ key k
  post_ne : ∀ x ∈ post, key x ≠ key k

variable {key}

theorem split_of_eq {l pre post : List α} {k : α} (hnodup : (l.map key).Nodup) (heq : l = pre ++ k :: post) :
    Split key l pre k post := by
  rw [heq, List.map_append, List.map_cons, List.nodup_append] at hnodup
  obtain ⟨-, htail, hdisj⟩ := hnodup
  rw [List.nodup_cons] at htail
  refine ⟨heq, fun x hx => ?_, fun x hx hkey => ?_⟩
  · exact hdisj _ (List.mem_map_of_mem hx) _ (by simp)
  · exact htail.1 (hkey ▸ List.mem_map_of_mem hx)

theorem exists_split {l : List α} {k : α} (hnodup : (l.map key).Nodup) (hk : k ∈ l) :
    ∃ pre post, Split key l pre k post := by
  obtain ⟨pre, post, heq⟩ := List.append_of_mem hk
  exact ⟨pre, post, split_of_eq hnodup heq⟩

namespace Split

variable {l pre post : List α} {k : α}

theorem next?_eq (h : Split key l pre k post) : next? key (key k) l = post.head? := by
  obtain ⟨rfl, hpre, -⟩ := h
  induction pre with
  | nil => simp [next?]
  | cons x pre ih =>
    rw [List.cons_append, next?, if_neg (hpre x (by simp))]
    exact ih fun y hy => hpre y (by simp [hy])

theorem prev?_eq (h : Split key l pre k post) : prev? key (key k) l = pre.getLast? := by
  obtain ⟨rfl, hpre, hpost⟩ := h
  induction pre with
  | nil =>
    -- the node is the first: no node of `post` has its key either
    suffices hs : ∀ (y : α) (l : List α), (∀ x ∈ l, key x ≠ key k) → prev? key (key k) (y :: l) = none by
      simpa using hs k post hpost
    intro y l
    induction l generalizing y with
    | nil => intro _; rfl
    | cons z l ih =>
      intro hl
      rw [prev?, if_neg (hl z (by simp))]
      exact ih z fun x hx => hl x (by simp [hx])
  | cons x pre ih =>
    have ih := ih fun y hy => hpre y (by simp [hy])
    cases pre with
    | nil => simp [prev?]
    | cons y pre =>
      rw [List.cons_append, List.cons_append, prev?, if_neg (hpre y (by simp)), ← List.cons_append, ih]
      simp [List.getLast?_cons_cons]

theorem insertAfter_eq (h : Split key l pre k post) (new : α) :
    insertAfter key (key k) new l = pre ++ k :: new :: post := by
  obtain ⟨rfl, hpre, -⟩ := h
  induction pre with
  | nil => simp [insertAfter]
  | cons x pre ih =>
    rw [List.cons_append, insertAfter, if_neg (hpre x (by simp))]
    rw [ih fun y hy => hpre y (by simp [hy])]
    rfl

theorem modify_eq (h : Split key l pre k post) (f : α → α) :
    modify key (key k) f l = pre ++ f k :: post := by
  obtain ⟨rfl, hpre, hpost⟩ := h
  have hid : ∀ m : List α, (∀ x ∈ m, key x ≠ key k) →
      m.map (fun x => if key x = key k then f x else x) = m := by
    intro m hm
    conv_rhs => rw [← List.map_id m]
    exact List.map_congr_left fun x hx => if_neg (hm x hx)
  rw [modify, List.map_append, List.map_cons, if_pos rfl, hid pre hpre, hid post hpost]

theorem remove_eq (h : Split key l pre k post) : remove key (key k) l = pre ++ post := by
  obtain ⟨rfl, hpre, hpost⟩ := h
  have hid : ∀ m : List α, (∀ x ∈ m, key x ≠ key k) →
      m.filter (fun x => decide (key x ≠ key k)) = m := by
    intro m hm
    rw [List.filter_eq_self]
    intro x hx
    simpa using hm x hx
  rw [remove, List.filter_append, List.filter_cons, hid pre hpre, hid post hpost]
  simp

theorem nodup_iff (h : Split key l pre k post) :
    (l.map key).Nodup ↔ (pre.map key ++ post.map key).Nodup := by
  obtain ⟨rfl, hpre, hpost⟩ := h
  rw [List.map_append, List.map_cons, List.nodup_middle, List.nodup_cons]
  refine and_iff_right ?_
  simp only [List.mem_append, List.mem_map, not_or, not_exists, not_and]
  exact ⟨hpre, hpost⟩

end Split

end Nodes

end Cosmos.Lib
