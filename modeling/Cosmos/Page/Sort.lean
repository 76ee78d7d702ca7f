import Cosmos.Lib.Bubble
import Cosmos.Page.Memmap

/-!
# The order of the memory map (`hal/x86/halmm.c`)

When `init_phymmarge` has converted the `e820` array, `phymmarge_sort` puts the entries in the order of their first
addresses. It compares neighbours, so that its loops end one entry before the last: with an index beyond the array a
read or a write here is an error, and none occurs (`phymmargeSort_stable`).

The loops count in 64-bit words; one that goes on for more turns than there are words does not end.
-/

namespace Cosmos.Page

open Cosmos.Lib Halt

/-- `phymmarge_t` with all its fields: `phymmarge_swap` copies whole entries. -/
structure PhymmargeEntry extends Phymmarge where
  pmrLock : Nat
  pmrDtype : Nat
  pmrStus : Nat
  pmrRrvmsaddr : Nat
  pmrRrvmend : Nat
  pmrPrip : Nat
  pmrExtp : Nat
  deriving DecidableEq, Repr

variable {argp pre todo tail : List PhymmargeEntry} {a b : PhymmargeEntry} {i j k : Nat}

def entryAt (argp : List PhymmargeEntry) (i : Nat) : Halt PhymmargeEntry :=
  match argp[i]? with
  | some a => .ok a
  | none => .error "phymmarge_sort: no such entry"

/-- `phymmarge_swap` of two entries: one to `tmp`, the other in its place, and `tmp` in the other's. -/
def phymmargeSwap (argp : List PhymmargeEntry) (s d : Nat) : Halt (List PhymmargeEntry) :=
  entryAt argp s >>= fun tmp => entryAt argp d >>= fun e => .ok ((argp.set s e).set d tmp)

def sortStep (argp : List PhymmargeEntry) (i : Nat) : Halt (List PhymmargeEntry) :=
  entryAt argp i >>= fun a => entryAt argp (u64 (i + 1)) >>= fun b =>
    if b.pmrSaddr < a.pmrSaddr then phymmargeSwap argp i (u64 (i + 1)) else .ok argp

def sortInner (k j : Nat) : Nat → Nat → List PhymmargeEntry → Halt (List PhymmargeEntry)
  | 0, _, _ => .error "phymmarge_sort"
  | c + 1, i, argp =>
    if i < u64Sub k j then sortStep argp i >>= sortInner k j c (u64 (i + 1)) else .ok argp

def sortOuter (k : Nat) : Nat → Nat → List PhymmargeEntry → Halt (List PhymmargeEntry)
  | 0, _, _ => .error "phymmarge_sort"
  | c + 1, j, argp =>
    if j < k then sortInner k j (2 ^ 64) 0 argp >>= sortOuter k c (u64 (j + 1)) else .ok argp

def phymmargeSort (argp : List PhymmargeEntry) (nr : Nat) : Halt (List PhymmargeEntry) :=
  sortOuter (u64Sub nr 1) (2 ^ 64) 0 argp

/-! ### The inner loop is a pass -/

def PhymmargeEntry.saddr (e : PhymmargeEntry) : Nat := e.pmrSaddr

theorem entryAt_append (hi : pre.length = i) : entryAt (pre ++ a :: tail) i = .ok a := by
  subst hi
  rw [entryAt, List.getElem?_append_right le_rfl, Nat.sub_self]
  rfl

theorem entryAt_append_succ (hi : pre.length = i) : entryAt (pre ++ a :: b :: tail) (i + 1) = .ok b := by
  rw [List.append_cons]
  exact entryAt_append (by simp [hi])

theorem phymmargeSwap_append (hi : pre.length = i) :
    phymmargeSwap (pre ++ a :: b :: tail) i (i + 1) = .ok (pre ++ b :: a :: tail) := by
  rw [phymmargeSwap, entryAt_append hi, ok_bind, entryAt_append_succ hi, ok_bind]
  subst hi
  simp

theorem sortStep_append (hi : pre.length = i) (hlt : i + 1 < 2 ^ 64) : sortStep (pre ++ a :: b :: tail) i =
    .ok (if b.saddr < a.saddr then pre ++ b :: a :: tail else pre ++ a :: b :: tail) := by
  rw [sortStep, u64_of_lt hlt, entryAt_append hi, ok_bind, entryAt_append_succ hi, ok_bind,
    phymmargeSwap_append hi, ← apply_ite]
  rfl

theorem sortInner_append (hjk : j ≤ k) (hk : k < 2 ^ 64) (c : Nat) (hc : todo.length < c) (hi : pre.length = i)
    (hend : i + todo.length = k - j) :
    sortInner k j c i (pre ++ a :: (todo ++ tail)) =
      .ok (pre ++ (carry PhymmargeEntry.saddr a todo).1 ++ (carry PhymmargeEntry.saddr a todo).2 :: tail) := by
  induction todo generalizing pre a i c with
  | nil =>
    obtain ⟨c, rfl⟩ := Nat.exists_eq_add_of_lt hc
    rw [sortInner, u64Sub_of_le hjk hk, if_neg (by simp at hend; omega)]
    simp [carry]
  | cons b todo ih =>
    obtain ⟨c, rfl⟩ : ∃ c', c = c' + 1 := ⟨c - 1, by omega⟩
    rw [List.length_cons] at hc hend
    rw [sortInner, u64Sub_of_le hjk hk, if_pos (by omega), List.cons_append,
      sortStep_append hi (by omega), ok_bind, u64_of_lt (by omega)]
    rcases lt_or_ge b.saddr a.saddr with h | h
    · rw [if_pos h, carry_cons_of_lt h, List.append_cons pre b]
      rw [ih c (by omega) (by simp [hi]) (by omega)]
      simp
    · rw [if_neg h.not_gt, carry_cons_of_le h, List.append_cons pre a]
      rw [ih c (by omega) (by simp [hi]) (by omega)]
      simp

theorem sortInner_eq (hk : k < 2 ^ 64) (hlen : j + todo.length = k) : sortInner k j (2 ^ 64) 0 (a :: (todo ++ tail)) =
    .ok ((carry PhymmargeEntry.saddr a todo).1 ++ (carry PhymmargeEntry.saddr a todo).2 :: tail) :=
  sortInner_append (by omega) hk (2 ^ 64) (by omega) (show ([] : List PhymmargeEntry).length = 0 from rfl) (by omega)

/-! ### Pass after pass -/

/-- **The outer loop sorts** what is not settled yet, and leaves what is behind the array. -/
theorem sortOuter_append {xs front back rest : List PhymmargeEntry} (hk : k < 2 ^ 64) (c : Nat) (hc : k - j < c)
    (hlen : j + front.length = k + 1) (hpos : front ≠ []) (h : Settled PhymmargeEntry.saddr xs front back) :
    ∃ ys, sortOuter k c j (front ++ (back ++ rest)) = .ok (ys ++ rest) ∧ StableSort PhymmargeEntry.saddr xs ys := by
  induction c generalizing j front back with
  | zero => omega
  | succ c ih =>
    obtain ⟨a, todo, rfl⟩ := List.exists_cons_of_ne_nil hpos
    rw [List.length_cons] at hlen
    rw [sortOuter]
    by_cases hj : j < k
    · have hrest : (carry PhymmargeEntry.saddr a todo).1.length = todo.length := length_carry todo a
      rw [if_pos hj, List.cons_append, sortInner_eq hk (by omega), ok_bind, u64_of_lt (by omega)]
      refine ih (by omega) (by omega) (fun hnil => ?_) h.pass
      rw [hnil, List.length_nil] at hrest
      omega
    · obtain rfl : todo = [] := List.length_eq_zero_iff.mp (by omega)
      rw [if_neg hj]
      exact ⟨a :: back, by simp, h.stableSort⟩

/-- **The memory map is sorted stably**, whatever stands behind the array and without a look at it. -/
theorem phymmargeSort_stable (xs rest : List PhymmargeEntry) (hpos : 1 ≤ xs.length) (hlt : xs.length < 2 ^ 64) :
    ∃ ys, phymmargeSort (xs ++ rest) xs.length = .ok (ys ++ rest) ∧ ys.Perm xs ∧
      (ys.Pairwise fun a b => a.pmrSaddr ≤ b.pmrSaddr) ∧
      ∀ v, (ys.filter fun a => a.pmrSaddr = v) = xs.filter fun a => a.pmrSaddr = v := by
  have hsort : ∃ ys, sortOuter (xs.length - 1) (2 ^ 64) 0 (xs ++ ([] ++ rest)) = .ok (ys ++ rest) ∧
      StableSort PhymmargeEntry.saddr xs ys :=
    sortOuter_append (by omega) (2 ^ 64) (by omega) (by omega) (List.length_pos_iff.mp hpos) (.start xs)
  obtain ⟨ys, hret, hys⟩ := hsort
  refine ⟨ys, ?_, hys.perm, hys.sorted, hys.stable⟩
  rw [phymmargeSort, u64Sub_of_le hpos hlt]
  exact hret

def rangeAt (saddr lsize : Nat) : PhymmargeEntry where
  pmrType := pmrTOsapuserram
  pmrStype := 1
  pmrFlgs := pmrFX8664
  pmrSaddr := saddr
  pmrLsize := lsize
  pmrEnd := saddr + lsize - 1
  pmrLock := 0
  pmrDtype := 0
  pmrStus := 0
  pmrRrvmsaddr := 0
  pmrRrvmend := 0
  pmrPrip := 0
  pmrExtp := 0

/-- Of the two entries at `0x1000` the one that stood first comes first, and the entry behind the array stays. -/
theorem phymmargeSort_three : ∃ ys,
    phymmargeSort ([rangeAt 0x3000 1, rangeAt 0x1000 2, rangeAt 0x1000 3] ++ [rangeAt 0 4]) 3 =
      .ok (ys ++ [rangeAt 0 4]) ∧
      ys = [rangeAt 0x1000 2, rangeAt 0x1000 3, rangeAt 0x3000 1] := by
  obtain ⟨ys, hret, -⟩ := phymmargeSort_stable [rangeAt 0x3000 1, rangeAt 0x1000 2, rangeAt 0x1000 3] [rangeAt 0 4]
    (by decide) (by decide)
  refine ⟨ys, hret, ?_⟩
  have heval : phymmargeSort ([rangeAt 0x3000 1, rangeAt 0x1000 2, rangeAt 0x1000 3] ++ [rangeAt 0 4]) 3 =
      .ok ([rangeAt 0x1000 2, rangeAt 0x1000 3, rangeAt 0x3000 1] ++ [rangeAt 0 4]) := by rfl
  exact List.append_cancel_right (Except.ok.inj (hret.symm.trans heval))

end Cosmos.Page
