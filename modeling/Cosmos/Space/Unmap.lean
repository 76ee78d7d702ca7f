import Cosmos.Space.Runs

/-!
# Deletion of a range and the translations

`vma_del_vadrs` takes a start address that is not on a page boundary. The interval list then loses exactly the bytes
of the range, while the loop over the pages removes the pages that the addresses `start`, `start + 0x1000`, … lie in:
the first page as a whole, and not the last one.
-/

namespace Cosmos.Space

open Cosmos.Lib Cosmos.Page Cosmos.Mmu Cosmos.Vma Kmvarsdsc

variable {A : PageAlloc} {L : Lawful A} {image : Nat → UInt8} {s t : Sys A} {rest : List Blk} {i start size n : Nat}
  {newkmvd : Option Nat}

/-- No address of the range is translated, and the addresses that intervals cover are translated as before. -/
def UnmapsExactly (s t : Sys A) (i start n : Nat) : Prop :=
  (∀ x, start ≤ x → x < start + n → t.look i x = 0) ∧
    ∀ j < s.mmnr, ∀ x, cover (t.vma j) x ≠ none → t.look j x = s.look j x

/-- The pages that the range shares with others: the last page is not mapped, and the first one is not where something
in front of the range is covered. -/
def SharedUnmapped (s : Sys A) (i start n : Nat) : Prop :=
  s.look i (start + n) = 0 ∧
    ∀ x, start / 0x1000 * 0x1000 ≤ x → x < start → cover (s.vma i) x ≠ none → s.look i x = 0

theorem lt_of_cover {vma : Virmemadrs} {x : Nat} (h : Reached vma) (hx : cover vma x ≠ none) : x < 2 ^ 47 := by
  by_contra hge
  refine hx ?_
  rw [cover, coverOf, Intervals.at?_none_of_ends userVirtualAddressEnd, Option.map_none]
  · intro k hk
    rw [← h.isalcend_eq]
    exact (h.inside k hk).2
  · exact le_trans (by decide) (Nat.le_of_not_lt hge)

theorem look_congr_page {x y : Nat} (h : x / 0x1000 = y / 0x1000) (hx : x < 2 ^ 47) (hy : y < 2 ^ 47) :
    s.look i x = s.look i y := lookup_congr ((pageOf_eq_iff hy hx).mpr h)

/-- **Deletion unmaps exactly its range** when the start is on a page boundary, or when what lies on the shared pages
was not mapped. -/
theorem vma_del_unmaps_iff {cs : List Call} (h : Ran L image cs s rest) (hcs : ∀ c ∈ cs, c.NoWrap) (hi : i < s.mmnr)
    (hfresh : FreshFor (s.vma i) newkmvd) (hsum : start + pageRound size < 2 ^ 64)
    (hret : vmaDelVadrs s i start size newkmvd = .ok (true, t)) :
    UnmapsExactly s t i start (pageRound size) ↔
      start % 0x1000 = 0 ∨ SharedUnmapped s i start (pageRound size) := by
  obtain ⟨frames, hinv, -⟩ := inv_of_run h hcs
  have hround : vadszAlign size = pageRound size := vadszAlign_eq (show start + pageRound size ≤ 2 ^ 64 - 1 by omega)
  have hmod : pageRound size % 0x1000 = 0 := Nat.mul_mod_left _ _
  rw [← hround] at hsum hmod ⊢
  obtain ⟨hfalse, -⟩ | ⟨-, hmin, hlt, hcover, frames', hdel, -⟩ := hinv.delVadrs hi hfresh hsum hret
  · cases hfalse
  generalize vadszAlign size = n at *
  have hcut : ∀ x, cover (t.vma i) x ≠ none → ¬(start ≤ x ∧ x < start + n) := by
    intro x hx hin
    rw [hcover, Cover.cut, if_pos hin] at hx
    exact hx rfl
  have hfront : ∀ x < start, cover (t.vma i) x = cover (s.vma i) x := fun x hx => by
    rw [hcover, Cover.cut, if_neg (by omega)]
  have hbelow : ∀ j < s.mmnr, ∀ x, cover (t.vma j) x ≠ none → x < 2 ^ 47 := fun j hj x hx =>
    lt_of_cover (hdel.inv.reached j (by rw [hdel.mmnr]; exact hj)) hx
  constructor
  · rintro ⟨hrange, hcovered⟩
    by_cases haligned : start % 0x1000 = 0
    · exact .inl haligned
    · refine .inr ⟨?_, fun x hlo hhi hx => ?_⟩
      · -- the last address of the range lies on the page of `start + n`, which the loop does not reach
        have hlast := hrange (start + n - 1) (by omega) (by omega)
        rw [hdel.look i hi _ (by omega), if_neg (by omega)] at hlast
        rw [← hlast]
        exact look_congr_page (by omega) hlt (by omega)
      · rw [← hfront x hhi] at hx
        rw [← hcovered i hi x hx, hdel.look i hi x (by omega), if_pos (by omega)]
  · intro hcond
    refine ⟨fun x hlo hhi => ?_, fun j hj x hx => ?_⟩
    · rw [hdel.look i hi x (by omega)]
      by_cases hpage : i = i ∧ start / 0x1000 ≤ x / 0x1000 ∧ x / 0x1000 < start / 0x1000 + n / 0x1000
      · rw [if_pos hpage]
      · rw [if_neg hpage]
        rcases hcond with haligned | ⟨hlast, -⟩
        · omega
        · rw [look_congr_page (show x / 0x1000 = (start + n) / 0x1000 by omega) (by omega) hlt, hlast]
    · rw [hdel.look j hj x (hbelow j hj x hx)]
      by_cases hpage : j = i ∧ start / 0x1000 ≤ x / 0x1000 ∧ x / 0x1000 < start / 0x1000 + n / 0x1000
      · obtain ⟨rfl, hpage⟩ := hpage
        have hout := hcut x hx
        rw [if_pos ⟨rfl, hpage⟩]
        rcases hcond with haligned | ⟨-, hfirst⟩
        · omega
        · rw [hfront x (by omega)] at hx
          exact (hfirst x (by omega) (by omega) hx).symm
      · rw [if_neg hpage]

def faultAt (v : Nat) : List Call := [.create 0 (some 1) (some 2) (some 3) none, .fault 0 v (some 9)]

theorem faultAt_noWrap (v : Nat) : ∀ c ∈ faultAt v, c.NoWrap := by
  intro c hc
  rcases List.mem_cons.mp hc with rfl | hc
  · trivial
  · obtain rfl := List.mem_singleton.mp hc
    trivial

theorem bump_empty : bumpLawful.Inv (0 : Nat) [] := ⟨by decide, by simp, by simp⟩

/-- A page of the stack, mapped and deleted. -/
theorem vma_del_unmaps_page : ∃ s t : Sys bump, Ran bumpLawful (fun _ => 0) (faultAt 0x7fffffffe000) s [] ∧
    s.look 0 0x7fffffffe000 = 0x2000 ∧ vmaDelVadrs s 0 0x7fffffffe000 0x1000 (some 4) = .ok (true, t) ∧
    UnmapsExactly s t 0 0x7fffffffe000 (pageRound 0x1000) := by
  obtain ⟨s, hrun, hs⟩ := Halt.exists_of_map
    (x := runCalls (fun _ => 0) (bootSys (A := bump) (0 : Nat)) (faultAt 0x7fffffffe000))
    (f := fun s => (s.look 0 0x7fffffffe000, decide (0 < s.mmnr ∧ FreshFor (s.vma 0) (some 4)),
      Except.map Prod.fst (vmaDelVadrs s 0 0x7fffffffe000 0x1000 (some 4))))
    (b := (0x2000, true, .ok true)) (by decide +kernel)
  obtain ⟨hlook, hs⟩ := Prod.mk.inj hs
  obtain ⟨hok, hdel⟩ := Prod.mk.inj hs
  obtain ⟨hi, hfresh⟩ := of_decide_eq_true hok
  obtain ⟨⟨rets, t⟩, hret, rfl⟩ := Halt.exists_of_map hdel
  have hran : Ran bumpLawful (fun _ => 0) (faultAt 0x7fffffffe000) s [] := ran_of_runCalls bump_empty hrun
  refine ⟨s, t, hran, hlook, hret, ?_⟩
  exact (vma_del_unmaps_iff hran (faultAt_noWrap _) hi hfresh (by decide) hret).mpr (.inl (by decide))

/-- One byte in front of the last page of the stack and all but one byte of that page are deleted, and the page stays
mapped. -/
theorem vma_del_leaves_page : ∃ s t : Sys bump, Ran bumpLawful (fun _ => 0) (faultAt 0x7ffffffff000) s [] ∧
    (∀ c ∈ faultAt 0x7ffffffff000, c.NoWrap) ∧ vmaDelVadrs s 0 0x7fffffffefff 0x1000 none = .ok (true, t) ∧
    ¬UnmapsExactly s t 0 0x7fffffffefff (pageRound 0x1000) := by
  obtain ⟨s, hrun, hdel⟩ := Halt.exists_of_map
    (x := runCalls (fun _ => 0) (bootSys (A := bump) (0 : Nat)) (faultAt 0x7ffffffff000))
    (f := fun s => Except.map (fun r => (r.1, r.2.look 0 0x7ffffffff000)) (vmaDelVadrs s 0 0x7fffffffefff 0x1000 none))
    (b := .ok (true, 0x2000)) (by decide +kernel)
  obtain ⟨⟨rets, t⟩, hret, hlook⟩ := Halt.exists_of_map hdel
  obtain ⟨rfl, hlook⟩ := Prod.mk.inj hlook
  refine ⟨s, t, ran_of_runCalls bump_empty hrun, faultAt_noWrap _, hret, fun hexact => ?_⟩
  have hzero := hexact.1 0x7ffffffff000 (by decide) (by decide)
  rw [hlook] at hzero
  cases hzero

end Cosmos.Space
