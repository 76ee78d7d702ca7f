import Cosmos.Vma.Refine
import Cosmos.Vma.Runs

/-!
# Which free ranges can be allocated

`vma_new_vadrs` looks for a gap behind an interval. A free range with an interval below it is always found, the
one that reaches the end of the space included; one below every interval never is, so a process that gives its
lowest interval back cannot have the addresses again.
-/

namespace Cosmos.Vma

open Cosmos.Lib Kmvarsdsc

/-! ### The bounds of the space stay -/

theorem vsIsalcend_run {vma vma' : Virmemadrs} {c : Call} (hc : c.NoWrap) (hwf : Wf vma) (h : Step vma c vma') :
    vma'.vsIsalcend = vma.vsIsalcend := by
  obtain ⟨hfresh, rfl⟩ := h
  cases c with
  | newVadrs start vassize limits type newkmvd =>
    simp only [Call.run]
    rcases vmaNewVadrs_cases hwf start vassize limits type newkmvd hfresh hc with
      heq | ⟨pre, k, post, vma', -, -, -, heq, hshape⟩
    · rw [heq]
    · rw [heq]
      cases hshape <;> rfl
  | delVadrs start vassize newkmvd =>
    simp only [Call.run]
    rcases vmaDelVadrs_cases hwf start vassize newkmvd hfresh hc with
      heq | ⟨pre, k, post, -, -, -, -, hshape⟩
    · rw [heq]
      rfl
    · generalize vmaDelVadrs vma start vassize newkmvd = out at hshape ⊢
      cases hshape <;> simp

/-- A state that calls which do not wrap reach from a new process. -/
structure Reached (vma : Virmemadrs) : Prop extends Wf vma where
  isalcend_eq : vma.vsIsalcend = userVirtualAddressEnd

theorem Reached.step {vma vma' : Virmemadrs} {c : Call} (hr : Reached vma) (hc : c.NoWrap) (h : Step vma c vma') :
    Reached vma' :=
  ⟨wf_step hc hr.toWf h, (vsIsalcend_run hc hr.toWf h).trans hr.isalcend_eq⟩

theorem reached_of_run {d₁ d₂ d₃ : Nat} {cs : List Call} {vma : Virmemadrs} (hd : [d₁, d₂, d₃].Nodup)
    (hrun : Trace Step (userspace d₁ d₂ d₃) cs vma) (hcs : ∀ c ∈ cs, c.NoWrap) : Reached vma :=
  hrun.inv (fun _ _ _ hc hr h => hr.step hc h) hcs ⟨wf_userspace hd, rfl⟩

/-! ### The search -/

section Search

variable {vma : Virmemadrs} {pre post : List Kmvarsdsc} {k : Kmvarsdsc} {start n : Nat}

theorem isOk_of_fits (hsplit : Nodes.Split kvaAdr vma.vsList pre k post) (h0 : start ≠ 0)
    (hsum : start + n < 2 ^ 64) (hfits : Fits vma k post start n) :
    vmaFindKmvarsdscIsOk vma k start n = some k := by
  simp only [vmaFindKmvarsdscIsOk]
  rw [hsplit.next?_eq, u64_of_lt hsum]
  cases hpost : post with
  | nil =>
    simp only [List.head?_nil]
    rw [if_neg h0, if_pos ⟨hfits.behind, hfits.last hpost⟩]
  | cons p post' =>
    simp only [List.head?_cons]
    rw [if_neg h0, if_pos ⟨hfits.behind, hfits.next p (by rw [hpost]; rfl)⟩]

/-- The last walk over the list takes any interval, so one gap that fits is enough. -/
theorem exists_find_of_isOk (limits type : Nat) (hmem : k ∈ vma.vsList)
    (hok : vmaFindKmvarsdscIsOk vma k start n = some k)
    (hn : 0x1000 ≤ n) (hend : u64 (start + n) ≤ vma.vsIsalcend) :
    ∃ k', vmaFindKmvarsdsc vma start n limits type = some k' := by
  simp only [vmaFindKmvarsdsc]
  rw [if_neg (by omega), if_neg (by omega)]
  refine Option.isSome_iff_exists.mp ?_
  have hlast : (vma.vsList.findSome? fun curr => vmaFindKmvarsdscIsOk vma curr start n).isSome := by
    rw [List.findSome?_isSome_iff]
    exact ⟨k, hmem, by rw [hok]; rfl⟩
  simp only [Option.isSome_or, hlast, Bool.or_true]

theorem vmaNewVadrsCore_fst_of_find {limits type adr : Nat} (h0 : start ≠ 0)
    (hfind : vmaFindKmvarsdsc vma start n limits type = some k) :
    (vmaNewVadrsCore vma start n limits type (some adr)).1 = start := by
  rw [vmaNewVadrsCore, hfind]
  simp only
  split
  · next hext => exact (hext.1.resolve_left h0).symm
  · exact if_neg h0

end Search

/-- **A free range is allocated exactly when an interval lies below it.** -/
theorem vmaNewVadrs_fst_eq_iff (d₁ d₂ d₃ : Nat) {cs : List Call} {vma : Virmemadrs} (hd : [d₁, d₂, d₃].Nodup)
    (hrun : Trace Step (userspace d₁ d₂ d₃) cs vma) (hcs : ∀ c ∈ cs, c.NoWrap) {start size limits type adr : Nat}
    (halign : start % 0x1000 = 0) (hstart : 0x1000 ≤ start) (hsize : 1 ≤ size)
    (hend : start + pageRound size ≤ vma.vsIsalcend)
    (hfree : ∀ x, start ≤ x → x < start + pageRound size → cover vma x = none)
    (hfresh : adr ∉ vma.vsList.map kvaAdr) :
    (vmaNewVadrs vma start size limits type (some adr)).1 = start ↔ ∃ k ∈ vma.vsList, k.kvaEnd ≤ start := by
  have hr := reached_of_run hd hrun hcs
  have hlt := hr.isalcend_lt
  have hround : vadszAlign size = pageRound size := vadszAlign_eq (show start + pageRound size ≤ 2 ^ 64 - 1 by omega)
  have hn := pageRound_spec hsize
  constructor
  · intro hret
    rcases vmaNewVadrs_cases hr.toWf start size limits type (some adr) (fun _ h => by cases h; exact hfresh)
      (by omega) with heq | ⟨pre, k, post, vma', hsplit, hfits, -, -, -⟩
    · rw [heq] at hret
      omega
    · have hbehind := hfits.behind
      rw [newStart, if_neg (by omega)] at hbehind
      exact ⟨k, by rw [hsplit.eq]; simp, hbehind⟩
  · intro hbelow
    obtain ⟨pre, k, post, heq, hk, hpost⟩ := hr.ordered.exists_gap (r := start) (n := pageRound size) (by omega)
      (fun x hlo hhi => Option.map_eq_none_iff.mp (hfree x hlo hhi)) hbelow
    have hmem : k ∈ vma.vsList := by
      rw [heq]
      simp
    -- the end of the space is no page boundary, so its strict bound costs nothing
    have hlast : start + pageRound size < vma.vsIsalcend := by
      rw [hr.isalcend_eq] at hend ⊢
      unfold userVirtualAddressEnd at hend ⊢
      omega
    have hsplit := Nodes.split_of_eq hr.nodup heq
    have hfits : Fits vma k post start (pageRound size) :=
      ⟨hk, fun p hp => hpost p (List.mem_of_mem_head? hp), fun _ => hlast⟩
    have hok := isOk_of_fits hsplit (by omega) (by omega) hfits
    obtain ⟨k', hfind⟩ := exists_find_of_isOk limits type hmem hok hn.1 (by rw [u64_of_lt (by omega)]; omega)
    rw [vmaNewVadrs, if_neg (by omega), if_neg, hround]
    · exact vmaNewVadrsCore_fst_of_find (by omega) hfind
    · rw [u64_of_lt (by omega), ← hr.isalcend_eq]
      omega

/-- The addresses given back by cutting the text interval can be allocated again. -/
theorem realloc_of_cut :
    (vmaNewVadrs (Call.run (userspace 1 2 3) (.delVadrs 0x2000 0x1000 (some 4))) 0x2000 0x1000 0 0 (some 5)).1 =
      0x2000 := by
  have hrun : Trace Step (userspace 1 2 3) [.delVadrs 0x2000 0x1000 (some 4)]
      (Call.run (userspace 1 2 3) (.delVadrs 0x2000 0x1000 (some 4))) := .cons ⟨by decide, rfl⟩ (.nil _)
  refine (vmaNewVadrs_fst_eq_iff 1 2 3 (by decide) hrun (by decide) (by decide) (by decide) (by decide) (by decide)
    (fun x hlo hhi => ?_) (by decide)).mpr (by decide)
  have hhi' : x < 0x3000 := hhi
  refine Option.map_eq_none_iff.mpr (Intervals.at?_eq_none fun k hk => ?_)
  have hout : ∀ k ∈ (Call.run (userspace 1 2 3) (.delVadrs 0x2000 0x1000 (some 4))).vsList,
      k.kvaEnd ≤ 0x2000 ∨ 0x3000 ≤ k.kvaStart := by decide
  have := hout k hk
  omega

/-- The text interval given back whole is not covered, and cannot be allocated again. -/
theorem no_realloc_of_whole :
    (∀ x, 0x1000 ≤ x → x < 0x1000 + pageRound 0x4000 →
      cover (Call.run (userspace 1 2 3) (.delVadrs 0x1000 0x4000 none)) x = none) ∧
    Along Call.run Call.Allowed (userspace 1 2 3) [.delVadrs 0x1000 0x4000 none] ∧
    (vmaDelVadrs (userspace 1 2 3) 0x1000 0x4000 none).rets = true ∧
    (vmaNewVadrs (Call.run (userspace 1 2 3) (.delVadrs 0x1000 0x4000 none)) 0x1000 0x4000 0 0 (some 4)).1 = 0 := by
  refine ⟨fun x _ hhi => ?_, by decide⟩
  have hhi' : x < 0x5000 := hhi
  exact Option.map_eq_none_iff.mpr (Intervals.at?_none_of_starts 0x5000 (by decide) hhi')

end Cosmos.Vma
