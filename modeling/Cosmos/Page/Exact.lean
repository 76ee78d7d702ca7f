import Cosmos.Page.Counters

/-!
# What is accepted and what is granted

`mm_merge_pages` accepts exactly the live blocks. `mm_division_pages` refuses exactly when the area has no free block
that is large enough: its first test compares the request with the counters of the area, and in every state of every
run these are the numbers of its free pages and of all its pages.
-/

namespace Cosmos.Page

open Cosmos.Lib

variable {b : Boot} {s s' s₀ : Memmgrob} {live : Finset Blk} {a k m n : Nat}

/-! ### The calls -/

/-- **A free is accepted exactly for a live block**, and anything else leaves the state as it is. -/
theorem merge_iff_live (b : Boot) (hb : b.Wf) (ops : List Op) (hops : ∀ op ∈ ops, op.InArray b.msanr) :
    ∃ s₀ s live, boot b = .ok s₀ ∧ runHalt step (s₀, ∅) ops = .ok (s, live) ∧
      ∀ m < b.msanr, ∀ n, 1 ≤ n → ∃ r s', mmMergePages s m n = .ok (r, s') ∧ (r = true ↔ (m, n) ∈ live) ∧
        (r = false → s' = s) := by
  obtain ⟨s₀, s, live, hboot, hrun, hof, h, hkept⟩ := run_of_boot hb hops
  refine ⟨s₀, s, live, hboot, hrun, fun m hm n _ => ?_⟩
  by_cases hmem : (m, n) ∈ live
  · have hinsert : Inv s ∅ (insert (m, n) ↑(live.erase (m, n))) := by
      rw [← Finset.coe_insert, Finset.insert_erase hmem]
      exact h
    obtain ⟨s', a, heq, -⟩ := mmMergePages_freed hinsert (by simp)
    exact ⟨true, s', heq, by simp [hmem], by simp⟩
  · have hlt : m < s.moMsanr := by
      rw [hkept.msanr, hof.msanr]
      exact hm
    exact ⟨false, s, mmMergePages_refused h hlt (by simpa using hmem), by simp [hmem], fun _ => rfl⟩

/-- One page of four is taken: its free is accepted, with the right count only. -/
theorem merge_iff_live_four : ∃ s₀ s live, boot (freeBoot 4) = .ok s₀ ∧
    runHalt step (s₀, ∅) [.divisionPages 1 maTypeHwad dmfReldiv] = .ok (s, live) ∧
    (∃ s', mmMergePages s 0 1 = .ok (true, s')) ∧ mmMergePages s 0 2 = .ok (false, s) := by
  obtain ⟨s₀, s, live, hboot, hrun, hiff⟩ := merge_iff_live (freeBoot 4) (freeBoot_wf (by norm_num) (by norm_num))
    [.divisionPages 1 maTypeHwad dmfReldiv] (by simp [Op.InArray])
  obtain ⟨s₀', s', live', hboot', hrun', hlive⟩ := exists_run (freeBoot 4)
    [.divisionPages 1 maTypeHwad dmfReldiv] (fun t => t.2 = {(0, 1)}) (by decide +kernel)
  obtain rfl := Except.ok.inj (hboot.symm.trans hboot')
  obtain ⟨rfl, rfl⟩ := Halt.pair_inj (hrun.symm.trans hrun')
  simp only at hlive
  refine ⟨s₀, s, live, hboot, hrun, ?_, ?_⟩
  · obtain ⟨r, s', heq, hr, -⟩ := hiff 0 (by decide) 1 (by decide)
    rw [hlive] at hr
    obtain rfl := hr.mpr (by simp)
    exact ⟨s', heq⟩
  · obtain ⟨r, s', heq, hr, hsame⟩ := hiff 0 (by decide) 2 (by decide)
    rw [hlive] at hr
    obtain rfl : r = false := by
      rw [Bool.eq_false_iff, Ne, hr]
      simp
    rw [heq, hsame rfl]

/-- A live block that reaches behind the array, where the page number has a bit more than an address has, is not taken
back: the call halts. -/
theorem live_refused_behind : (behind 3 [] [1, 2, 0x10, 0x10000000011]).Arr ∧
    ∃ s₀ s live, boot (behind 3 [] [1, 2, 0x10, 0x10000000011]) = .ok s₀ ∧
      runHalt step (s₀, ∅) [.divisionPages 2 maTypeHwad dmfReldiv] = .ok (s, live) ∧ (2, 2) ∈ live ∧
      ∀ s', mmMergePages s 2 2 ≠ .ok (true, s') := by
  refine ⟨behind_arr (by decide), ?_⟩
  obtain ⟨s₀, s, live, hboot, hrun, hmem, hhalt⟩ := exists_run (behind 3 [] [1, 2, 0x10, 0x10000000011])
    [.divisionPages 2 maTypeHwad dmfReldiv] (fun t => (2, 2) ∈ t.2 ∧ Except.toBool (mmMergePages t.1 2 2) = false)
    (by decide +kernel)
  refine ⟨s₀, s, live, hboot, hrun, hmem, fun s' hs' => ?_⟩
  simp only [hs', Except.toBool] at hhalt
  cases hhalt

/-- The area has a free block of at least as many pages as the request is rounded to. -/
def Fits (s : Memmgrob) (a pages : Nat) : Prop :=
  ∃ k, ∃ m ∈ (s.bafh a k).afFrelst, 2 ^ Nat.clog 2 pages ≤ (s.bafh a k).afOderpnr

theorem Inv.satisfiable_iff (h : Inv s ∅ ↑live) (ha : a < 2) {pages : Nat} (hpages : 1 ≤ pages)
    (hfree : (s.marea a).maFreepages = listSize s a)
    (hmax : (s.marea a).maMaxpages = listSize s a + liveSize s a live) : Satisfiable s a pages ↔ Fits s a pages := by
  constructor
  · rintro ⟨-, k, hle, hk, hne⟩
    obtain ⟨m, hm⟩ := List.exists_mem_of_ne_nil _ hne
    refine ⟨k, m, hm, ?_⟩
    rw [h.oder a k (h.slot a k m hm), pnr_of_lt hk]
    exact Nat.pow_le_pow_right (by omega) hle
  · rintro ⟨k, m, hm, hle⟩
    have hslot := h.slot a k m hm
    have hk : k < mdivmerArrLmax := by
      unfold SlotOk at hslot
      omega
    rw [h.oder a k hslot] at hle
    have hsize := h.pnr_le_listSize hm
    have hround := Nat.le_pow_clog (b := 2) (by omega) pages
    refine ⟨?_, k, ?_, hk, List.ne_nil_of_mem hm⟩
    · rw [scanMapgsallocOk, decide_eq_true_iff]
      omega
    · rw [pnr_of_lt hk] at hle
      exact (Nat.pow_le_pow_iff_right (by omega)).mp hle

theorem Inv.free_iff (h : Inv s ∅ ↑live) (hmocty : ∀ i, (s.msa i).mfMocty = (b.msa i).mfMocty) {i : Nat}
    (hi : i < s.moMsanr) : (∃ a k m, At b s live i (.free a k m)) ↔
      (b.msa i).mfMocty ≠ .krnl ∧ ∀ m n, ¬At b s live i (.live m n) := by
  obtain ⟨p, hp, huniq⟩ := h.existsUnique_at hmocty hi
  constructor
  · rintro ⟨a, k, m, hfree⟩
    have heq := huniq _ hfree
    refine ⟨fun hkrnl => ?_, fun m' n hlive => ?_⟩
    · exact absurd (heq.trans (huniq .krnl hkrnl).symm) (by simp)
    · exact absurd (heq.trans (huniq _ hlive).symm) (by simp)
  · rintro ⟨hkrnl, hlive⟩
    cases p with
    | free a k m => exact ⟨a, k, m, hp⟩
    | live m n => exact absurd hp (hlive m n)
    | krnl => exact absurd hp hkrnl

/-- The `n` pages from `m` on were free pages of area `a` with consecutive addresses, now are one live block, and every
other page is as it was. -/
structure Given (b : Boot) (s s' : Memmgrob) (live : Finset Blk) (a m n : Nat) : Prop where
  free : ∀ i, m ≤ i → i < m + n → i < b.msanr ∧ ∃ k m', At b s live i (.free a k m')
  padrs : ∀ i, m ≤ i → i < m + n → (s.msa i).pafPadrs = (s.msa m).pafPadrs + (i - m)
  otherFree : ∀ i < b.msanr, ¬(m ≤ i ∧ i < m + n) →
    ((∃ a k m', At b s' (insert (m, n) live) i (.free a k m')) ↔ ∃ a k m', At b s live i (.free a k m'))
  otherLive : ∀ i < b.msanr, ¬(m ≤ i ∧ i < m + n) →
    ∀ m' n', At b s' (insert (m, n) live) i (.live m' n') ↔ At b s live i (.live m' n')

theorem Handed.given (h : Inv s ∅ ↑live) (hh : Handed s s' ↑live a k m) (hmsanr : s.moMsanr = b.msanr)
    (hmocty : ∀ i, (s.msa i).mfMocty = (b.msa i).mfMocty) : Given b s s' live a m (pnr k) := by
  have hkept := (Effect.took hh).kept
  have hinv : Inv s' ∅ ↑(insert (m, pnr k) live) := (Effect.took hh).inv h
  have hmocty' : ∀ i, (s'.msa i).mfMocty = (b.msa i).mfMocty := fun i => (hkept.mocty i).trans (hmocty i)
  have hlive : ∀ i, ¬(m ≤ i ∧ i < m + pnr k) → ∀ m' n',
      At b s' (insert (m, pnr k) live) i (.live m' n') ↔ At b s live i (.live m' n') := by
    intro i hout m' n'
    simp only [At, Finset.mem_insert, Prod.mk.injEq]
    constructor
    · rintro ⟨⟨rfl, rfl⟩ | hmem, hio⟩
      · exact absurd hio hout
      · exact ⟨hmem, hio⟩
    · exact fun hat => ⟨.inr hat.1, hat.2⟩
  have hblk := hh.liveBlk h
  refine ⟨fun i hlo hhi => ?_, fun i hlo hhi => ?_, fun i hi hout => ?_, fun i _ hout => hlive i hout⟩
  · have hlt := (hinv.lt_of_used (b := (m, pnr k)) (.inr (Finset.mem_coe.mpr (Finset.mem_insert_self _ _))) hlo hhi).1
    obtain ⟨a'', k'', m'', hat⟩ := hh.was_free h hmocty hlo hhi
    have hmarty := hblk.marty i hlo hhi
    rw [hkept.marty, hat.2.2.2] at hmarty
    obtain rfl : a'' = a := by omega
    refine ⟨?_, k'', m'', hat⟩
    rw [← hmsanr, ← hkept.msanr]
    exact hlt
  · have hpadrs := hblk.padrs i hlo hhi
    rwa [hkept.padrs, hkept.padrs] at hpadrs
  · rw [← hmsanr] at hi
    rw [h.free_iff hmocty hi, hinv.free_iff hmocty' (hkept.msanr.symm ▸ hi)]
    simp only [hlive i hout]

/-- **A request is refused exactly when no free block of the area is large enough**, and then nothing changes; else it
takes as many free pages as it is rounded to. -/
theorem division_iff_fits (b : Boot) (hb : b.Wf) (ops : List Op) (hops : ∀ op ∈ ops, op.InArray b.msanr) :
    ∃ s₀ s live, boot b = .ok s₀ ∧ runHalt step (s₀, ∅) ops = .ok (s, live) ∧ ∀ a < 2, ∀ pages, 1 ≤ pages →
      (¬Fits s a pages ∧ mmDivisionPages s pages (a + 1) dmfReldiv = .ok (none, s)) ∨
      (Fits s a pages ∧ ∃ m s', mmDivisionPages s pages (a + 1) dmfReldiv = .ok (some (m, 2 ^ Nat.clog 2 pages), s') ∧
        Given b s s' live a m (2 ^ Nat.clog 2 pages)) := by
  obtain ⟨s₀, s, live, hboot, hrun, hof, h, hkept⟩ := run_of_boot hb hops
  refine ⟨s₀, s, live, hboot, hrun, fun a ha pages hpages => ?_⟩
  have hcount := counters_exact hb hboot hops hrun a
  have hsat := h.satisfiable_iff ha hpages hcount.1 hcount.2
  have hmocty : ∀ i, (s.msa i).mfMocty = (b.msa i).mfMocty := fun i => (hkept.mocty i).trans (hof.mocty i)
  rw [mmDivisionPages_core h ha]
  rcases mmDivpagesCore_reldiv h ha pages with ⟨hno, heq⟩ | ⟨hyes, m, s', heq, hh⟩
  · exact .inl ⟨fun hfits => hno (hsat.mpr hfits), heq⟩
  · have hslot : SlotOk a (Nat.clog 2 pages) := by
      obtain ⟨div, s₁, htook, -⟩ := hh
      exact htook.slot
    have hgiven := hh.given h (hkept.msanr.trans hof.msanr) hmocty
    rw [pnr_of_lt (by unfold SlotOk at hslot; omega)] at hgiven
    exact .inr ⟨hsat.mp hyes, m, s', heq, hgiven⟩

/-- Four pages of hardware memory: three of them are asked for. -/
theorem division_iff_fits_four : ∃ s₀ s live, boot (freeBoot 4) = .ok s₀ ∧
    runHalt step (s₀, ∅) [.divisionPages 3 maTypeHwad dmfReldiv] = .ok (s, live) ∧ ∀ a < 2, ∀ pages, 1 ≤ pages →
      (¬Fits s a pages ∧ mmDivisionPages s pages (a + 1) dmfReldiv = .ok (none, s)) ∨
      (Fits s a pages ∧ ∃ m s', mmDivisionPages s pages (a + 1) dmfReldiv = .ok (some (m, 2 ^ Nat.clog 2 pages), s') ∧
        Given (freeBoot 4) s s' live a m (2 ^ Nat.clog 2 pages)) :=
  division_iff_fits (freeBoot 4) (freeBoot_wf (by norm_num) (by norm_num)) [.divisionPages 3 maTypeHwad dmfReldiv]
    (by simp [Op.InArray])

/-- One free page, and behind the array what looks like the next: a request of two pages gets both. -/
theorem handed_behind : (behind 2 [0] [0, 1, 2]).Arr ∧
    ∃ s₀ s live s', boot (behind 2 [0] [0, 1, 2]) = .ok s₀ ∧ runHalt step (s₀, ∅) [] = .ok (s, live) ∧
      mmDivisionPages s 2 maTypeHwad dmfReldiv = .ok (some (1, 2), s') ∧
      ¬Given (behind 2 [0] [0, 1, 2]) s s' live 0 1 2 := by
  refine ⟨behind_arr (by decide), ?_⟩
  obtain ⟨s₀, s, live, hboot, hrun, hcall⟩ := exists_run (behind 2 [0] [0, 1, 2]) []
    (fun t => Except.map Prod.fst (mmDivisionPages t.1 2 maTypeHwad dmfReldiv) = .ok (some (1, 2))) (by decide +kernel)
  obtain ⟨⟨r, s'⟩, heq, rfl⟩ := Halt.exists_of_map hcall
  refine ⟨s₀, s, live, s', hboot, hrun, heq, fun hgiven => ?_⟩
  exact absurd (hgiven.free 2 (by decide) (by decide)).1 (by decide)

end Cosmos.Page
