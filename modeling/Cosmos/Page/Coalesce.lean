import Mathlib.Algebra.BigOperators.Group.Finset.Basic
import Cosmos.Page.Runs

/-!
# What the lists look like when everything is free again

A freed block joins any neighbour of its order, not a fixed buddy, so the lists of boot need not come back. What
comes back is the count of free pages; every page of the area is in exactly one free block, and no two blocks of one
order are neighbours. The lists are those of boot exactly when every free block lies aligned in a block of boot.
-/

namespace Cosmos.Page

open Cosmos.Lib Halt Function

variable {b : Boot} {s₀ s s' : Memmgrob} {live live' : Finset Blk} {a k m n : Nat}

/-! ### The count of free pages -/

def liveSize (s : Memmgrob) (a : Nat) (live : Finset Blk) : Nat :=
  ∑ c ∈ live with (s.msa c.1).mfMarty = a + 1, c.2

theorem liveSize_congr (h : Kept s s') (a : Nat) (live : Finset Blk) : liveSize s' a live = liveSize s a live := by
  simp only [liveSize, h.marty]

theorem liveSize_insert (hmem : (m, n) ∉ live) (a' : Nat) : liveSize s a' (insert (m, n) live) =
    liveSize s a' live + if (s.msa m).mfMarty = a' + 1 then n else 0 := by
  unfold liveSize
  rw [Finset.filter_insert]
  by_cases hm : (s.msa m).mfMarty = a' + 1
  · rw [if_pos hm, if_pos hm, Finset.sum_insert (by simp [hmem]), Nat.add_comm]
  · rw [if_neg hm, if_neg hm]
    exact (Nat.add_zero _).symm

/-- Free and live pages of area `a`, as the 64-bit counter counts them. -/
def pagesOf (s : Memmgrob) (live : Finset Blk) (a : Nat) : Nat :=
  u64 ((s.marea a).maFreepages + liveSize s a live)

theorem u64_u64Sub_add {x n : Nat} (hn : n ≤ 2 ^ 64) (y : Nat) : u64 (u64Sub x n + (y + n)) = u64 (x + y) := by
  unfold u64 u64Sub
  omega

theorem u64_u64_add (x y : Nat) : u64 (u64 x + y) = u64 (x + y) := by
  unfold u64
  omega

theorem pnr_le_msanr (h : Inv s ∅ ↑live) (hmem : (m, pnr k) ∈ live) : pnr k < 2 ^ 64 := by
  have hpos := pnr_pos k
  have hlt := (h.lt_of_used (b := (m, pnr k)) (.inr hmem) (i := m + pnr k - 1) (show m ≤ _ by omega)
    (show _ < m + pnr k by omega)).1
  have hsmall := h.small
  omega

theorem Effect.pagesOf_eq (he : Effect s live s' live') (h : Inv s ∅ ↑live) (a' : Nat) :
    pagesOf s' live' a' = pagesOf s live a' := by
  have hkept := he.kept
  have hinv := he.inv h
  unfold pagesOf
  rw [liveSize_congr hkept]
  cases he with
  | refused => rfl
  | @took s' a k m hh =>
    obtain ⟨div, s₁, htook, rfl⟩ := hh
    have hmarty := htook.marty h
    have hsmall := pnr_le_msanr hinv (Finset.mem_insert_self _ _)
    rw [liveSize_insert (by simpa using htook.fresh), hmarty]
    by_cases ha : a' = a
    · subst ha
      rw [if_pos rfl, ← htook.same.marea]
      simp only [counted, mmUpdateMemmgrob, mmUpdateMemarea, Memmgrob.setMarea, update_self, if_true]
      exact u64_u64Sub_add hsmall.le _
    · rw [if_neg (by omega), ← htook.same.marea]
      simp only [counted, mmUpdateMemmgrob, mmUpdateMemarea, Memmgrob.setMarea, update_of_ne ha, if_true,
        Nat.add_zero]
  | @freed s' a m n hmem hblk hf =>
    obtain ⟨s₁, hsame, rfl⟩ := hf.counted
    have hpos := h.used_pos (.inr hmem)
    have hmarty : (s.msa m).mfMarty = a + 1 := hblk.marty m le_rfl (Nat.lt_add_of_pos_right hpos)
    have hsize : liveSize s a' live = liveSize s a' (live.erase (m, n)) + if a + 1 = a' + 1 then n else 0 := by
      rw [← hmarty, ← liveSize_insert (by simp), Finset.insert_erase hmem]
    rw [hsize]
    by_cases ha : a' = a
    · subst ha
      rw [if_pos rfl, ← hsame.marea]
      simp only [countFree, mmUpdateMemmgrob, mmUpdateMemarea, Memmgrob.setMarea, update_self,
        Bool.false_eq_true, if_false]
      rw [u64_u64_add]
      congr 1
      omega
    · rw [if_neg (by omega), ← hsame.marea]
      simp only [countFree, mmUpdateMemmgrob, mmUpdateMemarea, Memmgrob.setMarea, update_of_ne ha,
        Bool.false_eq_true, if_false, Nat.add_zero]

/-- The counters stay words, and the size of an area stays. -/
structure Sized (s₀ s : Memmgrob) : Prop where
  freepages : ∀ a, (s.marea a).maFreepages < 2 ^ 64
  maxpages : ∀ a, (s.marea a).maMaxpages = (s₀.marea a).maMaxpages

theorem sized_update (h : Sized s₀ s) (a n : Nat) (alloc : Bool) : Sized s₀ (mmUpdateMemarea s a n alloc) := by
  refine ⟨fun a' => ?_, fun a' => ?_⟩ <;> by_cases ha : a' = a
  · subst ha
    simp only [mmUpdateMemarea, Memmgrob.setMarea, update_self]
    cases alloc
    · exact u64_lt _
    · exact Nat.mod_lt _ (by norm_num)
  · simp only [mmUpdateMemarea, Memmgrob.setMarea, update_of_ne ha]
    exact h.freepages a'
  · subst ha
    simp only [mmUpdateMemarea, Memmgrob.setMarea, update_self]
    cases alloc <;> exact h.maxpages a'
  · simp only [mmUpdateMemarea, Memmgrob.setMarea, update_of_ne ha]
    exact h.maxpages a'

theorem Effect.sized (he : Effect s live s' live') (h : Sized s₀ s) : Sized s₀ s' := by
  have hsame : ∀ {s₁}, Same s s₁ → Sized s₀ s₁ := fun hs =>
    ⟨fun a => hs.marea ▸ h.freepages a, fun a => hs.marea ▸ h.maxpages a⟩
  cases he with
  | refused => exact h
  | @took s' a k m hh =>
    obtain ⟨div, s₁, htook, rfl⟩ := hh
    have hupd := sized_update (hsame htook.same) a (pnr k) true
    exact ⟨hupd.freepages, hupd.maxpages⟩
  | @freed s' a m n _ _ hf =>
    obtain ⟨s₁, hs, rfl⟩ := hf.counted
    have hupd := sized_update (hsame hs) a n false
    exact ⟨hupd.freepages, hupd.maxpages⟩

/-! ### Blocks of boot -/

/-- The block of slot `k` from `m` on lies in a block of `s₀`, at a multiple of its size. -/
def Aligned (s₀ : Memmgrob) (a k m : Nat) : Prop :=
  ∃ K M, M ∈ (s₀.bafh a K).afFrelst ∧ M ≤ m ∧ m + pnr k ≤ M + pnr K ∧ pnr k ∣ m - M

section Lists

variable (h₀ : Inv s₀ ∅ ∅) (h : Inv s ∅ ∅) (hkept : Kept s₀ s) (ha : a < 2)

include h₀ h hkept

theorem exists_block {K M i : Nat} (hM : M ∈ (s₀.bafh a K).afFrelst) (hlo : M ≤ i) (hhi : i < M + pnr K) :
    ∃ k m, m ∈ (s.bafh a k).afFrelst ∧ m ≤ i ∧ i < m + pnr k := by
  have hpage : i ∈ pages s := by
    have hlt := h₀.lt_of_free hM hlo hhi
    exact ⟨hkept.msanr.symm ▸ hlt.1, (hkept.mocty i).symm ▸ hlt.2⟩
  obtain ⟨o, ho, hio⟩ := (h.tile.cover i).mp hpage
  cases o with
  | free a' k m =>
    have hmarty := (h.free a' k m ho).marty i hio.1 hio.2
    rw [hkept.marty, (h₀.free a K M hM).marty i hlo hhi] at hmarty
    obtain rfl : a' = a := by omega
    exact ⟨k, m, ho, hio⟩
  | used m n => simp at ho

include ha

theorem mem_of_aligned (halign : ∀ k, ∀ m ∈ (s.bafh a k).afFrelst, Aligned s₀ a k m) {K M : Nat}
    (hM : M ∈ (s₀.bafh a K).afFrelst) : M ∈ (s.bafh a K).afFrelst := by
  have hslot : ∀ {k m}, m ∈ (s.bafh a k).afFrelst → k < mdivmerArrLmax := fun hm => by
    have hs := h.slot a _ _ hm
    unfold SlotOk at hs
    omega
  have hK : K < mdivmerArrLmax := by
    have hs := h₀.slot a K M hM
    unfold SlotOk at hs
    omega
  have hKpnr := pnr_of_lt hK
  -- a free block that meets the block of `s₀` lies in it, at a multiple of its size
  have hinside : ∀ {k m i}, m ∈ (s.bafh a k).afFrelst → m ≤ i → i < m + pnr k → M ≤ i → i < M + pnr K →
      M ≤ m ∧ m + pnr k ≤ M + pnr K ∧ pnr k ∣ m - M := by
    intro k m i hm hmi him hMi hiM
    obtain ⟨K', M', hM', hle, hend, hdvd⟩ := halign k m hm
    have heq := h₀.tile.once (.free a K M) hM (.free a K' M') hM' i ⟨hMi, hiM⟩ ⟨by omega, by omega⟩
    injection heq with _ hKK hMM
    subst hKK hMM
    exact ⟨hle, hend, hdvd⟩
  let T : Set (Nat × Nat) := { p | M + p.1 ∈ (s.bafh a p.2).afFrelst ∧ p.1 < 2 ^ K }
  have hT : ∀ p ∈ T, p.1 + 2 ^ p.2 ≤ 2 ^ K ∧ 2 ^ p.2 ∣ p.1 := by
    rintro ⟨x, j⟩ ⟨hx, hlt⟩
    simp only at hx hlt ⊢
    have hpnr := pnr_of_lt (hslot hx)
    have hpos := pnr_pos j
    obtain ⟨-, hend, hdvd⟩ := hinside hx le_rfl (by omega) (by omega) (by omega)
    rw [Nat.add_sub_cancel_left, hpnr] at hdvd
    exact ⟨by omega, hdvd⟩
  have htile : Tiling cell (Set.Iio (2 ^ K)) T := by
    refine ⟨fun p _ => ⟨p.1, le_rfl, Nat.lt_add_of_pos_right (Nat.two_pow_pos _)⟩, fun i => ⟨fun hi => ?_, ?_⟩, ?_⟩
    · rw [Set.mem_Iio] at hi
      obtain ⟨k, m, hm, hlo, hhi⟩ := exists_block h₀ h hkept hM (i := M + i) (by omega) (by omega)
      have hpnr := pnr_of_lt (hslot hm)
      obtain ⟨hle, hend, -⟩ := hinside hm hlo hhi (by omega) (by omega)
      have hpos := pnr_pos k
      refine ⟨(m - M, k), ⟨?_, show m - M < 2 ^ K by omega⟩, show m - M ≤ i by omega, show i < m - M + 2 ^ k by omega⟩
      rw [Nat.add_sub_cancel' hle]
      exact hm
    · rintro ⟨p, hp, hi⟩
      have := (hT p hp).1
      have := hi.2
      rw [Set.mem_Iio]
      omega
    · rintro ⟨x, j⟩ hp ⟨y, l⟩ hq i hi hi'
      have hj := pnr_of_lt (hslot hp.1)
      have hl := pnr_of_lt (hslot hq.1)
      simp only [cell, Set.mem_ofPred_eq] at hi hi' hj hl
      have heq := h.tile.once (.free a j (M + x)) hp.1 (.free a l (M + y)) hq.1 (M + i)
        ⟨by omega, by omega⟩ ⟨by omega, by omega⟩
      injection heq with _ hjl hxy
      rw [hjl, show x = y by omega]
  have hwhole := whole_mem_of_alone htile (fun p hp => (hT p hp).2) ?_
  · have hmem := hwhole.1
    rwa [Nat.add_zero] at hmem
  -- two cells of one size side by side would be neighbours on one list
  · intro x j hx hy
    have hfst := (hT _ hx).1
    have hsnd := (hT _ hy).1
    simp only at hfst hsnd
    have hj51 : j < mdivmerArrLmax - 1 := by
      by_contra hge
      have hmono : 2 ^ K ≤ 2 ^ j := Nat.pow_le_pow_right (by omega) (by omega)
      have := Nat.two_pow_pos j
      omega
    have hpnr : pnr j = 2 ^ j := pnr_of_lt (hslot hx.1)
    have hpos := pnr_pos j
    have hregion := (h₀.free a K M hM).padrs
    refine h.alone a ha j hj51 _ hx.1 _ hy.1 ⟨by simp only; omega, ?_⟩
    simp only
    rw [hkept.padrs, hkept.padrs, hregion (M + x + pnr j - 1) (by omega) (by omega),
      hregion (M + (x + 2 ^ j)) (by omega) (by omega)]
    omega

/-- **The lists of `s₀` are back exactly when every free block is aligned in a block of `s₀`.** -/
theorem lists_eq_iff : (∀ k m, m ∈ (s.bafh a k).afFrelst ↔ m ∈ (s₀.bafh a k).afFrelst) ↔
    ∀ k, ∀ m ∈ (s.bafh a k).afFrelst, Aligned s₀ a k m := by
  constructor
  · intro heq k m hm
    exact ⟨k, m, (heq k m).mp hm, le_rfl, le_rfl, by simp⟩
  · intro halign k m
    refine ⟨fun hm => ?_, fun hm => mem_of_aligned h₀ h hkept ha halign hm⟩
    obtain ⟨K, M, hM, hle, hend, -⟩ := halign k m hm
    have hpos := pnr_pos k
    have heq := h.tile.once (.free a K M) (mem_of_aligned h₀ h hkept ha halign hM) (.free a k m) hm m
      ⟨hle, by omega⟩ ⟨le_rfl, by omega⟩
    injection heq with _ hKk hMm
    rwa [hKk, hMm] at hM

end Lists

/-! ### Requests -/

theorem mmDivisionPages_grants_iff (h : Inv s ∅ ∅) (ha : a < 2) (pages flgs : Nat) :
    (∃ c s', mmDivisionPages s pages (a + 1) flgs = .ok (some c, s')) ↔
      (flgs = dmfReldiv ∧ Satisfiable s a pages) ∨
        (flgs = dmfMaxdiv ∧ ∃ k < mdivmerArrLmax, (s.bafh a k).afFrelst ≠ []) := by
  rw [mmDivisionPages_core h ha]
  by_cases hrel : flgs = dmfReldiv
  · subst hrel
    rcases mmDivpagesCore_reldiv h ha pages with ⟨hsat, heq⟩ | ⟨hsat, m, s', heq, -⟩
    · rw [heq]
      simp [hsat, show dmfReldiv ≠ dmfMaxdiv by decide]
    · exact ⟨fun _ => .inl ⟨rfl, hsat⟩, fun _ => ⟨_, s', heq⟩⟩
  · by_cases hmax : flgs = dmfMaxdiv
    · subst hmax
      rcases mmDivpagesCore_maxdiv h ha pages with ⟨hnil, heq⟩ | ⟨k, m, s', heq, hh⟩
      · refine ⟨fun ⟨c, s', hc⟩ => ?_, ?_⟩
        · rw [heq] at hc
          simp at hc
        · rintro (⟨h1, -⟩ | ⟨-, k, hk, hne⟩)
          · exact absurd h1 hrel
          · exact absurd (hnil k hk) hne
      · obtain ⟨div, s₁, htook, -⟩ := hh
        obtain ⟨frelst, hhead, -⟩ := htook.head
        have hslot := h.slot a div m htook.mem
        unfold SlotOk at hslot
        exact ⟨fun _ => .inr ⟨rfl, div, by omega, by rw [hhead]; simp⟩, fun _ => ⟨_, s', heq⟩⟩
    · have hnone : mmDivpagesCore s a pages flgs = .ok (none, s) := if_pos ⟨hrel, hmax⟩
      rw [hnone]
      simp [hrel, hmax]

theorem runHalt_counted (h₀ : Inv s₀ ∅ ∅) (hfree : ∀ a, (s₀.marea a).maFreepages < 2 ^ 64) {ops : List Op}
    (hops : ∀ op ∈ ops, op.InArray s₀.moMsanr) (hrun : runHalt step (s₀, ∅) ops = .ok (s, live)) :
    Inv s ∅ ↑live ∧ Kept s₀ s ∧ Sized s₀ s ∧ ∀ a, pagesOf s live a = pagesOf s₀ ∅ a := by
  have hstep : ∀ (t : Memmgrob × Finset Blk) op, Op.InArray s₀.moMsanr op →
      (Inv t.1 ∅ ↑t.2 ∧ Kept s₀ t.1 ∧ Sized s₀ t.1 ∧ ∀ a, pagesOf t.1 t.2 a = pagesOf s₀ ∅ a) →
      ∃ t', step t op = .ok t' ∧
        (Inv t'.1 ∅ ↑t'.2 ∧ Kept s₀ t'.1 ∧ Sized s₀ t'.1 ∧ ∀ a, pagesOf t'.1 t'.2 a = pagesOf s₀ ∅ a) := by
    rintro ⟨t, l⟩ op hop ⟨hinv, hkept, hsized, hpages⟩
    obtain ⟨t', l', heq, he⟩ := step_effect hinv (hkept.msanr ▸ hop)
    exact ⟨(t', l'), heq, he.inv hinv, hkept.trans he.kept, he.sized hsized,
      fun a => (he.pagesOf_eq hinv a).trans (hpages a)⟩
  have hstart : Inv s₀ ∅ ↑(∅ : Finset Blk) := by rwa [Finset.coe_empty]
  obtain ⟨t, heq, hinv⟩ := runHalt_inv hstep ops hops (s₀, ∅) ⟨hstart, .refl s₀, ⟨hfree, fun _ => rfl⟩, fun _ => rfl⟩
  rw [hrun] at heq
  injection heq with heq
  subst heq
  exact hinv

/-- **When everything is free again**: the number of free pages of an area is that of boot, every free page of boot is
in exactly one free block, no two free blocks of one order are neighbours, and the lists are those of boot exactly
when each free block is aligned in a block of boot; in that case every request granted at boot is granted again. -/
theorem coalesced_of_run (b : Boot) (hb : b.Wf) {s₀ s : Memmgrob} (hboot : boot b = .ok s₀) (ops : List Op)
    (hops : ∀ op ∈ ops, op.InArray b.msanr) (hrun : runHalt step (s₀, ∅) ops = .ok (s, ∅)) (a : Nat) (ha : a < 2) :
    (s.marea a).maFreepages = (s₀.marea a).maFreepages ∧
    (∀ i < b.msanr, (b.msa i).mfMocty = .free → (s.msa i).mfMarty = a + 1 →
      ∃! p : Nat × Nat, p.2 ∈ (s.bafh a p.1).afFrelst ∧ p.2 ≤ i ∧ i < p.2 + pnr p.1) ∧
    (∀ k < mdivmerArrLmax - 1, ∀ m ∈ (s.bafh a k).afFrelst, ∀ m' ∈ (s.bafh a k).afFrelst,
      ¬Adjacent s.msa m (pnr k) m') ∧
    ((∀ k m, m ∈ (s.bafh a k).afFrelst ↔ m ∈ (s₀.bafh a k).afFrelst) ↔
      ∀ k, ∀ m ∈ (s.bafh a k).afFrelst, Aligned s₀ a k m) ∧
    ((∀ k, ∀ m ∈ (s.bafh a k).afFrelst, Aligned s₀ a k m) → ∀ pages flgs,
      (∃ c t, mmDivisionPages s₀ pages (a + 1) flgs = .ok (some c, t)) →
      ∃ c t, mmDivisionPages s pages (a + 1) flgs = .ok (some c, t)) := by
  obtain ⟨hof, h₀⟩ := of_boot hb hboot
  obtain ⟨h, hkept, hsized, hpages⟩ := runHalt_counted h₀ hof.freepages (hof.msanr ▸ hops) hrun
  rw [Finset.coe_empty] at h
  have hfree : (s.marea a).maFreepages = (s₀.marea a).maFreepages := by
    have heq := hpages a
    simp only [pagesOf, liveSize, Finset.filter_empty, Finset.sum_empty, Nat.add_zero] at heq
    rwa [u64_of_lt (hsized.freepages a), u64_of_lt (hof.freepages a)] at heq
  refine ⟨hfree, fun i hi hmocty hmarty => ?_, h.alone a ha, lists_eq_iff h₀ h hkept ha, fun halign pages flgs => ?_⟩
  · have hpage : i ∈ pages s := by
      refine ⟨?_, ?_⟩
      · rw [hkept.msanr, hof.msanr]
        exact hi
      · rw [hkept.mocty, hof.mocty, hmocty]
        simp
    obtain ⟨o, ⟨ho, hio⟩, huniq⟩ := h.tile.existsUnique hpage
    cases o with
    | free a' k m =>
      have ha' := (h.free a' k m ho).marty i hio.1 hio.2
      obtain rfl : a' = a := by omega
      refine ⟨(k, m), ⟨ho, hio⟩, fun p hp => ?_⟩
      have heq := huniq (.free a' p.1 p.2) ⟨hp.1, hp.2⟩
      injection heq with _ h1 h2
      exact Prod.ext h1 h2
    | used m n => simp at ho
  · have hlists := (lists_eq_iff h₀ h hkept ha).mpr halign
    have hnil : ∀ k, (s₀.bafh a k).afFrelst ≠ [] → (s.bafh a k).afFrelst ≠ [] := by
      intro k hne hnil
      obtain ⟨m, hm⟩ := List.exists_mem_of_ne_nil _ hne
      have hm' := (hlists k m).mpr hm
      simp [hnil] at hm'
    rw [mmDivisionPages_grants_iff h₀ ha, mmDivisionPages_grants_iff h ha]
    rintro (⟨hrel, hscan, k, h1, h2, h3⟩ | ⟨hmax, k, h1, h2⟩)
    · refine .inl ⟨hrel, ?_, k, h1, h2, hnil k h3⟩
      rw [scanMapgsallocOk, hfree, hsized.maxpages]
      exact hscan
    · exact .inr ⟨hmax, k, h1, hnil k h2⟩

/-- One page of four is taken and given back. -/
theorem coalesced_of_four : ∃ s₀ s, boot (freeBoot 4) = .ok s₀ ∧
    runHalt step (s₀, ∅) [.divisionPages 1 maTypeHwad dmfReldiv, .mergePages 0 1] = .ok (s, ∅) ∧
    (s.marea 0).maFreepages = (s₀.marea 0).maFreepages ∧
    ((∀ k m, m ∈ (s.bafh 0 k).afFrelst ↔ m ∈ (s₀.bafh 0 k).afFrelst) ↔
      ∀ k, ∀ m ∈ (s.bafh 0 k).afFrelst, Aligned s₀ 0 k m) := by
  have heval : (boot (freeBoot 4) >>= fun s₀ =>
      runHalt step (s₀, ∅) [.divisionPages 1 maTypeHwad dmfReldiv, .mergePages 0 1] >>= fun t =>
        .ok t.2) = (.ok ∅ : Halt (Finset Blk)) := by decide +kernel
  obtain ⟨s₀, hboot, hrest⟩ := bind_eq_ok heval
  obtain ⟨⟨s, live⟩, hrun, hlive⟩ := bind_eq_ok hrest
  injection hlive with hlive
  simp only at hlive
  subst hlive
  obtain ⟨hfree, -, -, hlists, -⟩ := coalesced_of_run (freeBoot 4) (freeBoot_wf (by norm_num) (by norm_num)) hboot
    [.divisionPages 1 maTypeHwad dmfReldiv, .mergePages 0 1] (by simp [Op.InArray, freeBoot]) hrun 0 (by norm_num)
  exact ⟨s₀, s, hboot, hrun, hfree, hlists⟩

/-- Four pages, taken one by one; the middle two are given back first. -/
def fragmentOps : List Op :=
  List.replicate 4 (.divisionPages 1 maTypeHwad dmfReldiv) ++
    [.mergePages 1 1, .mergePages 2 1, .mergePages 0 1, .mergePages 3 1]

/-- The middle pages have become a block of two, and four pages in a row are not to be had any more. -/
theorem fragmented_after_free : ∃ s₀ s, boot (freeBoot 4) = .ok s₀ ∧ runHalt step (s₀, ∅) fragmentOps = .ok (s, ∅) ∧
    (s₀.bafh 0 2).afFrelst = [0] ∧ (s.bafh 0 2).afFrelst = [] ∧ (s.bafh 0 1).afFrelst = [1] ∧
    (∃ t, mmDivisionPages s₀ 4 maTypeHwad dmfReldiv = .ok (some (0, 4), t)) ∧
    ∃ t, mmDivisionPages s 4 maTypeHwad dmfReldiv = .ok (none, t) := by
  have heval : (boot (freeBoot 4) >>= fun s₀ => runHalt step (s₀, ∅) fragmentOps >>= fun t =>
      mmDivisionPages s₀ 4 maTypeHwad dmfReldiv >>= fun r₀ => mmDivisionPages t.1 4 maTypeHwad dmfReldiv >>= fun r =>
        .ok (decide (t.2 = ∅ ∧ (s₀.bafh 0 2).afFrelst = [0] ∧ (t.1.bafh 0 2).afFrelst = [] ∧
          (t.1.bafh 0 1).afFrelst = [1] ∧ r₀.1 = some (0, 4) ∧ r.1 = none))) = (.ok true : Halt Bool) := by
    decide +kernel
  obtain ⟨s₀, hboot, hrest⟩ := bind_eq_ok heval
  obtain ⟨⟨s, live⟩, hrun, hrest⟩ := bind_eq_ok hrest
  obtain ⟨⟨r₀, t₀⟩, hr₀, hrest⟩ := bind_eq_ok hrest
  obtain ⟨⟨r, t⟩, hr, heq⟩ := bind_eq_ok hrest
  simp only [Except.ok.injEq, decide_eq_true_eq] at heq
  obtain ⟨rfl, h1, h2, h3, rfl, rfl⟩ := heq
  exact ⟨s₀, s, hboot, hrun, h1, h2, h3, ⟨t₀, hr₀⟩, ⟨t, hr⟩⟩

end Cosmos.Page
