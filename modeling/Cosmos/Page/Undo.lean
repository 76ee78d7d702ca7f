import Cosmos.Page.Counters

/-!
# Taking pages and giving them back

A request takes the first block of the first list that has one, so the lists between the order asked for and that list
are empty, and after it they hold one half each. Giving the block back at once finds these halves one after the other,
ends with the block that was taken, and hangs it where it was: the block had no neighbour on its list.
-/

namespace Cosmos.Page

open Cosmos.Lib Halt

variable {b : Boot} {s s' s₁ : Memmgrob} {live : Set Blk} {a k m n rel div : Nat}

/-- The joined block is one of consecutive pages, so its halves are neighbours. -/
theorem Joined.adjacent {m₁ m' : Nat} (h : Joined s s' a k m m' m₁) (hk : k + 1 < mdivmerArrLmax)
    (hfree : FreeBlk s'.msa a (k + 1) m₁) : Adjacent s.msa m (pnr k) m' ∨ Adjacent s.msa m' (pnr k) m := by
  have hpos := pnr_pos k
  have hsucc := pnr_succ hk
  have hlast := hfree.padrs (m₁ + pnr k - 1) (by omega) (by omega)
  have hnext := hfree.padrs (m₁ + pnr k) (by omega) (by omega)
  rw [h.same.padrs, h.same.padrs] at hlast hnext
  have hadj : (s.msa (m₁ + pnr k - 1)).pafPadrs + 1 = (s.msa (m₁ + pnr k)).pafPadrs := by omega
  rcases h.side with ⟨rfl, rfl⟩ | ⟨rfl, rfl⟩
  · exact .inl ⟨rfl, hadj⟩
  · exact .inr ⟨rfl, hadj⟩

/-- **Merging undoes a split**: with one half on each list from `k` to `div` the loop joins them all and stops. -/
theorem merLoop_undo (ha : a < 2) (hdiv : div < mdivmerArrLmax) (c : Nat) :
    ∀ k s, k + c = mdivmerArrLmax - 1 → k ≤ div →
    Inv s {(m, pnr k)} live → FreeBlk s.msa a k m →
    (∀ i, m ≤ i → i < m + pnr div → (s.msa i).pafPadrs = (s.msa m).pafPadrs + (i - m)) →
    (∀ j, k ≤ j → j < div → (s.bafh a j).afFrelst = [m + pnr j]) →
    (div < mdivmerArrLmax - 1 → ∀ x ∈ (s.bafh a div).afFrelst,
      ¬Adjacent s.msa m (pnr div) x ∧ ¬Adjacent s.msa x (pnr div) m) →
    ∃ s', merLoop a c k m (m + pnr k - 1) s = .ok ((div, m, m + pnr div - 1), s') ∧ Inv s' {(m, pnr div)} live ∧
      FreeBlk s'.msa a div m ∧ Same s s' ∧ (∀ j, k ≤ j → j < div → (s'.bafh a j).afFrelst = []) ∧
      ∀ a' j, ¬(a' = a ∧ k ≤ j ∧ j < div) → s'.bafh a' j = s.bafh a' j := by
  induction c with
  | zero =>
    intro k s hc hle h hfree _ _ _
    obtain rfl : k = div := by omega
    exact ⟨s, rfl, h, hfree, .refl s, fun j h1 h2 => by omega, fun _ _ _ => rfl⟩
  | succ c ih =>
    intro k s hc hle h hfree hpadrs hlists halone
    have hpos := pnr_pos k
    have hk : k + 1 < mdivmerArrLmax := by omega
    have hspec := mmFindCmsa2blk_spec h hfree ha hk
    by_cases hkd : k = div
    · -- the block that was taken has no neighbour
      subst hkd
      rcases hspec with ⟨heq, -⟩ | ⟨m₁, m', s₂, heq, -, hfree₂, hjoined⟩
      · refine ⟨s, ?_, h, hfree, .refl s, fun j h1 h2 => by omega, fun _ _ _ => rfl⟩
        rw [merLoop, bind_of_ok heq]
      · have hnot := halone (by omega) m' hjoined.mem
        rcases hjoined.adjacent hk hfree₂ with hadj | hadj
        · exact absurd hadj hnot.1
        · exact absurd hadj hnot.2
    · have hlist := hlists k le_rfl (by omega)
      have hsucc := pnr_succ hk
      have hmono : pnr (k + 1) ≤ pnr div := by
        rw [pnr_of_lt hk, pnr_of_lt hdiv]
        exact Nat.pow_le_pow_right (by omega) (by omega)
      have hhalf : Adjacent s.msa m (pnr k) (m + pnr k) := by
        have hlast := hpadrs (m + pnr k - 1) (by omega) (by omega)
        have hnext := hpadrs (m + pnr k) (by omega) (by omega)
        exact ⟨rfl, by omega⟩
      rcases hspec with ⟨-, hnone⟩ | ⟨m₁, m', s₂, heq, hinv₂, hfree₂, hjoined⟩
      · exact absurd hhalf (hnone (m + pnr k) (by rw [hlist]; exact List.mem_singleton_self _)).1
      -- the neighbour is the half that the split left
      have hm' := hjoined.mem
      rw [hlist, List.mem_singleton] at hm'
      subst hm'
      obtain rfl : m₁ = m := by
        rcases hjoined.side with ⟨h1, -⟩ | ⟨-, h2⟩ <;> omega
      have hother := hjoined.lists.other
      obtain ⟨s', hloop, hinv', hfree', hsame', hempty', hother'⟩ := ih (k + 1) s₂ (by omega) (by omega) hinv₂ hfree₂
        (by simpa only [hjoined.same.padrs] using hpadrs)
        (fun j h1 h2 => by rw [hother a j (by omega), hlists j (by omega) h2])
        (by simpa only [hother a div (show ¬(a = a ∧ div = k) by omega), hjoined.same.adjacent_iff] using halone)
      refine ⟨s', ?_, hinv', hfree', hjoined.same.trans hsame', fun j h1 h2 => ?_, fun a' j hout => ?_⟩
      · rw [merLoop, bind_of_ok heq]
        exact hloop
      · by_cases hj : j = k
        · subst hj
          rw [hother' a j (by omega), hjoined.lists.self, hlist, List.erase_cons_head]
        · exact hempty' j (by omega) h2
      · rw [hother' a' j (by omega), hother a' j (by omega)]

/-- What is as before, whatever happened to the counters of pages. -/
structure Rehung (s s' : Memmgrob) : Prop where
  frelst : ∀ a k, (s'.bafh a k).afFrelst = (s.bafh a k).afFrelst
  oder : ∀ a k, (s'.bafh a k).afOderpnr = (s.bafh a k).afOderpnr
  marea : ∀ a, { s'.marea a with maFreepages := 0, maAllocpages := 0 } =
    { s.marea a with maFreepages := 0, maAllocpages := 0 }
  maxpages : s'.moMaxpages = s.moMaxpages

theorem Took.rehung {t : Memmgrob} (h : Took s s₁ live a rel div m) (hsame : Same (counted s₁ a n) t)
    (hself : (t.bafh a div).afFrelst = m :: (s₁.bafh a div).afFrelst)
    (hempty : ∀ k, rel ≤ k → k < div → (t.bafh a k).afFrelst = [])
    (hother : ∀ a' k, ¬(a' = a ∧ rel ≤ k ∧ k ≤ div) → t.bafh a' k = s₁.bafh a' k) : Rehung s (countFree t a n) := by
  obtain ⟨frelst, hhead, htail⟩ := h.head
  refine ⟨fun a' k => ?_, fun a' k => ?_, fun a' => ?_, hsame.maxpages.trans h.same.maxpages⟩
  · show (t.bafh a' k).afFrelst = _
    by_cases hin : a' = a ∧ rel ≤ k ∧ k ≤ div
    · obtain ⟨rfl, hlo, hhi⟩ := hin
      by_cases hk : k = div
      · subst hk
        rw [hself, htail, hhead]
      · rw [hempty k hlo (by omega), h.empty k hlo (by omega)]
    · rw [hother a' k hin, h.other a' k hin]
  · exact (hsame.oder a' k).trans (h.same.oder a' k)
  · rw [countFree_marea, hsame.marea, counted_marea, counted_marea, h.same.marea]
    by_cases ha : a' = a
    · subst ha
      simp
    · simp [ha]

/-- **The free of a block just taken** puts the lists back. -/
theorem Took.undo (h : Inv s ∅ live) (htook : Took s s₁ live a rel div m) :
    ∃ s', mmMergePages (counted s₁ a (pnr rel)) m (pnr rel) = .ok (true, s') ∧ Rehung s s' := by
  have hhanded : Handed s (counted s₁ a (pnr rel)) live a rel m := ⟨div, s₁, htook, rfl⟩
  have hinv₁ := hhanded.inv
  have hlive := hhanded.liveBlk h
  obtain ⟨frelst, hhead, htail⟩ := htook.head
  have hslot := h.slot a div m htook.mem
  have hle := htook.le
  obtain ⟨s₂, hop, hinv₂, hfree₂, hsame₂, hbafh₂⟩ := mmMerpagesOpmsadsc_spec hinv₁ htook.fresh hlive htook.slot
  rw [insert_empty_eq] at hinv₂
  have hbafh : ∀ a' k, s₂.bafh a' k = s₁.bafh a' k := fun a' k => by rw [hbafh₂]; rfl
  have hpadrs : ∀ i, (s₂.msa i).pafPadrs = (s.msa i).pafPadrs := fun i => (hsame₂.padrs i).trans (htook.same.padrs i)
  rw [mmMergePages_eq hinv₁ hlive htook.slot]
  rcases id htook.slot with ⟨ha, hrel⟩ | ⟨rfl, rfl⟩
  · have hdiv : div < mdivmerArrLmax := by
      unfold SlotOk at hslot
      omega
    have hlists : ∀ j, rel ≤ j → j < div → (s₂.bafh a j).afFrelst = [m + pnr j] := by
      intro j h1 h2
      rw [hbafh, htook.split j h1 h2, htook.empty j h1 h2, pnr_of_lt (by omega)]
    have halone : div < mdivmerArrLmax - 1 → ∀ x ∈ (s₂.bafh a div).afFrelst,
        ¬Adjacent s₂.msa m (pnr div) x ∧ ¬Adjacent s₂.msa x (pnr div) m := by
      intro hlt x hx
      rw [hbafh, htail] at hx
      have hx : x ∈ (s.bafh a div).afFrelst := hhead ▸ List.mem_cons_of_mem m hx
      simp only [Adjacent, hpadrs]
      exact ⟨h.alone a ha div hlt m htook.mem x hx, h.alone a ha div hlt x hx m htook.mem⟩
    obtain ⟨s₃, hloop, hinv₃, hfree₃, hsame₃, hempty₃, hother₃⟩ :=
        merLoop_undo ha hdiv (mdivmerArrLmax - 1 - rel) rel s₂
      (by omega) hle hinv₂ hfree₂ (by simpa only [hpadrs] using (h.free a div m htook.mem).padrs) hlists halone
    have hdiv₃ : (s₃.bafh a div).afFrelst = (s₂.bafh a div).afFrelst := by rw [hother₃ a div (by omega)]
    obtain ⟨s₄, hadd, -, hsame₄, hlist₄⟩ := mpobfAddMsadsc_spec hinv₃ hfree₃ hslot fun _ hlt x hx => by
      rw [hsame₃.adjacent_iff, hsame₃.adjacent_iff]
      exact halone hlt x (hdiv₃ ▸ hx)
    have hon : mmMerpagesOnbafhlst s₂ a rel m (pnr rel) = .ok (true, s₄) := by
      unfold mmMerpagesOnbafhlst
      rw [bind_of_ok hloop]
      exact hadd
    refine ⟨_, mmMerpagesOnmarea_of_lt hinv₁ ha hrel hop hon,
      htook.rehung (hsame₂.trans (hsame₃.trans hsame₄)) ?_ (fun k h1 h2 => ?_) fun a' k hout => ?_⟩
    · rw [hlist₄.self, hdiv₃, hbafh]
    · rw [hlist₄.other a k (by omega), hempty₃ k h1 h2]
    · rw [hlist₄.other a' k (by omega), hother₃ a' k (by omega), hbafh]
  · -- process memory has the list of single pages only
    obtain rfl : div = onemsalst := by
      unfold SlotOk at hslot
      omega
    obtain ⟨s₃, hadd, -, hsame₃, hlist₃⟩ := mpobfAddMsadsc_spec hinv₂ hfree₂ hslot fun ha => absurd ha (by omega)
    refine ⟨_, mmMerpagesOnmarea_proc hinv₁ hop hadd,
      htook.rehung (hsame₂.trans hsame₃) ?_ (fun k h1 h2 => by omega) fun a' k hout => ?_⟩
    · rw [hlist₃.self, hbafh]
    · rw [hlist₃.other a' k (by omega), hbafh]

/-! ### In every state of every run -/

/-- Every list and every counter of pages and of blocks on a list is as before. -/
structure Restored (s s' : Memmgrob) : Prop where
  frelst : ∀ a k, (s'.bafh a k).afFrelst = (s.bafh a k).afFrelst
  fobjnr : ∀ a k, (s'.bafh a k).afFobjnr = (s.bafh a k).afFobjnr
  mobjnr : ∀ a k, (s'.bafh a k).afMobjnr = (s.bafh a k).afMobjnr
  marea : s'.marea = s.marea
  maxpages : s'.moMaxpages = s.moMaxpages
  alocpages : s'.moAlocpages = s.moAlocpages
  freepages : s'.moFreepages = s.moFreepages

theorem Rehung.restored {live : Finset Blk} (h : Rehung s s') (hkept : Kept s s') (hbal : Balanced s live)
    (hbal' : Balanced s' live) : Restored s s' := by
  have hlists : ∀ a, listSize s' a = listSize s a := fun a => by simp only [listSize, h.frelst, h.oder]
  have hlive : ∀ a, liveSize s' a live = liveSize s a live := fun a => liveSize_congr hkept a live
  have hfree : s'.moFreepages = s.moFreepages := by
    rw [hbal.allFree, hbal'.allFree]
    exact Finset.sum_congr rfl fun a _ => hlists a
  refine ⟨h.frelst, fun a k => ?_, fun a k => ?_, ?_, h.maxpages, ?_, hfree⟩
  · rw [(hbal.objnr a k).1, (hbal'.objnr a k).1, h.frelst]
  · rw [(hbal.objnr a k).2, (hbal'.objnr a k).2, h.frelst]
  · funext a
    have hfreepages : (s'.marea a).maFreepages = (s.marea a).maFreepages := by rw [hbal.free, hbal'.free, hlists]
    have hallocpages : (s'.marea a).maAllocpages = (s.marea a).maAllocpages := by rw [hbal.alloc, hbal'.alloc, hlive]
    have hrest := h.marea a
    simp only [Memarea.mk.injEq, true_and] at hrest
    obtain ⟨htype, hmax, hstart, hend, hnr⟩ := hrest
    cases hma : s.marea a
    cases hma' : s'.marea a
    simp_all
  · have hall := hbal.all
    have hall' := hbal'.all
    rw [hkept.msanr] at hall'
    omega

theorem Handed.restored {live : Finset Blk} (hinv : Inv s ∅ ↑live) (hbal : Balanced s live)
    (hh : Handed s s₁ ↑live a rel m) : ∃ s', mmMergePages s₁ m (pnr rel) = .ok (true, s') ∧ Restored s s' := by
  have htake : Effect s live s₁ (insert (m, pnr rel) live) := .took hh
  have hinv₁ := htake.inv hinv
  have hbal₁ := htake.balanced hinv hbal
  obtain ⟨div, s₂, htook, rfl⟩ := hh
  obtain ⟨s', hmerge, hrehung⟩ := htook.undo hinv
  refine ⟨s', hmerge, ?_⟩
  -- the free is a step, after which the live blocks are those from before the request
  have hmem : (m, pnr rel) ∈ insert (m, pnr rel) live := Finset.mem_insert_self _ _
  have hin : (Op.mergePages m (pnr rel)).InArray (counted s₂ a (pnr rel)).moMsanr :=
    (hinv₁.lt_of_used (.inr (Finset.mem_coe.mpr hmem)) le_rfl (Nat.lt_add_of_pos_right (pnr_pos rel))).1
  obtain ⟨t, live', hstep, he⟩ := step_effect hinv₁ hin
  have hrun : step (counted s₂ a (pnr rel), insert (m, pnr rel) live) (.mergePages m (pnr rel)) = .ok (s', live) := by
    have hnot : (m, pnr rel) ∉ live := by simpa using htook.fresh
    simp only [step]
    rw [bind_of_ok hmerge]
    simp only [if_true, Finset.erase_insert hnot]
  rw [hrun] at hstep
  obtain ⟨rfl, rfl⟩ := pair_inj hstep
  exact hrehung.restored (htake.kept.trans he.kept) hbal (he.balanced hinv₁ hbal₁)

/-- **Taking pages and giving them back restores** the lists and the counters of pages and of blocks, in every state of
every run: the free of what a request just returned succeeds. -/
theorem restored_of_run (b : Boot) (hb : b.Wf) (ops : List Op) (hops : ∀ op ∈ ops, op.InArray b.msanr) :
    ∃ s₀ s live, boot b = .ok s₀ ∧ runHalt step (s₀, ∅) ops = .ok (s, live) ∧
      ∀ pages mrtype flgs c s₁,
        mmDivisionPages s pages mrtype flgs = .ok (some c, s₁) ∨ mmDivpagesProcmarea s pages = .ok (some c, s₁) →
        ∃ s', mmMergePages s₁ c.1 c.2 = .ok (true, s') ∧ Restored s s' := by
  obtain ⟨s₀, s, live, hboot, hrun, -, hinv, -⟩ := run_of_boot hb hops
  obtain ⟨-, hbal⟩ := balanced_of_run hb hboot hops hrun
  refine ⟨s₀, s, live, hboot, hrun, fun pages mrtype flgs c s₁ hcall => ?_⟩
  rcases hcall with hcall | hcall
  · rcases mmDivisionPages_spec hinv pages mrtype flgs with heq | ⟨a, k, m, s₂, heq, hh, -⟩
    · rw [heq] at hcall
      simp at hcall
    · rw [heq] at hcall
      obtain ⟨h1, rfl⟩ := pair_inj hcall
      obtain rfl := Option.some.inj h1
      exact hh.restored hinv hbal
  · rcases mmDivpagesProcmarea_spec hinv pages with heq | ⟨a, k, m, s₂, heq, hh, hk⟩
    · rw [heq] at hcall
      simp at hcall
    · rw [heq] at hcall
      obtain ⟨h1, rfl⟩ := pair_inj hcall
      obtain rfl := Option.some.inj h1
      have hres := hh.restored hinv hbal
      rwa [hk] at hres

/-- Three of four pages are asked for, and the four that are given are freed. -/
theorem restored_of_four : ∃ s₀ c s₁ s', boot (freeBoot 4) = .ok s₀ ∧
    mmDivisionPages s₀ 3 maTypeHwad dmfReldiv = .ok (some c, s₁) ∧ mmMergePages s₁ c.1 c.2 = .ok (true, s') ∧
    Restored s₀ s' := by
  have heval : Except.map (fun r => r.1.map Prod.snd)
      (boot (freeBoot 4) >>= fun s => mmDivisionPages s 3 maTypeHwad dmfReldiv) = .ok (some 4) := by decide +kernel
  obtain ⟨⟨c, s₁⟩, hcall, hc⟩ := exists_of_map heval
  obtain ⟨s, hboot, hcall⟩ := bind_eq_ok hcall
  obtain ⟨c, rfl, -⟩ := Option.map_eq_some_iff.mp hc
  obtain ⟨s₀, s₂, live, hboot₀, hrun, hall⟩ := restored_of_run (freeBoot 4) (freeBoot_wf (by norm_num) (by norm_num)) []
    (by simp)
  obtain ⟨rfl, -⟩ := pair_inj hrun
  rw [hboot] at hboot₀
  obtain rfl := Except.ok.inj hboot₀
  obtain ⟨s', hmerge, hres⟩ := hall 3 maTypeHwad dmfReldiv c s₁ (.inl hcall)
  exact ⟨s, c, s₁, s', hboot, hcall, hmerge, hres⟩

/-- The only page is taken and given back: its list counts one block more that was taken off it. -/
theorem freindx_not_restored : ∃ s₀ c s₁ s', boot (freeBoot 1) = .ok s₀ ∧
    mmDivisionPages s₀ 1 maTypeHwad dmfReldiv = .ok (some c, s₁) ∧ mmMergePages s₁ c.1 c.2 = .ok (true, s') ∧
    (s₀.bafh 0 0).afFreindx = 0 ∧ (s'.bafh 0 0).afFreindx = 1 := by
  have heval : Except.map (fun r => (r.1, (r.2.1.bafh 0 0).afFreindx, (r.2.2.bafh 0 0).afFreindx))
      (boot (freeBoot 1) >>= fun s => mmDivisionPages s 1 maTypeHwad dmfReldiv >>= fun r =>
        mmMergePages r.2 0 1 >>= fun t => .ok ((r.1, t.1), s, t.2)) =
          .ok ((some (0, 1), true), 0, 1) := by decide +kernel
  obtain ⟨⟨⟨c, rets⟩, s₀, s'⟩, hall, hseen⟩ := exists_of_map heval
  obtain ⟨s, hboot, hall⟩ := bind_eq_ok hall
  obtain ⟨⟨r, s₁⟩, hcall, hall⟩ := bind_eq_ok hall
  obtain ⟨⟨rets', t⟩, hmerge, hall⟩ := bind_eq_ok hall
  cases hall
  simp only [Prod.mk.injEq] at hseen
  obtain ⟨⟨rfl, rfl⟩, h0, h1⟩ := hseen
  exact ⟨s₀, (0, 1), s₁, t, hboot, hcall, hmerge, h0, h1⟩

end Cosmos.Page
