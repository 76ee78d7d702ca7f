import Cosmos.Page.Invariant

/-!
# Taking pages

`mm_division_pages` and `mm_divpages_procmarea` keep the invariant: they take a free block, hang the halves that
are not needed on their lists and hand out a block of exactly the pages of the order asked for, or they change
nothing.
-/

namespace Cosmos.Page

open Cosmos.Lib Halt

variable {s s' : Memmgrob} {hand live : Set Blk} {a k m n : Nat}

theorem msaCount_eq {mend : Nat} (h : m ≤ mend) (hlt : mend < 2 ^ 63) : msaCount m mend = mend - m + 1 := by
  rw [msaCount, show mend + 1 + (2 ^ 64 - m) = mend - m + 1 + 2 ^ 64 by omega, Nat.add_mod_right]
  exact Nat.mod_eq_of_lt (by omega)

theorem Inv.msaCount_used (h : Inv s hand live) (hb : (m, n) ∈ hand ∪ live) : msaCount m (m + n - 1) = n := by
  have hpos : 0 < n := h.used_pos hb
  have hlt := (h.lt_of_used hb (i := m + n - 1) (show m ≤ _ by omega) (show _ < m + n by omega)).1
  rw [msaCount_eq (by omega) (lt_trans hlt h.small)]
  omega

theorem retnDivoder_eq {pages : Nat} (h : 1 ≤ pages) : retnDivoder pages = (Nat.clog 2 pages : Int) := by
  have hlo := Nat.pow_log_le_self 2 (show pages ≠ 0 by omega)
  have hhi := Nat.lt_pow_succ_log_self (b := 2) (by omega) pages
  have hbits : search64rlbits pages = (Nat.log 2 pages : Int) + 1 := by
    rw [search64rlbits, if_neg (by omega), Nat.log2_eq_log_two]
  simp only [retnDivoder, hbits]
  by_cases hp : pages &&& (pages - 1) = 0
  · rw [if_neg (by simpa using hp)]
    obtain ⟨k, hk⟩ := (Nat.and_sub_one_eq_zero_iff_isPowerOfTwo (by omega)).mp hp
    rw [hk, Nat.log_pow (by omega), Nat.clog_pow _ _ (by omega)]
    omega
  · rw [if_pos hp]
    have hne : pages ≠ 2 ^ Nat.log 2 pages := fun heq =>
      hp ((Nat.and_sub_one_eq_zero_iff_isPowerOfTwo (by omega)).mpr ⟨_, heq⟩)
    have hle : Nat.clog 2 pages ≤ Nat.log 2 pages + 1 := Nat.clog_le_of_le_pow hhi.le
    have hlt : Nat.log 2 pages < Nat.clog 2 pages := (Nat.lt_clog_iff_pow_lt (by omega)).mpr (by omega)
    omega

theorem InHand.mend_eq {msa : Nat → Msadsc} (h : InHand msa a m n) :
    (if (msa m).mfOlkty = .bafh then .ok (some m) else (msa m).mdOdlink.toMsa) =
      (.ok (some (m + n - 1)) : Halt (Option Nat)) := by
  rcases h.first with ⟨h1, holk, -⟩ | ⟨holk, hlink⟩
  · rw [if_pos holk, h1, Nat.add_sub_cancel]
  · rw [if_neg (by rw [holk]; simp), hlink]
    rfl

/-! ### A block off a list -/

structure OnlyList (s s' : Memmgrob) (a k : Nat) (l : List Nat) : Prop where
  self : (s'.bafh a k).afFrelst = l
  other : ∀ a' k', ¬(a' = a ∧ k' = k) → s'.bafh a' k' = s.bafh a' k'

theorem mmRetnmsaobOnbafhlst_spec (h : Inv s hand live) (hslot : SlotOk a k) :
    ((s.bafh a k).afFrelst = [] ∧ mmRetnmsaobOnbafhlst s a k = .ok (none, s)) ∨
    ∃ m frelst s', (s.bafh a k).afFrelst = m :: frelst ∧
      mmRetnmsaobOnbafhlst s a k = .ok (some (m, some (m + pnr k - 1)), s') ∧
      Inv s' (insert (m, pnr k) hand) live ∧ InHand s'.msa a m (pnr k) ∧ Same s s' ∧ OnlyList s s' a k frelst := by
  obtain ⟨hfobj, hmobj⟩ := h.count a k hslot
  unfold mmRetnmsaobOnbafhlst
  cases hlst : (s.bafh a k).afFrelst with
  | nil =>
    rw [hlst] at hfobj
    refine .inl ⟨rfl, ?_⟩
    rw [if_pos (.inr (by rw [hfobj]; simp))]
  | cons m frelst =>
    rw [hlst, List.length_cons] at hfobj hmobj
    have hm : m ∈ (s.bafh a k).afFrelst := hlst ▸ List.mem_cons_self
    have hfree := h.free a k m hm
    rw [if_neg (by omega)]
    refine .inr ⟨m, frelst, _, rfl, ?_, h.unhang hm (f := fun bafh =>
      { bafh with
        afFrelst := frelst
        afMobjnr := u64Sub bafh.afMobjnr 1
        afFobjnr := u64Sub bafh.afFobjnr 1
        afFreindx := u64 (bafh.afFreindx + 1) }) (fun _ => rfl) ?_ rfl rfl, hfree.inHand,
      same_setBafh s _ hslot fun _ => rfl, ⟨by rw [setBafh_self], fun a' k' hne => setBafh_of_ne s _ hne⟩⟩
    · simp only [hlst]
      exact bind_of_ok hfree.inHand.mend_eq _
    · rw [hlst, List.erase_cons_head]

/-! ### Marking a block allocated -/

def Memmgrob.markLive (s : Memmgrob) (m e : Nat) : Memmgrob :=
  (if m = e then s else s.setMsa e fun d => { d with mfUindx := d.mfUindx + 1, pafAlloc := true }).setMsa m fun d =>
    { d with mfUindx := d.mfUindx + 1, pafAlloc := true, mfOlkty := .oder, mdOdlink := .msa e }

section MarkLive

variable (s : Memmgrob) {i e : Nat}

theorem same_markLive (m e : Nat) : Same s (s.markLive m e) := by
  unfold Memmgrob.markLive
  split
  · exact same_setMsa s _ fun _ => ⟨rfl, rfl, rfl⟩
  · refine .setMsa _ ?_ fun _ => ⟨rfl, rfl, rfl⟩
    exact same_setMsa s _ fun _ => ⟨rfl, rfl, rfl⟩

theorem markLive_bafh (m e : Nat) : (s.markLive m e).bafh = s.bafh := by
  unfold Memmgrob.markLive
  split <;> rfl

theorem markLive_of_ne (hm : i ≠ m) (he : i ≠ e) : (s.markLive m e).msa i = s.msa i := by
  unfold Memmgrob.markLive
  rw [setMsa_of_ne _ _ hm]
  split
  · rfl
  · rw [setMsa_of_ne _ _ he]

theorem markLive_first : (s.markLive m e).msa m =
    { s.msa m with mfUindx := (s.msa m).mfUindx + 1, pafAlloc := true, mfOlkty := .oder, mdOdlink := .msa e } := by
  unfold Memmgrob.markLive
  rw [setMsa_self]
  split
  · rfl
  · next hne => rw [setMsa_of_ne _ _ hne]

theorem markLive_last (hne : e ≠ m) : (s.markLive m e).msa e =
    { s.msa e with mfUindx := (s.msa e).mfUindx + 1, pafAlloc := true } := by
  unfold Memmgrob.markLive
  rw [setMsa_of_ne _ _ hne, if_neg (Ne.symm hne), setMsa_self]

end MarkLive

theorem liveBlk_markLive (hhand : InHand s.msa a m n) (hpos : 0 < n) :
    LiveBlk (s.markLive m (m + n - 1)).msa a m n := by
  have hsame := same_markLive s m (m + n - 1)
  have hidle := hhand.idle m le_rfl (by omega)
  refine ⟨⟨fun i hlo hhi => ?_, fun i hlo hhi => ?_⟩, ?_, fun i hlo hhi => ?_, ?_⟩
  · rw [hsame.marty, hhand.marty i hlo hhi]
  · rw [hsame.padrs, hsame.padrs, hhand.padrs i hlo hhi]
  · rw [markLive_first, hidle.1]
    exact ⟨rfl, rfl, rfl, rfl⟩
  · rw [markLive_of_ne s (by omega) (by omega)]
    exact ⟨(hhand.inner i hlo hhi).1, (hhand.inner i hlo hhi).2, hhand.idle i (by omega) (by omega)⟩
  · by_cases h1 : n = 1
    · subst h1
      rw [Nat.add_sub_cancel, markLive_first, hidle.1]
      exact ⟨rfl, rfl, fun h => absurd h (by omega)⟩
    · rw [markLive_last s (by omega), (hhand.idle (m + n - 1) (by omega) (by omega)).1]
      exact ⟨rfl, rfl, hhand.last⟩

theorem mmDivpagesOpmsadsc_spec (h : Inv s (insert (m, n) hand) live) (hb : (m, n) ∉ hand)
    (hhand : InHand s.msa a m n) (hslot : SlotOk a k) (hn : n = pnr k) :
    ∃ s', mmDivpagesOpmsadsc s m n = .ok (some m, s') ∧ Inv s' hand (insert (m, n) live) ∧ Same s s' ∧
      s'.bafh = s.bafh := by
  have hpos : 0 < n := hn ▸ pnr_pos k
  have hin : (m, n) ∈ insert (m, n) hand ∪ live := .inl (Set.mem_insert _ _)
  have hlt : m + n - 1 < 2 ^ 63 := lt_trans (h.lt_of_used hin (by simp; omega) (by simp; omega)).1 h.small
  have hidle := hhand.idle m le_rfl (by omega)
  have hidle' := hhand.idle (m + n - 1) (by omega) (by omega)
  have hcount : msaCount m (m + n - 1) = n := by
    rw [msaCount_eq (by omega) hlt]
    omega
  have herr : ¬(((s.msa m).mfOlkty ≠ .oder ∧ (s.msa m).mfOlkty ≠ .bafh) ∨ (s.msa m).mdOdlink = .null ∨
      (s.msa m).pafAlloc = true) := by
    rcases hhand.first with ⟨-, holk, hlink⟩ | ⟨holk, hlink⟩ <;> simp [holk, hlink, hidle.2]
  unfold mmDivpagesOpmsadsc
  simp only [if_neg hpos.ne', if_neg herr, hhand.mend_eq, ok_bind, hcount, hidle.1, hidle'.1]
  rw [if_neg (by omega), if_neg (by simp), if_neg (by simp [mfUindxMax])]
  refine ⟨s.markLive m (m + n - 1), rfl, ?_, same_markLive s _ _, markLive_bafh s _ _⟩
  have hwrite : Inv (s.markLive m (m + n - 1)) (insert (m, n) hand) live := by
    refine h.write (Set.mem_insert _ _) (same_markLive s _ _) (markLive_bafh s _ _) fun i hi => ?_
    refine markLive_of_ne s ?_ ?_ <;> rintro rfl <;> simp at hi <;> omega
  exact hwrite.toLive hb hslot hn (liveBlk_markLive hhand hpos)

/-! ### Splitting -/

/-- The lists after a block from `m` on was split down to order `rel`: one more block on each order up to `top`. -/
structure SplitLists (s s' : Memmgrob) (a m rel top : Nat) : Prop where
  inside : ∀ k, rel ≤ k → k < top → (s'.bafh a k).afFrelst = (m + 2 ^ k) :: (s.bafh a k).afFrelst
  outside : ∀ a' k, ¬(a' = a ∧ rel ≤ k ∧ k < top) → s'.bafh a' k = s.bafh a' k

theorem SlotOk.of_lt (ha : a < 2) (hk : k < mdivmerArrLmax) : SlotOk a k := .inl ⟨ha, hk⟩

theorem mrdmbAddMsaBafh_spec (h : Inv s {(m, 2 ^ (k + 1))} live) (hhand : InHand s.msa a m (2 ^ (k + 1)))
    (ha : a < 2) (hk : k < mdivmerArrLmax) (hempty : (s.bafh a k).afFrelst = []) :
    ∃ s', mrdmbAddMsaBafh s a k (m + 2 ^ k) (some (m + 2 ^ (k + 1) - 1)) = (true, s') ∧
      Inv s' {(m, 2 ^ k)} live ∧ Same s s' ∧ OnlyList s s' a k [m + 2 ^ k] ∧
      ∀ i < m + 2 ^ k, s'.msa i = s.msa i := by
  have hpow : 2 ^ (k + 1) = 2 ^ k + 2 ^ k := by rw [pow_succ]; omega
  have hpnr := pnr_of_lt hk
  have hpos := Nat.two_pow_pos k
  have hslot := SlotOk.of_lt ha hk
  have hlt := h.lt_of_used (b := (m, 2 ^ (k + 1))) (.inl rfl) (i := m + 2 ^ (k + 1) - 1) (show m ≤ _ by omega)
    (show _ < m + 2 ^ (k + 1) by omega)
  have hend : m + 2 ^ (k + 1) - 1 = m + 2 ^ k + pnr k - 1 := by omega
  have hidle := hhand.idle (m + 2 ^ k) (by omega) (by omega)
  have hidle' := hhand.idle (m + 2 ^ (k + 1) - 1) (by omega) (by omega)
  have hcount : msaCount (m + 2 ^ k) (m + 2 ^ (k + 1) - 1) = pnr k := by
    rw [msaCount_eq (by omega) (lt_trans hlt.1 h.small)]
    omega
  -- cut the block and link its upper half, which then is a free block in hand
  have hcut : Inv s (insert (m + 2 ^ k, pnr k) {(m, 2 ^ k)}) live := by
    have h' : Inv s (insert (m, 2 ^ k + 2 ^ k) ∅) live := by
      rw [insert_empty_eq, ← hpow]
      exact h
    have hcut := h'.cut (by simp) hpos hpos
    rw [hpnr]
    rwa [Set.insert_comm, insert_empty_eq] at hcut
  have hwrite : Inv (s.markFree a k (m + 2 ^ k) (m + 2 ^ (k + 1) - 1)) (insert (m + 2 ^ k, pnr k) {(m, 2 ^ k)})
      live := by
    refine hcut.write (Set.mem_insert _ _) (same_markFree s _ _ _ _) rfl fun i hi => ?_
    refine markFree_of_ne s ?_ ?_ <;> rintro rfl <;> simp at hi <;> omega
  have hfree : FreeBlk (s.markFree a k (m + 2 ^ k) (m + 2 ^ (k + 1) - 1)).msa a k (m + 2 ^ k) := by
    rw [hend]
    refine freeBlk_markFree ⟨fun i hlo hhi => ?_, fun i hlo hhi => ?_⟩ (fun i hlo hhi => ?_) fun i hlo hhi => ?_
    · exact hhand.marty i (by omega) (by omega)
    · rw [hhand.padrs i (by omega) (by omega), hhand.padrs (m + 2 ^ k) (by omega) (by omega)]
      omega
    · exact hhand.idle i (by omega) (by omega)
    · exact hhand.inner i (by omega) (by omega)
  have hbafh : (s.markFree a k (m + 2 ^ k) (m + 2 ^ (k + 1) - 1)).bafh = s.bafh := rfl
  have hhang := hwrite.hang (by simp) hslot hfree (fun _ _ => by rw [hbafh, hempty]; simp)
    (f := fun bafh =>
      { bafh with
        afFrelst := (m + 2 ^ k) :: bafh.afFrelst
        afMobjnr := u64 (bafh.afMobjnr + 1)
        afFobjnr := u64 (bafh.afFobjnr + 1) }) (fun _ => rfl) rfl rfl rfl
  refine ⟨_, ?_, hhang, (same_markFree s _ _ _ _).trans (same_setBafh _ _ hslot fun _ => rfl), ?_, fun i hi => ?_⟩
  · simp only [mrdmbAddMsaBafh, hcount, h.oder a k hslot, hidle.1, hidle'.1, hidle.2, hidle'.2]
    rw [if_neg (by simp), if_neg (by simp), if_neg (by simp), if_neg (by omega)]
    rfl
  · refine ⟨?_, fun a' k' hne => setBafh_of_ne _ _ hne⟩
    rw [setBafh_self, hbafh, hempty]
  · rw [setBafh_msa]
    exact markFree_of_ne s (by omega) (by omega)

theorem InHand.lower {msa : Nat → Msadsc} (msa' : Nat → Msadsc) (h : InHand msa a m (2 ^ (k + 1)))
    (holk : (msa m).mfOlkty = .oder)
    (hfirst : msa' m = { msa m with mdOdlink := .msa (m + 2 ^ k - 1) })
    (hmsa : ∀ i, m < i → i < m + 2 ^ k → msa' i = msa i) : InHand msa' a m (2 ^ k) := by
  have hpow : 2 ^ (k + 1) = 2 ^ k + 2 ^ k := by rw [pow_succ]; omega
  have hpos := Nat.two_pow_pos k
  -- every field but the link is as before
  have hfield : ∀ i, m ≤ i → i < m + 2 ^ k → (msa' i).mfMarty = (msa i).mfMarty ∧ (msa' i).pafPadrs = (msa i).pafPadrs ∧
      (msa' i).mfUindx = (msa i).mfUindx ∧ (msa' i).pafAlloc = (msa i).pafAlloc := by
    intro i hlo hhi
    by_cases hi : i = m
    · rw [hi, hfirst]
      exact ⟨rfl, rfl, rfl, rfl⟩
    · rw [hmsa i (by omega) hhi]
      exact ⟨rfl, rfl, rfl, rfl⟩
  refine ⟨⟨fun i hlo hhi => ?_, fun i hlo hhi => ?_⟩, fun i hlo hhi => ?_, .inr ?_, fun i hlo hhi => ?_, fun h1 => ?_⟩
  · rw [(hfield i hlo hhi).1, h.marty i hlo (by omega)]
  · rw [(hfield i hlo hhi).2.1, (hfield m le_rfl (by omega)).2.1, h.padrs i hlo (by omega)]
  · rw [(hfield i hlo hhi).2.2.1, (hfield i hlo hhi).2.2.2]
    exact h.idle i hlo (by omega)
  · rw [hfirst]
    exact ⟨holk, rfl⟩
  · rw [hmsa i hlo (by omega)]
    exact h.inner i hlo (by omega)
  · rw [hmsa _ (by omega) (by omega), (h.inner _ (by omega) (by omega)).1]
    simp

/-- **Splitting**: the block in hand shrinks to order `rel`, and the upper halves are on their lists. -/
theorem divLoop_spec (ha : a < 2) (rel c : Nat) : ∀ s, rel + c < mdivmerArrLmax → Inv s {(m, 2 ^ (rel + c))} live →
    InHand s.msa a m (2 ^ (rel + c)) → (∀ k, rel ≤ k → k < rel + c → (s.bafh a k).afFrelst = []) →
    ∃ s', divLoop a m rel c (2 ^ (rel + c)) s = .ok (2 ^ rel, s') ∧ Inv s' {(m, 2 ^ rel)} live ∧
      InHand s'.msa a m (2 ^ rel) ∧ Same s s' ∧ SplitLists s s' a m rel (rel + c) := by
  induction c with
  | zero =>
    intro s _ hinv hhand _
    exact ⟨s, rfl, hinv, hhand, .refl s, ⟨fun k h1 h2 => by omega, fun _ _ _ => rfl⟩⟩
  | succ c ih =>
    intro s hlt hinv hhand hempty
    have hk : rel + c < mdivmerArrLmax := by omega
    have hoder : (s.bafh a (rel + c)).afOderpnr = 2 ^ (rel + c) := by
      rw [hinv.oder a _ (.of_lt ha hk), pnr_of_lt hk]
    have hpow : 2 ^ (rel + (c + 1)) = 2 ^ (rel + c) + 2 ^ (rel + c) := by rw [← Nat.add_assoc, pow_succ]; omega
    have hpos := Nat.two_pow_pos (rel + c)
    obtain ⟨holk, hlink⟩ : (s.msa m).mfOlkty = .oder ∧ (s.msa m).mdOdlink = .msa (m + 2 ^ (rel + (c + 1)) - 1) :=
      hhand.first.resolve_left fun h1 => by omega
    obtain ⟨s₁, hadd, hinv₁, hsame₁, hlist₁, hmsa₁⟩ := mrdmbAddMsaBafh_spec (k := rel + c) hinv hhand ha hk
      (hempty _ (by omega) (by omega))
    -- the shortened link of the block in hand
    have hsame₂ : Same s₁ (s₁.setMsa m fun d => { d with mdOdlink := .msa (m + 2 ^ (rel + c) - 1) }) :=
      same_setMsa s₁ _ fun _ => ⟨rfl, rfl, rfl⟩
    have hinv₂ := hinv₁.write (b := (m, 2 ^ (rel + c))) rfl hsame₂ rfl fun i hi =>
      setMsa_of_ne s₁ _ fun him => hi ⟨him.ge, by simp only [him]; omega⟩
    have hhand₂ := InHand.lower (k := rel + c)
      (s₁.setMsa m fun d => { d with mdOdlink := .msa (m + 2 ^ (rel + c) - 1) }).msa hhand holk
      (by rw [setMsa_self, hmsa₁ m (by omega)]) fun i hlo hhi => by
        rw [setMsa_of_ne _ _ (by omega), hmsa₁ i hhi]
    obtain ⟨s', heq, hinv', hhand', hsame', hlists⟩ := ih _ hk hinv₂ hhand₂ fun k h1 h2 => by
      rw [setMsa_bafh, hlist₁.other a k (by omega)]
      exact hempty k h1 (by omega)
    refine ⟨s', ?_, hinv', hhand', hsame₁.trans (hsame₂.trans hsame'), ⟨fun k h1 h2 => ?_, fun a' k hout => ?_⟩⟩
    · have hsub : u64Sub (2 ^ (rel + (c + 1))) (2 ^ (rel + c)) = 2 ^ (rel + c) := by
        have hle : 2 ^ (rel + (c + 1)) ≤ 2 ^ 51 := Nat.pow_le_pow_right (by omega)
            (by unfold mdivmerArrLmax at hlt; omega)
        rw [u64Sub_of_le (by omega) (by omega)]
        omega
      rw [divLoop, hoder, hlink, Odlink.toMsa, ok_bind]
      rw [Nat.add_assoc] at hadd
      simp only [hadd, if_true, hsub]
      exact heq
    · by_cases hkc : k = rel + c
      · subst hkc
        rw [hlists.outside a _ (by omega), setMsa_bafh, hlist₁.self, hempty _ (by omega) (by omega)]
      · rw [hlists.inside k h1 (by omega), setMsa_bafh, hlist₁.other a k (by omega)]
    · rw [hlists.outside a' k (by omega), setMsa_bafh, hlist₁.other a' k (by omega)]

/-! ### A block of the order asked for -/

/-- The block of order `rel` from `m` on was taken from a block of order `div`. -/
structure Took (s s' : Memmgrob) (live : Set Blk) (a rel div m : Nat) : Prop where
  inv : Inv s' ∅ (insert (m, pnr rel) live)
  fresh : (m, pnr rel) ∉ live
  slot : SlotOk a rel
  same : Same s s'
  head : ∃ frelst, (s.bafh a div).afFrelst = m :: frelst ∧ (s'.bafh a div).afFrelst = frelst
  le : rel ≤ div
  empty : ∀ k, rel ≤ k → k < div → (s.bafh a k).afFrelst = []
  split : ∀ k, rel ≤ k → k < div → (s'.bafh a k).afFrelst = (m + 2 ^ k) :: (s.bafh a k).afFrelst
  other : ∀ a' k, ¬(a' = a ∧ rel ≤ k ∧ k ≤ div) → s'.bafh a' k = s.bafh a' k

theorem Took.mem {rel div : Nat} (htook : Took s s' live a rel div m) : m ∈ (s.bafh a div).afFrelst := by
  obtain ⟨frelst, hhead, -⟩ := htook.head
  rw [hhead]
  exact List.mem_cons_self

theorem Took.marty {rel div : Nat} (htook : Took s s' live a rel div m) (h : Inv s ∅ live) :
    (s.msa m).mfMarty = a + 1 :=
  (h.free a div m htook.mem).marty m le_rfl (Nat.lt_add_of_pos_right (pnr_pos div))

section Take

variable {rel div : Nat}

/-- The loop from order `div` to order `rel`, which is empty for single pages of process memory. -/
theorem divLoop_take (h : Inv s {(m, pnr div)} live) (hhand : InHand s.msa a m (pnr div)) (hslot : SlotOk a div)
    (hle : rel ≤ div) (hrel : rel = div ∨ a < 2) (hempty : ∀ k, rel ≤ k → k < div → (s.bafh a k).afFrelst = []) :
    ∃ s', divLoop a m rel (div - rel) (pnr div) s = .ok (pnr rel, s') ∧ Inv s' {(m, pnr rel)} live ∧
      InHand s'.msa a m (pnr rel) ∧ Same s s' ∧ SplitLists s s' a m rel div ∧ SlotOk a rel := by
  by_cases heq : rel = div
  · subst heq
    rw [Nat.sub_self]
    exact ⟨s, rfl, h, hhand, .refl s, ⟨fun k h1 h2 => by omega, fun _ _ _ => rfl⟩, hslot⟩
  · have ha := hrel.resolve_left heq
    have hdiv : div < mdivmerArrLmax := by
      unfold SlotOk at hslot
      omega
    have hsum : rel + (div - rel) = div := by omega
    rw [pnr_of_lt hdiv] at h hhand ⊢
    rw [pnr_of_lt (by omega)]
    obtain ⟨s', heq', hinv, hhand', hsame, hlists⟩ := divLoop_spec ha rel (div - rel) s (by omega) (by rwa [hsum])
      (by rwa [hsum]) (by rwa [hsum])
    rw [hsum] at heq' hlists
    exact ⟨s', heq', hinv, hhand', hsame, hlists, .of_lt ha (by omega)⟩

theorem mmReldpgsdivmsaBafhl_spec (h : Inv s ∅ live) (hslot : SlotOk a div) (hle : rel ≤ div) (hrel : rel = div ∨ a < 2)
    (hempty : ∀ k, rel ≤ k → k < div → (s.bafh a k).afFrelst = []) :
    ((s.bafh a div).afFrelst = [] ∧ mmReldpgsdivmsaBafhl s a rel div = .ok (none, s)) ∨
    ∃ m s', mmReldpgsdivmsaBafhl s a rel div = .ok (some (m, pnr rel), s') ∧ Took s s' live a rel div m := by
  unfold mmReldpgsdivmsaBafhl
  rw [if_neg (by omega)]
  rcases mmRetnmsaobOnbafhlst_spec h hslot with
    ⟨hnil, heq⟩ | ⟨m, frelst, s₁, hcons, heq, hinv₁, hhand₁, hsame₁, hlist₁⟩
  · exact .inl ⟨hnil, by rw [heq]; rfl⟩
  rw [insert_empty_eq] at hinv₁
  have hoder : (s₁.bafh a div).afOderpnr = pnr div := hinv₁.oder a div hslot
  have hcount : msaCount m (m + pnr div - 1) = pnr div := hinv₁.msaCount_used (.inl rfl)
  obtain ⟨s₂, hloop, hinv₂, hhand₂, hsame₂, hlists₂, hslot₂⟩ := divLoop_take hinv₁ hhand₁ hslot hle hrel
    fun k h1 h2 => by
      rw [hlist₁.other a k (by omega)]
      exact hempty k h1 h2
  have hfresh := hinv₂.apart _ rfl
  rw [← insert_empty_eq] at hinv₂
  obtain ⟨s₃, hop, hinv₃, hsame₃, hbafh₃⟩ := mmDivpagesOpmsadsc_spec hinv₂ (by simp) hhand₂ hslot₂ rfl
  refine .inr ⟨m, s₃, ?_, hinv₃, hfresh, hslot₂, hsame₁.trans (hsame₂.trans hsame₃), ⟨frelst, hcons, ?_⟩, hle, hempty,
    fun k h1 h2 => ?_, fun a' k hout => ?_⟩
  · rw [bind_of_ok heq]
    simp only [hoder, hcount, ne_eq, not_true_eq_false, if_false]
    rw [bind_of_ok hloop, bind_of_ok hop, Option.map_some, hinv₃.oder a rel hslot₂]
  · rw [hbafh₃, hlists₂.outside a div (by omega), hlist₁.self]
  · rw [hbafh₃, hlists₂.inside k h1 h2, hlist₁.other a k (by omega)]
  · rw [hbafh₃, hlists₂.outside a' k (by omega), hlist₁.other a' k (by omega)]

end Take

/-! ### The slots a request looks at -/

theorem onmpgsRetnBafhlst_spec (h : Inv s hand live) (ha : a < 2) {pages : Nat} (hpages : 1 ≤ pages) :
    (onmpgsRetnBafhlst s a pages = none ∧
      ∀ k, Nat.clog 2 pages ≤ k → k < mdivmerArrLmax → (s.bafh a k).afFrelst = []) ∨
    ∃ div, onmpgsRetnBafhlst s a pages = some (Nat.clog 2 pages, div) ∧ Nat.clog 2 pages ≤ div ∧ div < mdivmerArrLmax ∧
      (s.bafh a div).afFrelst ≠ [] ∧ ∀ k, Nat.clog 2 pages ≤ k → k < div → (s.bafh a k).afFrelst = [] := by
  have hle := Nat.le_pow_clog (b := 2) (by omega) pages
  simp only [onmpgsRetnBafhlst, retnDivoder_eq hpages, Int.toNat_natCast, Int.ofNat_le]
  generalize hrel : Nat.clog 2 pages = rel at *
  by_cases hrel52 : mdivmerArrLmax ≤ rel
  · rw [if_pos (.inr hrel52)]
    exact .inl ⟨rfl, fun k h1 h2 => by omega⟩
  rw [if_neg (by omega)]
  have hoder : ∀ k < mdivmerArrLmax, (s.bafh a k).afOderpnr = 2 ^ k := fun k hk => by
    rw [h.oder a k (.of_lt ha hk), pnr_of_lt hk]
  rw [hoder rel (by omega), if_neg (by omega)]
  -- on the slots from `rel` on, the test is that the list has a block
  have htest : ∀ k, rel ≤ k → k < mdivmerArrLmax →
      (decide (pages ≤ (s.bafh a k).afOderpnr ∧ 0 < (s.bafh a k).afFobjnr) = true ↔ (s.bafh a k).afFrelst ≠ []) := by
    intro k h1 h2
    have hmono : 2 ^ rel ≤ 2 ^ k := Nat.pow_le_pow_right (by omega) h1
    rw [decide_eq_true_iff, hoder k h2, (h.count a k (.of_lt ha h2)).1, List.length_pos_iff]
    exact ⟨fun hh => hh.2, fun hh => ⟨by omega, hh⟩⟩
  cases hfind : (List.range' rel (mdivmerArrLmax - rel)).find? fun idx =>
      decide (pages ≤ (s.bafh a idx).afOderpnr ∧ 0 < (s.bafh a idx).afFobjnr) with
  | none =>
    refine .inl ⟨rfl, fun k h1 h2 => ?_⟩
    by_contra hne
    exact List.find?_eq_none.mp hfind k (List.mem_range'_1.mpr ⟨h1, by omega⟩) ((htest k h1 h2).mpr hne)
  | some div =>
    obtain ⟨htrue, hmem, hmin⟩ := List.find?_range'_eq_some.mp hfind
    have hdiv := List.mem_range'_1.mp hmem
    refine .inr ⟨div, rfl, hdiv.1, by omega, (htest div hdiv.1 (by omega)).mp htrue, fun k h1 h2 => ?_⟩
    by_contra hne
    have hfalse := hmin k h1 h2
    rw [(htest k h1 (by omega)).mpr hne] at hfalse
    simp at hfalse

theorem onmaRetnMaxbafhlst_spec (h : Inv s hand live) (ha : a < 2) :
    (onmaRetnMaxbafhlst s a = none ∧ ∀ k < mdivmerArrLmax, (s.bafh a k).afFrelst = []) ∨
    ∃ k, onmaRetnMaxbafhlst s a = some k ∧ k < mdivmerArrLmax ∧ (s.bafh a k).afFrelst ≠ [] := by
  have htest : ∀ k < mdivmerArrLmax, decide (0 < (s.bafh a k).afFobjnr) = true ↔ (s.bafh a k).afFrelst ≠ [] := by
    intro k hk
    rw [decide_eq_true_iff, (h.count a k (.of_lt ha hk)).1, List.length_pos_iff]
  cases hmax : onmaRetnMaxbafhlst s a with
  | none =>
    refine .inl ⟨rfl, fun k hk => ?_⟩
    by_contra hne
    exact List.find?_eq_none.mp hmax k (by simpa using hk) ((htest k hk).mpr hne)
  | some k =>
    have hk := List.mem_of_find?_eq_some hmax
    rw [List.mem_reverse, List.mem_range] at hk
    have htrue := List.find?_some hmax
    exact .inr ⟨k, rfl, hk, (htest k hk).mp htrue⟩

/-- A request of an area that its counters and lists allow. -/
def Satisfiable (s : Memmgrob) (a pages : Nat) : Prop :=
  scanMapgsallocOk s a pages = true ∧
    ∃ k, Nat.clog 2 pages ≤ k ∧ k < mdivmerArrLmax ∧ (s.bafh a k).afFrelst ≠ []

theorem mmReldivpagesOnmarea_spec (h : Inv s ∅ live) (ha : a < 2) (pages : Nat) :
    (¬Satisfiable s a pages ∧ mmReldivpagesOnmarea s a pages = .ok (none, s)) ∨
    (Satisfiable s a pages ∧ ∃ div m s', mmReldivpagesOnmarea s a pages = .ok (some (m, 2 ^ Nat.clog 2 pages), s') ∧
      Took s s' live a (Nat.clog 2 pages) div m) := by
  unfold mmReldivpagesOnmarea
  by_cases hscan : scanMapgsallocOk s a pages = false
  · rw [if_pos hscan]
    exact .inl ⟨fun hsat => absurd hsat.1 (by simp [hscan]), rfl⟩
  rw [if_neg hscan]
  rw [Bool.not_eq_false] at hscan
  have hpages : 1 ≤ pages := by
    rw [scanMapgsallocOk, decide_eq_true_iff] at hscan
    exact hscan.1
  rcases onmpgsRetnBafhlst_spec h ha hpages with ⟨hnone, hnil⟩ | ⟨div, hsome, hle, hdiv, hne, hempty⟩
  · rw [hnone]
    exact .inl ⟨fun ⟨_, k, h1, h2, hk⟩ => hk (hnil k h1 h2), rfl⟩
  · rw [hsome]
    refine .inr ⟨⟨hscan, div, hle, hdiv, hne⟩, ?_⟩
    rcases mmReldpgsdivmsaBafhl_spec h (.of_lt ha hdiv) hle (.inr ha) hempty with ⟨hnil, -⟩ | ⟨m, s', heq, htook⟩
    · exact absurd hnil hne
    · rw [pnr_of_lt (by omega)] at heq
      exact ⟨div, m, s', heq, htook⟩

theorem mmMaxdivpagesOnmarea_spec (h : Inv s ∅ live) (ha : a < 2) :
    ((∀ k < mdivmerArrLmax, (s.bafh a k).afFrelst = []) ∧ mmMaxdivpagesOnmarea s a = .ok (none, s)) ∨
    ∃ k m s', mmMaxdivpagesOnmarea s a = .ok (some (m, pnr k), s') ∧ Took s s' live a k k m := by
  unfold mmMaxdivpagesOnmarea
  rcases onmaRetnMaxbafhlst_spec h ha with ⟨hmax, hnil⟩ | ⟨k, hmax, hk, hne⟩
  · rw [hmax]
    exact .inl ⟨hnil, rfl⟩
  · rw [hmax]
    have hslot : SlotOk a k := .of_lt ha hk
    rcases mmRetnmsaobOnbafhlst_spec h hslot with
      ⟨hnil, -⟩ | ⟨m, frelst, s₁, hcons, heq, hinv₁, hhand₁, hsame₁, hlist₁⟩
    · exact absurd hnil hne
    have hfresh := hinv₁.apart _ (Set.mem_insert _ _)
    obtain ⟨s₂, hop, hinv₂, hsame₂, hbafh₂⟩ := mmDivpagesOpmsadsc_spec hinv₁ (by simp) hhand₁ hslot rfl
    refine .inr ⟨k, m, s₂, ?_, hinv₂, hfresh, hslot, hsame₁.trans hsame₂, ⟨frelst, hcons, ?_⟩, le_rfl,
      fun k' h1 h2 => by omega, fun k' h1 h2 => by omega, fun a' k' hout => ?_⟩
    · simp only
      rw [bind_of_ok heq]
      simp only [hinv₁.oder a k hslot]
      rw [bind_of_ok hop, Option.map_some, hinv₂.oder a k hslot]
    · rw [hbafh₂, hlist₁.self]
    · rw [hbafh₂, hlist₁.other a' k' (by omega)]

/-! ### The areas and their counters -/

theorem onmrtypeRetnMarea_spec (h : Inv s hand live) (mrtype : Nat) :
    (onmrtypeRetnMarea s mrtype = none ∧ ¬(1 ≤ mrtype ∧ mrtype ≤ memareaMax)) ∨
    ∃ a, onmrtypeRetnMarea s mrtype = some a ∧ a < memareaMax ∧ mrtype = a + 1 := by
  unfold onmrtypeRetnMarea
  rw [h.areas]
  cases hfind : (List.range memareaMax).find? fun mi => decide ((s.marea mi).maType = mrtype) with
  | none =>
    refine .inl ⟨rfl, fun ⟨h1, h2⟩ => ?_⟩
    have hnone := List.find?_eq_none.mp hfind (mrtype - 1) (List.mem_range.mpr (by omega))
    rw [decide_eq_true_iff, h.type _ (by omega)] at hnone
    omega
  | some a =>
    have ha := List.mem_range.mp (List.mem_of_find?_eq_some hfind)
    have htype := List.find?_some hfind
    rw [decide_eq_true_iff, h.type a ha] at htype
    exact .inr ⟨a, rfl, ha, htype.symm⟩

def counted (s : Memmgrob) (a n : Nat) : Memmgrob := mmUpdateMemmgrob (mmUpdateMemarea s a n true) n true

theorem countAlloc_some (hpos : n ≠ 0) : countAlloc a (some (m, n), s) = (some (m, n), counted s a n) := if_pos hpos

theorem Inv.recount (h : Inv s hand live) (hmsanr : s'.moMsanr = s.moMsanr) (hmsa : s'.msa = s.msa)
    (hmareanr : s'.moMareanr = s.moMareanr) (htype : ∀ a, (s'.marea a).maType = (s.marea a).maType)
    (hbafh : s'.bafh = s.bafh) : Inv s' hand live where
  areas := hmareanr.trans h.areas
  type := fun a ha => (htype a).trans (h.type a ha)
  oder := hbafh ▸ h.oder
  slot := hbafh ▸ h.slot
  nodup := hbafh ▸ h.nodup
  count := hbafh ▸ h.count
  small := hmsanr ▸ h.small
  padrs := by
    rw [hmsanr, hmsa]
    exact h.padrs
  tile := by
    have hpages : pages s' = pages s := by
      unfold pages
      rw [hmsanr, hmsa]
    have hblocks : blocks s' (hand ∪ live) = blocks s (hand ∪ live) := by
      funext o
      cases o <;> simp only [blocks, hbafh]
    rw [hpages, hblocks]
    exact h.tile
  apart := h.apart
  free := by
    rw [hbafh, hmsa]
    exact h.free
  live := hmsa ▸ h.live
  krnl := by
    rw [hmsanr, hmsa]
    exact h.krnl
  alone := by
    rw [hbafh, hmsa]
    exact h.alone

theorem mmUpdateMemarea_maType (s : Memmgrob) (a n : Nat) (alloc : Bool) (a' : Nat) :
    ((mmUpdateMemarea s a n alloc).marea a').maType = (s.marea a').maType := by
  simp only [mmUpdateMemarea, Memmgrob.setMarea]
  by_cases ha : a' = a
  · subst ha
    rw [Function.update_self]
    cases alloc <;> rfl
  · rw [Function.update_of_ne ha]

theorem Inv.counted (h : Inv s hand live) (a n : Nat) : Inv (counted s a n) hand live :=
  h.recount rfl rfl rfl (mmUpdateMemarea_maType s a n true) rfl

/-! ### The calls -/

def Handed (s s' : Memmgrob) (live : Set Blk) (a rel m : Nat) : Prop :=
  ∃ div s₁, Took s s₁ live a rel div m ∧ s' = counted s₁ a (pnr rel)

theorem Handed.inv {rel : Nat} (h : Handed s s' live a rel m) : Inv s' ∅ (insert (m, pnr rel) live) := by
  obtain ⟨div, s₁, htook, rfl⟩ := h
  exact htook.inv.counted a _

theorem Handed.liveBlk {rel : Nat} (h : Inv s ∅ live) (hh : Handed s s' live a rel m) :
    LiveBlk s'.msa a m (pnr rel) := by
  obtain ⟨a', k, -, -, hblk⟩ := hh.inv.live (m, pnr rel) (Set.mem_insert _ _)
  obtain ⟨div, s₁, htook, rfl⟩ := hh
  have hold := htook.marty h
  have hnew := hblk.marty m le_rfl (Nat.lt_add_of_pos_right (pnr_pos rel))
  have hsame : (s₁.msa m).mfMarty = (s.msa m).mfMarty := htook.same.marty m
  obtain rfl : a' = a := by
    have hmsa : ((counted s₁ a (pnr rel)).msa m).mfMarty = (s₁.msa m).mfMarty := rfl
    omega
  exact hblk

theorem Inv.type_of_lt_two (h : Inv s hand live) (ha : a < 2) :
    ¬((s.marea a).maType ≠ maTypeKrnl ∧ (s.marea a).maType ≠ maTypeHwad) := by
  rw [h.type a (by unfold memareaMax; omega)]
  unfold maTypeKrnl maTypeHwad
  omega

theorem mmDivpagesCore_reldiv (h : Inv s ∅ live) (ha : a < 2) (pages : Nat) :
    (¬Satisfiable s a pages ∧ mmDivpagesCore s a pages dmfReldiv = .ok (none, s)) ∨
    (Satisfiable s a pages ∧ ∃ m s', mmDivpagesCore s a pages dmfReldiv = .ok (some (m, 2 ^ Nat.clog 2 pages), s') ∧
      Handed s s' live a (Nat.clog 2 pages) m) := by
  unfold mmDivpagesCore
  rw [if_neg (by simp), if_neg (h.type_of_lt_two ha), if_neg (show dmfReldiv ≠ dmfMaxdiv by decide)]
  rcases mmReldivpagesOnmarea_spec h ha pages with ⟨hsat, heq⟩ | ⟨hsat, div, m, s₁, heq, htook⟩
  · exact .inl ⟨hsat, bind_of_ok heq _⟩
  · have hpnr : pnr (Nat.clog 2 pages) = 2 ^ Nat.clog 2 pages := by
      have hslot := htook.slot
      unfold SlotOk at hslot
      exact pnr_of_lt (by omega)
    refine .inr ⟨hsat, m, _, ?_, div, s₁, htook, rfl⟩
    rw [bind_of_ok heq, countAlloc_some (by positivity), hpnr]

theorem mmDivpagesCore_maxdiv (h : Inv s ∅ live) (ha : a < 2) (pages : Nat) :
    ((∀ k < mdivmerArrLmax, (s.bafh a k).afFrelst = []) ∧ mmDivpagesCore s a pages dmfMaxdiv = .ok (none, s)) ∨
    ∃ k m s', mmDivpagesCore s a pages dmfMaxdiv = .ok (some (m, pnr k), s') ∧ Handed s s' live a k m := by
  unfold mmDivpagesCore
  rw [if_neg (by simp), if_neg (h.type_of_lt_two ha), if_pos rfl]
  rcases mmMaxdivpagesOnmarea_spec h ha with ⟨hnil, heq⟩ | ⟨k, m, s₁, heq, htook⟩
  · exact .inl ⟨hnil, bind_of_ok heq _⟩
  · refine .inr ⟨k, m, _, ?_, k, s₁, htook, rfl⟩
    rw [bind_of_ok heq, countAlloc_some (pnr_pos k).ne']

theorem mmDivisionPages_core (h : Inv s hand live) (ha : a < 2) (pages flgs : Nat) :
    mmDivisionPages s pages (a + 1) flgs = mmDivpagesCore s a pages flgs := by
  rcases onmrtypeRetnMarea_spec h (a + 1) with ⟨-, hbad⟩ | ⟨a', hsome, -, heq⟩
  · exact absurd ⟨by omega, by unfold memareaMax; omega⟩ hbad
  · rw [mmDivisionPages, if_neg (by omega), hsome, show a' = a by omega]

/-- **`mm_division_pages`** refuses without a change or hands out a block of the area asked for. -/
theorem mmDivisionPages_spec (h : Inv s ∅ live) (pages mrtype flgs : Nat) :
    mmDivisionPages s pages mrtype flgs = .ok (none, s) ∨
    ∃ a k m s', mmDivisionPages s pages mrtype flgs = .ok (some (m, pnr k), s') ∧ Handed s s' live a k m ∧
      mrtype = a + 1 ∧ (flgs = dmfReldiv → pnr k = 2 ^ Nat.clog 2 pages) := by
  unfold mmDivisionPages
  by_cases hzero : mrtype = 0
  · exact .inl (if_pos hzero)
  rw [if_neg hzero]
  rcases onmrtypeRetnMarea_spec h mrtype with ⟨hnone, -⟩ | ⟨a, hsome, ha, hmr⟩
  · rw [hnone]
    exact .inl rfl
  rw [hsome]
  by_cases ha2 : a < 2
  · by_cases hrel : flgs = dmfReldiv
    · subst hrel
      rcases mmDivpagesCore_reldiv h ha2 pages with ⟨-, heq⟩ | ⟨-, m, s', heq, hh⟩
      · exact .inl heq
      · obtain ⟨div, s₁, htook, -⟩ := id hh
        have hslot := htook.slot
        unfold SlotOk at hslot
        have hpnr : pnr (Nat.clog 2 pages) = 2 ^ Nat.clog 2 pages := pnr_of_lt (by omega)
        rw [← hpnr] at heq
        exact .inr ⟨a, _, m, s', heq, hh, hmr, fun _ => hpnr⟩
    · by_cases hmax : flgs = dmfMaxdiv
      · subst hmax
        rcases mmDivpagesCore_maxdiv h ha2 pages with ⟨-, heq⟩ | ⟨k, m, s', heq, hh⟩
        · exact .inl heq
        · exact .inr ⟨a, k, m, s', heq, hh, hmr, fun hc => absurd hc hrel⟩
      · exact .inl (if_pos ⟨hrel, hmax⟩)
  · -- process and shared memory are not divided here
    have htype : (s.marea a).maType ≠ maTypeKrnl ∧ (s.marea a).maType ≠ maTypeHwad := by
      rw [h.type a ha]
      unfold maTypeKrnl maTypeHwad
      omega
    refine .inl ?_
    unfold mmDivpagesCore
    simp only [if_pos htype, ite_self]

/-- **`mm_divpages_procmarea`** hands out a page of process memory, or else of kernel memory. -/
theorem mmDivpagesProcmarea_spec (h : Inv s ∅ live) (pages : Nat) :
    mmDivpagesProcmarea s pages = .ok (none, s) ∨
    ∃ a k m s', mmDivpagesProcmarea s pages = .ok (some (m, 1), s') ∧ Handed s s' live a k m ∧ pnr k = 1 := by
  unfold mmDivpagesProcmarea
  by_cases hone : pages = 1
  case neg => exact .inl (if_pos hone)
  subst hone
  rw [if_neg (by simp)]
  -- with no page of process memory the call goes on with kernel memory
  have hkrnl : mmDivisionPages s 1 maTypeKrnl dmfReldiv = .ok (none, s) ∨
      ∃ a k m s', mmDivisionPages s 1 maTypeKrnl dmfReldiv = .ok (some (m, 1), s') ∧ Handed s s' live a k m ∧
        pnr k = 1 := by
    rcases mmDivisionPages_spec h 1 maTypeKrnl dmfReldiv with heq | ⟨a, k, m, s', heq, hh, -, hk⟩
    · exact .inl heq
    · have hpnr : pnr k = 1 := by
        rw [hk rfl, Nat.clog_one_right, pow_zero]
      rw [hpnr] at heq
      exact .inr ⟨a, k, m, s', heq, hh, hpnr⟩
  unfold divpagesProcmareaCore
  rw [if_neg (by simp)]
  rcases onmrtypeRetnMarea_spec h maTypeProc with ⟨hnone, hbad⟩ | ⟨a, hsome, ha, hmr⟩
  · exact absurd (by decide) hbad
  have ha2 : a = 2 := by
    unfold maTypeProc at hmr
    omega
  subst ha2
  rw [retnProcmarea, hsome]
  by_cases hscan : scanMapgsallocOk s 2 1 = false
  · simp only [if_pos hscan]
    exact hkrnl
  · have hprc : mmPrcdivpagesOnmarea s 2 1 = mmReldpgsdivmsaBafhl s 2 onemsalst onemsalst := by
      unfold mmPrcdivpagesOnmarea
      rw [if_neg (by simp), if_neg (by rw [h.type 2 ha]; decide), if_neg hscan]
    simp only [if_neg hscan, hprc]
    rcases mmReldpgsdivmsaBafhl_spec h (show SlotOk 2 onemsalst from .inr ⟨rfl, rfl⟩) le_rfl (.inl rfl)
      (fun k h1 h2 => by omega) with ⟨-, heq⟩ | ⟨m, s₁, heq, htook⟩
    · rw [bind_of_ok heq]
      exact hkrnl
    · refine .inr ⟨2, onemsalst, m, _, ?_, ⟨onemsalst, s₁, htook, rfl⟩, rfl⟩
      rw [bind_of_ok heq, countAlloc_some (pnr_pos _).ne']
      rfl

end Cosmos.Page
