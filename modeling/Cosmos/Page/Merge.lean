import Cosmos.Page.Division

/-!
# Giving pages back

`mm_merge_pages` keeps the invariant: it gives back a live block named by its first descriptor and its number of
pages, joining it with neighbours of its order, and changes nothing on any other argument.
-/

namespace Cosmos.Page

open Cosmos.Lib Halt

variable {s s' : Memmgrob} {hand live : Set Blk} {a k m n : Nat}

/-! ### A live block becomes free -/

def Memmgrob.unmark (s : Memmgrob) (a k m e : Nat) : Memmgrob :=
  if m = e then
    (s.setMsa m fun d => { d with mfUindx := d.mfUindx - 1 }).setMsa m fun d =>
      { d with pafAlloc := false, mfOlkty := .bafh, mdOdlink := .bafh ⟨a, k⟩ }
  else
    (((s.setMsa m fun d => { d with mfUindx := d.mfUindx - 1 }).setMsa e fun d =>
      { d with mfUindx := d.mfUindx - 1 }).setMsa m fun d =>
      { d with pafAlloc := false, mfOlkty := .oder, mdOdlink := .msa e }).setMsa e fun d =>
      { d with pafAlloc := false, mfOlkty := .bafh, mdOdlink := .bafh ⟨a, k⟩ }

section Unmark

variable (s : Memmgrob) {i e : Nat}

theorem same_unmark (a k m e : Nat) : Same s (s.unmark a k m e) := by
  unfold Memmgrob.unmark
  split
  · refine .setMsa _ (.setMsa _ (.refl s) ?_) ?_ <;> exact fun _ => ⟨rfl, rfl, rfl⟩
  · refine .setMsa _ (.setMsa _ (.setMsa _ (.setMsa _ (.refl s) ?_) ?_) ?_) ?_ <;> exact fun _ => ⟨rfl, rfl, rfl⟩

theorem unmark_bafh (a k m e : Nat) : (s.unmark a k m e).bafh = s.bafh := by
  unfold Memmgrob.unmark
  split <;> rfl

theorem unmark_of_ne (hm : i ≠ m) (he : i ≠ e) : (s.unmark a k m e).msa i = s.msa i := by
  unfold Memmgrob.unmark
  split
  · rw [setMsa_of_ne _ _ hm, setMsa_of_ne _ _ hm]
  · rw [setMsa_of_ne _ _ he, setMsa_of_ne _ _ hm, setMsa_of_ne _ _ he, setMsa_of_ne _ _ hm]

theorem unmark_first (hne : m ≠ e) : (s.unmark a k m e).msa m =
    { s.msa m with mfUindx := (s.msa m).mfUindx - 1, pafAlloc := false, mfOlkty := .oder, mdOdlink := .msa e } := by
  rw [Memmgrob.unmark, if_neg hne, setMsa_of_ne _ _ hne, setMsa_self, setMsa_of_ne _ _ hne, setMsa_self]

theorem unmark_last : (s.unmark a k m e).msa e =
    { s.msa e with
      mfUindx := (s.msa e).mfUindx - 1, pafAlloc := false, mfOlkty := .bafh, mdOdlink := .bafh ⟨a, k⟩ } := by
  unfold Memmgrob.unmark
  split
  · next heq =>
    subst heq
    rw [setMsa_self, setMsa_self]
  · next hne =>
    rw [setMsa_self, setMsa_of_ne _ _ (Ne.symm hne), setMsa_self, setMsa_of_ne _ _ (Ne.symm hne)]

end Unmark

theorem freeBlk_unmark (hlive : LiveBlk s.msa a m (pnr k)) :
    FreeBlk (s.unmark a k m (m + pnr k - 1)).msa a k m := by
  have hpos := pnr_pos k
  have hsame := same_unmark s a k m (m + pnr k - 1)
  refine ⟨⟨fun i hlo hhi => ?_, fun i hlo hhi => ?_⟩, fun i hlo hhi => ?_, fun h1 => ?_, fun i hlo hhi => ?_, ?_⟩
  · rw [hsame.marty, hlive.marty i hlo hhi]
  · rw [hsame.padrs, hsame.padrs, hlive.padrs i hlo hhi]
  · by_cases he : i = m + pnr k - 1
    · rw [he, unmark_last, hlive.last.1]
      exact ⟨rfl, rfl⟩
    · by_cases hm : i = m
      · rw [hm, unmark_first s (by omega), hlive.first.2.2.1]
        exact ⟨rfl, rfl⟩
      · rw [unmark_of_ne s hm he]
        exact (hlive.inner i (by omega) (by omega)).2.2
  · rw [unmark_first s (by omega)]
    exact ⟨rfl, rfl⟩
  · rw [unmark_of_ne s (by omega) (by omega)]
    exact ⟨(hlive.inner i hlo hhi).1, (hlive.inner i hlo hhi).2.1⟩
  · rw [unmark_last]
    exact ⟨rfl, rfl⟩

theorem mmMerpagesOpmsadsc_spec (h : Inv s hand (insert (m, pnr k) live)) (hb : (m, pnr k) ∉ live)
    (hlive : LiveBlk s.msa a m (pnr k)) (hslot : SlotOk a k) :
    ∃ s', mmMerpagesOpmsadsc s a k m (pnr k) = .ok (.freed, s') ∧ Inv s' (insert (m, pnr k) hand) live ∧
      FreeBlk s'.msa a k m ∧ Same s s' ∧ s'.bafh = s.bafh := by
  have hpos := pnr_pos k
  have hcount : msaCount m (m + pnr k - 1) = pnr k := h.msaCount_used (.inr (Set.mem_insert _ _))
  obtain ⟨holk, hlink, huindx, halloc⟩ := hlive.first
  obtain ⟨huindx', halloc', -⟩ := hlive.last
  have hinv : Inv (s.unmark a k m (m + pnr k - 1)) (insert (m, pnr k) hand) live := by
    refine (h.ofLive hb).write (Set.mem_insert _ _) (same_unmark s _ _ _ _) (unmark_bafh s _ _ _ _) fun i hi => ?_
    refine unmark_of_ne s ?_ ?_ <;> rintro rfl <;> simp at hi <;> omega
  refine ⟨_, ?_, hinv, freeBlk_unmark hlive, same_unmark s _ _ _ _, unmark_bafh s _ _ _ _⟩
  unfold mmMerpagesOpmsadsc
  simp only [holk, hlink, Odlink.toMsa, ok_bind, hcount, huindx, halloc, huindx', halloc', h.oder a k hslot]
  rw [if_neg (by omega), if_neg (by simp), if_neg (by omega), if_neg (by simp), if_neg (by simp), if_neg (by simp),
    if_neg (by simp)]
  unfold Memmgrob.unmark
  by_cases hone : m = m + pnr k - 1
  · rw [if_pos hone, if_pos hone, setMsa_self, huindx, if_neg (by simp)]
  · rw [if_neg hone, if_neg hone, setMsa_of_ne _ _ hone, setMsa_self, huindx, if_neg (by simp)]

/-! ### Looking for a neighbour -/

theorem mmCmsa1blkIsok_eq (hfree : FreeBlk s.msa a k m) (hpadrs : (s.msa (m + pnr k - 1)).pafPadrs < 2 ^ 40) :
    mmCmsa1blkIsok s ⟨a, k⟩ m (m + pnr k - 1) = true := by
  have hpos := pnr_pos k
  have hlast := hfree.padrs (m + pnr k - 1) (by omega) (by omega)
  have hidle := hfree.idle m le_rfl (by omega)
  have hidle' := hfree.idle (m + pnr k - 1) (by omega) (by omega)
  have hsub : bitsSub 52 (s.msa (m + pnr k - 1)).pafPadrs (s.msa m).pafPadrs = m + pnr k - 1 - m := by
    rw [bitsSub_of_le (by omega) (by omega)]
    omega
  have hfirst : m = m + pnr k - 1 ∨ (s.msa m).mfOlkty = .oder ∧ (s.msa m).mdOdlink = .msa (m + pnr k - 1) ∧
      (s.msa m).pafAlloc = false ∧ (s.msa m).mfUindx = 0 := by
    by_cases h1 : 1 < pnr k
    · exact .inr ⟨(hfree.first h1).1, (hfree.first h1).2, hidle.2, hidle.1⟩
    · exact .inl (by omega)
  simp only [mmCmsa1blkIsok, Bool.and_eq_true, Bool.or_eq_true, decide_eq_true_eq]
  exact ⟨⟨by omega, hfirst⟩, hfree.last.1, hfree.last.2, hidle'.2, hidle'.1, hsub⟩

/-- How the block from `m` on lies to the one from `m'` on. -/
def Sides (s : Memmgrob) (k m m' : Nat) : Cmsa → Prop
  | .below => Adjacent s.msa m (pnr k) m'
  | .above => Adjacent s.msa m' (pnr k) m
  | .apart => ¬Adjacent s.msa m (pnr k) m' ∧ ¬Adjacent s.msa m' (pnr k) m
  | .bad => False

theorem mmCmsa2blkIsok_spec {m' : Nat} (hfree : FreeBlk s.msa a k m) (hfree' : FreeBlk s.msa a k m')
    (hdisj : m + pnr k ≤ m' ∨ m' + pnr k ≤ m) (hpadrs : (s.msa (m + pnr k - 1)).pafPadrs < 2 ^ 40)
    (hpadrs' : (s.msa (m' + pnr k - 1)).pafPadrs < 2 ^ 40) :
    ∃ rets, mmCmsa2blkIsok s ⟨a, k⟩ m (m + pnr k - 1) m' (m' + pnr k - 1) = .ok rets ∧ Sides s k m m' rets := by
  have hpos := pnr_pos k
  unfold mmCmsa2blkIsok
  rw [if_neg (by omega), mmCmsa1blkIsok_eq hfree hpadrs, mmCmsa1blkIsok_eq hfree' hpadrs', if_neg (by simp),
    if_neg (by simp), bits_of_lt (by omega), bits_of_lt (by omega)]
  rcases hdisj with hlow | hlow
  · rw [if_pos (by omega)]
    have hother : ¬Adjacent s.msa m' (pnr k) m := fun hadj => by
      have := hadj.1
      omega
    split
    · next hne =>
      refine ⟨.apart, rfl, fun hadj => hne.elim (fun hidx => hidx ?_) fun hphy => hphy hadj.2, hother⟩
      have := hadj.1
      omega
    · next heq =>
      push Not at heq
      exact ⟨.below, rfl, by omega, heq.2⟩
  · rw [if_neg (by omega), if_pos (by omega)]
    have hother : ¬Adjacent s.msa m (pnr k) m' := fun hadj => by
      have := hadj.1
      omega
    split
    · next hne =>
      refine ⟨.apart, rfl, hother, fun hadj => hne.elim (fun hidx => hidx ?_) fun hphy => hphy hadj.2⟩
      have := hadj.1
      omega
    · next heq =>
      push Not at heq
      exact ⟨.above, rfl, by omega, heq.2⟩

theorem scanCmsa2blk_spec (hoder : (s.bafh a k).afOderpnr = pnr k) (l : List Nat)
    (hcmp : ∀ m' ∈ l, ∃ rets, mmCmsa2blkIsok s ⟨a, k⟩ m (m + pnr k - 1) m' (m' + pnr k - 1) = .ok rets ∧
      Sides s k m m' rets) : ∀ rets₀,
    (∃ rets, scanCmsa2blk s a k m (m + pnr k - 1) l rets₀ = .ok (rets, none) ∧
      ∀ m' ∈ l, ¬Adjacent s.msa m (pnr k) m' ∧ ¬Adjacent s.msa m' (pnr k) m) ∨
    ∃ rets m', m' ∈ l ∧ scanCmsa2blk s a k m (m + pnr k - 1) l rets₀ = .ok (rets, some m') ∧
      (rets = .below ∨ rets = .above) ∧ Sides s k m m' rets := by
  induction l with
  | nil => exact fun rets₀ => .inl ⟨rets₀, rfl, by simp⟩
  | cons m₁ l ih =>
    intro rets₀
    obtain ⟨rets, heq, hside⟩ := hcmp m₁ (by simp)
    have hstep : scanCmsa2blk s a k m (m + pnr k - 1) (m₁ :: l) rets₀ =
        if rets = .below ∨ rets = .above then .ok (rets, some m₁)
        else scanCmsa2blk s a k m (m + pnr k - 1) l rets := by
      rw [scanCmsa2blk, hoder]
      exact bind_of_ok heq _
    rw [hstep]
    by_cases hnear : rets = .below ∨ rets = .above
    · rw [if_pos hnear]
      exact .inr ⟨rets, m₁, by simp, rfl, hnear, hside⟩
    · rw [if_neg hnear]
      rcases ih (fun m' hm' => hcmp m' (by simp [hm'])) rets with ⟨rets', heq', hnone⟩ | ⟨rets', m', hm', heq', hrets⟩
      · refine .inl ⟨rets', heq', fun m' hm' => ?_⟩
        rcases List.mem_cons.mp hm' with rfl | hm'
        · cases rets with
          | bad => exact hside.elim
          | apart => exact hside
          | below => exact absurd (.inl rfl) hnear
          | above => exact absurd (.inr rfl) hnear
        · exact hnone m' hm'
      · exact .inr ⟨rets', m', by simp [hm'], heq', hrets⟩

/-! ### Joining two blocks -/

theorem pnr_succ (hk : k + 1 < mdivmerArrLmax) : pnr (k + 1) = pnr k + pnr k := by
  rw [pnr_of_lt hk, pnr_of_lt (by omega), pow_succ]
  omega

theorem chekCl2molkflg_eq (hk : k + 1 < mdivmerArrLmax) (hoder : (s.bafh a (k + 1)).afOderpnr = pnr (k + 1))
    (hlt : m + pnr (k + 1) - 1 < 2 ^ 63) (hfree : FreeBlk s.msa a (k + 1) m) :
    chekCl2molkflg s ⟨a, k + 1⟩ m (m + pnr k - 1) (m + pnr k) (m + pnr (k + 1) - 1) = true := by
  have hpos := pnr_pos k
  have hsucc := pnr_succ hk
  have hcount : msaCount m (m + pnr (k + 1) - 1) = pnr (k + 1) := by
    rw [msaCount_eq (by omega) hlt]
    omega
  have hinner : (m = m + pnr k - 1 ∧ m + pnr k = m + pnr (k + 1) - 1) ∨
      ((s.msa (m + pnr k - 1)).mfOlkty = .init ∧ (s.msa (m + pnr k - 1)).mdOdlink = .null ∧
        (s.msa (m + pnr k)).mfOlkty = .init ∧ (s.msa (m + pnr k)).mdOdlink = .null) := by
    by_cases h1 : pnr k = 1
    · exact .inl (by omega)
    · have hfst := hfree.inner (m + pnr k - 1) (by omega) (by omega)
      have hsnd := hfree.inner (m + pnr k) (by omega) (by omega)
      exact .inr ⟨hfst.1, hfst.2, hsnd⟩
  simp only [chekCl2molkflg, Bool.and_eq_true, Bool.or_eq_true, decide_eq_true_eq, hoder, hcount]
  exact ⟨⟨⟨⟨by omega, by omega, trivial⟩, hfree.first (by omega)⟩, hfree.last⟩, hinner⟩

def Memmgrob.unlink (s : Memmgrob) (i j : Nat) : Memmgrob :=
  (s.setMsa i fun d => { d with mfOlkty := .init, mdOdlink := .null }).setMsa j fun d =>
    { d with mfOlkty := .init, mdOdlink := .null }

theorem unlink_fields (s : Memmgrob) (i j x : Nat) : ((s.unlink i j).msa x).mfUindx = (s.msa x).mfUindx ∧
    ((s.unlink i j).msa x).pafAlloc = (s.msa x).pafAlloc ∧ ((s.unlink i j).msa x).mfMarty = (s.msa x).mfMarty ∧
    ((s.unlink i j).msa x).pafPadrs = (s.msa x).pafPadrs := by
  have hkept : ∀ {β : Type} (p : Msadsc → β), (∀ d, p { d with mfOlkty := .init, mdOdlink := .null } = p d) →
      p ((s.unlink i j).msa x) = p (s.msa x) := fun p hp =>
    (setMsa_field _ _ p hp x).trans (setMsa_field s _ p hp x)
  exact ⟨hkept Msadsc.mfUindx fun _ => rfl, hkept Msadsc.pafAlloc fun _ => rfl, hkept Msadsc.mfMarty fun _ => rfl,
    hkept Msadsc.pafPadrs fun _ => rfl⟩

theorem unlink_of_ne (s : Memmgrob) {i j x : Nat} (hi : x ≠ i) (hj : x ≠ j) : (s.unlink i j).msa x = s.msa x := by
  rw [Memmgrob.unlink, setMsa_of_ne _ _ hj, setMsa_of_ne _ _ hi]

theorem unlink_cleared (s : Memmgrob) {i j x : Nat} (h : x = i ∨ x = j) :
    ((s.unlink i j).msa x).mfOlkty = .init ∧ ((s.unlink i j).msa x).mdOdlink = .null := by
  unfold Memmgrob.unlink
  by_cases hj : x = j
  · subst hj
    rw [setMsa_self]
    exact ⟨rfl, rfl⟩
  · have hi := h.resolve_right hj
    subst hi
    rw [setMsa_of_ne _ _ hj, setMsa_self]
    exact ⟨rfl, rfl⟩

theorem same_unlink (s : Memmgrob) (i j : Nat) : Same s (s.unlink i j) := by
  refine .setMsa _ (.setMsa _ (.refl s) ?_) ?_ <;> exact fun _ => ⟨rfl, rfl, rfl⟩

theorem freeBlk_joined (hk : k + 1 < mdivmerArrLmax) (hfst : FreeBlk s.msa a k m) (hsnd : FreeBlk s.msa a k (m + pnr k))
    (hadj : Adjacent s.msa m (pnr k) (m + pnr k)) :
    FreeBlk ((s.unlink (m + pnr k - 1) (m + pnr k)).markFree a (k + 1) m (m + pnr (k + 1) - 1)).msa a (k + 1) m := by
  have hpos := pnr_pos k
  have hsucc := pnr_succ hk
  have hfields := unlink_fields s (m + pnr k - 1) (m + pnr k)
  have hmid : (s.msa (m + pnr k)).pafPadrs = (s.msa m).pafPadrs + pnr k := by
    have hlast := hfst.padrs (m + pnr k - 1) (by omega) (by omega)
    have := hadj.2
    omega
  refine freeBlk_markFree ⟨fun i hlo hhi => ?_, fun i hlo hhi => ?_⟩ (fun i hlo hhi => ?_) fun i hlo hhi => ?_
  · rw [(hfields i).2.2.1]
    by_cases hi : i < m + pnr k
    · exact hfst.marty i hlo hi
    · exact hsnd.marty i (by omega) (by omega)
  · rw [(hfields i).2.2.2, (hfields m).2.2.2]
    by_cases hi : i < m + pnr k
    · exact hfst.padrs i hlo hi
    · rw [hsnd.padrs i (by omega) (by omega), hmid]
      omega
  · rw [(hfields i).1, (hfields i).2.1]
    by_cases hi : i < m + pnr k
    · exact hfst.idle i hlo hi
    · exact hsnd.idle i (by omega) (by omega)
  · by_cases hi : i = m + pnr k - 1 ∨ i = m + pnr k
    · exact unlink_cleared s hi
    · rw [unlink_of_ne s (by omega) (by omega)]
      by_cases hlow : i < m + pnr k
      · exact hfst.inner i hlo (by omega)
      · exact hsnd.inner i (by omega) (by omega)

theorem joinBlks_spec (h : Inv s {(m, pnr k), (m + pnr k, pnr k)} live) (ha : a < 2) (hk : k + 1 < mdivmerArrLmax)
    (hfst : FreeBlk s.msa a k m) (hsnd : FreeBlk s.msa a k (m + pnr k))
    (hadj : Adjacent s.msa m (pnr k) (m + pnr k)) (msg : String) :
    ∃ s', joinBlks s a k m (m + pnr k - 1) (m + pnr k) (m + pnr k + pnr k - 1) msg =
        .ok (some (m, m + pnr (k + 1) - 1), s') ∧ Inv s' {(m, pnr (k + 1))} live ∧ FreeBlk s'.msa a (k + 1) m ∧
      Same s s' ∧ s'.bafh = s.bafh := by
  have hpos := pnr_pos k
  have hsucc := pnr_succ hk
  have hjoin := h.join hpos hpos
  rw [← hsucc] at hjoin
  have hlt := (hjoin.lt_of_used (b := (m, pnr (k + 1))) (.inl rfl) (i := m + pnr (k + 1) - 1) (show m ≤ _ by omega)
    (show _ < m + pnr (k + 1) by omega)).1
  have hsame : Same s ((s.unlink (m + pnr k - 1) (m + pnr k)).markFree a (k + 1) m (m + pnr (k + 1) - 1)) :=
    (same_unlink s _ _).trans (same_markFree _ _ _ _ _)
  have hfree := freeBlk_joined hk hfst hsnd hadj
  have hchek := chekCl2molkflg_eq hk ((hsame.oder a (k + 1)).trans (h.oder a (k + 1) (.of_lt ha hk)))
    (lt_trans hlt h.small) hfree
  have hclear : mmClear2msaolflg s ⟨a, k + 1⟩ m (m + pnr k - 1) (m + pnr k) (m + pnr (k + 1) - 1) =
      (true, (s.unlink (m + pnr k - 1) (m + pnr k)).markFree a (k + 1) m (m + pnr (k + 1) - 1)) := by
    unfold mmClear2msaolflg
    rw [if_neg (by omega)]
    rfl
  refine ⟨_, ?_, hjoin.write (b := (m, pnr (k + 1))) rfl hsame rfl fun i hi => ?_, hfree, hsame, rfl⟩
  · rw [show m + pnr k + pnr k - 1 = m + pnr (k + 1) - 1 by omega]
    simp only [joinBlks, hclear, hchek, if_true, Bool.true_eq_false, if_false]
  · have hout : i < m ∨ m + pnr (k + 1) ≤ i := by
      simp only [not_and_or, not_le, not_lt] at hi
      exact hi
    rw [markFree_of_ne _ (by omega) (by omega), unlink_of_ne s (by omega) (by omega)]

/-- The lists after the block in hand joined the free block from `m'` on of slot `k`. -/
structure Joined (s s' : Memmgrob) (a k m m' m₁ : Nat) : Prop where
  mem : m' ∈ (s.bafh a k).afFrelst
  side : (m₁ = m ∧ m' = m + pnr k) ∨ (m₁ = m' ∧ m = m' + pnr k)
  same : Same s s'
  lists : OnlyList s s' a k ((s.bafh a k).afFrelst.erase m')

/-- **One level of merging**: no free block of the order is a neighbour, or one is and is joined. -/
theorem mmFindCmsa2blk_spec (h : Inv s {(m, pnr k)} live) (hfree : FreeBlk s.msa a k m) (ha : a < 2)
    (hk : k + 1 < mdivmerArrLmax) :
    (mmFindCmsa2blk s a k m (m + pnr k - 1) = .ok (.alone, s) ∧
      ∀ m' ∈ (s.bafh a k).afFrelst, ¬Adjacent s.msa m (pnr k) m' ∧ ¬Adjacent s.msa m' (pnr k) m) ∨
    ∃ m₁ m' s', mmFindCmsa2blk s a k m (m + pnr k - 1) = .ok (.joined m₁ (m₁ + pnr (k + 1) - 1), s') ∧
      Inv s' {(m₁, pnr (k + 1))} live ∧ FreeBlk s'.msa a (k + 1) m₁ ∧ Joined s s' a k m m' m₁ := by
  have hpos := pnr_pos k
  have hslot : SlotOk a k := .of_lt ha (by omega)
  have hoder := h.oder a k hslot
  have hin : (m, pnr k) ∈ ({(m, pnr k)} : Set Blk) ∪ live := .inl rfl
  have hpadrs : (s.msa (m + pnr k - 1)).pafPadrs < 2 ^ 40 :=
    h.padrs _ (h.lt_of_used hin (i := m + pnr k - 1) (show m ≤ _ by omega) (show _ < m + pnr k by omega)).1
  have hcmp : ∀ m' ∈ (s.bafh a k).afFrelst, ∃ rets,
      mmCmsa2blkIsok s ⟨a, k⟩ m (m + pnr k - 1) m' (m' + pnr k - 1) = .ok rets ∧ Sides s k m m' rets := by
    intro m' hm'
    refine mmCmsa2blkIsok_spec hfree (h.free a k m' hm') ?_ hpadrs
      (h.padrs _ (h.lt_of_free hm' (i := m' + pnr k - 1) (by omega) (by omega)).1)
    have hapart := h.free_apart hm' hin le_rfl (by omega)
    have hapart' := fun hlo hhi => h.free_apart hm' hin (i := m) hlo hhi
    simp only at hapart hapart'
    omega
  have hscan := scanCmsa2blk_spec hoder (s.bafh a k).afFrelst hcmp .bad
  unfold mmFindCmsa2blk
  by_cases hfobj : (s.bafh a k).afFobjnr < 1
  · have hnil : (s.bafh a k).afFrelst = [] := by
      have hlen := (h.count a k hslot).1
      exact List.length_eq_zero_iff.mp (by omega)
    rw [if_pos hfobj, hnil]
    exact .inl ⟨rfl, by simp⟩
  rw [if_neg hfobj]
  rcases hscan with ⟨rets, heq, hnone⟩ | ⟨rets, m', hm', heq, hrets, hside⟩
  · rw [bind_of_ok heq]
    exact .inl ⟨rfl, hnone⟩
  rw [bind_of_ok heq]
  have hfree' := h.free a k m' hm'
  have hunhang := h.unhang hm' (f := fun bafh =>
    { bafh with
      afFrelst := bafh.afFrelst.erase m'
      afFobjnr := u64Sub bafh.afFobjnr 1
      afMobjnr := u64Sub bafh.afMobjnr 1 }) (fun _ => rfl) rfl rfl rfl
  have hsame := same_setBafh s (a := a) (k := k) (fun bafh =>
    { bafh with
      afFrelst := bafh.afFrelst.erase m'
      afFobjnr := u64Sub bafh.afFobjnr 1
      afMobjnr := u64Sub bafh.afMobjnr 1 }) hslot fun _ => rfl
  simp only [hoder]
  rcases hrets with rfl | rfl
  · -- the block in hand is the lower one
    obtain ⟨rfl, hphy⟩ := hside
    rw [Set.pair_comm] at hunhang
    obtain ⟨s', hjoin, hinv, hfree₁, hsame₁, hbafh⟩ := joinBlks_spec hunhang ha hk hfree hfree'
      ⟨rfl, hphy⟩ "chek_cl2molkflg err1\n"
    refine .inr ⟨m, _, s', ?_, hinv, hfree₁, hm', .inl ⟨rfl, rfl⟩, hsame.trans hsame₁, ?_, fun a' k' hne => ?_⟩
    · rw [if_pos rfl]
      exact bind_of_ok hjoin _
    · rw [hbafh, setBafh_self]
    · rw [hbafh, setBafh_of_ne _ _ hne]
  · obtain ⟨rfl, hphy⟩ := hside
    obtain ⟨s', hjoin, hinv, hfree₁, hsame₁, hbafh⟩ := joinBlks_spec hunhang ha hk hfree' hfree
      ⟨rfl, hphy⟩ "chek_cl2molkflg err2\n"
    refine .inr ⟨m', m', s', ?_, hinv, hfree₁, hm', .inr ⟨rfl, rfl⟩, hsame.trans hsame₁, ?_, fun a' k' hne => ?_⟩
    · rw [if_neg (by simp)]
      exact bind_of_ok hjoin _
    · rw [hbafh, setBafh_self]
    · rw [hbafh, setBafh_of_ne _ _ hne]

/-! ### Merging upwards -/

theorem mpobfAddMsadsc_spec (h : Inv s {(m, pnr k)} live) (hfree : FreeBlk s.msa a k m) (hslot : SlotOk a k)
    (halone : a < 2 → k < mdivmerArrLmax - 1 → ∀ m' ∈ (s.bafh a k).afFrelst,
      ¬Adjacent s.msa m (pnr k) m' ∧ ¬Adjacent s.msa m' (pnr k) m) :
    ∃ s', mpobfAddMsadsc s a k m (m + pnr k - 1) = .ok (true, s') ∧ Inv s' ∅ live ∧ Same s s' ∧
      OnlyList s s' a k (m :: (s.bafh a k).afFrelst) := by
  have hpos := pnr_pos k
  have hcount : msaCount m (m + pnr k - 1) = pnr k := h.msaCount_used (.inl rfl)
  have hlen := h.length_lt a k
  obtain ⟨hfobj, hmobj⟩ := h.count a k hslot
  have hsame := same_markFree s a k m (m + pnr k - 1)
  -- the block is linked once more, as it is already
  have hwrite : Inv (s.markFree a k m (m + pnr k - 1)) (insert (m, pnr k) ∅) live := by
    rw [insert_empty_eq]
    refine h.write (b := (m, pnr k)) rfl hsame rfl fun i hi => ?_
    refine markFree_of_ne s ?_ ?_ <;> rintro rfl <;> simp at hi <;> omega
  have hhang := hwrite.hang (by simp) hslot (freeBlk_markFree hfree.toRegion hfree.idle hfree.inner)
    (fun ha hk m' hm' => by
      rw [hsame.adjacent_iff, hsame.adjacent_iff]
      exact halone ha hk m' hm')
    (f := fun bafh =>
      { bafh with
        afFrelst := m :: bafh.afFrelst
        afFobjnr := u64 (bafh.afFobjnr + 1)
        afMobjnr := u64 (bafh.afMobjnr + 1) }) (fun _ => rfl) rfl rfl rfl
  refine ⟨_, ?_, hhang, hsame.trans (same_setBafh _ _ hslot fun _ => rfl), ?_, fun a' k' hne => setBafh_of_ne _ _ hne⟩
  · unfold mpobfAddMsadsc
    rw [if_neg (by omega), if_neg (by rw [h.oder a k hslot, hcount]; simp), if_neg (by omega)]
    rfl
  · rw [setBafh_self]
    rfl

/-- The loop ended with a free block in hand that has no neighbour on its list, or at the last order. -/
structure Merged (s s' : Memmgrob) (live : Set Blk) (a k m k' m' : Nat) : Prop where
  inv : Inv s' {(m', pnr k')} live
  free : FreeBlk s'.msa a k' m'
  le : k ≤ k'
  lt : k' < mdivmerArrLmax
  alone : k' < mdivmerArrLmax - 1 → ∀ x ∈ (s'.bafh a k').afFrelst,
    ¬Adjacent s'.msa m' (pnr k') x ∧ ¬Adjacent s'.msa x (pnr k') m'
  same : Same s s'
  inside : m' ≤ m ∧ m + pnr k ≤ m' + pnr k'
  outside : ∀ a' x, ¬(a' = a ∧ k ≤ x ∧ x < k') → s'.bafh a' x = s.bafh a' x
  fewer : ∀ x, (s'.bafh a x).afFrelst.Sublist (s.bafh a x).afFrelst

theorem merLoop_spec (ha : a < 2) (c : Nat) : ∀ k m s, k + c = mdivmerArrLmax - 1 → Inv s {(m, pnr k)} live →
    FreeBlk s.msa a k m → ∃ k' m' s', merLoop a c k m (m + pnr k - 1) s = .ok ((k', m', m' + pnr k' - 1), s') ∧
      Merged s s' live a k m k' m' := by
  induction c with
  | zero =>
    intro k m s hk h hfree
    have hk51 : k = mdivmerArrLmax - 1 := by omega
    exact ⟨k, m, s, rfl, h, hfree, le_rfl, by subst hk51; decide, fun hlt => by omega, .refl s, ⟨le_rfl, le_rfl⟩,
      fun _ _ _ => rfl, fun _ => .refl _⟩
  | succ c ih =>
    intro k m s hk h hfree
    have hk52 : k + 1 < mdivmerArrLmax := by omega
    rcases mmFindCmsa2blk_spec h hfree ha hk52 with ⟨heq, hnone⟩ | ⟨m₁, m', s₁, heq, hinv₁, hfree₁, hjoined⟩
    · refine ⟨k, m, s, ?_, h, hfree, le_rfl, by omega, fun _ => hnone, .refl s, ⟨le_rfl, le_rfl⟩, fun _ _ _ => rfl,
        fun _ => .refl _⟩
      rw [merLoop, bind_of_ok heq]
    · obtain ⟨k', m₂, s₂, heq₂, hm⟩ := ih (k + 1) m₁ s₁ (by omega) hinv₁ hfree₁
      have hsucc := pnr_succ hk52
      have hle := hm.le
      refine ⟨k', m₂, s₂, ?_, hm.inv, hm.free, by omega, hm.lt, hm.alone, hjoined.same.trans hm.same, ?_,
        fun a' x hout => ?_, fun x => ?_⟩
      · rw [merLoop, bind_of_ok heq]
        exact heq₂
      · have := hm.inside
        rcases hjoined.side with ⟨h1, -⟩ | ⟨h1, h2⟩ <;> omega
      · rw [hm.outside a' x (by omega), hjoined.lists.other a' x (by omega)]
      · refine (hm.fewer x).trans ?_
        by_cases hx : x = k
        · subst hx
          rw [hjoined.lists.self]
          exact List.erase_sublist
        · rw [hjoined.lists.other a x (by omega)]

/-! ### The call -/

theorem Inv.countFree (h : Inv s hand live) (a n : Nat) : Inv (countFree s a n) hand live :=
  h.recount rfl rfl rfl (mmUpdateMemarea_maType s a n false) rfl

/-- A block of `n` pages of area `a` came back: on a list of that area, joined or not. -/
structure Freed (s s' : Memmgrob) (live : Set Blk) (a m n : Nat) : Prop where
  inv : Inv s' ∅ live
  counted : ∃ s₁, Same s s₁ ∧ s' = countFree s₁ a n
  other : ∀ a' ≠ a, ∀ k, s'.bafh a' k = s.bafh a' k

theorem onfpgsRetnBafhlst_eq (h : Inv s hand live) (ha : a < 2) (hk : k < mdivmerArrLmax) :
    onfpgsRetnBafhlst s a (pnr k) = .ok (some k) := by
  have hpos := pnr_pos k
  have hslot := SlotOk.of_lt ha hk
  have hlen := h.length_lt a k
  have hdiv : retnDivoder (pnr k) = (k : Int) := by
    rw [retnDivoder_eq hpos, pnr_of_lt hk, Nat.clog_pow _ _ (by omega)]
  obtain ⟨hfobj, hmobj⟩ := h.count a k hslot
  simp only [onfpgsRetnBafhlst, hdiv, Int.toNat_natCast, Int.ofNat_le]
  rw [if_neg (by omega), if_neg (by omega), if_neg (by omega), if_neg (by omega), h.oder a k hslot, if_neg (by simp)]

theorem mmMerpagesOnmarea_of_lt {s₁ s₂ : Memmgrob} (h : Inv s hand live) (ha : a < 2) (hk : k < mdivmerArrLmax)
    (hop : mmMerpagesOpmsadsc s a k m (pnr k) = .ok (.freed, s₁))
    (hon : mmMerpagesOnbafhlst s₁ a k m (pnr k) = .ok (true, s₂)) :
    mmMerpagesOnmarea s a m (pnr k) = .ok (true, countFree s₂ a (pnr k)) := by
  have hpos := pnr_pos k
  have htype := h.type a (by unfold memareaMax; omega)
  unfold mmMerpagesOnmarea
  rw [if_neg (by omega), if_neg (by rw [htype]; unfold maTypeProc; omega), bind_of_ok (onfpgsRetnBafhlst_eq h ha hk)]
  simp only
  rw [bind_of_ok hop]
  simp only
  rw [bind_of_ok hon]
  rfl

theorem mmMerpagesOnmarea_proc {s₁ s₂ : Memmgrob} (h : Inv s hand live)
    (hop : mmMerpagesOpmsadsc s 2 onemsalst m (pnr onemsalst) = .ok (.freed, s₁))
    (hadd : mpobfAddMsadsc s₁ 2 onemsalst m (m + pnr onemsalst - 1) = .ok (true, s₂)) :
    mmMerpagesOnmarea s 2 m (pnr onemsalst) = .ok (true, countFree s₂ 2 (pnr onemsalst)) := by
  have hpos := pnr_pos onemsalst
  have htype : (s.marea 2).maType = maTypeProc := h.type 2 (by decide)
  unfold mmMerpagesOnmarea
  rw [if_neg (by omega), if_pos htype, bind_of_ok hop]
  simp only
  rw [bind_of_ok hadd]
  rfl

theorem mmMerpagesOnmarea_spec (h : Inv s ∅ (insert (m, pnr k) live)) (hb : (m, pnr k) ∉ live)
    (hlive : LiveBlk s.msa a m (pnr k)) (hslot : SlotOk a k) :
    ∃ s', mmMerpagesOnmarea s a m (pnr k) = .ok (true, s') ∧ Freed s s' live a m (pnr k) := by
  obtain ⟨s₁, hop, hinv₁, hfree₁, hsame₁, hbafh₁⟩ := mmMerpagesOpmsadsc_spec h hb hlive hslot
  rw [insert_empty_eq] at hinv₁
  rcases id hslot with ⟨ha, hk⟩ | ⟨rfl, rfl⟩
  · obtain ⟨k', m', s₂, hloop, hm⟩ := merLoop_spec ha (mdivmerArrLmax - 1 - k) k m s₁ (by omega) hinv₁ hfree₁
    obtain ⟨s₃, hadd, hinv₃, hsame₃, hlist₃⟩ := mpobfAddMsadsc_spec hm.inv hm.free (.of_lt ha hm.lt)
      fun _ hk' => hm.alone hk'
    have hon : mmMerpagesOnbafhlst s₁ a k m (pnr k) = .ok (true, s₃) := by
      unfold mmMerpagesOnbafhlst
      rw [bind_of_ok hloop]
      exact hadd
    refine ⟨_, mmMerpagesOnmarea_of_lt h ha hk hop hon, hinv₃.countFree a _,
      ⟨s₃, hsame₁.trans (hm.same.trans hsame₃), rfl⟩, fun a' hne x => ?_⟩
    show s₃.bafh a' x = _
    rw [hlist₃.other a' x (by omega), hm.outside a' x (by omega), hbafh₁]
  · obtain ⟨s₃, hadd, hinv₃, hsame₃, hlist₃⟩ := mpobfAddMsadsc_spec hinv₁ hfree₁ hslot fun ha2 => absurd ha2 (by omega)
    refine ⟨_, mmMerpagesOnmarea_proc h hop hadd, hinv₃.countFree 2 _, ⟨s₃, hsame₁.trans hsame₃, rfl⟩,
      fun a' hne x => ?_⟩
    show s₃.bafh a' x = _
    rw [hlist₃.other a' x (by omega), hbafh₁]

theorem mmMergePages_eq (h : Inv s ∅ (insert (m, pnr k) live)) (hlive : LiveBlk s.msa a m (pnr k))
    (hslot : SlotOk a k) :
    mmMergePages s m (pnr k) = mmMerpagesOnmarea s a m (pnr k) := by
  have hpos := pnr_pos k
  have hcount : msaCount m (m + pnr k - 1) = pnr k := h.msaCount_used (.inr (Set.mem_insert _ _))
  obtain ⟨holk, hlink, huindx, halloc⟩ := hlive.first
  obtain ⟨huindx', halloc', -⟩ := hlive.last
  have hmarty := hlive.marty m le_rfl (by omega)
  have hmarty' := hlive.marty (m + pnr k - 1) (by omega) (by omega)
  have hmarea : onmrtypeRetnMarea s (a + 1) = some a := by
    rcases onmrtypeRetnMarea_spec h (a + 1) with ⟨-, hbad⟩ | ⟨a', hsome, -, heq⟩
    · have := hslot.lt
      exact absurd ⟨by omega, by unfold memareaMax; omega⟩ hbad
    · rw [hsome, show a' = a by omega]
  have hretn : onfrmsaRetnMarea s m (pnr k) = .ok (some a) := by
    simp only [onfrmsaRetnMarea, holk, hlink, Odlink.toMsa, ok_bind, hcount, hmarty, hmarty', hmarea]
    simp
  have hscan : scanFreemsaIsok s m (pnr k) = .ok true := by
    simp only [scanFreemsaIsok, holk, hlink, Odlink.toMsa, ok_bind, hcount, huindx, halloc, huindx', halloc']
    rw [if_neg (by omega)]
    simp
  unfold mmMergePages
  rw [if_neg (by omega), bind_of_ok hretn]
  simp only [mmMerpagesCore]
  rw [if_neg (by omega), bind_of_ok hscan]
  rfl

/-- **`mm_merge_pages`** takes back a live block. -/
theorem mmMergePages_freed (h : Inv s ∅ (insert (m, n) live)) (hb : (m, n) ∉ live) :
    ∃ s' a, mmMergePages s m n = .ok (true, s') ∧ LiveBlk s.msa a m n ∧ Freed s s' live a m n := by
  obtain ⟨a, k, hslot, hn, hlive⟩ := h.live (m, n) (Set.mem_insert _ _)
  simp only at hn hlive
  subst hn
  obtain ⟨s', heq, hfreed⟩ := mmMerpagesOnmarea_spec h hb hlive hslot
  exact ⟨s', a, (mmMergePages_eq h hlive hslot).trans heq, hlive, hfreed⟩

theorem Inv.oder_cases (h : Inv s ∅ live) {i : Nat} (hi : i < s.moMsanr) (holk : (s.msa i).mfOlkty = .oder) :
    (∃ a k, i ∈ (s.bafh a k).afFrelst) ∨ ∃ n, (i, n) ∈ live := by
  have hpage : i ∈ pages s := ⟨hi, fun hkrnl => by rw [(h.krnl i hi hkrnl).1] at holk; simp at holk⟩
  obtain ⟨o, ho, hio⟩ := (h.tile.cover i).mp hpage
  cases o with
  | free a k m =>
    obtain ⟨hlo, hhi⟩ := hio
    have hfree := h.free a k m ho
    by_cases him : i = m
    · exact .inl ⟨a, k, him ▸ ho⟩
    · by_cases hie : i = m + pnr k - 1
      · rw [hie, hfree.last.1] at holk
        simp at holk
      · rw [(hfree.inner i (by omega) (by omega)).1] at holk
        simp at holk
  | used m n =>
    obtain ⟨hlo, hhi⟩ := hio
    rw [mem_blocks_used, Set.empty_union] at ho
    obtain ⟨a, k, -, -, hlive⟩ := h.live (m, n) ho
    simp only at hlive
    by_cases him : i = m
    · exact .inr ⟨n, him ▸ ho⟩
    · by_cases hie : i = m + n - 1
      · exact absurd (hie ▸ holk) (hlive.last.2.2 (by omega))
      · rw [(hlive.inner i (by omega) (by omega)).1] at holk
        simp at holk

/-- **`mm_merge_pages`** refuses, without a change, what is not a live block. -/
theorem mmMergePages_refused (h : Inv s ∅ live) (hm : m < s.moMsanr) (hb : (m, n) ∉ live) :
    mmMergePages s m n = .ok (false, s) := by
  unfold mmMergePages
  by_cases hn : n < 1
  · exact if_pos hn
  rw [if_neg hn]
  by_cases holk : (s.msa m).mfOlkty = .oder
  case neg =>
    have hretn : onfrmsaRetnMarea s m n = .ok none := if_pos holk
    rw [bind_of_ok hretn]
  rcases h.oder_cases hm holk with ⟨a, k, hfrelst⟩ | ⟨n', hlive'⟩
  · -- the first descriptor of a free block: the pages are not allocated
    have hpos := pnr_pos k
    have hfree := h.free a k m hfrelst
    have h1 : 1 < pnr k := by
      by_contra h1
      have hlast := hfree.last.1
      rw [show m + pnr k - 1 = m by omega, holk] at hlast
      simp at hlast
    have hlink := (hfree.first h1).2
    have hidle := hfree.idle m le_rfl (by omega)
    have hscan : scanFreemsaIsok s m n = .ok false := by
      simp [scanFreemsaIsok, hidle.1]
    have hretn : ∃ r, onfrmsaRetnMarea s m n = .ok r := by
      simp only [onfrmsaRetnMarea, holk, hlink, Odlink.toMsa, ok_bind]
      split_ifs <;> exact ⟨_, rfl⟩
    obtain ⟨r, hretn⟩ := hretn
    rw [bind_of_ok hretn]
    cases r with
    | none => rfl
    | some a' =>
      simp only [mmMerpagesCore]
      rw [if_neg hn, bind_of_ok hscan]
      rfl
  · -- the first descriptor of a live block of another size
    obtain ⟨a, k, -, hk, hlive⟩ := h.live (m, n') hlive'
    simp only at hk hlive
    have hpos := h.used_pos (.inr hlive')
    simp only at hpos
    have hlt := (h.lt_of_used (.inr hlive') (i := m + n' - 1) (show m ≤ _ by omega) (show _ < m + n' by omega)).1
    have hcount : msaCount m (m + n' - 1) = n' := by
      rw [msaCount_eq (by omega) (lt_trans hlt h.small)]
      omega
    have hne : n' ≠ n := fun heq => hb (heq ▸ hlive')
    have hretn : onfrmsaRetnMarea s m n = .ok none := by
      simp only [onfrmsaRetnMarea, holk, hlive.first.2.1, Odlink.toMsa, ok_bind, hcount]
      rw [if_neg (by simp), if_pos hne]
    rw [bind_of_ok hretn]

end Cosmos.Page
