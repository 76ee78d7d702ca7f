import Cosmos.Space.Owned

/-!
# User frames and the lists of the page boxes

A user frame is taken from the page allocator and hung on a box by `vma_new_usermsa`, and given back through a box
by `vma_del_usermsa`. The lists of the boxes in use hold user frames, each at most once (`Lists`). The page fault
and the unmapping of a page are said by what they change: the translation of one page and the list of one box.
-/

namespace Cosmos.Space

open Cosmos.Lib Halt Cosmos.Page Cosmos.Mmu Function

variable {A : PageAlloc} {L : Lawful A} {s s' t : Sys A} {frames : List Nat} {rest : List Blk} {i v b : Nat}

/-- The pages of the boxes in use are user frames, each on one list, and the lists are counted. -/
structure Lists (s : Sys A) (frames : List Nat) : Prop where
  listed : ∀ b ∈ s.mgr.kbmKmbhead, ∀ msa ∈ s.list b, msa ∈ frames
  apart : ∀ b ∈ s.mgr.kbmKmbhead, ∀ b' ∈ s.mgr.kbmKmbhead, ∀ msa, msa ∈ s.list b → msa ∈ s.list b' → b = b'
  nodup : ∀ b ∈ s.mgr.kbmKmbhead, (s.list b).Nodup
  msanr : ∀ b ∈ s.mgr.kbmKmbhead, (s.box b).kmbMsanr = (s.list b).length

/-- Only tables, memory, user frames and the lists of boxes change. -/
structure Quiet (s t : Sys A) : Prop where
  vma : t.vma = s.vma
  thread : ∀ i, (t.mm i).msdThread = (s.mm i).msdThread
  mmnr : t.mmnr = s.mmnr
  mgr : t.mgr = s.mgr
  cont : ∀ b, (t.box b).kmbCont = (s.box b).kmbCont
  addr : t.addr = s.addr

namespace Quiet

theorem refl (s : Sys A) : Quiet s s := ⟨rfl, fun _ => rfl, rfl, rfl, fun _ => rfl, rfl⟩

theorem trans (h : Quiet s s') (h' : Quiet s' t) : Quiet s t where
  vma := h'.vma.trans h.vma
  thread := fun i => (h'.thread i).trans (h.thread i)
  mmnr := h'.mmnr.trans h.mmnr
  mgr := h'.mgr.trans h.mgr
  cont := fun b => (h'.cont b).trans (h.cont b)
  addr := h'.addr.trans h.addr

theorem setSt {st' : St A} (haddr : (s.setSt i st').addr = s.addr) : Quiet s (s.setSt i st') := by
  refine ⟨?_, fun j => ?_, rfl, rfl, fun _ => rfl, haddr⟩
  · funext j
    by_cases hj : j = i
    · subst hj
      simp only [Sys.vma, Sys.setSt, update_self]
    · simp only [Sys.vma, Sys.setSt, update_of_ne hj]
  · by_cases hj : j = i
    · subst hj
      simp only [Sys.setSt, update_self]
    · simp only [Sys.setSt, update_of_ne hj]

end Quiet

theorem Lists.congr (h : Lists s frames) (hhead : ∀ b ∈ t.mgr.kbmKmbhead, b ∈ s.mgr.kbmKmbhead)
    (hlist : ∀ b, t.list b = s.list b) (hnr : ∀ b, (t.box b).kmbMsanr = (s.box b).kmbMsanr) : Lists t frames := by
  refine ⟨fun b hb => ?_, fun b hb b' hb' => ?_, fun b hb => ?_, fun b hb => ?_⟩
  · rw [hlist]
    exact h.listed b (hhead b hb)
  · rw [hlist, hlist]
    exact h.apart b (hhead b hb) b' (hhead b' hb')
  · rw [hlist]
    exact h.nodup b (hhead b hb)
  · rw [hlist, hnr]
    exact h.msanr b (hhead b hb)

theorem Lists.setSt {st' : St A} (h : Lists s frames) : Lists (s.setSt i st') frames :=
  h.congr (fun _ hb => hb) (fun _ => rfl) fun _ => rfl

/-! ### Changes of one list -/

section SetList

variable {alc : A.State} {l frames' : List Nat} {n : Nat}

def Sys.setList (s : Sys A) (alc : A.State) (b : Nat) (l : List Nat) (n : Nat) : Sys A :=
  ({ s with alc := alc } : Sys A).setBox b { s.box b with kmbMsalist := l, kmbMsanr := n }

theorem Sys.list_setList (b' : Nat) : (s.setList alc b l n).list b' = if b' = b then l else s.list b' := by
  by_cases hb : b' = b
  · subst hb
    simp only [Sys.list, setList, setBox, update_self, if_true]
  · simp only [Sys.list, setList, setBox, update_of_ne hb, if_neg hb]

theorem quiet_setList (haddr : A.msadscRetAddr alc = s.addr) : Quiet s (s.setList alc b l n) := by
  refine ⟨rfl, fun _ => rfl, rfl, rfl, fun b' => ?_, haddr⟩
  by_cases hb : b' = b
  · subst hb
    simp only [Sys.setList, Sys.setBox, update_self]
  · simp only [Sys.setList, Sys.setBox, update_of_ne hb]

theorem Lists.setList (h : Lists s frames) (hl : l.Nodup) (hn : n = l.length) (hmem : ∀ msa ∈ l, msa ∈ frames')
    (hother : ∀ b' ∈ s.mgr.kbmKmbhead, b' ≠ b → ∀ msa ∈ s.list b', msa ∈ frames' ∧ msa ∉ l) :
    Lists (s.setList alc b l n) frames' := by
  have hnr : ∀ b', ((s.setList alc b l n).box b').kmbMsanr = if b' = b then n else (s.box b').kmbMsanr := by
    intro b'
    by_cases hb : b' = b
    · subst hb
      simp only [Sys.setList, Sys.setBox, update_self, if_true]
    · simp only [Sys.setList, Sys.setBox, update_of_ne hb, if_neg hb]
  refine ⟨fun b' hb' msa hmsa => ?_, fun b₁ hb₁ b₂ hb₂ msa h₁ h₂ => ?_, fun b' hb' => ?_, fun b' hb' => ?_⟩
  · rw [Sys.list_setList] at hmsa
    by_cases hb : b' = b
    · rw [if_pos hb] at hmsa
      exact hmem msa hmsa
    · rw [if_neg hb] at hmsa
      exact (hother b' hb' hb msa hmsa).1
  · rw [Sys.list_setList] at h₁ h₂
    by_cases he₁ : b₁ = b
    · by_cases he₂ : b₂ = b
      · rw [he₁, he₂]
      · rw [if_pos he₁] at h₁
        rw [if_neg he₂] at h₂
        exact absurd h₁ (hother b₂ hb₂ he₂ msa h₂).2
    · rw [if_neg he₁] at h₁
      by_cases he₂ : b₂ = b
      · rw [if_pos he₂] at h₂
        exact absurd h₂ (hother b₁ hb₁ he₁ msa h₁).2
      · rw [if_neg he₂] at h₂
        exact h.apart b₁ hb₁ b₂ hb₂ msa h₁ h₂
  · rw [Sys.list_setList]
    by_cases hb : b' = b
    · rw [if_pos hb]
      exact hl
    · rw [if_neg hb]
      exact h.nodup b' hb'
  · rw [hnr, Sys.list_setList]
    by_cases hb : b' = b
    · rw [if_pos hb, if_pos hb]
      exact hn
    · rw [if_neg hb, if_neg hb]
      exact h.msanr b' hb'

end SetList

/-! ### `vma_new_usermsa` and `vma_del_usermsa` -/

theorem Owned.length_le (h : Owned L s frames rest) {l : List Nat} (hl : l.Nodup) (hsub : ∀ msa ∈ l, msa ∈ frames) :
    l.length ≤ 2 ^ 40 := by
  refine (hl.subperm hsub).length_le.trans (le_trans ?_ (L.length_le h.live))
  simp only [Sys.blocks, List.length_append, List.length_map]
  omega

def Sys.hung (s : Sys A) (alc : A.State) (b msa : Nat) : Sys A :=
  s.setList alc b (msa :: s.list b) (u64 ((s.box b).kmbMsanr + 1))

theorem vmaNewUsermsa_spec (h : Owned L s frames rest) (hl : Lists s frames) (hb : b ∈ s.mgr.kbmKmbhead) :
    (∃ alc, vmaNewUsermsa s b = .ok (none, { s with alc := alc }) ∧ A.msadscRetAddr alc = s.addr ∧
      L.Inv alc (s.blocks frames rest)) ∨
    (∃ msa alc, vmaNewUsermsa s b = .ok (some msa, s.hung alc b msa) ∧ A.msadscRetAddr alc = s.addr ∧
      L.Inv alc ((msa, 1) :: s.blocks frames rest) ∧ msa ∉ frames ∧ Owned L (s.hung alc b msa) (msa :: frames) rest ∧
      Lists (s.hung alc b msa) (msa :: frames) ∧
      ∀ j < s.mmnr, ∀ w < 2 ^ 47, (s.hung alc b msa).look j w = s.look j w) := by
  obtain ⟨r, alc, hdiv, haddr, hgrant⟩ := L.procmarea 1 h.live le_rfl
  change _ = s.addr at haddr
  unfold vmaNewUsermsa
  rw [hdiv, ok_bind]
  cases r with
  | none => exact .inl ⟨alc, rfl, haddr, hgrant⟩
  | some blk =>
    obtain ⟨msa, n⟩ := blk
    obtain ⟨hn, -, hinv⟩ := hgrant
    obtain rfl : n = 1 := hn
    have hfresh : msa ∉ frames := fun hmem =>
      (List.nodup_cons.mp (L.nodup hinv)).1 (Sys.mem_blocks_of_frame hmem)
    have hlive : L.Inv alc (s.blocks (msa :: frames) rest) := L.perm hinv (s.blocks_cons msa frames rest).symm
    have hlen := h.length_le (hl.nodup b hb) (hl.listed b hb)
    obtain ⟨howned, hlook⟩ := h.env (t := s.hung alc b msa) rfl (fun _ => rfl) haddr hlive fun _ _ _ _ => rfl
    refine .inr ⟨msa, alc, rfl, haddr, hinv, hfresh, howned, ?_, hlook⟩
    refine hl.setList ?_ ?_ ?_ fun b' hb' hne m hm => ⟨List.mem_cons_of_mem _ (hl.listed b' hb' m hm), fun hmem => ?_⟩
    · exact List.nodup_cons.mpr ⟨fun hmem => hfresh (hl.listed b hb _ hmem), hl.nodup b hb⟩
    · rw [hl.msanr b hb, u64_of_lt (by omega), List.length_cons]
    · intro m hm
      rcases List.mem_cons.mp hm with rfl | hm
      · exact List.mem_cons_self
      · exact List.mem_cons_of_mem _ (hl.listed b hb m hm)
    · rcases List.mem_cons.mp hmem with rfl | hmem
      · exact hfresh (hl.listed b' hb' _ hm)
      · exact hne (hl.apart b' hb' b hb m hm hmem)

/-- What giving back the page at `p` through box `b` leaves. -/
structure Freed (L : Lawful A) (rest : List Blk) (frames : List Nat) (b p : Nat) (s t : Sys A) (frames' : List Nat) :
    Prop where
  owned : Owned L t frames' rest
  lists : Lists t frames'
  quiet : Quiet s t
  mm : t.mm = s.mm
  mem : t.mem = s.mem
  look : ∀ j < s.mmnr, ∀ w < 2 ^ 47, t.look j w = s.look j w
  box : ∀ b' ≠ b, t.box b' = s.box b'
  list : t.list b = (s.list b).filter fun msa => decide (s.addr msa ≠ p)
  frames : ∀ msa, msa ∈ frames' ↔ msa ∈ frames ∧ ¬(msa ∈ s.list b ∧ s.addr msa = p)

/-- **Giving a page back** through a box. -/
theorem vmaDelUsermsa_spec (h : Owned L s frames rest) (hl : Lists s frames) (hb : b ∈ s.mgr.kbmKmbhead)
    (msa : Option Nat) (hmsa : ∀ m ∈ msa, m ∈ s.list b) {p : Nat} (hp : p ≠ 0) :
    ∃ rets t frames', vmaDelUsermsa s b msa p = .ok (rets, t) ∧ Freed L rest frames b p s t frames' := by
  unfold vmaDelUsermsa
  rw [if_neg hp]
  simp only
  cases hfind : (msa.filter fun m => decide (A.msadscRetAddr s.alc m = p)).or
      ((s.box b).kmbMsalist.find? fun m => decide (A.msadscRetAddr s.alc m = p)) with
  | none =>
    have hnone : ∀ m ∈ s.list b, s.addr m ≠ p := fun m hm heq =>
      List.find?_eq_none.mp (Option.or_eq_none_iff.mp hfind).2 m hm (decide_eq_true heq)
    refine ⟨false, s, frames, rfl, h, hl, .refl s, rfl, rfl, fun _ _ _ _ => rfl, fun _ _ => rfl, ?_, fun m => ?_⟩
    · exact (List.filter_eq_self.mpr fun m hm => decide_eq_true (hnone m hm)).symm
    · constructor
      · exact fun hm => ⟨hm, fun hand => hnone m hand.1 hand.2⟩
      · exact fun hand => hand.1
  | some delmsa =>
    obtain ⟨hdel, heqp⟩ : delmsa ∈ s.list b ∧ s.addr delmsa = p := by
      rcases Option.or_eq_some_iff.mp hfind with hsome | ⟨-, hlist⟩
      · obtain ⟨hmem, heq⟩ := Option.filter_eq_some_iff.mp hsome
        exact ⟨hmsa delmsa hmem, of_decide_eq_true heq⟩
      · have hdec := List.find?_some hlist
        exact ⟨List.mem_of_find?_eq_some hlist, of_decide_eq_true hdec⟩
    have huniq : ∀ m ∈ s.list b, s.addr m = p ↔ m = delmsa := by
      intro m hm
      constructor
      · exact fun heq => h.addr_inj (hl.listed b hb m hm) (hl.listed b hb delmsa hdel) (heq.trans heqp.symm)
      · rintro rfl
        exact heqp
    have hmemf := hl.listed b hb delmsa hdel
    obtain ⟨alc, hmerge, haddr, hinv⟩ := L.merge (L.perm h.live (s.blocks_erase rest hmemf))
    have hnr := L.fpagenr h.live _ (Sys.mem_blocks_of_frame hmemf)
    have hlen := h.length_le (hl.nodup b hb) (hl.listed b hb)
    have hpos := List.length_pos_of_mem hdel
    obtain ⟨howned, hlook⟩ := h.env
      (t := s.setList alc b ((s.list b).erase delmsa) (u64Sub (s.box b).kmbMsanr 1))
      rfl (fun _ => rfl) haddr hinv fun _ _ _ _ => rfl
    refine ⟨true, s.setList alc b ((s.list b).erase delmsa) (u64Sub (s.box b).kmbMsanr 1), frames.erase delmsa, ?_,
      howned, ?_, quiet_setList haddr, rfl, rfl, hlook, fun b' hne => update_of_ne hne _ _, ?_, fun m => ?_⟩
    · have hmerge' : A.mmMergePages s.alc delmsa (A.onfrmsaRetnFpagenr s.alc delmsa) = .ok (true, alc) := by
        rw [hnr]
        exact hmerge
      simp only [Sys.setBox, hmerge', ok_bind, if_true]
      rfl
    · refine hl.setList ((hl.nodup b hb).erase _) ?_ ?_ fun b' hb' hne m hm => ⟨?_, fun hmem => ?_⟩
      · rw [hl.msanr b hb, List.length_erase_of_mem hdel, u64Sub_of_le (by omega) (by omega)]
      · intro m hm
        obtain ⟨hne, hm⟩ := (hl.nodup b hb).mem_erase_iff.mp hm
        exact (List.mem_erase_of_ne hne).mpr (hl.listed b hb m hm)
      · refine (List.mem_erase_of_ne ?_).mpr (hl.listed b' hb' m hm)
        rintro rfl
        exact hne (hl.apart b' hb' b hb m hm hdel)
      · exact hne (hl.apart b' hb' b hb m hm (List.mem_of_mem_erase hmem))
    · rw [Sys.list_setList, if_pos rfl, (hl.nodup b hb).erase_eq_filter]
      refine List.filter_congr fun m hm => ?_
      simp only [ne_eq, huniq m hm, bne, decide_not]
      rfl
    · rw [h.frames_nodup.mem_erase_iff]
      constructor
      · exact fun hand => ⟨hand.2, fun hp' => hand.1 ((huniq m hp'.1).mp hp'.2)⟩
      · rintro ⟨hm, hnot⟩
        refine ⟨?_, hm⟩
        rintro rfl
        exact hnot ⟨hdel, heqp⟩

/-! ### Unmapping a page -/

/-- What unmapping the page of `v` in space `i` leaves, when the frame is given back through `kmbox`. -/
structure Unmaps (L : Lawful A) (rest : List Blk) (frames : List Nat) (i : Nat) (kmbox : Option Nat) (v : Nat)
    (s t : Sys A) (frames' : List Nat) : Prop where
  owned : Owned L t frames' rest
  lists : Lists t frames'
  quiet : Quiet s t
  look : ∀ j < s.mmnr, ∀ w < 2 ^ 47, t.look j w = if j = i ∧ w / 0x1000 = v / 0x1000 then 0 else s.look j w
  list : ∀ b msa, msa ∈ t.list b ↔ msa ∈ s.list b ∧ ¬(kmbox = some b ∧ s.addr msa = bits 40 (s.look i v))
  frames : ∀ msa, msa ∈ frames' ↔ msa ∈ frames ∧
    ¬∃ b, kmbox = some b ∧ msa ∈ s.list b ∧ s.addr msa = bits 40 (s.look i v)

theorem Owned.addr_pos (h : Owned L s frames rest) {msa : Nat} (hmsa : msa ∈ frames) : 0 < s.addr msa :=
  (h.mapArgs hmsa).pos

/-- **One round of the loop** that unmaps a range. -/
theorem unmapPage_spec (h : Owned L s frames rest) (hl : Lists s frames) (hi : i < s.mmnr) (hv : v < 2 ^ 47)
    {kmbox : Option Nat} (hb : ∀ b ∈ kmbox, b ∈ s.mgr.kbmKmbhead) :
    ∃ t frames', unmapPage s i kmbox v = .ok t ∧ Unmaps L rest frames i kmbox v s t frames' := by
  obtain ⟨st', heq, howned, haddr, hlook⟩ := h.unmap hi hv
  have hl' : Lists (s.setSt i st') frames := hl.setSt
  have hquiet : Quiet s (s.setSt i st') := .setSt haddr
  unfold unmapPage
  rw [bind_of_ok heq]
  cases kmbox with
  | none =>
    refine ⟨_, frames, rfl, howned, hl', hquiet, hlook, fun b m => ?_, fun m => ?_⟩
    · exact ⟨fun hm => ⟨hm, fun hand => by cases hand.1⟩, fun hand => hand.1⟩
    · exact ⟨fun hm => ⟨hm, fun hand => by obtain ⟨_, hnone, -⟩ := hand; cases hnone⟩, fun hand => hand.1⟩
  | some kmbox =>
    have hbox := hb kmbox rfl
    simp only
    by_cases h0 : bits 40 (s.look i v) = 0
    · rw [if_pos h0]
      have hne : ∀ m ∈ s.list kmbox, s.addr m ≠ bits 40 (s.look i v) := by
        intro m hm
        rw [h0]
        exact (h.addr_pos (hl.listed kmbox hbox m hm)).ne'
      refine ⟨_, frames, rfl, howned, hl', hquiet, hlook, fun b m => ?_, fun m => ?_⟩
      · refine ⟨fun hm => ⟨hm, fun hand => ?_⟩, fun hand => hand.1⟩
        obtain rfl := Option.some.inj hand.1
        exact hne m hm hand.2
      · refine ⟨fun hm => ⟨hm, fun ⟨b, hsome, hmem, heq⟩ => ?_⟩, fun hand => hand.1⟩
        obtain rfl := Option.some.inj hsome
        exact hne m hmem heq
    · rw [if_neg h0]
      obtain ⟨rets, t, frames', hdel, hfreed⟩ := vmaDelUsermsa_spec howned hl' (b := kmbox) hbox none (by simp) h0
      refine ⟨t, frames', ?_, hfreed.owned, hfreed.lists, hquiet.trans hfreed.quiet, fun j hj w hw => ?_,
        fun b m => ?_, fun m => ?_⟩
      · exact bind_of_ok hdel _
      · rw [hfreed.look j hj w hw, hlook j hj w hw]
      · by_cases hbb : b = kmbox
        · subst hbb
          rw [hfreed.list, List.mem_filter, haddr]
          simp only [decide_eq_true_eq, true_and]
          rfl
        · have hsame : t.list b = s.list b := congrArg Kvmemcbox.kmbMsalist (hfreed.box b hbb)
          rw [hsame]
          exact ⟨fun hm => ⟨hm, fun hand => hbb (Option.some.inj hand.1).symm⟩, fun hand => hand.1⟩
      · rw [hfreed.frames, haddr]
        refine and_congr_right fun _ => not_congr ?_
        simp only [Option.some.injEq, exists_eq_left']
        rfl

/-- **The loop**: the pages of `n` rounds from `v` on are unmapped, and what one round keeps holds afterwards. -/
theorem unmapPages_spec {kmbox : Option Nat} {J : Sys A → List Nat → Prop} (n : Nat) : ∀ {v s frames},
    Owned L s frames rest → Lists s frames → i < s.mmnr → v + n * 0x1000 ≤ 2 ^ 47 →
    (∀ b ∈ kmbox, b ∈ s.mgr.kbmKmbhead) → J s frames →
    (∀ w, v ≤ w → w + 0x1000 ≤ v + n * 0x1000 → (w - v) % 0x1000 = 0 → ∀ s₁ frames₁ s₂ frames₂, s₁.mmnr = s.mmnr →
      s₁.mgr = s.mgr → Owned L s₁ frames₁ rest → Lists s₁ frames₁ → J s₁ frames₁ →
      Unmaps L rest frames₁ i kmbox w s₁ s₂ frames₂ → J s₂ frames₂) →
    ∃ t frames', unmapPages i kmbox n v s = .ok t ∧ Owned L t frames' rest ∧ Lists t frames' ∧ Quiet s t ∧
      (∀ j < s.mmnr, ∀ w < 2 ^ 47, t.look j w =
        if j = i ∧ v / 0x1000 ≤ w / 0x1000 ∧ w / 0x1000 < v / 0x1000 + n then 0 else s.look j w) ∧ J t frames' := by
  induction n with
  | zero =>
    intro v s frames h hl _ _ _ hJ _
    refine ⟨s, frames, rfl, h, hl, .refl s, fun j _ w _ => ?_, hJ⟩
    rw [if_neg (by omega)]
  | succ n ih =>
    intro v s frames h hl hi hend hb hJ hstep
    obtain ⟨s₁, frames₁, heq₁, hun⟩ := unmapPage_spec h hl hi (v := v) (by omega) hb
    have hJ₁ := hstep v le_rfl (by omega) (by omega) s frames s₁ frames₁ rfl rfl h hl hJ hun
    obtain ⟨t, frames', heq, howned, hlists, hquiet, hlook, hJ'⟩ := ih (v := v + 0x1000) hun.owned hun.lists
      (by rw [hun.quiet.mmnr]; exact hi) (by omega) (by rw [hun.quiet.mgr]; exact hb) hJ₁
      fun w hlo hhi hmod s' frames₂ t' frames₃ hnr hmgr => hstep w (by omega) (by omega) (by omega) s' frames₂
        t' frames₃
        (hnr.trans hun.quiet.mmnr) (hmgr.trans hun.quiet.mgr)
    refine ⟨t, frames', (bind_of_ok heq₁ _).trans heq, howned, hlists, hun.quiet.trans hquiet,
      fun j hj w hw => ?_, hJ'⟩
    rw [hlook j (by rw [hun.quiet.mmnr]; exact hj) w hw, hun.look j hj w hw]
    by_cases hfirst : j = i ∧ w / 0x1000 = v / 0x1000
    · rw [if_pos hfirst, if_neg (by omega), if_pos (by omega)]
    · rw [if_neg hfirst]
      by_cases hlater : j = i ∧ (v + 0x1000) / 0x1000 ≤ w / 0x1000 ∧ w / 0x1000 < (v + 0x1000) / 0x1000 + n
      · rw [if_pos hlater, if_pos (by omega)]
      · rw [if_neg hlater, if_neg (by omega)]

/-! ### Mapping a page -/

/-- What mapping the page of `v` in space `i` to the new frame `msa` of box `b` leaves. -/
structure Maps (L : Lawful A) (rest : List Blk) (frames : List Nat) (i b v msa : Nat) (s t : Sys A) : Prop where
  owned : Owned L t (msa :: frames) rest
  lists : Lists t (msa :: frames)
  quiet : Quiet s t
  fresh : msa ∉ frames
  look : ∀ j < s.mmnr, ∀ w < 2 ^ 47, t.look j w =
    if j = i ∧ w / 0x1000 = v / 0x1000 then s.addr msa else s.look j w
  box : ∀ b' ≠ b, t.box b' = s.box b'
  list : t.list b = msa :: s.list b

/-- What a page fault without memory leaves. -/
structure Refuses (L : Lawful A) (rest : List Blk) (frames : List Nat) (s t : Sys A) : Prop where
  owned : Owned L t frames rest
  quiet : Quiet s t
  mmu : ∀ j, (t.mm j).msdMmu = (s.mm j).msdMmu
  look : ∀ j < s.mmnr, ∀ w < 2 ^ 47, t.look j w = s.look j w
  box : t.box = s.box

theorem refuses_of_freed {s₁ t : Sys A} {msa : Nat} {frames' : List Nat} {alc : A.State} (hl : Lists s frames)
    (hb : b ∈ s.mgr.kbmKmbhead) (hfresh : msa ∉ frames) (howned : Owned L (s.hung alc b msa) (msa :: frames) rest)
    (hquiet : Quiet s s₁) (hbox : s₁.box = (s.hung alc b msa).box)
    (hmmu : ∀ j, (s₁.mm j).msdMmu = (s.mm j).msdMmu) (hlook : ∀ j < s.mmnr, ∀ w < 2 ^ 47, s₁.look j w = s.look j w)
    (haddr : A.msadscRetAddr alc = s.addr)
    (h : Freed L rest (msa :: frames) b (s.addr msa) s₁ t frames') : Refuses L rest frames s t := by
  have hlist₁ : s₁.list b = msa :: s.list b := by
    rw [Sys.list, hbox]
    exact (Sys.list_setList b).trans (if_pos rfl)
  have hne : ∀ m ∈ frames, s.addr m ≠ s.addr msa := by
    intro m hm heq
    have hhung : (s.hung alc b msa).addr m = (s.hung alc b msa).addr msa := by
      rw [show (s.hung alc b msa).addr = s.addr from haddr]
      exact heq
    have hsame := howned.addr_inj (List.mem_cons_of_mem _ hm) List.mem_cons_self hhung
    exact hfresh (hsame ▸ hm)
  have hlist : t.list b = s.list b := by
    rw [h.list, hlist₁, hquiet.addr, List.filter_cons_of_neg (by simp)]
    exact List.filter_eq_self.mpr fun m hm => decide_eq_true (hne m (hl.listed b hb m hm))
  have hmgr : t.mgr = s.mgr := h.quiet.mgr.trans hquiet.mgr
  have hframes : frames'.Perm frames := by
    refine (List.perm_ext_iff_of_nodup h.owned.frames_nodup (List.nodup_cons.mp howned.frames_nodup).2).mpr fun m => ?_
    rw [h.frames, hlist₁, hquiet.addr, List.mem_cons, List.mem_cons]
    constructor
    · rintro ⟨rfl | hm, hnot⟩
      · exact absurd ⟨.inl rfl, rfl⟩ hnot
      · exact hm
    · exact fun hm => ⟨.inr hm, fun hand => hne m hm hand.2⟩
  refine ⟨?_, hquiet.trans h.quiet, fun j => by rw [h.mm, hmmu], fun j hj w hw => ?_, ?_⟩
  · have hlive : L.Inv t.alc (t.blocks frames rest) := L.perm h.owned.live (t.blocks_congr rest hframes)
    exact (h.owned.env rfl (fun _ => rfl) rfl hlive fun _ _ _ _ => rfl).1
  · rw [h.look j (by rw [hquiet.mmnr]; exact hj) w hw, hlook j hj w hw]
  · funext b'
    by_cases hbb : b' = b
    · subst hbb
      refine Kvmemcbox.ext ((h.quiet.cont b').trans (hquiet.cont b')) ?_ hlist
      rw [h.lists.msanr b' (by rw [hmgr]; exact hb), hlist, hl.msanr b' hb]
    · rw [h.box b' hbb, hbox]
      exact update_of_ne hbb _ _

/-- **The page fault from the box on**: a new frame is mapped, or there is no memory and all is as before. -/
theorem vmaMapMsaFault_spec (h : Owned L s frames rest) (hl : Lists s frames) (hi : i < s.mmnr) (hv : v < 2 ^ 47)
    (hb : b ∈ s.mgr.kbmKmbhead) :
    (∃ t, vmaMapMsaFault s i b v (pml4eUs ||| pml4eRw ||| pml4eP) = .ok (0, t) ∧ Refuses L rest frames s t) ∨
    (∃ msa t, vmaMapMsaFault s i b v (pml4eUs ||| pml4eRw ||| pml4eP) = .ok (s.addr msa, t) ∧ s.addr msa ≠ 0 ∧
      Maps L rest frames i b v msa s t) := by
  unfold vmaMapMsaFault
  rcases vmaNewUsermsa_spec h hl hb with ⟨alc, heq, haddr, hinv⟩ |
    ⟨msa, alc, heq, haddr, -, hfresh, howned, hlists, hlook⟩
  · obtain ⟨howned, hlook⟩ := h.env (t := { s with alc := alc }) rfl (fun _ => rfl) haddr hinv fun _ _ _ _ => rfl
    exact .inl ⟨_, bind_of_ok heq _, howned, ⟨rfl, fun _ => rfl, rfl, rfl, fun _ => rfl, haddr⟩, fun _ => rfl, hlook,
      rfl⟩
  · have hhung : (s.hung alc b msa).addr = s.addr := haddr
    obtain ⟨rets, st', hmap, howned', haddr', hlook', hmmu⟩ := howned.map hi hv (List.mem_cons_self (a := msa))
    rw [hhung] at hmap hlook'
    have hquiet : Quiet s ((s.hung alc b msa).setSt i st') := (quiet_setList haddr).trans (.setSt haddr')
    have hpos : s.addr msa ≠ 0 := by
      rw [← hhung]
      exact (howned.addr_pos List.mem_cons_self).ne'
    have hret : vmaMapMsaFault s i b v (pml4eUs ||| pml4eRw ||| pml4eP) =
        if rets then .ok (s.addr msa, (s.hung alc b msa).setSt i st')
        else vmaDelUsermsa ((s.hung alc b msa).setSt i st') b (some msa) (s.addr msa) >>= fun r => .ok (0, r.2) := by
      unfold vmaMapMsaFault
      rw [bind_of_ok heq]
      simp only
      rw [show A.msadscRetAddr (s.hung alc b msa).alc msa = s.addr msa from congrFun haddr msa, bind_of_ok hmap]
    unfold vmaMapMsaFault at hret
    rw [hret]
    cases rets with
    | true =>
      refine .inr ⟨msa, _, rfl, hpos, howned', hlists.setSt, hquiet, hfresh, fun j hj w hw => ?_,
        fun b' hne => update_of_ne hne _ _, (Sys.list_setList b).trans (if_pos rfl)⟩
      rw [hlook' j hj w hw, hlook j hj w hw]
      simp only [true_and]
    | false =>
      have hsame : ∀ j < s.mmnr, ∀ w < 2 ^ 47, ((s.hung alc b msa).setSt i st').look j w = s.look j w := by
        intro j hj w hw
        rw [hlook' j hj w hw, hlook j hj w hw]
        exact if_neg fun hand => by cases hand.1
      obtain ⟨rets, t, frames', hdel, hfreed⟩ := vmaDelUsermsa_spec howned' hlists.setSt (b := b) hb
        (some msa) (fun m hm => by
          obtain rfl := Option.some.inj hm
          rw [show ((s.hung alc b msa).setSt i st').list b = _ from (Sys.list_setList b).trans (if_pos rfl)]
          exact List.mem_cons_self)
        hpos
      refine .inl ⟨t, ?_, refuses_of_freed hl hb hfresh howned hquiet rfl (hmmu rfl) hsame haddr hfreed⟩
      exact bind_of_ok hdel _

/-! ### The mappings stay faithful -/

section Faithful

variable {msa : Nat} {frames' : List Nat} {kmbox : Option Nat} (h : Faithful s frames)

include h

theorem Faithful.bits_look (hlow : ∀ msa ∈ frames, s.addr msa < 2 ^ 40) (hi : i < s.mmnr) (hv : v < 2 ^ 47) :
    bits 40 (s.look i v) = s.look i v := by
  by_cases hne : s.look i v = 0
  · rw [hne]
    rfl
  · obtain ⟨msa, hmsa, heq⟩ := h.mapped i hi v hv hne
    exact bits_of_lt (heq ▸ hlow msa hmsa)

/-- The frame that an unmapping gives back was mapped by this page only. -/
theorem Faithful.unmaps (hlow : ∀ msa ∈ frames, s.addr msa < 2 ^ 40) (hi : i < s.mmnr) (hv : v < 2 ^ 47)
    (howned : Owned L s frames rest) (hu : Unmaps L rest frames i kmbox v s t frames') : Faithful t frames' := by
  refine h.setPage hu.quiet.mmnr hu.quiet.addr hu.look (.inl rfl) fun msa hmsa => ?_
  by_cases hfreed : ∃ b, kmbox = some b ∧ msa ∈ s.list b ∧ s.addr msa = bits 40 (s.look i v)
  · obtain ⟨b, -, -, heq⟩ := hfreed
    rw [h.bits_look hlow hi hv] at heq
    have hpos := (howned.addr_pos hmsa).ne'
    refine .inr fun j hj w hw hlook => ?_
    rw [hu.look j hj w hw] at hlook
    by_cases hset : j = i ∧ w / 0x1000 = v / 0x1000
    · rw [if_pos hset] at hlook
      exact hpos hlook.symm
    · rw [if_neg hset, heq] at hlook
      obtain ⟨hij, hpg⟩ := h.once i hi j hj v hv w hw (heq ▸ hpos) hlook.symm
      exact hset ⟨hij.symm, hpg.symm⟩
  · exact .inl ((hu.frames msa).mpr ⟨hmsa, hfreed⟩)

theorem Faithful.maps (hm : Maps L rest frames i b v msa s t) : Faithful t (msa :: frames) := by
  refine h.setPage hm.quiet.mmnr hm.quiet.addr hm.look (.inr ⟨⟨msa, List.mem_cons_self, rfl⟩, fun j hj w hw heq => ?_⟩)
    fun m hmem => .inl (List.mem_cons_of_mem _ hmem)
  -- a mapped frame is one of `frames`, and the new page has another address
  have hpos := hm.owned.addr_pos (List.mem_cons_self (a := msa))
  rw [hm.quiet.addr] at hpos
  obtain ⟨m, hmem, hmeq⟩ := h.mapped j hj w hw (heq ▸ hpos.ne')
  have hsame := hm.owned.addr_inj (List.mem_cons_of_mem _ hmem) List.mem_cons_self (by
    rw [hm.quiet.addr]
    exact hmeq.trans heq)
  exact hm.fresh (hsame ▸ hmem)

end Faithful

end Cosmos.Space
