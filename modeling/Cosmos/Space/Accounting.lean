import Cosmos.Space.Unmap
import Cosmos.Vma.Heap

/-!
# Accounts of boxes and frames

As long as ranges are deleted from page boundaries on and all pages of the machine lie below `2 ^ 40`, pages are not
shared by intervals: every mapped frame hangs on the box of the interval that holds its page, every frame on a box is
mapped, and boxes that are not in use are empty. So the deletion of an interval frees its frames. A range that is
deleted from the middle of a page breaks the accounts: the last page of the range stays mapped, and no interval covers
it any more.
-/

namespace Cosmos.Space

open Cosmos.Lib Cosmos.Page Cosmos.Mmu Cosmos.Vma Kmvarsdsc

variable {A : PageAlloc} {L : Lawful A} {image : Nat → UInt8} {s t : Sys A} {frames frames' : List Nat}
  {rest rest' : List Blk} {i v b start size n : Nat} {newkmvd newbox : Option Nat}

/-- The interval covers the first address of the page of `v`. -/
def Holds (k : Kmvarsdsc) (v : Nat) : Prop := k.kvaStart ≤ v / 0x1000 * 0x1000 ∧ v / 0x1000 * 0x1000 < k.kvaEnd

/-- The accounts of the lists and the translations, for spaces with the intervals `V` and the boxes `H`. -/
structure Kept (N : Nat) (V : Nat → Virmemadrs) (H : List Nat) (s : Sys A) (frames : List Nat) : Prop where
  cov : ∀ i < N, ∀ v < 2 ^ 47, s.look i v ≠ 0 → ∃ k ∈ (V i).vsList, Holds k v ∧
    ∃ b, k.kvaKvmbox = some b ∧ ∃ msa ∈ s.list b, s.addr msa = s.look i v
  listed : ∀ b ∈ H, ∀ msa ∈ s.list b, msa ∈ frames
  apart : ∀ b ∈ H, ∀ b' ∈ H, ∀ msa, msa ∈ s.list b → msa ∈ s.list b' → b = b'
  back : ∀ b ∈ H, ∀ msa ∈ s.list b, ∃ i < N, ∃ v < 2 ^ 47, s.look i v = s.addr msa
  idle : ∀ b ∉ H, s.list b = []
  held : ∀ msa ∈ frames, ∃ b ∈ H, msa ∈ s.list b

section Kept

variable {N : Nat} {V : Nat → Virmemadrs} {H : List Nat} {pre post : List Kmvarsdsc} {k : Kmvarsdsc}

theorem Kept.congr (h : Kept N V H s frames) (hlook : ∀ i < N, ∀ v < 2 ^ 47, t.look i v = s.look i v)
    (hlist : ∀ b, t.list b = s.list b) (haddr : t.addr = s.addr) : Kept N V H t frames := by
  refine ⟨fun i hi v hv hne => ?_, fun b hb => ?_, fun b hb b' hb' => ?_, fun b hb msa hmsa => ?_, fun b hb => ?_,
    fun msa hmsa => ?_⟩
  · rw [hlook i hi v hv] at hne ⊢
    simp only [hlist, haddr]
    exact h.cov i hi v hv hne
  · rw [hlist]
    exact h.listed b hb
  · rw [hlist, hlist]
    exact h.apart b hb b' hb'
  · rw [hlist] at hmsa
    obtain ⟨i, hi, v, hv, heq⟩ := h.back b hb msa hmsa
    exact ⟨i, hi, v, hv, by rw [hlook i hi v hv, heq, haddr]⟩
  · rw [hlist, h.idle b hb]
  · obtain ⟨b, hb, hmem⟩ := h.held msa hmsa
    exact ⟨b, hb, by rw [hlist]; exact hmem⟩

theorem stable_kept : Stable (A := A) fun s frames => Kept N V H s frames ∧ Faithful s frames :=
  fun _ _ _ hnr hlook hlist haddr h =>
    ⟨h.1.congr (fun i _ v _ => hlook i v) hlist haddr, h.2.congr hnr haddr fun i _ v _ => hlook i v⟩

theorem eq_of_covers {vma : Virmemadrs} {k' : Kmvarsdsc} (h : Reached vma) (hk : k ∈ vma.vsList)
    (hk' : k' ∈ vma.vsList) (hlo : k.kvaStart ≤ v) (hhi : v < k.kvaEnd) (hlo' : k'.kvaStart ≤ v)
    (hhi' : v < k'.kvaEnd) : k = k' := by
  obtain ⟨pre, post, hsplit⟩ := Nodes.exists_split h.nodup hk
  obtain ⟨-, -, -, hpre, hpost, -⟩ := (hsplit.eq ▸ h.ordered).split
  rw [hsplit.eq, List.mem_append, List.mem_cons] at hk'
  rcases hk' with hmem | rfl | hmem
  · have hle := hpre k' hmem
    omega
  · rfl
  · have hle := hpost k' hmem
    omega

/-- **One round of the deletion loop** keeps the accounts: the frame of the page hangs on the box of the interval that
is deleted. -/
theorem Kept.unmaps {w : Nat} (h : Kept N V H s frames) (howned : Owned L s frames rest) (hfaith : Faithful s frames)
    (hlow : ∀ msa ∈ frames, s.addr msa < 2 ^ 40) (hN : s.mmnr = N) (hH : s.mgr.kbmKmbhead = H)
    (hV : ∀ j < N, Reached (V j))
    (hboxes : ∀ j < N, ∀ k ∈ (V j).vsList, ∀ b, k.kvaKvmbox = some b → b ∈ H) (hi : i < N) (hk : k ∈ (V i).vsList)
    (hw : w < 2 ^ 47) (hkw : Holds k w) (hu : Unmaps L rest frames i k.kvaKvmbox w s t frames') :
    Kept N V H t frames' := by
  have haddr : t.addr = s.addr := hu.quiet.addr
  have hbits : bits 40 (s.look i w) = s.look i w := hfaith.bits_look hlow (hN ▸ hi) hw
  have hlists := hu.lists
  obtain rfl : t.mgr.kbmKmbhead = H := by rw [hu.quiet.mgr, hH]
  refine ⟨fun j hj v hv hne => ?_, hlists.listed, hlists.apart, fun b hb msa hmsa => ?_, fun b hb => ?_,
    fun msa hmsa => ?_⟩
  · rw [hu.look j (hN ▸ hj) v hv] at hne ⊢
    by_cases hpage : j = i ∧ v / 0x1000 = w / 0x1000
    · rw [if_pos hpage] at hne
      exact absurd rfl hne
    · rw [if_neg hpage] at hne ⊢
      obtain ⟨k', hk', hhold, b, hbox, msa, hmsa, heq⟩ := h.cov j hj v hv hne
      refine ⟨k', hk', hhold, b, hbox, msa, (hu.list b msa).mpr ⟨hmsa, fun hand => ?_⟩, by rw [haddr, heq]⟩
      -- a frame is mapped once
      exact hpage (hfaith.once j (hN ▸ hj) i (hN ▸ hi) v hv w hw hne (heq.symm.trans (hand.2.trans hbits)))
  · obtain ⟨hmsa, hnot⟩ := (hu.list b msa).mp hmsa
    obtain ⟨j, hj, v, hv, heq⟩ := h.back b hb msa hmsa
    by_cases hpage : j = i ∧ v / 0x1000 = w / 0x1000
    · -- the interval that holds this page is the one whose box the frame hangs on
      exfalso
      obtain ⟨rfl, hvw⟩ := hpage
      have hlook : s.look j w = s.addr msa := (look_congr_page hvw.symm hw hv).trans heq
      have hpos := howned.addr_pos (h.listed b hb msa hmsa)
      obtain ⟨k', hk', hhold, b', hbox, msa', hmsa', heq'⟩ := h.cov j hj w hw (by omega)
      obtain rfl := eq_of_covers (hV j hj) hk hk' hkw.1 hkw.2 hhold.1 hhold.2
      have hb' := hboxes j hj k hk b' hbox
      obtain rfl : msa' = msa :=
        howned.addr_inj (h.listed b' hb' msa' hmsa') (h.listed b hb msa hmsa) (heq'.trans hlook)
      obtain rfl := h.apart b hb b' hb' msa' hmsa hmsa'
      exact hnot ⟨hbox, hlook.symm.trans hbits.symm⟩
    · refine ⟨j, hj, v, hv, ?_⟩
      rw [hu.look j (hN ▸ hj) v hv, if_neg hpage, heq, haddr]
  · refine List.eq_nil_iff_forall_not_mem.mpr fun msa hmsa => ?_
    have hmem := ((hu.list b msa).mp hmsa).1
    rw [h.idle b hb] at hmem
    cases hmem
  · obtain ⟨hmsa, hnot⟩ := (hu.frames msa).mp hmsa
    obtain ⟨b, hb, hmem⟩ := h.held msa hmsa
    exact ⟨b, hb, (hu.list b msa).mpr ⟨hmem, fun hand => hnot ⟨b, hand.1, hmem, hand.2⟩⟩⟩

theorem Kept.maps {msa : Nat} (h : Kept N V H s frames) (hN : s.mmnr = N) (hi : i < N) (hv : v < 2 ^ 47)
    (howned : Owned L s frames rest) (hH : s.mgr.kbmKmbhead = H) (hk : k ∈ (V i).vsList)
    (hbox : k.kvaKvmbox = some b) (hb : b ∈ H) (hkv : Holds k v) (hzero : s.look i v = 0)
    (hm : Maps L rest frames i b v msa s t) : Kept N V H t (msa :: frames) := by
  have haddr : t.addr = s.addr := hm.quiet.addr
  have hlist : ∀ b' m, m ∈ t.list b' ↔ m ∈ s.list b' ∨ b' = b ∧ m = msa := by
    intro b' m
    by_cases hbb : b' = b
    · subst hbb
      rw [hm.list, List.mem_cons]
      constructor
      · rintro (rfl | hmem)
        · exact .inr ⟨rfl, rfl⟩
        · exact .inl hmem
      · rintro (hmem | ⟨-, rfl⟩)
        · exact .inr hmem
        · exact .inl rfl
    · rw [Sys.list, hm.box b' hbb]
      exact ⟨.inl, fun hor => hor.resolve_right fun hand => hbb hand.1⟩
  have hlists := hm.lists
  obtain rfl : t.mgr.kbmKmbhead = H := by rw [hm.quiet.mgr, hH]
  refine ⟨fun j hj w hw hne => ?_, hlists.listed, hlists.apart, fun b' hb' m hmem => ?_, fun b' hb' => ?_,
    fun m hmem => ?_⟩
  · rw [hm.look j (hN ▸ hj) w hw] at hne ⊢
    by_cases hpage : j = i ∧ w / 0x1000 = v / 0x1000
    · obtain ⟨rfl, hwv⟩ := hpage
      rw [if_pos ⟨rfl, hwv⟩]
      refine ⟨k, hk, ?_, b, hbox, msa, (hlist b msa).mpr (.inr ⟨rfl, rfl⟩), by rw [haddr]⟩
      unfold Holds
      rw [hwv]
      exact hkv
    · rw [if_neg hpage] at hne ⊢
      obtain ⟨k', hk', hhold, b', hbox', m, hmem, heq⟩ := h.cov j hj w hw hne
      exact ⟨k', hk', hhold, b', hbox', m, (hlist b' m).mpr (.inl hmem), by rw [haddr, heq]⟩
  · rcases (hlist b' m).mp hmem with hmem | ⟨-, rfl⟩
    · obtain ⟨j, hj, w, hw, heq⟩ := h.back b' hb' m hmem
      refine ⟨j, hj, w, hw, ?_⟩
      rw [hm.look j (hN ▸ hj) w hw, haddr]
      by_cases hpage : j = i ∧ w / 0x1000 = v / 0x1000
      · -- the page of `v` was not mapped
        obtain ⟨rfl, hwv⟩ := hpage
        have hpos := howned.addr_pos (h.listed b' hb' m hmem)
        rw [look_congr_page hwv hw hv] at heq
        omega
      · rw [if_neg hpage, heq]
    · exact ⟨i, hi, v, hv, by rw [hm.look i (hN ▸ hi) v hv, if_pos ⟨rfl, rfl⟩, haddr]⟩
  · refine List.eq_nil_iff_forall_not_mem.mpr fun m hmem => ?_
    rcases (hlist b' m).mp hmem with hmem | ⟨rfl, -⟩
    · rw [h.idle b' hb'] at hmem
      cases hmem
    · exact hb' hb
  · rcases List.mem_cons.mp hmem with rfl | hmem
    · exact ⟨b, hb, (hlist b m).mpr (.inr ⟨rfl, rfl⟩)⟩
    · obtain ⟨b', hb', hmem⟩ := h.held m hmem
      exact ⟨b', hb', (hlist b' m).mpr (.inl hmem)⟩

end Kept

/-! ### Intervals and their boxes -/

section Shapes

variable {vma vma' : Virmemadrs} {pre post : List Kmvarsdsc} {k k₀ : Kmvarsdsc} {r limits type x : Nat} {out : DelOut}

theorem NewShape.grows (hsplit : Nodes.Split kvaAdr vma.vsList pre k post)
    (h : NewShape vma r n limits type newkmvd pre k post vma') (hk₀ : k₀ ∈ vma.vsList) :
    ∃ k₁ ∈ vma'.vsList, k₁.kvaStart = k₀.kvaStart ∧ k₀.kvaEnd ≤ k₁.kvaEnd ∧ k₁.kvaKvmbox = k₀.kvaKvmbox := by
  rw [hsplit.eq, List.mem_append, List.mem_cons] at hk₀
  cases h with
  | extend hr _ _ =>
    rcases hk₀ with hmem | rfl | hmem
    · exact ⟨k₀, by simp [hmem], rfl, le_rfl, rfl⟩
    · exact ⟨{ k₀ with kvaEnd := r + n }, by simp, rfl, by simp only; omega, rfl⟩
    · exact ⟨k₀, by simp [hmem], rfl, le_rfl, rfl⟩
  | insert adr _ =>
    rcases hk₀ with hmem | rfl | hmem
    · exact ⟨k₀, by simp [hmem], rfl, le_rfl, rfl⟩
    · exact ⟨k₀, by simp, rfl, le_rfl, rfl⟩
    · exact ⟨k₀, by simp [hmem], rfl, le_rfl, rfl⟩

theorem DelShape.holds (hsplit : Nodes.Split kvaAdr vma.vsList pre k post)
    (h : DelShape vma start n newkmvd pre k post out) (hk₀ : k₀ ∈ vma.vsList) (hlo : k₀.kvaStart ≤ x)
    (hhi : x < k₀.kvaEnd) (hout : ¬(start ≤ x ∧ x < start + n)) :
    ∃ k₁ ∈ out.vma.vsList, k₁.kvaStart ≤ x ∧ x < k₁.kvaEnd ∧ k₁.kvaKvmbox = k₀.kvaKvmbox := by
  rw [hsplit.eq, List.mem_append, List.mem_cons] at hk₀
  -- an interval other than `k` stays
  by_cases hk : k₀ = k
  · subst hk
    cases h with
    | whole _ _ => omega
    | trimLeft _ _ => exact ⟨{ k₀ with kvaStart := start + n }, by simp, by simp only; omega, hhi, rfl⟩
    | trimRight _ _ => exact ⟨{ k₀ with kvaEnd := start }, by simp, hlo, by simp only; omega, rfl⟩
    | split adr _ _ _ =>
      by_cases hx : x < start
      · exact ⟨{ k₀ with kvaEnd := start }, by simp, hlo, hx, rfl⟩
      · exact ⟨tailKmvd adr (start + n) k₀, by simp, by simp only [tailKmvd]; omega, hhi, rfl⟩
  · have hmem : k₀ ∈ pre ∨ k₀ ∈ post := hk₀.imp_right fun hor => hor.resolve_left hk
    refine ⟨k₀, ?_, hlo, hhi, rfl⟩
    cases h <;> rcases hmem with hmem | hmem <;> simp [hmem]

theorem aligned_vmaNewVadrs (hr : Reached vma) (h : Aligned vma) (hfresh : FreshFor vma newkmvd)
    (hsum : start + vadszAlign size < 2 ^ 64) :
    Aligned (Vma.vmaNewVadrs vma start size limits type newkmvd).2 := by
  rcases vmaNewVadrs_cases hr.toWf start size limits type newkmvd hfresh hsum with
    heq | ⟨pre, k, post, vma', hsplit, hfits, hmin, heq, hshape⟩
  · rw [heq]
    exact h
  · have hmem : k ∈ vma.vsList := by
      rw [hsplit.eq]
      simp
    have hstart : newStart start k % 0x1000 = 0 := by
      by_cases h0 : start = 0
      · rw [newStart, if_pos h0] at hfits ⊢
        have hle := hfits.le_isalcend hr.toWf hsplit
        exact (h k hmem).2.resolve_right (by omega)
      · rw [newStart, if_neg h0] at heq ⊢
        by_contra hmod
        have hrefused : Vma.vmaNewVadrs vma start size limits type newkmvd = (0, vma) := by
          unfold Vma.vmaNewVadrs
          split
          · rfl
          · exact if_pos ⟨h0, .inl hmod⟩
        rw [hrefused] at heq
        exact h0 (Prod.mk.inj heq).1.symm
    rw [heq]
    exact hshape.aligned hr.toWf h hsplit hfits hstart (Nat.mod_eq_zero_of_dvd (alignUp_dvd size 0x1000))

end Shapes

/-! ### The calls -/

/-- The accounts between calls. -/
structure Books (s : Sys A) (frames : List Nat) : Prop where
  kept : Kept s.mmnr s.vma s.mgr.kbmKmbhead s frames
  faithful : Faithful s frames
  bounds : ∀ i < s.mmnr, Aligned (s.vma i)

theorem Kept.setVma {N : Nat} {V V' : Nat → Virmemadrs} {H : List Nat} (h : Kept N V H s frames)
    (hV : ∀ j < N, ∀ v < 2 ^ 47, s.look j v ≠ 0 → ∀ k ∈ (V j).vsList, ∀ b, k.kvaKvmbox = some b → Holds k v →
      ∃ k' ∈ (V' j).vsList, Holds k' v ∧ k'.kvaKvmbox = some b) : Kept N V' H s frames := by
  refine ⟨fun j hj v hv hne => ?_, h.listed, h.apart, h.back, h.idle, h.held⟩
  obtain ⟨k, hk, hhold, b, hbox, hmsa⟩ := h.cov j hj v hv hne
  obtain ⟨k', hk', hhold', hbox'⟩ := hV j hj v hv hne k hk b hbox hhold
  exact ⟨k', hk', hhold', b, hbox', hmsa⟩

theorem Books.newVadrs {limits type r : Nat} (hb : Books s frames) (h : Inv L s frames rest) (hi : i < s.mmnr)
    (hfresh : FreshFor (s.vma i) newkmvd) (hsum : start + vadszAlign size < 2 ^ 64)
    (hret : vmaNewVadrs s i start size limits type newkmvd = (r, t)) : Books t frames := by
  obtain ⟨-, rfl⟩ := Prod.mk.inj hret
  have hkept : Kept s.mmnr s.vma s.mgr.kbmKmbhead (s.setVma i
      (Vma.vmaNewVadrs (s.vma i) start size limits type newkmvd).2) frames :=
    hb.kept.congr (fun j _ w _ => Sys.look_setVma ..) (fun _ => rfl) rfl
  refine ⟨hkept.setVma fun j hj v hv _ k hk b hbox hhold => ?_,
    hb.faithful.congr rfl rfl fun j _ w _ => Sys.look_setVma .., fun j hj => ?_⟩
  · rw [Sys.vma_setVma]
    by_cases hji : j = i
    · subst hji
      rw [if_pos rfl]
      rcases vmaNewVadrs_cases (h.reached j hi).toWf start size limits type newkmvd hfresh hsum with
        heq | ⟨pre, k₀, post, vma', hsplit, -, -, heq, hshape⟩
      · rw [heq]
        exact ⟨k, hk, hhold, hbox⟩
      · obtain ⟨k₁, hk₁, hstart, hend, hbox₁⟩ := NewShape.grows hsplit hshape hk
        rw [heq]
        refine ⟨k₁, hk₁, ?_, hbox₁.trans hbox⟩
        unfold Holds at hhold ⊢
        omega
    · rw [if_neg hji]
      exact ⟨k, hk, hhold, hbox⟩
  · rw [Sys.vma_setVma]
    by_cases hji : j = i
    · subst hji
      rw [if_pos rfl]
      exact aligned_vmaNewVadrs (h.reached j hi) (hb.bounds j hi) hfresh hsum
    · rw [if_neg hji]
      exact hb.bounds j hj

theorem Books.of_deletes {out : DelOut} {pre post : List Kmvarsdsc} {k : Kmvarsdsc} (hb : Books s frames)
    (hi : i < s.mmnr) (hn : n % 0x1000 = 0) (halign : start % 0x1000 = 0)
    (hsplit : Nodes.Split kvaAdr (s.vma i).vsList pre k post)
    (hshape : DelShape (s.vma i) start n newkmvd pre k post out) (hdel : Deletes L rest i start n out s t frames')
    (hkept : Kept s.mmnr s.vma s.mgr.kbmKmbhead t frames') (hfaith : Faithful t frames') : Books t frames' := by
  have hkept' : Kept t.mmnr t.vma s.mgr.kbmKmbhead t frames' := by
    rw [hdel.mmnr]
    refine hkept.setVma fun j hj v hv hne k₀ hk₀ b hbox hhold => ?_
    rw [hdel.vma]
    by_cases hji : j = i
    · subst hji
      rw [if_pos rfl]
      -- a page of the range is not mapped any more
      have hout : ¬(start ≤ v / 0x1000 * 0x1000 ∧ v / 0x1000 * 0x1000 < start + n) := by
        intro hin
        rw [hdel.look j hj v hv, if_pos (by omega)] at hne
        exact hne rfl
      obtain ⟨k₁, hk₁, hlo, hhi, hbox₁⟩ := DelShape.holds hsplit hshape hk₀ hhold.1 hhold.2 hout
      exact ⟨k₁, hk₁, ⟨hlo, hhi⟩, hbox₁.trans hbox⟩
    · rw [if_neg hji]
      exact ⟨k₀, hk₀, hhold, hbox⟩
  have hused : ∀ b ∈ s.mgr.kbmKmbhead, ∀ msa ∈ t.list b, b ∈ t.mgr.kbmKmbhead := by
    intro b hb msa hmsa
    obtain ⟨j, hj, v, hv, heq⟩ := hkept'.back b hb msa hmsa
    have hmem := hkept'.listed b hb msa hmsa
    have hpos := hdel.inv.owned.addr_pos hmem
    obtain ⟨k', hk', -, b', hbox', msa', hmsa', heq'⟩ := hkept'.cov j hj v hv (by omega)
    have hb' := hdel.inv.counts.mem_head hj hk' hbox'
    obtain rfl : msa' = msa := hdel.inv.owned.addr_inj (hdel.inv.lists.listed b' hb' msa' hmsa') hmem (heq'.trans heq)
    obtain rfl := hkept'.apart b hb b' (hdel.head b' hb') msa' hmsa hmsa'
    exact hb'
  refine ⟨⟨hkept'.cov, hdel.inv.lists.listed, hdel.inv.lists.apart, fun b hb => hkept'.back b (hdel.head b hb),
    fun b hb => ?_, fun msa hmsa => ?_⟩, hfaith, fun j hj => ?_⟩
  · by_cases hold : b ∈ s.mgr.kbmKmbhead
    · exact List.eq_nil_iff_forall_not_mem.mpr fun msa hmsa => hb (hused b hold msa hmsa)
    · exact hkept'.idle b hold
  · obtain ⟨b, hb, hmem⟩ := hkept'.held msa hmsa
    exact ⟨b, hused b hb msa hmem, hmem⟩
  · rw [hdel.vma]
    rw [hdel.mmnr] at hj
    by_cases hji : j = i
    · subst hji
      rw [if_pos rfl]
      exact hshape.aligned (hb.bounds j hj) hsplit halign hn
    · rw [if_neg hji]
      exact hb.bounds j hj

theorem Books.delVadrs {rets : Bool} (hlow : L.Low) (hb : Books s frames) (h : Inv L s frames rest) (hi : i < s.mmnr)
    (hfresh : FreshFor (s.vma i) newkmvd) (hsum : start + vadszAlign size < 2 ^ 64) (halign : start % 0x1000 = 0)
    (hret : vmaDelVadrs s i start size newkmvd = .ok (rets, t)) :
    ∃ frames', Inv L t frames' rest ∧ Books t frames' := by
  rcases vmaDelVadrs_cases (h.reached i hi).toWf start size newkmvd hfresh hsum with
    hrefused | ⟨pre, k, post, hsplit, hmin, hstart, hend, hshape⟩
  · obtain ⟨-, rfl⟩ : false = rets ∧ s = t := by simpa using (vmaDelVadrs_refused hrefused).symm.trans hret
    exact ⟨frames, h, hb⟩
  · have hk : k ∈ (s.vma i).vsList := by
      rw [hsplit.eq]
      simp
    have hkend := ((h.reached i hi).inside k hk).2
    rw [(h.reached i hi).isalcend_eq] at hkend
    have hlt : userVirtualAddressEnd < 2 ^ 47 := by decide
    obtain ⟨t', frames', heq, hdel, hkept, hfaith⟩ := vmaDelVadrs_spec stable_kept h hi hfresh hsum hsplit hend hshape
      ⟨hb.kept, hb.faithful⟩ fun w hlo hhi hmod s₁ frames₁ s₂ frames₂ hnr hmgr howned _ ⟨hkept, hfaith⟩ hu =>
        ⟨hkept.unmaps howned hfaith (howned.low hlow) hnr (by rw [hmgr]) h.reached
            (fun j hj k hk b hbox => h.counts.mem_head hj hk hbox) hi hk (by omega) (by unfold Holds; omega) hu,
          hfaith.unmaps (howned.low hlow) (hnr ▸ hi) (by omega) howned hu⟩
    obtain ⟨-, rfl⟩ : true = rets ∧ t' = t := by simpa using heq.symm.trans hret
    exact ⟨frames', hdel.inv, hb.of_deletes hi (Nat.mod_eq_zero_of_dvd (alignUp_dvd size 0x1000)) halign hsplit hshape
      hdel hkept hfaith⟩

theorem Books.of_quiet (hb : Books s frames) (hquiet : Quiet s t)
    (hlook : ∀ j < s.mmnr, ∀ w < 2 ^ 47, t.look j w = s.look j w) (hlist : ∀ b, t.list b = s.list b) :
    Books t frames := by
  refine ⟨?_, hb.faithful.congr hquiet.mmnr hquiet.addr hlook, fun j hj => ?_⟩
  · rw [hquiet.mmnr, hquiet.vma, hquiet.mgr]
    exact hb.kept.congr hlook hlist hquiet.addr
  · rw [hquiet.vma]
    exact hb.bounds j (hquiet.mmnr ▸ hj)

section Fault

variable {pre post : List Kmvarsdsc} {k : Kmvarsdsc}

theorem Attached.mem_vsList (ha : Attached s i k b t) (hsplit : Nodes.Split kvaAdr (s.vma i).vsList pre k post) :
    { k with kvaKvmbox := some b } ∈ (t.vma i).vsList := by
  cases ha with
  | had hbox =>
    rw [show ({ k with kvaKvmbox := some b } : Kmvarsdsc) = k by rw [← hbox], hsplit.eq]
    simp
  | got mgr _ _ _ =>
    rw [Sys.vma_setVma, if_pos rfl, attachBox_vsList hsplit]
    simp

theorem Attached.keeps_vsList (ha : Attached s i k b t) (hsplit : Nodes.Split kvaAdr (s.vma i).vsList pre k post)
    {k₀ : Kmvarsdsc} {j b₀ : Nat} (hk₀ : k₀ ∈ (s.vma j).vsList) (hbox : k₀.kvaKvmbox = some b₀) :
    k₀ ∈ (t.vma j).vsList := by
  cases ha with
  | had _ => exact hk₀
  | got mgr hnone _ _ =>
    rw [Sys.vma_setVma]
    by_cases hji : j = i
    · subst hji
      rw [hsplit.eq, List.mem_append, List.mem_cons] at hk₀
      rw [if_pos rfl, attachBox_vsList hsplit]
      rcases hk₀ with hmem | rfl | hmem
      · simp [hmem]
      · rw [hnone] at hbox
        cases hbox
      · simp [hmem]
    · rw [if_neg hji]
      exact hk₀

theorem Attached.aligned (ha : Attached s i k b t) (hsplit : Nodes.Split kvaAdr (s.vma i).vsList pre k post) {j : Nat}
    (h : Aligned (s.vma j)) : Aligned (t.vma j) := by
  cases ha with
  | had _ => exact h
  | got mgr _ _ _ =>
    rw [Sys.vma_setVma]
    by_cases hji : j = i
    · subst hji
      rw [if_pos rfl]
      refine h.replace hsplit (attachBox_vsList hsplit b) rfl fun m hm => ?_
      rw [List.mem_singleton.mp hm]
      exact h k (by rw [hsplit.eq]; simp)
    · rw [if_neg hji]
      exact h

theorem Books.attached (hb : Books s frames) (ha : Attached s i k b t)
    (hsplit : Nodes.Split kvaAdr (s.vma i).vsList pre k post) : Books t frames := by
  -- a box that was not in use was empty, so no list changes
  have hlist : ∀ b', t.list b' = s.list b' := by
    intro b'
    rcases ha.list_eq b' with hsame | ⟨rfl, hnew, hnil⟩
    · exact hsame
    · rw [hnil, hb.kept.idle b' hnew]
  have hkept : Kept s.mmnr t.vma s.mgr.kbmKmbhead t frames :=
    (hb.kept.congr (fun j _ w _ => ha.look_eq j w) hlist ha.addr_eq).setVma fun j hj v hv _ k₀ hk₀ b₀ hbox hhold =>
      ⟨k₀, ha.keeps_vsList hsplit hk₀ hbox, hhold, hbox⟩
  have hused : ∀ b' msa, msa ∈ t.list b' → b' ∈ s.mgr.kbmKmbhead := by
    intro b' msa hmsa
    by_contra hnot
    rw [hkept.idle b' hnot] at hmsa
    cases hmsa
  have hnr : t.mmnr = s.mmnr := ha.mmnr_eq
  refine ⟨?_, hb.faithful.congr hnr ha.addr_eq fun j _ w _ => ha.look_eq j w,
    fun j hj => ha.aligned hsplit (hb.bounds j (hnr ▸ hj))⟩
  rw [hnr]
  refine ⟨hkept.cov, fun b' _ msa hmsa => hkept.listed b' (hused b' msa hmsa) msa hmsa,
    fun b₁ _ b₂ _ msa h₁ h₂ => hkept.apart b₁ (hused b₁ msa h₁) b₂ (hused b₂ msa h₂) msa h₁ h₂,
    fun b' _ msa hmsa => hkept.back b' (hused b' msa hmsa) msa hmsa,
    fun b' hb' => hkept.idle b' fun hmem => hb' (ha.head_subset b' hmem), fun msa hmsa => ?_⟩
  obtain ⟨b', hb', hmsa⟩ := hkept.held msa hmsa
  exact ⟨b', ha.head_subset b' hb', hmsa⟩

end Fault

theorem Books.fault {ret : Int} (hb : Books s frames) (h : Inv L s frames rest) (hi : i < s.mmnr)
    (hfresh : FreshBox s newbox) (hzero : s.look i v = 0) (hret : vmaMapFairvadrs image s i v newbox = .ok (ret, t)) :
    ∃ frames', Inv L t frames' rest ∧ Books t frames' := by
  rcases vmaMapFairvadrs_cases h hi hfresh hret with
    ⟨-, -, rfl⟩ | ⟨pre, k, post, b, s₁, hv, hsplit, hlo, hhi, ha, hinv, hmem, ⟨-, hr⟩ | ⟨-, msa, t₁, hm, hfull⟩⟩
  · exact ⟨frames, h, hb⟩
  · refine ⟨frames, hinv.refuses hr, (hb.attached ha hsplit).of_quiet hr.quiet hr.look fun b => ?_⟩
    rw [Sys.list, hr.box]
    rfl
  · have hi₁ : i < s₁.mmnr := ha.mmnr_eq ▸ hi
    have hb₁ := hb.attached ha hsplit
    have hholds : Holds { k with kvaKvmbox := some b } v := by
      have halign := (hb.bounds i hi k (by rw [hsplit.eq]; simp)).1
      unfold Holds
      simp only
      omega
    have hkept := hb₁.kept.maps rfl hi₁ hv hinv.owned rfl (ha.mem_vsList hsplit) rfl hmem hholds
      ((ha.look_eq i v).trans hzero) hm
    have hb₂ : Books t₁ (msa :: frames) := by
      refine ⟨?_, hb₁.faithful.maps hm, fun j hj => ?_⟩
      · rw [hm.quiet.mmnr, hm.quiet.vma, hm.quiet.mgr]
        exact hkept
      · rw [hm.quiet.vma]
        exact hb₁.bounds j (hm.quiet.mmnr ▸ hj)
    obtain ⟨-, hquiet, hlook, hbox, -⟩ := vmaFullTextbin_spec hm.owned List.mem_cons_self
      (by rw [hm.quiet.addr, hm.look i hi₁ v hv, if_pos ⟨rfl, rfl⟩]) hfull
    refine ⟨msa :: frames, (hinv.maps hi₁ hv hm hfull).1, hb₂.of_quiet hquiet hlook fun b => ?_⟩
    rw [Sys.list, hbox]
    rfl

theorem Books.added {mbPml4padr msa d₁ d₂ d₃ : Nat} {thread : Option (Nat × Nat)} {alc : A.State} (hb : Books s frames)
    (haddr : A.msadscRetAddr alc = s.addr)
    (hlook : ∀ j < s.mmnr + 1, ∀ w < 2 ^ 47, (s.added alc mbPml4padr msa (userspace d₁ d₂ d₃) thread).look j w =
      if j < s.mmnr then s.look j w else 0) :
    Books (s.added alc mbPml4padr msa (userspace d₁ d₂ d₃) thread) frames := by
  have hvma : ∀ j < s.mmnr, (s.added alc mbPml4padr msa (userspace d₁ d₂ d₃) thread).vma j = s.vma j := by
    intro j hj
    rw [Sys.vma, Sys.added_mm_of_lt hj]
    rfl
  have haddr' : (s.added alc mbPml4padr msa (userspace d₁ d₂ d₃) thread).addr = s.addr := haddr
  refine ⟨⟨fun j hj v hv hne => ?_, hb.kept.listed, hb.kept.apart, fun b hmem m hm => ?_, hb.kept.idle, hb.kept.held⟩,
    hb.faithful.added rfl haddr' hlook, fun j hj => ?_⟩
  · rw [hlook j hj v hv] at hne ⊢
    by_cases hlt : j < s.mmnr
    · rw [if_pos hlt] at hne ⊢
      rw [hvma j hlt, haddr']
      exact hb.kept.cov j hlt v hv hne
    · rw [if_neg hlt] at hne
      exact absurd rfl hne
  · obtain ⟨j, hj, v, hv, heq⟩ := hb.kept.back b hmem m hm
    refine ⟨j, Nat.lt_succ_of_lt hj, v, hv, ?_⟩
    rw [hlook j (Nat.lt_succ_of_lt hj) v hv, if_pos hj, heq, haddr']
  · rcases Nat.lt_succ_iff_lt_or_eq.mp hj with hj | rfl
    · rw [hvma j hj]
      exact hb.bounds j hj
    · rw [Sys.vma, Sys.added_mm_self]
      exact aligned_userspace d₁ d₂ d₃

/-! ### Runs -/

def Call.OnPages : Call → Prop
  | .delVadrs _ start _ _ => start % 0x1000 = 0
  | _ => True

theorem books_step {c : Call} {s t : Sys A × List Blk} (hlow : L.Low) (hc : c.NoWrap ∧ c.OnPages)
    (h : ∃ frames, Inv L s.1 frames s.2 ∧ Books s.1 frames) (hstep : Step L image s c t) :
    ∃ frames, Inv L t.1 frames t.2 ∧ Books t.1 frames := by
  obtain ⟨frames, h, hb⟩ := h
  cases hstep with
  | create hd hboot hret =>
    obtain ⟨d₁, d₂, d₃, msa, alc, rfl, rfl, rfl, rfl, haddr, hinv, hend⟩ := newMmadrsdsc_cases h.owned.live hret
    obtain ⟨hadded, hlook⟩ := h.added (by simpa using hd) hboot haddr hinv hend
    exact ⟨frames, hadded, hb.added haddr hlook⟩
  | newVadrs hi hfresh heq => exact ⟨frames, h.newVadrs hi hfresh hc.1 heq, hb.newVadrs h hi hfresh hc.1 heq⟩
  | delVadrs hi hfresh hret => exact hb.delVadrs hlow h hi hfresh hc.1 hc.2 hret
  | fault hi hfresh hzero hret => exact hb.fault h hi hfresh hzero hret
  | other he =>
    obtain ⟨hinv, hlook⟩ := he.keeps h
    refine ⟨frames, hinv, hb.of_quiet ⟨?_, fun j => ?_, he.mmnr, he.mgr, fun b => ?_, he.addr⟩ hlook fun b => ?_⟩
    · funext j
      rw [Sys.vma, he.mm]
      rfl
    · rw [he.mm]
    · rw [he.box]
    · rw [Sys.list, he.box]
      rfl

theorem Boot.books (h : Boot L s rest) : Books s [] := by
  have hnone : ∀ i, ¬i < s.mmnr := fun i hi => by simp [h.mmnr] at hi
  have hlist : ∀ b, s.list b = [] := by
    intro b
    rw [Sys.list, h.box]
    rfl
  refine ⟨⟨fun i hi => absurd hi (hnone i), fun b _ msa hmsa => ?_, fun b _ b' _ msa hmsa => ?_, fun b _ msa hmsa => ?_,
    fun b _ => hlist b, fun _ hmsa => by cases hmsa⟩, h.faithful, fun i hi => absurd hi (hnone i)⟩
  all_goals
    rw [hlist] at hmsa
    cases hmsa

/-- What the books say about a system whose live blocks beside its own are `rest`. -/
structure Accounted (L : Lawful A) (s : Sys A) (rest : List Blk) : Prop where
  /-- Every mapped frame is on the list of the box of an interval that covers an address of its page. -/
  listed : ∀ i < s.mmnr, ∀ v < 2 ^ 47, s.look i v ≠ 0 → ∃ k ∈ (s.vma i).vsList, ∃ b msa x,
    k.kvaKvmbox = some b ∧ msa ∈ s.list b ∧ s.addr msa = s.look i v ∧
    k.kvaStart ≤ x ∧ x < k.kvaEnd ∧ x / 0x1000 = v / 0x1000
  msanr : ∀ b ∈ s.mgr.kbmKmbhead, (s.box b).kmbMsanr = (s.list b).length
  cont : ∀ b, (s.box b).kmbCont = s.refs b
  /-- A box that was cached or deleted is used by no interval and has no page. -/
  idle : ∀ b ∉ s.mgr.kbmKmbhead, s.refs b = 0 ∧ s.list b = []
  /-- The user frames that are allocated are mapped at pages that intervals cover. -/
  frames : ∃ frames, L.Inv s.alc (s.blocks frames rest) ∧ ∀ msa ∈ frames, ∃ i < s.mmnr, ∃ v < 2 ^ 47,
    s.look i v = s.addr msa ∧ ∃ k ∈ (s.vma i).vsList, k.kvaStart ≤ v ∧ v < k.kvaEnd
  /-- Without intervals nothing is mapped. -/
  deleted : ∀ i < s.mmnr, (s.vma i).vsList = [] → ∀ v < 2 ^ 47, s.look i v = 0

theorem Books.accounted (hb : Books s frames) (h : Inv L s frames rest) : Accounted L s rest := by
  refine ⟨fun i hi v hv hne => ?_, h.lists.msanr, h.counts.cont, fun b hbox => ⟨?_, hb.kept.idle b hbox⟩,
    ⟨frames, h.owned.live, fun msa hmsa => ?_⟩, fun i hi hnil v hv => ?_⟩
  · obtain ⟨k, hk, hhold, b, hbox, msa, hmsa, heq⟩ := hb.kept.cov i hi v hv hne
    exact ⟨k, hk, b, msa, v / 0x1000 * 0x1000, hbox, hmsa, heq, hhold.1, hhold.2, by omega⟩
  · rw [h.counts.used] at hbox
    omega
  · obtain ⟨b, hbox, hmem⟩ := hb.kept.held msa hmsa
    obtain ⟨i, hi, v, hv, heq⟩ := hb.kept.back b hbox msa hmem
    have hpos := h.owned.addr_pos hmsa
    obtain ⟨k, hk, hhold, -⟩ := hb.kept.cov i hi v hv (by omega)
    refine ⟨i, hi, v / 0x1000 * 0x1000, by omega, ?_, k, hk, hhold⟩
    rw [← heq]
    exact look_congr_page (by omega) (by omega) hv
  · by_contra hne
    obtain ⟨k, hk, -⟩ := hb.kept.cov i hi v hv hne
    rw [hnil] at hk
    cases hk

/-- **Accounts of boxes and frames**: they hold in every state of every run whose deletions start at page boundaries. -/
theorem accounted_of_run {cs : List Call} (hlow : L.Low) (h : Ran L image cs s rest) (hcs : ∀ c ∈ cs, c.NoWrap)
    (hpages : ∀ c ∈ cs, c.OnPages) : Accounted L s rest := by
  obtain ⟨s₀, rest₀, hboot, hrun⟩ := h.run
  obtain ⟨frames, hinv, hb⟩ := hrun.inv (P := fun c => c.NoWrap ∧ c.OnPages)
    (J := fun s => ∃ frames, Inv L s.1 frames s.2 ∧ Books s.1 frames)
    (fun _ _ _ hc h hstep => books_step hlow hc h hstep) (fun c hc => ⟨hcs c hc, hpages c hc⟩)
    ⟨[], hboot.inv, hboot.books⟩
  exact hb.accounted hinv

/-- The stack is cut in two around a page: both parts use the box, and the other page is still accounted for. -/
theorem accounted_of_run_split : ∃ s : Sys bump, Ran bumpLawful (fun _ => 0)
      (faultAt 0x7fffffffe000 ++ [.fault 0 0x7fffffffd000 none, .delVadrs 0 0x7fffffffd000 0x1000 (some 4)]) s [] ∧
    s.list 9 = [1] ∧ s.refs 9 = 2 ∧ Accounted bumpLawful s [] := by
  obtain ⟨s, hrun, hs⟩ := Halt.exists_of_map (x := runCalls (fun _ => 0) (bootSys (A := bump) (0 : Nat))
      (faultAt 0x7fffffffe000 ++ [.fault 0 0x7fffffffd000 none, .delVadrs 0 0x7fffffffd000 0x1000 (some 4)]))
    (f := fun s => (s.list 9, s.refs 9)) (b := ([1], 2)) (by decide +kernel)
  obtain ⟨hlist, hrefs⟩ := Prod.mk.inj hs
  have hran : Ran bumpLawful (fun _ => 0) (faultAt 0x7fffffffe000 ++ [.fault 0 0x7fffffffd000 none,
      .delVadrs 0 0x7fffffffd000 0x1000 (some 4)]) s [] := ran_of_runCalls bump_empty hrun
  refine ⟨s, hran, hlist, hrefs, accounted_of_run bump_low hran ?_ ?_⟩
  · simp +decide [faultAt, Call.NoWrap]
  · simp +decide [faultAt, Call.OnPages]

/-- The page that a deletion from the middle of a page on leaves mapped is covered by no interval. -/
theorem unaccounted_of_unaligned_del : ∃ s : Sys bump, Ran bumpLawful (fun _ => 0)
      (faultAt 0x7ffffffff000 ++ [.delVadrs 0 0x7fffffffefff 0x1000 none]) s [] ∧
    (∀ c ∈ faultAt 0x7ffffffff000 ++ [.delVadrs 0 0x7fffffffefff 0x1000 none], c.NoWrap) ∧
    ¬Accounted bumpLawful s [] := by
  obtain ⟨s, hrun, hs⟩ := Halt.exists_of_map (x := runCalls (fun _ => 0) (bootSys (A := bump) (0 : Nat))
      (faultAt 0x7ffffffff000 ++ [.delVadrs 0 0x7fffffffefff 0x1000 none]))
    (f := fun s => decide (0 < s.mmnr ∧ s.look 0 0x7ffffffff000 ≠ 0 ∧
      ∀ k ∈ (s.vma 0).vsList, k.kvaEnd ≤ 0x7fffffffefff)) (b := true) (by decide +kernel)
  obtain ⟨hnr, hlook, hends⟩ := of_decide_eq_true hs
  refine ⟨s, ran_of_runCalls bump_empty hrun, by simp +decide [faultAt, Call.NoWrap], fun hacc => ?_⟩
  obtain ⟨k, hk, b, msa, x, -, -, -, -, hhi, hpage⟩ := hacc.listed 0 hnr 0x7ffffffff000 (by decide) hlook
  have hend := hends k hk
  omega

end Cosmos.Space
