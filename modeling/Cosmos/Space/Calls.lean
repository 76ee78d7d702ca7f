import Cosmos.Space.Boxes

/-!
# The calls on an address space

`Inv` is what holds between calls: tables, lists, counts and intervals fit together. Each call is said once, by what it
leaves (`Deletes`, `Attached`, `Maps`, `Refuses`), and keeps `Inv`.
-/

namespace Cosmos.Space

open Cosmos.Lib Halt Cosmos.Page Cosmos.Mmu Cosmos.Vma Kmvarsdsc Function

variable {A : PageAlloc} {L : Lawful A} {image : Nat → UInt8} {s s' t : Sys A} {frames : List Nat} {rest : List Blk}
  {i v b start size : Nat} {newkmvd newbox : Option Nat}

/-- What holds between calls, with the user frames `frames`. -/
structure Inv (L : Lawful A) (s : Sys A) (frames : List Nat) (rest : List Blk) : Prop where
  owned : Owned L s frames rest
  lists : Lists s frames
  counts : Counts s
  reached : ∀ i < s.mmnr, Reached (s.vma i)

theorem Sys.setVma_self (s : Sys A) (i : Nat) : s.setVma i (s.vma i) = s := by
  simp only [setVma, Sys.vma, update_eq_self]

theorem Sys.mmu_setVma (s : Sys A) (i j : Nat) (vma : Virmemadrs) :
    ((s.setVma i vma).mm j).msdMmu = (s.mm j).msdMmu := by
  by_cases hj : j = i
  · subst hj
    simp only [setVma, update_self]
  · simp only [setVma, update_of_ne hj]

theorem Sys.thread_setVma (s : Sys A) (i j : Nat) (vma : Virmemadrs) :
    ((s.setVma i vma).mm j).msdThread = (s.mm j).msdThread := by
  by_cases hj : j = i
  · subst hj
    simp only [setVma, update_self]
  · simp only [setVma, update_of_ne hj]

theorem Sys.look_setVma (s : Sys A) (i : Nat) (vma : Virmemadrs) (j w : Nat) :
    (s.setVma i vma).look j w = s.look j w := Sys.look_congr (fun j => s.mmu_setVma i j vma) rfl j w

theorem Inv.setVma {vma : Virmemadrs} (howned : Owned L s frames rest) (hlists : Lists s frames)
    (hreached : ∀ j < s.mmnr, Reached (s.vma j)) (hvma : Reached vma) (hcounts : Counts (s.setVma i vma)) :
    Inv L (s.setVma i vma) frames rest := by
  refine ⟨howned.same rfl (fun j => s.mmu_setVma i j vma) rfl rfl,
    hlists.congr (fun _ hb => hb) (fun _ => rfl) (fun _ => rfl), hcounts, fun j hj => ?_⟩
  rw [Sys.vma_setVma]
  by_cases hji : j = i
  · rw [if_pos hji]
    exact hvma
  · rw [if_neg hji]
    exact hreached j hj

theorem Inv.of_quiet {frames' : List Nat} (h : Inv L s frames rest) (hquiet : Quiet s t)
    (howned : Owned L t frames' rest)
    (hlists : Lists t frames') : Inv L t frames' rest := by
  refine ⟨howned, hlists, h.counts.congr hquiet.mgr hquiet.cont (refs_congr hquiet.mmnr hquiet.vma), fun j hj => ?_⟩
  rw [hquiet.vma]
  exact h.reached j (hquiet.mmnr ▸ hj)

/-! ### `vma_new_vadrs` -/

theorem Inv.newVadrs {limits type r : Nat} (h : Inv L s frames rest) (hi : i < s.mmnr)
    (hfresh : FreshFor (s.vma i) newkmvd) (hsum : start + vadszAlign size < 2 ^ 64)
    (hret : vmaNewVadrs s i start size limits type newkmvd = (r, t)) : Inv L t frames rest := by
  obtain ⟨-, rfl⟩ := Prod.mk.inj hret
  have hreached : Reached (Vma.vmaNewVadrs (s.vma i) start size limits type newkmvd).2 :=
    (h.reached i hi).step (c := .newVadrs start size limits type newkmvd) hsum ⟨hfresh, rfl⟩
  refine .setVma h.owned h.lists h.reached hreached (h.counts.congr rfl (fun _ => rfl) fun b => ?_)
  have huses : uses b (Vma.vmaNewVadrs (s.vma i) start size limits type newkmvd).2 = uses b (s.vma i) := by
    rcases vmaNewVadrs_cases (h.reached i hi).toWf start size limits type newkmvd hfresh hsum with
      heq | ⟨pre, k, post, vma', hsplit, -, -, heq, hshape⟩
    · rw [heq]
    · rw [heq]
      exact NewShape.uses_eq hsplit hshape b
  have hrefs := refs_setVma hi (Vma.vmaNewVadrs (s.vma i) start size limits type newkmvd).2 b
  omega

/-! ### `vma_del_vadrs` -/

/-- A property of the translations, the lists and the user frames. -/
def Stable (J : Sys A → List Nat → Prop) : Prop :=
  ∀ s t frames, t.mmnr = s.mmnr → (∀ i v, t.look i v = s.look i v) → (∀ b, t.list b = s.list b) → t.addr = s.addr →
    J s frames → J t frames

theorem OnlyCont.look_eq (h : OnlyCont s t) (i v : Nat) : t.look i v = s.look i v :=
  Sys.look_congr (fun i => by rw [h.mm]) h.mem i v

theorem OnlyCont.addr_eq (h : OnlyCont s t) : t.addr = s.addr := by
  rw [Sys.addr, h.alc]
  rfl

theorem OnlyCont.vma_eq (h : OnlyCont s t) : t.vma = s.vma := by
  funext i
  rw [Sys.vma, h.mm]
  rfl

theorem rounds_eq {n : Nat} (hn : n % 0x1000 = 0) (hsum : start + n < 2 ^ 64) :
    (u64 (start + n) - start + (vmapMinSize - 1)) / vmapMinSize = n / 0x1000 := by
  rw [u64_of_lt hsum]
  unfold vmapMinSize
  omega

theorem counts_of_del {put count : Option Nat} {s₁ : Sys A} (h : Counts s)
    (hone : put = none ∨ count = none) (hcount : ∀ b ∈ count, b ∈ s.mgr.kbmKmbhead)
    (hnodup : (t.mgr.kbmKmbhead ++ t.mgr.kbmCachehead).Nodup) (hmgr₁ : s₁.mgr = s.mgr)
    (hcont₁ : ∀ b, (s₁.box b).kmbCont = (s.box b).kmbCont + one count b)
    (hcont : ∀ b, (t.box b).kmbCont = (s₁.box b).kmbCont - one put b)
    (hhead : ∀ b, b ∈ t.mgr.kbmKmbhead ↔ b ∈ s₁.mgr.kbmKmbhead ∧ ¬(put = some b ∧ (s₁.box b).kmbCont - 1 < 1))
    (hrefs : ∀ b, t.refs b + one put b = s.refs b + one count b) : Counts t := by
  refine ⟨hnodup, fun b => ?_, fun b => ?_⟩
  · rw [hcont, hcont₁, h.cont]
    have hb := hrefs b
    omega
  · have hb := hrefs b
    have hcb := h.cont b
    rw [hhead, hmgr₁, h.used, hcont₁, hcb]
    by_cases hput : put = some b
    · have hnone : count = none := hone.resolve_left fun hn => by rw [hn] at hput; cases hput
      rw [hput, hnone, one_self, one_none] at hb
      rw [hnone, one_none]
      simp only [hput, true_and]
      omega
    · have hzero : one put b = 0 := if_neg hput
      simp only [hput, false_and, not_false_iff, and_true]
      by_cases hcnt : count = some b
      · have hpos := (h.used b).mp (hcount b hcnt)
        omega
      · have hzero' : one count b = 0 := if_neg hcnt
        omega

theorem Inv.counted (h : Inv L s frames rest) (o : Option Nat) :
    Owned L (knlCountKvmemcbox s o) frames rest ∧ Lists (knlCountKvmemcbox s o) frames := by
  obtain ⟨honly, hmgr, -⟩ := knlCountKvmemcbox_spec s o
  refine ⟨h.owned.same honly.mmnr (fun j => by rw [honly.mm]) honly.alc honly.mem, ?_⟩
  exact h.lists.congr (fun b hb => by rw [hmgr] at hb; exact hb) honly.list honly.msanr

/-- What an accepted deletion of `[start, start + n)` leaves, when the interval list answers `out`. -/
structure Deletes (L : Lawful A) (rest : List Blk) (i start n : Nat) (out : DelOut) (s t : Sys A) (frames' : List Nat) :
    Prop where
  inv : Inv L t frames' rest
  look : ∀ j < s.mmnr, ∀ w < 2 ^ 47, t.look j w =
    if j = i ∧ start / 0x1000 ≤ w / 0x1000 ∧ w / 0x1000 < start / 0x1000 + n / 0x1000 then 0 else s.look j w
  vma : ∀ j, t.vma j = if j = i then out.vma else s.vma j
  mmnr : t.mmnr = s.mmnr
  head : ∀ b ∈ t.mgr.kbmKmbhead, b ∈ s.mgr.kbmKmbhead
  addr : t.addr = s.addr
  thread : ∀ j, (t.mm j).msdThread = (s.mm j).msdThread

/-- **An accepted deletion**: the pages of the range are unmapped, and what each round of the loop keeps holds. -/
theorem vmaDelVadrs_spec {J : Sys A → List Nat → Prop} {pre post : List Kmvarsdsc} {k : Kmvarsdsc} (hJ : Stable J)
    (h : Inv L s frames rest) (hi : i < s.mmnr) (hfresh : FreshFor (s.vma i) newkmvd)
    (hsum : start + vadszAlign size < 2 ^ 64) (hsplit : Nodes.Split kvaAdr (s.vma i).vsList pre k post)
    (hend : start + vadszAlign size ≤ k.kvaEnd)
    (hshape : DelShape (s.vma i) start (vadszAlign size) newkmvd pre k post
      (Vma.vmaDelVadrs (s.vma i) start size newkmvd))
    (hJs : J s frames)
    (hround : ∀ w, start ≤ w → w + 0x1000 ≤ start + vadszAlign size → (w - start) % 0x1000 = 0 →
      ∀ s₁ frames₁ s₂ frames₂, s₁.mmnr = s.mmnr → s₁.mgr = s.mgr → Owned L s₁ frames₁ rest → Lists s₁ frames₁ →
      J s₁ frames₁ → Unmaps L rest frames₁ i k.kvaKvmbox w s₁ s₂ frames₂ → J s₂ frames₂) :
    ∃ t frames', vmaDelVadrs s i start size newkmvd = .ok (true, t) ∧
      Deletes L rest i start (vadszAlign size) (Vma.vmaDelVadrs (s.vma i) start size newkmvd) s t frames' ∧
        J t frames' := by
  have hk : k ∈ (s.vma i).vsList := by
    rw [hsplit.eq]
    simp
  have hn : vadszAlign size % 0x1000 = 0 := Nat.mod_eq_zero_of_dvd (alignUp_dvd size 0x1000)
  have hreached' : Reached (Vma.vmaDelVadrs (s.vma i) start size newkmvd).vma :=
    (h.reached i hi).step (c := .delVadrs start size newkmvd) hsum ⟨hfresh, rfl⟩
  have hkend : k.kvaEnd ≤ 2 ^ 47 := by
    have hle := ((h.reached i hi).inside k hk).2
    rw [(h.reached i hi).isalcend_eq] at hle
    exact hle.trans (by decide)
  obtain ⟨hput, hcount, hone⟩ := DelShape.calls hshape
  have huses := DelShape.uses_add hsplit hshape
  have hunmap := DelShape.unmap_eq hshape
  have hrets := hshape.rets
  unfold vmaDelVadrs
  generalize Vma.vmaDelVadrs (s.vma i) start size newkmvd = out at *
  generalize vadszAlign size = n at *
  -- the count of a split comes first, then the loop, then the put of a whole interval
  obtain ⟨honly₁, hmgr₁, hcont₁⟩ := knlCountKvmemcbox_spec s out.count
  obtain ⟨howned₁, hlists₁⟩ := h.counted out.count
  have hboxes : ∀ b, k.kvaKvmbox = some b → b ∈ s.mgr.kbmKmbhead := fun b hb => h.counts.mem_head hi hk hb
  obtain ⟨s₂, frames', hloop, howned₂, hlists₂, hquiet, hlook, hJ₂⟩ := unmapPages_spec (J := J) (n / 0x1000)
      (v := start)
    howned₁ hlists₁ (by rw [honly₁.mmnr]; exact hi) (by omega)
    (fun b hb => by rw [hmgr₁]; exact hboxes b hb)
    (hJ s _ frames honly₁.mmnr honly₁.look_eq honly₁.list honly₁.addr_eq hJs)
    fun w hlo hhi hmod s₁ frames₁ t₁ frames₂ hnr hmgr => hround w hlo (by omega) hmod s₁ frames₁ t₁ frames₂
      (hnr.trans honly₁.mmnr) (hmgr.trans hmgr₁)
  have hput₂ : ∀ b ∈ out.put, b ∈ s₂.mgr.kbmKmbhead := by
    intro b hb
    rw [hquiet.mgr, hmgr₁]
    exact hboxes b (hput b hb)
  obtain ⟨honly₃, hnodup₃, hcont₃, hhead₃⟩ := knlPutKvmemcbox_spec s₂ out.put
    (by rw [hquiet.mgr, hmgr₁]; exact h.counts.nodup) hput₂
  have hvma₃ : (knlPutKvmemcbox s₂ out.put).vma = s.vma := honly₃.vma_eq.trans (hquiet.vma.trans honly₁.vma_eq)
  have hnr₃ : (knlPutKvmemcbox s₂ out.put).mmnr = s.mmnr := honly₃.mmnr.trans (hquiet.mmnr.trans honly₁.mmnr)
  have haddr₃ : (knlPutKvmemcbox s₂ out.put).addr = s.addr :=
    honly₃.addr_eq.trans (hquiet.addr.trans honly₁.addr_eq)
  have hcounts : Counts ((knlPutKvmemcbox s₂ out.put).setVma i out.vma) := by
    refine counts_of_del h.counts hone
      (fun b hb => hboxes b (hcount b hb)) hnodup₃ (hquiet.mgr.trans hmgr₁)
      (fun b => by rw [hquiet.cont, hcont₁]) hcont₃ hhead₃ fun b => ?_
    have hset := refs_setVma (s := knlPutKvmemcbox s₂ out.put) (i := i) (by rw [hnr₃]; exact hi) out.vma b
    have hrefs : (knlPutKvmemcbox s₂ out.put).refs b = s.refs b := refs_congr hnr₃ hvma₃ b
    have hb := huses b
    rw [hvma₃] at hset
    omega
  have howned₃ : Owned L (knlPutKvmemcbox s₂ out.put) frames' rest :=
    howned₂.same honly₃.mmnr (fun j => by rw [honly₃.mm]) honly₃.alc honly₃.mem
  have hlists₃ : Lists (knlPutKvmemcbox s₂ out.put) frames' :=
    hlists₂.congr (fun b hb => ((hhead₃ b).mp hb).1) honly₃.list honly₃.msanr
  refine ⟨(knlPutKvmemcbox s₂ out.put).setVma i out.vma, frames', ?_, ⟨?_, fun j hj w hw => ?_, fun j => ?_, hnr₃,
    fun b hb => ?_, haddr₃, fun j => ?_⟩, ?_⟩
  · simp only [hunmap, vmaDelUnmapping, vmaDelUnmappingPhyadrs, rounds_eq hn hsum, hloop, ok_bind, hrets]
  · refine .setVma howned₃ hlists₃ (fun j hj => ?_) hreached' hcounts
    rw [hvma₃]
    exact h.reached j (hnr₃ ▸ hj)
  · rw [Sys.look_setVma, honly₃.look_eq, hlook j (by rw [honly₁.mmnr]; exact hj) w hw, honly₁.look_eq]
  · rw [Sys.vma_setVma, hvma₃]
  · have hmem := ((hhead₃ b).mp hb).1
    rwa [hquiet.mgr, hmgr₁] at hmem
  · have hthread : ((knlPutKvmemcbox s₂ out.put).mm j).msdThread = (s.mm j).msdThread := by
      rw [honly₃.mm, hquiet.thread, honly₁.mm]
    rw [← hthread]
    exact Sys.thread_setVma ..
  · exact hJ s₂ _ frames' honly₃.mmnr (fun j w => by rw [Sys.look_setVma, honly₃.look_eq]) (fun b => honly₃.list b)
      honly₃.addr_eq hJ₂

/-! ### The page fault -/

theorem vmaMapFindKmvarsdsc_spec {vma : Virmemadrs} {k : Kmvarsdsc} (h : vmaMapFindKmvarsdsc vma v = some k) :
    k ∈ vma.vsList ∧ k.kvaStart ≤ v ∧ v < k.kvaEnd := by
  obtain ⟨hmem, hinside⟩ := Virmemadrs.mem_of_cached_or_find h
  exact ⟨hmem, of_decide_eq_true hinside⟩

/-- The box of an interval, which an interval without one gets now. -/
inductive Attached (s : Sys A) (i : Nat) (k : Kmvarsdsc) (b : Nat) : Sys A → Prop
  | had : k.kvaKvmbox = some b → Attached s i k b s
  | got (mgr : Kvmemcboxmgr) : k.kvaKvmbox = none → mgr.kbmKmbhead = s.mgr.kbmKmbhead →
      (b :: (s.mgr.kbmKmbhead ++ mgr.kbmCachehead)).Nodup →
      Attached s i k b ((freshBox s b mgr).setVma i (attachBox (s.vma i) k.kvaAdr b))

theorem vmaMapRetnKvmemcbox_cases {k : Kmvarsdsc} (h : Counts s) (hfresh : FreshBox s newbox)
    (hret : vmaMapRetnKvmemcbox s i k newbox = .ok (b, t)) : Attached s i k b t := by
  unfold vmaMapRetnKvmemcbox at hret
  split at hret
  · next b' hbox =>
    obtain ⟨rfl, rfl⟩ : b' = b ∧ s = t := by simpa using hret
    exact .had hbox
  · next hbox =>
    obtain ⟨⟨b', s₁⟩, hget, hok⟩ := bind_eq_ok hret
    obtain ⟨mgr, rfl, hhead, hnodup⟩ := knlGetKvmemcbox_spec h.nodup hfresh hget
    obtain ⟨rfl, rfl⟩ : b' = b ∧ (freshBox s b' mgr).setVma i (attachBox ((freshBox s b' mgr).vma i) k.kvaAdr b') =
        t := by
      simpa using hok
    exact .got mgr hbox hhead hnodup

section Fresh

variable {mgr : Kvmemcboxmgr}

theorem freshBox_box_self (s : Sys A) (b : Nat) (mgr : Kvmemcboxmgr) : (freshBox s b mgr).box b = ⟨1, 0, []⟩ :=
  update_self ..

theorem freshBox_box_of_ne {b' : Nat} (mgr : Kvmemcboxmgr) (h : b' ≠ b) : (freshBox s b mgr).box b' = s.box b' :=
  update_of_ne h ..

theorem Lists.fresh (h : Lists s frames) (hhead : mgr.kbmKmbhead = s.mgr.kbmKmbhead) :
    Lists (freshBox s b mgr) frames := by
  have hboxes : ∀ b' ∈ (freshBox s b mgr).mgr.kbmKmbhead, (freshBox s b mgr).box b' = ⟨1, 0, []⟩ ∨
      b' ∈ s.mgr.kbmKmbhead ∧ (freshBox s b mgr).box b' = s.box b' := by
    intro b' hb'
    by_cases hb : b' = b
    · rw [hb]
      exact .inl (freshBox_box_self s b mgr)
    · rcases List.mem_cons.mp hb' with hb'' | hb''
      · exact absurd hb'' hb
      · exact .inr ⟨hhead ▸ hb'', freshBox_box_of_ne mgr hb⟩
  refine ⟨fun b' hb' m hm => ?_, fun b₁ hb₁ b₂ hb₂ m h₁ h₂ => ?_, fun b' hb' => ?_, fun b' hb' => ?_⟩
  · rcases hboxes b' hb' with heq | ⟨hb, heq⟩ <;> rw [Sys.list, heq] at hm
    · cases hm
    · exact h.listed b' hb m hm
  · rcases hboxes b₁ hb₁ with heq₁ | ⟨hmem₁, heq₁⟩ <;> rw [Sys.list, heq₁] at h₁
    · cases h₁
    · rcases hboxes b₂ hb₂ with heq₂ | ⟨hmem₂, heq₂⟩ <;> rw [Sys.list, heq₂] at h₂
      · cases h₂
      · exact h.apart b₁ hmem₁ b₂ hmem₂ m h₁ h₂
  · rcases hboxes b' hb' with heq | ⟨hb, heq⟩ <;> rw [Sys.list, heq]
    · exact List.nodup_nil
    · exact h.nodup b' hb
  · rcases hboxes b' hb' with heq | ⟨hb, heq⟩ <;> rw [Sys.list, heq]
    · rfl
    · exact h.msanr b' hb

theorem Counts.fresh {pre post : List Kmvarsdsc} {k : Kmvarsdsc} (h : Counts s) (hi : i < s.mmnr)
    (hsplit : Nodes.Split kvaAdr (s.vma i).vsList pre k post) (hnone : k.kvaKvmbox = none)
    (hhead : mgr.kbmKmbhead = s.mgr.kbmKmbhead) (hnodup : (b :: (s.mgr.kbmKmbhead ++ mgr.kbmCachehead)).Nodup) :
    Counts ((freshBox s b mgr).setVma i (attachBox (s.vma i) k.kvaAdr b)) := by
  have hrefs : ∀ b', ((freshBox s b mgr).setVma i (attachBox (s.vma i) k.kvaAdr b)).refs b' =
      s.refs b' + one (some b) b' := by
    intro b'
    have hset := refs_setVma (s := freshBox s b mgr) hi (attachBox (s.vma i) k.kvaAdr b) b'
    have hsame : (freshBox s b mgr).refs b' = s.refs b' := refs_congr rfl rfl b'
    have hvma : (freshBox s b mgr).vma i = s.vma i := rfl
    have huses := uses_attachBox hsplit hnone b b'
    rw [hvma] at hset
    omega
  have hunused : s.refs b = 0 := by
    have hnot : b ∉ s.mgr.kbmKmbhead := fun hb => (List.nodup_cons.mp hnodup).1 (List.mem_append_left _ hb)
    rw [h.used] at hnot
    omega
  refine ⟨?_, fun b' => ?_, fun b' => ?_⟩
  · change ((b :: mgr.kbmKmbhead) ++ mgr.kbmCachehead).Nodup
    rw [hhead]
    exact hnodup
  · rw [hrefs]
    by_cases hb : b' = b
    · rw [hb, one_self, hunused]
      exact congrArg Kvmemcbox.kmbCont (freshBox_box_self s b mgr)
    · rw [one_of_ne hb, Nat.add_zero, ← h.cont b']
      exact congrArg Kvmemcbox.kmbCont (freshBox_box_of_ne mgr hb)
  · rw [hrefs]
    change b' ∈ b :: mgr.kbmKmbhead ↔ _
    rw [hhead, List.mem_cons, h.used]
    by_cases hb : b' = b
    · rw [hb, one_self]
      omega
    · rw [one_of_ne hb]
      omega

end Fresh

namespace Attached

variable {pre post : List Kmvarsdsc} {k : Kmvarsdsc}

theorem inv (ha : Attached s i k b t) (h : Inv L s frames rest) (hi : i < s.mmnr)
    (hsplit : Nodes.Split kvaAdr (s.vma i).vsList pre k post) : Inv L t frames rest ∧ b ∈ t.mgr.kbmKmbhead := by
  cases ha with
  | had hbox =>
    refine ⟨h, h.counts.mem_head hi ?_ hbox⟩
    rw [hsplit.eq]
    simp
  | got mgr hnone hhead hnodup =>
    refine ⟨.setVma ?_ (h.lists.fresh hhead) h.reached (Reached.attachBox (h.reached i hi) hsplit b)
      (h.counts.fresh hi hsplit hnone hhead hnodup), List.mem_cons_self⟩
    exact h.owned.same rfl (fun _ => rfl) rfl rfl

theorem mmnr_eq (ha : Attached s i k b t) : t.mmnr = s.mmnr := by
  cases ha <;> rfl

theorem alc_eq (ha : Attached s i k b t) : t.alc = s.alc := by
  cases ha <;> rfl

theorem mem_eq (ha : Attached s i k b t) : t.mem = s.mem := by
  cases ha <;> rfl

theorem addr_eq (ha : Attached s i k b t) : t.addr = s.addr := by
  rw [Sys.addr, ha.alc_eq]
  rfl

theorem look_eq (ha : Attached s i k b t) (j w : Nat) : t.look j w = s.look j w := by
  cases ha with
  | had => rfl
  | got => rw [Sys.look_setVma]; rfl

theorem thread_eq (ha : Attached s i k b t) (j : Nat) : (t.mm j).msdThread = (s.mm j).msdThread := by
  cases ha with
  | had => rfl
  | got => exact Sys.thread_setVma ..

theorem head_subset (ha : Attached s i k b t) : ∀ b' ∈ s.mgr.kbmKmbhead, b' ∈ t.mgr.kbmKmbhead := by
  cases ha with
  | had => exact fun _ hb' => hb'
  | got mgr _ hhead _ => exact fun b' hb' => List.mem_cons_of_mem b (hhead ▸ hb')

theorem list_eq (ha : Attached s i k b t) (b' : Nat) :
    t.list b' = s.list b' ∨ b' = b ∧ b ∉ s.mgr.kbmKmbhead ∧ t.list b' = [] := by
  cases ha with
  | had => exact .inl rfl
  | got mgr _ _ hnodup =>
    by_cases hb : b' = b
    · subst hb
      refine .inr ⟨rfl, fun hmem => (List.nodup_cons.mp hnodup).1 (List.mem_append_left _ hmem), ?_⟩
      exact congrArg Kvmemcbox.kmbMsalist (freshBox_box_self s b' mgr)
    · exact .inl (congrArg Kvmemcbox.kmbMsalist (freshBox_box_of_ne mgr hb))

end Attached

theorem vmaFullTextbin_spec {k : Kmvarsdsc} {msa : Nat} (h : Owned L s frames rest) (hmsa : msa ∈ frames)
    (haddr : s.addr msa = s.look i v) (heq : vmaFullTextbin image s i k v = .ok t) :
    Owned L t frames rest ∧ Quiet s t ∧ (∀ j < s.mmnr, ∀ w < 2 ^ 47, t.look j w = s.look j w) ∧ t.box = s.box ∧
      ∀ p ≠ s.look i v, t.mem p = s.mem p := by
  obtain ⟨mem, rfl, hmem⟩ : ∃ mem, { s with mem := mem } = t ∧ ∀ p ≠ s.look i v, mem p = s.mem p := by
    unfold vmaFullTextbin at heq
    simp only at heq
    split at heq
    · exact ⟨s.mem, Except.ok.inj heq, fun _ _ => rfl⟩
    · split at heq
      · cases heq
      · split at heq
        · cases heq
        · exact ⟨_, Except.ok.inj heq, fun p hp => update_of_ne hp _ _⟩
  obtain ⟨howned, hlook⟩ := h.env (t := { s with mem := mem }) rfl (fun _ => rfl) rfl h.live
    fun j hj m hm => hmem _ (by rw [← haddr]; exact h.ne_table hmsa hj hm)
  exact ⟨howned, ⟨rfl, fun _ => rfl, rfl, rfl, fun _ => rfl, rfl⟩, hlook, rfl, hmem⟩

/-- **What a page fault does**: it is refused and changes nothing, or the interval has its box and there is no memory,
or a new frame is mapped and, in the program's interval, filled. -/
theorem vmaMapFairvadrs_cases {ret : Int} (h : Inv L s frames rest) (hi : i < s.mmnr) (hfresh : FreshBox s newbox)
    (hret : vmaMapFairvadrs image s i v newbox = .ok (ret, t)) :
    (ret ≠ 0 ∧ ret ≠ -enomem ∧ t = s) ∨
    ∃ pre k post b s₁, v < 2 ^ 47 ∧ Nodes.Split kvaAdr (s.vma i).vsList pre k post ∧ k.kvaStart ≤ v ∧ v < k.kvaEnd ∧
      Attached s i k b s₁ ∧ Inv L s₁ frames rest ∧ b ∈ s₁.mgr.kbmKmbhead ∧
      ((ret = -enomem ∧ Refuses L rest frames s₁ t) ∨
        (ret = 0 ∧ ∃ msa t₁, Maps L rest frames i b v msa s₁ t₁ ∧ vmaFullTextbin image t₁ i k v = .ok t)) := by
  unfold vmaMapFairvadrs at hret
  split at hret
  · obtain ⟨rfl, rfl⟩ : -eparam = ret ∧ s = t := by simpa using hret
    exact .inl ⟨by decide, by decide, rfl⟩
  next hrange =>
  have hv : v < 2 ^ 47 := by
    unfold userVirtualAddressEnd at hrange
    omega
  unfold vmaMapFairvadrsCore at hret
  split at hret
  · obtain ⟨rfl, rfl⟩ : -efault = ret ∧ s = t := by simpa using hret
    exact .inl ⟨by decide, by decide, rfl⟩
  next k hfind =>
  obtain ⟨hk, hlo, hhi⟩ := vmaMapFindKmvarsdsc_spec hfind
  obtain ⟨pre, post, hsplit⟩ := Nodes.exists_split (h.reached i hi).nodup hk
  obtain ⟨⟨b, s₁⟩, hbox, hret⟩ := bind_eq_ok hret
  have hattached := vmaMapRetnKvmemcbox_cases h.counts hfresh hbox
  obtain ⟨hinv, hb⟩ := hattached.inv h hi hsplit
  refine .inr ⟨pre, k, post, b, s₁, hv, hsplit, hlo, hhi, hattached, hinv, hb, ?_⟩
  simp only at hret
  rcases vmaMapMsaFault_spec hinv.owned hinv.lists (i := i) (by rw [hattached.mmnr_eq]; exact hi) hv hb with
    ⟨t₁, heq, hrefuses⟩ | ⟨msa, t₁, heq, hpos, hmaps⟩
  · rw [bind_of_ok heq] at hret
    obtain ⟨rfl, rfl⟩ : -enomem = ret ∧ t₁ = t := by simpa using hret
    exact .inl ⟨rfl, hrefuses⟩
  · rw [bind_of_ok heq] at hret
    simp only [if_neg hpos] at hret
    obtain ⟨t₂, hfull, hok⟩ := bind_eq_ok hret
    obtain ⟨rfl, rfl⟩ : 0 = ret ∧ t₂ = t := by simpa using hok
    exact .inr ⟨rfl, msa, t₁, hmaps, hfull⟩

theorem Inv.refuses (h : Inv L s frames rest) (hr : Refuses L rest frames s t) : Inv L t frames rest :=
  h.of_quiet hr.quiet hr.owned (h.lists.congr (fun b hb => hr.quiet.mgr ▸ hb)
    (fun b => congrArg Kvmemcbox.kmbMsalist (congrFun hr.box b)) fun b => by rw [hr.box])

theorem Inv.maps {k : Kmvarsdsc} {msa : Nat} {t₁ : Sys A} (h : Inv L s frames rest) (hi : i < s.mmnr) (hv : v < 2 ^ 47)
    (hm : Maps L rest frames i b v msa s t₁) (hfull : vmaFullTextbin image t₁ i k v = .ok t) :
    Inv L t (msa :: frames) rest ∧ Quiet s t ∧ t.box = t₁.box ∧ t₁.look i v = s.addr msa ∧
      (∀ j < s.mmnr, ∀ w < 2 ^ 47, t.look j w = if j = i ∧ w / 0x1000 = v / 0x1000 then s.addr msa else s.look j w) ∧
      ∀ p ≠ s.addr msa, t.mem p = t₁.mem p := by
  have hlook : t₁.look i v = s.addr msa := by rw [hm.look i hi v hv, if_pos ⟨rfl, rfl⟩]
  obtain ⟨howned, hquiet, hsame, hbox, hmem⟩ :=
    vmaFullTextbin_spec hm.owned List.mem_cons_self (by rw [hm.quiet.addr, hlook]) hfull
  have hquiet' : Quiet s t := hm.quiet.trans hquiet
  have hlists : Lists t (msa :: frames) := hm.lists.congr (fun b hb => hquiet.mgr ▸ hb)
    (fun b => congrArg Kvmemcbox.kmbMsalist (congrFun hbox b)) fun b => by rw [hbox]
  refine ⟨h.of_quiet hquiet' howned hlists, hquiet', hbox, hlook, fun j hj w hw => ?_, fun p hp => hmem p ?_⟩
  · rw [hsame j (by rw [hm.quiet.mmnr]; exact hj) w hw, hm.look j hj w hw]
  · rw [hlook]
    exact hp

/-! ### A new address space -/

section Create

variable {mbPml4padr : Nat} {kmvdc heapkmvdc stackkmvdc : Option Nat} {thread : Option (Nat × Nat)}

def Sys.added (s : Sys A) (alc : A.State) (mbPml4padr msa : Nat) (vma : Virmemadrs) (thread : Option (Nat × Nat)) :
    Sys A :=
  let st := St.initRoot ⟨mmudscTInit, s.alc, s.mem⟩ alc mbPml4padr msa
  { s with mm := update s.mm s.mmnr ⟨st.mmu, vma, thread⟩, mmnr := s.mmnr + 1, alc := st.alc, mem := st.mem }

theorem newMmadrsdsc_cases (hinv : L.Inv s.alc (s.blocks frames rest))
    (hret : newMmadrsdsc s mbPml4padr kmvdc heapkmvdc stackkmvdc thread = .ok (true, t)) :
    ∃ d₁ d₂ d₃ msa alc, kmvdc = some d₁ ∧ heapkmvdc = some d₂ ∧ stackkmvdc = some d₃ ∧
      t = s.added alc mbPml4padr msa (userspace d₁ d₂ d₃) thread ∧ A.msadscRetAddr alc = s.addr ∧
      L.Inv alc ((msa, 1) :: s.blocks frames rest) ∧ s.addr msa + 0x1000 ≤ krnlMapPhyaddressEnd := by
  obtain ⟨⟨rets, st⟩, hinit, hok⟩ := bind_eq_ok hret
  obtain ⟨hand, rfl⟩ := pair_inj hok
  obtain ⟨hvma, rfl⟩ := Bool.and_eq_true_iff.mp hand
  rcases halMmuInit_cases (by rfl) hinv hinit with
    ⟨hfalse, -⟩ | ⟨-, msa, alc, rfl, haddr, hinv', hend⟩
  · cases hfalse
  unfold kvmaInituserspaceVirmemadrs at hvma
  split at hvma
  · next d₁ d₂ d₃ => exact ⟨d₁, d₂, d₃, msa, alc, rfl, rfl, rfl, rfl, haddr, hinv', hend⟩
  · cases hvma

section Added

variable {alc : A.State} {msa : Nat} {vma : Virmemadrs}

theorem Sys.added_mm_of_lt {j : Nat} (hj : j < s.mmnr) : (s.added alc mbPml4padr msa vma thread).mm j = s.mm j :=
  update_of_ne (by omega) _ _

theorem Sys.added_mm_self : (s.added alc mbPml4padr msa vma thread).mm s.mmnr =
    ⟨(St.initRoot ⟨mmudscTInit, s.alc, s.mem⟩ alc mbPml4padr msa).mmu, vma, thread⟩ := update_self ..

theorem Sys.added_others : (s.added alc mbPml4padr msa vma thread).others s.mmnr frames rest =
    s.blocks frames rest := by
  have herase : (List.range (s.mmnr + 1)).erase s.mmnr = List.range s.mmnr := by
    rw [List.range_succ, List.erase_append_right _ (by simp), List.erase_cons_head, List.append_nil]
  have htables : (s.added alc mbPml4padr msa vma thread).tables (List.range s.mmnr) = s.tables (List.range s.mmnr) :=
    List.flatMap_congr fun j hj => by rw [added_mm_of_lt (List.mem_range.mp hj)]
  unfold others
  rw [show (s.added alc mbPml4padr msa vma thread).mmnr = s.mmnr + 1 from rfl, herase, htables]
  rfl

theorem Sys.added_blocks :
    (s.added alc mbPml4padr msa vma thread).blocks frames rest |>.Perm ((msa, 1) :: s.blocks frames rest) := by
  have hperm := (s.added alc mbPml4padr msa vma thread).blocks_perm frames rest (i := s.mmnr) (Nat.lt_succ_self _)
  rw [added_others, added_mm_self] at hperm
  exact hperm.symm

theorem Owned.added (h : Owned L s frames rest) (vma : Virmemadrs) (thread : Option (Nat × Nat))
    (hboot : ∀ j, 1 ≤ j → j < 256 → s.mem mbPml4padr j = 0)
    (haddr : A.msadscRetAddr alc = s.addr) (hinv : L.Inv alc ((msa, 1) :: s.blocks frames rest))
    (hend : s.addr msa + 0x1000 ≤ krnlMapPhyaddressEnd) :
    Owned L (s.added alc mbPml4padr msa vma thread) frames rest ∧
      (∀ v, UserHalf v → (s.added alc mbPml4padr msa vma thread).look s.mmnr v = 0) ∧
      ∀ j < s.mmnr, ∀ v, UserHalf v → (s.added alc mbPml4padr msa vma thread).look j v = s.look j v := by
  have hlive : L.Inv alc ((s.added alc mbPml4padr msa vma thread).blocks frames rest) :=
      L.perm hinv Sys.added_blocks.symm
  have hnew : (s.added alc mbPml4padr msa vma thread).st s.mmnr =
      St.initRoot ⟨mmudscTInit, s.alc, s.mem⟩ alc mbPml4padr msa := by
    rw [Sys.st, Sys.added_mm_self]
    rfl
  have hroot : Owns L (St.initRoot ⟨mmudscTInit, s.alc, s.mem⟩ alc mbPml4padr msa) (s.blocks frames rest) 0 ∧
      ∀ v, UserHalf v → lookup (St.initRoot ⟨mmudscTInit, s.alc, s.mem⟩ alc mbPml4padr msa) v = 0 :=
    owns_initRoot haddr hinv hend hboot
  have hrel : ∀ j < s.mmnr, Others L (s.st j, s.others j frames rest)
      ((s.added alc mbPml4padr msa vma thread).st j, (s.added alc mbPml4padr msa vma thread).others j frames rest) := by
    intro j hj
    have hmm : (s.added alc mbPml4padr msa vma thread).mm j = s.mm j := Sys.added_mm_of_lt hj
    have hperm := (s.added alc mbPml4padr msa vma thread).blocks_perm frames rest (i := j) (Nat.lt_succ_of_lt hj)
    rw [hmm] at hperm
    refine ⟨congrArg Mmadrsdsc.msdMmu hmm, haddr, L.perm hlive hperm.symm, fun m hm => update_of_ne ?_ _ _⟩
    -- the new page is none of the live blocks
    intro heq
    have hmem : (m, 1) ∈ s.blocks frames rest :=
      (s.blocks_perm frames rest hj).subset (List.mem_append_left _ (List.mem_map_of_mem hm))
    have hsame := L.eq_of_addr hinv (List.mem_cons_of_mem _ hmem) List.mem_cons_self (by
      rw [haddr]
      exact heq)
    exact (List.nodup_cons.mp (L.nodup hinv)).1 (hsame ▸ hmem)
  refine ⟨⟨hlive, fun j hj => ?_⟩, fun v hv => ?_, fun j hj v hv => (hrel j hj).lookup_eq (h.owns j hj) hv⟩
  · rcases Nat.lt_succ_iff_lt_or_eq.mp hj with hj | rfl
    · exact (hrel j hj).owns (h.owns j hj)
    · rw [hnew, Sys.added_others]
      exact hroot.1
  · rw [Sys.look, hnew]
    exact hroot.2 v hv

theorem Faithful.added (h : Faithful s frames) (hnr : t.mmnr = s.mmnr + 1) (haddr : t.addr = s.addr)
    (hlook : ∀ j < s.mmnr + 1, ∀ w < 2 ^ 47, t.look j w = if j < s.mmnr then s.look j w else 0) :
    Faithful t frames := by
  have hold : ∀ j < t.mmnr, ∀ w < 2 ^ 47, t.look j w ≠ 0 → j < s.mmnr ∧ t.look j w = s.look j w := by
    intro j hj w hw hne
    have hsame := hlook j (hnr ▸ hj) w hw
    by_cases hlt : j < s.mmnr
    · exact ⟨hlt, by rw [hsame, if_pos hlt]⟩
    · rw [hsame, if_neg hlt] at hne
      exact absurd rfl hne
  refine ⟨fun j hj w hw hne => ?_, fun j hj j' hj' w hw w' hw' hne heq => ?_⟩
  · obtain ⟨hlt, hsame⟩ := hold j hj w hw hne
    rw [hsame] at hne ⊢
    rw [haddr]
    exact h.mapped j hlt w hw hne
  · obtain ⟨hlt, hsame⟩ := hold j hj w hw hne
    obtain ⟨hlt', hsame'⟩ := hold j' hj' w' hw' (heq ▸ hne)
    exact h.once j hlt j' hlt' w hw w' hw' (hsame ▸ hne) (hsame.symm.trans (heq.trans hsame'))

theorem Inv.added {d₁ d₂ d₃ : Nat} (h : Inv L s frames rest) (hd : [d₁, d₂, d₃].Nodup)
    (hboot : ∀ j, 1 ≤ j → j < 256 → s.mem mbPml4padr j = 0)
    (haddr : A.msadscRetAddr alc = s.addr) (hinv : L.Inv alc ((msa, 1) :: s.blocks frames rest))
    (hend : s.addr msa + 0x1000 ≤ krnlMapPhyaddressEnd) :
    Inv L (s.added alc mbPml4padr msa (userspace d₁ d₂ d₃) thread) frames rest ∧
      ∀ j < s.mmnr + 1, ∀ w < 2 ^ 47, (s.added alc mbPml4padr msa (userspace d₁ d₂ d₃) thread).look j w =
        if j < s.mmnr then s.look j w else 0 := by
  obtain ⟨howned, hzero, hold⟩ := h.owned.added (userspace d₁ d₂ d₃) thread hboot haddr hinv hend
  have hlook : ∀ j < s.mmnr + 1, ∀ w < 2 ^ 47,
      (s.added alc mbPml4padr msa (userspace d₁ d₂ d₃) thread).look j w = if j < s.mmnr then s.look j w else 0 := by
    intro j hj w hw
    rcases Nat.lt_succ_iff_lt_or_eq.mp hj with hj | rfl
    · rw [if_pos hj, hold j hj w (userHalf_of_lt hw)]
    · rw [if_neg (lt_irrefl _), hzero w (userHalf_of_lt hw)]
  refine ⟨⟨howned, h.lists.congr (fun _ hb => hb) (fun _ => rfl) fun _ => rfl,
    h.counts.congr rfl (fun _ => rfl) fun b => ?_, fun j hj => ?_⟩, hlook⟩
  · have huses : uses b (userspace d₁ d₂ d₃) = 0 := rfl
    have hold : ∀ j ∈ Finset.range s.mmnr,
        uses b ((s.added alc mbPml4padr msa (userspace d₁ d₂ d₃) thread).vma j) = uses b (s.vma j) := by
      intro j hj
      rw [Sys.vma, Sys.added_mm_of_lt (Finset.mem_range.mp hj)]
      rfl
    unfold Sys.refs
    rw [show (s.added alc mbPml4padr msa (userspace d₁ d₂ d₃) thread).mmnr = s.mmnr + 1 from rfl,
      Finset.sum_range_succ, Finset.sum_congr rfl hold, Sys.vma, Sys.added_mm_self, huses, Nat.add_zero]
  · rcases Nat.lt_succ_iff_lt_or_eq.mp hj with hj | rfl
    · rw [Sys.vma, Sys.added_mm_of_lt hj]
      exact h.reached j hj
    · rw [Sys.vma, Sys.added_mm_self]
      exact ⟨wf_userspace hd, rfl⟩

end Added

end Create

end Cosmos.Space
