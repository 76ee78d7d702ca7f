import Cosmos.Vma.Complete

/-!
# The user heap (`kernel/krlsvemm.c`)

`mallocblk` takes a range anywhere, `mfreeblk` gives a range back. The interval list keeps no borders of blocks:
neighbouring blocks melt into one interval, and a block freed from the middle cuts it in two. A block still
stays inside one interval as long as it lives, so that it can be given back.
-/

namespace Cosmos.Vma

open Cosmos.Lib Kmvarsdsc

def sysstuserr : Int := -1
def sysstusok : Int := 0

def krlsveCoreMallocblk (vma : Virmemadrs) (blksz : Nat) (newkmvd : Option Nat) : Nat × Virmemadrs :=
  vmaNewVadrs vma 0 blksz 0 kmvHeapType newkmvd

def krlsveMallocblk (vma : Virmemadrs) (blksz : Nat) (newkmvd : Option Nat) : Nat × Virmemadrs :=
  krlsveCoreMallocblk vma blksz newkmvd

def krlsveCoreMfreeblk (vma : Virmemadrs) (fradr blksz : Nat) (newkmvd : Option Nat) : Int × Virmemadrs :=
  let out := vmaDelVadrs vma fradr blksz newkmvd
  if out.rets = false then (sysstuserr, out.vma) else (sysstusok, out.vma)

def krlsveMfreeblk (vma : Virmemadrs) (fradr blksz : Nat) (newkmvd : Option Nat) : Int × Virmemadrs :=
  if fradr = 0 then (sysstuserr, vma) else krlsveCoreMfreeblk vma fradr blksz newkmvd

/-- The address space, with the blocks the process holds: address and size asked for. -/
structure Heap where
  vma : Virmemadrs
  live : List (Nat × Nat)

/-- A system call, with the answer `new_kmvarsdsc` gives if it asks for a descriptor. -/
inductive HeapCall where
  | mallocblk (blksz : Nat) (newkmvd : Option Nat)
  | mfreeblk (fradr blksz : Nat) (newkmvd : Option Nat)

def Heap.call (h : Heap) : HeapCall → Heap
  | .mallocblk blksz newkmvd =>
    let (retvadr, vma) := krlsveMallocblk h.vma blksz newkmvd
    ⟨vma, if retvadr = 0 then h.live else (retvadr, blksz) :: h.live⟩
  | .mfreeblk fradr blksz newkmvd =>
    let (status, vma) := krlsveMfreeblk h.vma fradr blksz newkmvd
    ⟨vma, if status = sysstusok then h.live.erase (fradr, blksz) else h.live⟩

/-- Any size is asked for; a live block is freed with its own size. -/
def Heap.Allowed (h : Heap) : HeapCall → Prop
  | .mallocblk blksz newkmvd => blksz < 2 ^ 64 ∧ FreshFor h.vma newkmvd
  | .mfreeblk fradr blksz newkmvd => (fradr, blksz) ∈ h.live ∧ FreshFor h.vma newkmvd

def Heap.Step (h : Heap) (c : HeapCall) (h' : Heap) : Prop := h.Allowed c ∧ h' = h.call c

/-! ### A range inside one interval -/

def Within (vma : Virmemadrs) (a n : Nat) : Prop := ∃ k ∈ vma.vsList, k.kvaStart ≤ a ∧ a + n ≤ k.kvaEnd

def Apart (a n b m : Nat) : Prop := a + n ≤ b ∨ b + m ≤ a

theorem Apart.symm {a n b m : Nat} (h : Apart a n b m) : Apart b m a n := Or.symm h

section Within

variable {vma vma' : Virmemadrs} {pre post : List Kmvarsdsc} {k : Kmvarsdsc} {r n a m limits type start : Nat}
  {newkmvd : Option Nat} {out : DelOut}

theorem Fits.apart (hwf : Wf vma) (hsplit : Nodes.Split kvaAdr vma.vsList pre k post)
    (hfits : Fits vma k post r n) (h : Within vma a m) : Apart r n a m := by
  obtain ⟨x, hx, hlo, hhi⟩ := h
  obtain ⟨-, -, hk, hpre, -, -⟩ := (hsplit.eq ▸ hwf.ordered).split
  have hbehind := hfits.behind
  rw [hsplit.eq] at hx
  rcases List.mem_append.mp hx with hx | hx
  · have := hpre x hx
    exact .inr (by omega)
  · rcases List.mem_cons.mp hx with rfl | hx
    · exact .inr (by omega)
    · have := hfits.post_le hwf hsplit x hx
      exact .inl (by omega)

theorem NewShape.within (hsplit : Nodes.Split kvaAdr vma.vsList pre k post) (hfits : Fits vma k post r n)
    (hshape : NewShape vma r n limits type newkmvd pre k post vma') (h : Within vma a m) : Within vma' a m := by
  obtain ⟨x, hx, hlo, hhi⟩ := h
  rw [hsplit.eq, List.mem_append, List.mem_cons] at hx
  have hbehind := hfits.behind
  cases hshape with
  | extend _ _ _ =>
    rcases hx with hx | rfl | hx
    · exact ⟨x, by simp [hx], hlo, hhi⟩
    · exact ⟨{ x with kvaEnd := r + n }, by simp, hlo, by simp only; omega⟩
    · exact ⟨x, by simp [hx], hlo, hhi⟩
  | insert adr _ =>
    refine ⟨x, ?_, hlo, hhi⟩
    simp only [List.mem_append, List.mem_cons]
    tauto

theorem NewShape.within_new (hwf : Wf vma) (hsplit : Nodes.Split kvaAdr vma.vsList pre k post)
    (hfits : Fits vma k post r n) (hshape : NewShape vma r n limits type newkmvd pre k post vma') :
    Within vma' r n := by
  have hk := (hsplit.eq ▸ hwf.ordered).split.2.2.1
  have hle := hfits.le_isalcend hwf hsplit
  have hlt := hwf.isalcend_lt
  cases hshape with
  | extend hr _ _ => exact ⟨{ k with kvaEnd := r + n }, by simp, by simp only; omega, le_rfl⟩
  | insert adr _ =>
    refine ⟨newKmvd adr r n limits type, by simp, le_rfl, ?_⟩
    simp only [newKmvd]
    rw [u64_of_lt (by omega)]

theorem DelShape.within (hsplit : Nodes.Split kvaAdr vma.vsList pre k post) (hm : 0 < m)
    (hshape : DelShape vma start n newkmvd pre k post out) (hapart : Apart start n a m) (h : Within vma a m) :
    Within out.vma a m := by
  obtain ⟨x, hx, hlo, hhi⟩ := h
  unfold Apart at hapart
  rw [hsplit.eq, List.mem_append, List.mem_cons] at hx
  have hother : x ∈ pre ∨ x ∈ post → Within out.vma a m := by
    intro hx
    refine ⟨x, ?_, hlo, hhi⟩
    cases hshape <;> simp only [List.mem_append, List.mem_cons] <;> tauto
  rcases hx with hx | rfl | hx
  · exact hother (.inl hx)
  · cases hshape with
    | whole hs he => omega
    | trimLeft hs he => exact ⟨{ x with kvaStart := start + n }, by simp, by simp only; omega, hhi⟩
    | trimRight hs he => exact ⟨{ x with kvaEnd := start }, by simp, hlo, by simp only; omega⟩
    | split adr hs he _ =>
      rcases hapart with hright | hleft
      · exact ⟨tailKmvd adr (start + n) x, by simp, hright, hhi⟩
      · exact ⟨{ x with kvaEnd := start }, by simp, hlo, hleft⟩
  · exact hother (.inr hx)

theorem vmaDelVadrs_rets_of_within {size : Nat} (newkmvd : Option Nat) (h0 : start ≠ 0) (hsize : 1 ≤ size)
    (hn : 0x1000 ≤ vadszAlign size) (hsum : start + vadszAlign size < 2 ^ 64)
    (h : Within vma start (vadszAlign size)) :
    (vmaDelVadrs vma start size newkmvd).rets = true ∨
      newkmvd = none ∧ ∃ k ∈ vma.vsList, k.kvaStart < start ∧ start + vadszAlign size < k.kvaEnd := by
  simp only [vmaDelVadrs]
  rw [if_neg (by omega)]
  generalize vadszAlign size = n at *
  obtain ⟨k, hfind⟩ : ∃ k, vmaDelFindKmvarsdsc vma start n = some k := by
    obtain ⟨x, hx, hin⟩ := h
    simp only [vmaDelFindKmvarsdsc]
    rw [if_neg (by omega), u64_of_lt hsum]
    have hlist : (vma.vsList.find? (delInside start (start + n))).isSome :=
      List.find?_isSome.mpr ⟨x, hx, decide_eq_true hin⟩
    refine Option.isSome_iff_exists.mp ?_
    simp only [Option.isSome_or, hlist, Bool.or_true]
  obtain ⟨hmem, hstart, hend, -⟩ := vmaDelFindKmvarsdsc_spec hfind
  rw [u64_of_lt hsum] at hend
  rw [vmaDelVadrsCore, hfind]
  simp only [u64_of_lt hsum]
  split
  · exact .inl rfl
  split
  · exact .inl rfl
  split
  · exact .inl rfl
  split
  · next hcut =>
    cases newkmvd with
    | none => exact .inr ⟨rfl, k, hmem, hcut⟩
    | some adr => exact .inl rfl
  · omega

end Within

/-! ### Page boundaries -/

/-- Intervals start at page boundaries and end there, or at the end of the space. -/
def Aligned (vma : Virmemadrs) : Prop :=
  ∀ k ∈ vma.vsList, k.kvaStart % 0x1000 = 0 ∧ (k.kvaEnd % 0x1000 = 0 ∨ k.kvaEnd = vma.vsIsalcend)

section Aligned

variable {vma vma' : Virmemadrs} {pre post mid : List Kmvarsdsc} {k : Kmvarsdsc} {r n limits type start : Nat}
  {newkmvd : Option Nat} {out : DelOut}

theorem Aligned.replace (h : Aligned vma) (hsplit : Nodes.Split kvaAdr vma.vsList pre k post)
    (hlist : vma'.vsList = pre ++ (mid ++ post)) (hend : vma'.vsIsalcend = vma.vsIsalcend)
    (hmid : ∀ m ∈ mid, m.kvaStart % 0x1000 = 0 ∧ (m.kvaEnd % 0x1000 = 0 ∨ m.kvaEnd = vma.vsIsalcend)) :
    Aligned vma' := by
  intro x hx
  rw [hend]
  rw [hlist, List.mem_append, List.mem_append] at hx
  rcases hx with hx | hx | hx
  · exact h x (by rw [hsplit.eq]; simp [hx])
  · exact hmid x hx
  · exact h x (by rw [hsplit.eq]; simp [hx])

theorem NewShape.aligned (hwf : Wf vma) (h : Aligned vma) (hsplit : Nodes.Split kvaAdr vma.vsList pre k post)
    (hfits : Fits vma k post r n) (hr : r % 0x1000 = 0) (hn : n % 0x1000 = 0)
    (hshape : NewShape vma r n limits type newkmvd pre k post vma') : Aligned vma' := by
  have hk := h k (by rw [hsplit.eq]; simp)
  have hle := hfits.le_isalcend hwf hsplit
  have hlt := hwf.isalcend_lt
  cases hshape with
  | extend _ _ _ =>
    refine h.replace hsplit rfl rfl fun m hm => ?_
    rw [List.mem_singleton.mp hm]
    exact ⟨hk.1, .inl (by simp only; omega)⟩
  | insert adr _ =>
    refine h.replace hsplit rfl rfl fun m hm => ?_
    simp only [List.mem_cons, List.not_mem_nil, or_false] at hm
    rcases hm with rfl | rfl
    · exact hk
    · simp only [newKmvd]
      rw [u64_of_lt (by omega)]
      omega

theorem DelShape.aligned (h : Aligned vma) (hsplit : Nodes.Split kvaAdr vma.vsList pre k post)
    (hstart : start % 0x1000 = 0) (hn : n % 0x1000 = 0)
    (hshape : DelShape vma start n newkmvd pre k post out) : Aligned out.vma := by
  have hk := h k (by rw [hsplit.eq]; simp)
  cases hshape with
  | whole _ _ => exact h.replace hsplit rfl (by simp) (by simp)
  | trimLeft _ _ =>
    refine h.replace hsplit rfl rfl fun m hm => ?_
    rw [List.mem_singleton.mp hm]
    exact ⟨by simp only; omega, hk.2⟩
  | trimRight _ _ =>
    refine h.replace hsplit rfl rfl fun m hm => ?_
    rw [List.mem_singleton.mp hm]
    exact ⟨hk.1, .inl hstart⟩
  | split adr _ _ _ =>
    refine h.replace hsplit rfl rfl fun m hm => ?_
    simp only [List.mem_cons, List.not_mem_nil, or_false] at hm
    rcases hm with rfl | rfl
    · exact ⟨hk.1, .inl hstart⟩
    · exact ⟨by simp only [tailKmvd]; omega, hk.2⟩

end Aligned

/-! ### The protocol -/

/-- Live blocks start at page boundaries, lie apart, and each lies in one interval of a list on page boundaries. -/
structure Heap.Inv (h : Heap) : Prop where
  reached : Reached h.vma
  bounds : Aligned h.vma
  size_pos : ∀ b ∈ h.live, 1 ≤ b.2
  aligned : ∀ b ∈ h.live, b.1 % 0x1000 = 0
  inside : ∀ b ∈ h.live, Within h.vma b.1 (pageRound b.2)
  apart : h.live.Pairwise fun b c => Apart b.1 (pageRound b.2) c.1 (pageRound c.2)

theorem vadszAlign_of_le {size : Nat} (hsize : size < 2 ^ 64) (hn : 0x1000 ≤ vadszAlign size) :
    vadszAlign size = pageRound size := by
  by_cases hlt : size + 0x1000 ≤ 2 ^ 64
  · rw [vadszAlign, alignUp_eq hlt]
    rfl
  · rw [vadszAlign, alignUp, u64] at hn
    omega

/-- A range in an interval lies in the space, so its size was not lost in rounding. -/
theorem Within.bound {vma : Virmemadrs} {a n : Nat} (hwf : Wf vma) (h : Within vma a n) :
    a ≠ 0 ∧ a + n < 2 ^ 63 := by
  obtain ⟨k, hk, hlo, hhi⟩ := h
  have hin := hwf.inside k hk
  have hlt := hwf.isalcend_lt
  omega

theorem Heap.call_mallocblk {h : Heap} {blksz retvadr : Nat} {newkmvd : Option Nat} {vma : Virmemadrs}
    (heq : vmaNewVadrs h.vma 0 blksz 0 kmvHeapType newkmvd = (retvadr, vma)) :
    h.call (.mallocblk blksz newkmvd) =
      ⟨vma, if retvadr = 0 then h.live else (retvadr, blksz) :: h.live⟩ := by
  simp only [Heap.call, krlsveMallocblk, krlsveCoreMallocblk, heq]

theorem Heap.call_mfreeblk {h : Heap} {fradr blksz : Nat} {newkmvd : Option Nat} {out : DelOut} (h0 : fradr ≠ 0)
    (heq : vmaDelVadrs h.vma fradr blksz newkmvd = out) :
    h.call (.mfreeblk fradr blksz newkmvd) =
      ⟨out.vma, if out.rets = true then h.live.erase (fradr, blksz) else h.live⟩ := by
  simp only [Heap.call, krlsveMfreeblk, krlsveCoreMfreeblk, if_neg h0, heq]
  cases out.rets <;> rfl

theorem Heap.Inv.mallocblk {h : Heap} {blksz : Nat} {newkmvd : Option Nat} (hinv : h.Inv) (hsize : blksz < 2 ^ 64)
    (hfresh : FreshFor h.vma newkmvd) : (h.call (.mallocblk blksz newkmvd)).Inv := by
  have hwf := hinv.reached.toWf
  have hsum : 0 + vadszAlign blksz < 2 ^ 64 := by
    rw [Nat.zero_add]
    exact alignUp_lt _ _
  have hreached : Reached (Vma.vmaNewVadrs h.vma 0 blksz 0 kmvHeapType newkmvd).2 :=
    hinv.reached.step (c := .newVadrs 0 blksz 0 kmvHeapType newkmvd) hsum ⟨hfresh, rfl⟩
  rcases vmaNewVadrs_cases hwf 0 blksz 0 kmvHeapType newkmvd hfresh hsum with
    heq | ⟨pre, k, post, vma', hsplit, hfits, hn, heq, hshape⟩
  · rw [Heap.call_mallocblk heq]
    exact hinv
  · have hround := vadszAlign_of_le hsize hn
    rw [Heap.call_mallocblk heq]
    rw [heq] at hreached
    rw [hround] at hn hfits hshape
    rw [newStart, if_pos rfl] at hreached hfits hshape ⊢
    have hmem : k ∈ h.vma.vsList := by
      rw [hsplit.eq]
      simp
    have hpos := hwf.inside k hmem
    have hkpos := hwf.ordered.pos k hmem
    have hle := hfits.le_isalcend hwf hsplit
    have hpage : pageRound blksz % 0x1000 = 0 := Nat.mul_mod_left _ _
    -- the block starts where `k` ends, below the end of the space and so at a page boundary
    have hr : k.kvaEnd % 0x1000 = 0 := (hinv.bounds k hmem).2.resolve_right (by omega)
    have hsize : 1 ≤ blksz := by
      unfold pageRound at hn
      omega
    rw [if_neg (by omega)]
    refine ⟨hreached, hshape.aligned hwf hinv.bounds hsplit hfits hr hpage, ?_, ?_, ?_, ?_⟩
    · exact List.forall_mem_cons.mpr ⟨hsize, hinv.size_pos⟩
    · exact List.forall_mem_cons.mpr ⟨hr, hinv.aligned⟩
    · refine List.forall_mem_cons.mpr ⟨hshape.within_new hwf hsplit hfits, fun b hb => ?_⟩
      exact hshape.within hsplit hfits (hinv.inside b hb)
    · refine List.pairwise_cons.mpr ⟨fun b hb => ?_, hinv.apart⟩
      exact hfits.apart hwf hsplit (hinv.inside b hb)

theorem Heap.Inv.apart_erase {h : Heap} {b c : Nat × Nat} (hinv : h.Inv) (hb : b ∈ h.live)
    (hc : c ∈ h.live.erase b) : Apart b.1 (pageRound b.2) c.1 (pageRound c.2) := by
  have hperm := (List.perm_cons_erase hb).pairwise_iff (R := fun b c : Nat × Nat =>
    Apart b.1 (pageRound b.2) c.1 (pageRound c.2)) (fun hxy => hxy.symm)
  exact List.rel_of_pairwise_cons (hperm.mp hinv.apart) hc

theorem Heap.Inv.mfreeblk {h : Heap} {fradr blksz : Nat} {newkmvd : Option Nat} (hinv : h.Inv)
    (hlive : (fradr, blksz) ∈ h.live) (hfresh : FreshFor h.vma newkmvd) :
    (h.call (.mfreeblk fradr blksz newkmvd)).Inv := by
  have hwf := hinv.reached.toWf
  have hsize := hinv.size_pos _ hlive
  have hin := hinv.inside _ hlive
  obtain ⟨h0, hlt⟩ := hin.bound hwf
  have hround : vadszAlign blksz = pageRound blksz :=
    vadszAlign_eq (show fradr + pageRound blksz ≤ 2 ^ 64 - 1 by simp only at hlt; omega)
  have hsum : fradr + vadszAlign blksz < 2 ^ 64 := by
    simp only at hlt
    omega
  have hreached : Reached (vmaDelVadrs h.vma fradr blksz newkmvd).vma :=
    hinv.reached.step (c := .delVadrs fradr blksz newkmvd) hsum ⟨hfresh, rfl⟩
  rw [Heap.call_mfreeblk h0 rfl]
  rcases vmaDelVadrs_cases hwf fradr blksz newkmvd hfresh hsum with
    heq | ⟨pre, k, post, hsplit, hn, hlo, hhi, hshape⟩
  · rw [heq]
    exact hinv
  · rw [if_pos hshape.rets]
    rw [hround] at hshape
    have hsub : ∀ b ∈ h.live.erase (fradr, blksz), b ∈ h.live := fun b hb => List.mem_of_mem_erase hb
    refine ⟨hreached, hshape.aligned hinv.bounds hsplit (hinv.aligned _ hlive) (pageRound_spec hsize).2.2, ?_,
      ?_, ?_, ?_⟩
    · exact fun b hb => hinv.size_pos b (hsub b hb)
    · exact fun b hb => hinv.aligned b (hsub b hb)
    · intro b hb
      have hpos := pageRound_spec (hinv.size_pos b (hsub b hb))
      exact hshape.within hsplit (by omega) (hinv.apart_erase hlive hb) (hinv.inside b (hsub b hb))
    · exact hinv.apart.sublist List.erase_sublist

def newHeap (kmvdc heapkmvdc stackkmvdc : Nat) : Heap := ⟨userspace kmvdc heapkmvdc stackkmvdc, []⟩

theorem aligned_userspace (d₁ d₂ d₃ : Nat) : Aligned (userspace d₁ d₂ d₃) := by
  intro k hk
  simp only [userspace, kvmaInituserspaceVirmemadrs, virmemadrsTInit, List.nil_append, List.mem_cons,
    List.not_mem_nil, or_false] at hk
  rcases hk with rfl | rfl | rfl
  · exact ⟨by simp only; decide, .inl (by simp only; decide)⟩
  · exact ⟨by simp only; decide, .inl (by simp only; decide)⟩
  · exact ⟨Nat.mod_eq_zero_of_dvd (alignUp_dvd _ _), .inr rfl⟩

theorem Heap.inv_of_run {d₁ d₂ d₃ : Nat} {cs : List HeapCall} {h : Heap} (hd : [d₁, d₂, d₃].Nodup)
    (hrun : Trace Heap.Step (newHeap d₁ d₂ d₃) cs h) : h.Inv := by
  refine hrun.keeps ?_ ?_
  · rintro h c h' hinv ⟨hallowed, rfl⟩
    cases c with
    | mallocblk blksz newkmvd => exact hinv.mallocblk hallowed.1 hallowed.2
    | mfreeblk fradr blksz newkmvd => exact hinv.mfreeblk hallowed.1 hallowed.2
  · exact ⟨⟨wf_userspace hd, rfl⟩, aligned_userspace d₁ d₂ d₃, by simp [newHeap], by simp [newHeap],
      by simp [newHeap], List.Pairwise.nil⟩

theorem Heap.Inv.frees {h : Heap} {b : Nat × Nat} (hinv : h.Inv) (hb : b ∈ h.live) (newkmvd : Option Nat) :
    (krlsveMfreeblk h.vma b.1 b.2 newkmvd).1 = sysstusok ∨
      newkmvd = none ∧ ∃ k ∈ h.vma.vsList, k.kvaStart < b.1 ∧ b.1 + pageRound b.2 < k.kvaEnd := by
  have hin := hinv.inside b hb
  obtain ⟨h0, hlt⟩ := hin.bound hinv.reached.toWf
  have hround := vadszAlign_eq (show b.1 + pageRound b.2 ≤ 2 ^ 64 - 1 by omega)
  have hspec := pageRound_spec (hinv.size_pos b hb)
  rw [← hround] at hin hlt hspec ⊢
  rcases vmaDelVadrs_rets_of_within newkmvd h0 (hinv.size_pos b hb) hspec.1 (by omega) hin with
    hrets | hnone
  · left
    rw [krlsveMfreeblk, if_neg h0, krlsveCoreMfreeblk, hrets]
    rfl
  · exact .inr hnone

/-- **The heap protocol.** After any run of `mallocblk` and of `mfreeblk` of live blocks, the live blocks are
page-aligned and pairwise disjoint, each lies in one interval, and freeing any of them succeeds unless it has to
cut that interval in two and no descriptor can be had. -/
theorem heap_protocol (d₁ d₂ d₃ : Nat) {cs : List HeapCall} {h : Heap} (hd : [d₁, d₂, d₃].Nodup)
    (hrun : Trace Heap.Step (newHeap d₁ d₂ d₃) cs h) :
    (∀ b ∈ h.live, b.1 % 0x1000 = 0) ∧
    (h.live.Pairwise fun b c => Apart b.1 (pageRound b.2) c.1 (pageRound c.2)) ∧
    (∀ b ∈ h.live, ∃ k ∈ h.vma.vsList, k.kvaStart ≤ b.1 ∧ b.1 + pageRound b.2 ≤ k.kvaEnd) ∧
    (∀ b ∈ h.live, ∀ newkmvd, (krlsveMfreeblk h.vma b.1 b.2 newkmvd).1 = sysstusok ∨
      newkmvd = none ∧ ∃ k ∈ h.vma.vsList, k.kvaStart < b.1 ∧ b.1 + pageRound b.2 < k.kvaEnd) := by
  have hinv := Heap.inv_of_run hd hrun
  exact ⟨hinv.aligned, hinv.apart, hinv.inside, fun b hb newkmvd => hinv.frees hb newkmvd⟩

/-- Three blocks, then the middle one freed: the two others are left, in the two parts of the heap interval. -/
theorem heap_protocol_three_blocks :
    ((((newHeap 1 2 3).call (.mallocblk 0x10 none)).call (.mallocblk 0x2000 none)).call (.mallocblk 1 none)).call
        (.mfreeblk 0x100002000 0x2000 (some 4)) |>.live.Pairwise fun b c =>
      Apart b.1 (pageRound b.2) c.1 (pageRound c.2) := by
  refine (heap_protocol 1 2 3 (by decide) (.cons ⟨?_, rfl⟩ (.cons ⟨?_, rfl⟩ (.cons ⟨?_, rfl⟩
    (.cons ⟨?_, rfl⟩ (.nil _)))))).2.1
  all_goals exact ⟨by decide, by decide⟩

end Cosmos.Vma
