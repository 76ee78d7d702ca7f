import Cosmos.Space.Unmap
import Cosmos.Thread.Memory

/-!
# The kernel's memory and the programs' pages

The page tables and the pages of the programs come from the page allocator, and so does the memory of `krlnew`, objects
and page blocks. Calls on the address spaces, calls of `krlnew` and `krldelete` and stores of the programs come in any
order. Each component then sees the blocks of the other among those of everybody else, so both invariants hold side by
side (`KernelInv`), and whatever is in use is apart from everything else (`kernel_separate`): no program reaches the
kernel's memory or a page table through the pages it maps. All this is about machines whose memory lies below `2 ^ 40`.
-/

namespace Cosmos.Krlmm

open Cosmos.Lib Cosmos.Page
open Obj (vadr classOf)

variable {A : PageAlloc} {L : Lawful A} {addr : Nat → Nat} {rest : List Blk} {st : St A} {u : Uses}
  {held : List (Nat × Nat)} {a b sz sz' : Nat}

theorem Inv.block_of_inUse (h : Inv L addr rest st u held) (huse : InUse u a sz) :
    ∃ c, vadr addr c.1 ≤ a ∧ a + sz ≤ vadr addr c.1 + c.2 * 0x1000 ∧
      if objsorpage < sz then c ∈ held.map blkOf ∧ a = vadr addr c.1 else c ∈ Obj.total st.obj.blocks := by
  obtain ⟨hpos, hmax, huse⟩ := huse
  split_ifs at huse with hsz
  · obtain ⟨m, hm, rfl⟩ := h.mem_pgs huse
    refine ⟨blkOf (m, pagesOfSize sz), le_rfl, ?_, ?_⟩
    · have hpages := pagesOfSize_eq hmax
      have hle : pagesOfSize sz ≤ 2 ^ Nat.clog 2 (pagesOfSize sz) := Nat.le_pow_clog (by decide) _
      show vadr addr m + sz ≤ vadr addr m + 2 ^ Nat.clog 2 (pagesOfSize sz) * 0x1000
      omega
    · rw [if_pos hsz]
      exact ⟨List.mem_map_of_mem hm, rfl⟩
  · obtain ⟨c, hc, hlo, hhi⟩ := h.inside huse
    rw [classOf_objsAlign hpos (Nat.not_lt.mp hsz)] at hc hhi
    have hle := Obj.le_sizeOf_classOf hpos
    have hlt : classOf sz < Obj.koblstMax := Obj.classOf_lt (Nat.not_lt.mp hsz)
    refine ⟨c, hlo, by omega, ?_⟩
    rw [if_neg hsz]
    exact (Obj.total_perm hlt st.obj.blocks).mem_iff.mpr (List.mem_append_left _ hc)

theorem Inv.block_mem {c : Blk} (hc : if objsorpage < sz then c ∈ held.map blkOf ∧ a = vadr addr c.1
    else c ∈ Obj.total st.obj.blocks) : c ∈ held.map blkOf ++ Obj.total st.obj.blocks := by
  split_ifs at hc
  · exact List.mem_append_left _ hc.1
  · exact List.mem_append_right _ hc

theorem Inv.inUse_apart_rest (h : Inv L addr rest st u held) (huse : InUse u a sz) {c : Blk} (hc : c ∈ rest) :
    a + sz ≤ vadr addr c.1 ∨ vadr addr c.1 + c.2 * 0x1000 ≤ a := by
  obtain ⟨d, hlo, hhi, hd⟩ := h.block_of_inUse huse
  have halc := h.alc
  rw [← List.append_assoc] at halc
  have hclear := clear_of_inside (a := a) (n := sz) halc (Inv.block_mem hd) (by rwa [h.addr_eq])
      (by rwa [h.addr_eq]) c hc
  rwa [h.addr_eq] at hclear

theorem Inv.inUse_apart (h : Inv L addr rest st u held) (ha : InUse u a sz) (hb : InUse u b sz') (hne : a ≠ b) :
    a + sz ≤ b ∨ b + sz' ≤ a := by
  obtain ⟨c, hlo, hhi, hc⟩ := h.block_of_inUse ha
  obtain ⟨d, hlo', hhi', hd⟩ := h.block_of_inUse hb
  have halc := h.alc
  rw [← List.append_assoc] at halc
  by_cases hcd : c = d
  · -- one block: two objects of a class
    subst hcd
    have hnodup := (List.nodup_append.mp (List.nodup_append.mp (L.nodup halc)).1).2.2
    split_ifs at hc hd with hsz hsz' hsz'
    · exact absurd (hc.2.trans hd.2.symm) hne
    · exact absurd rfl (hnodup c hc.1 c hd)
    · exact absurd rfl (hnodup c hd.1 c hc)
    · obtain ⟨hpos, -, hlive⟩ := ha
      obtain ⟨hpos', -, hlive'⟩ := hb
      rw [if_neg hsz] at hlive
      rw [if_neg hsz'] at hlive'
      have hapart := h.obj.sound.apart _ (Obj.classOf_lt hlive.2.1) _ (Obj.classOf_lt hlive'.2.1) a hlive.2.2 b
        hlive'.2.2 fun heq => hne (Prod.mk.inj heq).2
      rw [classOf_objsAlign hpos (Nat.not_lt.mp hsz), classOf_objsAlign hpos' (Nat.not_lt.mp hsz')] at hapart
      have hle := Obj.le_sizeOf_classOf hpos
      have hle' := Obj.le_sizeOf_classOf hpos'
      omega
  · have hapart := L.apart_of_ne halc (List.mem_append_left _ (Inv.block_mem hc))
        (List.mem_append_left _ (Inv.block_mem hd))
      hcd
    rw [h.addr_eq] at hapart
    unfold Apart at hapart
    unfold vadr at hlo hhi hlo' hhi'
    omega

end Cosmos.Krlmm

namespace Cosmos.Space

open Cosmos.Lib Cosmos.Page Cosmos.Mmu
open Obj (vadr)

variable {A : PageAlloc} {L : Lawful A} {image : Nat → UInt8} {addr : Nat → Nat} {rest : List Blk}

/-! ### One page allocator -/

/-- The address spaces and the memory of `krlnew` with its record of what is in use. The page allocator is that of
`sys`. -/
structure Kernel (A : PageAlloc) where
  sys : Sys A
  krl : Krlmm.St A
  uses : Krlmm.Uses

/-- The memory of `krlnew` over the page allocator as it is now. -/
def Kernel.krlmm (x : Kernel A) : Krlmm.St A := { x.krl with obj := { x.krl.obj with alc := x.sys.alc } }

/-- Word `j` of the page that address `v` of space `i` maps to is written. -/
def Sys.store (s : Sys A) (i v j w : Nat) : Sys A :=
  { s with mem := Function.update s.mem (s.look i v) (Function.update (s.mem (s.look i v)) j w) }

/-- A call on the address spaces or of `krlnew` and `krldelete`, or a store of a program. -/
inductive KernelAct
  | space (c : Call)
  | krl (c : Obj.Call)
  | store (i v j w : Nat)

/-- What the callers promise: ranges do not wrap around, descriptors and boxes are not in use yet, faults are on
unmapped addresses, frees are no misfrees; and a program stores through its page tables. -/
def KernelAct.Allowed (x : Kernel A) : KernelAct → Prop
  | .space c => c ≠ .other ∧ c.NoWrap ∧ c.Allowed x.sys
  | .krl c => Krlmm.CallOk (x.krlmm, x.uses) c
  | .store i v _ _ => i < x.sys.mmnr ∧ v < 2 ^ 47 ∧ x.sys.look i v ≠ 0

def Kernel.step (image : Nat → UInt8) (x : Kernel A) : KernelAct → Halt (Kernel A)
  | .space c => c.run image x.sys >>= fun t => .ok { x with sys := t }
  | .krl c => Krlmm.step (x.krlmm, x.uses) c >>= fun ⟨krl, uses⟩ => .ok ⟨{ x.sys with alc := krl.obj.alc }, krl, uses⟩
  | .store i v j w => .ok { x with sys := x.sys.store i v j w }

def KernelStep (image : Nat → UInt8) (x : Kernel A) (act : KernelAct) (y : Kernel A) : Prop :=
  act.Allowed x ∧ x.step image act = .ok y

/-! ### Both invariants -/

/-- What the address spaces and `krlnew` hold, each with the blocks of the other among those of everybody else. -/
structure KernelInv (L : Lawful A) (addr : Nat → Nat) (rest : List Blk) (x : Kernel A) (frames : List Nat)
    (held : List (Nat × Nat)) : Prop where
  space : Inv (L.pin addr) x.sys frames (held.map Krlmm.blkOf ++ (Obj.total x.krl.obj.blocks ++ rest))
  krl : Krlmm.Inv L addr (x.sys.blocks frames rest) x.krlmm x.uses held
  faithful : Faithful x.sys frames

theorem blocks_perm_pool (s : Sys A) (frames : List Nat) (held objs rest : List Blk) :
    (s.blocks frames (held ++ (objs ++ rest))).Perm (held ++ (objs ++ s.blocks frames rest)) := by
  unfold Sys.blocks
  apply List.perm_iff_count.mpr
  intro b
  simp only [List.count_append]
  omega

theorem Inv.withAlc {s : Sys A} {alc : A.State} {frames : List Nat} {rest rest' : List Blk} (h : Inv L s frames rest)
    (halc : L.Inv alc (s.blocks frames rest')) (haddr : A.msadscRetAddr alc = s.addr) :
    Inv L { s with alc := alc } frames rest' := by
  obtain ⟨howned, -⟩ := h.owned.env (t := { s with alc := alc }) rfl (fun _ => rfl) haddr halc fun _ _ _ _ => rfl
  exact ⟨howned, h.lists.congr (fun _ hb => hb) (fun _ => rfl) fun _ => rfl,
    h.counts.congr rfl (fun _ => rfl) (refs_congr rfl rfl), h.reached⟩

theorem Inv.store {s : Sys A} {frames : List Nat} {rest : List Blk} {i v : Nat} (h : Inv L s frames rest)
    (hfaith : Faithful s frames) (hi : i < s.mmnr) (hv : v < 2 ^ 47) (hne : s.look i v ≠ 0) (j w : Nat) :
    Inv L (s.store i v j w) frames rest ∧ Faithful (s.store i v j w) frames := by
  have he : Elsewhere L s (s.store i v j w) rest rest := by
    refine ⟨rfl, rfl, rfl, rfl, rfl, fun _ hl => hl, fun k hk msa hmsa => ?_⟩
    obtain ⟨frame, hframe, haddr⟩ := hfaith.mapped i hi v hv hne
    apply Function.update_of_ne
    rw [← haddr]
    exact h.owned.ne_table hframe hk hmsa
  obtain ⟨hinv, hlook⟩ := he.keeps h
  exact ⟨hinv, hfaith.congr rfl rfl hlook⟩

theorem KernelInv.step {x y : Kernel A} {act : KernelAct} (hstrict : L.Strict) (hlow : L.Low)
    (h : ∃ frames held, KernelInv L addr rest x frames held) (hstep : KernelStep image x act y) :
    ∃ frames held, KernelInv L addr rest y frames held := by
  obtain ⟨frames, held, h⟩ := h
  obtain ⟨hallowed, hstep⟩ := hstep
  cases act with
  | space c =>
    obtain ⟨-, hwrap, hallowed⟩ := hallowed
    obtain ⟨t, hrun, heq⟩ := Halt.bind_eq_ok hstep
    obtain rfl := Except.ok.inj heq
    obtain ⟨frames', hinv, hfaith⟩ := inv_step hwrap ⟨frames, h.space, fun _ => h.faithful⟩ (.of_run hallowed hrun)
    have hlive := hinv.owned.live
    exact ⟨frames', held, hinv, h.krl.withAlc (L.perm hlive.1 (blocks_perm_pool t ..)) hlive.2,
      hfaith fun _ _ _ hpin hb => hlow hpin.1 hb⟩
  | krl c =>
    obtain ⟨r, hcall, heq⟩ := Halt.bind_eq_ok hstep
    obtain rfl := Except.ok.inj heq
    obtain ⟨held', hinv⟩ := Krlmm.inv_step hstrict ⟨held, h.krl⟩ ⟨hallowed, hcall⟩
    have haddr : A.msadscRetAddr r.1.obj.alc = x.sys.addr := hinv.addr_eq.trans h.space.owned.live.2.symm
    refine ⟨frames, held', h.space.withAlc ⟨?_, hinv.addr_eq⟩ haddr, hinv, h.faithful.congr rfl haddr
      fun _ _ _ _ => rfl⟩
    exact L.perm hinv.alc (blocks_perm_pool x.sys ..).symm
  | store i v j w =>
    obtain rfl := Except.ok.inj hstep
    obtain ⟨hinv, hfaith⟩ := h.space.store h.faithful hallowed.1 hallowed.2.1 hallowed.2.2 j w
    exact ⟨frames, held, hinv, h.krl, hfaith⟩

/-- No address space and no memory in use yet, over the page allocator `alc`. -/
structure Kernel.Boots (x : Kernel A) (alc : A.State) : Prop where
  mmnr : x.sys.mmnr = 0
  box : x.sys.box = fun _ => kvmemcboxTInit
  mgr : x.sys.mgr = kvmemcboxmgrTInit
  alc : x.sys.alc = alc
  krl : ∃ kmsob, x.krl = Krlmm.initKrlmm x.sys.alc kmsob
  uses : x.uses = .none

theorem KernelInv.of_boots {x : Kernel A} {alc : A.State} (h : x.Boots alc) (halc : L.Inv alc rest) :
    KernelInv L (A.msadscRetAddr alc) rest x [] [] := by
  obtain ⟨kmsob, hkrl⟩ := h.krl
  obtain rfl := h.alc
  have hblocks : x.sys.blocks [] rest = rest := by
    unfold Sys.blocks
    rw [h.mmnr]
    rfl
  have hboot : Boot (L.pin x.sys.addr) x.sys rest := ⟨h.mmnr, h.box, h.mgr, halc, rfl⟩
  refine ⟨?_, ?_, hboot.faithful⟩
  · rw [hkrl]
    exact hboot.inv
  · have hkrlmm : x.krlmm = Krlmm.initKrlmm x.sys.alc kmsob := by
      unfold Kernel.krlmm
      rw [hkrl]
      rfl
    rw [hkrlmm, h.uses, hblocks]
    exact Krlmm.inv_initKrlmm kmsob halc

/-! ### Everything is apart -/

/-- The memory of `krlnew` in use, the pages that programs map and the page tables share no byte. -/
structure Separate (x : Kernel A) : Prop where
  memory : ∀ {a sz b sz'}, Krlmm.InUse x.uses a sz → Krlmm.InUse x.uses b sz' → a ≠ b → a + sz ≤ b ∨ b + sz' ≤ a
  page : ∀ {i v a sz}, i < x.sys.mmnr → v < 2 ^ 47 → x.sys.look i v ≠ 0 → Krlmm.InUse x.uses a sz →
    a + sz ≤ krnlMapVirtaddressStart + x.sys.look i v ∨ krnlMapVirtaddressStart + x.sys.look i v + 0x1000 ≤ a
  table : ∀ {i msa a sz}, i < x.sys.mmnr → msa ∈ (x.sys.mm i).msdMmu.tables → Krlmm.InUse x.uses a sz →
    a + sz ≤ vadr x.sys.addr msa ∨ vadr x.sys.addr msa + 0x1000 ≤ a
  user : ∀ {i v j msa}, i < x.sys.mmnr → v < 2 ^ 47 → x.sys.look i v ≠ 0 → j < x.sys.mmnr →
    msa ∈ (x.sys.mm j).msdMmu.tables → x.sys.addr msa ≠ x.sys.look i v

theorem KernelInv.separate {x : Kernel A} {frames : List Nat} {held : List (Nat × Nat)}
    (h : KernelInv L addr rest x frames held) : Separate x := by
  have haddr : x.sys.addr = addr := h.space.owned.live.2
  refine ⟨h.krl.inUse_apart, ?_, ?_, ?_⟩
  · intro i v a sz hi hv hne huse
    obtain ⟨msa, hmsa, hlook⟩ := h.faithful.mapped i hi v hv hne
    have hapart := h.krl.inUse_apart_rest huse (Sys.mem_blocks_of_frame hmsa)
    unfold vadr at hapart
    rw [← haddr, hlook] at hapart
    simpa using hapart
  · intro i msa a sz hi hmsa huse
    have hmem : msa ∈ x.sys.tables (List.range x.sys.mmnr) := List.mem_flatMap.mpr ⟨i, List.mem_range.mpr hi, hmsa⟩
    have hapart := h.krl.inUse_apart_rest huse (c := (msa, 1))
      (List.mem_append_left _ (List.mem_map_of_mem (List.mem_append_left _ hmem)))
    rw [haddr]
    simpa using hapart
  · intro i v j msa hi hv hne hj hmsa
    obtain ⟨frame, hframe, hlook⟩ := h.faithful.mapped i hi v hv hne
    rw [← hlook]
    exact h.space.owned.ne_table hframe hj hmsa

/-- **The kernel is out of the programs' reach**: over the page allocator in any state it reached, after every run of
allowed calls on the address spaces and of `krlnew` and `krldelete` and of stores of the programs, in any order. -/
theorem kernel_separate {b : Page.Boot} (hb : b.Mapped) (hlow : ∀ i < b.msanr, (b.msa i).pafPadrs < 2 ^ 28)
    {s₀ s : Memmgrob} (hboot : boot b = .ok s₀) {ops : List Page.Op} {used : Finset Blk}
    (hops : ∀ op ∈ ops, op.InArray b.msanr) (hpages : runHalt Page.step (s₀, ∅) ops = .ok (s, used))
    {x y : Kernel memmgrob} (hx : x.Boots s) {acts : List KernelAct} (hrun : Trace (KernelStep image) x acts y) :
    Separate y := by
  have hstrict := memmgrob_strict hb (of_boot hb.toWf hboot).1
  have hlow := memmgrob_low hb (of_boot hb.toWf hboot).1 hlow
  have hpool : (memmgrobLawful hb (of_boot hb.toWf hboot).1).Inv s used.toList :=
      (pool_of_run hb.toWf hboot hops hpages).2
  obtain ⟨frames, held, hinv⟩ := hrun.keeps (fun _ _ _ h hstep => KernelInv.step hstrict hlow h hstep)
    ⟨[], [], KernelInv.of_boots hx hpool⟩
  exact hinv.separate

theorem kernel_calls {t : Sys A} (cs : List Call) (hcs : ∀ c ∈ cs, c ≠ .other ∧ c.NoWrap) :
    ∀ {x : Kernel A}, runCalls image x.sys cs = .ok t →
      Trace (KernelStep image) x (cs.map .space) { x with sys := t } := by
  induction cs with
  | nil =>
    intro x h
    obtain rfl := Except.ok.inj h
    exact .nil x
  | cons c cs ih =>
    intro x h
    obtain ⟨mid, hmid, h⟩ := Halt.bind_eq_ok h
    simp only at hmid
    split_ifs at hmid with hallowed
    obtain ⟨hother, hwrap⟩ := hcs c List.mem_cons_self
    refine .cons (t := { x with sys := mid }) ⟨⟨hother, hwrap, hallowed⟩, Halt.bind_of_ok hmid _⟩ ?_
    exact ih (fun c hc => hcs c (List.mem_cons_of_mem _ hc)) h

def bootKernel (alc : A.State) : Kernel A :=
  ⟨bootSys alc, Krlmm.initKrlmm alc fun _ => ⟨0, 0, 0, 0, 0, [], [], 0, Obj.msomdcTInit, [], 0⟩, .none⟩

/-- A page of the stack beside two pages of the kernel's. -/
theorem kernel_separate_of_eight : ∃ s₀ y, boot (Thread.freePages 8) = .ok s₀ ∧
    Trace (KernelStep fun _ => 0) (bootKernel (A := memmgrob) s₀)
      (.krl (.new 0x2000) :: (faultAt 0x7fffffffe000).map .space) y ∧
    Krlmm.InUse y.uses 0xffff800003000000 0x2000 ∧ y.sys.look 0 0x7fffffffe000 ≠ 0 ∧ Separate y := by
  obtain ⟨_, hall, hseen⟩ := Halt.exists_of_map
    (x := boot (Thread.freePages 8) >>= fun s₀ =>
      (bootKernel (A := memmgrob) s₀).step (fun _ => 0) (.krl (.new 0x2000)) >>= fun x =>
      runCalls (fun _ => 0) x.sys (faultAt 0x7fffffffe000) >>= fun t => .ok (s₀, { x with sys := t }))
    (f := fun r : Memmgrob × Kernel memmgrob => decide (Krlmm.InUse r.2.uses 0xffff800003000000 0x2000 ∧
      r.2.sys.look 0 0x7fffffffe000 ≠ 0))
    (b := true) (by decide +kernel)
  obtain ⟨s₀, hboot, hall⟩ := Halt.bind_eq_ok hall
  obtain ⟨x, hnew, hall⟩ := Halt.bind_eq_ok hall
  obtain ⟨t, hcalls, hall⟩ := Halt.bind_eq_ok hall
  obtain rfl := Except.ok.inj hall
  have hrest := kernel_calls (faultAt 0x7fffffffe000)
    (fun c hc => ⟨by rintro rfl; simp [faultAt] at hc, faultAt_noWrap _ c hc⟩) hcalls
  have hfirst : KernelStep (fun _ => 0) (bootKernel (A := memmgrob) s₀) (.krl (.new 0x2000)) x := ⟨trivial, hnew⟩
  obtain ⟨huse, hlook⟩ := of_decide_eq_true hseen
  have hnone : ∀ op ∈ ([] : List Page.Op), op.InArray (Thread.freePages 8).msanr := by simp
  exact ⟨s₀, _, hboot, .cons hfirst hrest, huse, hlook,
    kernel_separate (Thread.freePages_mapped (by decide) (by decide))
    (by decide) hboot hnone rfl ⟨rfl, rfl, rfl, rfl, ⟨_, rfl⟩, rfl⟩ (.cons hfirst hrest)⟩

end Cosmos.Space
