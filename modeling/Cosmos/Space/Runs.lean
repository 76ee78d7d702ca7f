import Cosmos.Space.Calls

/-!
# Runs on all address spaces

From a system without address spaces, whatever new spaces, page faults on unmapped addresses, allocations and
deletions of ranges follow one another in any order, and whatever the rest of the system does in between, the
invariant of the calls holds as long as no range wraps, and the mappings are faithful if all pages lie below `2 ^ 40`
(`inv_of_run`).
-/

namespace Cosmos.Space

open Cosmos.Lib Cosmos.Page Cosmos.Mmu Cosmos.Vma Kmvarsdsc

variable {A : PageAlloc} {L : Lawful A} {image : Nat → UInt8} {s t : Sys A} {frames : List Nat} {rest rest' : List Blk}
  {i v start size : Nat} {newkmvd newbox : Option Nat}

/-! ### The rest of the system -/

/-- A step of the rest of the system: it may take and give back blocks of its own, and user programs may write the
pages they map, but nobody touches the tables, the boxes and the intervals. -/
structure Elsewhere (L : Lawful A) (s t : Sys A) (rest rest' : List Blk) : Prop where
  mm : t.mm = s.mm
  mmnr : t.mmnr = s.mmnr
  box : t.box = s.box
  mgr : t.mgr = s.mgr
  addr : t.addr = s.addr
  live : ∀ l, L.Inv s.alc (l ++ rest) → L.Inv t.alc (l ++ rest')
  mem : ∀ i < s.mmnr, ∀ msa ∈ (s.mm i).msdMmu.tables, t.mem (s.addr msa) = s.mem (s.addr msa)

theorem Elsewhere.keeps (he : Elsewhere L s t rest rest') (h : Inv L s frames rest) :
    Inv L t frames rest' ∧ ∀ j < s.mmnr, ∀ w < 2 ^ 47, t.look j w = s.look j w := by
  have hvma : t.vma = s.vma := by
    funext j
    rw [Sys.vma, he.mm]
    rfl
  obtain ⟨howned, hlook⟩ := h.owned.env he.mmnr (fun j => by rw [he.mm]) he.addr (he.live _ h.owned.live) he.mem
  refine ⟨⟨howned, h.lists.congr (fun b hb => he.mgr ▸ hb) (fun b => ?_) (fun b => by rw [he.box]),
    h.counts.congr he.mgr (fun b => by rw [he.box]) (refs_congr he.mmnr hvma), fun j hj => ?_⟩, hlook⟩
  · rw [Sys.list, he.box]
    rfl
  · rw [hvma]
    exact h.reached j (he.mmnr ▸ hj)

/-! ### Calls -/

/-- The calls on the address spaces; `other` is a step of the rest of the system. -/
inductive Call
  | create (mbPml4padr : Nat) (kmvdc heapkmvdc stackkmvdc : Option Nat) (thread : Option (Nat × Nat))
  | newVadrs (i start vassize vaslimits vastype : Nat) (newkmvd : Option Nat)
  | delVadrs (i start vassize : Nat) (newkmvd : Option Nat)
  | fault (i vadrs : Nat) (newkvmemcbox : Option Nat)
  | other

def Call.NoWrap : Call → Prop
  | .newVadrs _ start vassize _ _ _ | .delVadrs _ start vassize _ => start + vadszAlign vassize < 2 ^ 64
  | _ => True

/-- A call that returns, with the blocks of the rest of the system. Descriptors and boxes that are handed out are not
in use, the boot root table maps nothing between the kernel's halves, and faults are on unmapped addresses. -/
inductive Step (L : Lawful A) (image : Nat → UInt8) : Sys A × List Blk → Call → Sys A × List Blk → Prop
  | create {s t : Sys A} {rest : List Blk} {mbPml4padr : Nat} {kmvdc heapkmvdc stackkmvdc : Option Nat}
      {thread : Option (Nat × Nat)} :
      [kmvdc, heapkmvdc, stackkmvdc].Nodup → (∀ j, 1 ≤ j → j < 256 → s.mem mbPml4padr j = 0) →
      newMmadrsdsc s mbPml4padr kmvdc heapkmvdc stackkmvdc thread = .ok (true, t) →
      Step L image (s, rest) (.create mbPml4padr kmvdc heapkmvdc stackkmvdc thread) (t, rest)
  | newVadrs {s t : Sys A} {rest : List Blk} {i start vassize vaslimits vastype r : Nat} {newkmvd : Option Nat} :
      i < s.mmnr → FreshFor (s.vma i) newkmvd → vmaNewVadrs s i start vassize vaslimits vastype newkmvd = (r, t) →
      Step L image (s, rest) (.newVadrs i start vassize vaslimits vastype newkmvd) (t, rest)
  | delVadrs {s t : Sys A} {rest : List Blk} {i start vassize : Nat} {newkmvd : Option Nat} {rets : Bool} :
      i < s.mmnr → FreshFor (s.vma i) newkmvd → vmaDelVadrs s i start vassize newkmvd = .ok (rets, t) →
      Step L image (s, rest) (.delVadrs i start vassize newkmvd) (t, rest)
  | fault {s t : Sys A} {rest : List Blk} {i vadrs : Nat} {newkvmemcbox : Option Nat} {ret : Int} :
      i < s.mmnr → FreshBox s newkvmemcbox → s.look i vadrs = 0 →
      vmaMapFairvadrs image s i vadrs newkvmemcbox = .ok (ret, t) →
      Step L image (s, rest) (.fault i vadrs newkvmemcbox) (t, rest)
  | other {s t : Sys A} {rest rest' : List Blk} : Elsewhere L s t rest rest' → Step L image (s, rest) .other (t, rest')

theorem vmaDelVadrs_refused (h : Vma.vmaDelVadrs (s.vma i) start size newkmvd = delRefused (s.vma i)) :
    vmaDelVadrs s i start size newkmvd = .ok (false, s) := by
  unfold vmaDelVadrs
  rw [h]
  exact congrArg (fun s => Except.ok (false, s)) (s.setVma_self i)

theorem Owned.low (h : Owned L s frames rest) (hlow : L.Low) : ∀ msa ∈ frames, s.addr msa < 2 ^ 40 :=
  fun _ hmsa => hlow h.live (Sys.mem_blocks_of_frame hmsa)

/-- **What a deletion does.** -/
theorem Inv.delVadrs {rets : Bool} (h : Inv L s frames rest) (hi : i < s.mmnr) (hfresh : FreshFor (s.vma i) newkmvd)
    (hsum : start + vadszAlign size < 2 ^ 64) (hret : vmaDelVadrs s i start size newkmvd = .ok (rets, t)) :
    (rets = false ∧ t = s) ∨ (rets = true ∧ 0x1000 ≤ vadszAlign size ∧ start + vadszAlign size < 2 ^ 47 ∧
      cover (t.vma i) = (cover (s.vma i)).cut start (vadszAlign size) ∧
      ∃ frames', Deletes L rest i start (vadszAlign size) (Vma.vmaDelVadrs (s.vma i) start size newkmvd) s t frames' ∧
        (L.Low → Faithful s frames → Faithful t frames')) := by
  have hreached := h.reached i hi
  rcases vmaDelVadrs_cases hreached.toWf start size newkmvd hfresh hsum with
    hrefused | ⟨pre, k, post, hsplit, hmin, hstart, hend, hshape⟩
  · obtain ⟨rfl, rfl⟩ : false = rets ∧ s = t := by simpa using (vmaDelVadrs_refused hrefused).symm.trans hret
    exact .inl ⟨rfl, rfl⟩
  · have hkend := (hreached.inside k (by rw [hsplit.eq]; simp)).2
    rw [hreached.isalcend_eq] at hkend
    have hlt : start + vadszAlign size < 2 ^ 47 := lt_of_le_of_lt (hend.trans hkend) (by decide)
    obtain ⟨t', frames', heq, hdel, hfaith⟩ := vmaDelVadrs_spec
      (J := fun s' frames' => L.Low → Faithful s frames → Faithful s' frames')
      (fun _ _ _ hnr hlook _ haddr hJ hlow hf => (hJ hlow hf).congr hnr haddr fun j _ w _ => hlook j w) h hi hfresh hsum
      hsplit hend hshape (fun _ hf => hf) fun w _ hw _ s₁ frames₁ s₂ frames₂ hnr _ howned _ hJ hu hlow hf =>
        (hJ hlow hf).unmaps (howned.low hlow) (hnr ▸ hi) (by omega) howned hu
    obtain ⟨rfl, rfl⟩ : true = rets ∧ t' = t := by simpa using heq.symm.trans hret
    refine .inr ⟨rfl, hmin, hlt, ?_, frames', hdel, hfaith⟩
    rw [hdel.vma, if_pos rfl]
    exact hshape.cover_eq hreached.toWf hsplit hstart hend

theorem inv_step {c : Call} {s t : Sys A × List Blk} (hc : c.NoWrap)
    (h : ∃ frames, Inv L s.1 frames s.2 ∧ (L.Low → Faithful s.1 frames)) (hstep : Step L image s c t) :
    ∃ frames, Inv L t.1 frames t.2 ∧ (L.Low → Faithful t.1 frames) := by
  obtain ⟨frames, h, hfaith⟩ := h
  cases hstep with
  | create hd hboot hret =>
    obtain ⟨d₁, d₂, d₃, msa, alc, rfl, rfl, rfl, rfl, haddr, hinv, hend⟩ := newMmadrsdsc_cases h.owned.live hret
    have hnodup : [d₁, d₂, d₃].Nodup := by simpa using hd
    obtain ⟨hinv', hlook⟩ := h.added hnodup hboot haddr hinv hend
    exact ⟨frames, hinv', fun hlow => (hfaith hlow).added rfl haddr hlook⟩
  | newVadrs hi hfresh heq =>
    refine ⟨frames, h.newVadrs hi hfresh hc heq, fun hlow => ?_⟩
    obtain ⟨-, rfl⟩ := Prod.mk.inj heq
    exact (hfaith hlow).congr rfl rfl fun j _ w _ => Sys.look_setVma ..
  | delVadrs hi hfresh hret =>
    rcases h.delVadrs hi hfresh hc hret with ⟨-, rfl⟩ | ⟨-, -, -, -, frames', hdel, hfaith'⟩
    · exact ⟨frames, h, hfaith⟩
    · exact ⟨frames', hdel.inv, fun hlow => hfaith' hlow (hfaith hlow)⟩
  | fault hi hfresh hzero hret =>
    rcases vmaMapFairvadrs_cases h hi hfresh hret with
      ⟨-, -, rfl⟩ | ⟨pre, k, post, b, s₁, hv, -, -, -, hattached, hinv, -, ⟨-, hrefuses⟩ | ⟨-, msa, t₁, hmaps, hfull⟩⟩
    · exact ⟨frames, h, hfaith⟩
    · refine ⟨frames, hinv.refuses hrefuses,
        fun hlow => (hfaith hlow).congr (hrefuses.quiet.mmnr.trans hattached.mmnr_eq)
        (hrefuses.quiet.addr.trans hattached.addr_eq) fun j hj w hw => ?_⟩
      rw [hrefuses.look j (by rw [hattached.mmnr_eq]; exact hj) w hw, hattached.look_eq]
    · obtain ⟨hinv', hquiet, -, -, hlook, -⟩ := hinv.maps (hattached.mmnr_eq ▸ hi) hv hmaps hfull
      refine ⟨msa :: frames, hinv', fun hlow => ?_⟩
      have hfaith₁ := (hfaith hlow).congr hattached.mmnr_eq hattached.addr_eq fun j _ w _ => hattached.look_eq j w
      refine (hfaith₁.maps hmaps).congr (hquiet.mmnr.trans hmaps.quiet.mmnr.symm)
        (hquiet.addr.trans hmaps.quiet.addr.symm) fun j hj w hw => ?_
      rw [hmaps.quiet.mmnr] at hj
      rw [hlook j hj w hw, hmaps.look j hj w hw]
  | other he =>
    obtain ⟨hinv, hlook⟩ := he.keeps h
    exact ⟨frames, hinv, fun hlow => (hfaith hlow).congr he.mmnr he.addr hlook⟩

/-- No address space yet, no box in use. -/
structure Boot (L : Lawful A) (s : Sys A) (rest : List Blk) : Prop where
  mmnr : s.mmnr = 0
  box : s.box = fun _ => kvmemcboxTInit
  mgr : s.mgr = kvmemcboxmgrTInit
  live : L.Inv s.alc rest

theorem Boot.inv (h : Boot L s rest) : Inv L s [] rest := by
  have hnone : ∀ i, ¬i < s.mmnr := fun i hi => by simp [h.mmnr] at hi
  have hblocks : s.blocks [] rest = rest := by
    unfold Sys.blocks
    rw [h.mmnr]
    rfl
  have hrefs : ∀ b, s.refs b = 0 := fun b => by rw [Sys.refs, h.mmnr, Finset.range_zero, Finset.sum_empty]
  have hhead : s.mgr.kbmKmbhead = [] := by rw [h.mgr]; rfl
  refine ⟨⟨?_, fun i hi => absurd hi (hnone i)⟩, ⟨?_, ?_, ?_, ?_⟩, ⟨?_, fun b => ?_, fun b => ?_⟩,
    fun i hi => absurd hi (hnone i)⟩
  · rw [hblocks]
    exact h.live
  · simp [hhead]
  · simp [hhead]
  · simp [hhead]
  · simp [hhead]
  · rw [h.mgr]
    exact List.nodup_nil
  · rw [h.box, hrefs]
    rfl
  · rw [hhead, hrefs]
    simp

theorem Boot.faithful (h : Boot L s rest) : Faithful s [] := by
  have hnone : ∀ i, ¬i < s.mmnr := fun i hi => by simp [h.mmnr] at hi
  exact ⟨fun i hi => absurd hi (hnone i), fun i hi => absurd hi (hnone i)⟩

/-- A state that calls on address spaces lead to from a system without one. -/
structure Ran (L : Lawful A) (image : Nat → UInt8) (cs : List Call) (s : Sys A) (rest : List Blk) : Prop where
  run : ∃ s₀ rest₀, Boot L s₀ rest₀ ∧ Trace (Step L image) (s₀, rest₀) cs (s, rest)

theorem inv_of_run {cs : List Call} (h : Ran L image cs s rest) (hcs : ∀ c ∈ cs, c.NoWrap) :
    ∃ frames, Inv L s frames rest ∧ (L.Low → Faithful s frames) := by
  obtain ⟨s₀, rest₀, hboot, hrun⟩ := h.run
  exact hrun.inv (J := fun s => ∃ frames, Inv L s.1 frames s.2 ∧ (L.Low → Faithful s.1 frames))
    (fun _ _ _ hc h hstep => inv_step hc h hstep) hcs ⟨[], hboot.inv, fun _ => hboot.faithful⟩

/-! ### Runs that can be evaluated -/

def Call.Allowed (s : Sys A) : Call → Prop
  | .create mbPml4padr kmvdc heapkmvdc stackkmvdc _ =>
    [kmvdc, heapkmvdc, stackkmvdc].Nodup ∧ ∀ j < 256, 1 ≤ j → s.mem mbPml4padr j = 0
  | .newVadrs i _ _ _ _ newkmvd | .delVadrs i _ _ newkmvd => i < s.mmnr ∧ FreshFor (s.vma i) newkmvd
  | .fault i vadrs newkvmemcbox => i < s.mmnr ∧ FreshBox s newkvmemcbox ∧ s.look i vadrs = 0
  | .other => True

instance (s : Sys A) : (c : Call) → Decidable (c.Allowed s)
  | .create .. => inferInstanceAs (Decidable (_ ∧ _))
  | .newVadrs .. => inferInstanceAs (Decidable (_ ∧ _))
  | .delVadrs .. => inferInstanceAs (Decidable (_ ∧ _))
  | .fault .. => inferInstanceAs (Decidable (_ ∧ _ ∧ _))
  | .other => isTrue trivial

def Call.run (image : Nat → UInt8) (s : Sys A) : Call → Halt (Sys A)
  | .create mbPml4padr kmvdc heapkmvdc stackkmvdc thread =>
    newMmadrsdsc s mbPml4padr kmvdc heapkmvdc stackkmvdc thread >>= fun ⟨rets, s⟩ => if rets then .ok s else .error ""
  | .newVadrs i start vassize vaslimits vastype newkmvd =>
    .ok (vmaNewVadrs s i start vassize vaslimits vastype newkmvd).2
  | .delVadrs i start vassize newkmvd => vmaDelVadrs s i start vassize newkmvd >>= fun ⟨_, s⟩ => .ok s
  | .fault i vadrs newkvmemcbox => vmaMapFairvadrs image s i vadrs newkvmemcbox >>= fun ⟨_, s⟩ => .ok s
  | .other => .ok s

theorem Step.of_run {c : Call} (hok : c.Allowed s) (hrun : c.run image s = .ok t) :
    Step L image (s, rest) c (t, rest) := by
  cases c with
  | create mbPml4padr kmvdc heapkmvdc stackkmvdc thread =>
    obtain ⟨⟨rets, s₁⟩, hnew, hrun⟩ := Halt.bind_eq_ok hrun
    simp only at hrun
    split_ifs at hrun with hrets
    obtain rfl := Except.ok.inj hrun
    exact .create hok.1 (fun j hlo hhi => hok.2 j hhi hlo) (hrets ▸ hnew)
  | newVadrs i start vassize vaslimits vastype newkmvd =>
    obtain rfl := Except.ok.inj hrun
    exact .newVadrs hok.1 hok.2 rfl
  | delVadrs i start vassize newkmvd =>
    obtain ⟨⟨rets, s₁⟩, hdel, hrun⟩ := Halt.bind_eq_ok hrun
    obtain rfl := Except.ok.inj hrun
    exact .delVadrs hok.1 hok.2 hdel
  | fault i vadrs newkvmemcbox =>
    obtain ⟨⟨ret, s₁⟩, hmap, hrun⟩ := Halt.bind_eq_ok hrun
    obtain rfl := Except.ok.inj hrun
    exact .fault hok.1 hok.2.1 hok.2.2 hmap
  | other =>
    obtain rfl := Except.ok.inj hrun
    exact .other ⟨rfl, rfl, rfl, rfl, rfl, fun _ h => h, fun _ _ _ _ => rfl⟩

def bootSys (alc : A.State) : Sys A :=
  ⟨fun _ => ⟨mmudscTInit, virmemadrsTInit, none⟩, 0, fun _ => kvmemcboxTInit, kvmemcboxmgrTInit, alc, fun _ _ => 0⟩

def runCalls (image : Nat → UInt8) (s : Sys A) (cs : List Call) : Halt (Sys A) :=
  runHalt (fun s c => if c.Allowed s then c.run image s else .error "") s cs

theorem trace_of_runCalls {cs : List Call} (hrun : runCalls image s cs = .ok t) :
    Trace (Step L image) (s, rest) cs (t, rest) := by
  have htrace := Trace.of_runHalt cs hrun
  clear hrun
  induction htrace with
  | nil s => exact .nil _
  | cons hstep _ ih => exact .cons (.of_run hstep.1 hstep.2) ih

theorem ran_of_runCalls {alc : A.State} {cs : List Call} (hlive : L.Inv alc rest)
    (hrun : runCalls image (bootSys alc) cs = .ok s) : Ran L image cs s rest :=
  ⟨bootSys alc, rest, ⟨rfl, rfl, rfl, hlive⟩, trace_of_runCalls hrun⟩

end Cosmos.Space
