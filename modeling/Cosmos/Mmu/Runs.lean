import Cosmos.Mmu.Map

/-!
# Runs on the tables of one address space

`hal_mmu_init` makes a root table that maps no user page. From there on, whatever `hal_mmu_transform` and
`hal_mmu_untransform` do and whatever the other users of the page allocator do in between, the tables stay
owned, so every mapping and unmapping updates `lookup` as a finite map.
-/

namespace Cosmos.Mmu

open Cosmos.Lib Cosmos.Page Function

variable {A : PageAlloc} {L : Lawful A} {st st' : St A} {rest : List Blk}

/-! ### `hal_mmu_init` -/

section Init

variable {pml4 msa : Nat}

/-- The state after `hal_mmu_init` got the page of `msa`, which first is zeroed, then filled from the boot
root table. -/
def St.initRoot (st : St A) (alc : A.State) (pml4 msa : Nat) : St A where
  mmu := { mmudscTInit.add .t msa with
    mudTdirearr := krnlMapVirtaddressStart + st.addr msa
    mudCr3 := st.addr msa }
  alc := alc
  mem := update st.mem (st.addr msa)
    (update (update st.mem (st.addr msa) (fun _ => 0) pml4) 0 0)

theorem halMmuInit_cases {rets : Bool} (hmmu : st.mmu = mmudscTInit) (hinv : L.Inv st.alc rest)
    (h : halMmuInit pml4 st = .ok (rets, st')) :
    (rets = false ∧ ∃ alc, st' = { st with alc := alc } ∧ A.msadscRetAddr alc = st.addr ∧ L.Inv alc rest) ∨
    (rets = true ∧ ∃ msa alc, st' = st.initRoot alc pml4 msa ∧ A.msadscRetAddr alc = st.addr ∧
      L.Inv alc ((msa, 1) :: rest) ∧ st.addr msa + 0x1000 ≤ krnlMapPhyaddressEnd) := by
  rcases newDirearr_spec .t hinv with ⟨alc, heq, haddr, hinv⟩ | ⟨msa, alc, heq, haddr, hinv, hend⟩
  · rw [halMmuInit, mmuNewTdirearr, Halt.bind_of_ok heq] at h
    obtain ⟨rfl, rfl⟩ : false = rets ∧ { st with alc := alc } = st' := by simpa using h
    exact .inl ⟨rfl, alc, rfl, haddr, hinv⟩
  · have hv : A.msadscRetVaddr alc msa = .ok (krnlMapVirtaddressStart + st.addr msa) := by
      rw [PageAlloc.msadscRetVaddr, haddr, phyadrToViradr_ok (by omega)]
    have hrd : ∀ st : St A, st.rd (krnlMapVirtaddressStart + pml4) = st.mem pml4 := fun st =>
      funext fun j => st.rd_table pml4 j
    rw [halMmuInit, mmuNewTdirearr, Halt.bind_of_ok heq] at h
    by_cases hpml4 : pml4 < krnlMapPhyaddressEnd
    · simp only [hv, Halt.ok_bind, phyadrToViradr_ok hpml4, St.fill_table, hrd,
        viradrToPhyadr_ok (show st.addr msa < _ by omega), St.wr_table, update_self, update_idem,
        hmmu] at h
      obtain ⟨rfl, rfl⟩ : true = rets ∧ st.initRoot alc pml4 msa = st' := by
        simpa [St.initRoot] using h
      exact .inr ⟨rfl, msa, alc, rfl, haddr, hinv, hend⟩
    · simp [hv, phyadrToViradr, Nat.le_of_not_lt hpml4] at h

theorem owns_initRoot {alc : A.State} (haddr : A.msadscRetAddr alc = st.addr) (hinv : L.Inv alc ((msa, 1) :: rest))
    (hend : st.addr msa + 0x1000 ≤ krnlMapPhyaddressEnd) (hkrnl : ∀ j, 1 ≤ j → j < 256 → st.mem pml4 j = 0) :
    Owns L (st.initRoot alc pml4 msa) rest 0 ∧ ∀ v, UserHalf v → lookup (st.initRoot alc pml4 msa) v = 0 := by
  have hst : (st.initRoot alc pml4 msa).addr = st.addr := haddr
  have hroot : (st.initRoot alc pml4 msa).root = st.addr msa := Nat.add_sub_cancel_left _ _
  have hpos : 0 < st.addr msa := haddr ▸ (L.frame hinv _ List.mem_cons_self).2.1
  have hlay0 : ∀ a, a ∈ (st.initRoot alc pml4 msa).lay 0 ↔ a = st.addr msa := by
    intro a
    have hhead : (st.initRoot alc pml4 msa).mmu.mudDirhead (lvl 0) = [msa] := rfl
    rw [St.lay, Set.mem_ofPred_eq, hhead, hst]
    simp [eq_comm]
  have hlay : ∀ k, 1 ≤ k → k ≤ 3 → ∀ a, a ∉ (st.initRoot alc pml4 msa).lay k := by
    intro k hk hk3 a
    have hlv : lvl k ≠ .t := fun heq => by have := lvl_inj hk3 (by omega : 0 ≤ 3) heq; omega
    simp [St.lay, St.initRoot, Mmudsc.add, mmudscTInit, update_of_ne hlv]
  have hslot : ∀ j < 256, (st.initRoot alc pml4 msa).mem (st.addr msa) j = 0 := by
    intro j hj
    simp only [St.initRoot, update_self]
    by_cases hj0 : j = 0
    · rw [hj0, update_self]
    · rw [update_of_ne hj0]
      by_cases hp : pml4 = st.addr msa
      · rw [hp, update_self]
      · rw [update_of_ne hp]
        exact hkrnl j (by omega) hj
  have hzero : ∀ k ≤ 3, ∀ a ∈ (st.initRoot alc pml4 msa).lay k, ∀ j < bnd k,
      (st.initRoot alc pml4 msa).mem a j = 0 := by
    intro k hk a ha j hj
    obtain rfl : k = 0 := by
      by_contra hk0
      exact hlay k (by omega) hk a ha
    rw [(hlay0 a).mp ha]
    exact hslot j hj
  refine ⟨⟨hinv, ?_, ⟨msa, rfl, by rw [hst]; rfl⟩, ⟨?_, ?_, ?_, ?_, ?_, ?_⟩, ?_, ?_, ?_⟩, fun v hv => ?_⟩
  · intro m hm
    obtain rfl : m = msa := by simpa [Mmudsc.tables, St.initRoot, Mmudsc.add, mmudscTInit] using hm
    rw [hst]
    exact hend
  · intro k hk a ha
    by_cases hk0 : k = 0
    · subst hk0
      rw [(hlay0 a).mp ha]
      exact hpos.ne'
    · exact absurd ha (hlay k (by omega) hk a)
  · intro k hk k' hk' a ha ha'
    by_contra hne
    by_cases hk0 : k = 0
    · exact hlay k' (by omega) hk' a ha'
    · exact hlay k (by omega) hk a ha
  · exact fun k hk a ha j hj => .inl (hzero k hk.le a ha j hj)
  · exact fun k hk c hc => absurd hc (hlay (k + 1) (by omega) hk c)
  · intro k hk a ha j hj a' _ j' _ hne
    rw [hzero k hk.le a ha j hj, hwFrame_zero] at hne
    exact absurd rfl hne
  · exact fun k hk c hc => absurd hc (hlay (k + 1) (by omega) hk c)
  · exact fun k hk a ha j hj => .inl (hzero k hk a ha j hj)
  · exact fun a ha => absurd ha (hlay 3 (by omega) le_rfl a)
  · intro lv
    cases lv <;> rfl
  · rw [lookup, hroot]
    refine Radix.Forest.walk_of_eq 3 ?_
    show hwFrame ((st.initRoot alc pml4 msa).mem (st.addr msa) (mmuTdireIndex v)) = 0
    rw [hslot _ hv, hwFrame_zero]

end Init

/-! ### Steps -/

/-- What the other users of the page allocator do: the tables and their pages stay as they are. -/
structure Others (L : Lawful A) (s t : St A × List Blk) : Prop where
  mmu : t.1.mmu = s.1.mmu
  addr : t.1.addr = s.1.addr
  inv : L.Inv t.1.alc (s.1.mmu.tables.map (·, 1) ++ t.2)
  mem : ∀ msa ∈ s.1.mmu.tables, t.1.mem (s.1.addr msa) = s.1.mem (s.1.addr msa)

namespace Others

variable {s t : St A × List Blk}

theorem lay_eq (h : Others L s t) : t.1.lay = s.1.lay := by
  funext k
  simp only [St.lay, h.addr, h.mmu]

theorem mem_lay (h : Others L s t) : ∀ k ≤ 3, ∀ a ∈ s.1.lay k, t.1.mem a = s.1.mem a := by
  rintro k - a ⟨msa, hmsa, rfl⟩
  exact h.mem msa (Mmudsc.mem_tables hmsa)

theorem root_eq (h : Others L s t) : t.1.root = s.1.root := by
  rw [St.root, h.mmu, St.root]

theorem owns {e : Nat} (h : Others L s t) (hown : Owns L s.1 s.2 e) : Owns L t.1 t.2 e where
  inv := h.mmu ▸ h.inv
  below := by
    rw [h.mmu, h.addr]
    exact hown.below
  root := by
    rw [h.mmu, h.addr]
    exact hown.root
  forest := h.lay_eq ▸ hown.forest.congr h.mem_lay
  entryOk := by
    intro k hk a ha
    rw [h.lay_eq] at ha
    rw [h.mem_lay k hk a ha]
    exact hown.entryOk k hk a ha
  leaf := by
    intro a ha
    rw [h.lay_eq] at ha
    rw [h.mem_lay 3 le_rfl a ha]
    exact hown.leaf a ha
  count := h.mmu ▸ hown.count

theorem lookup_eq {e v : Nat} (h : Others L s t) (hown : Owns L s.1 s.2 e) (hv : UserHalf v) :
    lookup t.1 v = lookup s.1 v := by
  rw [lookup, h.root_eq]
  exact hown.forest.walk_congr hwFrame_zero hv.path h.mem_lay 4 0 _ le_rfl hown.root_mem

end Others

/-- A call on the tables, or a step of the other users of the page allocator. -/
inductive Op where
  | transform (vadrs padrs flags : Nat)
  | untransform (vadrs : Nat)
  | other

def Op.User : Op → Prop
  | .transform vadrs padrs flags => UserHalf vadrs ∧ MapArgs padrs flags
  | .untransform vadrs => UserHalf vadrs
  | .other => True

def Step (L : Lawful A) (s : St A × List Blk) : Op → St A × List Blk → Prop
  | .transform vadrs padrs flags, t => (∃ rets, halMmuTransform s.1 vadrs padrs flags = .ok (rets, t.1)) ∧ t.2 = s.2
  | .untransform vadrs, t => (∃ padrs, halMmuUntransform s.1 vadrs = .ok (padrs, t.1)) ∧ t.2 = s.2
  | .other, t => Others L s t

/-- The tables are owned and the kernel's half of the root at `root` is `words`. -/
structure Sound (L : Lawful A) (root : Nat) (words : Nat → Nat) (s : St A × List Blk) : Prop where
  owns : Owns L s.1 s.2 0
  root_eq : s.1.root = root
  kernel : ∀ j, 256 ≤ j → s.1.mem root j = words j

section Steps

variable {root : Nat} {words : Nat → Nat}

theorem Sound.of_outside (h : Sound L root words (st, rest)) (hown : Owns L st' rest 0) (hout : Outside st st' rest) :
    Sound L root words (st', rest) where
  owns := hown
  root_eq := hout.root_eq.trans h.root_eq
  kernel := by
    intro j hj
    have hroot : st.root = root := h.root_eq
    rw [← h.kernel j hj, ← hroot]
    exact hout.kernel j hj

theorem sound_step {s t : St A × List Blk} {op : Op} (hop : op.User) (h : Sound L root words s)
    (hstep : Step L s op t) :
    Sound L root words t := by
  obtain ⟨st, rest⟩ := s
  cases op with
  | transform v p flags =>
    obtain ⟨⟨rets, heq⟩, hrest⟩ := hstep
    obtain ⟨rets', st', heq', hown, hout, -⟩ := halMmuTransform_spec h.owns hop.1 hop.2
    obtain ⟨rfl, rfl⟩ : rets' = rets ∧ st' = t.1 := by simpa using heq'.symm.trans heq
    obtain ⟨st', rest'⟩ := t
    obtain rfl : rest' = rest := hrest
    exact h.of_outside hown hout
  | untransform v =>
    obtain ⟨⟨padrs, heq⟩, hrest⟩ := hstep
    obtain ⟨st', heq', hown, hout, -⟩ := halMmuUntransform_spec h.owns hop
    obtain ⟨-, rfl⟩ : bits 40 (lookup st v) = padrs ∧ st' = t.1 := by simpa using heq'.symm.trans heq
    obtain ⟨st', rest'⟩ := t
    obtain rfl : rest' = rest := hrest
    exact h.of_outside hown hout
  | other =>
    have hothers : Others L (st, rest) t := hstep
    refine ⟨hothers.owns h.owns, hothers.root_eq.trans h.root_eq, fun j hj => ?_⟩
    rw [← h.kernel j hj, ← h.root_eq, hothers.mem_lay 0 (by omega) _ h.owns.root_mem]

/-- A run after `hal_mmu_init`. -/
structure Ran (L : Lawful A) (pml4 : Nat) (st₀ st₁ st : St A) (rest : List Blk) : Prop where
  fresh : st₀.mmu = mmudscTInit
  /-- The slots between the kernel's halves are empty in the boot root table. -/
  boot : ∀ j, 1 ≤ j → j < 256 → st₀.mem pml4 j = 0
  init : halMmuInit pml4 st₀ = .ok (true, st₁)
  run : ∃ rest₀ ops, L.Inv st₀.alc rest₀ ∧ Trace (Step L) (st₁, rest₀) ops (st, rest) ∧ ∀ op ∈ ops, op.User

theorem Ran.lookup_init {pml4 : Nat} {st₀ st₁ : St A} (h : Ran L pml4 st₀ st₁ st rest) (v : Nat) (hv : UserHalf v) :
    lookup st₁ v = 0 := by
  obtain ⟨rest₀, ops, hinv, -, -⟩ := h.run
  rcases halMmuInit_cases h.fresh hinv h.init with ⟨hfalse, -⟩ | ⟨-, msa, alc, rfl, haddr, hinv', hend⟩
  · simp at hfalse
  · exact (owns_initRoot haddr hinv' hend h.boot).2 v hv

theorem Ran.sound {pml4 : Nat} {st₀ st₁ : St A} (h : Ran L pml4 st₀ st₁ st rest) :
    Sound L st₁.root (st₁.mem st₁.root) (st, rest) := by
  obtain ⟨rest₀, ops, hinv, htrace, hops⟩ := h.run
  rcases halMmuInit_cases h.fresh hinv h.init with ⟨hfalse, -⟩ | ⟨-, msa, alc, rfl, haddr, hinv', hend⟩
  · simp at hfalse
  · exact htrace.inv (fun _ _ _ hop hs hstep => sound_step hop hs hstep) hops
      ⟨(owns_initRoot haddr hinv' hend h.boot).1, rfl, fun _ _ => rfl⟩

/-- **The tables refine a finite map**: after every run, a mapping that returns `TRUE` sets its page and one that
returns `FALSE` sets none, an unmapping removes its page and returns its frame exactly when that is below `2 ^ 40`, and
the kernel's half of the root is the one that `hal_mmu_init` copied. -/
theorem hal_mmu_refines_map {pml4 : Nat} {st₀ st₁ : St A} (h : Ran L pml4 st₀ st₁ st rest) :
    (∀ v p flags, UserHalf v → MapArgs p flags → ∃ rets st', halMmuTransform st v p flags = .ok (rets, st') ∧
      (∀ w, UserHalf w → lookup st' w = if rets = true ∧ pageOf w = pageOf v then p else lookup st w) ∧
      ∀ j, 256 ≤ j → st'.mem st'.root j = st.mem st.root j) ∧
    (∀ v, UserHalf v → ∃ padrs st', halMmuUntransform st v = .ok (padrs, st') ∧
      (padrs = lookup st v ↔ lookup st v < 2 ^ 40) ∧
      (∀ w, UserHalf w → lookup st' w = if pageOf w = pageOf v then 0 else lookup st w) ∧
      ∀ j, 256 ≤ j → st'.mem st'.root j = st.mem st.root j) ∧
    (∀ v, UserHalf v → lookup st₁ v = 0) ∧
    ∀ j, 256 ≤ j → st.mem st.root j = st₁.mem st₁.root j := by
  have hsound := h.sound
  have hown : Owns L st rest 0 := hsound.owns
  refine ⟨fun v p flags hv hargs => ?_, fun v hv => ?_, h.lookup_init, fun j hj => ?_⟩
  · obtain ⟨rets, st', heq, -, hout, hlookup⟩ := halMmuTransform_spec hown hv hargs
    refine ⟨rets, st', heq, hlookup, fun j hj => ?_⟩
    rw [hout.root_eq, hout.kernel j hj]
  · obtain ⟨st', heq, -, hout, hlookup⟩ := halMmuUntransform_spec hown hv
    refine ⟨_, st', heq, bits_eq_iff, hlookup, fun j hj => ?_⟩
    rw [hout.root_eq, hout.kernel j hj]
  · rw [show st.root = st₁.root from hsound.root_eq]
    exact hsound.kernel j hj

def emptySt : St bump := ⟨mmudscTInit, (0 : Nat), fun _ _ => 0⟩

theorem ran_map {st₁ st : St bump} {v p flags : Nat} {rets : Bool} (hinit : halMmuInit 0 emptySt = .ok (true, st₁))
    (hv : UserHalf v) (hargs : MapArgs p flags) (hmap : halMmuTransform st₁ v p flags = .ok (rets, st)) :
    Ran bumpLawful 0 emptySt st₁ st [] := by
  have hinv : bumpLawful.Inv (0 : Nat) [] := ⟨by decide, by simp, by simp⟩
  have hstep : Step bumpLawful (st₁, []) (.transform v p flags) (st, []) := ⟨⟨rets, hmap⟩, rfl⟩
  refine ⟨rfl, fun _ _ _ => rfl, hinit, [], [.transform v p flags], hinv, .cons hstep (.nil _), fun op hop => ?_⟩
  obtain rfl := List.mem_singleton.mp hop
  exact ⟨hv, hargs⟩

/-- A first mapping, and what unmapping it then returns. -/
theorem hal_mmu_refines_map_first : ∃ st₁ st st' : St bump, halMmuInit 0 emptySt = .ok (true, st₁) ∧
    halMmuTransform st₁ 0x1000 0x5000 7 = .ok (true, st) ∧ lookup st 0x1000 = 0x5000 ∧
    halMmuUntransform st 0x1000 = .ok (lookup st 0x1000, st') ∧ ∀ w, UserHalf w →
      lookup st' w = if pageOf w = pageOf 0x1000 then 0 else lookup st w := by
  obtain ⟨st₁, st, hinit, hmap, hlookup⟩ : ∃ st₁ st : St bump, halMmuInit 0 emptySt = .ok (true, st₁) ∧
      halMmuTransform st₁ 0x1000 0x5000 7 = .ok (true, st) ∧ lookup st 0x1000 = 0x5000 :=
    ⟨_, _, rfl, rfl, by decide⟩
  have hran := ran_map hinit (by decide) ⟨by decide, by decide, by decide, by decide, by decide⟩ hmap
  obtain ⟨padrs, st', heq, hpadrs, hremove, -⟩ := (hal_mmu_refines_map hran).2.1 0x1000 (by decide)
  rw [hpadrs.mpr (by rw [hlookup]; decide)] at heq
  exact ⟨st₁, st, st', hinit, hmap, hlookup, heq, hremove⟩

/-- A frame above `2 ^ 40`: the processor reads it from the entry, and the unmapping returns another one. -/
theorem untransform_cuts_frame : ∃ st₁ st st' : St bump, halMmuInit 0 emptySt = .ok (true, st₁) ∧
    UserHalf 0x1000 ∧ MapArgs 0x10000005000 7 ∧ halMmuTransform st₁ 0x1000 0x10000005000 7 = .ok (true, st) ∧
    lookup st 0x1000 = 0x10000005000 ∧ halMmuUntransform st 0x1000 = .ok (0x5000, st') := by
  obtain ⟨st₁, st, hinit, hmap, hlookup⟩ : ∃ st₁ st : St bump, halMmuInit 0 emptySt = .ok (true, st₁) ∧
      halMmuTransform st₁ 0x1000 0x10000005000 7 = .ok (true, st) ∧ lookup st 0x1000 = 0x10000005000 :=
    ⟨_, _, rfl, rfl, by decide⟩
  have hargs : MapArgs 0x10000005000 7 := ⟨by decide, by decide, by decide, by decide, by decide⟩
  obtain ⟨st', heq, -⟩ := halMmuUntransform_spec (ran_map hinit (by decide) hargs hmap).sound.owns
    (show UserHalf 0x1000 by decide)
  rw [hlookup, show bits 40 0x10000005000 = 0x5000 by decide] at heq
  exact ⟨st₁, st, st', hinit, by decide, hargs, hmap, hlookup, heq⟩

end Steps

end Cosmos.Mmu
