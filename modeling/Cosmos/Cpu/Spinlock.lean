import Cosmos.Lib.Run
import Mathlib.Algebra.Order.BigOperators.Group.Finset
import Mathlib.Data.Fintype.BigOperators

/-!
# Spinlocks (`hal/x86/halcpuctrl.c`, `kernel/krlspinlock.c`)

The assembly of `knl_spinlock_lock`, `knl_spinlock_cli`, `knl_spinlock_unlock` and `knl_spinunlock_sti`, one instruction
after another, on any number of processors. A processor takes an interrupt between any two instructions while `IF` is
set, and the handler may use the same lock: the frames of a processor are the code it runs and what that interrupted.
The instructions of different processors come in any order.

At most one frame is in its critical section, and the lock is set exactly while one is (`spinlock_exclusive`). With
`knl_spinlock_cli` the frame that holds the lock is never an interrupted one, so the code that runs can always give it
back (`spinlock_freed`).
-/

namespace Cosmos.Cpu

open Cosmos.Lib Function

/-- The flags of the processor that the code uses. -/
structure Flags where
  zf : Bool
  ifl : Bool
  deriving DecidableEq, Repr

/-- The instructions of the four functions, by what they are, and the code before, between and after them. -/
inductive Pc
  | outside
  | pushf | cli | pop
  | xchg | cmp | jnz | cmpMem | jne | jmp
  | inside
  | mov | push | popf
  deriving DecidableEq, Repr

/-- The code that runs, or one that was interrupted. `flags` is the flags register while the frame runs and what the
processor pushed when it was interrupted; `reg` is the register that begins with `1`; `pushed` is the word that `pushfq`
or `pushq` pushed. -/
structure Spinner where
  pc : Pc
  withCli : Bool
  reg : BitVec 32
  flags : Flags
  pushed : Flags
  cpuflg : Flags
  deriving DecidableEq, Repr

def spin (lock : BitVec 32) (f : Spinner) : BitVec 32 × Spinner :=
  match f.pc with
  | .outside | .inside => (lock, f)
  | .pushf => (lock, { f with pc := .cli, pushed := f.flags })
  | .cli => (lock, { f with pc := .pop, flags := { f.flags with ifl := false } })
  | .pop => (lock, { f with pc := .xchg, cpuflg := f.pushed })
  | .xchg => (f.reg, { f with pc := .cmp, reg := lock })
  | .cmp => (lock, { f with pc := .jnz, flags := { f.flags with zf := f.reg = 0 } })
  | .jnz => (lock, { f with pc := if f.flags.zf then .inside else .cmpMem })
  | .cmpMem => (lock, { f with pc := .jne, flags := { f.flags with zf := lock = 0 } })
  | .jne => (lock, { f with pc := if f.flags.zf then .jmp else .cmpMem })
  | .jmp => (lock, { f with pc := .xchg })
  | .mov => (0, { f with pc := if f.withCli then .push else .outside })
  | .push => (lock, { f with pc := .popf, pushed := f.cpuflg })
  | .popf => (lock, { f with pc := .outside, flags := f.pushed })

inductive SpinEv
  | lock (withCli : Bool)
  | unlock
  | instr
  | work (flags : Flags)
  | interrupt
  | iret

/-- Steps of one processor, on the lock and its frames, the one that runs first: it calls one of the functions, makes
one of their instructions, runs other code, takes an interrupt or returns from one. The code of a critical section does
not set `IF`. -/
inductive Steps (lock : BitVec 32) : List Spinner → SpinEv → BitVec 32 × List Spinner → Prop
  | lock {f : Spinner} {below : List Spinner} (withCli : Bool) : f.pc = .outside →
      Steps lock (f :: below) (.lock withCli) (lock, { f with
        pc := if withCli then .pushf else .xchg
        withCli := withCli
        reg := 1 } :: below)
  | unlock {f : Spinner} {below : List Spinner} : f.pc = .inside →
      Steps lock (f :: below) .unlock (lock, { f with pc := .mov } :: below)
  | instr (f : Spinner) (below : List Spinner) :
      Steps lock (f :: below) .instr ((spin lock f).1, (spin lock f).2 :: below)
  | work {f : Spinner} {below : List Spinner} {flags : Flags} :
      f.pc = .outside ∨ f.pc = .inside ∧ flags.ifl = f.flags.ifl →
      Steps lock (f :: below) (.work flags) (lock, { f with flags := flags } :: below)
  | interrupt {f handler : Spinner} {below : List Spinner} :
      f.flags.ifl = true → handler.pc = .outside → handler.flags.ifl = false →
      Steps lock (f :: below) .interrupt (lock, handler :: f :: below)
  | iret {f g : Spinner} {below : List Spinner} : f.pc = .outside →
      Steps lock (f :: g :: below) .iret (lock, g :: below)

structure Spin (ι : Type) where
  lock : BitVec 32
  frames : ι → List Spinner

variable {ι : Type} [DecidableEq ι]

def Spin.set (s : Spin ι) (i : ι) (r : BitVec 32 × List Spinner) : Spin ι := ⟨r.1, update s.frames i r.2⟩

def SpinStep (s : Spin ι) (ev : ι × SpinEv) (t : Spin ι) : Prop :=
  ∃ r, Steps s.lock (s.frames ev.1) ev.2 r ∧ t = s.set ev.1 r

/-! ### Mutual exclusion -/

namespace Spinner

/-- The frame has the lock: it has exchanged its `1` for `0` and not yet written the `0` back. -/
def holding (f : Spinner) : Bool :=
  match f.pc with
  | .cmp => f.reg = 0
  | .jnz => f.flags.zf
  | .inside | .mov => true
  | _ => false

def RegOk (f : Spinner) : Prop :=
  match f.pc with
  | .cmp => f.reg = 0 ∨ f.reg = 1
  | .jnz => f.flags.zf = true ∨ f.reg = 1
  | .outside | .inside | .mov | .push | .popf => True
  | _ => f.reg = 1

theorem holding_of_outside {f : Spinner} (hpc : f.pc = .outside) : f.holding = false := by
  unfold holding
  rw [hpc]

theorem regOk_of_outside {f : Spinner} (hpc : f.pc = .outside) : f.RegOk := by
  unfold RegOk
  rw [hpc]
  trivial

end Spinner

def holders (frames : List Spinner) : Nat := frames.countP Spinner.holding

theorem holders_cons (f : Spinner) (below : List Spinner) : holders (f :: below) = f.holding.toNat + holders below := by
  unfold holders
  rw [List.countP_cons, Nat.add_comm]
  cases f.holding <;> rfl

theorem spin_balance {lock : BitVec 32} {f : Spinner} (hlock : lock = 0 ∨ lock = 1) (hreg : f.RegOk)
    (hheld : f.holding = true → lock = 1) : ((spin lock f).1 = 0 ∨ (spin lock f).1 = 1) ∧ (spin lock f).2.RegOk ∧
      (spin lock f).2.holding.toNat + lock.toNat = f.holding.toNat + (spin lock f).1.toNat := by
  obtain ⟨pc, withCli, reg, ⟨zf, ifl⟩, pushed, cpuflg⟩ := f
  cases pc with
  | xchg =>
    have hreg : reg = 1 := hreg
    subst hreg
    refine ⟨.inr rfl, hlock, ?_⟩
    cases hlock with
    | inl hfree =>
      subst hfree
      rfl
    | inr htaken =>
      subst htaken
      rfl
  | cmp => exact ⟨hlock, hreg.imp_left decide_eq_true, rfl⟩
  | jnz =>
    cases zf with
    | true => exact ⟨hlock, trivial, rfl⟩
    | false => exact ⟨hlock, hreg.resolve_left Bool.false_ne_true, rfl⟩
  | jne => cases zf <;> exact ⟨hlock, hreg, rfl⟩
  | mov =>
    have hheld : lock = 1 := hheld rfl
    subst hheld
    cases withCli <;> exact ⟨.inl rfl, trivial, rfl⟩
  | outside | inside | push | popf => exact ⟨hlock, trivial, rfl⟩
  | _ => exact ⟨hlock, hreg, rfl⟩

theorem balance_cons {lock lock' : BitVec 32} {f g : Spinner} {below : List Spinner} (hreg : ∀ e ∈ f :: below, e.RegOk)
    (hg : g.RegOk) (hbal : g.holding.toNat + lock.toNat = f.holding.toNat + lock'.toNat) :
    (∀ e ∈ g :: below, e.RegOk) ∧ holders (g :: below) + lock.toNat = holders (f :: below) + lock'.toNat := by
  refine ⟨List.forall_mem_cons.mpr ⟨hg, (List.forall_mem_cons.mp hreg).2⟩, ?_⟩
  rw [holders_cons, holders_cons]
  omega

theorem Steps.balance {lock : BitVec 32} {frames : List Spinner} {ev : SpinEv} {r : BitVec 32 × List Spinner}
    (hstep : Steps lock frames ev r) (hlock : lock = 0 ∨ lock = 1) (hreg : ∀ f ∈ frames, f.RegOk)
    (hle : holders frames ≤ lock.toNat) :
    (r.1 = 0 ∨ r.1 = 1) ∧ (∀ f ∈ r.2, f.RegOk) ∧ holders r.2 + lock.toNat = holders frames + r.1.toNat := by
  cases hstep with
  | lock withCli hpc =>
    refine ⟨hlock, balance_cons hreg ?_ ?_⟩
    · cases withCli <;> rfl
    · rw [Spinner.holding_of_outside hpc]
      cases withCli <;> rfl
  | unlock hpc =>
    refine ⟨hlock, balance_cons hreg trivial ?_⟩
    unfold Spinner.holding
    rw [hpc]
  | instr f below =>
    have hheld : f.holding = true → lock = 1 := by
      intro hf
      rw [holders_cons, hf] at hle
      refine hlock.resolve_left fun hfree => ?_
      rw [hfree] at hle
      exact absurd hle (by simp)
    obtain ⟨hlock', hreg', hbal⟩ := spin_balance hlock (hreg f List.mem_cons_self) hheld
    exact ⟨hlock', balance_cons hreg hreg' hbal⟩
  | work hpc =>
    refine ⟨hlock, balance_cons hreg ?_ ?_⟩
    · unfold Spinner.RegOk
      rcases hpc with hpc | ⟨hpc, -⟩ <;> simp only [hpc]
    · unfold Spinner.holding
      rcases hpc with hpc | ⟨hpc, -⟩ <;> simp only [hpc]
  | interrupt _ hpc _ =>
    refine ⟨hlock, List.forall_mem_cons.mpr ⟨Spinner.regOk_of_outside hpc, hreg⟩, ?_⟩
    rw [holders_cons, Spinner.holding_of_outside hpc, Bool.toNat_false, Nat.zero_add]
  | @iret f _ _ hpc =>
    refine ⟨hlock, (List.forall_mem_cons.mp hreg).2, ?_⟩
    rw [holders_cons f, Spinner.holding_of_outside hpc, Bool.toNat_false, Nat.zero_add]

theorem sum_update [Fintype ι] (c : List Spinner → Nat) (frames : ι → List Spinner) (i : ι) (l : List Spinner) :
    ∑ j, c (update frames i l j) + c (frames i) = c l + ∑ j, c (frames j) := by
  simp only [apply_update fun _ => c]
  rw [Finset.sum_update_of_mem (Finset.mem_univ i), Nat.add_assoc,
    Finset.sum_eq_sum_sdiff_singleton_add (Finset.mem_univ i) fun j => c (frames j)]

variable [Fintype ι] {s t : Spin ι}

/-- As many frames have the lock as its word says, and the frames can take it in no other way. -/
structure SpinInv (s : Spin ι) : Prop where
  lock : s.lock = 0 ∨ s.lock = 1
  reg : ∀ i, ∀ f ∈ s.frames i, f.RegOk
  owned : ∑ i, holders (s.frames i) = s.lock.toNat

omit [DecidableEq ι] in
theorem SpinInv.le (h : SpinInv s) (i : ι) : holders (s.frames i) ≤ s.lock.toNat := by
  rw [← h.owned]
  exact Finset.single_le_sum (f := fun i => holders (s.frames i)) (fun _ _ => Nat.zero_le _) (Finset.mem_univ i)

theorem SpinInv.step {ev : ι × SpinEv} (h : SpinInv s) (hstep : SpinStep s ev t) : SpinInv t := by
  obtain ⟨r, hsteps, rfl⟩ := hstep
  obtain ⟨hlock, hreg, hbal⟩ := hsteps.balance h.lock (h.reg ev.1) (h.le ev.1)
  refine ⟨hlock, ?_, ?_⟩
  · exact (forall_update_iff s.frames fun _ l => ∀ f ∈ l, f.RegOk).mpr ⟨hreg, fun i _ => h.reg i⟩
  · have hsum := sum_update holders s.frames ev.1 r.2
    rw [h.owned] at hsum
    show ∑ i, holders (update s.frames ev.1 r.2 i) = r.1.toNat
    omega

/-- No processor uses the lock, which `knl_spinlock_init` has set to `0`. -/
structure Spin.Fresh (s : Spin ι) : Prop where
  lock : s.lock = 0
  outside : ∀ i, ∀ f ∈ s.frames i, f.pc = .outside

omit [DecidableEq ι] in
theorem SpinInv.of_fresh (h : s.Fresh) : SpinInv s := by
  refine ⟨.inl h.lock, fun i f hf => Spinner.regOk_of_outside (h.outside i f hf), ?_⟩
  rw [h.lock]
  apply Finset.sum_eq_zero
  intro i _
  apply List.countP_eq_zero.mpr
  intro f hf
  rw [Spinner.holding_of_outside (h.outside i f hf)]
  exact Bool.false_ne_true

def insiders (frames : List Spinner) : Nat := frames.countP fun f => f.pc = .inside

/-- **Mutual exclusion**: whatever the processors and their interrupts do, at most one frame of all is in its critical
section, and the lock is `1` exactly while a frame has it. -/
theorem spinlock_exclusive {evs : List (ι × SpinEv)} (hfresh : s.Fresh) (hrun : Trace SpinStep s evs t) :
    ∑ i, insiders (t.frames i) ≤ 1 ∧ ∑ i, holders (t.frames i) = t.lock.toNat := by
  have hinv : SpinInv t := hrun.keeps (fun _ _ _ h hstep => h.step hstep) (SpinInv.of_fresh hfresh)
  refine ⟨?_, hinv.owned⟩
  have hle : t.lock.toNat ≤ 1 := by
    rcases hinv.lock with hlock | hlock <;> rw [hlock] <;> decide
  refine le_trans (Finset.sum_le_sum fun i _ => List.countP_mono_left fun f _ hf => ?_) (hinv.owned.le.trans hle)
  unfold Spinner.holding
  rw [of_decide_eq_true hf]

/-! ### Runs of one processor -/

def spins : Nat → BitVec 32 × Spinner → BitVec 32 × Spinner
  | 0, r => r
  | n + 1, r => spins n (spin r.1 r.2)

/-- A step of the code around the lock, in which no frame is entered or left. -/
def SpinEv.OfLock (ev : SpinEv) : Prop := ev = .instr ∨ ev = .unlock

omit [Fintype ι] in
theorem run_spins (i : ι) {below : List Spinner} (n : Nat) : ∀ {s : Spin ι} {f : Spinner}, s.frames i = f :: below →
    ∃ t, Trace SpinStep s (List.replicate n (i, .instr)) t ∧ t.lock = (spins n (s.lock, f)).1 ∧
      t.frames i = (spins n (s.lock, f)).2 :: below := by
  induction n with
  | zero =>
    intro s f hf
    exact ⟨s, .nil s, rfl, hf⟩
  | succ n ih =>
    intro s f hf
    obtain ⟨t, hrun, hend⟩ :=
      ih (s := s.set i ((spin s.lock f).1, (spin s.lock f).2 :: below)) (update_self ..)
    refine ⟨t, .cons ⟨_, ?_, rfl⟩ hrun, hend⟩
    rw [hf]
    exact .instr f below

/-- Two processors that do not use the lock, with interrupts on. -/
def idleSpin : Spin Bool := ⟨0, fun _ => [⟨.outside, false, 0, ⟨false, true⟩, ⟨false, true⟩, ⟨false, true⟩⟩]⟩

theorem fresh_idleSpin : idleSpin.Fresh := ⟨rfl, fun _ _ hf => by rw [List.mem_singleton.mp hf]⟩

/-- Both processors call `knl_spinlock_cli`, and the first gets the lock. -/
def sampleEvs : List (Bool × SpinEv) :=
  (false, .lock true) :: (true, .lock true) :: List.replicate 6 (false, .instr)

theorem run_sampleEvs : ∃ t, Trace SpinStep idleSpin sampleEvs t ∧ insiders (t.frames false) = 1 := by
  have hcalls : ∃ s f, Trace SpinStep idleSpin [(false, .lock true), (true, .lock true)] s ∧ s.frames false = [f] ∧
      (spins 6 (s.lock, f)).2.pc = .inside :=
    ⟨_, _, .cons ⟨_, .lock true rfl, rfl⟩ (.cons ⟨_, .lock true rfl, rfl⟩ (.nil _)), rfl, rfl⟩
  obtain ⟨s, f, hcalls, hf, hpc⟩ := hcalls
  obtain ⟨t, hrun, -, hframes⟩ := run_spins false 6 hf
  refine ⟨t, hcalls.append hrun, ?_⟩
  rw [hframes]
  exact List.countP_cons_of_pos (decide_eq_true hpc)

theorem spinlock_exclusive_two : ∃ t, Trace SpinStep idleSpin sampleEvs t ∧ insiders (t.frames false) = 1 ∧
    insiders (t.frames true) = 0 := by
  obtain ⟨t, hrun, hone⟩ := run_sampleEvs
  have hle := (spinlock_exclusive fresh_idleSpin hrun).1
  rw [Fintype.sum_bool, hone] at hle
  exact ⟨t, hrun, hone, by omega⟩

/-! ### The lock can be given back -/

def Pc.masked : Pc → Bool
  | .outside | .pushf | .cli => false
  | _ => true

/-- The frames of a processor that uses `knl_spinlock_cli`: interrupts are off between `cli` and `popfq`, so no frame is
interrupted there. -/
def Masked : List Spinner → Prop
  | [] => True
  | f :: below => (f.pc.masked = true → f.flags.ifl = false) ∧ ∀ g ∈ below, g.pc.masked = false

def SpinEv.UsesCli : SpinEv → Prop
  | .lock withCli => withCli = true
  | _ => True

theorem Steps.masked {lock : BitVec 32} {frames : List Spinner} {ev : SpinEv} {r : BitVec 32 × List Spinner}
    (hstep : Steps lock frames ev r) (hcli : ev.UsesCli) (h : Masked frames) : Masked r.2 := by
  cases hstep with
  | lock withCli hpc =>
    have hcli : withCli = true := hcli
    subst hcli
    exact ⟨fun hmasked => absurd hmasked Bool.false_ne_true, h.2⟩
  | unlock hpc =>
    refine ⟨fun _ => h.1 ?_, h.2⟩
    rw [hpc]
    rfl
  | instr f below =>
    obtain ⟨pc, withCli, reg, flags, pushed, cpuflg⟩ := f
    refine ⟨?_, h.2⟩
    cases pc with
    | outside | pushf | popf => exact fun hmasked => absurd hmasked Bool.false_ne_true
    | cli => exact fun _ => rfl
    | _ => exact fun _ => h.1 rfl
  | @work f below flags hpc =>
    refine ⟨fun hmasked => ?_, h.2⟩
    have hmasked : f.pc.masked = true := hmasked
    rcases hpc with hpc | ⟨-, hif⟩
    · rw [hpc] at hmasked
      exact absurd hmasked Bool.false_ne_true
    · exact hif.trans (h.1 hmasked)
  | @interrupt f handler below hif hpc _ =>
    have hopen : f.pc.masked = false := by
      apply Bool.eq_false_iff.mpr
      intro hmasked
      exact absurd ((h.1 hmasked).symm.trans hif) Bool.false_ne_true
    refine ⟨fun hmasked => ?_, List.forall_mem_cons.mpr ⟨hopen, h.2⟩⟩
    rw [hpc] at hmasked
    exact absurd hmasked Bool.false_ne_true
  | @iret f g below hpc =>
    obtain ⟨hg, hbelow⟩ := List.forall_mem_cons.mp h.2
    exact ⟨fun hmasked => absurd (hmasked.symm.trans hg) (by decide), hbelow⟩

omit [Fintype ι] in
theorem masked_of_run {evs : List (ι × SpinEv)} (hfresh : s.Fresh) (hrun : Trace SpinStep s evs t)
    (hcli : ∀ ev ∈ evs, ev.2.UsesCli) (i : ι) : Masked (t.frames i) := by
  refine hrun.inv (P := fun ev => ev.2.UsesCli) (J := fun t => ∀ i, Masked (t.frames i)) ?_ hcli (fun i => ?_) i
  · rintro s ev t hev h ⟨r, hstep, rfl⟩
    exact (forall_update_iff s.frames fun _ => Masked).mpr ⟨hstep.masked hev (h ev.1), fun i _ => h i⟩
  · have hopen : ∀ f ∈ s.frames i, f.pc.masked = false := by
      intro f hf
      rw [hfresh.outside i f hf]
      rfl
    cases hs : s.frames i with
    | nil => trivial
    | cons f below =>
      rw [hs] at hopen
      obtain ⟨hf, hbelow⟩ := List.forall_mem_cons.mp hopen
      exact ⟨fun hmasked => absurd (hmasked.symm.trans hf) (by decide), hbelow⟩

theorem Spinner.masked_of_holding {f : Spinner} (h : f.holding = true) : f.pc.masked = true := by
  unfold holding at h
  cases hpc : f.pc <;> rw [hpc] at h <;> first | rfl | exact absurd h Bool.false_ne_true

theorem freed_soon {lock : BitVec 32} {f : Spinner} (h : f.holding = true) :
    (spins 2 (lock, f)).2.pc = .inside ∨ (spins 2 (lock, f)).1 = 0 := by
  obtain ⟨pc, withCli, reg, ⟨zf, ifl⟩, pushed, cpuflg⟩ := f
  cases pc with
  | cmp =>
    obtain rfl : reg = 0 := of_decide_eq_true h
    exact .inl rfl
  | jnz =>
    obtain rfl : zf = true := h
    exact .inl rfl
  | inside => exact .inl rfl
  | mov => cases withCli <;> exact .inr rfl
  | _ => exact absurd h Bool.false_ne_true

omit [Fintype ι] in
theorem run_release {i : ι} {f : Spinner} {below : List Spinner} (hf : s.frames i = f :: below) (h : f.holding = true) :
    ∃ evs u, Trace SpinStep s evs u ∧ (∀ ev ∈ evs, ev.2.OfLock) ∧ u.lock = 0 := by
  obtain ⟨t, hrun, hlock, hframes⟩ := run_spins i 2 hf
  rcases freed_soon h with hinside | hzero
  · generalize (spins 2 (s.lock, f)).2 = g at hframes hinside
    have hunlock : SpinStep t (i, .unlock) (t.set i (t.lock, { g with pc := .mov } :: below)) := by
      refine ⟨_, ?_, rfl⟩
      rw [hframes]
      exact .unlock hinside
    obtain ⟨u, hmov, hzero, -⟩ := run_spins (s := t.set i (t.lock, { g with pc := .mov } :: below)) i 1
      (update_self ..)
    exact ⟨_, u, hrun.append (.cons hunlock hmov), by simp [SpinEv.OfLock], hzero⟩
  · exact ⟨_, t, hrun, by simp [SpinEv.OfLock], hlock.trans hzero⟩

/-- **No deadlock**: in a system whose processors use `knl_spinlock_cli` no interrupted frame holds the lock, and the
frames that run can always go on to a state in which it is free, with no frame left or entered. -/
theorem spinlock_freed {evs : List (ι × SpinEv)} (hfresh : s.Fresh) (hrun : Trace SpinStep s evs t)
    (hcli : ∀ ev ∈ evs, ev.2.UsesCli) :
    (∀ i, ∀ f ∈ (t.frames i).tail, f.holding = false) ∧
      ∃ evs' u, Trace SpinStep t evs' u ∧ (∀ ev ∈ evs', ev.2.OfLock) ∧ u.lock = 0 := by
  have htop : ∀ i, ∀ f ∈ (t.frames i).tail, f.holding = false := fun i f hf => by
    have hmasked := masked_of_run hfresh hrun hcli i
    cases hframes : t.frames i with
    | nil =>
      rw [hframes] at hf
      cases hf
    | cons g below =>
      rw [hframes] at hf hmasked
      by_contra hholding
      have hflag := Spinner.masked_of_holding (Bool.eq_true_of_not_eq_false hholding)
      exact absurd (hflag.symm.trans (hmasked.2 f hf)) (by decide)
  refine ⟨htop, ?_⟩
  have hinv : SpinInv t := hrun.keeps (fun _ _ _ h hstep => h.step hstep) (SpinInv.of_fresh hfresh)
  by_cases hlock : t.lock = 0
  · exact ⟨[], t, .nil t, by simp, hlock⟩
  -- somebody has it, and was not interrupted
  have hsum : ∑ i, holders (t.frames i) ≠ 0 := by
    rw [hinv.owned]
    exact fun hzero => hlock (BitVec.toNat_inj.mp hzero)
  obtain ⟨i, -, hi⟩ := Finset.exists_ne_zero_of_sum_ne_zero hsum
  obtain ⟨f, hf, hholding⟩ := List.countP_pos_iff.mp (Nat.pos_of_ne_zero hi)
  have htop := htop i
  cases hframes : t.frames i with
  | nil =>
    rw [hframes] at hf
    exact absurd hf List.not_mem_nil
  | cons g below =>
    rw [hframes] at hf htop
    obtain rfl : f = g := by
      refine (List.mem_cons.mp hf).resolve_right fun hbelow => ?_
      exact absurd (hholding.symm.trans (htop f hbelow)) (by decide)
    exact run_release hframes hholding

/-- The first processor has the lock, and the second waits for it. -/
theorem spinlock_freed_two : ∃ t evs' u, Trace SpinStep idleSpin sampleEvs t ∧ insiders (t.frames false) = 1 ∧
    Trace SpinStep t evs' u ∧ u.lock = 0 := by
  obtain ⟨t, hrun, hone⟩ := run_sampleEvs
  have hcli : ∀ ev ∈ sampleEvs, ev.2.UsesCli := by
    simp [sampleEvs, SpinEv.UsesCli]
  obtain ⟨-, evs', u, hrest, -, hzero⟩ := spinlock_freed fresh_idleSpin hrun hcli
  exact ⟨t, evs', u, hrun, hone, hrest, hzero⟩

end Cosmos.Cpu
