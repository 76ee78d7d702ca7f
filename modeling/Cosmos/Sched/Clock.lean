import Cosmos.Lib.Word
import Cosmos.Sched.RoundRobin

/-!
# The clock (`kernel/krlthread.c`, `drivers/drvtick.c`, `hal/x86/halintupt.c`)

Every interrupt of the clock counts a tick for the current thread (`krlthd_inc_tick`). A thread that has had more than
`TDRUN_TICK` of them starts to count anew and asks for a new selection, which `hal_hwint_allocator` makes before it
returns (`krlsched_chkneed_pmptsched`). So no thread keeps the processor for more than 21 ticks, and together with the
turns that the threads of a priority take, a thread that is ready at the best priority waits for at most 21 ticks for
each thread of that priority (`bounded_wait`).
-/

namespace Cosmos.Sched

open Cosmos.Lib Halt Function

def tdrunTick : Nat := 20

/-- The scheduler with `td_tick` and `td_sumtick` of the threads. -/
structure Clock where
  sched : Schdata
  tdTick : Nat → Nat
  tdSumtick : Nat → Nat

def krlthdIncTick (s : Clock) (thdp : Nat) : Clock :=
  let s := { s with
    tdTick := update s.tdTick thdp (s.tdTick thdp + 1)
    tdSumtick := update s.tdSumtick thdp (u64 (s.tdSumtick thdp + 1)) }
  if tdrunTick < s.tdTick thdp then
    { s with tdTick := update s.tdTick thdp 0, sched := krlschedSetSchedflgs s.sched }
  else s

/-- `systick_handle`, without the time of day. -/
def systickHandle (s : Clock) : Halt Clock := krlschedRetnCurrthread s.sched >>= fun tdp => .ok (krlthdIncTick s tdp)

def halHwintAllocator (s : Clock) : Halt Clock :=
  systickHandle s >>= fun s => krlschedChkneedPmptsched s.sched >>= fun sched => .ok { s with sched := sched }

/-- A call into the scheduler, or the clock. -/
inductive ClockAct
  | act (a : Act)
  | tick
  deriving DecidableEq, Repr

/-- A step that returns, with the threads added before and after it. -/
def ClockStep (x : Clock × Finset Nat) : ClockAct → Clock × Finset Nat → Prop
  | .act a, y => Step (fun s a => a.Plain s) (x.1.sched, x.2) a (y.1.sched, y.2) ∧ y.1 = { x.1 with sched := y.1.sched }
  | .tick, y => halHwintAllocator x.1 = .ok y.1 ∧ y.2 = x.2

def initClock (td : Nat → Thread) (idle : Nat) : Clock := ⟨initKrlsched td idle, fun _ => 0, fun _ => 0⟩

variable {s s' : Clock} {added : Finset Nat} {pity t : Nat}

/-! ### One tick -/

def tickSched (s : Clock) : Schdata :=
  match s.sched.sdaCurrtd with
  | none => s.sched
  | some c => (krlthdIncTick s c).sched

theorem halHwintAllocator_cases (h : halHwintAllocator s = .ok s') :
    ∃ c, s.sched.sdaCurrtd = some c ∧ exec (tickSched s) .chkneed = .ok s'.sched ∧
      ((s.tdTick c < tdrunTick ∧ tickSched s = s.sched ∧ s'.tdTick = update s.tdTick c (s.tdTick c + 1)) ∨
        (tdrunTick ≤ s.tdTick c ∧ tickSched s = krlschedSetSchedflgs s.sched ∧
          s'.tdTick = update s.tdTick c 0)) := by
  obtain ⟨mid, hmid, h⟩ := bind_eq_ok h
  obtain ⟨c, hc, hmid⟩ := bind_eq_ok hmid
  obtain rfl := Except.ok.inj hmid
  obtain ⟨sched, hsched, h⟩ := bind_eq_ok h
  obtain rfl := Except.ok.inj h
  have hc := krlschedRetnCurrthread_eq hc
  have hmid : tickSched s = (krlthdIncTick s c).sched := by
    unfold tickSched
    rw [hc]
  rw [← hmid] at hsched
  refine ⟨c, hc, hsched, ?_⟩
  rw [hmid]
  unfold krlthdIncTick
  simp only [update_self]
  by_cases hfull : tdrunTick < s.tdTick c + 1
  · rw [if_pos hfull]
    exact .inr ⟨by omega, rfl, update_idem ..⟩
  · rw [if_neg hfull]
    exact .inl ⟨by omega, rfl, rfl⟩

/-! ### What holds in every state -/

theorem sdaPremptidx_krlschedUp {s s' : Schdata} {wlst : Nat} (hup : krlschedUp s wlst = .ok s') :
    s'.sdaPremptidx = s.sdaPremptidx := by
  obtain ⟨c, mid, hdel, rfl⟩ := krlschedUp_cases hup
  obtain ⟨-, -, rfl⟩ := krlwlstDelThread_cases hdel
  rfl

theorem sdaPremptidx_krlschedul {s s' : Schdata} (hexec : krlschedul s = .ok s') :
    s'.sdaPremptidx = s.sdaPremptidx := by
  rcases krlschedul_cases hexec with rfl | ⟨next, mid, hsel, rfl⟩
  · rfl
  · rcases krlschedSelectThread_cases hsel with ⟨pity, -, rfl⟩ | ⟨pity, -, rfl⟩ | ⟨-, rfl⟩ <;> rfl

theorem sdaPremptidx_exec {s s' : Schdata} {a : Act} (hexec : exec s a = .ok s') :
    s'.sdaPremptidx = s.sdaPremptidx := by
  cases a with
  | add thdp =>
    cases hexec
    rfl
  | schedul => exact sdaPremptidx_krlschedul hexec
  | wait wlst =>
    obtain ⟨c, -, -, -, rfl⟩ := krlschedWait_cases hexec
    rfl
  | up wlst => exact sdaPremptidx_krlschedUp hexec
  | wlstUp wlst =>
    simp only [exec, krlwlstUp] at hexec
    split_ifs at hexec
    · cases hexec
      rfl
    · exact sdaPremptidx_krlschedUp hexec
  | allup wlst =>
    exact allupLoop_inv (P := fun u => u.sdaPremptidx = s.sdaPremptidx)
      (fun _ _ h hup => (sdaPremptidx_krlschedUp hup).trans h) _ s s' rfl hexec
  | exit =>
    obtain ⟨c, -, -, rfl⟩ := krlschedExit_cases hexec
    rfl
  | setflgs flags =>
    cases hexec
    rfl
  | chkneed =>
    rcases krlschedChkneedPmptsched_cases hexec with rfl | hexec | hexec
    · rfl
    · exact sdaPremptidx_krlschedul hexec
    · exact (sdaPremptidx_krlschedul hexec).trans rfl

/-- The scheduler is orderly and can be preempted, and no thread has counted more than `TDRUN_TICK` ticks. -/
structure ClockInv (s : Clock) (added : Finset Nat) : Prop where
  orderly : Orderly s.sched added
  premptidx : s.sched.sdaPremptidx = pmptFlgs
  ticks : ∀ t, s.tdTick t ≤ tdrunTick

theorem ClockInv.tickSched (h : ClockInv s added) (hexec : halHwintAllocator s = .ok s') :
    Orderly (tickSched s) added ∧ (tickSched s).sdaPremptidx = pmptFlgs := by
  obtain ⟨c, -, -, ⟨-, heq, -⟩ | ⟨-, heq, -⟩⟩ := halHwintAllocator_cases hexec
  · rw [heq]
    exact ⟨h.orderly, h.premptidx⟩
  · rw [heq]
    exact ⟨orderly_setSchedflgsEx h.orderly _, h.premptidx⟩

theorem ClockInv.tick (h : ClockInv s added) (hexec : halHwintAllocator s = .ok s') : ClockInv s' added := by
  obtain ⟨horderly, hprempt⟩ := h.tickSched hexec
  obtain ⟨c, -, hchk, hticks⟩ := halHwintAllocator_cases hexec
  refine ⟨orderly_exec (a := .chkneed) horderly trivial ⟨trivial, trivial⟩ hchk, ?_, fun t => ?_⟩
  · rw [sdaPremptidx_exec hchk]
    exact hprempt
  · have ht := h.ticks t
    rcases hticks with ⟨hlt, -, heq⟩ | ⟨-, -, heq⟩
    · rw [heq, update_apply]
      split_ifs <;> omega
    · rw [heq, update_apply]
      split_ifs <;> omega

theorem clockInv_step {x y : Clock × Finset Nat} {a : ClockAct} (h : ClockInv x.1 x.2) (hstep : ClockStep x a y) :
    ClockInv y.1 y.2 := by
  cases a with
  | act a =>
    obtain ⟨⟨hfresh, hplain, hexec, hadded⟩, hsame⟩ := hstep
    refine ⟨?_, ?_, ?_⟩
    · rw [show y.2 = a.added x.2 from hadded]
      exact orderly_exec h.orderly hfresh hplain hexec
    · exact (sdaPremptidx_exec hexec).trans h.premptidx
    · rw [hsame]
      exact h.ticks
  | tick =>
    obtain ⟨hexec, hadded⟩ := hstep
    rw [hadded]
    exact h.tick hexec

theorem clockInv_of_run {td : Nat → Thread} {idle : Nat} {acts : List ClockAct} {y : Clock × Finset Nat}
    (hrun : Trace ClockStep (initClock td idle, ∅) acts y) : ClockInv y.1 y.2 := by
  apply hrun.keeps (J := fun x => ClockInv x.1 x.2)
  · exact fun _ _ _ h hstep => clockInv_step h hstep
  · exact ⟨orderly_initKrlsched td idle, rfl, fun _ => Nat.zero_le _⟩

/-! ### Selections -/

/-- A step in which no thread comes or goes, with the threads selected so far. -/
def QuietTick (x : Clock × List Nat) : ClockAct → Clock × List Nat → Prop
  | .act a, y => QuietStep (x.1.sched, x.2) a (y.1.sched, y.2) ∧ y.1 = { x.1 with sched := y.1.sched }
  | .tick, y => halHwintAllocator x.1 = .ok y.1 ∧ y.2 = x.2 ++ (selected (tickSched x.1) .chkneed).toList

theorem QuietTick.step {x y : Clock × List Nat} {a : ClockAct} (hstep : QuietTick x a y) (added : Finset Nat) :
    ClockStep (x.1, added) a (y.1, added) := by
  cases a with
  | act a =>
    obtain ⟨⟨hquiet, hexec, -⟩, hsame⟩ := hstep
    obtain ⟨hfresh, hplain, hadded⟩ := hquiet.step x.1.sched added
    exact ⟨⟨hfresh, hplain, hexec, hadded.symm⟩, hsame⟩
  | tick => exact ⟨hstep.1, rfl⟩

theorem quietStep_of_tick {x y : Clock × List Nat} {a : ClockAct} (hstep : QuietTick x a y) :
    ∃ acts, Trace QuietStep (x.1.sched, x.2) acts (y.1.sched, y.2) := by
  cases a with
  | act a => exact ⟨[a], .cons hstep.1 (.nil _)⟩
  | tick =>
    obtain ⟨hexec, hlog⟩ := hstep
    obtain ⟨c, -, hchk, ⟨-, heq, -⟩ | ⟨-, heq, -⟩⟩ := halHwintAllocator_cases hexec
    · rw [heq] at hchk hlog
      exact ⟨[.chkneed], .cons ⟨trivial, hchk, hlog⟩ (.nil _)⟩
    · rw [heq] at hchk hlog
      have hset : QuietStep (x.1.sched, x.2) (.setflgs needSchedFlgs) (krlschedSetSchedflgs x.1.sched, x.2) :=
        ⟨trivial, rfl, (List.append_nil _).symm⟩
      exact ⟨[.setflgs needSchedFlgs, .chkneed], .cons hset (.cons ⟨trivial, hchk, hlog⟩ (.nil _))⟩

theorem quiet_of_ticks {x y : Clock × List Nat} {acts : List ClockAct} (hrun : Trace QuietTick x acts y) :
    ∃ acts', Trace QuietStep (x.1.sched, x.2) acts' (y.1.sched, y.2) := by
  induction hrun with
  | nil x => exact ⟨[], .nil _⟩
  | cons hstep _ ih =>
    obtain ⟨first, hfirst⟩ := quietStep_of_tick hstep
    obtain ⟨rest, hrest⟩ := ih
    exact ⟨first ++ rest, hfirst.append hrest⟩

theorem selectThread_ne_none {s s' : Schdata} (hflgs : s.sdaSchdflgs ≠ needStartCpuildeSchedFlgs)
    (hexec : krlschedul s = .ok s') : (krlschedSelectThread s).toOption.map Prod.fst ≠ none := by
  unfold krlschedul at hexec
  rw [if_neg hflgs] at hexec
  obtain ⟨prev, -, hexec⟩ := bind_eq_ok hexec
  obtain ⟨r, hr, -⟩ := bind_eq_ok hexec
  rw [hr]
  exact Option.some_ne_none _

theorem curr_of_start {s s' : Schdata} (hflgs : s.sdaSchdflgs = needStartCpuildeSchedFlgs)
    (hexec : krlschedul s = .ok s') : s'.sdaCurrtd = s.sdaCurrtd := by
  unfold krlschedul at hexec
  rw [if_pos hflgs] at hexec
  obtain ⟨idle, -, hexec⟩ := bind_eq_ok hexec
  cases hexec
  rfl

theorem curr_of_not_selected {s s' : Schdata} {a : Act} (hquiet : a.Quiet) (hexec : exec s a = .ok s')
    (hnone : selected s a = none) : s'.sdaCurrtd = s.sdaCurrtd := by
  cases a with
  | add _ | wait _ | up _ | wlstUp _ | allup _ | exit => exact hquiet.elim
  | setflgs flags =>
    cases hexec
    rfl
  | schedul =>
    simp only [selected] at hnone
    split_ifs at hnone with hflgs
    · exact curr_of_start hflgs hexec
    · exact absurd hnone (selectThread_ne_none hflgs hexec)
  | chkneed =>
    simp only [selected] at hnone
    simp only [exec, krlschedChkneedPmptsched] at hexec
    split_ifs at hnone hexec with hneed hflgs
    · have hnots : (krlschedSetSchedflgsEx s notsSchedFlgs).sdaSchdflgs ≠ needStartCpuildeSchedFlgs :=
        show notsSchedFlgs ≠ needStartCpuildeSchedFlgs by decide
      exact absurd hnone (selectThread_ne_none hnots hexec)
    · exact curr_of_start hflgs hexec
    · cases hexec
      rfl

/-! ### Nobody waits for long -/

def Clock.spent (s : Clock) : Nat := (s.sched.sdaCurrtd.map s.tdTick).getD 0

theorem ClockInv.spent_le (h : ClockInv s added) : s.spent ≤ tdrunTick := by
  unfold Clock.spent
  cases s.sched.sdaCurrtd with
  | none => exact Nat.zero_le _
  | some c => exact h.ticks c

def ticks (acts : List ClockAct) : Nat := acts.count .tick

theorem spent_of_selected {x y : Clock × List Nat} {next : Nat} (h : ClockInv x.1 added)
    (hlog : y.2 = x.2 ++ (some next).toList) : 1 + x.1.spent + 21 * x.2.length ≤ y.1.spent + 21 * y.2.length := by
  have hspent := h.spent_le
  unfold tdrunTick at hspent
  rw [hlog, Option.toList_some, List.length_append, List.length_singleton]
  omega

theorem spent_act {x y : Clock × List Nat} {a : Act} (h : ClockInv x.1 added) (hstep : QuietTick x (.act a) y) :
    x.1.spent + 21 * x.2.length ≤ y.1.spent + 21 * y.2.length := by
  obtain ⟨⟨hquiet, hexec, hlog⟩, hsame⟩ := hstep
  simp only at hexec hlog
  cases hsel : selected x.1.sched a with
  | none =>
    have heq : y.1.spent = x.1.spent := by
      unfold Clock.spent
      rw [curr_of_not_selected hquiet hexec hsel, hsame]
    rw [hlog, hsel, heq, Option.toList_none, List.append_nil]
  | some next =>
    have hle := spent_of_selected (y := y) h (hsel ▸ hlog)
    omega

theorem spent_tick {x y : Clock × List Nat} (h : ClockInv x.1 added) (hlow : Lowest (tickSched x.1) pity)
    (hstep : QuietTick x .tick y) : 1 + x.1.spent + 21 * x.2.length ≤ y.1.spent + 21 * y.2.length := by
  obtain ⟨hexec, hlog⟩ := hstep
  obtain ⟨horderly, hprempt⟩ := h.tickSched hexec
  obtain ⟨c, hcurr, hchk, hticks⟩ := halHwintAllocator_cases hexec
  cases hsel : selected (tickSched x.1) .chkneed with
  | some next => exact spent_of_selected h (hsel ▸ hlog)
  | none =>
    rcases hticks with ⟨hlt, heq, htick⟩ | ⟨hge, heq, htick⟩
    · have hcurr' : y.1.sched.sdaCurrtd = some c := by
        rw [curr_of_not_selected (a := .chkneed) trivial hchk hsel, heq, hcurr]
      have hspent : x.1.spent = x.1.tdTick c ∧ y.1.spent = x.1.tdTick c + 1 := by
        unfold Clock.spent
        rw [hcurr, hcurr', htick]
        exact ⟨rfl, update_self ..⟩
      rw [hlog, hsel, Option.toList_none, List.append_nil]
      omega
    · -- the selection that was asked for is made
      have hlowset : Lowest (krlschedSetSchedflgsEx (tickSched x.1) notsSchedFlgs) pity := hlow
      obtain ⟨next, mid, hmid, -⟩ := (orderly_setSchedflgsEx horderly notsSchedFlgs).select_eq hlowset
      have hneed : (tickSched x.1).sdaSchdflgs = needSchedFlgs ∧ (tickSched x.1).sdaPremptidx = pmptFlgs :=
        ⟨by rw [heq]; rfl, hprempt⟩
      simp only [selected, if_pos hneed, hmid] at hsel
      cases hsel

theorem spent_step {x y : Clock × List Nat} {a : ClockAct} (h : ClockInv x.1 added) (hlow : Lowest x.1.sched pity)
    (hstep : QuietTick x a y) :
    ClockInv y.1 added ∧ Lowest y.1.sched pity ∧
      ticks [a] + x.1.spent + 21 * x.2.length ≤ y.1.spent + 21 * y.2.length := by
  refine ⟨clockInv_step h (hstep.step added), ?_⟩
  cases a with
  | act a =>
    refine ⟨(h.orderly.turn hlow hstep.1.1 hstep.1.2.1).2, ?_⟩
    have hle := spent_act h hstep
    show 0 + x.1.spent + 21 * x.2.length ≤ _
    omega
  | tick =>
    obtain ⟨c, -, hchk, hticks⟩ := halHwintAllocator_cases hstep.1
    have hlow' : Lowest (tickSched x.1) pity := by
      rcases hticks with ⟨-, heq, -⟩ | ⟨-, heq, -⟩ <;> rw [heq] <;> exact hlow
    exact ⟨((h.tickSched hstep.1).1.turn (a := .chkneed) hlow' trivial hchk).2, spent_tick h hlow' hstep⟩

theorem spent_of_run {x y : Clock × List Nat} {acts : List ClockAct} (hrun : Trace QuietTick x acts y) :
    ClockInv x.1 added → Lowest x.1.sched pity → ClockInv y.1 added ∧
      ticks acts + x.1.spent + 21 * x.2.length ≤ y.1.spent + 21 * y.2.length := by
  induction hrun with
  | nil x =>
    intro h _
    exact ⟨h, le_of_eq (by rw [ticks, List.count_nil, Nat.zero_add])⟩
  | @cons x z y a acts hstep _ ih =>
    intro h hlow
    obtain ⟨hz, hlowz, hle⟩ := spent_step h hlow hstep
    obtain ⟨hy, hle'⟩ := ih hz hlowz
    refine ⟨hy, ?_⟩
    have hcount : ticks (a :: acts) = ticks [a] + ticks acts := by
      unfold ticks
      rw [← List.count_append]
      rfl
    omega

/-- **Bounded waiting**: from every state that the scheduler's calls and the clock lead to, a thread that is ready at
the best priority is selected within 21 ticks for each thread of that priority, as long as no thread comes or goes. -/
theorem bounded_wait {td : Nat → Thread} {idle : Nat} {acts acts' : List ClockAct} {x : Clock × Finset Nat}
    {y : Clock × List Nat} (hrun : Trace ClockStep (initClock td idle, ∅) acts x) (hready : Ready x.1.sched pity t)
    (hbest : ∀ q < pity, ∀ u, ¬Ready x.1.sched q u) (hquiet : Trace QuietTick (x.1, []) acts' y)
    (hticks : 21 * (ring x.1.sched pity).length ≤ ticks acts') : t ∈ y.2 := by
  have h := clockInv_of_run hrun
  have hlow : Lowest x.1.sched pity :=
    ⟨fun hnil => ring_eq_nil_iff.mp hnil t hready, fun q hq => ring_eq_nil_iff.mpr (hbest q hq)⟩
  obtain ⟨hy, hle⟩ := spent_of_run hquiet h hlow
  have hspent := hy.spent_le
  unfold tdrunTick at hspent
  have hlen : 0 + (ring x.1.sched pity).length ≤ y.2.length := by
    rw [List.length_nil] at hle
    omega
  obtain ⟨acts'', hcalls⟩ := quiet_of_ticks hquiet
  have hturns := (h.orderly.takesTurns hlow).2.2 acts'' (y.1.sched, y.2) hcalls 0 hlen
  rw [List.drop_zero, List.rotate_zero] at hturns
  have hmem : t ∈ y.2.take (ring x.1.sched pity).length := by
    rw [hturns]
    exact mem_ring.mpr hready
  exact List.mem_of_mem_take hmem

def tickRun : Nat → Clock × List Nat → Halt (Clock × List Nat)
  | 0, x => .ok x
  | n + 1, x => halHwintAllocator x.1 >>= fun s => tickRun n (s, x.2 ++ (selected (tickSched x.1) .chkneed).toList)

theorem trace_tickRun (n : Nat) : ∀ {x y}, tickRun n x = .ok y → Trace QuietTick x (List.replicate n .tick) y := by
  induction n with
  | zero =>
    intro x y h
    obtain rfl := Except.ok.inj h
    exact .nil x
  | succ n ih =>
    intro x y h
    obtain ⟨s, hs, h⟩ := bind_eq_ok h
    exact .cons ⟨hs, rfl⟩ (ih h)

theorem clock_call {sched : Schdata} {a : Act} {acts : List ClockAct} {y : Clock × Finset Nat}
    (hexec : exec s.sched a = .ok sched) (hfresh : a.Fresh s.sched added) (hplain : a.Plain s.sched)
    (hrest : Trace ClockStep ({ s with sched := sched }, a.added added) acts y) :
    Trace ClockStep (s, added) (.act a :: acts) y :=
  .cons ⟨⟨hfresh, hplain, hexec, rfl⟩, rfl⟩ hrest

/-- Two threads, of which the second has just been selected: after 42 ticks the first one has had its turn. -/
theorem bounded_wait_of_two : ∃ (x : Clock × Finset Nat) (y : Clock × List Nat),
    Trace ClockStep (initClock newThreads 3, ∅) [.act (.add 1), .act (.add 2), .act .schedul] x ∧
    x.1.sched.sdaCurrtd = some 2 ∧ Trace QuietTick (x.1, []) (List.replicate 42 .tick) y ∧ 1 ∈ y.2 := by
  have hrun : ∃ x, Trace ClockStep (initClock newThreads 3, ∅) [.act (.add 1), .act (.add 2), .act .schedul] x ∧
      x.1.sched.sdaCurrtd = some 2 ∧ Ready x.1.sched 0 1 ∧ (ring x.1.sched 0).length = 2 ∧
      Except.map (fun _ => true) (tickRun 42 (x.1, [])) = .ok true :=
    ⟨_, clock_call rfl (by decide) ⟨trivial, rfl⟩ (clock_call rfl (by decide) ⟨trivial, rfl⟩
      (clock_call rfl trivial ⟨trivial, trivial⟩ (.nil _))), rfl, .inl (by decide), rfl, by decide +kernel⟩
  obtain ⟨x, hx, hcurr, hready, hlen, hmap⟩ := hrun
  obtain ⟨y, hy, -⟩ := exists_of_map hmap
  have hquiet := trace_tickRun 42 hy
  refine ⟨x, y, hx, hcurr, hquiet, bounded_wait hx hready (fun q hq => absurd hq (Nat.not_lt_zero q)) hquiet ?_⟩
  rw [hlen]
  decide

end Cosmos.Sched
