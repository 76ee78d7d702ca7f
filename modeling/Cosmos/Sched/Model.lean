import Cosmos.Lib.Run
import Cosmos.Lib.Queues
import Mathlib.Data.Finset.Insert

/-!
# The scheduler and its wait lists

`krlsched.c` and `krlwaitlist.c` for the one processor the kernel runs on. A thread is a pointer, `NULL` is `0`, and the
ready lists, the wait lists and the exit list all link threads through `td_list`, so they are one family of shared
lists. The locks are held over each function's body, so that each function is one step.
-/

namespace Cosmos.Sched

open Cosmos.Lib Function

def prityMax : Nat := 64
def prityMin : Nat := 0
def notsSchedFlgs : Nat := 0
def needSchedFlgs : Nat := 1
def needStartCpuildeSchedFlgs : Nat := 2
def pmptFlgs : Nat := 0

/-- `TDSTUS_RUN` .. `TDSTUS_EXIT`. -/
inductive Tdstus
  | run | sleep | wait | new | zomb | exit
  deriving DecidableEq, Repr

/-- The fields of `thread_t` the scheduler reads. -/
structure Thread where
  tdStus : Tdstus
  tdPriority : Nat
  deriving DecidableEq, Repr

/-- The list heads a thread can be linked to: `tdl_lsth` of a priority, `wl_list` of a wait list, `sda_exitlist`. -/
inductive Listh
  | ready (pity : Nat)
  | wait (wlst : Nat)
  | exit
  deriving DecidableEq, Repr

/-- `thrdlst_t` without its list head. -/
structure Thrdlst where
  tdlCurruntd : Option Nat
  tdlNr : Nat
  deriving DecidableEq, Repr

/-- `schdata_t`, the thread count of `schedclass_t`, the threads and the wait lists. -/
structure Schdata where
  td : Nat → Thread
  lists : Listh → List Nat
  sdaThdlst : Nat → Thrdlst
  wlTdnr : Nat → Nat
  sdaCurrtd : Option Nat
  sdaCpuidle : Option Nat
  sdaSchdflgs : Nat
  sdaPremptidx : Nat
  sdaPrityidx : Nat
  sdaThreadnr : Nat
  sclsThreadnr : Nat

/-- `init_krlsched`, then `new_cpuidle_thread` and `krlcpuidle_start` for the thread `idle`. -/
def initKrlsched (td : Nat → Thread) (idle : Nat) : Schdata where
  td := update td idle ⟨.run, prityMin⟩
  lists := fun _ => []
  sdaThdlst := fun _ => ⟨none, 0⟩
  wlTdnr := fun _ => 0
  sdaCurrtd := some idle
  sdaCpuidle := some idle
  sdaSchdflgs := notsSchedFlgs
  sdaPremptidx := 0
  sdaPrityidx := 0
  sdaThreadnr := 0
  sclsThreadnr := 0

def setStus (td : Nat → Thread) (tdp : Nat) (stus : Tdstus) : Nat → Thread :=
  update td tdp { td tdp with tdStus := stus }

/-- `tdl_curruntd` is cleared if it is the thread, and `tdl_nr--`. -/
def Thrdlst.leave (l : Thrdlst) (tdp : Nat) : Thrdlst where
  tdlCurruntd := if l.tdlCurruntd = some tdp then none else l.tdlCurruntd
  tdlNr := l.tdlNr - 1

def Thrdlst.enter (l : Thrdlst) : Thrdlst := { l with tdlNr := l.tdlNr + 1 }

def krlschedRetnCurrthread (s : Schdata) : Halt Nat :=
  match s.sdaCurrtd with
  | none => .error "schdap->sda_currtd NULL"
  | some tdp => .ok tdp

def krlschedRetnIdlethread (s : Schdata) : Halt Nat :=
  match s.sdaCpuidle with
  | none => .error "schdap->sda_cpuidle NULL"
  | some tdp => .ok tdp

/-! ### Waiting and waking -/

def krlwlstAddThread (s : Schdata) (wlst tdp : Nat) : Schdata :=
  { s with
    lists := listAdd s.lists (.wait wlst) tdp
    wlTdnr := update s.wlTdnr wlst (s.wlTdnr wlst + 1) }

def krlwlstDelThread (s : Schdata) (wlst : Nat) : Option Nat × Schdata :=
  match s.lists (.wait wlst) with
  | [] => (none, s)
  | tdp :: _ =>
    if s.wlTdnr wlst < 1 then (none, s)
    else
      (some tdp, { s with
        lists := listDel s.lists tdp
        wlTdnr := update s.wlTdnr wlst (s.wlTdnr wlst - 1) })

/-- The current thread goes off its priority's ready threads with the status `stus`, to no list yet. -/
def leaveReady (s : Schdata) (tdp : Nat) (stus : Tdstus) : Schdata :=
  { s with
    td := setStus s.td tdp stus
    lists := listDel s.lists tdp
    sdaThdlst := update s.sdaThdlst (s.td tdp).tdPriority
      ((s.sdaThdlst (s.td tdp).tdPriority).leave tdp) }

def krlschedWait (s : Schdata) (wlst : Nat) : Halt Schdata :=
  krlschedRetnCurrthread s >>= fun tdp =>
    if prityMax ≤ (s.td tdp).tdPriority ∨ wlst = 0 then .error "krlsched_wait err"
    else if (s.sdaThdlst (s.td tdp).tdPriority).tdlNr < 1 then .error "krlsched_wait err"
    else .ok (krlwlstAddThread (leaveReady s tdp .wait) wlst tdp)

/-- The second half of `krlsched_up`: the thread taken off the wait list becomes ready. -/
def enterReady (s : Schdata) (tdp : Nat) : Schdata :=
  { s with
    td := setStus s.td tdp .run
    lists := listAddTail s.lists (.ready (s.td tdp).tdPriority) tdp
    sdaThdlst := update s.sdaThdlst (s.td tdp).tdPriority
      (s.sdaThdlst (s.td tdp).tdPriority).enter }

def krlschedUp (s : Schdata) (wlst : Nat) : Halt Schdata :=
  if wlst = 0 then .error "krlsched_up err"
  else
    match krlwlstDelThread s wlst with
    | (none, _) => .error "krlsched_up err"
    | (some tdp, s) =>
      if prityMax ≤ (s.td tdp).tdPriority then .error "krlsched_up err" else .ok (enterReady s tdp)

def krlwlstWait (s : Schdata) (wlst : Nat) : Halt Schdata := krlschedWait s wlst

def krlwlstUp (s : Schdata) (wlst : Nat) : Halt Schdata :=
  if s.lists (.wait wlst) = [] then .ok s else krlschedUp s wlst

def krlwlstAllupLoop (wlst : Nat) : Nat → Schdata → Halt Schdata
  | 0, s => .ok s
  | n + 1, s =>
    if s.lists (.wait wlst) = [] then .ok s
    else krlschedUp s wlst >>= krlwlstAllupLoop wlst n

/-- Every pass takes one thread off the list, so its length bounds the passes (`allup_spec`). -/
def krlwlstAllup (s : Schdata) (wlst : Nat) : Halt Schdata :=
  krlwlstAllupLoop wlst (s.lists (.wait wlst)).length s

/-! ### Selecting and switching -/

def runnable (s : Schdata) (tdp : Nat) : Bool :=
  decide ((s.td tdp).tdStus = .run) || decide ((s.td tdp).tdStus = .new)

/-- `tdtmp` comes off its list into the slot, and the slot's thread goes last on the list. -/
def takeSlot (s : Schdata) (pity tdtmp : Nat) : Schdata :=
  { s with
    lists :=
      match (s.sdaThdlst pity).tdlCurruntd with
      | some cur => listAddTail (listDel s.lists tdtmp) (.ready pity) cur
      | none => listDel s.lists tdtmp
    sdaThdlst := update s.sdaThdlst pity { s.sdaThdlst pity with tdlCurruntd := some tdtmp } }

def selectAt (s : Schdata) (pity : Nat) : Option (Nat × Schdata) :=
  match (s.lists (.ready pity)).find? (runnable s) with
  | some tdtmp => some (tdtmp, takeSlot s pity tdtmp)
  | none => (s.sdaThdlst pity).tdlCurruntd.map fun tdp => (tdp, s)

def krlschedSelectThread (s : Schdata) : Halt (Nat × Schdata) :=
  match (List.range prityMax).findSome? (selectAt s) with
  | some r => .ok r
  | none => krlschedRetnIdlethread s >>= fun tdp => .ok (tdp, { s with sdaPrityidx := prityMin })

/-- `__to_new_context`, as far as the scheduler's data go. -/
def toNewContext (s : Schdata) (next : Nat) : Schdata :=
  { s with
    sdaCurrtd := some next
    td := if (s.td next).tdStus = .new then setStus s.td next .run else s.td }

def krlschedSetSchedflgsEx (s : Schdata) (flags : Nat) : Schdata := { s with sdaSchdflgs := flags }

def krlschedSetSchedflgs (s : Schdata) : Schdata := krlschedSetSchedflgsEx s needSchedFlgs

/-- With `NEED_START_CPUILDE_SCHED_FLGS` the idle thread's context is entered and no thread is selected. -/
def krlschedul (s : Schdata) : Halt Schdata :=
  if s.sdaSchdflgs = needStartCpuildeSchedFlgs then
    krlschedRetnIdlethread s >>= fun _ => .ok (krlschedSetSchedflgsEx s notsSchedFlgs)
  else
    krlschedRetnCurrthread s >>= fun _ =>
      krlschedSelectThread s >>= fun r => .ok (toNewContext r.2 r.1)

def krlschedChkneedPmptsched (s : Schdata) : Halt Schdata :=
  if s.sdaSchdflgs = needSchedFlgs ∧ s.sdaPremptidx = pmptFlgs then
    krlschedul (krlschedSetSchedflgsEx s notsSchedFlgs)
  else if s.sdaSchdflgs = needStartCpuildeSchedFlgs then krlschedul s
  else .ok s

/-! ### Threads that come and go -/

def krlschdclassDelThreadAddexit (s : Schdata) (thdp : Nat) : Schdata :=
  let s' := leaveReady s thdp .exit
  { s' with lists := listAdd s'.lists .exit thdp, sdaThreadnr := s'.sdaThreadnr - 1 }

def krlschedExit (s : Schdata) : Halt Schdata :=
  krlschedRetnCurrthread s >>= fun tdp =>
    krlschedRetnIdlethread s >>= fun idle =>
      if tdp = idle then .error "krlsched_exit"
      else if prityMax ≤ (s.td tdp).tdPriority then .error "krlsched_wait err"
      else if (s.sdaThdlst (s.td tdp).tdPriority).tdlNr < 1 then .error "krlsched_wait err"
      else .ok (krlschdclassDelThreadAddexit s tdp)

def krlschdclassAddThread (s : Schdata) (thdp : Nat) : Schdata :=
  { s with
    lists := listAdd s.lists (.ready (s.td thdp).tdPriority) thdp
    sdaThdlst := update s.sdaThdlst (s.td thdp).tdPriority
      (s.sdaThdlst (s.td thdp).tdPriority).enter
    sdaThreadnr := s.sdaThreadnr + 1
    sclsThreadnr := s.sclsThreadnr + 1 }

/-! ### Steps -/

/-- The calls into the scheduler; `wait` and `exit` are made by the current thread. -/
inductive Act
  | add (thdp : Nat)
  | schedul
  | wait (wlst : Nat)
  | up (wlst : Nat)
  | wlstUp (wlst : Nat)
  | allup (wlst : Nat)
  | exit
  | setflgs (flags : Nat)
  | chkneed
  deriving DecidableEq, Repr

def exec (s : Schdata) : Act → Halt Schdata
  | .add thdp => .ok (krlschdclassAddThread s thdp)
  | .schedul => krlschedul s
  | .wait wlst => krlwlstWait s wlst
  | .up wlst => krlschedUp s wlst
  | .wlstUp wlst => krlwlstUp s wlst
  | .allup wlst => krlwlstAllup s wlst
  | .exit => krlschedExit s
  | .setflgs flags => .ok (krlschedSetSchedflgsEx s flags)
  | .chkneed => krlschedChkneedPmptsched s

def Act.added : Act → Finset Nat → Finset Nat
  | .add thdp, added => insert thdp added
  | _, added => added

/-- A thread is added once, with a priority of the table, and the idle thread is not added. -/
def Act.Fresh (s : Schdata) (added : Finset Nat) : Act → Prop
  | .add thdp => thdp ∉ added ∧ s.sdaCpuidle ≠ some thdp ∧ (s.td thdp).tdPriority < prityMax
  | _ => True

instance (s : Schdata) (added : Finset Nat) : (a : Act) → Decidable (a.Fresh s added)
  | .add thdp =>
    inferInstanceAs (Decidable (thdp ∉ added ∧ s.sdaCpuidle ≠ some thdp ∧ (s.td thdp).tdPriority < prityMax))
  | .schedul | .wait _ | .up _ | .wlstUp _ | .allup _ | .exit | .setflgs _ | .chkneed => isTrue trivial

/-- The idle thread neither waits nor exits. -/
def Act.NonIdle (s : Schdata) : Act → Prop
  | .wait _ => s.sdaCurrtd ≠ s.sdaCpuidle
  | .exit => s.sdaCurrtd ≠ s.sdaCpuidle
  | _ => True

instance (s : Schdata) : (a : Act) → Decidable (a.NonIdle s)
  | .wait _ | .exit => inferInstanceAs (Decidable (s.sdaCurrtd ≠ s.sdaCpuidle))
  | .add _ | .schedul | .up _ | .wlstUp _ | .allup _ | .setflgs _ | .chkneed => isTrue trivial

def Parked (s : Schdata) (tdp : Nat) : Prop := (∃ wlst, tdp ∈ s.lists (.wait wlst)) ∨ tdp ∈ s.lists .exit

/-- A thread that waits or exits has been woken or scheduled since it last waited, and has not exited. -/
def Act.Running (s : Schdata) : Act → Prop
  | .wait _ => ∀ tdp, s.sdaCurrtd = some tdp → ¬ Parked s tdp
  | .exit => ∀ tdp, s.sdaCurrtd = some tdp → ¬ Parked s tdp
  | _ => True

def Step (guard : Schdata → Act → Prop) (x : Schdata × Finset Nat) (a : Act) (y : Schdata × Finset Nat) : Prop :=
  a.Fresh x.1 x.2 ∧ guard x.1 a ∧ exec x.1 a = .ok y.1 ∧ y.2 = a.added x.2

theorem Trace.call {guard : Schdata → Act → Prop} {s s' : Schdata} {added : Finset Nat} {a : Act} {acts : List Act}
    {y : Schdata × Finset Nat} (hexec : exec s a = .ok s') (hfresh : a.Fresh s added) (hguard : guard s a)
    (hrest : Trace (Step guard) (s', a.added added) acts y) : Trace (Step guard) (s, added) (a :: acts) y :=
  .cons ⟨hfresh, hguard, hexec, rfl⟩ hrest

end Cosmos.Sched
