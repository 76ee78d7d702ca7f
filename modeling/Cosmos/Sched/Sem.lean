import Cosmos.Sched.Linked
import Mathlib.Tactic

/-!
# Semaphores

`krlsem.c` over the scheduler: one pass of the retry loop of `krlsem_down` and the whole of `krlsem_up` are made under
`sem_lock`, so each is one step, and any calls into the scheduler may stand between them. The only thing that puts a
thread on the semaphore's wait list is a pass that finds no permit, and an up empties the list, so that a thread waits
only while the count is zero. Nothing is assumed of who makes a pass: the argument needs `Linked` alone.
-/

namespace Cosmos.Sched

open Cosmos.Lib

def sint (n : Int) : Int := n.bmod (2 ^ 64)

theorem sint_of_range {n : Int} (hlo : -2 ^ 63 ≤ n) (hhi : n < 2 ^ 63) : sint n = n := by
  unfold sint
  rw [Int.bmod_eq_of_le_mul_two] <;> omega

/-- `sem_t`, with the pointer to its `sem_waitlst`. -/
structure Sem where
  semCount : Int
  semWaitlst : Nat
  deriving DecidableEq, Repr

/-- One pass of the loop of `krlsem_down`: whether the permit was taken. On `false` the caller goes on with
`krlschedul` and another pass. -/
def krlsemDownPass (s : Schdata) (sem : Sem) : Halt (Bool × Schdata × Sem) :=
  if sem.semCount < 1 then krlwlstWait s sem.semWaitlst >>= fun s' => .ok (false, s', sem)
  else .ok (true, s, { sem with semCount := sint (sem.semCount - 1) })

def krlsemUp (s : Schdata) (sem : Sem) : Halt (Schdata × Sem) :=
  let sem' := { sem with semCount := sint (sem.semCount + 1) }
  if sem'.semCount < 1 then .error "sem up err"
  else krlwlstAllup s sem'.semWaitlst >>= fun s' => .ok (krlschedSetSchedflgs s', sem')

/-! ### Nobody else waits on the list -/

section Waiting

variable {s s' : Schdata} {added : Finset Nat} {wlst : Nat}

def NoJoin (wlst : Nat) (s s' : Schdata) : Prop := ∀ t ∈ s'.lists (.wait wlst), t ∈ s.lists (.wait wlst)

theorem TakenOff.noJoin {c : Nat} (h : TakenOff s s' c) (hl : Linked s added) : NoJoin wlst s s' := by
  intro t ht
  rw [h.lists, hl.shared.mem_listDel] at ht
  exact ht.2

theorem PutOn.noJoin {k : Listh} {c : Nat} (h : PutOn s s' k c) (hk : Listh.wait wlst ≠ k) : NoJoin wlst s s' := by
  intro t ht
  rcases (h.mem_iff _ t).mp ht with ⟨-, heq⟩ | ht
  · exact absurd heq hk
  · exact ht

theorem NoJoin.trans {s'' : Schdata} (h : NoJoin wlst s s') (h' : NoJoin wlst s' s'') : NoJoin wlst s s'' :=
  fun t ht => h t (h' t ht)

theorem noJoin_krlschedUp {w : Nat} (hl : Linked s added) (h : krlschedUp s w = .ok s') : NoJoin wlst s s' := by
  obtain ⟨tdp, mid, hdel, rfl⟩ := krlschedUp_cases h
  exact ((takenOff_krlwlstDelThread hl hdel).noJoin hl).trans ((putOn_enterReady mid tdp).noJoin (by simp))

theorem noJoin_krlwlstAllup {w : Nat} (hl : Linked s added) (h : krlwlstAllup s w = .ok s') : NoJoin wlst s s' := by
  have hboth := allupLoop_inv (P := fun t => Linked t added ∧ NoJoin wlst s t)
    (fun _ _ ht hup => ⟨linked_krlschedUp ht.1 hup, ht.2.trans (noJoin_krlschedUp ht.1 hup)⟩) _ s s'
    ⟨hl, fun _ ht => ht⟩ h
  exact hboth.2

theorem noJoin_krlschedul (hl : Linked s added) (h : krlschedul s = .ok s') : NoJoin wlst s s' := by
  rcases krlschedul_cases h with rfl | ⟨next, mid, hsel, rfl⟩
  · exact fun _ ht => ht
  · rcases krlschedSelectThread_cases hsel with ⟨pity, -, rfl⟩ | ⟨pity, -, rfl⟩ | ⟨-, rfl⟩
    · intro t ht
      rcases (mem_takeSlot hl _ t).mp ht with ⟨-, hk⟩ | ⟨-, ht⟩
      · cases hk
      · exact ht
    · exact fun _ ht => ht
    · exact fun _ ht => ht

theorem noJoin_exec {a : Act} (hl : Linked s added) (ha : a ≠ .wait wlst) (h : exec s a = .ok s') :
    NoJoin wlst s s' := by
  cases a with
  | add thdp =>
    cases h
    exact (putOn_krlschdclassAddThread s thdp).noJoin (by simp)
  | schedul => exact noJoin_krlschedul hl h
  | wait w =>
    obtain ⟨tdp, -, -, -, rfl⟩ := krlschedWait_cases h
    refine ((takenOff_leaveReady hl tdp .wait).noJoin hl).trans ?_
    exact (putOn_krlwlstAddThread _ w tdp).noJoin fun heq => ha (by rw [Listh.wait.inj heq])
  | up w => exact noJoin_krlschedUp hl h
  | wlstUp w =>
    simp only [exec, krlwlstUp] at h
    split_ifs at h
    · cases h
      exact fun _ ht => ht
    · exact noJoin_krlschedUp hl h
  | allup w => exact noJoin_krlwlstAllup hl h
  | exit =>
    obtain ⟨tdp, -, -, rfl⟩ := krlschedExit_cases h
    exact ((takenOff_leaveReady hl tdp .exit).noJoin hl).trans
      ((putOn_krlschdclassDelThreadAddexit s tdp).noJoin (by simp))
  | setflgs flags =>
    cases h
    exact fun _ ht => ht
  | chkneed =>
    rcases krlschedChkneedPmptsched_cases h with rfl | hrun | hrun
    · exact fun _ ht => ht
    · exact noJoin_krlschedul hl hrun
    · exact noJoin_krlschedul (s := krlschedSetSchedflgsEx s notsSchedFlgs) (linked_setSchedflgsEx hl _) hrun

end Waiting

/-! ### Steps -/

/-- What may happen under the semaphore's lock, or in the scheduler between. -/
inductive Event
  | down
  | up
  | call (a : Act)
  deriving DecidableEq, Repr

/-- The machine and the semaphore, with the threads added, the ups and the completed downs so far. -/
structure SemSys where
  sched : Schdata
  sem : Sem
  added : Finset Nat
  ups : Nat
  downs : Nat

def SemSys.start (td : Nat → Thread) (idle wlst : Nat) (c0 : Int) : SemSys :=
  ⟨initKrlsched td idle, ⟨c0, wlst⟩, ∅, 0, 0⟩

/-- One step that returns. Only `krlsem_down` waits on the semaphore's list. -/
inductive SemStep : SemSys → Event → SemSys → Prop
  | down {x : SemSys} {taken : Bool} {s : Schdata} {sem : Sem} :
      krlsemDownPass x.sched x.sem = .ok (taken, s, sem) →
      SemStep x .down { x with sched := s, sem := sem, downs := x.downs + if taken then 1 else 0 }
  | up {x : SemSys} {s : Schdata} {sem : Sem} :
      krlsemUp x.sched x.sem = .ok (s, sem) → SemStep x .up { x with sched := s, sem := sem, ups := x.ups + 1 }
  | call {x : SemSys} {a : Act} {s : Schdata} :
      a.Fresh x.sched x.added → a ≠ .wait x.sem.semWaitlst → exec x.sched a = .ok s →
      SemStep x (.call a) { x with sched := s, added := a.added x.added }

/-- The count is what came in less what was taken, and somebody waits only for want of a permit. -/
structure SemOk (c0 : Int) (x : SemSys) : Prop where
  count : x.sem.semCount = c0 + x.ups - x.downs
  nonneg : 0 ≤ x.sem.semCount
  waiting : x.sched.lists (.wait x.sem.semWaitlst) ≠ [] → x.sem.semCount = 0

/-- What every step keeps, while the ups fit into a `sint_t`. -/
structure SemInv (wlst : Nat) (c0 : Int) (x : SemSys) : Prop where
  linked : Linked x.sched x.added
  waitlst : x.sem.semWaitlst = wlst
  ok : c0 + x.ups < 2 ^ 63 → SemOk c0 x

section Runs

variable {wlst : Nat} {c0 : Int} {x y : SemSys}

theorem SemOk.count_le (h : SemOk c0 x) : x.sem.semCount ≤ c0 + x.ups := by
  rw [h.count]
  omega

theorem NoJoin.ne_nil {s s' : Schdata} (h : NoJoin wlst s s') (hne : s'.lists (.wait wlst) ≠ []) :
    s.lists (.wait wlst) ≠ [] := by
  obtain ⟨t, ht⟩ := List.exists_mem_of_ne_nil _ hne
  exact List.ne_nil_of_mem (h t ht)

theorem semInv_down {taken : Bool} {s : Schdata} {sem : Sem} (h : SemInv wlst c0 x)
    (hdown : krlsemDownPass x.sched x.sem = .ok (taken, s, sem)) :
    SemInv wlst c0 { x with sched := s, sem := sem, downs := x.downs + if taken then 1 else 0 } := by
  unfold krlsemDownPass at hdown
  split_ifs at hdown with hcount
  · obtain ⟨s', hwait, hret⟩ := Halt.bind_eq_ok hdown
    cases hret
    refine ⟨linked_krlschedWait h.linked hwait, h.waitlst, fun hbound => ?_⟩
    have hok := h.ok hbound
    have hnonneg := hok.nonneg
    exact ⟨by simpa using hok.count, hnonneg, fun _ => by simp only; omega⟩
  · cases hdown
    refine ⟨h.linked, h.waitlst, fun hbound => ?_⟩
    change c0 + x.ups < 2 ^ 63 at hbound
    have hok := h.ok hbound
    have hle := hok.count_le
    have hcnt := hok.count
    have hsint : sint (x.sem.semCount - 1) = x.sem.semCount - 1 := sint_of_range (by omega) (by omega)
    refine ⟨?_, ?_, fun hne => ?_⟩
    · simp only [hsint, if_true]
      push_cast
      omega
    · simp only [hsint]
      omega
    · -- with a permit there nobody was waiting
      have hzero := hok.waiting hne
      omega

theorem krlsemUp_returns (h : SemInv wlst c0 x) (hwlst : wlst ≠ 0) (hbound : c0 + x.ups + 1 < 2 ^ 63) :
    ∃ s sem, krlsemUp x.sched x.sem = .ok (s, sem) := by
  have hok := h.ok (by omega)
  have hle := hok.count_le
  have hnonneg := hok.nonneg
  have hsint : sint (x.sem.semCount + 1) = x.sem.semCount + 1 := sint_of_range (by omega) (by omega)
  have hlist : x.sem.semWaitlst ≠ 0 := h.waitlst ▸ hwlst
  obtain ⟨s, hs, -⟩ := allup_spec hlist h.linked
  unfold krlsemUp
  simp only [hsint]
  rw [if_neg (by omega), Halt.bind_of_ok hs]
  exact ⟨_, _, rfl⟩

theorem semInv_up {s : Schdata} {sem : Sem} (h : SemInv wlst c0 x) (hwlst : wlst ≠ 0)
    (hup : krlsemUp x.sched x.sem = .ok (s, sem)) :
    SemInv wlst c0 { x with sched := s, sem := sem, ups := x.ups + 1 } := by
  unfold krlsemUp at hup
  simp only at hup
  split_ifs at hup with hcount
  obtain ⟨s', hall, hret⟩ := Halt.bind_eq_ok hup
  cases hret
  have hlinked : Linked s' x.added :=
    allupLoop_inv (P := (Linked · x.added)) (fun _ _ => linked_krlschedUp) _ _ s' h.linked hall
  have hlist : x.sem.semWaitlst ≠ 0 := h.waitlst ▸ hwlst
  obtain ⟨t, ht, hnil⟩ := allup_spec hlist h.linked
  rw [hall] at ht
  cases ht
  refine ⟨linked_setSchedflgsEx hlinked _, h.waitlst, fun hbound => ?_⟩
  simp only at hbound
  have hok := h.ok (by omega)
  have hle := hok.count_le
  have hnonneg := hok.nonneg
  have hcnt := hok.count
  have hsint : sint (x.sem.semCount + 1) = x.sem.semCount + 1 := sint_of_range (by omega) (by omega)
  refine ⟨?_, ?_, fun hne => absurd hnil hne⟩
  · simp only [hsint]
    omega
  · simp only [hsint]
    omega

theorem semInv_call {a : Act} {s : Schdata} (h : SemInv wlst c0 x) (hfresh : a.Fresh x.sched x.added)
    (ha : a ≠ .wait x.sem.semWaitlst) (hexec : exec x.sched a = .ok s) :
    SemInv wlst c0 { x with sched := s, added := a.added x.added } := by
  refine ⟨linked_exec h.linked hfresh hexec, h.waitlst, fun hbound => ?_⟩
  have hok := h.ok hbound
  exact ⟨hok.count, hok.nonneg, fun hne => hok.waiting ((noJoin_exec h.linked ha hexec).ne_nil hne)⟩

theorem semInv_step {e : Event} (hwlst : wlst ≠ 0) (h : SemInv wlst c0 x) (hstep : SemStep x e y) :
    SemInv wlst c0 y := by
  cases hstep with
  | down hdown => exact semInv_down h hdown
  | up hup => exact semInv_up h hwlst hup
  | call hfresh ha hexec => exact semInv_call h hfresh ha hexec

theorem semInv_start {td : Nat → Thread} {idle : Nat} (h0 : 0 ≤ c0) : SemInv wlst c0 (.start td idle wlst c0) where
  linked := linked_initKrlsched td idle
  waitlst := rfl
  ok := fun _ => ⟨by simp [SemSys.start], h0, fun hne => absurd rfl hne⟩

/-- **The count of a semaphore is exact, an up never stops the machine, and nobody waits while there is a permit.** -/
theorem semaphore_of_run {td : Nat → Thread} {idle : Nat} {events : List Event} (hwlst : wlst ≠ 0) (h0 : 0 ≤ c0)
    (hrun : Trace SemStep (.start td idle wlst c0) events y) (hbound : c0 + y.ups < 2 ^ 63) :
    y.sem.semCount = c0 + y.ups - y.downs ∧ 0 ≤ y.sem.semCount ∧
      (y.sched.lists (.wait wlst) ≠ [] → y.sem.semCount = 0) ∧
      (c0 + y.ups + 1 < 2 ^ 63 → ∃ s sem, krlsemUp y.sched y.sem = .ok (s, sem)) := by
  have hinv : SemInv wlst c0 y :=
    hrun.keeps (J := SemInv wlst c0) (fun _ _ _ h hstep => semInv_step hwlst h hstep) (semInv_start h0)
  have hok := hinv.ok hbound
  exact ⟨hok.count, hok.nonneg, hinv.waitlst ▸ hok.waiting, krlsemUp_returns hinv hwlst⟩

end Runs

/-- Two threads of priority 0 on a semaphore of one permit: the first takes it, the second waits. -/
theorem semaphore_of_two_downs :
    ∃ y, Trace SemStep (.start (fun _ => ⟨.new, 0⟩) 3 1 1)
        [.call (.add 1), .call (.add 2), .call .schedul, .down, .call .schedul, .down] y ∧
      y.sched.lists (.wait 1) ≠ [] ∧ y.sem.semCount = 0 := by
  have hrun : ∃ y, Trace SemStep (.start (fun _ => ⟨.new, 0⟩) 3 1 1)
        [.call (.add 1), .call (.add 2), .call .schedul, .down, .call .schedul, .down] y ∧
      y.sched.lists (.wait 1) ≠ [] ∧ y.ups = 0 := by
    refine ⟨_, .cons (.call (by decide) (by decide) rfl) (.cons (.call (by decide) (by decide) rfl)
      (.cons (.call trivial (by decide) rfl) (.cons (.down rfl)
        (.cons (.call trivial (by decide) rfl) (.cons (.down rfl) (.nil _)))))), ?_, rfl⟩
    decide
  obtain ⟨y, hy, hne, hups⟩ := hrun
  exact ⟨y, hy, hne, (semaphore_of_run (by decide) (by decide) hy (by rw [hups]; decide)).2.2.1 hne⟩

end Cosmos.Sched
