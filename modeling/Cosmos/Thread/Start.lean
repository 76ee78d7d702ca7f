import Cosmos.Thread.Memory

/-!
# Starting a program

`krlnew_thread` puts the new thread on its ready list before `krlsve_core_exel_thread` makes the interval of the
program. When that fails, because the file is too long or there is no descriptor for the interval, the call answers
`SYSSTUSERR` and the thread stays on the list without its program.
-/

namespace Cosmos.Thread

open Cosmos.Lib Halt Cosmos.Page Cosmos.Mmu Cosmos.Vma Cosmos.Krlmm Cosmos.Sched

variable {A : PageAlloc} {x y : Kern A}

/-! ### What does not touch the scheduler -/

/-- The ready lists, and with them all lists of threads, and the counts of threads. -/
structure SameQueues (s t : Schdata) : Prop where
  lists : t.lists = s.lists
  thdlst : t.sdaThdlst = s.sdaThdlst
  threadnr : t.sdaThreadnr = s.sdaThreadnr
  sclsThreadnr : t.sclsThreadnr = s.sclsThreadnr

theorem SameQueues.of_eq {s t : Schdata} (h : t = s) : SameQueues s t := by
  subst h
  exact ⟨rfl, rfl, rfl, rfl⟩

theorem sched_newMmadrsdsc (x : Kern A) : Yields False (newMmadrsdsc x) fun r => r.2.sched = x.sched := by
  refine (only_kmsobNew x _).bind ?_
  rintro ⟨_ | mm, y⟩ hy
  · exact .pure hy.sched_eq
  · refine (spaces_kvmaInituserspaceVirmemadrs _ mm).bind ?_
    rintro ⟨rets, z⟩ hz
    refine ⟨fun r hr => ?_, False.elim⟩
    obtain ⟨⟨rets, st⟩, -, hr⟩ := bind_eq_ok (x := halMmuInit z.mbPml4padr (z.st mm)) hr
    obtain rfl := Except.ok.inj hr
    exact hz.sched_eq.trans hy.sched_eq

theorem sched_delMmadrsdsc (x : Kern A) (mm : Nat) :
    Yields False (delMmadrsdsc x mm) fun r => r.2.sched = x.sched := by
  refine ⟨fun r hr => ?_, False.elim⟩
  obtain ⟨⟨rets, st⟩, -, hr⟩ := bind_eq_ok hr
  dsimp only at hr
  split_ifs at hr
  · obtain rfl := Except.ok.inj hr
    rfl
  · exact ((only_kmsobDelete (x.setSt mm st) _ _).post r hr).sched_eq

theorem sched_threadName (x : Kern A) (thread : Nat) (name : Option (List UInt8)) :
    Yields False (threadName x thread name) fun y => y.sched = x.sched := by
  cases name with
  | none => exact .pure rfl
  | some name =>
    unfold threadName
    dsimp only
    split_ifs
    · exact .pure rfl
    · refine (only_krlnew x _).bind ?_
      rintro ⟨_ | a, y⟩ hy
      · exact .pure hy.sched_eq
      · exact .pure hy.sched_eq

theorem sched_vmaNewVadrs (x : Kern A) (mm start vassize vaslimits vastype : Nat) :
    Yields False (vmaNewVadrs x mm start vassize vaslimits vastype) fun r => r.2.sched = x.sched := by
  unfold vmaNewVadrs
  split_ifs
  · exact (only_kmsobNew x _).bind fun r hr => .pure hr.sched_eq
  · exact .pure rfl

theorem sched_krlthreadExecvl (file : Option (List UInt8) → Nat × Nat) (x : Kern A) (thread : Option Nat)
    (filename : Option (List UInt8)) :
    Yields False (krlthreadExecvl file x thread filename) fun r => r.2.sched = x.sched := by
  cases thread with
  | none => exact .pure rfl
  | some thread =>
    cases filename with
    | none => exact .pure rfl
    | some filename =>
      unfold krlthreadExecvl
      dsimp only
      split_ifs
      · exact .pure rfl
      · exact .pure rfl
      · exact .pure rfl
      · have hinit : Yields False (kvmaInitdefaultVirmemadrs x (x.td thread).tdMmdsc apprunStartVitrualaddr
            (file (some filename)).2 kmvBinType) fun r => r.2.sched = x.sched := by
          cases (x.td thread).tdMmdsc with
          | none => exact .pure rfl
          | some mm =>
            unfold kvmaInitdefaultVirmemadrs
            dsimp only
            split_ifs
            · exact .pure rfl
            · exact sched_vmaNewVadrs x mm _ _ _ _
        refine hinit.bind fun r hr => ?_
        split_ifs
        · exact .pure hr
        · exact .pure hr

/-! ### What queues a thread -/

theorem queues_krlnewThreadDsc (x : Kern A) :
    Yields False (krlnewThreadDsc x) fun r => SameQueues x.sched r.2.sched := by
  refine (only_krlnew x _).bind ?_
  rintro ⟨_ | rettdp, y⟩ hy
  · exact .pure (.of_eq hy.sched_eq)
  · rw [← hy.sched_eq]
    exact .pure ⟨rfl, rfl, rfl, rfl⟩

/-- What making a thread does to the queues: nothing if it fails, and one more thread if it does not. -/
def QueuedIf (s : Schdata) (r : Option Nat × Kern A) : Prop :=
  match r.1 with
  | none => SameQueues s r.2.sched
  | some thdp => ∃ s', SameQueues s s' ∧ ∃ prity, r.2.sched = enqueue s' thdp prity

theorem queues_krlnewUserThreadCore (x : Kern A) (name : Option (List UInt8)) (prilg prity usrstksz krlstksz : Nat) :
    Yields False (krlnewUserThreadCore x name prilg prity usrstksz krlstksz) (QueuedIf x.sched) := by
  refine (sched_newMmadrsdsc x).bind ?_
  rintro ⟨_ | mm, y⟩ hy
  · exact .pure (.of_eq hy)
  have hdel : ∀ z : Kern A, SameQueues x.sched z.sched →
      Yields False (delMmadrsdsc z mm >>= fun r => .ok ((none : Option Nat), r.2)) (QueuedIf x.sched) :=
    fun z hz => (sched_delMmadrsdsc z mm).bind fun r hr => .pure (show SameQueues x.sched r.2.sched from hr ▸ hz)
  have hyq : SameQueues x.sched y.sched := .of_eq hy
  dsimp only
  cases (y.vma mm).kmvd? (y.vma mm).vsStackkmvdsc with
  | none => exact hdel y hyq
  | some stackkmvdsc =>
    dsimp only
    split_ifs
    · exact hdel y hyq
    · exact hdel y hyq
    refine (only_krlnew y _).bind ?_
    rintro ⟨_ | krlstkadr, z⟩ hz
    · exact hdel z (.of_eq (hz.sched_eq.trans hy))
    refine (queues_krlnewThreadDsc z).bind ?_
    rintro ⟨_ | retTd, w⟩ hw
    · refine (only_krldelete w _ _).bind fun r hr => hdel r.2 ?_
      rw [hr.sched_eq, ← hz.sched_eq.trans hy]
      exact hw
    · refine (sched_threadName w retTd name).bind fun v hv => .pure ?_
      refine ⟨v.sched, ?_, prity, rfl⟩
      rw [hv, ← hz.sched_eq.trans hy]
      exact hw

theorem queues_krlnewKernThreadCore (x : Kern A) (name : Option (List UInt8)) (prilg prity krlstksz : Nat) :
    Yields False (krlnewKernThreadCore x name prilg prity krlstksz) (QueuedIf x.sched) := by
  refine (only_krlnew x _).bind ?_
  rintro ⟨_ | krlstkadr, y⟩ hy
  · exact .pure (.of_eq hy.sched_eq)
  refine (queues_krlnewThreadDsc y).bind ?_
  rintro ⟨_ | retTd, z⟩ hz
  · refine (only_krldelete z _ _).bind fun r hr => .pure (show SameQueues x.sched r.2.sched from ?_)
    rw [hr.sched_eq, ← hy.sched_eq]
    exact hz
  · refine (sched_threadName z retTd name).bind fun v hv => .pure ⟨v.sched, ?_, prity, rfl⟩
    rw [hv, ← hy.sched_eq]
    exact hz

theorem queues_krlnewThread (x : Kern A) (name : Option (List UInt8))
    (filerun flg prilg prity usrstksz krlstksz : Nat) :
    Yields False (krlnewThread x name filerun flg prilg prity usrstksz krlstksz) (QueuedIf x.sched) := by
  have hnone : Yields False (.ok ((none : Option Nat), x)) (QueuedIf x.sched) := .pure (SameQueues.of_eq rfl)
  unfold krlnewThread
  dsimp only
  generalize (if usrstksz < daftTdusrstksz then _ else usrstksz) = tustksz
  generalize (if krlstksz < daftTdkrlstksz then _ else krlstksz) = tkstksz
  split_ifs
  · exact hnone
  · exact hnone
  · exact queues_krlnewKernThreadCore x name prilg prity tkstksz
  · exact queues_krlnewUserThreadCore x name prilg prity tustksz tkstksz
  · exact hnone

/-! ### A failed start -/

/-- There is such a file, and the memory manager serves all that a thread for it is made of, a root table apart. -/
def ThreadServed (file : Option (List UInt8) → Nat × Nat) (x : Kern A) (tdname : Option (List UInt8)) : Prop :=
  (file tdname).1 ≠ 0 ∧ (file tdname).2 ≠ 0 ∧ Serves x.krlmm (threadReqs false daftTdkrlstksz)

theorem krlnewThread_user (x : Kern A) (name : Option (List UInt8)) :
    krlnewThread x name apprunStartVitrualaddr userthreadFlg prilgUsr prityMin daftTdusrstksz daftTdkrlstksz =
      krlnewUserThreadCore x name prilgUsr prityMin daftTdusrstksz daftTdkrlstksz := by
  rw [krlnewThread, if_neg (by decide), if_neg (by decide)]
  rfl

/-- **A start that answers `SYSSTUSERR` leaves the ready lists and the thread counts as they were exactly if there is no
such file or the memory manager, as it is before the call, refuses a part of the thread.** -/
theorem failed_start_iff_refused {L : Lawful A} {addr : Nat → Nat} {rest : List Blk} (hgood : Good L addr rest x)
    {file : Option (List UInt8) → Nat × Nat} {tdname : Option (List UInt8)}
    (h : krlsveCoreExelThread file x tdname = .ok (sysstuserr, y)) :
    SameQueues x.sched y.sched ↔ ¬ ThreadServed file x tdname := by
  unfold krlsveCoreExelThread at h
  split_ifs at h with hfile
  · obtain ⟨-, rfl⟩ := pair_inj h
    refine iff_of_true (.of_eq rfl) fun hserved => ?_
    exact hfile.elim hserved.1 hserved.2.1
  obtain ⟨⟨t, z⟩, hnew, h⟩ := bind_eq_ok h
  obtain ⟨⟨t', w⟩, hexec, h⟩ := bind_eq_ok h
  have hqueued := (queues_krlnewThread x tdname _ _ _ _ _ _).post _ hnew
  have hsched : w.sched = z.sched := (sched_krlthreadExecvl file z t tdname).post _ hexec
  have hend : y = w := by
    cases t' with
    | none => exact (pair_inj h).2.symm
    | some t' => exact (pair_inj h).2.symm
  rw [krlnewThread_user] at hnew
  have hmade := made_iff hgood hnew
  rw [hend, hsched]
  cases t with
  | none =>
    refine iff_of_true hqueued ?_
    rintro ⟨-, -, hserves⟩
    exact absurd (hmade.mpr ⟨by decide, hserves⟩) (by simp)
  | some t =>
    refine iff_of_false (fun hsame => ?_) fun hno =>
      hno ⟨fun h0 => hfile (.inl h0), fun h0 => hfile (.inr h0), (hmade.mp rfl).2⟩
    obtain ⟨s', hs', prity, heq⟩ := hqueued
    have hcount := hsame.sclsThreadnr
    rw [show z.sched = enqueue s' t prity from heq, ← hs'.sclsThreadnr] at hcount
    exact absurd hcount (Nat.succ_ne_self _)

/-- With four pages there is no thread, for lack of a kernel stack. -/
theorem failed_start_of_four : ∃ s₀ y, boot (freePages 4) = .ok s₀ ∧
    krlsveCoreExelThread (fun _ => (1, 5)) (booted s₀) (some [97]) = .ok (sysstuserr, y) ∧
    SameQueues (booted s₀).sched y.sched := by
  obtain ⟨⟨s₀, served, ret, y⟩, hall, hseen⟩ := exists_of_map (b := (false, sysstuserr))
    (x := do
      let s₀ ← boot (freePages 4)
      let served ← grants (booted s₀).krlmm (threadReqs false daftTdkrlstksz)
      let start ← krlsveCoreExelThread (fun _ => (1, 5)) (booted s₀) (some [97])
      .ok (s₀, served, start))
    (f := fun r => (r.2.1, r.2.2.1)) (by decide +kernel)
  obtain ⟨_, hboot, hall⟩ := bind_eq_ok hall
  obtain ⟨_, hserved, hall⟩ := bind_eq_ok hall
  obtain ⟨_, hrun, hall⟩ := bind_eq_ok hall
  cases hall
  obtain ⟨rfl, rfl⟩ := Prod.mk.inj hseen
  have hgood := good_booted (freePages_mapped (by decide) (by decide)) hboot
  refine ⟨s₀, y, hboot, hrun, (failed_start_iff_refused hgood hrun).mpr ?_⟩
  rintro ⟨-, -, hserves⟩
  cases hserved.symm.trans hserves

def newKmvarsdscs : Nat → Kern A → Halt (Kern A)
  | 0, x => .ok x
  | n + 1, x => newKmvarsdsc x >>= fun r => newKmvarsdscs n r.2

/-- **With fourteen pages and twenty-six intervals elsewhere the thread takes the last free descriptors, and there is
none for its program: the start fails and leaves the thread on the ready list.** -/
theorem failed_start_queued : ∃ s₀ x y, boot (freePages 14) = .ok s₀ ∧ newKmvarsdscs 26 (booted s₀) = .ok x ∧
    krlsveCoreExelThread (fun _ => (1, 5)) x (some [97]) = .ok (sysstuserr, y) ∧ ¬ SameQueues x.sched y.sched := by
  obtain ⟨⟨s₀, x, ret, y⟩, hall, hseen⟩ := exists_of_map (b := (sysstuserr, 0, 1))
    (x := do
      let s₀ ← boot (freePages 14)
      let x ← newKmvarsdscs 26 (booted s₀)
      let start ← krlsveCoreExelThread (fun _ => (1, 5)) x (some [97])
      .ok (s₀, x, start))
    (f := fun r => (r.2.2.1, r.2.1.sched.sclsThreadnr, r.2.2.2.sched.sclsThreadnr)) (by decide +kernel)
  obtain ⟨_, hboot, hall⟩ := bind_eq_ok hall
  obtain ⟨_, hx, hall⟩ := bind_eq_ok hall
  obtain ⟨_, hrun, hall⟩ := bind_eq_ok hall
  cases hall
  obtain ⟨rfl, hbefore, hafter⟩ : _ ∧ _ ∧ _ := by simpa only [Prod.mk.injEq] using hseen
  refine ⟨s₀, x, y, hboot, hx, hrun, fun hsame => ?_⟩
  have hcount := hsame.sclsThreadnr
  rw [hbefore, hafter] at hcount
  cases hcount

end Cosmos.Thread
