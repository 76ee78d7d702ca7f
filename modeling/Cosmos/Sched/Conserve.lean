import Cosmos.Sched.Linked
import Mathlib.Data.Finset.Card
import Mathlib.Data.List.Nodup

/-!
# No thread is lost

Where a thread that waits or exits is one that runs, every added thread is in exactly one place and the counters say how
many threads there are: `tdl_nr` the threads of a priority that are ready or in its slot, `wl_tdnr` those on a wait
list, `sda_threadnr` those that have not exited. A thread that waits twice without being woken or rescheduled in between
is counted off its priority twice (`conserved_fails_of_waiting_twice`).
-/

namespace Cosmos.Sched

open Cosmos.Lib Halt Function

/-- The counters agree with the lists and the slots. -/
structure Counted (s : Schdata) (added : Finset Nat) : Prop where
  nr : ∀ pity, (s.sdaThdlst pity).tdlNr = (s.lists (.ready pity)).length + if s.slot pity ≠ none then 1 else 0
  tdnr : ∀ wlst, s.wlTdnr wlst = (s.lists (.wait wlst)).length
  threadnr : s.sdaThreadnr + (s.lists .exit).length = added.card
  sclsThreadnr : s.sclsThreadnr = added.card

/-- What holds in every state of a run of running threads. -/
structure Inv (s : Schdata) (added : Finset Nat) : Prop where
  linked : Linked s added
  here : ∀ t, Where s t ↔ t ∈ added
  idle_new : ∀ t, s.sdaCpuidle = some t → t ∉ added
  prity : ∀ t ∈ added, (s.td t).tdPriority < prityMax
  started : s.sdaCurrtd ≠ none ∧ s.sdaCpuidle ≠ none
  counted : Counted s added

section Counters

variable {s s' : Schdata} {added : Finset Nat}

theorem Linked.ready_or_slot {tdp : Nat} (hl : Linked s added) (hw : Where s tdp) (hrun : ¬ Parked s tdp) :
    tdp ∈ s.lists (.ready (s.td tdp).tdPriority) ∨ s.slot (s.td tdp).tdPriority = some tdp := by
  rcases hw with ⟨k, hk⟩ | ⟨pity, hp⟩
  · cases k with
    | ready pity =>
      rw [show (s.td tdp).tdPriority = pity from hl.takes _ tdp hk]
      exact .inl hk
    | wait wlst => exact absurd (.inl ⟨wlst, hk⟩) hrun
    | exit => exact absurd (.inr hk) hrun
  · rw [hl.slot_own pity tdp hp]
    exact .inr hp

theorem nr_leaveReady {tdp : Nat} {stus : Tdstus} (hl : Linked s added) (hc : Counted s added) (hw : Where s tdp)
    (hrun : ¬ Parked s tdp) (pity : Nat) :
    ((leaveReady s tdp stus).sdaThdlst pity).tdlNr =
      ((leaveReady s tdp stus).lists (.ready pity)).length +
        if (leaveReady s tdp stus).slot pity ≠ none then 1 else 0 := by
  have hoff := takenOff_leaveReady hl tdp stus
  have hnr := hc.nr pity
  have hlen := length_listDel (q := s.lists) (t := tdp) (l := .ready pity)
  rw [hoff.lists, hoff.slot pity]
  by_cases hp : pity = (s.td tdp).tdPriority
  · have hself : ((leaveReady s tdp stus).sdaThdlst pity).tdlNr = (s.sdaThdlst pity).tdlNr - 1 := by
      subst hp
      simp [leaveReady, Thrdlst.leave]
    rw [hself]
    have hor := hl.ready_or_slot hw hrun
    rw [← hp] at hor
    rcases hor with hready | hslot
    · have hne : s.slot pity ≠ some tdp := fun heq => hl.slot_off pity tdp heq _ hready
      rw [if_pos hready] at hlen
      rw [if_neg hne]
      omega
    · have hnot : tdp ∉ s.lists (.ready pity) := hl.slot_off pity tdp hslot _
      rw [if_neg hnot] at hlen
      rw [if_pos (by simp [hslot])] at hnr
      rw [if_pos hslot, if_neg (by simp)]
      omega
  · -- at another priority the thread was neither ready nor in the slot
    have hnot : tdp ∉ s.lists (.ready pity) := fun hmem => hp (hl.takes _ tdp hmem).symm
    have hne : s.slot pity ≠ some tdp := fun heq => hp (hl.slot_own pity tdp heq).symm
    rw [if_neg hnot] at hlen
    rw [if_neg hne]
    simp only [leaveReady, update_of_ne hp]
    omega

theorem counted_leaveReady {tdp : Nat} {stus : Tdstus} (hl : Linked s added) (hc : Counted s added) (hw : Where s tdp)
    (hrun : ¬ Parked s tdp) : Counted (leaveReady s tdp stus) added where
  nr := nr_leaveReady hl hc hw hrun
  tdnr := fun wlst => by
    have hlen := length_listDel (q := s.lists) (t := tdp) (l := .wait wlst)
    rw [if_neg fun hmem => hrun (.inl ⟨wlst, hmem⟩)] at hlen
    exact (hc.tdnr wlst).trans hlen.symm
  threadnr := by
    have hlen := length_listDel (q := s.lists) (t := tdp) (l := .exit)
    rw [if_neg fun hmem => hrun (.inr hmem)] at hlen
    have hthr := hc.threadnr
    show s.sdaThreadnr + (listDel s.lists tdp .exit).length = added.card
    omega
  sclsThreadnr := hc.sclsThreadnr

theorem counted_krlwlstAddThread (hc : Counted s added) (wlst tdp : Nat) :
    Counted (krlwlstAddThread s wlst tdp) added where
  nr := fun pity => by
    rw [(putOn_krlwlstAddThread s wlst tdp).length, if_neg (by simp)]
    exact hc.nr pity
  tdnr := fun w => by
    have htdnr := hc.tdnr w
    rw [(putOn_krlwlstAddThread s wlst tdp).length]
    by_cases hw : w = wlst
    · subst hw
      simpa [krlwlstAddThread] using htdnr
    · simpa [krlwlstAddThread, hw] using htdnr
  threadnr := by
    rw [(putOn_krlwlstAddThread s wlst tdp).length, if_neg (by simp)]
    exact hc.threadnr
  sclsThreadnr := hc.sclsThreadnr

theorem Inv.sdaThreadnr_pos {tdp : Nat} (h : Inv s added) (hmem : tdp ∈ added) (hrun : ¬ Parked s tdp) :
    1 ≤ s.sdaThreadnr := by
  have hsub : (s.lists .exit).toFinset ⊆ added.erase tdp := by
    intro t ht
    rw [List.mem_toFinset] at ht
    refine Finset.mem_erase.mpr ⟨fun heq => hrun (.inr (heq ▸ ht)), (h.here t).mp (.inl ⟨.exit, ht⟩)⟩
  have hcard := Finset.card_le_card hsub
  rw [List.toFinset_card_of_nodup (h.linked.shared.nodup .exit), Finset.card_erase_of_mem hmem] at hcard
  have hpos := Finset.card_pos.mpr ⟨tdp, hmem⟩
  have hthr := h.counted.threadnr
  omega

theorem counted_exit {tdp : Nat} (h : Inv s added) (hmem : tdp ∈ added) (hrun : ¬ Parked s tdp) :
    Counted (krlschdclassDelThreadAddexit s tdp) added := by
  have hleft : Counted (leaveReady s tdp .exit) added :=
    counted_leaveReady h.linked h.counted ((h.here tdp).mpr hmem) hrun
  have hput := putOn_krlschdclassDelThreadAddexit s tdp
  refine ⟨fun pity => ?_, fun wlst => ?_, ?_, hleft.sclsThreadnr⟩
  · rw [hput.length, if_neg (by simp)]
    exact hleft.nr pity
  · rw [hput.length, if_neg (by simp)]
    exact hleft.tdnr wlst
  · rw [hput.length, if_pos rfl]
    have hthr := hleft.threadnr
    have hpos := h.sdaThreadnr_pos hmem hrun
    show s.sdaThreadnr - 1 + _ = _
    have hsame : (leaveReady s tdp .exit).sdaThreadnr = s.sdaThreadnr := rfl
    omega

theorem counted_krlwlstDelThread {wlst tdp : Nat} (hl : Linked s added) (hc : Counted s added)
    (h : krlwlstDelThread s wlst = (some tdp, s')) : Counted s' added := by
  have hlens := length_krlwlstDelThread hl h
  have hslots := (takenOff_krlwlstDelThread hl h).slot
  obtain ⟨⟨rest, hlist⟩, hpos, rfl⟩ := krlwlstDelThread_cases h
  have hmem : tdp ∈ s.lists (.wait wlst) := hlist ▸ List.mem_cons_self
  have hother : ∀ k, k ≠ .wait wlst → listDel s.lists tdp k = s.lists k := fun k hk =>
    List.erase_of_not_mem fun hin => hk (hl.shared.once tdp _ _ hin hmem)
  refine ⟨fun pity => ?_, fun w => ?_, ?_, hc.sclsThreadnr⟩
  · simp only [hother (.ready pity) (by simp)]
    exact hc.nr pity
  · have hlen := hlens w
    have htdnr := hc.tdnr w
    by_cases hw : w = wlst
    · subst hw
      rw [if_pos rfl] at hlen
      simp only [update_self] at hlen ⊢
      omega
    · rw [if_neg hw] at hlen
      simp only [update_of_ne hw] at hlen ⊢
      omega
  · simp only [hother .exit (by simp)]
    exact hc.threadnr

theorem nr_enter {tdp : Nat} (hput : PutOn s s' (.ready (s.td tdp).tdPriority) tdp)
    (hthdlst : s'.sdaThdlst = update s.sdaThdlst (s.td tdp).tdPriority
      (s.sdaThdlst (s.td tdp).tdPriority).enter)
    (hnr : ∀ pity, (s.sdaThdlst pity).tdlNr = (s.lists (.ready pity)).length + if s.slot pity ≠ none then 1 else 0)
    (pity : Nat) :
    (s'.sdaThdlst pity).tdlNr = (s'.lists (.ready pity)).length + if s'.slot pity ≠ none then 1 else 0 := by
  have hold := hnr pity
  rw [hput.length, hput.slot, hthdlst]
  by_cases hp : pity = (s.td tdp).tdPriority
  · subst hp
    simp only [update_self, Thrdlst.enter, if_true]
    omega
  · rw [if_neg fun heq => hp (Listh.ready.inj heq), update_of_ne hp]
    exact hold

theorem counted_enterReady (hc : Counted s added) (tdp : Nat) : Counted (enterReady s tdp) added := by
  have hput := putOn_enterReady s tdp
  refine ⟨nr_enter hput rfl hc.nr, fun wlst => ?_, ?_, hc.sclsThreadnr⟩
  · rw [hput.length, if_neg (by simp)]
    exact hc.tdnr wlst
  · rw [hput.length, if_neg (by simp)]
    exact hc.threadnr

theorem counted_krlschdclassAddThread {thdp : Nat} (hc : Counted s added) (hnew : thdp ∉ added) :
    Counted (krlschdclassAddThread s thdp) (insert thdp added) := by
  have hput := putOn_krlschdclassAddThread s thdp
  have hcard := Finset.card_insert_of_notMem hnew
  refine ⟨nr_enter hput rfl hc.nr, fun wlst => ?_, ?_, ?_⟩
  · rw [hput.length, if_neg (by simp)]
    exact hc.tdnr wlst
  · have hthr := hc.threadnr
    rw [hput.length, if_neg (by simp), hcard]
    show s.sdaThreadnr + 1 + _ = _
    omega
  · have hscls := hc.sclsThreadnr
    rw [hcard]
    show s.sclsThreadnr + 1 = _
    omega

theorem counted_takeSlot {pity tdtmp : Nat} (hl : Linked s added) (hc : Counted s added)
    (hmem : tdtmp ∈ s.lists (.ready pity)) : Counted (takeSlot s pity tdtmp) added := by
  have hlens := length_takeSlot hl hmem
  refine ⟨fun p => ?_, fun wlst => ?_, ?_, hc.sclsThreadnr⟩
  · have hlen := hlens (.ready p)
    have hnr := hc.nr p
    rw [slot_takeSlot]
    by_cases hp : p = pity
    · subst hp
      simp only [true_and, if_true] at hlen
      rw [if_pos rfl, if_pos (by simp)]
      have hsame : ((takeSlot s p tdtmp).sdaThdlst p).tdlNr = (s.sdaThdlst p).tdlNr := by simp [takeSlot]
      omega
    · have hne : Listh.ready p ≠ .ready pity := fun heq => hp (Listh.ready.inj heq)
      simp only [hne, false_and, if_false, Nat.add_zero] at hlen
      rw [if_neg hp, hlen, ← hnr]
      simp [takeSlot, hp]
  · have hlen := hlens (.wait wlst)
    simp only [reduceCtorEq, false_and, if_false, Nat.add_zero] at hlen
    exact (hc.tdnr wlst).trans hlen.symm
  · have hlen := hlens .exit
    simp only [reduceCtorEq, false_and, if_false, Nat.add_zero] at hlen
    rw [hlen]
    exact hc.threadnr

end Counters

/-! ### One call -/

section Call

variable {s s' : Schdata} {added : Finset Nat}

theorem Inv.curr_added {tdp : Nat} (h : Inv s added) (hcurr : s.sdaCurrtd = some tdp)
    (hidle : s.sdaCurrtd ≠ s.sdaCpuidle) : tdp ∈ added := by
  rcases h.linked.curr_known tdp hcurr with hmem | heq
  · exact hmem
  · exact absurd (hcurr.trans heq.symm) hidle

theorem inv_krlschedWait {wlst : Nat} (h : Inv s added) (hidle : s.sdaCurrtd ≠ s.sdaCpuidle)
    (hrun : ∀ tdp, s.sdaCurrtd = some tdp → ¬ Parked s tdp) (hwait : krlschedWait s wlst = .ok s') : Inv s' added := by
  have hlinked := linked_krlschedWait h.linked hwait
  obtain ⟨tdp, hcurr, -, -, rfl⟩ := krlschedWait_cases hwait
  have hmem := h.curr_added hcurr hidle
  have hput := putOn_krlwlstAddThread (leaveReady s tdp .wait) wlst tdp
  refine ⟨hlinked, fun t => ?_, h.idle_new, fun t ht => ?_, h.started, ?_⟩
  · rw [where_of_leaveReady h.linked hput, h.here]
    exact ⟨fun ht => ht.elim (fun heq => heq ▸ hmem) id, .inr⟩
  · exact (setStus_tdPriority s.td tdp .wait t).trans_lt (h.prity t ht)
  · exact counted_krlwlstAddThread
      (counted_leaveReady h.linked h.counted ((h.here tdp).mpr hmem) (hrun tdp hcurr)) wlst tdp

theorem inv_krlschedExit (h : Inv s added) (hidle : s.sdaCurrtd ≠ s.sdaCpuidle)
    (hrun : ∀ tdp, s.sdaCurrtd = some tdp → ¬ Parked s tdp) (hexit : krlschedExit s = .ok s') : Inv s' added := by
  have hlinked := linked_krlschedExit h.linked hexit
  obtain ⟨tdp, hcurr, -, rfl⟩ := krlschedExit_cases hexit
  have hmem := h.curr_added hcurr hidle
  refine ⟨hlinked, fun t => ?_, h.idle_new, fun t ht => ?_, h.started, counted_exit h hmem (hrun tdp hcurr)⟩
  · rw [where_of_leaveReady h.linked (putOn_krlschdclassDelThreadAddexit s tdp), h.here]
    exact ⟨fun ht => ht.elim (fun heq => heq ▸ hmem) id, .inr⟩
  · exact (setStus_tdPriority s.td tdp .exit t).trans_lt (h.prity t ht)

theorem inv_krlschedUp {wlst : Nat} (h : Inv s added) (hup : krlschedUp s wlst = .ok s') : Inv s' added := by
  have hlinked := linked_krlschedUp h.linked hup
  have hwhere := where_krlschedUp h.linked hup
  obtain ⟨tdp, mid, hdel, rfl⟩ := krlschedUp_cases hup
  have hoff := takenOff_krlwlstDelThread h.linked hdel
  have hput := putOn_enterReady mid tdp
  refine ⟨hlinked, fun t => (hwhere t).trans (h.here t), fun t ht => ?_, fun t ht => ?_, ?_, ?_⟩
  · rw [hput.sdaCpuidle, hoff.sdaCpuidle] at ht
    exact h.idle_new t ht
  · rw [hput.tdPriority, hoff.tdPriority]
    exact h.prity t ht
  · rw [hput.sdaCurrtd, hoff.sdaCurrtd, hput.sdaCpuidle, hoff.sdaCpuidle]
    exact h.started
  · exact counted_enterReady (counted_krlwlstDelThread h.linked h.counted hdel) tdp

theorem counted_select {next : Nat} (hl : Linked s added) (hc : Counted s added)
    (hsel : krlschedSelectThread s = .ok (next, s')) : Counted s' added := by
  rcases krlschedSelectThread_cases hsel with ⟨pity, hmem, rfl⟩ | ⟨pity, hslot, rfl⟩ | ⟨hidle, rfl⟩
  · exact counted_takeSlot hl hc hmem
  · exact hc
  · exact ⟨hc.nr, hc.tdnr, hc.threadnr, hc.sclsThreadnr⟩

theorem select_frame {next : Nat} (hsel : krlschedSelectThread s = .ok (next, s')) :
    s'.td = s.td ∧ s'.sdaCurrtd = s.sdaCurrtd ∧ s'.sdaCpuidle = s.sdaCpuidle := by
  rcases krlschedSelectThread_cases hsel with ⟨pity, hmem, rfl⟩ | ⟨pity, hslot, rfl⟩ | ⟨hidle, rfl⟩
  · exact ⟨rfl, rfl, rfl⟩
  · exact ⟨rfl, rfl, rfl⟩
  · exact ⟨rfl, rfl, rfl⟩

theorem inv_setSchedflgsEx (h : Inv s added) (flags : Nat) : Inv (krlschedSetSchedflgsEx s flags) added :=
  ⟨linked_setSchedflgsEx h.linked flags, h.here, h.idle_new, h.prity, h.started,
    ⟨h.counted.nr, h.counted.tdnr, h.counted.threadnr, h.counted.sclsThreadnr⟩⟩

theorem inv_krlschedul (h : Inv s added) (hrun : krlschedul s = .ok s') : Inv s' added := by
  obtain ⟨hlinked, hwhere⟩ := linked_krlschedul h.linked hrun
  rcases krlschedul_cases hrun with rfl | ⟨next, mid, hsel, rfl⟩
  · exact inv_setSchedflgsEx h _
  · obtain ⟨htd, -, hidle⟩ := select_frame hsel
    have hmid := counted_select h.linked h.counted hsel
    refine ⟨hlinked, fun t => (hwhere t).trans (h.here t), fun t ht => h.idle_new t (hidle ▸ ht),
      fun t ht => ?_, ?_, ?_⟩
    · rw [(sameLinks_toNewContext mid next).tdPriority, htd]
      exact h.prity t ht
    · exact ⟨Option.some_ne_none next, fun heq => h.started.2 (hidle ▸ heq)⟩
    · exact ⟨hmid.nr, hmid.tdnr, hmid.threadnr, hmid.sclsThreadnr⟩

theorem inv_krlschdclassAddThread {thdp : Nat} (h : Inv s added) (hnew : thdp ∉ added)
    (hidle : s.sdaCpuidle ≠ some thdp) (hprity : (s.td thdp).tdPriority < prityMax) :
    Inv (krlschdclassAddThread s thdp) (insert thdp added) where
  linked := linked_krlschdclassAddThread h.linked hnew hidle
  here := fun t => by rw [(putOn_krlschdclassAddThread s thdp).where_iff, h.here, Finset.mem_insert]
  idle_new := fun t ht hmem => by
    rcases Finset.mem_insert.mp hmem with rfl | hmem
    · exact hidle ht
    · exact h.idle_new t ht hmem
  prity := fun t ht => by
    rcases Finset.mem_insert.mp ht with rfl | ht
    · exact hprity
    · exact h.prity t ht
  started := h.started
  counted := counted_krlschdclassAddThread h.counted hnew

theorem inv_exec {a : Act} (h : Inv s added) (hfresh : a.Fresh s added) (hidle : a.NonIdle s) (hrun : a.Running s)
    (hexec : exec s a = .ok s') : Inv s' (a.added added) := by
  cases a with
  | add thdp =>
    cases hexec
    exact inv_krlschdclassAddThread h hfresh.1 hfresh.2.1 hfresh.2.2
  | schedul => exact inv_krlschedul h hexec
  | wait wlst => exact inv_krlschedWait h hidle hrun hexec
  | up wlst => exact inv_krlschedUp h hexec
  | wlstUp wlst =>
    simp only [exec, krlwlstUp] at hexec
    split_ifs at hexec
    · cases hexec
      exact h
    · exact inv_krlschedUp h hexec
  | allup wlst => exact allupLoop_inv (P := (Inv · added)) (fun _ _ => inv_krlschedUp) _ s s' h hexec
  | exit => exact inv_krlschedExit h hidle hrun hexec
  | setflgs flags =>
    cases hexec
    exact inv_setSchedflgsEx h flags
  | chkneed =>
    rcases krlschedChkneedPmptsched_cases hexec with rfl | hexec | hexec
    · exact h
    · exact inv_krlschedul h hexec
    · exact inv_krlschedul (inv_setSchedflgsEx h _) hexec

/-! ### The calls return -/

theorem krlschedul_returns (h : Inv s added) : ∃ s', krlschedul s = .ok s' := by
  obtain ⟨curr, hcurr⟩ := Option.ne_none_iff_exists'.mp h.started.1
  obtain ⟨idle, hidle⟩ := Option.ne_none_iff_exists'.mp h.started.2
  have hretn : krlschedRetnCurrthread s = .ok curr := by simp [krlschedRetnCurrthread, hcurr]
  have hidleretn : krlschedRetnIdlethread s = .ok idle := by simp [krlschedRetnIdlethread, hidle]
  unfold krlschedul
  split_ifs
  · exact ⟨_, bind_of_ok hidleretn _⟩
  · rw [bind_of_ok hretn]
    unfold krlschedSelectThread
    split
    · exact ⟨_, rfl⟩
    · rw [bind_of_ok hidleretn]
      exact ⟨_, rfl⟩

theorem Inv.tdlNr_pos {tdp : Nat} (h : Inv s added) (hmem : tdp ∈ added) (hrun : ¬ Parked s tdp) :
    1 ≤ (s.sdaThdlst (s.td tdp).tdPriority).tdlNr := by
  rw [h.counted.nr]
  rcases h.linked.ready_or_slot ((h.here tdp).mpr hmem) hrun with hready | hslot
  · exact Nat.le_add_right_of_le (List.length_pos_of_mem hready)
  · rw [if_pos (by simp [hslot])]
    exact Nat.le_add_left _ _

theorem krlschedWait_returns {wlst : Nat} (h : Inv s added) (hidle : s.sdaCurrtd ≠ s.sdaCpuidle)
    (hrun : ∀ tdp, s.sdaCurrtd = some tdp → ¬ Parked s tdp) (hwlst : wlst ≠ 0) :
    ∃ s', krlschedWait s wlst = .ok s' := by
  obtain ⟨curr, hcurr⟩ := Option.ne_none_iff_exists'.mp h.started.1
  have hretn : krlschedRetnCurrthread s = .ok curr := by simp [krlschedRetnCurrthread, hcurr]
  have hmem := h.curr_added hcurr hidle
  have hnr := h.tdlNr_pos hmem (hrun curr hcurr)
  have hprity := h.prity curr hmem
  unfold krlschedWait
  rw [bind_of_ok hretn, if_neg (by omega), if_neg (by omega)]
  exact ⟨_, rfl⟩

theorem krlschedExit_returns (h : Inv s added) (hidle : s.sdaCurrtd ≠ s.sdaCpuidle)
    (hrun : ∀ tdp, s.sdaCurrtd = some tdp → ¬ Parked s tdp) : ∃ s', krlschedExit s = .ok s' := by
  obtain ⟨curr, hcurr⟩ := Option.ne_none_iff_exists'.mp h.started.1
  obtain ⟨idle, hcpuidle⟩ := Option.ne_none_iff_exists'.mp h.started.2
  have hretn : krlschedRetnCurrthread s = .ok curr := by simp [krlschedRetnCurrthread, hcurr]
  have hidleretn : krlschedRetnIdlethread s = .ok idle := by simp [krlschedRetnIdlethread, hcpuidle]
  have hmem := h.curr_added hcurr hidle
  have hnr := h.tdlNr_pos hmem (hrun curr hcurr)
  have hprity := h.prity curr hmem
  have hne : curr ≠ idle := fun heq => hidle (by rw [hcurr, hcpuidle, heq])
  unfold krlschedExit
  rw [bind_of_ok hretn, bind_of_ok hidleretn, if_neg hne, if_neg (by omega), if_neg (by omega)]
  exact ⟨_, rfl⟩

def Act.Named : Act → Prop
  | .wait wlst => wlst ≠ 0
  | .up wlst => wlst ≠ 0
  | .wlstUp wlst => wlst ≠ 0
  | .allup wlst => wlst ≠ 0
  | _ => True

theorem exec_returns {a : Act} (h : Inv s added) (hidle : a.NonIdle s) (hrun : a.Running s) (hnamed : a.Named) :
    (∃ s', exec s a = .ok s') ∨ ∃ wlst, a = .up wlst ∧ s.lists (.wait wlst) = [] := by
  cases a with
  | add thdp => exact .inl ⟨_, rfl⟩
  | schedul => exact .inl (krlschedul_returns h)
  | wait wlst => exact .inl (krlschedWait_returns h hidle hrun hnamed)
  | up wlst =>
    by_cases hnil : s.lists (.wait wlst) = []
    · exact .inr ⟨wlst, rfl, hnil⟩
    · exact .inl (krlschedUp_returns h.linked hnamed hnil)
  | wlstUp wlst =>
    refine .inl ?_
    simp only [exec, krlwlstUp]
    split_ifs with hnil
    · exact ⟨_, rfl⟩
    · exact krlschedUp_returns h.linked hnamed hnil
  | allup wlst =>
    obtain ⟨s', hs', -⟩ := allup_spec hnamed h.linked
    exact .inl ⟨s', hs'⟩
  | exit => exact .inl (krlschedExit_returns h hidle hrun)
  | setflgs flags => exact .inl ⟨_, rfl⟩
  | chkneed =>
    refine .inl ?_
    simp only [exec, krlschedChkneedPmptsched]
    split_ifs
    · exact krlschedul_returns (inv_setSchedflgsEx h _)
    · exact krlschedul_returns h
    · exact ⟨_, rfl⟩

end Call

/-! ### Runs -/

theorem inv_initKrlsched (td : Nat → Thread) (idle : Nat) : Inv (initKrlsched td idle) ∅ where
  linked := linked_initKrlsched td idle
  here := fun t => by simp [initKrlsched, Where, Schdata.slot]
  idle_new := fun t _ => Finset.notMem_empty t
  prity := fun t ht => absurd ht (Finset.notMem_empty t)
  started := ⟨Option.some_ne_none idle, Option.some_ne_none idle⟩
  counted := ⟨fun _ => rfl, fun _ => rfl, rfl, rfl⟩

inductive Place
  | ready (pity : Nat)
  | slot (pity : Nat)
  | wait (wlst : Nat)
  | exit
  deriving DecidableEq, Repr

def At (s : Schdata) (tdp : Nat) : Place → Prop
  | .ready pity => tdp ∈ s.lists (.ready pity)
  | .slot pity => s.slot pity = some tdp
  | .wait wlst => tdp ∈ s.lists (.wait wlst)
  | .exit => tdp ∈ s.lists .exit

def Place.OwnOf (prity : Nat) : Place → Prop
  | .ready pity => pity = prity
  | .slot pity => pity = prity
  | _ => True

/-- Every added thread is in exactly one place, one for its priority, on no list twice, and `tdl_nr` counts them. -/
structure Conserved (s : Schdata) (added : Finset Nat) : Prop where
  one_place : ∀ t ∈ added, ∃! p, At s t p
  own : ∀ t ∈ added, ∀ p, At s t p → p.OwnOf (s.td t).tdPriority
  nodup : ∀ k, (s.lists k).Nodup
  nr : ∀ pity, (s.sdaThdlst pity).tdlNr =
    (s.lists (.ready pity)).length + if (s.sdaThdlst pity).tdlCurruntd ≠ none then 1 else 0

def Place.listh : Place → Option Listh
  | .ready pity => some (.ready pity)
  | .slot _ => none
  | .wait wlst => some (.wait wlst)
  | .exit => some .exit

theorem at_of_listh {s : Schdata} {t : Nat} {p : Place} {k : Listh} (hp : p.listh = some k) :
    At s t p ↔ t ∈ s.lists k := by
  cases p <;> cases hp <;> exact Iff.rfl

theorem Linked.at_unique {s : Schdata} {added : Finset Nat} {t : Nat} {p p' : Place} (hl : Linked s added)
    (hp : At s t p) (hp' : At s t p') : p = p' := by
  cases hk : p.listh with
  | none =>
    obtain ⟨pity, rfl⟩ : ∃ pity, p = .slot pity := by
      cases p <;> cases hk
      exact ⟨_, rfl⟩
    cases hk' : p'.listh with
    | none =>
      obtain ⟨pity', rfl⟩ : ∃ pity', p' = .slot pity' := by
        cases p' <;> cases hk'
        exact ⟨_, rfl⟩
      rw [← hl.slot_own pity t hp, ← hl.slot_own pity' t hp']
    | some k' => exact absurd ((at_of_listh hk').mp hp') (hl.slot_off pity t hp k')
  | some k =>
    have hmem := (at_of_listh hk).mp hp
    cases hk' : p'.listh with
    | none =>
      obtain ⟨pity', rfl⟩ : ∃ pity', p' = .slot pity' := by
        cases p' <;> cases hk'
        exact ⟨_, rfl⟩
      exact absurd hmem (hl.slot_off pity' t hp' k)
    | some k' =>
      have heq := hl.shared.once t k k' hmem ((at_of_listh hk').mp hp')
      subst heq
      cases p <;> cases p' <;> cases hk <;> cases hk' <;> rfl

theorem exists_at {s : Schdata} {t : Nat} (h : Where s t) : ∃ p, At s t p := by
  rcases h with ⟨k, hk⟩ | ⟨pity, hp⟩
  · cases k with
    | ready pity => exact ⟨.ready pity, hk⟩
    | wait wlst => exact ⟨.wait wlst, hk⟩
    | exit => exact ⟨.exit, hk⟩
  · exact ⟨.slot pity, hp⟩

theorem Inv.conserved {s : Schdata} {added : Finset Nat} (h : Inv s added) : Conserved s added where
  one_place := fun t ht => by
    obtain ⟨p, hp⟩ := exists_at ((h.here t).mpr ht)
    exact ⟨p, hp, fun p' hp' => h.linked.at_unique hp' hp⟩
  own := fun t _ p hp => by
    cases p with
    | ready pity => exact (h.linked.takes _ t hp).symm
    | slot pity => exact (h.linked.slot_own pity t hp).symm
    | wait wlst => trivial
    | exit => trivial
  nodup := h.linked.shared.nodup
  nr := h.counted.nr

def Calls (s : Schdata) (a : Act) : Prop := a.NonIdle s ∧ a.Running s

theorem inv_of_run {td : Nat → Thread} {idle : Nat} {acts : List Act} {y : Schdata × Finset Nat}
    (hrun : Trace (Step Calls) (initKrlsched td idle, ∅) acts y) : Inv y.1 y.2 := by
  refine Trace.keeps (J := fun x => Inv x.1 x.2) ?_ hrun (inv_initKrlsched td idle)
  rintro x a z hx ⟨hfresh, ⟨hidle, hrunning⟩, hexec, hadded⟩
  rw [hadded]
  exact inv_exec hx hfresh hidle hrunning hexec

/-- **No thread is lost or queued twice, and none of these calls stops the machine but a wake-up of nobody.** -/
theorem conserved_of_run {td : Nat → Thread} {idle : Nat} {acts : List Act} {y : Schdata × Finset Nat}
    (hrun : Trace (Step Calls) (initKrlsched td idle, ∅) acts y) :
    Conserved y.1 y.2 ∧
      ∀ a, Calls y.1 a → a.Named → (∃ s', exec y.1 a = .ok s') ∨ ∃ wlst, a = .up wlst ∧
        y.1.lists (.wait wlst) = [] := by
  have hinv := inv_of_run hrun
  exact ⟨hinv.conserved, fun a ha hnamed => exec_returns hinv ha.1 ha.2 hnamed⟩

def newThreads : Nat → Thread := fun _ => ⟨.new, 0⟩

/-- One waits on list 1 and is woken before it calls `krlschedul`. -/
theorem conserved_of_early_wake_up :
    ∃ y, Trace (Step Calls) (initKrlsched newThreads 3, ∅) [.add 1, .add 2, .schedul, .wait 1, .allup 1, .schedul] y ∧
      Conserved y.1 y.2 := by
  have hrun : ∃ y, Trace (Step Calls) (initKrlsched newThreads 3, ∅)
      [.add 1, .add 2, .schedul, .wait 1, .allup 1, .schedul] y := by
    refine ⟨_, Trace.call rfl (by decide) ⟨trivial, trivial⟩ (Trace.call rfl (by decide) ⟨trivial, trivial⟩
      (Trace.call rfl trivial ⟨trivial, trivial⟩ (Trace.call rfl trivial ⟨by decide, ?_⟩
        (Trace.call rfl trivial ⟨trivial, trivial⟩ (Trace.call rfl trivial ⟨trivial, trivial⟩ (.nil _))))))⟩
    intro tdp hcurr
    cases hcurr
    rintro (⟨wlst, hmem⟩ | hmem)
    · cases hmem
    · cases hmem
  obtain ⟨y, hy⟩ := hrun
  exact ⟨y, hy, (conserved_of_run hy).1⟩

/-- A thread that waits twice in a row is counted off its priority twice: `tdl_nr` is 0 with the other one ready. -/
theorem conserved_fails_of_waiting_twice :
    ∃ y, Trace (Step fun s a => a.NonIdle s) (initKrlsched newThreads 3, ∅)
        [.add 1, .add 2, .schedul, .wait 1, .wait 1] y ∧ ¬ Conserved y.1 y.2 := by
  refine ⟨_, Trace.call rfl (by decide) trivial (Trace.call rfl (by decide) trivial
    (Trace.call rfl trivial trivial (Trace.call rfl trivial (by decide)
      (Trace.call rfl trivial (by decide) (.nil _))))), fun hcons => ?_⟩
  have hnr := hcons.nr 0
  revert hnr
  decide

/-! ### The two thread counts -/

section Totals

variable {s s' : Schdata} {added : Finset Nat}

def unexited (s : Schdata) (added : Finset Nat) : Finset Nat := added.filter (· ∉ s.lists .exit)

/-- `scls_threadnr`, the `sda_threadnr` of the one processor, and the number of threads added and not exited agree. -/
def TotalsAgree (s : Schdata) (added : Finset Nat) : Prop :=
  s.sclsThreadnr = s.sdaThreadnr ∧ s.sdaThreadnr = (unexited s added).card

def Bare (s : Schdata) : Prop := (∀ l, s.lists l = []) ∧ ∀ pity, (s.sdaThdlst pity).tdlNr = 0

/-- What a call leaves that neither adds a thread nor lets one exit. -/
structure SameTotals (s s' : Schdata) : Prop where
  scls : s'.sclsThreadnr = s.sclsThreadnr
  sda : s'.sdaThreadnr = s.sdaThreadnr
  exit : s.lists .exit = [] → s'.lists .exit = []
  bare : Bare s → Bare s'

theorem SameTotals.refl (s : Schdata) : SameTotals s s := ⟨rfl, rfl, id, id⟩

theorem SameTotals.trans {s'' : Schdata} (h : SameTotals s s') (h' : SameTotals s' s'') : SameTotals s s'' :=
  ⟨h'.scls.trans h.scls, h'.sda.trans h.sda, fun he => h'.exit (h.exit he), fun hb => h'.bare (h.bare hb)⟩

theorem sameTotals_krlschedul (h : krlschedul s = .ok s') : SameTotals s s' := by
  rcases krlschedul_cases h with rfl | ⟨next, mid, hsel, rfl⟩
  · exact ⟨rfl, rfl, id, id⟩
  rcases krlschedSelectThread_cases hsel with ⟨pity, hnext, rfl⟩ | ⟨pity, -, rfl⟩ | ⟨-, rfl⟩
  · refine ⟨rfl, rfl, fun he => ?_, fun hb => ?_⟩
    · simp only [toNewContext, takeSlot]
      cases (s.sdaThdlst pity).tdlCurruntd <;> simp [listAddTail, listDel, he]
    · rw [hb.1] at hnext
      cases hnext
  · exact ⟨rfl, rfl, id, id⟩
  · exact ⟨rfl, rfl, id, id⟩

theorem sameTotals_krlschedUp {wlst : Nat} (h : krlschedUp s wlst = .ok s') : SameTotals s s' := by
  obtain ⟨tdp, mid, hdel, rfl⟩ := krlschedUp_cases h
  obtain ⟨⟨rest, hlist⟩, -, rfl⟩ := krlwlstDelThread_cases hdel
  refine ⟨rfl, rfl, fun he => by simp [enterReady, listAddTail, listDel, he], fun hb => ?_⟩
  rw [hb.1] at hlist
  cases hlist

theorem sameTotals_krlschedWait {wlst : Nat} (h : krlschedWait s wlst = .ok s') : SameTotals s s' := by
  obtain ⟨tdp, -, -, hnr, rfl⟩ := krlschedWait_cases h
  refine ⟨rfl, rfl, fun he => by simp [krlwlstAddThread, leaveReady, listAdd, listDel, he], fun hb => ?_⟩
  rw [hb.2] at hnr
  cases hnr

theorem sameTotals_exec {a : Act} (hadd : ∀ thdp, a ≠ .add thdp) (hexit : a ≠ .exit) (hexec : exec s a = .ok s') :
    SameTotals s s' := by
  cases a with
  | add thdp => exact absurd rfl (hadd thdp)
  | schedul => exact sameTotals_krlschedul hexec
  | wait wlst => exact sameTotals_krlschedWait hexec
  | up wlst => exact sameTotals_krlschedUp hexec
  | wlstUp wlst =>
    simp only [exec, krlwlstUp] at hexec
    split_ifs at hexec
    · cases hexec
      exact .refl s
    · exact sameTotals_krlschedUp hexec
  | allup wlst =>
    exact allupLoop_inv (P := SameTotals s) (fun t t' ht hup => ht.trans (sameTotals_krlschedUp hup)) _ s s'
      (.refl s) hexec
  | exit => exact absurd rfl hexit
  | setflgs flags =>
    cases hexec
    exact ⟨rfl, rfl, id, id⟩
  | chkneed =>
    rcases krlschedChkneedPmptsched_cases hexec with rfl | hexec | hexec
    · exact .refl s'
    · exact sameTotals_krlschedul hexec
    · have hflgs : SameTotals s (krlschedSetSchedflgsEx s notsSchedFlgs) := ⟨rfl, rfl, id, id⟩
      exact hflgs.trans (sameTotals_krlschedul hexec)

/-- The totals after `exits` exits. Only a thread that was added can exit, and `scls_threadnr` never goes down. -/
structure Totals (exits : Nat) (s : Schdata) (added : Finset Nat) : Prop where
  scls : s.sclsThreadnr = added.card
  agree : exits = 0 → s.sdaThreadnr = s.sclsThreadnr ∧ s.lists .exit = []
  behind : exits ≠ 0 → s.sdaThreadnr < s.sclsThreadnr
  bare : s.sclsThreadnr = 0 → Bare s

theorem totals_initKrlsched (td : Nat → Thread) (idle : Nat) : Totals 0 (initKrlsched td idle) ∅ :=
  ⟨rfl, fun _ => ⟨rfl, rfl⟩, fun h => absurd rfl h, fun _ => ⟨fun _ => rfl, fun _ => rfl⟩⟩

theorem Totals.step {exits : Nat} {a : Act} (h : Totals exits s added) (hfresh : a.Fresh s added)
    (hexec : exec s a = .ok s') : Totals (exits + if a = .exit then 1 else 0) s' (a.added added) := by
  by_cases hadd : ∃ thdp, a = .add thdp
  · obtain ⟨thdp, rfl⟩ := hadd
    cases hexec
    refine ⟨?_, fun h0 => ?_, fun h0 => ?_, fun h0 => absurd h0 (Nat.succ_ne_zero _)⟩
    · rw [Act.added, Finset.card_insert_of_notMem hfresh.1, ← h.scls]
      rfl
    · obtain ⟨hsame, hexit⟩ := h.agree h0
      exact ⟨congrArg (· + 1) hsame, by simpa [krlschdclassAddThread, listAdd] using hexit⟩
    · exact Nat.succ_lt_succ (h.behind h0)
  by_cases hexit : a = .exit
  · subst hexit
    obtain ⟨tdp, -, hnr, rfl⟩ := krlschedExit_cases hexec
    have hsda : (krlschdclassDelThreadAddexit s tdp).sdaThreadnr = s.sdaThreadnr - 1 := rfl
    -- the priority of the thread counts somebody, so one was added
    have hpos : s.sclsThreadnr ≠ 0 := by
      intro h0
      rw [(h.bare h0).2] at hnr
      cases hnr
    refine ⟨h.scls, fun h0 => absurd h0 (by simp), fun _ => ?_, fun h0 => absurd h0 hpos⟩
    rw [hsda, show (krlschdclassDelThreadAddexit s tdp).sclsThreadnr = s.sclsThreadnr from rfl]
    by_cases h0 : exits = 0
    · have := (h.agree h0).1
      omega
    · have := h.behind h0
      omega
  · have hsame := sameTotals_exec (fun thdp heq => hadd ⟨thdp, heq⟩) hexit hexec
    have hadded : a.added added = added := by
      cases a with
      | add thdp => exact absurd ⟨thdp, rfl⟩ hadd
      | _ => rfl
    rw [if_neg hexit, hadded, Nat.add_zero]
    refine ⟨hsame.scls.trans h.scls, fun h0 => ?_, fun h0 => ?_, fun h0 => hsame.bare (h.bare (hsame.scls ▸ h0))⟩
    · rw [hsame.sda, hsame.scls]
      exact ⟨(h.agree h0).1, hsame.exit (h.agree h0).2⟩
    · rw [hsame.sda, hsame.scls]
      exact h.behind h0

/-- A call that returns, made by any thread at any time. -/
def Always (_ : Schdata) (_ : Act) : Prop := True

theorem Totals.run {exits : Nat} {acts : List Act} {x y : Schdata × Finset Nat} (hrun : Trace (Step Always) x acts y)
    (h : Totals exits x.1 x.2) : Totals (exits + acts.count .exit) y.1 y.2 := by
  induction hrun generalizing exits with
  | nil x => exact h
  | @cons x z y a acts hstep hrest ih =>
    obtain ⟨hfresh, -, hexec, hadded⟩ := hstep
    have hz := ih (hadded ▸ h.step hfresh hexec)
    rw [List.count_cons, ← Nat.add_assoc, Nat.add_right_comm]
    simpa using hz

theorem Totals.agree_iff {exits : Nat} (h : Totals exits s added) : TotalsAgree s added ↔ exits = 0 := by
  constructor
  · rintro ⟨hsame, -⟩
    by_contra h0
    exact absurd (h.behind h0) (by omega)
  · intro h0
    obtain ⟨hsame, hexit⟩ := h.agree h0
    refine ⟨hsame.symm, ?_⟩
    rw [hsame, h.scls, unexited, hexit]
    simp

/-- **The totals agree exactly until the first thread exits**: `krlschdclass_del_thread_addexit` leaves
`scls_threadnr` as it is. -/
theorem totals_agree_iff_no_exit {td : Nat → Thread} {idle : Nat} {acts : List Act} {y : Schdata × Finset Nat}
    (hrun : Trace (Step Always) (initKrlsched td idle, ∅) acts y) : TotalsAgree y.1 y.2 ↔ .exit ∉ acts := by
  rw [((totals_initKrlsched td idle).run hrun).agree_iff, Nat.zero_add, List.count_eq_zero]

/-- Thread 1 is added, runs and exits: no thread is left, and `scls_threadnr` is 1. -/
theorem totals_differ_of_exit :
    ∃ y, Trace (Step Always) (initKrlsched newThreads 3, ∅) [.add 1, .schedul, .exit] y ∧
      y.1.sclsThreadnr = 1 ∧ y.1.sdaThreadnr = 0 ∧ ¬ TotalsAgree y.1 y.2 := by
  refine ⟨_, Trace.call rfl (by decide) trivial (Trace.call rfl trivial trivial
    (Trace.call rfl trivial trivial (.nil _))), rfl, rfl, fun hagree => ?_⟩
  exact absurd hagree.1 (by decide)

/-- Two threads are added and one waits. -/
theorem totals_agree_of_wait :
    ∃ y, Trace (Step Always) (initKrlsched newThreads 3, ∅) [.add 1, .add 2, .schedul, .wait 1] y ∧
      TotalsAgree y.1 y.2 := by
  have hrun : ∃ y, Trace (Step Always) (initKrlsched newThreads 3, ∅) [.add 1, .add 2, .schedul, .wait 1] y :=
    ⟨_, Trace.call rfl (by decide) trivial (Trace.call rfl (by decide) trivial
      (Trace.call rfl trivial trivial (Trace.call rfl trivial trivial (.nil _))))⟩
  obtain ⟨y, hy⟩ := hrun
  exact ⟨y, hy, (totals_agree_iff_no_exit hy).mpr (by decide)⟩

end Totals

end Cosmos.Sched
