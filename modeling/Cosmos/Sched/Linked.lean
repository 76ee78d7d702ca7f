import Cosmos.Sched.Model
import Mathlib.Tactic.Common

/-!
# A thread is linked once

What every call keeps, whoever makes it and in whatever order: no thread is on two lists or twice on one, the thread in
a priority's slot is on no list, ready lists and slots hold threads of their own priority, and nobody is linked who was
not added, the idle thread apart. Every call either moves one thread or moves none, and each is one of a few changes of
the lists and the slots, for each of which this is shown once; what a call does to the places (`Where`) goes with it.
-/

namespace Cosmos.Sched

open Cosmos.Lib Halt Function

def Schdata.slot (s : Schdata) (pity : Nat) : Option Nat := (s.sdaThdlst pity).tdlCurruntd

def Where (s : Schdata) (tdp : Nat) : Prop := (∃ k, tdp ∈ s.lists k) ∨ ∃ pity, s.slot pity = some tdp

def Known (s : Schdata) (added : Finset Nat) (tdp : Nat) : Prop := tdp ∈ added ∨ s.sdaCpuidle = some tdp

/-- Lists that hold only threads they may hold. -/
def Listh.Takes (k : Listh) (t : Thread) : Prop :=
  match k with
  | .ready pity => t.tdPriority = pity
  | .wait _ => t.tdPriority < prityMax
  | .exit => True

/-- What holds after any calls in any order. -/
structure Linked (s : Schdata) (added : Finset Nat) : Prop where
  shared : Shared s.lists
  slot_off : ∀ pity t, s.slot pity = some t → ∀ k, t ∉ s.lists k
  takes : ∀ k t, t ∈ s.lists k → k.Takes (s.td t)
  slot_own : ∀ pity t, s.slot pity = some t → (s.td t).tdPriority = pity
  known : ∀ t, Where s t → Known s added t
  curr_known : ∀ t, s.sdaCurrtd = some t → Known s added t
  tdnr_le : ∀ wlst, (s.lists (.wait wlst)).length ≤ s.wlTdnr wlst

/-! ### Statuses and counters do not matter -/

@[simp] theorem setStus_tdPriority (td : Nat → Thread) (tdp : Nat) (stus : Tdstus) (t : Nat) :
    (setStus td tdp stus t).tdPriority = (td t).tdPriority := by
  unfold setStus
  by_cases h : t = tdp
  · subst h
    simp
  · rw [update_of_ne h]

theorem Listh.Takes.of_priority {k : Listh} {t t' : Thread} (h : k.Takes t) (heq : t'.tdPriority = t.tdPriority) :
    k.Takes t' := by
  cases k with
  | ready pity => exact heq.trans h
  | wait wlst => exact heq.trans_lt h
  | exit => trivial

/-- Two states with the same links: the lists, the slots and the priorities. -/
structure SameLinks (s s' : Schdata) : Prop where
  lists : s'.lists = s.lists
  slot : ∀ pity, s'.slot pity = s.slot pity
  tdPriority : ∀ t, (s'.td t).tdPriority = (s.td t).tdPriority
  sdaCpuidle : s'.sdaCpuidle = s.sdaCpuidle

theorem SameLinks.where_iff {s s' : Schdata} (h : SameLinks s s') (t : Nat) : Where s' t ↔ Where s t := by
  unfold Where
  rw [h.lists]
  simp only [h.slot]

theorem Linked.congr {s s' : Schdata} {added : Finset Nat} (h : Linked s added) (hs : SameLinks s s')
    (hcurr : ∀ t, s'.sdaCurrtd = some t → Known s added t)
    (htdnr : ∀ wlst, (s.lists (.wait wlst)).length ≤ s'.wlTdnr wlst) : Linked s' added where
  shared := hs.lists ▸ h.shared
  slot_off := fun pity t ht => hs.lists ▸ h.slot_off pity t (hs.slot pity ▸ ht)
  takes := fun k t ht => (h.takes k t (hs.lists ▸ ht)).of_priority (hs.tdPriority t)
  slot_own := fun pity t ht => (hs.tdPriority t).trans (h.slot_own pity t (hs.slot pity ▸ ht))
  known := fun t ht => by
    unfold Known
    rw [hs.sdaCpuidle]
    exact h.known t ((hs.where_iff t).mp ht)
  curr_known := fun t ht => by
    unfold Known
    rw [hs.sdaCpuidle]
    exact hcurr t ht
  tdnr_le := fun wlst => by
    rw [hs.lists]
    exact htdnr wlst

/-! ### The changes the calls are made of -/

section Changes

variable {s s' : Schdata} {added : Finset Nat} {c : Nat}

/-- A thread comes off the lists and off its slot. -/
structure TakenOff (s s' : Schdata) (c : Nat) : Prop where
  lists : s'.lists = listDel s.lists c
  slot : ∀ pity, s'.slot pity = if s.slot pity = some c then none else s.slot pity
  tdPriority : ∀ t, (s'.td t).tdPriority = (s.td t).tdPriority
  sdaCpuidle : s'.sdaCpuidle = s.sdaCpuidle
  sdaCurrtd : s'.sdaCurrtd = s.sdaCurrtd

theorem TakenOff.where_iff (h : TakenOff s s' c) (hl : Linked s added) (t : Nat) :
    Where s' t ↔ Where s t ∧ t ≠ c := by
  unfold Where
  rw [h.lists]
  simp only [hl.shared.mem_listDel, h.slot, ite_eq_iff, reduceCtorEq, and_false, false_or]
  constructor
  · rintro (⟨k, hne, hk⟩ | ⟨pity, hne, hp⟩)
    · exact ⟨.inl ⟨k, hk⟩, hne⟩
    · exact ⟨.inr ⟨pity, hp⟩, fun heq => hne (heq ▸ hp)⟩
  · rintro ⟨⟨k, hk⟩ | ⟨pity, hp⟩, hne⟩
    · exact .inl ⟨k, hne, hk⟩
    · exact .inr ⟨pity, fun heq => hne (Option.some.inj (hp.symm.trans heq)), hp⟩

theorem Linked.takenOff (hl : Linked s added) (h : TakenOff s s' c)
    (htdnr : ∀ wlst, (s'.lists (.wait wlst)).length ≤ s'.wlTdnr wlst) : Linked s' added where
  shared := h.lists ▸ hl.shared.listDel c
  slot_off := fun pity t ht k hk => by
    rw [h.lists, hl.shared.mem_listDel] at hk
    rw [h.slot] at ht
    split_ifs at ht
    exact hl.slot_off pity t ht k hk.2
  takes := fun k t ht => by
    rw [h.lists, hl.shared.mem_listDel] at ht
    exact (hl.takes k t ht.2).of_priority (h.tdPriority t)
  slot_own := fun pity t ht => by
    rw [h.slot] at ht
    split_ifs at ht
    exact (h.tdPriority t).trans (hl.slot_own pity t ht)
  known := fun t ht => by
    unfold Known
    rw [h.sdaCpuidle]
    exact hl.known t ((h.where_iff hl t).mp ht).1
  curr_known := fun t ht => by
    unfold Known
    rw [h.sdaCpuidle]
    exact hl.curr_known t (h.sdaCurrtd ▸ ht)
  tdnr_le := htdnr

/-- A thread that is nowhere goes on one list, first or last. -/
structure PutOn (s s' : Schdata) (k : Listh) (c : Nat) : Prop where
  lists : s'.lists = listAdd s.lists k c ∨ s'.lists = listAddTail s.lists k c
  slot : ∀ pity, s'.slot pity = s.slot pity
  tdPriority : ∀ t, (s'.td t).tdPriority = (s.td t).tdPriority
  sdaCpuidle : s'.sdaCpuidle = s.sdaCpuidle
  sdaCurrtd : s'.sdaCurrtd = s.sdaCurrtd

theorem PutOn.mem_iff {k : Listh} (h : PutOn s s' k c) (l : Listh) (t : Nat) :
    t ∈ s'.lists l ↔ (t = c ∧ l = k) ∨ t ∈ s.lists l := by
  rcases h.lists with heq | heq
  · rw [heq, mem_listAdd]
  · rw [heq, mem_listAddTail]

theorem PutOn.length {k : Listh} (h : PutOn s s' k c) (l : Listh) :
    (s'.lists l).length = (s.lists l).length + if l = k then 1 else 0 := by
  rcases h.lists with heq | heq
  · rw [heq, length_listAdd]
  · rw [heq, length_listAddTail]

theorem PutOn.where_iff {k : Listh} (h : PutOn s s' k c) (t : Nat) : Where s' t ↔ t = c ∨ Where s t := by
  unfold Where
  simp only [h.mem_iff, h.slot]
  constructor
  · rintro (⟨l, ⟨rfl, -⟩ | hl⟩ | hp)
    · exact .inl rfl
    · exact .inr (.inl ⟨l, hl⟩)
    · exact .inr (.inr hp)
  · rintro (rfl | ⟨l, hl⟩ | hp)
    · exact .inl ⟨k, .inl ⟨rfl, rfl⟩⟩
    · exact .inl ⟨l, .inr hl⟩
    · exact .inr hp

theorem Linked.putOn {k : Listh} {added' : Finset Nat} (hl : Linked s added) (h : PutOn s s' k c) (hout : ¬ Where s c)
    (htakes : k.Takes (s.td c)) (hadded : added ⊆ added') (hc : Known s added' c)
    (htdnr : ∀ wlst, (s'.lists (.wait wlst)).length ≤ s'.wlTdnr wlst) : Linked s' added' where
  shared := by
    have hnew : ∀ l, c ∉ s.lists l := fun l hmem => hout (.inl ⟨l, hmem⟩)
    rcases h.lists with heq | heq
    · exact heq ▸ hl.shared.listAdd hnew k
    · exact heq ▸ hl.shared.listAddTail hnew k
  slot_off := fun pity t ht l hmem => by
    rw [h.slot] at ht
    rcases (h.mem_iff l t).mp hmem with ⟨rfl, -⟩ | hmem
    · exact hout (.inr ⟨pity, ht⟩)
    · exact hl.slot_off pity t ht l hmem
  takes := fun l t hmem => by
    rcases (h.mem_iff l t).mp hmem with ⟨rfl, rfl⟩ | hmem
    · exact htakes.of_priority (h.tdPriority t)
    · exact (hl.takes l t hmem).of_priority (h.tdPriority t)
  slot_own := fun pity t ht => (h.tdPriority t).trans (hl.slot_own pity t (h.slot pity ▸ ht))
  known := fun t ht => by
    unfold Known
    rw [h.sdaCpuidle]
    rcases (h.where_iff t).mp ht with rfl | ht
    · exact hc
    · exact (hl.known t ht).imp (fun hmem => hadded hmem) id
  curr_known := fun t ht => by
    unfold Known
    rw [h.sdaCpuidle]
    exact (hl.curr_known t (h.sdaCurrtd ▸ ht)).imp (fun hmem => hadded hmem) id
  tdnr_le := htdnr

end Changes

/-! ### Waiting and exiting -/

section Calls

variable {s s' : Schdata} {added : Finset Nat}

theorem krlschedRetnCurrthread_eq {tdp : Nat} (h : krlschedRetnCurrthread s = .ok tdp) : s.sdaCurrtd = some tdp := by
  unfold krlschedRetnCurrthread at h
  split at h
  · cases h
  · next heq => exact heq.trans (congrArg some (Except.ok.inj h))

theorem krlschedRetnIdlethread_eq {tdp : Nat} (h : krlschedRetnIdlethread s = .ok tdp) :
    s.sdaCpuidle = some tdp := by
  unfold krlschedRetnIdlethread at h
  split at h
  · cases h
  · next heq => exact heq.trans (congrArg some (Except.ok.inj h))

theorem takenOff_leaveReady (hl : Linked s added) (tdp : Nat) (stus : Tdstus) :
    TakenOff s (leaveReady s tdp stus) tdp where
  lists := rfl
  slot := fun pity => by
    by_cases hp : pity = (s.td tdp).tdPriority
    · subst hp
      have hself : (leaveReady s tdp stus).sdaThdlst (s.td tdp).tdPriority =
          (s.sdaThdlst (s.td tdp).tdPriority).leave tdp := by simp [leaveReady]
      exact congrArg Thrdlst.tdlCurruntd hself
    · -- the thread is in no slot but its own priority's
      rw [if_neg fun heq => hp (hl.slot_own pity tdp heq).symm]
      simp [Schdata.slot, leaveReady, hp]
  tdPriority := fun t => setStus_tdPriority s.td tdp stus t
  sdaCpuidle := rfl
  sdaCurrtd := rfl

theorem linked_leaveReady (hl : Linked s added) (tdp : Nat) (stus : Tdstus) :
    Linked (leaveReady s tdp stus) added := by
  refine hl.takenOff (takenOff_leaveReady hl tdp stus) fun wlst => ?_
  have hlen := length_listDel (q := s.lists) (t := tdp) (l := .wait wlst)
  have hle := hl.tdnr_le wlst
  show (listDel s.lists tdp (.wait wlst)).length ≤ s.wlTdnr wlst
  omega

theorem not_where_leaveReady (hl : Linked s added) (tdp : Nat) (stus : Tdstus) :
    ¬ Where (leaveReady s tdp stus) tdp :=
  fun hw => ((takenOff_leaveReady hl tdp stus).where_iff hl tdp |>.mp hw).2 rfl

theorem putOn_krlwlstAddThread (s : Schdata) (wlst tdp : Nat) :
    PutOn s (krlwlstAddThread s wlst tdp) (.wait wlst) tdp where
  lists := .inl rfl
  slot := fun _ => rfl
  tdPriority := fun _ => rfl
  sdaCpuidle := rfl
  sdaCurrtd := rfl

theorem linked_krlwlstAddThread {wlst tdp : Nat} (hl : Linked s added) (hout : ¬ Where s tdp)
    (hprity : (s.td tdp).tdPriority < prityMax) (hknown : Known s added tdp) :
    Linked (krlwlstAddThread s wlst tdp) added := by
  have hput := putOn_krlwlstAddThread s wlst tdp
  refine hl.putOn hput hout hprity subset_rfl hknown fun w => ?_
  have hle := hl.tdnr_le w
  rw [hput.length]
  by_cases hw : w = wlst
  · subst hw
    simpa [krlwlstAddThread] using hle
  · simpa [krlwlstAddThread, hw] using hle

theorem krlschedWait_cases {wlst : Nat} (h : krlschedWait s wlst = .ok s') :
    ∃ tdp, s.sdaCurrtd = some tdp ∧ (s.td tdp).tdPriority < prityMax ∧
      1 ≤ (s.sdaThdlst (s.td tdp).tdPriority).tdlNr ∧
      s' = krlwlstAddThread (leaveReady s tdp .wait) wlst tdp := by
  obtain ⟨tdp, hcurr, h⟩ := bind_eq_ok h
  split_ifs at h with hbad hnr
  cases h
  exact ⟨tdp, krlschedRetnCurrthread_eq hcurr, by omega, by omega, rfl⟩

theorem krlschedExit_cases (h : krlschedExit s = .ok s') :
    ∃ tdp, s.sdaCurrtd = some tdp ∧ 1 ≤ (s.sdaThdlst (s.td tdp).tdPriority).tdlNr ∧
      s' = krlschdclassDelThreadAddexit s tdp := by
  obtain ⟨tdp, hcurr, h⟩ := bind_eq_ok h
  obtain ⟨idle, -, h⟩ := bind_eq_ok h
  split_ifs at h with hidle hbad hnr
  cases h
  exact ⟨tdp, krlschedRetnCurrthread_eq hcurr, by omega, rfl⟩

theorem putOn_krlschdclassDelThreadAddexit (s : Schdata) (tdp : Nat) :
    PutOn (leaveReady s tdp .exit) (krlschdclassDelThreadAddexit s tdp) .exit tdp where
  lists := .inl rfl
  slot := fun _ => rfl
  tdPriority := fun _ => rfl
  sdaCpuidle := rfl
  sdaCurrtd := rfl

theorem where_of_leaveReady {k : Listh} {tdp : Nat} {stus : Tdstus} (hl : Linked s added)
    (h : PutOn (leaveReady s tdp stus) s' k tdp) (t : Nat) : Where s' t ↔ t = tdp ∨ Where s t := by
  rw [h.where_iff, (takenOff_leaveReady hl tdp stus).where_iff hl]
  tauto

theorem linked_krlschedWait {wlst : Nat} (hl : Linked s added) (h : krlschedWait s wlst = .ok s') :
    Linked s' added := by
  obtain ⟨tdp, hcurr, hprity, -, rfl⟩ := krlschedWait_cases h
  refine linked_krlwlstAddThread (linked_leaveReady hl tdp .wait) (not_where_leaveReady hl tdp .wait) ?_
    (hl.curr_known tdp hcurr)
  exact (setStus_tdPriority s.td tdp .wait tdp).trans_lt hprity

theorem linked_krlschedExit (hl : Linked s added) (h : krlschedExit s = .ok s') : Linked s' added := by
  obtain ⟨tdp, hcurr, -, rfl⟩ := krlschedExit_cases h
  have hleft := linked_leaveReady hl tdp .exit
  have hput := putOn_krlschdclassDelThreadAddexit s tdp
  refine hleft.putOn hput (not_where_leaveReady hl tdp .exit) trivial subset_rfl (hl.curr_known tdp hcurr) ?_
  intro wlst
  rw [hput.length, if_neg (by simp)]
  exact hleft.tdnr_le wlst

/-! ### Waking -/

theorem krlwlstDelThread_cases {wlst tdp : Nat} (h : krlwlstDelThread s wlst = (some tdp, s')) :
    (∃ rest, s.lists (.wait wlst) = tdp :: rest) ∧ 1 ≤ s.wlTdnr wlst ∧
      s' = { s with
        lists := listDel s.lists tdp
        wlTdnr := update s.wlTdnr wlst (s.wlTdnr wlst - 1) } := by
  unfold krlwlstDelThread at h
  split at h
  · cases h
  · next first rest heq =>
    split_ifs at h with hnr
    · cases h
    · obtain ⟨hfst, rfl⟩ := Prod.mk.inj h
      cases hfst
      exact ⟨⟨rest, heq⟩, by omega, rfl⟩

theorem krlschedUp_cases {wlst : Nat} (h : krlschedUp s wlst = .ok s') :
    ∃ tdp mid, krlwlstDelThread s wlst = (some tdp, mid) ∧ s' = enterReady mid tdp := by
  unfold krlschedUp at h
  split_ifs at h
  split at h
  · cases h
  · next tdp mid heq =>
    split_ifs at h
    cases h
    exact ⟨tdp, mid, heq, rfl⟩

theorem takenOff_krlwlstDelThread {wlst tdp : Nat} (hl : Linked s added)
    (h : krlwlstDelThread s wlst = (some tdp, s')) : TakenOff s s' tdp := by
  obtain ⟨⟨rest, hlist⟩, -, rfl⟩ := krlwlstDelThread_cases h
  refine ⟨rfl, fun pity => ?_, fun _ => rfl, rfl, rfl⟩
  -- a thread on a wait list is in no slot
  rw [if_neg fun heq => hl.slot_off pity tdp heq (.wait wlst) (hlist ▸ List.mem_cons_self)]
  rfl

theorem length_krlwlstDelThread {wlst tdp : Nat} (hl : Linked s added)
    (h : krlwlstDelThread s wlst = (some tdp, s')) (w : Nat) :
    (s'.lists (.wait w)).length + (if w = wlst then 1 else 0) = (s.lists (.wait w)).length := by
  obtain ⟨⟨rest, hlist⟩, -, rfl⟩ := krlwlstDelThread_cases h
  have hmem : tdp ∈ s.lists (.wait wlst) := hlist ▸ List.mem_cons_self
  have hiff : tdp ∈ s.lists (.wait w) ↔ w = wlst := by
    constructor
    · intro hw
      exact Listh.wait.inj (hl.shared.once tdp _ _ hw hmem)
    · rintro rfl
      exact hmem
  have hlen := length_listDel (q := s.lists) (t := tdp) (l := .wait w)
  simpa only [hiff] using hlen

theorem linked_krlwlstDelThread {wlst tdp : Nat} (hl : Linked s added)
    (h : krlwlstDelThread s wlst = (some tdp, s')) : Linked s' added := by
  refine hl.takenOff (takenOff_krlwlstDelThread hl h) fun w => ?_
  have hlen := length_krlwlstDelThread hl h w
  have hle := hl.tdnr_le w
  obtain ⟨-, -, rfl⟩ := krlwlstDelThread_cases h
  by_cases hw : w = wlst
  · subst hw
    rw [if_pos rfl] at hlen
    simp only [update_self] at hlen ⊢
    omega
  · rw [if_neg hw] at hlen
    simp only [update_of_ne hw] at hlen ⊢
    omega

theorem putOn_enterReady (s : Schdata) (tdp : Nat) :
    PutOn s (enterReady s tdp) (.ready (s.td tdp).tdPriority) tdp where
  lists := .inr rfl
  slot := fun pity => by
    by_cases hp : pity = (s.td tdp).tdPriority
    · subst hp
      simp [Schdata.slot, enterReady, Thrdlst.enter]
    · simp [Schdata.slot, enterReady, hp]
  tdPriority := fun t => setStus_tdPriority s.td tdp .run t
  sdaCpuidle := rfl
  sdaCurrtd := rfl

theorem linked_enterReady {tdp : Nat} (hl : Linked s added) (hout : ¬ Where s tdp) (hknown : Known s added tdp) :
    Linked (enterReady s tdp) added := by
  have hput := putOn_enterReady s tdp
  refine hl.putOn hput hout rfl subset_rfl hknown fun wlst => ?_
  rw [hput.length, if_neg (by simp)]
  exact hl.tdnr_le wlst

theorem where_krlschedUp {wlst : Nat} (hl : Linked s added) (h : krlschedUp s wlst = .ok s') (t : Nat) :
    Where s' t ↔ Where s t := by
  obtain ⟨tdp, mid, hdel, rfl⟩ := krlschedUp_cases h
  obtain ⟨⟨rest, hlist⟩, -, -⟩ := krlwlstDelThread_cases hdel
  have hwhere : Where s tdp := .inl ⟨.wait wlst, hlist ▸ List.mem_cons_self⟩
  rw [(putOn_enterReady mid tdp).where_iff, (takenOff_krlwlstDelThread hl hdel).where_iff hl]
  constructor
  · rintro (rfl | ⟨ht, -⟩)
    · exact hwhere
    · exact ht
  · intro ht
    by_cases heq : t = tdp
    · exact .inl heq
    · exact .inr ⟨ht, heq⟩

theorem linked_krlschedUp {wlst : Nat} (hl : Linked s added) (h : krlschedUp s wlst = .ok s') : Linked s' added := by
  obtain ⟨tdp, mid, hdel, rfl⟩ := krlschedUp_cases h
  obtain ⟨⟨rest, hlist⟩, -, hmid⟩ := krlwlstDelThread_cases hdel
  have hoff := takenOff_krlwlstDelThread hl hdel
  have hknown : Known s added tdp := hl.known tdp (.inl ⟨.wait wlst, hlist ▸ List.mem_cons_self⟩)
  refine linked_enterReady (linked_krlwlstDelThread hl hdel) (fun hw => ((hoff.where_iff hl tdp).mp hw).2 rfl) ?_
  unfold Known
  rw [hoff.sdaCpuidle]
  exact hknown

theorem length_krlschedUp {wlst : Nat} (hl : Linked s added) (h : krlschedUp s wlst = .ok s') (w : Nat) :
    (s'.lists (.wait w)).length + (if w = wlst then 1 else 0) = (s.lists (.wait w)).length := by
  obtain ⟨tdp, mid, hdel, rfl⟩ := krlschedUp_cases h
  have hlen := length_krlwlstDelThread hl hdel w
  rw [(putOn_enterReady mid tdp).length, if_neg (by simp)]
  exact hlen

theorem krlschedUp_returns {wlst : Nat} (hl : Linked s added) (hwlst : wlst ≠ 0) (hne : s.lists (.wait wlst) ≠ []) :
    ∃ s', krlschedUp s wlst = .ok s' := by
  obtain ⟨tdp, rest, hlist⟩ := List.exists_cons_of_ne_nil hne
  have hnr := hl.tdnr_le wlst
  rw [hlist, List.length_cons] at hnr
  have hprity : (s.td tdp).tdPriority < prityMax := hl.takes (.wait wlst) tdp (hlist ▸ List.mem_cons_self)
  unfold krlschedUp krlwlstDelThread
  rw [if_neg hwlst]
  simp only [hlist]
  rw [if_neg (by omega)]
  exact ⟨_, if_neg (Nat.not_le.mpr hprity)⟩

theorem allupLoop_inv {wlst : Nat} {P : Schdata → Prop} (hstep : ∀ s s', P s → krlschedUp s wlst = .ok s' → P s')
    (n : Nat) : ∀ s s', P s → krlwlstAllupLoop wlst n s = .ok s' → P s' := by
  induction n with
  | zero =>
    intro s s' hP h
    cases h
    exact hP
  | succ n ih =>
    intro s s' hP h
    unfold krlwlstAllupLoop at h
    split_ifs at h
    · cases h
      exact hP
    · obtain ⟨mid, hup, h⟩ := bind_eq_ok h
      exact ih mid s' (hstep s mid hP hup) h

theorem allupLoop_returns {wlst : Nat} (hwlst : wlst ≠ 0) (n : Nat) :
    ∀ s, Linked s added → (s.lists (.wait wlst)).length = n →
      ∃ s', krlwlstAllupLoop wlst n s = .ok s' ∧ s'.lists (.wait wlst) = [] := by
  induction n with
  | zero => exact fun s _ hlen => ⟨s, rfl, List.length_eq_zero_iff.mp hlen⟩
  | succ n ih =>
    intro s hl hlen
    have hne : s.lists (.wait wlst) ≠ [] := fun heq => by simp [heq] at hlen
    obtain ⟨mid, hup⟩ := krlschedUp_returns hl hwlst hne
    have hmid := length_krlschedUp hl hup wlst
    rw [if_pos rfl] at hmid
    obtain ⟨s', hs', hnil⟩ := ih mid (linked_krlschedUp hl hup) (by omega)
    refine ⟨s', ?_, hnil⟩
    unfold krlwlstAllupLoop
    rw [if_neg hne, bind_of_ok hup]
    exact hs'

theorem allup_spec {wlst : Nat} (hwlst : wlst ≠ 0) (hl : Linked s added) :
    ∃ s', krlwlstAllup s wlst = .ok s' ∧ s'.lists (.wait wlst) = [] :=
  allupLoop_returns hwlst _ s hl rfl

/-! ### Selecting -/

theorem krlschedSelectThread_cases {next : Nat} (h : krlschedSelectThread s = .ok (next, s')) :
    (∃ pity, next ∈ s.lists (.ready pity) ∧ s' = takeSlot s pity next) ∨
      (∃ pity, s.slot pity = some next ∧ s' = s) ∨
        (s.sdaCpuidle = some next ∧ s' = { s with sdaPrityidx := prityMin }) := by
  unfold krlschedSelectThread at h
  split at h
  · next r heq =>
    cases h
    obtain ⟨pity, -, hsel⟩ := List.exists_of_findSome?_eq_some heq
    unfold selectAt at hsel
    split at hsel
    · next tdtmp hfind =>
      cases hsel
      exact .inl ⟨pity, List.mem_of_find?_eq_some hfind, rfl⟩
    · obtain ⟨tdp, hslot, heq⟩ := Option.map_eq_some_iff.mp hsel
      cases heq
      exact .inr (.inl ⟨pity, hslot, rfl⟩)
  · obtain ⟨tdp, hidle, h⟩ := bind_eq_ok h
    cases h
    exact .inr (.inr ⟨krlschedRetnIdlethread_eq hidle, rfl⟩)

theorem slot_takeSlot (s : Schdata) (pity tdtmp p : Nat) :
    (takeSlot s pity tdtmp).slot p = if p = pity then some tdtmp else s.slot p := by
  by_cases hp : p = pity
  · subst hp
    simp [Schdata.slot, takeSlot]
  · simp [Schdata.slot, takeSlot, hp]

theorem mem_takeSlot {pity tdtmp : Nat} (hl : Linked s added) (k : Listh) (t : Nat) :
    t ∈ (takeSlot s pity tdtmp).lists k ↔
      (s.slot pity = some t ∧ k = .ready pity) ∨ (t ≠ tdtmp ∧ t ∈ s.lists k) := by
  unfold takeSlot Schdata.slot
  cases hcur : (s.sdaThdlst pity).tdlCurruntd with
  | none => simp [hl.shared.mem_listDel]
  | some cur =>
    simp only [mem_listAddTail, hl.shared.mem_listDel, Option.some.injEq]
    rw [eq_comm (a := t)]

theorem length_takeSlot {pity tdtmp : Nat} (hl : Linked s added) (hmem : tdtmp ∈ s.lists (.ready pity)) (k : Listh) :
    ((takeSlot s pity tdtmp).lists k).length + (if k = .ready pity then 1 else 0) =
      (s.lists k).length + if k = .ready pity ∧ s.slot pity ≠ none then 1 else 0 := by
  have hiff : tdtmp ∈ s.lists k ↔ k = .ready pity := by
    constructor
    · intro hk
      exact hl.shared.once tdtmp _ _ hk hmem
    · rintro rfl
      exact hmem
  have hlen := length_listDel (q := s.lists) (t := tdtmp) (l := k)
  simp only [hiff] at hlen
  unfold takeSlot Schdata.slot
  cases hcur : (s.sdaThdlst pity).tdlCurruntd with
  | none =>
    simp only [ne_eq, not_true_eq_false, and_false, if_false]
    exact hlen
  | some cur =>
    simp only [length_listAddTail, ne_eq, reduceCtorEq, not_false_eq_true, and_true]
    omega

theorem where_takeSlot {pity tdtmp : Nat} (hl : Linked s added) (hmem : tdtmp ∈ s.lists (.ready pity)) (t : Nat) :
    Where (takeSlot s pity tdtmp) t ↔ Where s t := by
  unfold Where
  simp only [mem_takeSlot hl, slot_takeSlot]
  constructor
  · rintro (⟨k, ⟨hslot, -⟩ | ⟨-, hk⟩⟩ | ⟨p, hp⟩)
    · exact .inr ⟨pity, hslot⟩
    · exact .inl ⟨k, hk⟩
    · split_ifs at hp with hpity
      · cases hp
        exact .inl ⟨.ready pity, hmem⟩
      · exact .inr ⟨p, hp⟩
  · rintro (⟨k, hk⟩ | ⟨p, hp⟩)
    · by_cases heq : t = tdtmp
      · exact .inr ⟨pity, by rw [if_pos rfl, heq]⟩
      · exact .inl ⟨k, .inr ⟨heq, hk⟩⟩
    · by_cases hpity : p = pity
      · subst hpity
        exact .inl ⟨.ready p, .inl ⟨hp, rfl⟩⟩
      · exact .inr ⟨p, by rwa [if_neg hpity]⟩

theorem linked_takeSlot {pity tdtmp : Nat} (hl : Linked s added) (hmem : tdtmp ∈ s.lists (.ready pity)) :
    Linked (takeSlot s pity tdtmp) added where
  shared := by
    have hdel := hl.shared.listDel tdtmp
    unfold takeSlot
    cases hcur : (s.sdaThdlst pity).tdlCurruntd with
    | none => exact hdel
    | some cur =>
      refine hdel.listAddTail (fun l hcl => ?_) _
      exact hl.slot_off pity cur hcur l (hl.shared.mem_listDel.mp hcl).2
  slot_off := fun p t ht k hk => by
    rw [slot_takeSlot] at ht
    rcases (mem_takeSlot hl k t).mp hk with ⟨hslot, -⟩ | ⟨hne, hk⟩
    · split_ifs at ht with hp
      · -- the thread that left the slot is not the one that took it
        cases ht
        exact hl.slot_off pity tdtmp hslot _ hmem
      · exact hp ((hl.slot_own p t ht).symm.trans (hl.slot_own pity t hslot))
    · split_ifs at ht with hp
      · exact hne (Option.some.inj ht).symm
      · exact hl.slot_off p t ht k hk
  takes := fun k t hk => by
    rcases (mem_takeSlot hl k t).mp hk with ⟨hslot, rfl⟩ | ⟨-, hk⟩
    · exact hl.slot_own pity t hslot
    · exact hl.takes k t hk
  slot_own := fun p t ht => by
    rw [slot_takeSlot] at ht
    split_ifs at ht with hp
    · cases ht
      exact (hl.takes _ tdtmp hmem).trans hp.symm
    · exact hl.slot_own p t ht
  known := fun t ht => hl.known t ((where_takeSlot hl hmem t).mp ht)
  curr_known := hl.curr_known
  tdnr_le := fun wlst => by
    have hlen := length_takeSlot hl hmem (.wait wlst)
    simp only [reduceCtorEq, false_and, if_false, Nat.add_zero] at hlen
    exact hlen ▸ hl.tdnr_le wlst

theorem sameLinks_toNewContext (s : Schdata) (next : Nat) : SameLinks s (toNewContext s next) where
  lists := rfl
  slot := fun _ => rfl
  tdPriority := fun t => by
    unfold toNewContext
    simp only
    split_ifs
    · exact setStus_tdPriority s.td next .run t
    · rfl
  sdaCpuidle := rfl

theorem linked_toNewContext {next : Nat} (hl : Linked s added) (hnext : Known s added next) :
    Linked (toNewContext s next) added := by
  refine hl.congr (sameLinks_toNewContext s next) (fun t ht => ?_) hl.tdnr_le
  cases ht
  exact hnext

theorem krlschedul_cases (h : krlschedul s = .ok s') :
    s' = krlschedSetSchedflgsEx s notsSchedFlgs ∨
      ∃ next mid, krlschedSelectThread s = .ok (next, mid) ∧ s' = toNewContext mid next := by
  unfold krlschedul at h
  split_ifs at h
  · obtain ⟨idle, -, h⟩ := bind_eq_ok h
    cases h
    exact .inl rfl
  · obtain ⟨prev, -, h⟩ := bind_eq_ok h
    obtain ⟨⟨next, mid⟩, hsel, h⟩ := bind_eq_ok h
    cases h
    exact .inr ⟨next, mid, hsel, rfl⟩

theorem sameLinks_setSchedflgsEx (s : Schdata) (flags : Nat) : SameLinks s (krlschedSetSchedflgsEx s flags) :=
  ⟨rfl, fun _ => rfl, fun _ => rfl, rfl⟩

theorem linked_setSchedflgsEx (hl : Linked s added) (flags : Nat) : Linked (krlschedSetSchedflgsEx s flags) added :=
  hl.congr (sameLinks_setSchedflgsEx s flags) hl.curr_known hl.tdnr_le

theorem sameLinks_prityidx (s : Schdata) (n : Nat) : SameLinks s { s with sdaPrityidx := n } :=
  ⟨rfl, fun _ => rfl, fun _ => rfl, rfl⟩

theorem linked_krlschedSelectThread {next : Nat} (hl : Linked s added) (h : krlschedSelectThread s = .ok (next, s')) :
    Linked s' added ∧ Known s' added next ∧ ∀ t, Where s' t ↔ Where s t := by
  rcases krlschedSelectThread_cases h with ⟨pity, hmem, rfl⟩ | ⟨pity, hslot, rfl⟩ | ⟨hidle, rfl⟩
  · exact ⟨linked_takeSlot hl hmem, hl.known next (.inl ⟨_, hmem⟩), where_takeSlot hl hmem⟩
  · exact ⟨hl, hl.known next (.inr ⟨pity, hslot⟩), fun _ => Iff.rfl⟩
  · exact ⟨hl.congr (sameLinks_prityidx s _) hl.curr_known hl.tdnr_le, .inr hidle, fun _ => Iff.rfl⟩

theorem linked_krlschedul (hl : Linked s added) (h : krlschedul s = .ok s') :
    Linked s' added ∧ ∀ t, Where s' t ↔ Where s t := by
  rcases krlschedul_cases h with rfl | ⟨next, mid, hsel, rfl⟩
  · exact ⟨linked_setSchedflgsEx hl _, (sameLinks_setSchedflgsEx s _).where_iff⟩
  · obtain ⟨hmid, hnext, hwhere⟩ := linked_krlschedSelectThread hl hsel
    refine ⟨linked_toNewContext hmid hnext, fun t => ?_⟩
    rw [(sameLinks_toNewContext mid next).where_iff]
    exact hwhere t

theorem krlschedChkneedPmptsched_cases (h : krlschedChkneedPmptsched s = .ok s') :
    s' = s ∨ krlschedul s = .ok s' ∨ krlschedul (krlschedSetSchedflgsEx s notsSchedFlgs) = .ok s' := by
  unfold krlschedChkneedPmptsched at h
  split_ifs at h
  · exact .inr (.inr h)
  · exact .inr (.inl h)
  · cases h
    exact .inl rfl

/-! ### New threads -/

theorem putOn_krlschdclassAddThread (s : Schdata) (thdp : Nat) :
    PutOn s (krlschdclassAddThread s thdp) (.ready (s.td thdp).tdPriority) thdp where
  lists := .inl rfl
  slot := fun pity => by
    by_cases hp : pity = (s.td thdp).tdPriority
    · subst hp
      simp [Schdata.slot, krlschdclassAddThread, Thrdlst.enter]
    · simp [Schdata.slot, krlschdclassAddThread, hp]
  tdPriority := fun _ => rfl
  sdaCpuidle := rfl
  sdaCurrtd := rfl

theorem not_where_of_fresh {thdp : Nat} (hl : Linked s added) (hnew : thdp ∉ added) (hidle : s.sdaCpuidle ≠ some thdp) :
    ¬ Where s thdp := by
  intro hw
  rcases hl.known thdp hw with hmem | heq
  · exact hnew hmem
  · exact hidle heq

theorem linked_krlschdclassAddThread {thdp : Nat} (hl : Linked s added) (hnew : thdp ∉ added)
    (hidle : s.sdaCpuidle ≠ some thdp) : Linked (krlschdclassAddThread s thdp) (insert thdp added) := by
  have hput := putOn_krlschdclassAddThread s thdp
  refine hl.putOn hput (not_where_of_fresh hl hnew hidle) rfl (Finset.subset_insert _ _)
    (.inl (Finset.mem_insert_self _ _)) fun wlst => ?_
  rw [hput.length, if_neg (by simp)]
  exact hl.tdnr_le wlst

/-! ### Every call -/

theorem linked_exec {a : Act} (hl : Linked s added) (hfresh : a.Fresh s added) (h : exec s a = .ok s') :
    Linked s' (a.added added) := by
  cases a with
  | add thdp =>
    cases h
    exact linked_krlschdclassAddThread hl hfresh.1 hfresh.2.1
  | schedul => exact (linked_krlschedul hl h).1
  | wait wlst => exact linked_krlschedWait hl h
  | up wlst => exact linked_krlschedUp hl h
  | wlstUp wlst =>
    simp only [exec, krlwlstUp] at h
    split_ifs at h
    · cases h
      exact hl
    · exact linked_krlschedUp hl h
  | allup wlst => exact allupLoop_inv (P := (Linked · added)) (fun _ _ => linked_krlschedUp) _ s s' hl h
  | exit => exact linked_krlschedExit hl h
  | setflgs flags =>
    cases h
    exact linked_setSchedflgsEx hl flags
  | chkneed =>
    rcases krlschedChkneedPmptsched_cases h with rfl | hrun | hrun
    · exact hl
    · exact (linked_krlschedul hl hrun).1
    · exact (linked_krlschedul (linked_setSchedflgsEx hl _) hrun).1

end Calls

theorem linked_initKrlsched (td : Nat → Thread) (idle : Nat) : Linked (initKrlsched td idle) ∅ where
  shared := ⟨fun _ => List.nodup_nil, fun t k l hk => by simp [initKrlsched] at hk⟩
  slot_off := fun pity t ht => by simp [initKrlsched, Schdata.slot] at ht
  takes := fun k t ht => by simp [initKrlsched] at ht
  slot_own := fun pity t ht => by simp [initKrlsched, Schdata.slot] at ht
  known := fun t ht => by simp [initKrlsched, Where, Schdata.slot] at ht
  curr_known := fun t ht => .inr ht
  tdnr_le := fun _ => le_rfl

end Cosmos.Sched
