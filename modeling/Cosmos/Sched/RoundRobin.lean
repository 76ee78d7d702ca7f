import Cosmos.Sched.Conserve
import Mathlib.Data.List.Rotate
import Mathlib.Data.Nat.Find

/-!
# Priorities and turns

`krlsched_select_thread` takes the lowest priority index with a thread to run. The threads of a priority take turns: its
ready list with the thread in its slot behind is a ring, a selection returns the first thread of the ring and moves it
to the end. Nothing else is needed of the calls than that a ready thread has the status to be selected and that the idle
thread is never ready.
-/

namespace Cosmos.Sched

open Cosmos.Lib

def Ready (s : Schdata) (pity tdp : Nat) : Prop := tdp ∈ s.lists (.ready pity) ∨ s.slot pity = some tdp

/-- What holds in every state of a run in which the idle thread neither waits nor exits. -/
structure Orderly (s : Schdata) (added : Finset Nat) : Prop where
  linked : Linked s added
  idle_out : ∀ t, s.sdaCpuidle = some t → t ∉ added ∧ ¬ Where s t
  alive : ∀ pity t, Ready s pity t → runnable s t = true ∧ pity < prityMax
  started : s.sdaCurrtd ≠ none ∧ s.sdaCpuidle ≠ none

/-! ### One call -/

section Call

variable {s s' : Schdata} {added : Finset Nat} {c pity t : Nat}

theorem Ready.where (h : Ready s pity t) : Where s t :=
  h.elim (fun hmem => .inl ⟨_, hmem⟩) fun hslot => .inr ⟨_, hslot⟩

theorem runnable_setStus_of_ne {stus : Tdstus} (hne : t ≠ c) (htd : s'.td = setStus s.td c stus) :
    runnable s' t = runnable s t := by
  unfold runnable
  rw [htd, setStus, Function.update_of_ne hne]

theorem runnable_setStus_run (htd : s'.td = setStus s.td c .run) : runnable s' c = true := by
  unfold runnable
  rw [htd, setStus, Function.update_self]
  rfl

theorem TakenOff.ready (h : TakenOff s s' c) (hl : Linked s added) (hready : Ready s' pity t) :
    Ready s pity t ∧ t ≠ c := by
  unfold Ready at hready
  rw [h.lists, hl.shared.mem_listDel, h.slot] at hready
  rcases hready with ⟨hne, hmem⟩ | hslot
  · exact ⟨.inl hmem, hne⟩
  · split_ifs at hslot with hc
    exact ⟨.inr hslot, fun heq => hc (heq ▸ hslot)⟩

theorem PutOn.ready {k : Listh} (h : PutOn s s' k c) (hready : Ready s' pity t) :
    Ready s pity t ∨ t = c ∧ k = .ready pity := by
  unfold Ready at hready
  rw [h.mem_iff, h.slot] at hready
  rcases hready with (⟨rfl, rfl⟩ | hmem) | hslot
  · exact .inr ⟨rfl, rfl⟩
  · exact .inl (.inl hmem)
  · exact .inl (.inr hslot)

theorem Orderly.curr_added (h : Orderly s added) (hcurr : s.sdaCurrtd = some c) (hidle : s.sdaCurrtd ≠ s.sdaCpuidle) :
    c ∈ added := by
  rcases h.linked.curr_known c hcurr with hmem | heq
  · exact hmem
  · exact absurd (hcurr.trans heq.symm) hidle

theorem Orderly.of_leave {k : Listh} {stus : Tdstus} (h : Orderly s added) (hlinked : Linked s' added)
    (hc : c ∈ added) (hput : PutOn (leaveReady s c stus) s' k c) (hk : ∀ pity, k ≠ .ready pity)
    (htd : s'.td = setStus s.td c stus) : Orderly s' added where
  linked := hlinked
  idle_out := fun t ht => by
    rw [hput.sdaCpuidle] at ht
    have hout := h.idle_out t ht
    refine ⟨hout.1, fun hw => ?_⟩
    rcases (where_of_leaveReady h.linked hput t).mp hw with rfl | hw
    · exact hout.1 hc
    · exact hout.2 hw
  alive := fun pity t hready => by
    rcases hput.ready hready with hready | ⟨-, heq⟩
    · obtain ⟨hready, hne⟩ := (takenOff_leaveReady h.linked c stus).ready h.linked hready
      rw [runnable_setStus_of_ne hne htd]
      exact h.alive pity t hready
    · exact absurd heq (hk pity)
  started := by
    rw [hput.sdaCurrtd, hput.sdaCpuidle]
    exact h.started

theorem orderly_krlschedUp {wlst : Nat} (h : Orderly s added) (hup : krlschedUp s wlst = .ok s') :
    Orderly s' added := by
  have hlinked := linked_krlschedUp h.linked hup
  have hwhere := where_krlschedUp h.linked hup
  obtain ⟨c, mid, hdel, rfl⟩ := krlschedUp_cases hup
  have hoff := takenOff_krlwlstDelThread h.linked hdel
  have hput := putOn_enterReady mid c
  obtain ⟨⟨rest, hlist⟩, -, hmid⟩ := krlwlstDelThread_cases hdel
  have htd : mid.td = s.td := by rw [hmid]
  refine ⟨hlinked, fun t ht => ?_, fun pity t hready => ?_, ?_⟩
  · rw [hput.sdaCpuidle, hoff.sdaCpuidle] at ht
    exact ⟨(h.idle_out t ht).1, fun hw => (h.idle_out t ht).2 ((hwhere t).mp hw)⟩
  · rcases hput.ready hready with hready | ⟨rfl, heq⟩
    · obtain ⟨hready, hne⟩ := hoff.ready h.linked hready
      rw [runnable_setStus_of_ne (s := s) (c := c) hne (by rw [← htd]; rfl)]
      exact h.alive pity t hready
    · -- the thread that is woken
      have hprity : (s.td t).tdPriority < prityMax := h.linked.takes (.wait wlst) t (hlist ▸ List.mem_cons_self)
      rw [← Listh.ready.inj heq, htd]
      exact ⟨runnable_setStus_run (s := mid) rfl, hprity⟩
  · rw [hput.sdaCurrtd, hoff.sdaCurrtd, hput.sdaCpuidle, hoff.sdaCpuidle]
    exact h.started

theorem orderly_krlschdclassAddThread {thdp : Nat} (h : Orderly s added) (hnew : thdp ∉ added)
    (hidle : s.sdaCpuidle ≠ some thdp) (hprity : (s.td thdp).tdPriority < prityMax)
    (hstus : (s.td thdp).tdStus = .new) :
    Orderly (krlschdclassAddThread s thdp) (insert thdp added) := by
  have hput := putOn_krlschdclassAddThread s thdp
  refine ⟨linked_krlschdclassAddThread h.linked hnew hidle, fun t ht => ?_, fun pity t hready => ?_, h.started⟩
  · have hout := h.idle_out t ht
    have hne : t ≠ thdp := fun heq => hidle (heq ▸ ht)
    refine ⟨fun hmem => ?_, fun hw => ?_⟩
    · exact (Finset.mem_insert.mp hmem).elim hne hout.1
    · exact ((hput.where_iff t).mp hw).elim hne hout.2
  · rcases hput.ready hready with hready | ⟨rfl, heq⟩
    · exact h.alive pity t hready
    · rw [← Listh.ready.inj heq]
      refine ⟨?_, hprity⟩
      show runnable s t = true
      rw [runnable, hstus]
      rfl

/-! ### The ring of a priority -/

def ring (s : Schdata) (pity : Nat) : List Nat := s.lists (.ready pity) ++ (s.slot pity).toList

theorem mem_ring : t ∈ ring s pity ↔ Ready s pity t := by
  unfold ring Ready
  rw [List.mem_append, Option.mem_toList]

theorem nodup_ring (hl : Linked s added) (pity : Nat) : (ring s pity).Nodup := by
  unfold ring
  cases hslot : s.slot pity with
  | none => simpa using hl.shared.nodup (.ready pity)
  | some cur =>
    refine List.nodup_append'.mpr ⟨hl.shared.nodup _, List.nodup_singleton cur, ?_⟩
    rw [Option.toList_some, List.disjoint_singleton]
    exact hl.slot_off pity cur hslot _

theorem ring_eq_nil_iff : ring s pity = [] ↔ ∀ t, ¬ Ready s pity t := by
  rw [List.eq_nil_iff_forall_not_mem]
  exact forall_congr' fun t => not_congr mem_ring

theorem ring_takeSlot {rest : List Nat} (hlist : s.lists (.ready pity) = t :: rest) :
    ring (takeSlot s pity t) pity = (ring s pity).rotate 1 := by
  unfold ring
  rw [slot_takeSlot, if_pos rfl, hlist, List.cons_append, List.rotate_cons_succ, List.rotate_zero]
  unfold takeSlot Schdata.slot
  cases hcur : (s.sdaThdlst pity).tdlCurruntd with
  | none => simp [listDel, hlist]
  | some cur => simp [listAddTail, listDel, hlist]

theorem ring_takeSlot_of_ne {q : Nat} (hl : Linked s added) (hmem : t ∈ s.lists (.ready pity)) (hq : q ≠ pity) :
    ring (takeSlot s pity t) q = ring s q := by
  have hne : Listh.ready q ≠ .ready pity := fun heq => hq (Listh.ready.inj heq)
  have hdel : listDel s.lists t (.ready q) = s.lists (.ready q) :=
    List.erase_of_not_mem fun hin => hne (hl.shared.once t _ _ hin hmem)
  unfold ring
  rw [slot_takeSlot, if_neg hq]
  unfold takeSlot
  cases hcur : (s.sdaThdlst pity).tdlCurruntd with
  | none => simp only [hdel]
  | some cur => simp only [listAddTail, Function.update_of_ne hne, hdel]

theorem selectAt_eq_none (hnil : ring s pity = []) : selectAt s pity = none := by
  obtain ⟨hlist, hslot⟩ := List.append_eq_nil_iff.mp hnil
  have hslot : (s.sdaThdlst pity).tdlCurruntd = none := by simpa [Schdata.slot] using hslot
  unfold selectAt
  rw [hlist, hslot]
  rfl

theorem Orderly.selectAt_eq_some {rest : List Nat} (h : Orderly s added) (hring : ring s pity = t :: rest) :
    ∃ s', selectAt s pity = some (t, s') ∧ ring s' pity = (ring s pity).rotate 1 ∧
      ∀ q ≠ pity, ring s' q = ring s q := by
  unfold selectAt
  cases hlist : s.lists (.ready pity) with
  | nil =>
    have hslot : s.slot pity = some t ∧ rest = [] := by
      rw [ring, hlist, List.nil_append] at hring
      cases hs : s.slot pity with
      | none =>
        rw [hs] at hring
        cases hring
      | some cur =>
        rw [hs] at hring
        cases hring
        exact ⟨rfl, rfl⟩
    obtain ⟨hslot, rfl⟩ := hslot
    refine ⟨s, ?_, ?_, fun _ _ => rfl⟩
    · show Option.map _ (s.slot pity) = _
      rw [hslot]
      rfl
    · rw [hring, List.rotate_singleton]
  | cons first others =>
    obtain rfl : first = t := by
      rw [ring, hlist] at hring
      exact (List.cons.inj hring).1
    have hmem : first ∈ s.lists (.ready pity) := hlist ▸ List.mem_cons_self
    have hfind : (first :: others).find? (runnable s) = some first :=
      List.find?_cons_of_pos (h.alive pity first (.inl hmem)).1
    rw [hfind]
    exact ⟨_, rfl, ring_takeSlot hlist, fun q hq => ring_takeSlot_of_ne h.linked hmem hq⟩

def Lowest (s : Schdata) (pity : Nat) : Prop := ring s pity ≠ [] ∧ ∀ q < pity, ring s q = []

theorem findSome?_range {α : Type} {f : Nat → Option α} {n p : Nat} {a : α} (hp : p < n) (hlow : ∀ q < p, f q = none)
    (ha : f p = some a) : (List.range n).findSome? f = some a := by
  refine List.findSome?_eq_some_iff.mpr
    ⟨List.range p, p, (List.range n).drop (p + 1), ?_, ha, fun q hq => hlow q (List.mem_range.mp hq)⟩
  have hcons := List.drop_eq_getElem_cons (l := List.range n) (i := p) (by rw [List.length_range]; exact hp)
  rw [List.getElem_range] at hcons
  rw [← hcons, ← min_eq_left hp.le, ← List.take_range, min_eq_left hp.le, List.take_append_drop]

theorem Orderly.select_eq (h : Orderly s added) (hlow : Lowest s pity) :
    ∃ t s', krlschedSelectThread s = .ok (t, s') ∧ (ring s pity).head? = some t ∧
      ring s' pity = (ring s pity).rotate 1 ∧ ∀ q ≠ pity, ring s' q = ring s q := by
  obtain ⟨t, rest, hring⟩ := List.exists_cons_of_ne_nil hlow.1
  obtain ⟨s', hsel, hturn⟩ := h.selectAt_eq_some hring
  have hlt : pity < prityMax := (h.alive pity t (mem_ring.mp (hring ▸ List.mem_cons_self))).2
  refine ⟨t, s', ?_, by rw [hring]; rfl, hturn⟩
  unfold krlschedSelectThread
  rw [findSome?_range hlt (fun q hq => selectAt_eq_none (hlow.2 q hq)) hsel]

theorem Orderly.select_idle (h : Orderly s added) (hnone : ∀ q, ring s q = []) :
    ∃ t, s.sdaCpuidle = some t ∧ krlschedSelectThread s = .ok (t, { s with sdaPrityidx := prityMin }) := by
  obtain ⟨t, hidle⟩ := Option.ne_none_iff_exists'.mp h.started.2
  have hnot : (List.range prityMax).findSome? (selectAt s) = none :=
    List.findSome?_eq_none_iff.mpr fun q _ => selectAt_eq_none (hnone q)
  refine ⟨t, hidle, ?_⟩
  unfold krlschedSelectThread krlschedRetnIdlethread
  rw [hnot, hidle]
  rfl

theorem lowest_or_none (s : Schdata) : (∃ pity, Lowest s pity) ∨ ∀ q, ring s q = [] := by
  by_cases hex : ∃ q, ring s q ≠ []
  · refine .inl ⟨Nat.find hex, Nat.find_spec hex, fun q hq => ?_⟩
    exact not_not.mp (Nat.find_min hex hq)
  · exact .inr fun q => not_not.mp fun hne => hex ⟨q, hne⟩

theorem ready_takeSlot {q : Nat} (hl : Linked s added) (hmem : c ∈ s.lists (.ready pity))
    (hready : Ready (takeSlot s pity c) q t) : Ready s q t := by
  unfold Ready at hready
  rw [mem_takeSlot hl, slot_takeSlot] at hready
  rcases hready with (⟨hslot, heq⟩ | ⟨-, hin⟩) | hslot
  · rw [Listh.ready.inj heq]
    exact .inr hslot
  · exact .inl hin
  · split_ifs at hslot with hq
    · cases hslot
      rw [hq]
      exact .inl hmem
    · exact .inr hslot

theorem Orderly.select (h : Orderly s added) (hsel : krlschedSelectThread s = .ok (c, s')) : Orderly s' added := by
  obtain ⟨hlinked, -, hwhere⟩ := linked_krlschedSelectThread h.linked hsel
  rcases krlschedSelectThread_cases hsel with ⟨pity, hmem, rfl⟩ | ⟨pity, -, rfl⟩ | ⟨-, rfl⟩
  · refine ⟨hlinked, fun t ht => ?_, fun q t hready => ?_, h.started⟩
    · exact ⟨(h.idle_out t ht).1, fun hw => (h.idle_out t ht).2 ((hwhere t).mp hw)⟩
    · exact h.alive q t (ready_takeSlot h.linked hmem hready)
  · exact h
  · exact ⟨hlinked, h.idle_out, h.alive, h.started⟩

theorem runnable_toNewContext (hrun : runnable s t = true) (next : Nat) : runnable (toNewContext s next) t = true := by
  unfold toNewContext
  split_ifs
  · by_cases ht : t = next
    · subst ht
      exact runnable_setStus_run (s := s) rfl
    · rw [runnable_setStus_of_ne (s := s) ht rfl]
      exact hrun
  · exact hrun

theorem orderly_setSchedflgsEx (h : Orderly s added) (flags : Nat) : Orderly (krlschedSetSchedflgsEx s flags) added :=
  ⟨linked_setSchedflgsEx h.linked flags, h.idle_out, h.alive, h.started⟩

theorem orderly_krlschedul (h : Orderly s added) (hexec : krlschedul s = .ok s') : Orderly s' added := by
  have hlinked := (linked_krlschedul h.linked hexec).1
  rcases krlschedul_cases hexec with rfl | ⟨next, mid, hsel, rfl⟩
  · exact orderly_setSchedflgsEx h _
  · have hmid := h.select hsel
    refine ⟨hlinked, hmid.idle_out, fun pity t hready => ?_, Option.some_ne_none next, hmid.started.2⟩
    obtain ⟨hrun, hlt⟩ := hmid.alive pity t hready
    exact ⟨runnable_toNewContext hrun next, hlt⟩

/-- A thread is added as `thread_t_init` leaves it. -/
def Act.Made (s : Schdata) : Act → Prop
  | .add thdp => (s.td thdp).tdStus = .new
  | _ => True

/-- The idle thread neither waits nor exits, and added threads are new. -/
def Act.Plain (s : Schdata) (a : Act) : Prop := a.NonIdle s ∧ a.Made s

theorem orderly_exec {a : Act} (h : Orderly s added) (hfresh : a.Fresh s added) (hplain : a.Plain s)
    (hexec : exec s a = .ok s') : Orderly s' (a.added added) := by
  cases a with
  | add thdp =>
    cases hexec
    exact orderly_krlschdclassAddThread h hfresh.1 hfresh.2.1 hfresh.2.2 hplain.2
  | schedul => exact orderly_krlschedul h hexec
  | wait wlst =>
    have hlinked := linked_krlschedWait h.linked hexec
    obtain ⟨c, hcurr, -, -, rfl⟩ := krlschedWait_cases hexec
    exact h.of_leave hlinked (h.curr_added hcurr hplain.1) (putOn_krlwlstAddThread _ wlst c) (by simp) rfl
  | up wlst => exact orderly_krlschedUp h hexec
  | wlstUp wlst =>
    simp only [exec, krlwlstUp] at hexec
    split_ifs at hexec
    · cases hexec
      exact h
    · exact orderly_krlschedUp h hexec
  | allup wlst => exact allupLoop_inv (P := (Orderly · added)) (fun _ _ => orderly_krlschedUp) _ s s' h hexec
  | exit =>
    have hlinked := linked_krlschedExit h.linked hexec
    obtain ⟨c, hcurr, -, rfl⟩ := krlschedExit_cases hexec
    exact h.of_leave hlinked (h.curr_added hcurr hplain.1) (putOn_krlschdclassDelThreadAddexit s c) (by simp) rfl
  | setflgs flags =>
    cases hexec
    exact orderly_setSchedflgsEx h flags
  | chkneed =>
    rcases krlschedChkneedPmptsched_cases hexec with rfl | hexec | hexec
    · exact h
    · exact orderly_krlschedul h hexec
    · exact orderly_krlschedul (orderly_setSchedflgsEx h _) hexec

end Call

theorem orderly_initKrlsched (td : Nat → Thread) (idle : Nat) : Orderly (initKrlsched td idle) ∅ where
  linked := linked_initKrlsched td idle
  idle_out := fun t _ => ⟨Finset.notMem_empty t, by simp [initKrlsched, Where, Schdata.slot]⟩
  alive := fun pity t hready => by simp [initKrlsched, Ready, Schdata.slot] at hready
  started := ⟨Option.some_ne_none idle, Option.some_ne_none idle⟩

theorem orderly_of_run {td : Nat → Thread} {idle : Nat} {acts : List Act} {y : Schdata × Finset Nat}
    (hrun : Trace (Step fun s a => a.Plain s) (initKrlsched td idle, ∅) acts y) : Orderly y.1 y.2 := by
  refine Trace.keeps (J := fun x => Orderly x.1 x.2) ?_ hrun (orderly_initKrlsched td idle)
  rintro x a z hx ⟨hfresh, hplain, hexec, hadded⟩
  rw [hadded]
  exact orderly_exec hx hfresh hplain hexec

/-! ### Turns -/

section Turns

variable {s s' : Schdata} {added : Finset Nat} {pity t : Nat}

def selected (s : Schdata) : Act → Option Nat
  | .schedul =>
    if s.sdaSchdflgs = needStartCpuildeSchedFlgs then none else (krlschedSelectThread s).toOption.map Prod.fst
  | .chkneed =>
    if s.sdaSchdflgs = needSchedFlgs ∧ s.sdaPremptidx = pmptFlgs then
      (krlschedSelectThread (krlschedSetSchedflgsEx s notsSchedFlgs)).toOption.map Prod.fst
    else none
  | _ => none

/-- No thread is added, waits, wakes or exits. -/
def Act.Quiet : Act → Prop
  | .schedul => True
  | .setflgs _ => True
  | .chkneed => True
  | _ => False

def QuietStep (x : Schdata × List Nat) (a : Act) (y : Schdata × List Nat) : Prop :=
  a.Quiet ∧ exec x.1 a = .ok y.1 ∧ y.2 = x.2 ++ (selected x.1 a).toList

theorem Act.Quiet.step {a : Act} (h : a.Quiet) (s : Schdata) (added : Finset Nat) :
    a.Fresh s added ∧ a.Plain s ∧ a.added added = added := by
  cases a with
  | add _ | wait _ | up _ | wlstUp _ | allup _ | exit => exact h.elim
  | schedul | setflgs _ | chkneed => exact ⟨trivial, ⟨trivial, trivial⟩, rfl⟩

/-- What a quiet call does to the ring: nothing, or it returns the first thread and turns the ring by one. -/
inductive Turn (r r' : List Nat) : Option Nat → Prop
  | stay : r' = r → Turn r r' none
  | next {t : Nat} : r.head? = some t → r' = r.rotate 1 → Turn r r' (some t)

theorem Orderly.turn_select (h : Orderly s added) (hlow : Lowest s pity)
    (hflgs : s.sdaSchdflgs ≠ needStartCpuildeSchedFlgs) (hexec : krlschedul s = .ok s') :
    Turn (ring s pity) (ring s' pity) ((krlschedSelectThread s).toOption.map Prod.fst) ∧ Lowest s' pity := by
  obtain ⟨t, mid, hsel, hhead, hturn, hother⟩ := h.select_eq hlow
  unfold krlschedul at hexec
  rw [if_neg hflgs] at hexec
  obtain ⟨prev, -, hexec⟩ := Halt.bind_eq_ok hexec
  rw [Halt.bind_of_ok hsel] at hexec
  cases hexec
  rw [hsel]
  refine ⟨.next hhead hturn, ?_, fun q hq => ?_⟩
  · show ring mid pity ≠ []
    rw [hturn, ne_eq, List.rotate_eq_nil_iff]
    exact hlow.1
  · show ring mid q = []
    rw [hother q hq.ne]
    exact hlow.2 q hq

theorem Orderly.turn {a : Act} (h : Orderly s added) (hlow : Lowest s pity) (hquiet : a.Quiet)
    (hexec : exec s a = .ok s') : Turn (ring s pity) (ring s' pity) (selected s a) ∧ Lowest s' pity := by
  cases a with
  | add _ | wait _ | up _ | wlstUp _ | allup _ | exit => exact hquiet.elim
  | setflgs flags =>
    cases hexec
    exact ⟨.stay rfl, hlow⟩
  | schedul =>
    simp only [selected]
    split_ifs with hflgs
    · simp only [exec, krlschedul, if_pos hflgs] at hexec
      obtain ⟨idle, -, hexec⟩ := Halt.bind_eq_ok hexec
      cases hexec
      exact ⟨.stay rfl, hlow⟩
    · exact h.turn_select hlow hflgs hexec
  | chkneed =>
    simp only [selected]
    split_ifs with hneed
    · simp only [exec, krlschedChkneedPmptsched, if_pos hneed] at hexec
      have hflgs : notsSchedFlgs ≠ needStartCpuildeSchedFlgs := by decide
      exact (orderly_setSchedflgsEx h notsSchedFlgs).turn_select hlow hflgs hexec
    · simp only [exec, krlschedChkneedPmptsched, if_neg hneed] at hexec
      split_ifs at hexec with hflgs
      · simp only [krlschedul, if_pos hflgs] at hexec
        obtain ⟨idle, -, hexec⟩ := Halt.bind_eq_ok hexec
        cases hexec
        exact ⟨.stay rfl, hlow⟩
      · cases hexec
        exact ⟨.stay rfl, hlow⟩

/-- The `j`-th entry of the log is the one the ring starts with after `j` turns. -/
def InTurn (order log : List Nat) : Prop := ∀ j < log.length, log[j]? = order[j % order.length]?

theorem InTurn.push {order log : List Nat} (h : InTurn order log) (hhead : (order.rotate log.length).head? = some t) :
    InTurn order (log ++ [t]) := by
  intro j hj
  rw [List.length_append, List.length_singleton] at hj
  by_cases hlt : j < log.length
  · rw [List.getElem?_append_left hlt]
    exact h j hlt
  · obtain rfl : j = log.length := by omega
    have hpos : 0 < order.length := by
      rw [← List.length_rotate order log.length]
      exact List.length_pos_iff.mpr fun hnil => by rw [hnil] at hhead; cases hhead
    rw [List.head?_eq_getElem?, List.getElem?_rotate hpos, Nat.zero_add] at hhead
    rw [List.getElem?_append_right le_rfl, Nat.sub_self, hhead]
    rfl

theorem InTurn.take_drop {order log : List Nat} {i : Nat} (h : InTurn order log) (hi : i + order.length ≤ log.length) :
    (log.drop i).take order.length = order.rotate i := by
  apply List.ext_getElem?
  intro j
  rw [List.getElem?_take, List.getElem?_drop]
  split_ifs with hj
  · rw [h (i + j) (by omega), List.getElem?_rotate hj, Nat.add_comm]
  · rw [List.getElem?_eq_none (by rw [List.length_rotate]; omega)]

theorem Orderly.inTurn_of_run {order : List Nat} {acts : List Act} {x y : Schdata × List Nat}
    (hrun : Trace QuietStep x acts y) : Orderly x.1 added → Lowest x.1 pity → InTurn order x.2 →
      ring x.1 pity = order.rotate x.2.length → InTurn order y.2 := by
  induction hrun with
  | nil x => exact fun _ _ hlog _ => hlog
  | @cons x z y a acts hstep hrest ih =>
    obtain ⟨hquiet, hexec, hlog⟩ := hstep
    intro hx hlow hturn hring
    obtain ⟨hfresh, hplain, hadded⟩ := hquiet.step x.1 added
    have hz : Orderly z.1 added := hadded ▸ orderly_exec hx hfresh hplain hexec
    obtain ⟨hcall, hlow⟩ := hx.turn hlow hquiet hexec
    refine ih hz hlow ?_ ?_
    · rw [hlog]
      cases hsel : selected x.1 a with
      | none => simpa using hturn
      | some t =>
        rw [hsel] at hcall
        cases hcall with
        | next hhead _ => exact hturn.push (hring ▸ hhead)
    · rw [hlog]
      cases hsel : selected x.1 a with
      | none =>
        rw [hsel] at hcall
        cases hcall with
        | stay hsame => simpa [hsame] using hring
      | some t =>
        rw [hsel] at hcall
        cases hcall with
        | next _ hrot =>
          rw [hrot, hring, List.rotate_rotate, Option.toList_some, List.length_append, List.length_singleton]

/-- The thread is of the lowest priority that has one, and is not the idle thread; or it is, and there is none. -/
def Chosen (s : Schdata) (tdp : Nat) : Prop :=
  (s.sdaCpuidle ≠ some tdp ∧ ∃ pity, Ready s pity tdp ∧ ∀ q < pity, ∀ u, ¬ Ready s q u) ∨
    (s.sdaCpuidle = some tdp ∧ ∀ q u, ¬ Ready s q u)

/-- A list of all threads of the priority, each once, and every selection of that many in a row is this list, turned. -/
def TakesTurns (s : Schdata) (pity : Nat) (order : List Nat) : Prop :=
  order.Nodup ∧ (∀ t, t ∈ order ↔ Ready s pity t) ∧
    ∀ acts y, Trace QuietStep (s, []) acts y →
      ∀ i, i + order.length ≤ y.2.length → (y.2.drop i).take order.length = order.rotate i

theorem Orderly.chosen (h : Orderly s added) : ∃ t s', krlschedSelectThread s = .ok (t, s') ∧ Chosen s t := by
  rcases lowest_or_none s with ⟨pity, hlow⟩ | hnone
  · obtain ⟨t, s', hsel, hhead, -⟩ := h.select_eq hlow
    have hready : Ready s pity t := mem_ring.mp (List.mem_of_head? hhead)
    refine ⟨t, s', hsel, .inl ⟨fun hidle => (h.idle_out t hidle).2 hready.where, pity, hready, fun q hq => ?_⟩⟩
    exact ring_eq_nil_iff.mp (hlow.2 q hq)
  · obtain ⟨t, hidle, hsel⟩ := h.select_idle hnone
    exact ⟨t, _, hsel, .inr ⟨hidle, fun q => ring_eq_nil_iff.mp (hnone q)⟩⟩

theorem Orderly.takesTurns (h : Orderly s added) (hlow : Lowest s pity) : TakesTurns s pity (ring s pity) := by
  refine ⟨nodup_ring h.linked pity, fun t => mem_ring, fun acts y hrun i hi => ?_⟩
  have hstart : InTurn (ring s pity) [] := fun j hj => absurd hj (Nat.not_lt_zero j)
  have hlog : InTurn (ring s pity) y.2 :=
    Orderly.inTurn_of_run hrun h hlow hstart (by rw [List.length_nil, List.rotate_zero])
  exact hlog.take_drop hi

/-- **Priority round robin**: a selection returns a thread of the lowest priority that has one to run, and while no
thread comes or goes the threads of this priority take turns. -/
theorem round_robin {td : Nat → Thread} {idle : Nat} {acts : List Act} {y : Schdata × Finset Nat}
    (hrun : Trace (Step fun s a => a.Plain s) (initKrlsched td idle, ∅) acts y) :
    (∃ t s', krlschedSelectThread y.1 = .ok (t, s') ∧ Chosen y.1 t) ∧
      ∀ pity, (∃ t, Ready y.1 pity t) → (∀ q < pity, ∀ u, ¬ Ready y.1 q u) → ∃ order, TakesTurns y.1 pity order := by
  have h := orderly_of_run hrun
  refine ⟨h.chosen, fun pity hex hlow => ⟨ring y.1 pity, h.takesTurns ⟨fun hnil => ?_, fun q hq => ?_⟩⟩⟩
  · obtain ⟨t, hready⟩ := hex
    exact ring_eq_nil_iff.mp hnil t hready
  · exact ring_eq_nil_iff.mpr (hlow q hq)

/-- Two threads of one priority. -/
theorem round_robin_of_two :
    ∃ y, Trace (Step fun s a => a.Plain s) (initKrlsched newThreads 3, ∅) [.add 1, .add 2] y ∧
      (∃ t s', krlschedSelectThread y.1 = .ok (t, s') ∧ Chosen y.1 t) ∧ ∃ order, TakesTurns y.1 0 order := by
  have hrun : ∃ y, Trace (Step fun s a => a.Plain s) (initKrlsched newThreads 3, ∅) [.add 1, .add 2] y ∧
      Ready y.1 0 1 :=
    ⟨_, Trace.call rfl (by decide) ⟨trivial, rfl⟩ (Trace.call rfl (by decide) ⟨trivial, rfl⟩ (.nil _)),
      .inl (by decide)⟩
  obtain ⟨y, hy, hready⟩ := hrun
  obtain ⟨hchosen, hturns⟩ := round_robin hy
  exact ⟨y, hy, hchosen, hturns 0 ⟨1, hready⟩ fun q hq => absurd hq (Nat.not_lt_zero q)⟩

end Turns

end Cosmos.Sched
