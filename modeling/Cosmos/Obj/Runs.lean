import Cosmos.Obj.Delete
import Cosmos.Page.Lawful

/-!
# Runs of the object allocator

`live i` are the objects of class `i` that `kmsob_new` returned and `kmsob_delete` did not take back. Runs that free
only what is in use keep objects apart from one another and from the headers. `kmsob_delete` itself tells an object in
use from other addresses only as far as `Accepts` goes: `Misfree` is what it takes wrongly. When the last object in use
is freed, every page run goes back to the page allocator.
-/

namespace Cosmos.Obj

open Cosmos.Lib Halt Cosmos.Page

variable {A : PageAlloc} {L : Lawful A} {rest : List Blk} {st st' : St A} {live : Nat → List Nat} {i p a s : Nat}

inductive Call where
  | new (msz : Nat)
  | delete (fadrs fsz : Nat)
  deriving DecidableEq, Repr

def handOut (live : Nat → List Nat) (msz : Nat) : Option Nat → Nat → List Nat
  | none => live
  | some a => Function.update live (classOf msz) (a :: live (classOf msz))

def takeBack (live : Nat → List Nat) (a s : Nat) : Bool → Nat → List Nat
  | false => live
  | true => Function.update live (classOf s) ((live (classOf s)).erase a)

def step (x : St A × (Nat → List Nat)) : Call → Halt (St A × (Nat → List Nat))
  | .new msz => kmsobNew x.1 msz >>= fun r => .ok (r.2, handOut x.2 msz r.1)
  | .delete fadrs fsz => kmsobDelete x.1 fadrs fsz >>= fun r => .ok (r.2, takeBack x.2 fadrs fsz r.1)

def IsLive (live : Nat → List Nat) (a s : Nat) : Prop := 1 ≤ s ∧ s ≤ 2048 ∧ a ∈ live (classOf s)

instance (live : Nat → List Nat) (a s : Nat) : Decidable (IsLive live a s) :=
  inferInstanceAs (Decidable (1 ≤ s ∧ s ≤ 2048 ∧ a ∈ live (classOf s)))

/-- Not in use, and taken all the same: some object of the class is in use, and `a` looks like one. -/
def Misfree (st : St A) (live : Nat → List Nat) (a s : Nat) : Prop :=
  ¬ IsLive live a s ∧ 1 ≤ s ∧ s ≤ 2048 ∧
    ∃ p, (st.mgr.ksMsoblst (classOf s)).olEmplst = [p] ∧ Accepts (st.kmsob p) p a s

/-- The calls of a run: a free is one that `guard` allows, of a 64-bit address. -/
def Call.Ok (guard : St A → (Nat → List Nat) → Nat → Nat → Prop) (x : St A × (Nat → List Nat)) : Call → Prop
  | .new _ => True
  | .delete fadrs fsz => fadrs < 2 ^ 64 ∧ guard x.1 x.2 fadrs fsz

instance (guard : St A → (Nat → List Nat) → Nat → Nat → Prop) [∀ st live a s, Decidable (guard st live a s)]
    (x : St A × (Nat → List Nat)) : (c : Call) → Decidable (c.Ok guard x)
  | .new _ => isTrue trivial
  | .delete fadrs fsz => inferInstanceAs (Decidable (fadrs < 2 ^ 64 ∧ guard x.1 x.2 fadrs fsz))

def Step (guard : St A → (Nat → List Nat) → Nat → Nat → Prop) (x : St A × (Nat → List Nat)) (c : Call)
    (y : St A × (Nat → List Nat)) : Prop := c.Ok guard x ∧ step x c = .ok y

/-- `init_kmsob`, with nothing in use; the memory that will hold the headers is arbitrary. -/
def initKmsob (alc : A.State) (kmsob : Nat → Kmsob) : St A × (Nat → List Nat) :=
  (⟨alc, kmsobmgrhedTInit, kmsob⟩, fun _ => [])

theorem total_nil {α : Type} : total (fun _ => ([] : List α)) = [] := by
  unfold total
  simp

theorem inv_initKmsob {alc : A.State} (kmsob : Nat → Kmsob) (h : L.Inv alc rest) :
    Inv L rest (initKmsob alc kmsob).1 (initKmsob alc kmsob).2 where
  cls := fun _ _ => .inl ⟨⟨rfl, rfl, rfl, rfl⟩, rfl⟩
  msobnr := by
    show 0 = (total fun _ => ([] : List Nat)).length
    rw [total_nil]
    rfl
  alc := by
    show L.Inv alc (total (fun _ => ([] : List Blk)) ++ rest)
    rw [total_nil]
    exact h
  low := fun b hb => by
    have hnil : b ∈ total fun _ => ([] : List Blk) := hb
    rw [total_nil] at hnil
    cases hnil

/-! ### Steps -/

theorem kmsobDelete_refused (h : Inv L rest st live) (ha : a < 2 ^ 64) (hnot : ¬ IsLive live a s)
    (hmis : ¬ Misfree st live a s) : kmsobDelete st a s = .ok (false, st) := by
  by_cases hbad : a = 0 ∨ s < 1 ∨ 2048 < s
  · exact if_pos hbad
  have hs : 1 ≤ s := by omega
  have hs2 : s ≤ 2048 := by omega
  rcases h.cls _ (classOf_lt hs2) with ⟨hbare, -⟩ | ⟨p, hhas, hcahe, hne⟩
  · exact kmsobDelete_of_bare h hs hs2 (by omega) hbare
  · refine (kmsobDelete_of_has h hs hs2 ha (by omega) hhas hcahe hne).2 fun hacc => ?_
    exact hmis ⟨hnot, hs, hs2, p, hhas.emplst, hacc⟩

theorem inv_step {c : Call} {x y : St A × (Nat → List Nat)} (h : Inv L rest x.1 x.2)
    (hstep : Step (fun st live a s => ¬ Misfree st live a s) x c y) : Inv L rest y.1 y.2 := by
  obtain ⟨hok, heq⟩ := hstep
  cases c with
  | new msz =>
    obtain ⟨r, st', hnew, hspec⟩ := kmsobNew_spec h msz
    rw [step, bind_of_ok hnew] at heq
    cases heq
    cases r with
    | none => exact hspec
    | some a => exact hspec.2.2
  | delete fadrs fsz =>
    by_cases hlive : IsLive x.2 fadrs fsz
    · obtain ⟨st', hdel, hinv⟩ := kmsobDelete_live h hlive.1 hlive.2.1 hlive.2.2
      rw [step, bind_of_ok hdel] at heq
      cases heq
      exact hinv
    · rw [step, bind_of_ok (kmsobDelete_refused h hok.1 hlive hok.2)] at heq
      cases heq
      exact h

theorem inv_of_run {alc : A.State} {kmsob : Nat → Kmsob} {calls : List Call} {y : St A × (Nat → List Nat)}
    (halc : L.Inv alc rest)
    (hrun : Trace (Step fun st live a s => ¬ Misfree st live a s) (initKmsob alc kmsob) calls y) :
    Inv L rest y.1 y.2 :=
  hrun.keeps (J := fun x => Inv L rest x.1 x.2) (fun _ _ _ h hstep => inv_step h hstep) (inv_initKmsob kmsob halc)

theorem run_of_live {x y : St A × (Nat → List Nat)} {calls : List Call}
    (hrun : Trace (Step fun _ live a s => IsLive live a s) x calls y) :
    Trace (Step fun st live a s => ¬ Misfree st live a s) x calls y := by
  refine hrun.imp fun x c y hstep => ⟨?_, hstep.2⟩
  cases c with
  | new msz => trivial
  | delete fadrs fsz => exact ⟨hstep.1.1, fun hmis => hmis.1 hstep.1.2⟩

/-! ### Objects in use -/

/-- The objects in use are apart from each other, from every header and from the free ones, in live page runs. -/
structure Sound (L : Lawful A) (rest : List Blk) (st : St A) (live : Nat → List Nat) : Prop where
  allocated : L.Inv st.alc (total st.blocks ++ rest)
  inside : ∀ i < koblstMax, ∀ a ∈ live i, ∃ p ∈ (st.mgr.ksMsoblst i).olEmplst, ∃ b ∈ (st.kmsob p).blocks,
    vadr st.addr b.1 ≤ a ∧ a + sizeOf i ≤ vadr st.addr b.1 + b.2 * 0x1000
  nodup : ∀ i < koblstMax, (live i).Nodup
  apart : ∀ i < koblstMax, ∀ j < koblstMax, ∀ a ∈ live i, ∀ b ∈ live j, (i, a) ≠ (j, b) →
    a + sizeOf i ≤ b ∨ b + sizeOf j ≤ a
  kmsob : ∀ i < koblstMax, ∀ j < koblstMax, ∀ a ∈ live i, ∀ p ∈ (st.mgr.ksMsoblst j).olEmplst,
    a + sizeOf i ≤ p ∨ p + sizeofKmsob ≤ a
  kmbext : ∀ i < koblstMax, ∀ j < koblstMax, ∀ a ∈ live i, ∀ p ∈ (st.mgr.ksMsoblst j).olEmplst,
    ∀ e ∈ (st.kmsob p).soMextlst, a + sizeOf i ≤ e.mtVstat ∨ e.mtVstat + sizeofKmbext ≤ a
  used : ∀ i < koblstMax, ∀ j < koblstMax, ∀ a ∈ live i, ∀ p ∈ (st.mgr.ksMsoblst j).olEmplst,
    a ∉ (st.kmsob p).soFrelst

section Sound

theorem Inv.obj (h : Inv L rest st live) (hi : i < koblstMax) (ha : a ∈ live i) :
    ∃ p, Works L (totalBut i st.blocks ++ rest) st i p (live i) ∧ a ∈ (st.kmsob p).objs := by
  rcases h.cls i hi with ⟨-, hnil⟩ | ⟨p, hhas, -, -⟩
  · rw [hnil] at ha
    cases ha
  · exact ⟨p, h.works hi hhas, hhas.ok.2.perm.mem_iff.mp (List.mem_append_left _ ha)⟩

theorem Inv.worksOf (h : Inv L rest st live) (hi : i < koblstMax) (hp : p ∈ (st.mgr.ksMsoblst i).olEmplst) :
    Works L (totalBut i st.blocks ++ rest) st i p (live i) := by
  rcases h.cls i hi with ⟨hbare, -⟩ | ⟨q, hhas, -, -⟩
  · rw [hbare.emplst] at hp
    cases hp
  · rw [hhas.emplst, List.mem_singleton] at hp
    subst hp
    exact h.works hi hhas

theorem Inv.blocks_apart {j : Nat} {b c : Blk} (h : Inv L rest st live) (hi : i < koblstMax) (hj : j < koblstMax)
    (hne : j ≠ i) (hb : b ∈ st.blocks i) (hc : c ∈ st.blocks j) : Apart st.addr b c := by
  have hsplit := L.apart (h.split hi)
  exact (List.pairwise_append.mp hsplit).2.2 b hb c (List.mem_append_left _ (mem_totalBut hj hne hc))

theorem Inv.bytes_apart {j n m a' : Nat} {b c : Blk} (h : Inv L rest st live) (hi : i < koblstMax) (hj : j < koblstMax)
    (hne : j ≠ i) (hb : b ∈ st.blocks i) (hc : c ∈ st.blocks j) (hlo : vadr st.addr b.1 ≤ a)
    (hhi : a + n ≤ vade st.addr b + 1)
    (hlo' : vadr st.addr c.1 ≤ a') (hhi' : a' + m ≤ vade st.addr c + 1) : a + n ≤ a' ∨ a' + m ≤ a := by
  have hapart := h.blocks_apart hi hj hne hb hc
  have hposb := ((h.reach hi).low b hb).1
  have hposc := ((h.reach hj).low c hc).1
  rw [vade_eq st.addr hposb] at hhi
  rw [vade_eq st.addr hposc] at hhi'
  unfold Apart at hapart
  unfold vadr at hlo hlo'
  omega

theorem Made.headers {addr : Nat → Nat} {k : Kmsob} {own : Nat} {exts : List Nat} (h : Made addr p i k own exts) :
    ((own, pnrOf i) ∈ k.blocks ∧ vadr addr own = p ∧ runOf addr sizeofKmsob (own, pnrOf i) ∈ k.runs) ∧
      ∀ e ∈ k.soMextlst, ∃ m, (m, pnrOf i) ∈ k.blocks ∧ vadr addr m = e.mtVstat ∧
        runOf addr sizeofKmbext (m, pnrOf i) ∈ k.runs := by
  rw [h.blocks_eq, h.runs_eq]
  refine ⟨⟨by simp, h.adr.symm, by simp⟩, fun e he => ?_⟩
  rw [h.mextlst] at he
  obtain ⟨m, hm, rfl⟩ := List.mem_map.mp he
  refine ⟨m, by simp [hm], rfl, List.mem_cons_of_mem _ (List.mem_map.mpr ⟨m, hm, rfl⟩)⟩

theorem Works.obj_apart_header {l : List Blk} {objs : List Nat} {hdr : Nat} {b : Blk} (hi : i < koblstMax)
    (h : Works L l st i p objs) (ha : a ∈ (st.kmsob p).objs) (hb : b ∈ (st.kmsob p).blocks)
    (hrun : runOf st.addr hdr b ∈ (st.kmsob p).runs) (hhdr : hdr = sizeofKmsob ∨ hdr = sizeofKmbext) :
    a + sizeOf i ≤ vadr st.addr b.1 ∨ vadr st.addr b.1 + hdr ≤ a := by
  obtain ⟨⟨own, exts, hmade⟩, -⟩ := h.has.ok
  have hruns := hmade.runsOk h.reach
  obtain ⟨c, hc, hdr', -, hrun', hlo, hhi⟩ := hmade.obj_bounds ha
  have hpos := (h.reach.low b hb).1
  have hend := vade_eq st.addr hpos
  have hhead := header_add_le hi
  by_cases hin : vadr st.addr b.1 ≤ a ∧ a ≤ vade st.addr b
  · -- in the run of this header the slots start behind it
    have heq := hruns.eq_of_mem hrun' hrun (a := a) (by simp only [runOf]; omega) (by simp only [runOf]; omega)
      hin.1 hin.2
    have hfo := congrArg Run.fo heq
    simp only [runOf] at hfo
    omega
  · by_cases hrr : runOf st.addr hdr' c = runOf st.addr hdr b
    · have hlo' := congrArg Run.lo hrr
      have hhi' := congrArg Run.hi hrr
      simp only [runOf] at hlo' hhi'
      omega
    · have hsymm : Std.Symm fun r r' : Run => r.hi < r'.lo ∨ r'.hi < r.lo := ⟨fun _ _ => Or.symm⟩
      have hapart := hruns.apart.forall hrun' hrun hrr
      simp only [runOf] at hapart
      have hhdrle : vadr st.addr b.1 + hdr ≤ vade st.addr b + 1 := by
        have hall : b.2 = pnrOf i := by
          rw [hmade.blocks_eq] at hb
          rcases List.mem_append.mp hb with hb | hb
          · obtain ⟨m, -, rfl⟩ := List.mem_map.mp hb
            rfl
          · rw [List.mem_singleton.mp hb]
        have hmul : pnrOf i * pagesize = pnrOf i * 0x1000 := rfl
        have hkm : sizeofKmsob = 368 := rfl
        have hkb : sizeofKmbext = 48 := rfl
        rw [hall] at hend
        unfold vadr at *
        omega
      omega

theorem Inv.live_apart_header {j hdr m : Nat} (h : Inv L rest st live) (hi : i < koblstMax) (hj : j < koblstMax)
    (ha : a ∈ live i) (hp : p ∈ (st.mgr.ksMsoblst j).olEmplst) (hm : (m, pnrOf j) ∈ (st.kmsob p).blocks)
    (hrun : runOf st.addr hdr (m, pnrOf j) ∈ (st.kmsob p).runs) (hhdr : hdr = sizeofKmsob ∨ hdr = sizeofKmbext) :
    a + sizeOf i ≤ vadr st.addr m ∨ vadr st.addr m + hdr ≤ a := by
  obtain ⟨q, hworks, hobj⟩ := h.obj hi ha
  have hworks' := h.worksOf hj hp
  by_cases hij : j = i
  · subst hij
    obtain rfl : q = p := by
      have heq := hworks.has.emplst
      rw [hworks'.has.emplst] at heq
      exact (List.singleton_inj.mp heq).symm
    exact hworks.obj_apart_header hi hobj hm hrun hhdr
  · obtain ⟨⟨own, exts, hmade⟩, -⟩ := hworks.has.ok
    obtain ⟨c, hc, hdr', -, -, hlo, hhi⟩ := hmade.obj_bounds hobj
    have hhead := header_add_le hj
    have hmul : pnrOf j * pagesize = pnrOf j * 0x1000 := rfl
    have hkm : sizeofKmsob = 368 := rfl
    have hkb : sizeofKmbext = 48 := rfl
    have hend := vade_eq (b := (m, pnrOf j)) st.addr (pnrOf_pos j)
    simp only at hend
    refine h.bytes_apart hi hj hij (hworks.blocks ▸ hc) (hworks'.blocks ▸ hm) (by omega) (by omega) le_rfl ?_
    unfold vadr
    omega

theorem Inv.sound (h : Inv L rest st live) : Sound L rest st live where
  allocated := h.alc
  inside := fun i hi a ha => by
    obtain ⟨p, hworks, hobj⟩ := h.obj hi ha
    obtain ⟨⟨own, exts, hmade⟩, -⟩ := hworks.has.ok
    obtain ⟨b, hb, hdr, -, -, hlo, hhi⟩ := hmade.obj_bounds hobj
    have hend := vade_eq st.addr (hworks.reach.low b hb).1
    refine ⟨p, by rw [hworks.has.emplst]; simp, b, hb, by omega, ?_⟩
    unfold vadr at *
    omega
  nodup := fun i hi => by
    rcases h.cls i hi with ⟨-, hnil⟩ | ⟨p, hhas, -, -⟩
    · rw [hnil]
      exact List.nodup_nil
    · obtain ⟨⟨own, exts, hmade⟩, hfilled⟩ := hhas.ok
      have hnodup := hfilled.perm.nodup_iff.mpr (hmade.objs_nodup (h.works hi hhas).reach)
      exact (List.nodup_append.mp hnodup).1
  apart := fun i hi j hj a ha b hb hne => by
    obtain ⟨p, hworks, hobj⟩ := h.obj hi ha
    obtain ⟨⟨own, exts, hmade⟩, -⟩ := hworks.has.ok
    by_cases hij : j = i
    · subst hij
      have hb' : b ∈ (st.kmsob p).objs := hworks.has.ok.2.perm.mem_iff.mp (List.mem_append_left _ hb)
      have hsz := sizeOf_pos j
      have hobjsz := hmade.objsz
      unfold Kmsob.objs at hobj hb'
      rw [hobjsz] at hobj hb'
      exact (hmade.runsOk hworks.reach).slots_apart hsz hobj hb' fun heq => hne (by rw [heq])
    · obtain ⟨q, hworks', hobj'⟩ := h.obj hj hb
      obtain ⟨⟨own', exts', hmade'⟩, -⟩ := hworks'.has.ok
      obtain ⟨c, hc, hdr, -, -, hlo, hhi⟩ := hmade.obj_bounds hobj
      obtain ⟨c', hc', hdr', -, -, hlo', hhi'⟩ := hmade'.obj_bounds hobj'
      exact h.bytes_apart hi hj hij (hworks.blocks ▸ hc) (hworks'.blocks ▸ hc') (by omega) (by omega) (by omega)
        (by omega)
  kmsob := fun i hi j hj a ha p hp => by
    obtain ⟨⟨own, exts, hmade⟩, -⟩ := (h.worksOf hj hp).has.ok
    obtain ⟨⟨hown, hadr, hrun⟩, -⟩ := hmade.headers
    rw [← hadr]
    exact h.live_apart_header hi hj ha hp hown hrun (.inl rfl)
  kmbext := fun i hi j hj a ha p hp e he => by
    obtain ⟨⟨own, exts, hmade⟩, -⟩ := (h.worksOf hj hp).has.ok
    obtain ⟨m, hm, hadr, hrun⟩ := hmade.headers.2 e he
    rw [← hadr]
    exact h.live_apart_header hi hj ha hp hm hrun (.inr rfl)
  used := fun i hi j hj a ha p hp hfree => by
    obtain ⟨q, hworks, hobj⟩ := h.obj hi ha
    have hworks' := h.worksOf hj hp
    obtain ⟨⟨own', exts', hmade'⟩, hfilled'⟩ := hworks'.has.ok
    have hobj' : a ∈ (st.kmsob p).objs := hfilled'.perm.mem_iff.mp (List.mem_append_right _ hfree)
    by_cases hij : j = i
    · subst hij
      have hnodup := hfilled'.perm.nodup_iff.mpr (hmade'.objs_nodup hworks'.reach)
      exact (List.nodup_append.mp hnodup).2.2 a ha a hfree rfl
    · obtain ⟨⟨own, exts, hmade⟩, -⟩ := hworks.has.ok
      obtain ⟨c, hc, hdr, -, -, hlo, hhi⟩ := hmade.obj_bounds hobj
      obtain ⟨c', hc', hdr', -, -, hlo', hhi'⟩ := hmade'.obj_bounds hobj'
      have hsz := sizeOf_pos i
      have hsz' := sizeOf_pos j
      have hboth := h.bytes_apart (n := sizeOf i) (m := sizeOf j) hi hj hij (hworks.blocks ▸ hc) (hworks'.blocks ▸ hc')
        (show vadr st.addr c.1 ≤ a by omega) (by omega) (show vadr st.addr c'.1 ≤ a by omega) (by omega)
      omega

end Sound

/-- **Objects in use never overlap**: in every run that frees objects in use, each with a size of its class, every call
returns, every such free with `TRUE`, and an object is large enough for what was asked for. -/
theorem objects_of_run {alc : A.State} {kmsob : Nat → Kmsob} {calls : List Call} {y : St A × (Nat → List Nat)}
    (halc : L.Inv alc rest) (hrun : Trace (Step fun _ live a s => IsLive live a s) (initKmsob alc kmsob) calls y) :
    Sound L rest y.1 y.2 ∧
      (∀ msz, ∃ r st', kmsobNew y.1 msz = .ok (r, st') ∧ ∀ a ∈ r, msz ≤ sizeOf (classOf msz) ∧
        Sound L rest st' (handOut y.2 msz (some a))) ∧
      ∀ a s, IsLive y.2 a s → ∃ st', kmsobDelete y.1 a s = .ok (true, st') := by
  have hinv := inv_of_run halc (run_of_live hrun)
  refine ⟨hinv.sound, fun msz => ?_, fun a s hlive => ?_⟩
  · obtain ⟨r, st', heq, hspec⟩ := kmsobNew_spec hinv msz
    refine ⟨r, st', heq, fun a ha => ?_⟩
    obtain rfl : r = some a := ha
    exact ⟨le_sizeOf_classOf hspec.1, hspec.2.2.sound⟩
  · obtain ⟨st', heq, -⟩ := kmsobDelete_live hinv hlive.1 hlive.2.1 hlive.2.2
    exact ⟨st', heq⟩

def bumpBoot : St bump × (Nat → List Nat) :=
  initKmsob (show Nat from 0) fun _ => ⟨0, 0, 0, 0, 0, [], [], 0, msomdcTInit, [], 0⟩

theorem bumpInv_zero : bumpLawful.Inv (show Nat from 0) [] :=
  ⟨by decide, List.nodup_nil, fun b hb => by cases hb⟩

theorem run_of_two_objects {β : Type} {f : St bump × (Nat → List Nat) → β} {b : β}
    (h : Except.map f (runHalt
      (fun x c => if Call.Ok (fun _ live a s => IsLive live a s) x c then step x c else .error "")
      bumpBoot [.new 32, .new 32, .delete 0xffff800000001fd0 32]) = .ok b) :
    ∃ y, Trace (Step fun _ live a s => IsLive live a s) bumpBoot
      [.new 32, .new 32, .delete 0xffff800000001fd0 32] y ∧ f y = b := by
  obtain ⟨y, hrun, hf⟩ := exists_of_map h
  exact ⟨y, Trace.of_runHalt _ hrun, hf⟩

/-- After two allocations and a free the other object is in use. -/
theorem objects_of_two_news : ∃ y, Trace (Step fun _ live a s => IsLive live a s) bumpBoot
      [.new 32, .new 32, .delete 0xffff800000001fd0 32] y ∧ y.2 0 = [0xffff800000001fb0] ∧
    Sound bumpLawful [] y.1 y.2 := by
  obtain ⟨y, hrun, hlive⟩ := run_of_two_objects (f := fun y => y.2 0) (b := [0xffff800000001fb0]) (by decide +kernel)
  exact ⟨y, hrun, hlive, (objects_of_run bumpInv_zero hrun).1⟩

/-! ### What a free accepts -/

/-- A free returns `TRUE` only for an object in use, and otherwise `FALSE` with nothing changed. -/
def FreesOnlyLive (st : St A) (live : Nat → List Nat) (a s : Nat) : Prop :=
  (∀ st', kmsobDelete st a s = .ok (true, st') → IsLive live a s) ∧
    (¬ IsLive live a s → kmsobDelete st a s = .ok (false, st))

theorem Misfree.not_refused (h : Inv L rest st live) (ha : a < 2 ^ 64) (hmis : Misfree st live a s) (st' : St A) :
    kmsobDelete st a s ≠ .ok (false, st') := by
  obtain ⟨-, hs, hs2, p, hemplst, hacc⟩ := hmis
  have hi := classOf_lt hs2
  rcases h.cls _ hi with ⟨hbare, -⟩ | ⟨q, hhas, hcahe, hne⟩
  · rw [hbare.emplst] at hemplst
    cases hemplst
  · obtain rfl : q = p := List.singleton_inj.mp (hhas.emplst.symm.trans hemplst)
    have ha0 : a ≠ 0 := by
      rintro rfl
      obtain ⟨⟨own, exts, hmade⟩, -⟩ := hhas.ok
      rcases hacc with hmem | ⟨hwrap, -⟩
      · have hvirt := hmade.obj_virt (h.works hi hhas).reach hmem
        have hnum : 0 < krnlMapVirtaddressStart := by decide
        omega
      · omega
    rw [(kmsobDelete_of_has h hs hs2 ha ha0 hhas hcahe hne).1 hacc]
    exact destroyKmsob_ne_false h hi hhas st'

theorem Inv.freesOnlyLive_iff (h : Inv L rest st live) (ha : a < 2 ^ 64) :
    FreesOnlyLive st live a s ↔ ¬ Misfree st live a s := by
  constructor
  · intro honly hmis
    exact hmis.not_refused h ha st (honly.2 hmis.1)
  · intro hmis
    by_cases hlive : IsLive live a s
    · exact ⟨fun _ _ => hlive, fun hnot => absurd hlive hnot⟩
    · have hrefused := kmsobDelete_refused h ha hlive hmis
      refine ⟨fun st' htrue => ?_, fun _ => hrefused⟩
      rw [hrefused] at htrue
      cases htrue

/-- **A free is sound exactly where it is no misfree**, after every run without misfrees. -/
theorem free_iff_not_misfree {alc : A.State} {kmsob : Nat → Kmsob} {calls : List Call} {y : St A × (Nat → List Nat)}
    (halc : L.Inv alc rest)
    (hrun : Trace (Step fun st live a s => ¬ Misfree st live a s) (initKmsob alc kmsob) calls y) (ha : a < 2 ^ 64) :
    FreesOnlyLive y.1 y.2 a s ↔ ¬ Misfree y.1 y.2 a s :=
  (inv_of_run halc hrun).freesOnlyLive_iff ha

/-- An address inside the object that is left is refused. -/
theorem free_inside_object_refused : ∃ y, Trace (Step fun _ live a s => IsLive live a s) bumpBoot
      [.new 32, .new 32, .delete 0xffff800000001fd0 32] y ∧ FreesOnlyLive y.1 y.2 0xffff800000001fb8 32 := by
  obtain ⟨y, hrun, hfalse⟩ := run_of_two_objects
    (f := fun y => Except.map Prod.fst (kmsobDelete y.1 0xffff800000001fb8 32)) (b := .ok false) (by decide +kernel)
  have hrun' := run_of_live hrun
  refine ⟨y, hrun, (free_iff_not_misfree bumpInv_zero hrun' (by decide)).mpr fun hmis => ?_⟩
  obtain ⟨⟨b, st'⟩, hdel, rfl⟩ := exists_of_map hfalse
  exact hmis.not_refused (inv_of_run bumpInv_zero hrun') (by decide) st' hdel

/-- The object just freed is taken a second time while another one is in use. -/
theorem double_free_accepted : ∃ y, Trace (Step fun _ live a s => IsLive live a s) bumpBoot
      [.new 32, .new 32, .delete 0xffff800000001fd0 32] y ∧ ¬ IsLive y.2 0xffff800000001fd0 32 ∧
    (∃ st', kmsobDelete y.1 0xffff800000001fd0 32 = .ok (true, st')) ∧
    ¬ FreesOnlyLive y.1 y.2 0xffff800000001fd0 32 := by
  obtain ⟨y, hrun, hf⟩ := run_of_two_objects
    (f := fun y => (Except.map Prod.fst (kmsobDelete y.1 0xffff800000001fd0 32),
      decide (IsLive y.2 0xffff800000001fd0 32)))
    (b := (.ok true, false)) (by decide +kernel)
  obtain ⟨hdel, hlive⟩ := Prod.mk.inj hf
  obtain ⟨⟨b, st'⟩, hdel, rfl⟩ := exists_of_map hdel
  have hnot := of_decide_eq_false hlive
  exact ⟨y, hrun, hnot, ⟨st', hdel⟩, fun honly => hnot (honly.1 st' hdel)⟩

/-! ### Everything is given back -/

def St.pages (st : St (logged memmgrob)) : Memmgrob × List Event := st.alc

def initLogged (s : Memmgrob) (kmsob : Nat → Kmsob) : St (logged memmgrob) × (Nat → List Nat) :=
  initKmsob (show Memmgrob × List Event from (s, [])) kmsob

/-- Nothing is left of what was obtained since the page allocator was in state `s`. -/
structure GivenBack (s : Memmgrob) (st : St (logged memmgrob)) : Prop where
  koblst : ∀ i < koblstMax, (st.mgr.ksMsoblst i).olEmplst = []
  merged : outstanding st.pages.2 = some []
  freepages : ∀ a, (st.pages.1.marea a).maFreepages = (s.marea a).maFreepages

theorem Inv.bare (h : Inv L rest st live) (hi : i < koblstMax) (hnil : live i = []) : Bare st i := by
  rcases h.cls i hi with ⟨hbare, -⟩ | ⟨p, -, -, hne⟩
  · exact hbare
  · exact absurd hnil hne

theorem Inv.alc_of_dead (h : Inv L rest st live) (hdead : ∀ i < koblstMax, live i = []) : L.Inv st.alc rest := by
  have hnone : total st.blocks = [] := by
    refine List.flatMap_eq_nil_iff.mpr fun i hi => ?_
    have hlt := List.mem_range.mp hi
    exact (h.bare hlt (hdead i hlt)).blocks
  have halc := h.alc
  rwa [hnone, List.nil_append] at halc

theorem Inv.exists_step (h : Inv L rest st live) {c : Call}
    (hok : c.Ok (fun _ live a s => IsLive live a s) (st, live)) : ∃ y, step (st, live) c = .ok y := by
  cases c with
  | new msz =>
    obtain ⟨r, st', heq, -⟩ := kmsobNew_spec h msz
    exact ⟨_, bind_of_ok heq _⟩
  | delete fadrs fsz =>
    obtain ⟨st', heq, -⟩ := kmsobDelete_live h hok.2.1 hok.2.2.1 hok.2.2.2
    exact ⟨_, bind_of_ok heq _⟩

/-- **The object allocator gives everything back**: from any state of the page allocator on, in every run that frees
objects in use every call returns, and whenever no object is in use no `kmsob_t` is left, every page run was given back
once with its number of pages, and the counters of free pages are those of the start. -/
theorem all_given_back {mb : Machbstart} {msa msa' : Nat → Msadsc}
    (hocc : searchKrloccupymsadscCore mb msa = .ok (true, msa')) (htail : (Boot.mk mb.mbMemmapnr msa).Tail)
    (hok : (Boot.mk mb.mbMemmapnr msa').Wf)
    (hinj : ∀ i < mb.mbMemmapnr, ∀ j < mb.mbMemmapnr, phyadrOf (msa' i) = phyadrOf (msa' j) → i = j)
    {s₀ s : Memmgrob} {ops : List Op} {used : Finset Blk} (hboot : boot ⟨mb.mbMemmapnr, msa'⟩ = .ok s₀)
    (hops : ∀ op ∈ ops, op.InArray mb.mbMemmapnr) (hpages : runHalt Page.step (s₀, ∅) ops = .ok (s, used))
    {kmsob : Nat → Kmsob} {calls : List Call} {y : St (logged memmgrob) × (Nat → List Nat)}
    (hrun : Trace (Step fun _ live a s => IsLive live a s) (initLogged s kmsob) calls y) :
    (∀ c : Call, c.Ok (fun _ live a s => IsLive live a s) y → ∃ z, step y c = .ok z) ∧
      ((∀ i < koblstMax, y.2 i = []) → GivenBack s y.1) := by
  have hmapped := mapped_of_occupied hocc htail hok hinj
  obtain ⟨hof, hpool⟩ := pool_of_run hok hboot hops hpages
  have hstart : Owes (memmgrobLawful hmapped hof) used.toList (s, []) [] := ⟨hpool, [], rfl, .nil⟩
  have hinv : Inv (loggedLawful (memmgrobLawful hmapped hof) used.toList) [] y.1 y.2 :=
    inv_of_run hstart (run_of_live hrun)
  refine ⟨fun c hc => hinv.exists_step hc, fun hdead => ?_⟩
  obtain ⟨hend, out, hout, hperm⟩ : Owes (memmgrobLawful hmapped hof) used.toList y.1.pages [] :=
    hinv.alc_of_dead hdead
  refine ⟨fun i hi => (hinv.bare hi (hdead i hi)).emplst, ?_, fun a => ?_⟩
  · rw [hout, hperm.eq_nil]
  · exact hpool.freepages_eq hend .rfl a

/-- The page numbers of a small machine: the first page, one for the stack, one for the kernel and one for the image,
and two free pages of kernel memory. -/
def smallMap : List Nat := [0, 0x8f, 0x2000, 0x3000, 0x3001, 0x3002]

def smallRun : Halt (Bool × (Nat → Msadsc) × Memmgrob × St (logged memmgrob) × (Nat → List Nat)) :=
  searchKrloccupymsadscCore (onePageEach 0x3000000 6) (freeArray smallMap) >>= fun ⟨rets, msa⟩ =>
    boot ⟨6, msa⟩ >>= fun s₀ =>
      runHalt (fun x c => if Call.Ok (fun _ live a s => IsLive live a s) x c then step x c else .error "")
          (initLogged s₀ fun _ => ⟨0, 0, 0, 0, 0, [], [], 0, msomdcTInit, [], 0⟩)
          [.new 32, .new 32, .delete 0xffff800003001fd0 32, .delete 0xffff800003001fb0 32] >>= fun y =>
        .ok (rets, msa, s₀, y)

/-- On the small machine two objects come from one page, which is given back. -/
theorem given_back_of_two : ∃ msa s₀ y, boot ⟨6, msa⟩ = .ok s₀ ∧
    Trace (Step fun _ live a s => IsLive live a s)
      (initLogged s₀ fun _ => ⟨0, 0, 0, 0, 0, [], [], 0, msomdcTInit, [], 0⟩)
      [.new 32, .new 32, .delete 0xffff800003001fd0 32, .delete 0xffff800003001fb0 32] y ∧
    y.1.pages.2 = [.gave (4, 1), .got (4, 1)] ∧ GivenBack s₀ y.1 := by
  have heval : Except.map (fun r => (r.1, r.2.2.2.1.pages.2, decide (∀ i < koblstMax, r.2.2.2.2 i = []))) smallRun =
      .ok (true, [.gave (4, 1), .got (4, 1)], true) := by decide +kernel
  obtain ⟨⟨rets, msa, s₀, y⟩, hsmall, hseen⟩ := exists_of_map heval
  obtain ⟨rfl, hlog, hdead⟩ : rets = true ∧ _ ∧ _ := by simpa using hseen
  obtain ⟨⟨rets, msa₁⟩, hocc, hsmall⟩ := bind_eq_ok hsmall
  obtain ⟨s₁, hboot, hsmall⟩ := bind_eq_ok hsmall
  obtain ⟨y₁, hrun, hsmall⟩ := bind_eq_ok hsmall
  cases hsmall
  obtain ⟨_, -, hsegs⟩ := bind_eq_ok hocc
  have hmarks := (searchSegments_spec (b := ⟨6, freeArray smallMap⟩) _ _ (.refl _ _) hsegs).1
  have hinj : ∀ i < 6, ∀ j < 6, phyadrOf (msa i) = phyadrOf (msa j) → i = j := by
    simp only [hmarks.phyadrOf_eq]
    decide
  have htrace := Trace.of_runHalt _ hrun
  have hnone : ∀ op ∈ ([] : List Op), op.InArray 6 := by simp
  refine ⟨msa, s₀, y, hboot, htrace, hlog, ?_⟩
  exact (all_given_back hocc (freeArray_tail smallMap) (hmarks.freeArray_wf (by decide) (by decide) (by decide))
    hinj hboot
    hnone rfl htrace).2 hdead

end Cosmos.Obj
