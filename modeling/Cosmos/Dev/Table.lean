import Cosmos.Lib.Queues
import Cosmos.Lib.Registry
import Cosmos.Sve.Open

/-!
# The device table (`kernel/krldevice.c`)

`krlnew_device` links a device into the list of its class and the list of all devices, after a search for the same id
in the class; `krlonidfl_retn_device` finds a device by its id. Over every sequence of registrations the lists, the
counters and the ids agree (`registry`).

`krlnew_devid` is to choose a number for a new device of a class. It stores the largest number in use, not the one
behind it, so the number is new in an empty class only (`fresh_devid_iff`).

A device is named by its address; its record does not change while devices are registered.
-/

namespace Cosmos.Dev

open Cosmos.Lib
open Cosmos.Sve (Devid deviceMax)

/-! ### The table -/

/-- The part of `device_t` that registration reads. -/
structure Device where
  devId : Devid
  devDrv : Option Nat

/-- `devtable_t`, the driver list apart; the class lists are `devt_devclsl`. -/
structure Devtable where
  devtDevlist : List Nat
  devtDevnr : Nat
  dtlType : Nat → Nat
  dtlNr : Nat → Nat
  dtlList : Nat → List Nat

def devtableTInit : Devtable := ⟨[], 0, id, fun _ => 0, fun _ => []⟩

def krlcmpDevid (sdidp cdidp : Devid) : Bool :=
  if sdidp.devMtype ≠ cdidp.devMtype then false
  else if sdidp.devStype ≠ cdidp.devStype then false
  else if sdidp.devNr ≠ cdidp.devNr then false
  else true

def Devtable.link (t : Devtable) (devmty devp : Nat) : Devtable :=
  { t with
    dtlList := listAdd t.dtlList devmty devp
    devtDevlist := devp :: t.devtDevlist
    dtlNr := Function.update t.dtlNr devmty (u64 (t.dtlNr devmty + 1))
    devtDevnr := u64 (t.devtDevnr + 1) }

theorem Devtable.link_dtlNr (t : Devtable) (devmty devp c : Nat) :
    (t.link devmty devp).dtlNr c = if c = devmty then u64 (t.dtlNr c + 1) else t.dtlNr c := by
  by_cases h : c = devmty <;> simp [link, h]

theorem Devtable.link_dtlList (t : Devtable) (devmty devp c : Nat) :
    (t.link devmty devp).dtlList c = if c = devmty then devp :: t.dtlList c else t.dtlList c := by
  by_cases h : c = devmty <;> simp [link, listAdd, h]

section Model

variable (dev : Nat → Device)

/-- `krlnew_device` of a device that is not `NULL`: whether it returns `DFCOKSTUS`, and the table. -/
def krlnewDevice (t : Devtable) (devp : Nat) : Bool × Devtable :=
  let devmty := (dev devp).devId.devMtype
  if (dev devp).devDrv = none then (false, t)
  else if deviceMax ≤ devmty then (false, t)
  else if devmty ≠ t.dtlType devmty then (false, t)
  else if (t.dtlList devmty).any fun findevp => krlcmpDevid (dev devp).devId (dev findevp).devId then (false, t)
  else (true, t.link devmty devp)

def krlonidflRetnDevice (t : Devtable) (didp : Devid) : Option Nat :=
  if deviceMax ≤ didp.devMtype then none
  else if didp.devMtype ≠ t.dtlType didp.devMtype then none
  else (t.dtlList didp.devMtype).find? fun findevp => krlcmpDevid didp (dev findevp).devId

/-- The loop of `krlnew_devid`. -/
def maxDevnr (l : List Nat) (devidnr : Nat) : Nat :=
  l.foldl (fun devidnr findevp => if devidnr < (dev findevp).devId.devNr then (dev findevp).devId.devNr else devidnr)
    devidnr

/-- `krlnew_devid`: whether it returns `DFCOKSTUS`, and the id with the number it stores. -/
def krlnewDevid (t : Devtable) (devid : Devid) : Bool × Devid :=
  if deviceMax ≤ devid.devMtype then (false, devid)
  else if devid.devMtype ≠ t.dtlType devid.devMtype then (false, devid)
  else if t.dtlList devid.devMtype = [] then (true, { devid with devNr := 0 })
  else
    -- `devid->dev_nr = devidnr++` stores the maximum
    (true, { devid with devNr := maxDevnr dev (t.dtlList devid.devMtype) 0 })

def run (t : Devtable) (calls : List Nat) : Devtable := calls.foldl (fun t devp => (krlnewDevice dev t devp).2) t

def registered : Devtable → List Nat → List Nat
  | _, [] => []
  | t, devp :: calls =>
    let r := krlnewDevice dev t devp
    if r.1 then devp :: registered r.2 calls else registered r.2 calls

end Model

theorem krlcmpDevid_eq (s c : Devid) : krlcmpDevid s c = decide (s = c) := by
  cases s
  cases c
  simp only [krlcmpDevid, Devid.mk.injEq]
  split_ifs <;> simp_all

theorem krlcmpDevid_iff {s c : Devid} : krlcmpDevid s c = true ↔ s = c := by
  rw [krlcmpDevid_eq, decide_eq_true_eq]

theorem sve_krlonidflRetnDevice (s : Sve.Sys) (didp : Devid) :
    Sve.krlonidflRetnDevice s didp =
      krlonidflRetnDevice (fun devp => ⟨(s.dev devp).devId, none⟩) ⟨[], 0, s.dtlType, fun _ => 0, s.dtlList⟩ didp := by
  simp only [Sve.krlonidflRetnDevice, krlonidflRetnDevice, krlcmpDevid_eq]

/-! ### One call -/

section Calls

variable {dev : Nat → Device} {t : Devtable} {devp : Nat}

/-- A device that the table takes. -/
structure Takes (dev : Nat → Device) (t : Devtable) (devp : Nat) : Prop where
  drv : (dev devp).devDrv ≠ none
  cls : (dev devp).devId.devMtype < deviceMax
  type : t.dtlType (dev devp).devId.devMtype = (dev devp).devId.devMtype
  fresh : ∀ d ∈ t.dtlList (dev devp).devId.devMtype, (dev d).devId ≠ (dev devp).devId

theorem krlnewDevice_cases (dev : Nat → Device) (t : Devtable) (devp : Nat) :
    Takes dev t devp ∧ krlnewDevice dev t devp = (true, t.link (dev devp).devId.devMtype devp) ∨
      ¬Takes dev t devp ∧ krlnewDevice dev t devp = (false, t) := by
  dsimp only [krlnewDevice]
  by_cases hdrv : (dev devp).devDrv = none
  · rw [if_pos hdrv]
    exact .inr ⟨fun h => h.drv hdrv, rfl⟩
  rw [if_neg hdrv]
  split_ifs with hcls htype hdup
  · exact .inr ⟨fun h => absurd h.cls (by omega), rfl⟩
  · exact .inr ⟨fun h => htype h.type.symm, rfl⟩
  · obtain ⟨d, hd, heq⟩ := List.any_eq_true.mp hdup
    exact .inr ⟨fun h => h.fresh d hd (krlcmpDevid_iff.mp heq).symm, rfl⟩
  · refine .inl ⟨⟨hdrv, by omega, by omega, fun d hd heq => ?_⟩, rfl⟩
    exact hdup (List.any_eq_true.mpr ⟨d, hd, krlcmpDevid_iff.mpr heq.symm⟩)

theorem krlnewDevice_of_takes (h : Takes dev t devp) : (krlnewDevice dev t devp).1 = true := by
  rcases krlnewDevice_cases dev t devp with ⟨-, heq⟩ | ⟨hnot, -⟩
  · rw [heq]
  · exact absurd h hnot

end Calls

/-! ### Runs -/

/-- The table with the devices `ok` registered, the last one first. -/
structure Inv (dev : Nat → Device) (t : Devtable) (ok : List Nat) : Prop where
  devlist : t.devtDevlist = ok
  devnr : t.devtDevnr = ok.length
  type : ∀ c, t.dtlType c = c
  list : ∀ c, t.dtlList c = ok.filter fun d => decide ((dev d).devId.devMtype = c)
  nr : ∀ c, t.dtlNr c = (t.dtlList c).length
  ids : Keyed (fun d => (dev d).devId) ok
  cls : ∀ d ∈ ok, (dev d).devId.devMtype < deviceMax
  adr : ∀ d ∈ ok, 0 < d ∧ d < 2 ^ 64

section Runs

variable {dev : Nat → Device} {t : Devtable} {ok : List Nat} {devp : Nat}

theorem Inv.init (dev : Nat → Device) : Inv dev devtableTInit [] where
  devlist := rfl
  devnr := rfl
  type _ := rfl
  list _ := rfl
  nr _ := rfl
  ids := List.nodup_nil
  cls := by simp
  adr := by simp

theorem Inv.mem_list (h : Inv dev t ok) {c d : Nat} : d ∈ t.dtlList c ↔ d ∈ ok ∧ (dev d).devId.devMtype = c := by
  rw [h.list, List.mem_filter, decide_eq_true_eq]

theorem Inv.fresh (h : Inv dev t ok) (htakes : Takes dev t devp) : ∀ d ∈ ok, (dev d).devId ≠ (dev devp).devId := by
  intro d hd heq
  exact htakes.fresh d (h.mem_list.mpr ⟨hd, by rw [heq]⟩) heq

theorem Inv.step (h : Inv dev t ok) (hadr : 0 < devp ∧ devp < 2 ^ 64) :
    Inv dev (krlnewDevice dev t devp).2 (if (krlnewDevice dev t devp).1 then devp :: ok else ok) := by
  rcases krlnewDevice_cases dev t devp with ⟨htakes, heq⟩ | ⟨-, heq⟩
  · rw [heq, if_pos rfl]
    have hids : Keyed (fun d => (dev d).devId) (devp :: ok) := h.ids.cons (h.fresh htakes)
    have hadrs : ∀ d ∈ devp :: ok, 0 < d ∧ d < 2 ^ 64 := List.forall_mem_cons.mpr ⟨hadr, h.adr⟩
    -- the counters cannot wrap: there are fewer addresses
    have hlen : ok.length + 1 < 2 ^ 64 := length_lt_of_nodup (by decide) hids.nodup hadrs
    refine ⟨congrArg _ h.devlist, ?_, h.type, fun c => ?_, fun c => ?_, hids,
      List.forall_mem_cons.mpr ⟨htakes.cls, h.cls⟩, hadrs⟩
    · show u64 (t.devtDevnr + 1) = ok.length + 1
      rw [h.devnr, u64_of_lt hlen]
    · rw [Devtable.link_dtlList, List.filter_cons, ← h.list]
      by_cases hc : c = (dev devp).devId.devMtype
      · simp [hc]
      · simp [hc, Ne.symm hc]
    · have hle : (t.dtlList c).length ≤ ok.length := by
        rw [h.list]
        exact List.length_filter_le _ _
      rw [Devtable.link_dtlNr, Devtable.link_dtlList, h.nr]
      split_ifs
      · rw [u64_of_lt (by omega), List.length_cons]
      · rfl
  · rw [heq]
    exact h

theorem Inv.run (calls : List Nat) : ∀ {t ok}, Inv dev t ok → (∀ devp ∈ calls, 0 < devp ∧ devp < 2 ^ 64) →
    Inv dev (run dev t calls) ((registered dev t calls).reverse ++ ok) := by
  induction calls with
  | nil => exact fun h _ => h
  | cons devp calls ih =>
    intro t ok h hcalls
    have hend := ih (h.step (hcalls devp (by simp))) fun d hd => hcalls d (by simp [hd])
    rw [registered]
    split_ifs at hend ⊢ with hok
    · rw [List.reverse_cons, List.append_assoc]
      exact hend
    · exact hend

theorem Inv.retn (h : Inv dev t ok) (didp : Devid) (d : Nat) :
    krlonidflRetnDevice dev t didp = some d ↔ d ∈ ok ∧ (dev d).devId = didp := by
  unfold krlonidflRetnDevice
  simp only [krlcmpDevid_eq]
  split_ifs with hcls htype
  · refine ⟨fun hnone => absurd hnone (by simp), fun hd => ?_⟩
    have := h.cls d hd.1
    rw [hd.2] at this
    omega
  · exact absurd (h.type _).symm htype
  · have hkeyed : Keyed (fun d => (dev d).devId) (t.dtlList didp.devMtype) := by
      rw [h.list]
      exact h.ids.filter _
    rw [hkeyed.find?_eq_some_iff, h.mem_list]
    exact ⟨fun hd => ⟨hd.1.1, hd.2⟩, fun hd => ⟨⟨hd.1, by rw [hd.2]⟩, hd.2⟩⟩

end Runs

/-- **Registration keeps the table in order: after any calls the counters are the lengths of the lists, the ids of a
class are distinct, a refused call changes nothing, and the search finds a device exactly under its id.** -/
theorem registry (dev : Nat → Device) (calls : List Nat) (hcalls : ∀ devp ∈ calls, 0 < devp ∧ devp < 2 ^ 64) :
    let t := run dev devtableTInit calls
    t.devtDevnr = t.devtDevlist.length ∧
    (∀ c < deviceMax, t.dtlNr c = (t.dtlList c).length) ∧
    (∀ c < deviceMax, (t.dtlList c).Pairwise fun d d' => (dev d).devId ≠ (dev d').devId) ∧
    (∀ devp, (krlnewDevice dev t devp).1 = false → (krlnewDevice dev t devp).2 = t) ∧
    (∀ id d, krlonidflRetnDevice dev t id = some d ↔ d ∈ registered dev devtableTInit calls ∧ (dev d).devId = id) ∧
    ∀ id, krlonidflRetnDevice dev t id = none ↔ ¬∃ d ∈ registered dev devtableTInit calls, (dev d).devId = id := by
  intro t
  have h : Inv dev t ((registered dev devtableTInit calls).reverse) := by
    simpa using (Inv.init dev).run calls hcalls
  have hretn : ∀ id d, krlonidflRetnDevice dev t id = some d ↔
      d ∈ registered dev devtableTInit calls ∧ (dev d).devId = id := by
    intro id d
    rw [h.retn, List.mem_reverse]
  refine ⟨?_, fun c _ => h.nr c, fun c _ => ?_, fun devp hfail => ?_, hretn, fun id => ?_⟩
  · rw [h.devnr, h.devlist]
  · rw [h.list]
    exact List.pairwise_map.mp (h.ids.filter _)
  · rcases krlnewDevice_cases dev t devp with ⟨-, heq⟩ | ⟨-, heq⟩
    · rw [heq] at hfail
      cases hfail
    · rw [heq]
  · rw [Option.eq_none_iff_forall_ne_some]
    simp only [ne_eq, hretn, not_exists, not_and]

/-- Two devices of one class, and a third with the id of the first. -/
theorem registry_of_three :
    let dev : Nat → Device := fun d => ⟨⟨15, 0, d % 2⟩, some 0x1000⟩
    let t := run dev devtableTInit [8, 9, 10]
    t.devtDevlist = [9, 8] ∧ t.devtDevnr = t.devtDevlist.length ∧
      (krlonidflRetnDevice dev t ⟨15, 0, 1⟩ = some 9 ↔
        9 ∈ registered dev devtableTInit [8, 9, 10] ∧ (dev 9).devId = ⟨15, 0, 1⟩) := by
  have h := registry (fun d => ⟨⟨15, 0, d % 2⟩, some 0x1000⟩) [8, 9, 10] (by decide)
  exact ⟨rfl, h.1, h.2.2.2.2.1 ⟨15, 0, 1⟩ 9⟩

/-! ### Numbers -/

theorem maxDevnr_spec (dev : Nat → Device) (l : List Nat) : ∀ n, n ≤ maxDevnr dev l n ∧
    (maxDevnr dev l n = n ∨ ∃ d ∈ l, (dev d).devId.devNr = maxDevnr dev l n) ∧
    ∀ d ∈ l, (dev d).devId.devNr ≤ maxDevnr dev l n := by
  induction l with
  | nil => exact fun n => ⟨le_rfl, .inl rfl, by simp⟩
  | cons d l ih =>
    intro n
    obtain ⟨n', hcons, hn, hd, hor⟩ : ∃ n', maxDevnr dev (d :: l) n = maxDevnr dev l n' ∧ n ≤ n' ∧
        (dev d).devId.devNr ≤ n' ∧ (n' = n ∨ (dev d).devId.devNr = n') :=
      ⟨if n < (dev d).devId.devNr then (dev d).devId.devNr else n, rfl, by split_ifs <;> omega, by split_ifs <;> omega,
        by split_ifs <;> omega⟩
    obtain ⟨hle, hmem, hmax⟩ := ih n'
    rw [hcons]
    refine ⟨hn.trans hle, ?_, List.forall_mem_cons.mpr ⟨hd.trans hle, hmax⟩⟩
    rcases hmem with heq | ⟨e, he, heq⟩
    · rw [heq]
      exact hor.imp_right fun hd => ⟨d, by simp, hd⟩
    · exact .inr ⟨e, by simp [he], heq⟩

theorem krlnewDevid_eq {dev : Nat → Device} {t : Devtable} {devid : Devid} (hok : (krlnewDevid dev t devid).1 = true) :
    devid.devMtype < deviceMax ∧ t.dtlType devid.devMtype = devid.devMtype ∧
      (krlnewDevid dev t devid).2 = { devid with devNr := maxDevnr dev (t.dtlList devid.devMtype) 0 } := by
  unfold krlnewDevid at hok ⊢
  split_ifs at hok ⊢ with hcls htype hnil
  · refine ⟨by omega, (not_ne_iff.mp htype).symm, ?_⟩
    rw [hnil]
    rfl
  · exact ⟨by omega, (not_ne_iff.mp htype).symm, rfl⟩

theorem krlnewDevid_used {dev : Nat → Device} {t : Devtable} {devid : Devid} (hok : (krlnewDevid dev t devid).1 = true)
    (hne : t.dtlList devid.devMtype ≠ []) :
    ∃ d ∈ t.dtlList devid.devMtype, (dev d).devId.devNr = (krlnewDevid dev t devid).2.devNr := by
  rw [(krlnewDevid_eq hok).2.2]
  obtain ⟨-, hmem, hmax⟩ := maxDevnr_spec dev (t.dtlList devid.devMtype) 0
  rcases hmem with hzero | hmem
  · -- all numbers are 0
    obtain ⟨d, hd⟩ := List.exists_mem_of_ne_nil _ hne
    have hle := hmax d hd
    exact ⟨d, hd, by dsimp only; omega⟩
  · exact hmem

/-- The id that `krlnew_devid` gives has a number that no device of the class has, and any device with it is taken. -/
def FreshDevid (dev : Nat → Device) (t : Devtable) (devid : Devid) : Prop :=
  (∀ d ∈ t.dtlList devid.devMtype, (dev d).devId.devNr ≠ (krlnewDevid dev t devid).2.devNr) ∧
    ∀ devp, (dev devp).devDrv ≠ none → (dev devp).devId = (krlnewDevid dev t devid).2 →
      (krlnewDevice dev t devp).1 = true

/-- **A number that `krlnew_devid` returns is new exactly if no device of the class has been registered.** -/
theorem fresh_devid_iff {dev : Nat → Device} {t : Devtable} {devid : Devid}
    (hok : (krlnewDevid dev t devid).1 = true) : FreshDevid dev t devid ↔ t.dtlList devid.devMtype = [] := by
  constructor
  · rintro ⟨hfresh, -⟩
    by_contra hne
    obtain ⟨d, hd, heq⟩ := krlnewDevid_used hok hne
    exact hfresh d hd heq
  · intro hnil
    obtain ⟨hcls, htype, heq⟩ := krlnewDevid_eq hok
    refine ⟨by simp [hnil], fun devp hdrv hid => krlnewDevice_of_takes ?_⟩
    have hmty : (dev devp).devId.devMtype = devid.devMtype := by rw [hid, heq]
    exact ⟨hdrv, hmty ▸ hcls, hmty ▸ htype, by simp [hmty, hnil]⟩

/-- The first device of a class. -/
theorem first_devid_fresh :
    FreshDevid (fun _ => ⟨⟨15, 0, 0⟩, some 0x1000⟩) devtableTInit ⟨15, 0, 7⟩ :=
  (fresh_devid_iff rfl).mpr rfl

/-- The second device of a class is given the number of the first and is refused. -/
theorem second_devid_used :
    let dev : Nat → Device := fun _ => ⟨⟨15, 0, 0⟩, some 0x1000⟩
    let t := run dev devtableTInit [8]
    krlnewDevid dev t ⟨15, 0, 7⟩ = (true, (dev 9).devId) ∧ (krlnewDevice dev t 9).1 = false := by
  decide

end Cosmos.Dev
