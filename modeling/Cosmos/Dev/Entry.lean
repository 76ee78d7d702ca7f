import Cosmos.Dev.Table

/-!
# Starting a driver (`drivers/drvrfs.c`, `drivers/drvuart.c`)

`rfs_entry` and `uart_entry` make a device, link it into the driver's `drv_alldevlist` by `krldev_add_driver` and into
the device table by `krlnew_device`; when one of them fails they free the device. The device is not taken off
`drv_alldevlist`, so a start that fails in `krlnew_device` leaves a freed device on it; a start that fails before leaves
nothing (`failed_start_clean_iff`).
-/

namespace Cosmos.Dev

open Cosmos.Lib Function
open Cosmos.Sve (Devid deviceMax filesysDevice)

def uartDevice : Nat := 15

/-! ### The functions -/

/-- The devices with whether they are allocated, the device table, and `drv_alldevlist` of each driver. -/
structure St where
  dev : Nat → Device
  live : Nat → Bool
  table : Devtable
  drvAlldevlist : Nat → List Nat

/-- What the steps of a start answer: the address `krlnew` returns for the device; whether the two `krlnew` of
`new_rfsdevext_mmblk` succeed, `krldelete`, `krlnew_devhandle` and `krlenable_intline`. -/
structure Ans where
  new : Option Nat
  blkp : Bool
  rfsexp : Bool
  del : Bool
  devhandle : Bool
  intline : Bool

/-- `new_device_dsc` and `device_t_init`. -/
def newDeviceDsc (s : St) (a : Ans) : Option (Nat × St) :=
  a.new.map fun dp =>
    (dp, { s with dev := update s.dev dp ⟨⟨0, 0, 0⟩, none⟩, live := update s.live dp true })

def delDeviceDsc (s : St) (devp : Nat) (a : Ans) : Bool × St :=
  if a.del = false then (false, s) else (true, { s with live := update s.live devp false })

/-- The id that `rfs_set_device` and `uart0_set_device` store. -/
def setDevice (s : St) (devp : Nat) (devid : Devid) : St :=
  { s with dev := update s.dev devp { s.dev devp with devId := devid } }

def krldevAddDriver (s : St) (devp drvp : Nat) : Bool × St :=
  if (s.drvAlldevlist drvp).any fun fdevp => krlcmpDevid (s.dev devp).devId (s.dev fdevp).devId then (false, s)
  else
    (true,
      { s with
        drvAlldevlist := listAdd s.drvAlldevlist drvp devp
        dev := update s.dev devp { s.dev devp with devDrv := some drvp } })

def St.newDevice (s : St) (devp : Nat) : Bool × St :=
  let r := krlnewDevice s.dev s.table devp
  (r.1, { s with table := r.2 })

/-- The common body: `ext` is the step before the device is linked, `rest` what follows when it is registered. -/
def driverEntry (devid : Devid) (ext rest : Ans → Bool) (s : St) (drvp : Option Nat) (a : Ans) : Bool × St :=
  match drvp with
  | none => (false, s)
  | some drvp =>
    match newDeviceDsc s a with
    | none => (false, s)
    | some (devp, s) =>
      let s := setDevice s devp devid
      if ext a = false then (false, (delDeviceDsc s devp a).2)
      else
        let add := krldevAddDriver s devp drvp
        if add.1 = false then (false, (delDeviceDsc add.2 devp a).2)
        else
          let new := add.2.newDevice devp
          if new.1 = false then (false, (delDeviceDsc new.2 devp a).2) else (rest a, new.2)

/-- `rfs_entry`; the calls behind `krlnew_device` do not touch the lists. -/
def rfsEntry : St → Option Nat → Ans → Bool × St :=
  driverEntry ⟨filesysDevice, 0, 0⟩ (fun a => a.blkp && a.rfsexp) fun _ => true

/-- `uart_entry`; it has no step before the device is linked, and frees nothing once it is registered. -/
def uartEntry : St → Option Nat → Ans → Bool × St :=
  driverEntry ⟨uartDevice, 0, 0⟩ (fun _ => true) fun a => a.devhandle && a.intline

/-! ### Freed devices on lists -/

/-- No list has a device that is not allocated. -/
structure Clean (s : St) : Prop where
  devlist : ∀ d ∈ s.table.devtDevlist, s.live d = true
  cls : ∀ c, ∀ d ∈ s.table.dtlList c, s.live d = true
  drv : ∀ drvp, ∀ d ∈ s.drvAlldevlist drvp, s.live d = true

def made (s : St) (devp : Nat) (devid : Devid) : St :=
  { s with
    dev := update s.dev devp ⟨devid, none⟩
    live := update s.live devp true }

/-- A start that links its device to the driver and is then refused by `krlnew_device`, and frees the device. -/
def Refused (devid : Devid) (ext : Ans → Bool) (s : St) (drvp : Option Nat) (a : Ans) : Prop :=
  ∃ drv devp, drvp = some drv ∧ a.new = some devp ∧ ext a = true ∧
    (krldevAddDriver (made s devp devid) devp drv).1 = true ∧
    ((krldevAddDriver (made s devp devid) devp drv).2.newDevice devp).1 = false ∧ a.del = true

/-- The device is on no list. -/
structure Off (s : St) (devp : Nat) : Prop where
  devlist : devp ∉ s.table.devtDevlist
  cls : ∀ c, devp ∉ s.table.dtlList c
  drv : ∀ drvp, devp ∉ s.drvAlldevlist drvp

section Lists

variable {s : St} {devp : Nat} {a : Ans}

theorem Clean.off (h : Clean s) (hdead : s.live devp = false) : Off s devp := by
  have hne {d : Nat} (hlive : s.live d = true) : d ≠ devp := by
    rintro rfl
    rw [hdead] at hlive
    cases hlive
  exact ⟨fun hd => hne (h.devlist _ hd) rfl, fun c hd => hne (h.cls c _ hd) rfl, fun drv hd => hne (h.drv drv _ hd) rfl⟩

theorem live_update (d : Nat) (hlive : s.live d = true) : update s.live devp true d = true := by
  by_cases hd : d = devp
  · subst hd
    exact update_self ..
  · rwa [update_of_ne hd]

theorem Clean.made (h : Clean s) (devp : Nat) (devid : Devid) : Clean (made s devp devid) :=
  ⟨fun d hd => live_update d (h.devlist d hd), fun c d hd => live_update d (h.cls c d hd),
    fun drv d hd => live_update d (h.drv drv d hd)⟩

theorem Clean.del (h : Clean s) (hoff : Off s devp) : Clean (delDeviceDsc s devp a).2 := by
  unfold delDeviceDsc
  split_ifs
  · exact h
  · have hlive {d : Nat} (hne : d ≠ devp) (hd : s.live d = true) : update s.live devp false d = true := by
      rwa [update_of_ne hne]
    exact ⟨fun d hd => hlive (ne_of_mem_of_not_mem hd hoff.devlist) (h.devlist d hd),
      fun c d hd => hlive (ne_of_mem_of_not_mem hd (hoff.cls c)) (h.cls c d hd),
      fun drv d hd => hlive (ne_of_mem_of_not_mem hd (hoff.drv drv)) (h.drv drv d hd)⟩

theorem krldevAddDriver_cases (s : St) (devp drv : Nat) :
    (krldevAddDriver s devp drv).1 = false ∧ (krldevAddDriver s devp drv).2 = s ∨
      (krldevAddDriver s devp drv).1 = true ∧ (krldevAddDriver s devp drv).2.table = s.table ∧
        (krldevAddDriver s devp drv).2.live = s.live ∧
        (krldevAddDriver s devp drv).2.drvAlldevlist = listAdd s.drvAlldevlist drv devp := by
  unfold krldevAddDriver
  split_ifs
  · exact .inl ⟨rfl, rfl⟩
  · exact .inr ⟨rfl, rfl, rfl, rfl⟩

theorem Clean.addDriver (h : Clean s) (hlive : s.live devp = true) (drv : Nat) :
    Clean (krldevAddDriver s devp drv).2 := by
  rcases krldevAddDriver_cases s devp drv with ⟨-, heq⟩ | ⟨-, htable, hl, hdrv⟩
  · rwa [heq]
  · refine ⟨by rw [htable, hl]; exact h.devlist, by rw [htable, hl]; exact h.cls, fun drv' d hd => ?_⟩
    rw [hl]
    rw [hdrv] at hd
    rcases mem_listAdd.mp hd with ⟨rfl, -⟩ | hd
    · exact hlive
    · exact h.drv drv' d hd

theorem Clean.newDevice (h : Clean s) (hlive : s.live devp = true) : Clean (s.newDevice devp).2 := by
  rcases krlnewDevice_cases s.dev s.table devp with ⟨-, heq⟩ | ⟨-, heq⟩
  · refine ⟨fun d hd => ?_, fun c d hd => ?_, h.drv⟩
    · simp only [St.newDevice, heq] at hd
      rcases List.mem_cons.mp hd with rfl | hd
      · exact hlive
      · exact h.devlist d hd
    · simp only [St.newDevice, heq] at hd
      rcases mem_listAdd.mp hd with ⟨rfl, -⟩ | hd
      · exact hlive
      · exact h.cls c d hd
  · simp only [St.newDevice, heq]
    exact h

theorem newDevice_refused (h : (s.newDevice devp).1 = false) : (s.newDevice devp).2 = s := by
  rcases krlnewDevice_cases s.dev s.table devp with ⟨-, heq⟩ | ⟨-, heq⟩
  · simp [St.newDevice, heq] at h
  · simp [St.newDevice, heq]

end Lists

/-! ### A start -/

section Start

variable {s : St} {a : Ans} {devid : Devid} {ext rest : Ans → Bool} {drvp : Option Nat}

theorem newDeviceDsc_made (s : St) (devid : Devid) {devp : Nat} (hnew : a.new = some devp) :
    ∃ s', newDeviceDsc s a = some (devp, s') ∧ setDevice s' devp devid = made s devp devid := by
  refine ⟨_, by rw [newDeviceDsc, hnew]; rfl, ?_⟩
  simp [setDevice, made]

theorem refused_iff {drv devp : Nat} (hnew : a.new = some devp) :
    Refused devid ext s (some drv) a ↔ ext a = true ∧ (krldevAddDriver (made s devp devid) devp drv).1 = true ∧
      ((krldevAddDriver (made s devp devid) devp drv).2.newDevice devp).1 = false ∧ a.del = true := by
  constructor
  · rintro ⟨drv', devp', hdrv, hdev, hrest⟩
    rw [hnew] at hdev
    cases hdrv
    cases hdev
    exact hrest
  · exact fun hrest => ⟨drv, devp, rfl, hnew, hrest⟩

theorem not_clean_del {devp drv : Nat} (hmem : devp ∈ s.drvAlldevlist drv) (hdel : a.del = true) :
    ¬Clean (delDeviceDsc s devp a).2 := by
  intro hclean
  rw [delDeviceDsc, if_neg (by simp [hdel])] at hclean
  have hlive : update s.live devp false devp = true := hclean.drv drv devp hmem
  rw [update_self] at hlive
  cases hlive

theorem clean_driverEntry_iff (h : Clean s) (hfresh : ∀ devp, a.new = some devp → s.live devp = false) :
    Clean (driverEntry devid ext rest s drvp a).2 ↔ ¬Refused devid ext s drvp a := by
  cases drvp with
  | none =>
    refine iff_of_true h ?_
    rintro ⟨drv, devp, hdrv, -⟩
    cases hdrv
  | some drv =>
    cases hnew : a.new with
    | none =>
      have hnone : newDeviceDsc s a = none := by rw [newDeviceDsc, hnew]; rfl
      refine iff_of_true (by simpa only [driverEntry, hnone] using h) ?_
      rintro ⟨-, devp, -, hsome, -⟩
      rw [hnew] at hsome
      cases hsome
    | some devp =>
      obtain ⟨s', hdsc, hmade⟩ := newDeviceDsc_made s devid hnew
      obtain ⟨hdev, hcls, hdrv⟩ := h.off (hfresh devp hnew)
      have hclean := h.made devp devid
      have hoff : Off (made s devp devid) devp := ⟨hdev, hcls, hdrv⟩
      have hlive : (made s devp devid).live devp = true := update_self ..
      rw [refused_iff hnew]
      simp only [driverEntry, hdsc, hmade]
      cases hext : ext a with
      | false => simpa using hclean.del hoff
      | true =>
        rcases krldevAddDriver_cases (made s devp devid) devp drv with ⟨hfail, hsame⟩ | ⟨hadd, -, hl, hlist⟩
        · simpa [hfail, hsame] using hclean.del hoff
        · have hlinked := hclean.addDriver hlive drv
          rw [← hl] at hlive
          cases hreg : ((krldevAddDriver (made s devp devid) devp drv).2.newDevice devp).1 with
          | true => simpa [hadd, hreg] using hlinked.newDevice hlive
          | false =>
            have hmem : devp ∈ (krldevAddDriver (made s devp devid) devp drv).2.drvAlldevlist drv := by
              rw [hlist]
              exact mem_listAdd.mpr (.inl ⟨rfl, rfl⟩)
            cases hdel : a.del with
            | true => simpa [hadd, hreg, newDevice_refused hreg] using not_clean_del hmem hdel
            | false => simpa [hadd, hreg, newDevice_refused hreg, delDeviceDsc, hdel] using hlinked

end Start

/-- **A start leaves no freed device on a list exactly if it is not refused by `krlnew_device` after its device was
linked to the driver.** -/
theorem failed_start_clean_iff {s : St} {a : Ans} (h : Clean s)
    (hfresh : ∀ devp, a.new = some devp → s.live devp = false) (drvp : Option Nat) :
    (Clean (rfsEntry s drvp a).2 ↔ ¬Refused ⟨filesysDevice, 0, 0⟩ (fun a => a.blkp && a.rfsexp) s drvp a) ∧
      (Clean (uartEntry s drvp a).2 ↔ ¬Refused ⟨uartDevice, 0, 0⟩ (fun _ => true) s drvp a) :=
  ⟨clean_driverEntry_iff h hfresh, clean_driverEntry_iff h hfresh⟩

def noDevices : St := ⟨fun _ => ⟨⟨0, 0, 0⟩, none⟩, fun _ => false, devtableTInit, fun _ => []⟩

theorem clean_noDevices : Clean noDevices := ⟨by simp [noDevices, devtableTInit], by simp [noDevices, devtableTInit],
  by simp [noDevices]⟩

/-- A start of each driver that runs out of memory or succeeds. -/
theorem first_starts_clean :
    let a : Ans := ⟨some 0x8000, true, false, true, true, true⟩
    (rfsEntry noDevices (some 0x1000) a).1 = false ∧ Clean (rfsEntry noDevices (some 0x1000) a).2 ∧
      (uartEntry noDevices (some 0x1000) a).1 = true ∧ Clean (uartEntry noDevices (some 0x1000) a).2 := by
  intro a
  have h := failed_start_clean_iff (a := a) clean_noDevices (fun _ _ => rfl) (some 0x1000)
  refine ⟨by decide, h.1.mpr ?_, by decide, h.2.mpr ?_⟩
  · rintro ⟨drv, devp, -, -, hext, -⟩
    cases hext
  · rintro ⟨drv, devp, hdrv, hnew, -, -, hreg, -⟩
    cases hdrv
    cases hnew
    revert hreg
    decide

/-- The file system driver is started twice, each time with a driver record of its own: the second device is freed and
stays on the list of its driver. -/
theorem second_start_dangles :
    let a : Ans := ⟨some 0x8000, true, true, true, true, true⟩
    let s := (rfsEntry noDevices (some 0x1000) a).2
    let r := rfsEntry s (some 0x2000) { a with new := some 0x9000 }
    r.1 = false ∧ r.2.drvAlldevlist 0x2000 = [0x9000] ∧ r.2.live 0x9000 = false := by
  decide

end Cosmos.Dev
