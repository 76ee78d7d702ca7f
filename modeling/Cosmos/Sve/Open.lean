import Cosmos.Rfs.Moves

/-!
# The open system call (`kernel/krlsveopen.c`)

`krlsve_core_open` finds the device, makes an object node, puts the node into the thread's handle table and calls the
driver; when the driver fails it is to take both back. For a device it does. For a file it dies instead.

The drivers are those of `drivers/`: the file system, the system tick and the keyboard. `Ans` is what `krlnew` and
`krldelete` answer for the object node; what they answer the file system is part of its state.
-/

namespace Cosmos.Sve

open Cosmos.Lib Halt Function

/-! ### Data -/

def noHand : Int := -1
def tdHandMax : Nat := 8
def sysstuserr : Int := -1
def sysstusok : Int := 0

def fileTyMask : Nat := 0xf
def fileTyFile : Nat := 0
def fileTyDev : Nat := 1
def rwoFlgMask : Nat := 0xff
def rwoFlgBits : Nat := 0x4
def nfFlg : Nat := 0x4

def filesysDevice : Nat := 30
def deviceMax : Nat := 34
def ioifCodeOpen : Int := 0
def ioifCodeMax : Int := 12
def fsdevOpenflgNewfile : Nat := 1
def fsdevOpenflgOpefile : Nat := 2

inductive Objtype where
  | nul | dev | fil
  deriving DecidableEq

structure Devid where
  devMtype : Nat
  devStype : Nat
  devNr : Nat
  deriving DecidableEq

/-- What stands in `drv_dipfun` for an open. -/
inductive Dipfun where
  | rfsOpen | systickOpen | uartOpen | drvDefaltFunc

/-- `device_t`; `devExtdata` is the disk of a file system device. -/
structure Device where
  devId : Devid
  devDrv : Option (Int → Dipfun)
  devCount : Nat
  devExtdata : Rfs.St

/-- `objnode_t`; pointers to devices are their addresses. -/
structure Objnode where
  onOpercode : Int
  onObjtype : Objtype
  onObjadr : Option Nat
  onAcsflgs : Nat
  onFname : Option (Nat → UInt8)
  onFinode : Option Rfs.Block

def objnodeTInit : Objnode := ⟨-1, .nul, none, 0, none, none⟩

/-- The device table by class, the devices, the live object nodes and the handle table of the calling thread. -/
structure Sys where
  dtlType : Nat → Nat
  dtlList : Nat → List Nat
  dev : Nat → Device
  node : Nat → Option Objnode
  tdHandtbl : Fin tdHandMax → Option Nat

/-- The answers of `krlnew` and `krldelete` for the object node. -/
structure Ans where
  new : Option Nat
  del : Bool

def Sys.setNode (s : Sys) (ondp : Nat) (n : Option Objnode) : Sys := { s with node := update s.node ondp n }

def Sys.setHand (s : Sys) (hand : Fin tdHandMax) (p : Option Nat) : Sys :=
  { s with tdHandtbl := update s.tdHandtbl hand p }

def Sys.setDev (s : Sys) (devp : Nat) (d : Device) : Sys := { s with dev := update s.dev devp d }

/-! ### Devices, nodes and handles -/

def krlonidflRetnDevice (s : Sys) (didp : Devid) : Option Nat :=
  if deviceMax ≤ didp.devMtype then none
  else if didp.devMtype ≠ s.dtlType didp.devMtype then none
  else (s.dtlList didp.devMtype).find? fun findevp => decide (didp = (s.dev findevp).devId)

def krlnewObjnode (s : Sys) (a : Ans) : Option (Nat × Sys) :=
  a.new.map fun ondp => (ondp, s.setNode ondp (some objnodeTInit))

def krldelObjnode (s : Sys) (onodep : Nat) (a : Ans) : Halt (Bool × Sys) :=
  if a.del = false then .error "krldel_objnode err" else .ok (true, s.setNode onodep none)

/-- The loop of `krlthd_add_objnode`: the first free slot. -/
def Sys.nullhand (s : Sys) : Option (Fin tdHandMax) :=
  (List.finRange tdHandMax).find? fun hand => (s.tdHandtbl hand).isNone

def krlthdAddObjnode (s : Sys) (ondp : Nat) : Int × Sys :=
  match s.nullhand with
  | some hand => (hand.val, s.setHand hand (some ondp))
  | none => (noHand, s)

theorem toNat_lt_tdHandMax {hand : Int} (h : ¬((tdHandMax : Int) ≤ hand ∨ hand ≤ noHand)) :
    hand.toNat < tdHandMax := by
  unfold noHand at h
  omega

def krlthdDelObjnode (s : Sys) (hand : Int) : Int × Sys :=
  if h : (tdHandMax : Int) ≤ hand ∨ hand ≤ noHand then (noHand, s)
  else
    have hlt := toNat_lt_tdHandMax h
    match s.tdHandtbl ⟨hand.toNat, hlt⟩ with
    | none => (noHand, s)
    | some _ => (hand, s.setHand ⟨hand.toNat, hlt⟩ none)

/-! ### The drivers -/

def krldevIncDevcount (s : Sys) (devp : Nat) : Bool × Sys :=
  if 2 ^ 64 - 1 ≤ (s.dev devp).devCount then (false, s)
  else (true, s.setDev devp { s.dev devp with devCount := (s.dev devp).devCount + 1 })

def uartOpen (s : Sys) (devp : Nat) : Bool × Sys := krldevIncDevcount s devp

def systickOpen (s : Sys) (devp : Nat) : Bool × Sys := (true, (krldevIncDevcount s devp).2)

def rfsOpenFile (s : Sys) (devp iopack : Nat) (obp : Objnode) : Halt (Bool × Sys) :=
  match obp.onFname with
  | none => .ok (false, s)
  | some fname =>
    Rfs.rfsOpenfileblk (s.dev devp).devExtdata (some fname) >>= fun r =>
      match r with
      | (none, st) => .ok (false, s.setDev devp { s.dev devp with devExtdata := st })
      | (some fmdp, st) =>
        .ok (true, (s.setDev devp { s.dev devp with devExtdata := st }).setNode iopack
          (some { obp with onFinode := some fmdp }))

def rfsOpen (s : Sys) (devp iopack : Nat) (obp : Objnode) : Halt (Bool × Sys) :=
  if obp.onAcsflgs = fsdevOpenflgOpefile then rfsOpenFile s devp iopack obp
  else if obp.onAcsflgs = fsdevOpenflgNewfile then
    Rfs.rfsNewFile (s.dev devp).devExtdata obp.onFname >>= fun r =>
      .ok (r.1, s.setDev devp { s.dev devp with devExtdata := r.2 })
  else .ok (false, s)

def krldevCallDriver (s : Sys) (devp : Nat) (iocode : Int) (iopack : Nat) (obp : Objnode) : Halt (Bool × Sys) :=
  if ioifCodeMax ≤ iocode then .ok (false, s)
  else
    match (s.dev devp).devDrv with
    | none => .ok (false, s)
    | some drvDipfun =>
      match drvDipfun iocode with
      | .rfsOpen => rfsOpen s devp iopack obp
      | .systickOpen => .ok (systickOpen s devp)
      | .uartOpen => .ok (uartOpen s devp)
      | .drvDefaltFunc => .ok (false, s)

def krldevIo (s : Sys) (nodep : Nat) (n : Objnode) : Halt (Bool × Sys) :=
  match n.onObjadr with
  | none => .ok (false, s)
  | some devp =>
    if n.onObjtype ≠ .dev ∧ n.onObjtype ≠ .fil then .ok (false, s)
    else if n.onOpercode < 0 ∨ ioifCodeMax ≤ n.onOpercode then .ok (false, s)
    else krldevCallDriver s devp n.onOpercode nodep n

def krlsveOpenDevice (s : Sys) (ondep : Nat) : Halt (Int × Sys) :=
  match s.node ondep with
  | none => .ok (sysstuserr, s)
  | some n => krldevIo s ondep n >>= fun r => .ok (if r.1 = false then sysstuserr else sysstusok, r.2)

/-! ### The call -/

def resStep (s : Sys) (ondp : Nat) (rethd : Int) (a : Ans) : Halt (Int × Sys) :=
  let del := krlthdDelObjnode s rethd
  if rethd ≠ noHand ∧ del.1 = noHand then .error "open api td del objnode err"
  else
    krldelObjnode (if rethd ≠ noHand then del.2 else s) ondp a >>= fun r =>
      if r.1 = false then .error "open api del objnode err" else .ok (noHand, r.2)

def devidAt (file : Nat → UInt8) : Devid := ⟨getWord file 0, getWord file 8, getWord file 16⟩

def devNode (devp : Nat) : Objnode :=
  { objnodeTInit with onOpercode := ioifCodeOpen, onObjtype := .dev, onObjadr := some devp }

def opDevStep (s : Sys) (file : Nat → UInt8) (a : Ans) : Halt (Int × Sys) :=
  match krlonidflRetnDevice s (devidAt file) with
  | none => .ok (noHand, s)
  | some devp =>
    match krlnewObjnode s a with
    | none => .ok (noHand, s)
    | some (ondp, s) =>
      let add := krlthdAddObjnode (s.setNode ondp (some (devNode devp))) ondp
      if add.1 = noHand then resStep add.2 ondp add.1 a
      else krlsveOpenDevice add.2 ondp >>= fun r =>
        if r.1 = sysstuserr then resStep r.2 ondp add.1 a else .ok (add.1, r.2)

def fileNode (devp : Nat) (file : Nat → UInt8) (acsflgs : Nat) : Objnode :=
  { objnodeTInit with
    onOpercode := ioifCodeOpen, onObjtype := .fil, onObjadr := some devp, onAcsflgs := acsflgs, onFname := some file }

def opFilStep (s : Sys) (file : Nat → UInt8) (flgs : Nat) (a : Ans) : Halt (Int × Sys) :=
  match krlonidflRetnDevice s ⟨filesysDevice, 0, 0⟩ with
  | none => .ok (noHand, s)
  | some devp =>
    match krlnewObjnode s a with
    | none => .ok (noHand, s)
    | some (ondp, s) =>
      if (flgs >>> rwoFlgBits) &&& rwoFlgMask = nfFlg then
        krlsveOpenDevice (s.setNode ondp (some (fileNode devp file fsdevOpenflgNewfile))) ondp >>= fun r =>
          if r.1 = sysstuserr then resStep r.2 ondp noHand a
          else krldelObjnode r.2 ondp a >>= fun r =>
            if r.1 = false then .error "NEWFILE api del objnode err" else .ok (0, r.2)
      else
        let add := krlthdAddObjnode (s.setNode ondp (some (fileNode devp file fsdevOpenflgOpefile))) ondp
        if add.1 = noHand then resStep add.2 ondp add.1 a
        else krlsveOpenDevice add.2 ondp >>= fun r =>
          if r.1 = sysstuserr then .error "open sve die^^^^^^" else .ok (add.1, r.2)

def krlsveCoreOpen (s : Sys) (file : Nat → UInt8) (flgs : Nat) (a : Ans) : Halt (Int × Sys) :=
  if flgs &&& fileTyMask = fileTyDev then opDevStep s file a
  else if flgs &&& fileTyMask = fileTyFile then opFilStep s file flgs a
  else .ok (noHand, s)

/-! ### What the call may leave -/

def Creates (flgs : Nat) : Prop :=
  flgs &&& fileTyMask = fileTyFile ∧ (flgs >>> rwoFlgBits) &&& rwoFlgMask = nfFlg

def OpensFile (flgs : Nat) : Prop :=
  flgs &&& fileTyMask = fileTyFile ∧ (flgs >>> rwoFlgBits) &&& rwoFlgMask ≠ nfFlg

/-- A new node in a slot that was free, and nothing else changed. -/
def Opened (s : Sys) (r : Int × Sys) : Prop :=
  ∃ hand ondp, r.1 = Fin.val hand ∧ s.tdHandtbl hand = none ∧ s.node ondp = none ∧ (r.2.node ondp).isSome ∧
    r.2.tdHandtbl = update s.tdHandtbl hand (some ondp) ∧ ∀ o ≠ ondp, r.2.node o = s.node o

def Undone (s s' : Sys) : Prop := s'.tdHandtbl = s.tdHandtbl ∧ s'.node = s.node

/-- What the call may return. -/
def Atomic (s : Sys) (flgs : Nat) (r : Int × Sys) : Prop :=
  (Creates flgs → Undone s r.2) ∧ (¬Creates flgs → Opened s r ∨ r.1 = noHand ∧ Undone s r.2)

def Device.openFunc (d : Device) : Option Dipfun := d.devDrv.map fun drv => drv ioifCodeOpen

/-- The device opens the file: for the file system, the path is good, there is such a file, and the buffers are to be
had and given back. -/
def OpensAt (d : Device) (file : Nat → UInt8) : Prop :=
  match d.openFunc with
  | some .rfsOpen => (Rfs.rfsRetFname (some file)).1 = 0 ∧
      Rfs.files d.devExtdata.blk (Rfs.pathName (some file)) ≠ none ∧ ∀ n < 7, d.devExtdata.krl n = true
  | some .systickOpen => True
  | some .uartOpen => d.devCount < 2 ^ 64 - 1
  | _ => False

/-- The device comes back from the creation of a file. -/
def CreatesAt (d : Device) (file : Nat → UInt8) : Prop :=
  match d.openFunc with
  | some .rfsOpen => Rfs.NewReturns d.devExtdata (some file)
  | _ => True

/-- The device of the file systems, if a request for a file gets as far as its driver. -/
def filesysOf (s : Sys) (a : Ans) : Option Nat :=
  if a.new.isSome then krlonidflRetnDevice s ⟨filesysDevice, 0, 0⟩ else none

/-- What the request finds: the file there is to be opened, or the buffers a creation needs to come back. -/
def Ready (s : Sys) (file : Nat → UInt8) (flgs : Nat) (a : Ans) : Prop :=
  (OpensFile flgs → s.nullhand.isSome → ∀ devp ∈ filesysOf s a, OpensAt (s.dev devp) file) ∧
    (Creates flgs → ∀ devp ∈ filesysOf s a, CreatesAt (s.dev devp) file)

/-! ### The parts -/

section Parts

variable {s s' : Sys} {ondp devp : Nat} {hand : Fin tdHandMax} {a : Ans} {n : Objnode}

@[simp] theorem setNode_setNode (x y : Option Objnode) : (s.setNode ondp x).setNode ondp y = s.setNode ondp y := by
  simp [Sys.setNode]

theorem nullhand_setNode (x : Option Objnode) : (s.setNode ondp x).nullhand = s.nullhand := rfl

theorem Sys.nullhand_some (h : s.nullhand = some hand) : s.tdHandtbl hand = none := by
  simpa using List.find?_some h

/-- What a driver leaves: the handle table, the other nodes, and a node where there was one. -/
structure Framed (ondp : Nat) (s s' : Sys) : Prop where
  tbl : s'.tdHandtbl = s.tdHandtbl
  node_of_ne : ∀ o ≠ ondp, s'.node o = s.node o
  node_isSome : (s.node ondp).isSome → (s'.node ondp).isSome

theorem Framed.refl : Framed ondp s s := ⟨rfl, fun _ _ => rfl, id⟩

theorem framed_setDev (d : Device) : Framed ondp s (s.setDev devp d) := ⟨rfl, fun _ _ => rfl, id⟩

theorem framed_krldevIncDevcount : Framed ondp s (krldevIncDevcount s devp).2 := by
  unfold krldevIncDevcount
  split
  · exact .refl
  · exact framed_setDev _

theorem framed_rfsOpen {r : Bool × Sys} (h : rfsOpen s devp ondp n = .ok r) : Framed ondp s r.2 := by
  unfold rfsOpen at h
  split_ifs at h
  · unfold rfsOpenFile at h
    cases hname : n.onFname with
    | none =>
      rw [hname] at h
      cases h
      exact .refl
    | some fname =>
      rw [hname] at h
      obtain ⟨⟨fmdp, st⟩, -, h⟩ := bind_eq_ok h
      cases fmdp with
      | none =>
        cases h
        exact framed_setDev _
      | some fmdp =>
        cases h
        refine ⟨rfl, fun o ho => ?_, fun _ => ?_⟩
        · simp [Sys.setNode, Sys.setDev, ho]
        · simp [Sys.setNode]
  · obtain ⟨x, -, h⟩ := bind_eq_ok h
    cases h
    exact framed_setDev _
  · cases h
    exact .refl

theorem framed_krlsveOpenDevice {r : Int × Sys} (h : krlsveOpenDevice s ondp = .ok r) : Framed ondp s r.2 := by
  unfold krlsveOpenDevice at h
  split at h
  · cases h
    exact .refl
  · obtain ⟨x, hio, h⟩ := bind_eq_ok h
    cases h
    unfold krldevIo at hio
    split at hio
    · cases hio
      exact .refl
    split_ifs at hio
    · cases hio
      exact .refl
    · cases hio
      exact .refl
    · unfold krldevCallDriver at hio
      split_ifs at hio
      · cases hio
        exact .refl
      · split at hio
        · cases hio
          exact .refl
        · split at hio
          · exact framed_rfsOpen hio
          · cases hio
            exact framed_krldevIncDevcount
          · cases hio
            exact framed_krldevIncDevcount
          · cases hio
            exact .refl

theorem resStep_noHand (hdel : a.del = true) : resStep s ondp noHand a = .ok (noHand, s.setNode ondp none) := by
  simp [resStep, krldelObjnode, hdel]

theorem hand_ne_noHand (hand : Fin tdHandMax) : (hand.val : Int) ≠ noHand := by
  unfold noHand
  omega

theorem krlthdDelObjnode_of_some {p : Nat} (h : s.tdHandtbl hand = some p) :
    krlthdDelObjnode s hand.val = ((hand.val : Int), s.setHand hand none) := by
  have hlt := hand.isLt
  unfold krlthdDelObjnode
  rw [dif_neg (by unfold noHand; omega)]
  simp only [Int.toNat_natCast, Fin.eta, h]

theorem resStep_hand {p : Nat} (hdel : a.del = true) (h : s.tdHandtbl hand = some p) :
    resStep s ondp hand.val a = .ok (noHand, (s.setHand hand none).setNode ondp none) := by
  have hne := hand_ne_noHand hand
  unfold resStep
  rw [krlthdDelObjnode_of_some h]
  simp [hne, krldelObjnode, hdel]

theorem krlthdAddObjnode_of_some (x : Option Objnode) (h : s.nullhand = some hand) :
    krlthdAddObjnode (s.setNode ondp x) ondp = ((hand.val : Int), (s.setNode ondp x).setHand hand (some ondp)) := by
  rw [krlthdAddObjnode, nullhand_setNode, h]

theorem krlthdAddObjnode_of_none (x : Option Objnode) (h : s.nullhand = none) :
    krlthdAddObjnode (s.setNode ondp x) ondp = (noHand, s.setNode ondp x) := by
  rw [krlthdAddObjnode, nullhand_setNode, h]

theorem node_freed {x : Option Objnode} (hfresh : s.node ondp = none)
    (hframe : ∀ o ≠ ondp, s'.node o = (s.setNode ondp x).node o) :
    (s'.setNode ondp none).node = s.node := by
  funext o
  by_cases ho : o = ondp
  · subst ho
    simp [Sys.setNode, hfresh]
  · have hsame := hframe o ho
    simp [Sys.setNode, ho] at hsame ⊢
    exact hsame

theorem undone_hand {x : Option Objnode} (hfresh : s.node ondp = none) (hfree : s.tdHandtbl hand = none)
    (hframe : Framed ondp ((s.setNode ondp x).setHand hand (some ondp)) s') :
    Undone s ((s'.setHand hand none).setNode ondp none) := by
  constructor
  · show update s'.tdHandtbl hand none = s.tdHandtbl
    rw [hframe.tbl]
    show update (update s.tdHandtbl hand (some ondp)) hand none = s.tdHandtbl
    rw [update_idem, ← hfree, update_eq_self]
  · exact node_freed hfresh hframe.node_of_ne

theorem opened_hand {x : Objnode} (hfresh : s.node ondp = none) (hfree : s.tdHandtbl hand = none)
    (hframe : Framed ondp ((s.setNode ondp (some x)).setHand hand (some ondp)) s') :
    Opened s (hand.val, s') := by
  refine ⟨hand, ondp, rfl, hfree, hfresh, ?_, hframe.tbl, fun o ho => ?_⟩
  · exact hframe.node_isSome (by simp [Sys.setHand, Sys.setNode])
  · rw [hframe.node_of_ne o ho]
    simp [Sys.setHand, Sys.setNode, ho]

end Parts

/-! ### What the driver call finds -/

section Found

variable {s : Sys} {file : Nat → UInt8} {flgs ondp devp : Nat} {a : Ans} {n : Objnode}

theorem krlsveOpenDevice_of_node (hnode : s.node ondp = some n) (hadr : n.onObjadr = some devp)
    (hty : n.onObjtype = .dev ∨ n.onObjtype = .fil) (hcode : n.onOpercode = ioifCodeOpen) :
    krlsveOpenDevice s ondp = krldevCallDriver s devp ioifCodeOpen ondp n >>= fun r =>
      .ok (if r.1 = false then sysstuserr else sysstusok, r.2) := by
  have hio : krldevIo s ondp n = krldevCallDriver s devp ioifCodeOpen ondp n := by
    unfold krldevIo
    rw [hadr, hcode]
    simp only
    rw [if_neg (by rcases hty with h | h <;> simp [h]), if_neg (by decide)]
  rw [krlsveOpenDevice, hnode]
  simp only [hio]

theorem status_ok_iff {x : Halt (Bool × Sys)} :
    (∃ r, (x >>= fun r => .ok (if r.1 = false then sysstuserr else sysstusok, r.2)) = .ok r ∧ r.1 ≠ sysstuserr) ↔
      ∃ s', x = .ok (true, s') := by
  refine (exists_bind_iff (Q := fun r => r.1 = true) fun r _ => ?_).trans (by simp)
  cases r.1 <;> simp [sysstuserr, sysstusok]

theorem krlsveOpenDevice_opens_iff (hwf : Rfs.WF (s.dev devp).devExtdata.rdeMsize (s.dev devp).devExtdata.blk)
    (hnode : s.node ondp = some (fileNode devp file fsdevOpenflgOpefile)) :
    (∃ r, krlsveOpenDevice s ondp = .ok r ∧ r.1 ≠ sysstuserr) ↔ OpensAt (s.dev devp) file := by
  rw [krlsveOpenDevice_of_node hnode rfl (.inr rfl) rfl, status_ok_iff, krldevCallDriver, if_neg (by decide)]
  unfold OpensAt Device.openFunc
  cases (s.dev devp).devDrv with
  | none => simp
  | some drv =>
    simp only [Option.map_some]
    cases drv ioifCodeOpen with
    | rfsOpen =>
      simp only
      rw [← Rfs.rfsOpenfileblk_some_iff hwf, show rfsOpen s devp ondp (fileNode devp file fsdevOpenflgOpefile) =
        rfsOpenFile s devp ondp (fileNode devp file fsdevOpenflgOpefile) from rfl, rfsOpenFile]
      simp only [fileNode]
      constructor
      · rintro ⟨s', h⟩
        obtain ⟨⟨fmdp, st⟩, hrun, h⟩ := bind_eq_ok h
        cases fmdp with
        | none => cases h
        | some fmdp => exact ⟨fmdp, st, hrun⟩
      · rintro ⟨fmdp, st, hrun⟩
        exact ⟨_, bind_of_ok hrun _⟩
    | systickOpen => simp [systickOpen]
    | uartOpen =>
      simp only [uartOpen, krldevIncDevcount]
      split_ifs with hmax
      · exact iff_of_false (by simp) (by omega)
      · exact iff_of_true ⟨_, rfl⟩ (by omega)
    | drvDefaltFunc => simp

theorem krlsveOpenDevice_creates_iff (hwf : Rfs.WF (s.dev devp).devExtdata.rdeMsize (s.dev devp).devExtdata.blk)
    (hnode : s.node ondp = some (fileNode devp file fsdevOpenflgNewfile)) :
    (∃ r, krlsveOpenDevice s ondp = .ok r) ↔ CreatesAt (s.dev devp) file := by
  rw [krlsveOpenDevice_of_node hnode rfl (.inr rfl) rfl, returns_bind_ok, krldevCallDriver, if_neg (by decide)]
  unfold CreatesAt Device.openFunc
  cases (s.dev devp).devDrv with
  | none => simp
  | some drv =>
    simp only [Option.map_some]
    cases drv ioifCodeOpen with
    | rfsOpen =>
      simp only
      rw [← Rfs.rfsNewFile_returns_iff hwf, show rfsOpen s devp ondp (fileNode devp file fsdevOpenflgNewfile) =
        Rfs.rfsNewFile (s.dev devp).devExtdata (some file) >>= fun r =>
          .ok (r.1, s.setDev devp { s.dev devp with devExtdata := r.2 }) from rfl, returns_bind_ok]
    | systickOpen | uartOpen | drvDefaltFunc => simp

theorem krlsveOpenDevice_dev (devp : Nat) (hnode : s.node ondp = some (devNode devp)) :
    ∃ r, krlsveOpenDevice s ondp = .ok r := by
  rw [krlsveOpenDevice_of_node hnode rfl (.inl rfl) rfl, returns_bind_ok, krldevCallDriver, if_neg (by decide)]
  cases (s.dev devp).devDrv with
  | none => exact ⟨_, rfl⟩
  | some drv =>
    simp only
    cases drv ioifCodeOpen <;> exact ⟨_, rfl⟩

end Found

/-! ### The call is atomic exactly where its driver call goes well -/

section Atomic

variable {s : Sys} {file : Nat → UInt8} {flgs : Nat} {a : Ans}

theorem undone_refl (s : Sys) : Undone s s := ⟨rfl, rfl⟩

theorem undone_freed {ondp : Nat} (hnode : s.node ondp = none) : Undone s (s.setNode ondp none) :=
  ⟨rfl, node_freed (x := none) hnode fun o ho => by simp [Sys.setNode, ho]⟩

theorem atomic_undone {x : Halt (Int × Sys)} {s' : Sys} (hx : x = .ok (noHand, s')) (h : Undone s s') :
    ∃ r, x = .ok r ∧ Atomic s flgs r := ⟨_, hx, fun _ => h, fun _ => .inr ⟨rfl, h⟩⟩

theorem opDevStep_atomic (hdel : a.del = true) (hfresh : ∀ ondp, a.new = some ondp → s.node ondp = none)
    (hno : ¬Creates flgs) : ∃ r, opDevStep s file a = .ok r ∧ Atomic s flgs r := by
  unfold opDevStep
  cases krlonidflRetnDevice s (devidAt file) with
  | none => exact atomic_undone rfl (undone_refl s)
  | some devp =>
    cases hnew : a.new with
    | none =>
      simp only [krlnewObjnode, hnew, Option.map_none]
      exact atomic_undone rfl (undone_refl s)
    | some ondp =>
      have hnode := hfresh ondp hnew
      simp only [krlnewObjnode, hnew, Option.map_some, setNode_setNode]
      cases hnull : s.nullhand with
      | none =>
        rw [krlthdAddObjnode_of_none _ hnull, if_pos rfl, resStep_noHand hdel, setNode_setNode]
        exact atomic_undone rfl (undone_freed hnode)
      | some hand =>
        have hfree := Sys.nullhand_some hnull
        rw [krlthdAddObjnode_of_some _ hnull, if_neg (hand_ne_noHand hand)]
        -- no driver halts for a device
        obtain ⟨r, hr⟩ : ∃ r, krlsveOpenDevice ((s.setNode ondp (some (devNode devp))).setHand hand (some ondp)) ondp =
            .ok r := krlsveOpenDevice_dev devp (by simp [Sys.setHand, Sys.setNode])
        have hframe := framed_krlsveOpenDevice hr
        rw [bind_of_ok hr]
        split
        · have hslot : r.2.tdHandtbl hand = some ondp := by
            rw [hframe.tbl]
            simp [Sys.setHand]
          exact atomic_undone (resStep_hand hdel hslot) (undone_hand hnode hfree hframe)
        · exact ⟨_, rfl, fun h => absurd h hno, fun _ => .inl (opened_hand hnode hfree hframe)⟩

theorem newfile_atomic {ondp devp : Nat} {r : Int × Sys} (hdel : a.del = true) (hnode : s.node ondp = none)
    (hcreates : Creates flgs)
    (hr : krlsveOpenDevice (s.setNode ondp (some (fileNode devp file fsdevOpenflgNewfile))) ondp = .ok r) :
    ∃ r', (if r.1 = sysstuserr then resStep r.2 ondp noHand a
      else krldelObjnode r.2 ondp a >>= fun r =>
        if r.1 = false then .error "NEWFILE api del objnode err" else .ok (0, r.2)) = .ok r' ∧ Atomic s flgs r' := by
  have hframe := framed_krlsveOpenDevice hr
  have hundone : Undone s (r.2.setNode ondp none) := ⟨hframe.tbl, node_freed hnode hframe.node_of_ne⟩
  split
  · exact atomic_undone (resStep_noHand hdel) hundone
  · refine ⟨(0, r.2.setNode ondp none), ?_, fun _ => hundone, fun h => absurd hcreates h⟩
    simp [krldelObjnode, hdel]

/-- The failure of the driver is not unwound. -/
theorem opefile_atomic_iff {ondp devp : Nat} {hand : Fin tdHandMax} {r : Int × Sys} (hnode : s.node ondp = none)
    (hfree : s.tdHandtbl hand = none) (hno : ¬Creates flgs)
    (hr : krlsveOpenDevice
      ((s.setNode ondp (some (fileNode devp file fsdevOpenflgOpefile))).setHand hand (some ondp)) ondp = .ok r) :
    (∃ r', (if r.1 = sysstuserr then .error "open sve die^^^^^^" else .ok ((Fin.val hand : Int), r.2)) = Except.ok r' ∧
      Atomic s flgs r') ↔ r.1 ≠ sysstuserr := by
  split
  · next hfails =>
    refine iff_of_false ?_ fun h => h hfails
    rintro ⟨r', hr', -⟩
    cases hr'
  · next hok =>
    refine iff_of_true ⟨_, rfl, fun h => absurd h hno, fun _ => .inl ?_⟩ hok
    exact opened_hand hnode hfree (framed_krlsveOpenDevice hr)

theorem opFilStep_atomic_iff (hdel : a.del = true) (hfresh : ∀ ondp, a.new = some ondp → s.node ondp = none)
    (hty : flgs &&& fileTyMask = fileTyFile)
    (hwf : ∀ devp ∈ filesysOf s a, Rfs.WF (s.dev devp).devExtdata.rdeMsize (s.dev devp).devExtdata.blk) :
    (∃ r, opFilStep s file flgs a = .ok r ∧ Atomic s flgs r) ↔ Ready s file flgs a := by
  unfold opFilStep
  cases hdev : krlonidflRetnDevice s ⟨filesysDevice, 0, 0⟩ with
  | none => exact iff_of_true (atomic_undone rfl (undone_refl s)) (by simp [Ready, filesysOf, hdev])
  | some devp =>
    cases hnew : a.new with
    | none =>
      simp only [krlnewObjnode, hnew, Option.map_none]
      exact iff_of_true (atomic_undone rfl (undone_refl s)) (by simp [Ready, filesysOf, hnew])
    | some ondp =>
      have hnode := hfresh ondp hnew
      have hof : filesysOf s a = some devp := by simp [filesysOf, hdev, hnew]
      have hwf := hwf devp hof
      simp only [krlnewObjnode, hnew, Option.map_some, setNode_setNode, Ready, hof, Option.mem_def, Option.some.injEq,
        forall_eq']
      by_cases hnf : (flgs >>> rwoFlgBits) &&& rwoFlgMask = nfFlg
      · have hcreates : Creates flgs := ⟨hty, hnf⟩
        have hnot : ¬OpensFile flgs := fun h => h.2 hnf
        have hcall : (∃ r, krlsveOpenDevice
            (s.setNode ondp (some (fileNode devp file fsdevOpenflgNewfile))) ondp = .ok r) ↔
            CreatesAt (s.dev devp) file := krlsveOpenDevice_creates_iff hwf (by simp [Sys.setNode])
        simp only [if_pos hnf, hnot, hcreates, false_imp_iff, true_and, forall_true_left]
        rw [← hcall]
        refine (exists_bind_iff (Q := fun _ => True) fun r hr => iff_of_true ?_ trivial).trans (by simp)
        exact newfile_atomic hdel hnode hcreates hr
      · have hno : ¬Creates flgs := fun h => hnf h.2
        have hopens : OpensFile flgs := ⟨hty, hnf⟩
        simp only [if_neg hnf, hno, hopens, false_imp_iff, and_true, forall_true_left]
        cases hnull : s.nullhand with
        | none =>
          rw [krlthdAddObjnode_of_none _ hnull, if_pos rfl, resStep_noHand hdel, setNode_setNode]
          exact iff_of_true (atomic_undone rfl (undone_freed hnode)) (by simp)
        | some hand =>
          simp only [Option.isSome_some, forall_true_left]
          have hcall : (∃ r, krlsveOpenDevice
              ((s.setNode ondp (some (fileNode devp file fsdevOpenflgOpefile))).setHand hand (some ondp)) ondp = .ok r ∧
              r.1 ≠ sysstuserr) ↔ OpensAt (s.dev devp) file :=
            krlsveOpenDevice_opens_iff hwf (by simp [Sys.setHand, Sys.setNode])
          rw [krlthdAddObjnode_of_some _ hnull, if_neg (hand_ne_noHand hand), ← hcall]
          exact exists_bind_iff fun r hr => opefile_atomic_iff hnode (Sys.nullhand_some hnull) hno hr

end Atomic

/-- **The open system call returns and is atomic exactly if** it finds the file that is to be opened, and a creation can
give back its buffers. -/
theorem krlsveCoreOpen_atomic_iff (s : Sys) (file : Nat → UInt8) (flgs : Nat) (a : Ans) (hdel : a.del = true)
    (hfresh : ∀ ondp, a.new = some ondp → s.node ondp = none)
    (hwf : ∀ devp ∈ filesysOf s a, Rfs.WF (s.dev devp).devExtdata.rdeMsize (s.dev devp).devExtdata.blk) :
    (∃ r, krlsveCoreOpen s file flgs a = .ok r ∧ Atomic s flgs r) ↔ Ready s file flgs a := by
  unfold krlsveCoreOpen
  split_ifs with hdev hfile
  · -- an open of a device is always atomic
    have hty : flgs &&& fileTyMask ≠ fileTyFile := by
      rw [hdev]
      decide
    refine iff_of_true (opDevStep_atomic hdel hfresh fun h => hty h.1)
      ⟨fun h => absurd h.1 hty, fun h => absurd h.1 hty⟩
  · exact opFilStep_atomic_iff hdel hfresh hfile hwf
  · refine iff_of_true (atomic_undone rfl (undone_refl s)) ⟨fun h => absurd h.1 hfile, fun h => absurd h.1 hfile⟩

/-- One device of the given class and driver, no node and no handle. -/
def oneDevice (type : Nat) (drv : Dipfun) (st : Rfs.St) : Sys where
  dtlType := id
  dtlList := fun t => if t = type then [1] else []
  dev := fun _ => ⟨⟨type, 0, 0⟩, some fun _ => drv, 0, st⟩
  node := fun _ => none
  tdHandtbl := fun _ => none

/-- The file `/f` is made and opened. -/
theorem open_existing_atomic : ∃ st x, Rfs.rfsFmat Rfs.ramDev = .ok st ∧
    Trace Rfs.AnyStep (Rfs.start st) [(.new (Rfs.letter 102), .ok)] x ∧
    ∃ r, krlsveCoreOpen (oneDevice filesysDevice .rfsOpen x.st)
      (fun i => if i = 0 then 47 else if i = 1 then 102 else 0) 0
      ⟨some 2, true⟩ = .ok r ∧ Atomic (oneDevice filesysDevice .rfsOpen x.st) 0 r := by
  obtain ⟨st, x, hfmat, hrun, hfile⟩ := Rfs.exists_run [(.new (Rfs.letter 102), .ok)]
    (fun x => Rfs.files x.st.blk (Rfs.pathName (Rfs.letter 102)) ≠ none) (by decide +kernel)
  have hany := Rfs.any_of_ok hrun
  have hx : Rfs.Sound True x := Rfs.sound_of_run Rfs.sized_ramDev (fun _ _ => rfl) hfmat hany
  refine ⟨st, x, hfmat, hany, (krlsveCoreOpen_atomic_iff _ _ _ _ rfl (fun _ _ => rfl) fun _ _ => hx.wf).mpr ⟨?_, ?_⟩⟩
  · exact fun _ _ _ _ => ⟨by decide +kernel, hfile, fun n _ => hx.krl trivial n⟩
  · exact fun h => absurd h.2 (by decide)

/-- On a new file system the file `/f` is opened, and the system halts. -/
theorem open_missing_dies :
    ∃ st, Rfs.rfsFmat Rfs.ramDev = .ok st ∧ Rfs.files st.blk [102] = none ∧
      krlsveCoreOpen (oneDevice filesysDevice .rfsOpen st) (fun i => if i = 0 then 47 else if i = 1 then 102 else 0) 0
        ⟨some 2, true⟩ = .error "open sve die^^^^^^" := by
  have hrun : Except.map (fun st => decide (Rfs.files st.blk [102] = none ∧
      Except.map (fun _ => ()) (krlsveCoreOpen (oneDevice filesysDevice .rfsOpen st)
        (fun i => if i = 0 then 47 else if i = 1 then 102 else 0) 0 ⟨some 2, true⟩) =
        .error "open sve die^^^^^^")) (Rfs.rfsFmat Rfs.ramDev) = .ok true := by
    decide +kernel
  obtain ⟨st, hfmat, hdecide⟩ := exists_of_map hrun
  obtain ⟨hnone, hdies⟩ := of_decide_eq_true hdecide
  refine ⟨st, hfmat, hnone, ?_⟩
  cases hopen : krlsveCoreOpen (oneDevice filesysDevice .rfsOpen st)
      (fun i => if i = 0 then 47 else if i = 1 then 102 else 0) 0 ⟨some 2, true⟩ with
  | error e =>
    rw [hopen] at hdies
    exact congrArg Except.error (Except.error.inj hdies)
  | ok r =>
    rw [hopen] at hdies
    cases hdies

end Cosmos.Sve
