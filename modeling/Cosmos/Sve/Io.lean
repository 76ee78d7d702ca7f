import Cosmos.Drv.Uart
import Cosmos.Sve.Open

/-!
# The read, write and close system calls (`kernel/krlsveread.c`, `krlsvewrite.c`, `krlsveclose.c`)

The calls find the object node of a handle, put the request into it and hand it to the device's driver; a close that
the driver accepts frees the slot and the node. `Driver` is what a driver may do with a request: anything to the device
and to the memory of the caller, nothing to the handle table and the nodes.

A handle that `open` returned for a device `Holds` its node, and every request through it reaches the driver
(`krlsveCoreRequest_of_holds`); a close that succeeds gives the slot back (`krlsveClose_of_holds`).
-/

namespace Cosmos.Sve

open Cosmos.Lib Function

/-! ### Data -/

/-- What a driver finds in the object node, by `on_opercode`. -/
inductive Request where
  | close
  | read (onBuf onLen onAcsflgs : Nat)
  | write (onBuf onLen onAcsflgs : Nat)

def ioifCodeClose : Int := 1
def ioifCodeRead : Int := 2
def ioifCodeWrite : Int := 3

def Request.store (n : Objnode) : Request → Objnode
  | .close => { n with onOpercode := ioifCodeClose }
  | .read _ _ flgs => { n with onOpercode := ioifCodeRead, onAcsflgs := flgs }
  | .write _ _ flgs => { n with onOpercode := ioifCodeWrite, onAcsflgs := flgs }

/-- The kernel, the memory of the calling process, the keyboard, what `gstr_write` was handed, and how many bytes of
the process the formatter has read. -/
structure Machine where
  sys : Sys
  mem : Nat → UInt8
  kbd : Drv.Kboard
  shown : List (List UInt8)
  reads : Nat

/-- What stands in `drv_dipfun` for these requests. -/
structure Driver where
  io : Machine → Nat → Request → Halt (Bool × Machine)
  tbl : ∀ {m devp q r}, io m devp q = .ok r → r.2.sys.tdHandtbl = m.sys.tdHandtbl
  node : ∀ {m devp q r}, io m devp q = .ok r → r.2.sys.node = m.sys.node

/-! ### The calls -/

def krlthdRetnObjnode (s : Sys) (hand : Int) : Option Nat :=
  if h : (tdHandMax : Int) ≤ hand ∨ hand ≤ noHand then none else s.tdHandtbl ⟨hand.toNat, toNat_lt_tdHandMax h⟩

/-- `krlsve_read_device`, `krlsve_write_device` and `krlsve_close_device`, with `krldev_io`. -/
def krlsveDevice (d : Driver) (m : Machine) (n : Objnode) (q : Request) : Halt (Int × Machine) :=
  match n.onObjadr with
  | none => .ok (sysstuserr, m)
  | some devp => d.io m devp q >>= fun r => .ok (if r.1 = false then sysstuserr else sysstusok, r.2)

/-- `krlsve_core_read`, `krlsve_core_write`, and the first half of `krlsve_core_close`. -/
def krlsveCoreRequest (d : Driver) (m : Machine) (fhand : Int) (q : Request) : Halt (Int × Machine) :=
  match krlthdRetnObjnode m.sys fhand with
  | none => .ok (sysstuserr, m)
  | some onp =>
    match m.sys.node onp with
    | none => .error "the node was freed"
    | some n =>
      if n.onObjtype = .dev ∨ n.onObjtype = .fil then
        krlsveDevice d { m with sys := m.sys.setNode onp (some (q.store n)) } n q
      else .ok (sysstuserr, m)

def krlsveRead (d : Driver) (m : Machine) (fhand : Int) (buf len flgs : Nat) : Halt (Int × Machine) :=
  if fhand = noHand ∨ buf = 0 ∨ len < 1 then .ok (sysstuserr, m)
  else krlsveCoreRequest d m fhand (.read buf len flgs)

def krlsveWrite (d : Driver) (m : Machine) (fhand : Int) (buf len flgs : Nat) : Halt (Int × Machine) :=
  if fhand ≤ noHand ∨ (tdHandMax : Int) ≤ fhand ∨ buf = 0 ∨ len = 0 then .ok (sysstuserr, m)
  else krlsveCoreRequest d m fhand (.write buf len flgs)

/-- The second half of `krlsve_core_close`. -/
def closeStep (m : Machine) (fhand : Int) (ondp : Nat) (a : Ans) : Halt (Int × Machine) :=
  let del := krlthdDelObjnode m.sys fhand
  if del.1 = noHand then .error "close api td del objnode err"
  else
    krldelObjnode del.2 ondp a >>= fun r =>
      if r.1 = false then .error "close api del objnode err" else .ok (sysstusok, { m with sys := r.2 })

def krlsveCoreClose (d : Driver) (m : Machine) (fhand : Int) (a : Ans) : Halt (Int × Machine) :=
  match krlthdRetnObjnode m.sys fhand with
  | none => .ok (sysstuserr, m)
  | some ondp =>
    krlsveCoreRequest d m fhand .close >>= fun r =>
      if r.1 = sysstuserr then .ok (sysstuserr, r.2) else closeStep r.2 fhand ondp a

def krlsveClose (d : Driver) (m : Machine) (fhand : Int) (a : Ans) : Halt (Int × Machine) :=
  if fhand < 0 ∨ (tdHandMax : Int) ≤ fhand then .ok (sysstuserr, m) else krlsveCoreClose d m fhand a

/-! ### Requests through an open handle -/

/-- The handle stands for the node of an open device. -/
structure Holds (s : Sys) (hand : Fin tdHandMax) (ondp devp : Nat) : Prop where
  tbl : s.tdHandtbl hand = some ondp
  node : ∃ n, s.node ondp = some n ∧ n.onObjtype = .dev ∧ n.onObjadr = some devp

variable {d : Driver} {m : Machine} {hand : Fin tdHandMax} {ondp devp buf len flgs : Nat} {q : Request} {a : Ans}

theorem krlthdRetnObjnode_hand (s : Sys) (hand : Fin tdHandMax) : krlthdRetnObjnode s hand.val = s.tdHandtbl hand := by
  have hlt := hand.isLt
  rw [krlthdRetnObjnode, dif_neg (by unfold noHand; omega)]
  simp only [Int.toNat_natCast, Fin.eta]

def Machine.requested (m : Machine) (onp : Nat) (n : Objnode) (q : Request) : Machine :=
  { m with sys := m.sys.setNode onp (some (q.store n)) }

theorem Request.store_onObjtype (n : Objnode) (q : Request) : (q.store n).onObjtype = n.onObjtype := by cases q <;> rfl

theorem Request.store_onObjadr (n : Objnode) (q : Request) : (q.store n).onObjadr = n.onObjadr := by cases q <;> rfl

/-- **A request through an open handle is the driver's**: the call answers what the driver answers. -/
theorem krlsveCoreRequest_of_holds (h : Holds m.sys hand ondp devp) :
    ∃ n, Holds (m.requested ondp n q).sys hand ondp devp ∧ krlsveCoreRequest d m hand.val q =
      (d.io (m.requested ondp n q) devp q >>= fun r => .ok (if r.1 = false then sysstuserr else sysstusok, r.2)) := by
  obtain ⟨n, hnode, htype, hadr⟩ := h.node
  refine ⟨n, ⟨h.tbl, q.store n, ?_, ?_, ?_⟩, ?_⟩
  · exact update_self ..
  · rw [Request.store_onObjtype, htype]
  · rw [Request.store_onObjadr, hadr]
  · simp only [krlsveCoreRequest, krlthdRetnObjnode_hand, h.tbl, hnode, htype, true_or, if_true, krlsveDevice, hadr]
    rfl

theorem request_of_holds {r : Int × Machine} (h : Holds m.sys hand ondp devp)
    (hr : krlsveCoreRequest d m hand.val q = .ok r) :
    (r.1 = sysstusok ∨ r.1 = sysstuserr) ∧ r.2.sys.tdHandtbl = m.sys.tdHandtbl ∧ Holds r.2.sys hand ondp devp := by
  obtain ⟨n, hholds, hreq⟩ := krlsveCoreRequest_of_holds (d := d) (q := q) h
  obtain ⟨x, hio, hx⟩ := Halt.bind_eq_ok (hreq.symm.trans hr)
  cases hx
  have htbl := d.tbl hio
  have hnode := d.node hio
  refine ⟨?_, htbl, htbl ▸ hholds.tbl, hnode ▸ hholds.node⟩
  dsimp only
  split
  · exact .inr rfl
  · exact .inl rfl

theorem krlsveWrite_hand (hbuf : buf ≠ 0) (hlen : len ≠ 0) :
    krlsveWrite d m hand.val buf len flgs = krlsveCoreRequest d m hand.val (.write buf len flgs) := by
  have hlt := hand.isLt
  refine if_neg ?_
  unfold noHand
  omega

theorem krlsveClose_hand (h : Holds m.sys hand ondp devp) :
    krlsveClose d m hand.val a = (krlsveCoreRequest d m hand.val .close >>= fun r =>
      if r.1 = sysstuserr then .ok (sysstuserr, r.2) else closeStep r.2 hand.val ondp a) := by
  have hlt := hand.isLt
  rw [krlsveClose, if_neg (by omega), krlsveCoreClose, krlthdRetnObjnode_hand, h.tbl]

def Machine.freed (m : Machine) (hand : Fin tdHandMax) (ondp : Nat) : Machine :=
  { m with sys := (m.sys.setHand hand none).setNode ondp none }

theorem closeStep_hand (hslot : m.sys.tdHandtbl hand = some ondp) :
    closeStep m hand.val ondp a =
      if a.del = false then .error "krldel_objnode err" else .ok (sysstusok, m.freed hand ondp) := by
  simp only [closeStep, krlthdDelObjnode_of_some hslot, if_neg (hand_ne_noHand hand), krldelObjnode]
  split_ifs <;> rfl

theorem krlsveClose_of_holds {r : Int × Machine} (h : Holds m.sys hand ondp devp)
    (hr : krlsveClose d m hand.val a = .ok r) :
    r.1 = sysstusok ∧ r.2.sys.tdHandtbl = update m.sys.tdHandtbl hand none ∨
      r.1 = sysstuserr ∧ r.2.sys.tdHandtbl = m.sys.tdHandtbl := by
  rw [krlsveClose_hand h] at hr
  obtain ⟨x, hreq, hx⟩ := Halt.bind_eq_ok hr
  obtain ⟨-, htbl, hholds⟩ := request_of_holds h hreq
  rw [closeStep_hand hholds.tbl] at hx
  split_ifs at hx
  · cases hx
    exact .inr ⟨rfl, htbl⟩
  · cases hx
    refine .inl ⟨rfl, ?_⟩
    show update x.2.sys.tdHandtbl hand none = _
    rw [htbl]

/-! ### Opening a device -/

/-- A device's driver is not asked for a file, so it answers, and it leaves the nodes. -/
theorem krlsveOpenDevice_devNode {s : Sys} (hnode : s.node ondp = some (devNode devp)) :
    ∃ r, krlsveOpenDevice s ondp = .ok r ∧ r.2.tdHandtbl = s.tdHandtbl ∧ r.2.node = s.node := by
  have hcall : ∃ x, krldevCallDriver s devp ioifCodeOpen ondp (devNode devp) = .ok x ∧
      x.2.tdHandtbl = s.tdHandtbl ∧ x.2.node = s.node := by
    have hcount : (krldevIncDevcount s devp).2.tdHandtbl = s.tdHandtbl ∧ (krldevIncDevcount s devp).2.node =
        s.node := by
      unfold krldevIncDevcount
      split <;> exact ⟨rfl, rfl⟩
    rw [krldevCallDriver, if_neg (by decide)]
    cases (s.dev devp).devDrv with
    | none => exact ⟨_, rfl, rfl, rfl⟩
    | some drv =>
      dsimp only
      cases drv ioifCodeOpen with
      -- a device's node asks the file system neither for a new file nor for one that should exist
      | rfsOpen => exact ⟨(false, s), rfl, rfl, rfl⟩
      | systickOpen => exact ⟨_, rfl, hcount⟩
      | uartOpen => exact ⟨_, rfl, hcount⟩
      | drvDefaltFunc => exact ⟨_, rfl, rfl, rfl⟩
  obtain ⟨x, hx, hkeeps⟩ := hcall
  refine ⟨(if x.1 = false then sysstuserr else sysstusok, x.2), ?_, hkeeps⟩
  rw [krlsveOpenDevice, hnode]
  exact Halt.bind_of_ok hx _

/-- The device was opened: its handle stands in a slot that was free, and its driver was asked. -/
structure OpenedDevice (s : Sys) (didp : Devid) (r : Int × Sys) (hand : Fin tdHandMax) (ondp devp : Nat) : Prop where
  fd : r.1 = hand.val
  free : s.tdHandtbl hand = none
  tbl : r.2.tdHandtbl = update s.tdHandtbl hand (some ondp)
  found : krlonidflRetnDevice s didp = some devp
  holds : Holds r.2 hand ondp devp
  asked : ∃ s₁ st, s₁.dev = s.dev ∧ s₁.node ondp = some (devNode devp) ∧ krlsveOpenDevice s₁ ondp = .ok (st, r.2) ∧
    st ≠ sysstuserr

theorem del_of_resStep {s : Sys} {rethd : Int} {r : Int × Sys} (h : resStep s ondp rethd a = .ok r) : a.del = true := by
  unfold resStep krldelObjnode at h
  dsimp only at h
  by_contra hdel
  rw [if_pos (Bool.eq_false_iff.mpr hdel)] at h
  split_ifs at h
  cases h

/-- **Opening a device that returns**: a handle for it in a slot that was free, or none and the handle table as it
was. -/
theorem opDevStep_cases {s : Sys} {file : Nat → UInt8} {r : Int × Sys} (h : opDevStep s file a = .ok r) :
    r.1 = noHand ∧ r.2.tdHandtbl = s.tdHandtbl ∨
      ∃ hand ondp devp, OpenedDevice s (devidAt file) r hand ondp devp := by
  unfold opDevStep at h
  cases hdev : krlonidflRetnDevice s (devidAt file) with
  | none =>
    rw [hdev] at h
    cases h
    exact .inl ⟨rfl, rfl⟩
  | some devp =>
    rw [hdev] at h
    cases hnew : a.new with
    | none =>
      simp only [krlnewObjnode, hnew, Option.map_none] at h
      cases h
      exact .inl ⟨rfl, rfl⟩
    | some ondp =>
      simp only [krlnewObjnode, hnew, Option.map_some, setNode_setNode] at h
      cases hnull : s.nullhand with
      | none =>
        rw [krlthdAddObjnode_of_none _ hnull, if_pos rfl] at h
        rw [resStep_noHand (del_of_resStep h)] at h
        cases h
        exact .inl ⟨rfl, rfl⟩
      | some hand =>
        have hfree := Sys.nullhand_some hnull
        rw [krlthdAddObjnode_of_some _ hnull, if_neg (hand_ne_noHand hand)] at h
        have hnode : ((s.setNode ondp (some (devNode devp))).setHand hand (some ondp)).node ondp =
            some (devNode devp) := by
          simp [Sys.setHand, Sys.setNode]
        obtain ⟨x, hx, htbl, hnodes⟩ := krlsveOpenDevice_devNode hnode
        have hslot : x.2.tdHandtbl = update s.tdHandtbl hand (some ondp) := htbl
        rw [Halt.bind_of_ok hx] at h
        split_ifs at h with hok
        · -- the driver refused, and the slot is given back
          rw [resStep_hand (del_of_resStep h) (by rw [hslot]; exact update_self ..)] at h
          cases h
          refine .inl ⟨rfl, ?_⟩
          show update x.2.tdHandtbl hand none = s.tdHandtbl
          rw [hslot, update_idem, ← hfree, update_eq_self]
        · cases h
          refine .inr ⟨hand, ondp, devp, rfl, hfree, hslot, hdev, ⟨?_, devNode devp, ?_, rfl, rfl⟩,
            (s.setNode ondp (some (devNode devp))).setHand hand (some ondp), x.1, rfl, hnode, hx, hok⟩
          · rw [hslot]
            exact update_self ..
          · rw [hnodes, hnode]

end Cosmos.Sve
