import Cosmos.Lib.Nodes
import Cosmos.Lib.Word

/-!
# Virtual address intervals of a process (`kernel/krlvadrsmem.c`)

A process's address space keeps its intervals on the list `vs_list`; `vma_new_vadrs` extends an interval or
links a new one behind it, `vma_del_vadrs` deletes, trims or splits the interval that contains the range.
A descriptor's address stands for the pointer to it. `new_kmvarsdsc` is the caller's: where the code asks for
a descriptor the functions here take its answer (`none` when the object allocator has no memory).

`vmaDelVadrsCore` returns, beside the interval list, the calls it makes on the page tables and on the page
box: the range it unmaps with the box of the interval, and the box it counts or puts.
-/

namespace Cosmos.Vma

open Cosmos.Lib

def userVirtualAddressStart : Nat := 0
def userVirtualAddressEnd : Nat := 0x00007fffffffffff
def threadHeapadrStart : Nat := 0x100000000

def kmvHeapType : Nat := 8
def kmvStackType : Nat := 16
def kmvBinType : Nat := 64

def vadszAlign (x : Nat) : Nat := alignUp x 0x1000

/-- `kmvarsdsc_t`, at the address `kvaAdr`. -/
structure Kmvarsdsc where
  kvaAdr : Nat
  kvaStart : Nat
  kvaEnd : Nat
  kvaLimits : Nat
  kvaMaptype : Nat
  kvaKvmbox : Option Nat
  deriving DecidableEq, Repr

structure Virmemadrs where
  vsList : List Kmvarsdsc
  vsKmvdscnr : Nat
  vsStartkmvdsc : Option Nat
  vsEndkmvdsc : Option Nat
  vsCurrkmvdsc : Option Nat
  vsHeapkmvdsc : Option Nat
  vsStackkmvdsc : Option Nat
  vsIsalcstart : Nat
  vsIsalcend : Nat
  deriving DecidableEq, Repr

def virmemadrsTInit : Virmemadrs := ⟨[], 0, none, none, none, none, none, 0, 0⟩

def kmvarsdscTInit (adr : Nat) : Kmvarsdsc := ⟨adr, 0, 0, 0, 0, none⟩

/-- `kvma_inituserspace_virmemadrs`: the text, heap and stack intervals of a new process. The three
arguments are the answers of `new_kmvarsdsc`. -/
def kvmaInituserspaceVirmemadrs (vma : Virmemadrs) (kmvdc heapkmvdc stackkmvdc : Option Nat) :
    Bool × Virmemadrs :=
  match kmvdc, heapkmvdc, stackkmvdc with
  | some kmvdc, some heapkmvdc, some stackkmvdc =>
    let text := { kmvarsdscTInit kmvdc with
      kvaStart := userVirtualAddressStart + 0x1000
      kvaEnd := userVirtualAddressStart + 0x1000 + 0x4000 }
    let heap := { kmvarsdscTInit heapkmvdc with
      kvaStart := threadHeapadrStart
      kvaEnd := threadHeapadrStart + 0x1000
      kvaMaptype := kmvHeapType }
    let stack := { kmvarsdscTInit stackkmvdc with
      kvaStart := alignUp (userVirtualAddressEnd - 0x40000000) 0x1000
      kvaEnd := userVirtualAddressEnd
      kvaMaptype := kmvStackType }
    (true, { vma with
      vsIsalcstart := userVirtualAddressStart
      vsIsalcend := userVirtualAddressEnd
      vsStartkmvdsc := some kmvdc
      vsEndkmvdsc := some stackkmvdc
      vsHeapkmvdsc := some heapkmvdc
      vsStackkmvdsc := some stackkmvdc
      vsList := vma.vsList ++ [text, heap, stack]
      vsKmvdscnr := u64 (vma.vsKmvdscnr + 3) })
  | _, _, _ => (false, vma)

/-- The descriptor a pointer names, read through the list it is linked on. -/
def Virmemadrs.kmvd? (vma : Virmemadrs) (p : Option Nat) : Option Kmvarsdsc :=
  p.bind fun adr => Nodes.get? Kmvarsdsc.kvaAdr adr vma.vsList

/-! ### Allocation -/

/-- `vma_find_kmvarsdsc_is_ok`: the gap behind `curr` takes the range. -/
def vmaFindKmvarsdscIsOk (vma : Virmemadrs) (curr : Kmvarsdsc) (start vassize : Nat) :
    Option Kmvarsdsc :=
  let newend := u64 (start + vassize)
  match Nodes.next? Kmvarsdsc.kvaAdr curr.kvaAdr vma.vsList with
  | some nextkmvd =>
    if start = 0 then
      if u64 (curr.kvaEnd + vassize) ≤ nextkmvd.kvaStart then some curr else none
    else
      if curr.kvaEnd ≤ start ∧ newend ≤ nextkmvd.kvaStart then some curr else none
  | none =>
    if start = 0 then
      if u64 (curr.kvaEnd + vassize) < vma.vsIsalcend then some curr else none
    else
      if curr.kvaEnd ≤ start ∧ newend < vma.vsIsalcend then some curr else none

/-- The test of an interval's limits and type that both the cached interval and the first walk make. -/
def sameAttr (vaslimits vastype : Nat) (kmvd : Kmvarsdsc) : Bool :=
  decide (vaslimits = kmvd.kvaLimits ∧ vastype = kmvd.kvaMaptype)

/-- The cached interval, when the range fits behind it and the attributes agree. -/
def vmaFindCurr (vma : Virmemadrs) (start vassize vaslimits vastype : Nat) : Option Kmvarsdsc :=
  (vma.kmvd? vma.vsCurrkmvdsc).bind fun curr =>
    (vmaFindKmvarsdscIsOk vma curr start vassize).filter (sameAttr vaslimits vastype)

/-- `vma_find_kmvarsdsc`: the cached interval, then the intervals with the same attributes, then any. -/
def vmaFindKmvarsdsc (vma : Virmemadrs) (start vassize vaslimits vastype : Nat) : Option Kmvarsdsc :=
  let newend := u64 (start + vassize)
  if vassize < 0x1000 then none
  else if vma.vsIsalcend < newend then none
  else
    (vmaFindCurr vma start vassize vaslimits vastype).or <|
      (vma.vsList.findSome? fun curr =>
        if sameAttr vaslimits vastype curr then vmaFindKmvarsdscIsOk vma curr start vassize else none).or <|
      vma.vsList.findSome? fun curr => vmaFindKmvarsdscIsOk vma curr start vassize

/-- Where the range goes: behind `currkmvd` when the caller leaves the address open. -/
def newStart (start : Nat) (currkmvd : Kmvarsdsc) : Nat := if start = 0 then currkmvd.kvaEnd else start

def newKmvd (adr kvaStart vassize vaslimits vastype : Nat) : Kmvarsdsc :=
  { kmvarsdscTInit adr with
    kvaStart := kvaStart
    kvaEnd := u64 (kvaStart + vassize)
    kvaLimits := vaslimits
    kvaMaptype := vastype }

/-- `vma_new_vadrs_core`; `newkmvd` is the answer of `new_kmvarsdsc`. -/
def vmaNewVadrsCore (vma : Virmemadrs) (start vassize vaslimits vastype : Nat) (newkmvd : Option Nat) :
    Nat × Virmemadrs :=
  match vmaFindKmvarsdsc vma start vassize vaslimits vastype with
  | none => (0, vma)
  | some currkmvd =>
    if (start = 0 ∨ start = currkmvd.kvaEnd) ∧ vaslimits = currkmvd.kvaLimits ∧
        vastype = currkmvd.kvaMaptype then
      (currkmvd.kvaEnd, { vma with
        vsList := Nodes.modify Kmvarsdsc.kvaAdr currkmvd.kvaAdr
          (fun kmvd => { kmvd with kvaEnd := u64 (kmvd.kvaEnd + vassize) }) vma.vsList
        vsCurrkmvdsc := some currkmvd.kvaAdr })
    else
      match newkmvd with
      | none => (0, vma)
      | some adr =>
        let kvaStart := newStart start currkmvd
        let vsList := Nodes.insertAfter Kmvarsdsc.kvaAdr currkmvd.kvaAdr
          (newKmvd adr kvaStart vassize vaslimits vastype) vma.vsList
        (kvaStart, { vma with
          vsList := vsList
          vsCurrkmvdsc := some adr
          vsEndkmvdsc :=
            if (Nodes.next? Kmvarsdsc.kvaAdr adr vsList).isNone then some adr else vma.vsEndkmvdsc })

def vmaNewVadrs (vma : Virmemadrs) (start vassize vaslimits vastype : Nat) (newkmvd : Option Nat) :
    Nat × Virmemadrs :=
  if vassize < 1 then (0, vma)
  else if start ≠ 0 ∧ (start % 0x1000 ≠ 0 ∨ start < 0x1000 ∨
      userVirtualAddressEnd < u64 (start + vassize)) then (0, vma)
  else vmaNewVadrsCore vma start (vadszAlign vassize) vaslimits vastype newkmvd

/-! ### Deletion -/

/-- The test `vma_del_find_kmvarsdsc` makes of an interval. -/
def delInside (start newend : Nat) (kmvd : Kmvarsdsc) : Bool :=
  decide (kmvd.kvaStart ≤ start ∧ newend ≤ kmvd.kvaEnd)

def vmaDelFindKmvarsdsc (vma : Virmemadrs) (start vassize : Nat) : Option Kmvarsdsc :=
  let newend := u64 (start + vassize)
  if vassize < 0x1000 then none
  else
    ((vma.kmvd? vma.vsCurrkmvdsc).filter (delInside start newend)).or <|
      vma.vsList.find? (delInside start newend)

/-- `vma_del_set_endcurrkmvd`: the cached pointers move off the descriptor about to be unlinked. -/
def vmaDelSetEndcurrkmvd (vma : Virmemadrs) (del : Kmvarsdsc) : Virmemadrs :=
  match Nodes.next? Kmvarsdsc.kvaAdr del.kvaAdr vma.vsList with
  | none =>
    let prevkmvd := (Nodes.prev? Kmvarsdsc.kvaAdr del.kvaAdr vma.vsList).map Kmvarsdsc.kvaAdr
    { vma with vsEndkmvdsc := prevkmvd, vsCurrkmvdsc := prevkmvd }
  | some nextkmvd => { vma with vsCurrkmvdsc := some nextkmvd.kvaAdr }

/-- What `vma_del_vadrs_core` leaves: its answer, the interval list, and the calls it makes. -/
structure DelOut where
  rets : Bool
  vma : Virmemadrs
  /-- `vma_del_unmapping`: the interval's page box, the start and the size. -/
  unmap : Option (Option Nat × Nat × Nat)
  /-- `knl_put_kvmemcbox`. -/
  put : Option Nat
  /-- `knl_count_kvmemcbox`. -/
  count : Option Nat

/-- The descriptor of the part behind a hole that ends at `newend`; it shares the page box. -/
def tailKmvd (adr newend : Nat) (delkmvd : Kmvarsdsc) : Kmvarsdsc :=
  { kmvarsdscTInit adr with
    kvaStart := newend
    kvaEnd := delkmvd.kvaEnd
    kvaLimits := delkmvd.kvaLimits
    kvaMaptype := delkmvd.kvaMaptype
    kvaKvmbox := delkmvd.kvaKvmbox }

/-- `vma_del_vadrs_core`; `newkmvd` is the answer of `new_kmvarsdsc`. -/
def vmaDelVadrsCore (vma : Virmemadrs) (start vassize : Nat) (newkmvd : Option Nat) : DelOut :=
  let newend := u64 (start + vassize)
  match vmaDelFindKmvarsdsc vma start vassize with
  | none => ⟨false, vma, none, none, none⟩
  | some delkmvd =>
    let unmap := some (delkmvd.kvaKvmbox, start, vassize)
    if delkmvd.kvaStart = start ∧ delkmvd.kvaEnd = newend then
      let vma := vmaDelSetEndcurrkmvd vma delkmvd
      ⟨true, { vma with
        vsList := Nodes.remove Kmvarsdsc.kvaAdr delkmvd.kvaAdr vma.vsList
        vsKmvdscnr := u64Sub vma.vsKmvdscnr 1 }, unmap, delkmvd.kvaKvmbox, none⟩
    else if delkmvd.kvaStart = start ∧ newend < delkmvd.kvaEnd then
      ⟨true, { vma with
        vsList := Nodes.modify Kmvarsdsc.kvaAdr delkmvd.kvaAdr
          (fun kmvd => { kmvd with kvaStart := newend }) vma.vsList }, unmap, none, none⟩
    else if delkmvd.kvaStart < start ∧ delkmvd.kvaEnd = newend then
      ⟨true, { vma with
        vsList := Nodes.modify Kmvarsdsc.kvaAdr delkmvd.kvaAdr
          (fun kmvd => { kmvd with kvaEnd := start }) vma.vsList }, unmap, none, none⟩
    else if delkmvd.kvaStart < start ∧ newend < delkmvd.kvaEnd then
      match newkmvd with
      | none => ⟨false, vma, none, none, none⟩
      | some adr =>
        let vsList := Nodes.insertAfter Kmvarsdsc.kvaAdr delkmvd.kvaAdr (tailKmvd adr newend delkmvd)
          (Nodes.modify Kmvarsdsc.kvaAdr delkmvd.kvaAdr (fun kmvd => { kmvd with kvaEnd := start }) vma.vsList)
        ⟨true, { vma with
          vsList := vsList
          vsKmvdscnr := u64 (vma.vsKmvdscnr + 1)
          vsEndkmvdsc :=
            if (Nodes.next? Kmvarsdsc.kvaAdr adr vsList).isNone then some adr else vma.vsEndkmvdsc
          vsCurrkmvdsc := some adr }, unmap, none, delkmvd.kvaKvmbox⟩
    else ⟨false, vma, none, none, none⟩

def vmaDelVadrs (vma : Virmemadrs) (start vassize : Nat) (newkmvd : Option Nat) : DelOut :=
  if vassize < 1 ∨ start = 0 then ⟨false, vma, none, none, none⟩
  else vmaDelVadrsCore vma start (vadszAlign vassize) newkmvd

end Cosmos.Vma
