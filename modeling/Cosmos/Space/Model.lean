import Cosmos.Lib.Bytes
import Cosmos.Mmu.Map
import Cosmos.Vma.Model

/-!
# Address spaces: intervals, page boxes and page tables together (`kernel/krlvadrsmem.c`)

The interval list, the page tables, the page boxes and the page allocator are four structures that the calls on an
address space update one after another. A page fault (`vma_map_fairvadrs`) finds the interval, gets it a page box if
it has none, takes a page from the allocator, hangs it on the box and enters it in the tables; in the program's own
interval it also copies a page of the program file. `vma_del_vadrs` unmaps its range page by page and frees each
frame through the box of the interval. A box is shared by the two parts of a split interval, counts its intervals,
and goes to a cache when none is left.

Address spaces are numbered; a box is its address. `new_kvmemcbox` and `new_kmvarsdsc` are the caller's, as in the
model of the intervals.
-/

namespace Cosmos.Space

open Cosmos.Lib Cosmos.Page Cosmos.Mmu Cosmos.Vma Function

def enomem : Int := 12
def efault : Int := 14
def eparam : Int := 39

def vmapMinSize : Nat := 0x1000

def kmboxCacheMax : Nat := 0x1000

/-- `kvmemcbox_t`: the number of intervals that use the box and its pages, by their descriptors. -/
@[ext] structure Kvmemcbox where
  kmbCont : Int
  kmbMsanr : Nat
  kmbMsalist : List Nat
  deriving DecidableEq, Repr

def kvmemcboxTInit : Kvmemcbox := ⟨0, 0, []⟩

/-- `kvmemcboxmgr_t`: the boxes in use and those kept for reuse. -/
structure Kvmemcboxmgr where
  kbmKmbhead : List Nat
  kbmCachenr : Nat
  kbmCachemax : Nat
  kbmCachehead : List Nat
  deriving DecidableEq, Repr

def kvmemcboxmgrTInit : Kvmemcboxmgr := ⟨[], 0, kmboxCacheMax, []⟩

/-- `mmadrsdsc_t`. `msdThread` is what `get_file_rvadrandsz` answers for the program of the space's thread: the
kernel's address of the file and its length, both `0` if there is no such file. -/
structure Mmadrsdsc where
  msdMmu : Mmudsc
  msdVirmemadrs : Virmemadrs
  msdThread : Option (Nat × Nat)

/-- The address spaces, the boxes, the page allocator and the physical memory. -/
structure Sys (A : PageAlloc) where
  mm : Nat → Mmadrsdsc
  mmnr : Nat
  box : Nat → Kvmemcbox
  mgr : Kvmemcboxmgr
  alc : A.State
  mem : Nat → Nat → Nat

variable {A : PageAlloc}

namespace Sys

/-- The tables of space `i`, as the functions of `halmmu.c` see them. -/
def st (s : Sys A) (i : Nat) : St A := ⟨(s.mm i).msdMmu, s.alc, s.mem⟩

def vma (s : Sys A) (i : Nat) : Virmemadrs := (s.mm i).msdVirmemadrs

def setSt (s : Sys A) (i : Nat) (st : St A) : Sys A :=
  { s with mm := update s.mm i { s.mm i with msdMmu := st.mmu }, alc := st.alc, mem := st.mem }

def setVma (s : Sys A) (i : Nat) (vma : Virmemadrs) : Sys A :=
  { s with mm := update s.mm i { s.mm i with msdVirmemadrs := vma } }

def setBox (s : Sys A) (b : Nat) (kmbox : Kvmemcbox) : Sys A := { s with box := update s.box b kmbox }

end Sys

/-! ### Page boxes -/

def knlCountKvmemcbox (s : Sys A) : Option Nat → Sys A
  | none => s
  | some kmbox => s.setBox kmbox { s.box kmbox with kmbCont := (s.box kmbox).kmbCont + 1 }

/-- A box that `kvmemcbox_t_init` has just reset, linked and counted once. -/
def freshBox (s : Sys A) (kmb : Nat) (mgr : Kvmemcboxmgr) : Sys A :=
  { s.setBox kmb { kvmemcboxTInit with kmbCont := kvmemcboxTInit.kmbCont + 1 } with
    mgr := { mgr with kbmKmbhead := kmb :: mgr.kbmKmbhead } }

/-- `knl_get_kvmemcbox`: a cached box, else the one `new_kvmemcbox` answers. -/
def knlGetKvmemcbox (s : Sys A) (newkvmemcbox : Option Nat) : Halt (Nat × Sys A) :=
  match (if 0 < s.mgr.kbmCachenr then s.mgr.kbmCachehead else []) with
  | kmb :: cache =>
    .ok (kmb, freshBox s kmb { s.mgr with kbmCachehead := cache, kbmCachenr := s.mgr.kbmCachenr - 1 })
  | [] =>
    match newkvmemcbox with
    | none => .error "mem: knl_get_kvmemcbox() null\n"
    | some kmb => .ok (kmb, freshBox s kmb s.mgr)

/-- `knl_put_kvmemcbox`; its callers ignore the answer. -/
def knlPutKvmemcbox (s : Sys A) : Option Nat → Sys A
  | none => s
  | some kmbox =>
    let s := s.setBox kmbox { s.box kmbox with kmbCont := (s.box kmbox).kmbCont - 1 }
    if 1 ≤ (s.box kmbox).kmbCont then s
    else if s.mgr.kbmCachemax ≤ s.mgr.kbmCachenr then
      { s with mgr := { s.mgr with kbmKmbhead := s.mgr.kbmKmbhead.erase kmbox } }
    else
      { s with mgr := { s.mgr with
        kbmKmbhead := s.mgr.kbmKmbhead.erase kmbox
        kbmCachehead := kmbox :: s.mgr.kbmCachehead
        kbmCachenr := s.mgr.kbmCachenr + 1 } }

/-! ### User frames -/

/-- `vma_del_usermsa`: free the page at `phyadr`, which is `msa`'s or is searched on the box's list. -/
def vmaDelUsermsa (s : Sys A) (kmbox : Nat) (msa : Option Nat) (phyadr : Nat) : Halt (Bool × Sys A) :=
  if phyadr = 0 then .ok (false, s)
  else
    let isPage := fun msa => decide (A.msadscRetAddr s.alc msa = phyadr)
    match (msa.filter isPage).or ((s.box kmbox).kmbMsalist.find? isPage) with
    | none => .ok (false, s)
    | some delmsa =>
      let s := s.setBox kmbox { s.box kmbox with
        kmbMsalist := (s.box kmbox).kmbMsalist.erase delmsa
        kmbMsanr := u64Sub (s.box kmbox).kmbMsanr 1 }
      A.mmMergePages s.alc delmsa (A.onfrmsaRetnFpagenr s.alc delmsa) >>= fun ⟨rets, alc⟩ =>
        if rets then .ok (true, { s with alc := alc }) else .error "vma_del_usermsa err\n"

def vmaNewUsermsa (s : Sys A) (kmbox : Nat) : Halt (Option Nat × Sys A) :=
  A.mmDivpagesProcmarea s.alc 1 >>= fun ⟨r, alc⟩ =>
    match r with
    | none => .ok (none, { s with alc := alc })
    | some (msa, _) =>
      .ok (some msa, ({ s with alc := alc } : Sys A).setBox kmbox { s.box kmbox with
        kmbMsalist := msa :: (s.box kmbox).kmbMsalist
        kmbMsanr := u64 ((s.box kmbox).kmbMsanr + 1) })

/-! ### The page fault -/

/-- `vma_map_msa_fault`, which `vma_map_phyadrs` calls with the interval's box: the frame that was mapped, `0` for
none. -/
def vmaMapMsaFault (s : Sys A) (i kmbox vadrs flags : Nat) : Halt (Nat × Sys A) :=
  vmaNewUsermsa s kmbox >>= fun ⟨r, s⟩ =>
    match r with
    | none => .ok (0, s)
    | some usermsa =>
      let phyadrs := A.msadscRetAddr s.alc usermsa
      halMmuTransform (s.st i) vadrs phyadrs flags >>= fun ⟨rets, st⟩ =>
        let s := s.setSt i st
        if rets then .ok (phyadrs, s)
        else vmaDelUsermsa s kmbox (some usermsa) phyadrs >>= fun ⟨_, s⟩ => .ok (0, s)

def mapInside (vadrs : Nat) (kmvd : Kmvarsdsc) : Bool := decide (kmvd.kvaStart ≤ vadrs ∧ vadrs < kmvd.kvaEnd)

def vmaMapFindKmvarsdsc (vma : Virmemadrs) (vadrs : Nat) : Option Kmvarsdsc :=
  ((vma.kmvd? vma.vsCurrkmvdsc).filter (mapInside vadrs)).or (vma.vsList.find? (mapInside vadrs))

def attachBox (vma : Virmemadrs) (adr kmbox : Nat) : Virmemadrs :=
  { vma with
    vsList := Nodes.modify Kmvarsdsc.kvaAdr adr (fun kmvd => { kmvd with kvaKvmbox := some kmbox }) vma.vsList }

/-- `vma_map_retn_kvmemcbox`: the interval's box; an interval without one gets it here. -/
def vmaMapRetnKvmemcbox (s : Sys A) (i : Nat) (kmvd : Kmvarsdsc) (newkvmemcbox : Option Nat) : Halt (Nat × Sys A) :=
  match kmvd.kvaKvmbox with
  | some kmbox => .ok (kmbox, s)
  | none => knlGetKvmemcbox s newkvmemcbox >>= fun ⟨kmbox, s⟩ =>
      .ok (kmbox, s.setVma i (attachBox (s.vma i) kmvd.kvaAdr kmbox))

def imagePage (image : Nat → UInt8) (src : Nat) (j : Nat) : Nat := getWord image (src + 8 * j)

/-- `vma_full_textbin`: a page of the program file, copied to the page of `vadr` through the new mapping. The file's
offset is counted from the start of the interval. `image` is the kernel's memory that holds the boot image. -/
def vmaFullTextbin (image : Nat → UInt8) (s : Sys A) (i : Nat) (kmvd : Kmvarsdsc) (vadr : Nat) : Halt (Sys A) :=
  let vnr := (vadr - kmvd.kvaStart) / 0x1000
  if kmvd.kvaMaptype ≠ kmvBinType then .ok s
  else
    match (s.mm i).msdThread with
    | none => .error "vma_full_textbin td is null\n"
    | some (filevadr, filesize) =>
      if filevadr = 0 ∨ filesize = 0 then .error "vma_full_textbin file is null\n"
      else .ok { s with
        mem := update s.mem (lookup (s.st i) vadr) (imagePage image (u64 (filevadr + vnr * 0x1000))) }

/-- `vma_map_fairvadrs_core`. The answer `-ENOOBJ` is not reached: `knl_get_kvmemcbox` stops the machine first. -/
def vmaMapFairvadrsCore (image : Nat → UInt8) (s : Sys A) (i vadrs : Nat) (newkvmemcbox : Option Nat) :
    Halt (Int × Sys A) :=
  match vmaMapFindKmvarsdsc (s.vma i) vadrs with
  | none => .ok (-efault, s)
  | some kmvd =>
    vmaMapRetnKvmemcbox s i kmvd newkvmemcbox >>= fun ⟨kmbox, s⟩ =>
      vmaMapMsaFault s i kmbox vadrs (pml4eUs ||| pml4eRw ||| pml4eP) >>= fun ⟨phyadrs, s⟩ =>
        if phyadrs = 0 then .ok (-enomem, s)
        else vmaFullTextbin image s i kmvd vadrs >>= fun s => .ok (0, s)

def vmaMapFairvadrs (image : Nat → UInt8) (s : Sys A) (i vadrs : Nat) (newkvmemcbox : Option Nat) :
    Halt (Int × Sys A) :=
  if vadrs < 0x1000 ∨ userVirtualAddressEnd < vadrs then .ok (-eparam, s)
  else vmaMapFairvadrsCore image s i vadrs newkvmemcbox

/-! ### Deletion -/

def unmapPage (s : Sys A) (i : Nat) (kmbox : Option Nat) (vadrs : Nat) : Halt (Sys A) :=
  halMmuUntransform (s.st i) vadrs >>= fun ⟨phyadrs, st⟩ =>
    let s := s.setSt i st
    match kmbox with
    | none => .ok s
    | some kmbox => if phyadrs = 0 then .ok s else vmaDelUsermsa s kmbox none phyadrs >>= fun ⟨_, s⟩ => .ok s

def unmapPages (i : Nat) (kmbox : Option Nat) : Nat → Nat → Sys A → Halt (Sys A)
  | 0, _, s => .ok s
  | n + 1, vadrs, s => unmapPage s i kmbox vadrs >>= unmapPages i kmbox n (vadrs + vmapMinSize)

/-- `vma_del_unmapping_phyadrs`; its callers ignore the answer. -/
def vmaDelUnmappingPhyadrs (s : Sys A) (i : Nat) (kmbox : Option Nat) (start fin : Nat) : Halt (Sys A) :=
  unmapPages i kmbox ((fin - start + (vmapMinSize - 1)) / vmapMinSize) start s

def vmaDelUnmapping (s : Sys A) (i : Nat) (kmbox : Option Nat) (start vassize : Nat) : Halt (Sys A) :=
  vmaDelUnmappingPhyadrs s i kmbox start (u64 (start + vassize))

def vmaNewVadrs (s : Sys A) (i start vassize vaslimits vastype : Nat) (newkmvd : Option Nat) : Nat × Sys A :=
  let r := Vma.vmaNewVadrs (s.vma i) start vassize vaslimits vastype newkmvd
  (r.1, s.setVma i r.2)

/-- `vma_del_vadrs` on space `i`: the interval list changes, and the calls on the tables and the box are made. -/
def vmaDelVadrs (s : Sys A) (i start vassize : Nat) (newkmvd : Option Nat) : Halt (Bool × Sys A) :=
  let out := Vma.vmaDelVadrs (s.vma i) start vassize newkmvd
  let s := knlCountKvmemcbox s out.count
  (match out.unmap with
    | none => .ok s
    | some (kmbox, start, vassize) => vmaDelUnmapping s i kmbox start vassize) >>= fun s =>
      .ok (out.rets, (knlPutKvmemcbox s out.put).setVma i out.vma)

/-! ### A new address space -/

/-- `new_mmadrsdsc`, then `mm->msd_thread` set; both parts must succeed. -/
def newMmadrsdsc (s : Sys A) (mbPml4padr : Nat) (kmvdc heapkmvdc stackkmvdc : Option Nat)
    (thread : Option (Nat × Nat)) : Halt (Bool × Sys A) :=
  let vma := kvmaInituserspaceVirmemadrs virmemadrsTInit kmvdc heapkmvdc stackkmvdc
  halMmuInit mbPml4padr ⟨mmudscTInit, s.alc, s.mem⟩ >>= fun ⟨rets, st⟩ =>
    .ok (vma.1 && rets, { s with
      mm := update s.mm s.mmnr ⟨st.mmu, vma.2, thread⟩
      mmnr := s.mmnr + 1
      alc := st.alc
      mem := st.mem })

end Cosmos.Space
