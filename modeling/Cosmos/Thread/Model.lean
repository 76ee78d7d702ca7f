import Cosmos.Krlmm.Runs
import Cosmos.Sched.Model
import Cosmos.Space.Model

/-!
# Making and starting a thread

`krlthread.c`, `krlsvethread.c` and the address-space part of `krlvadrsmem.c`. A user thread needs an address space (an
`mmadrsdsc_t`, three interval descriptors and a root table), a kernel stack and a `thread_t`; `krlnew_user_thread_core`
gets them one after another from the object allocator, the memory pool and the page allocator, and then puts the thread
on its ready list. `krlsve_core_exel_thread` makes a thread for a program file and then the interval of the program.

A pointer is its address. The state carries, beside the memory manager, what is in use of it. The register frame on the
new kernel stack and `td_context` are left out.
-/

namespace Cosmos.Thread

open Cosmos.Lib Cosmos.Page Cosmos.Mmu Cosmos.Vma Cosmos.Krlmm Cosmos.Sched Function

def sizeofKmvarsdsc : Nat := 120
def sizeofMmadrsdsc : Nat := 456
def sizeofThread : Nat := 328

def prilgSys : Nat := 0
def prilgUsr : Nat := 5
def threadNameMax : Nat := 64
def kernthreadFlg : Nat := 0
def userthreadFlg : Nat := 3
def daftTdusrstksz : Nat := 0x8000
def daftTdkrlstksz : Nat := 0x8000
def apprunStartVitrualaddr : Nat := 0x100000

def sysstuserr : Nat := 2 ^ 64 - 1

/-- `mmadrsdsc_t`; `msdThread` is the `thread_t`. -/
structure Mmadrsdsc where
  msdMmu : Mmudsc
  msdVirmemadrs : Virmemadrs
  msdThread : Option Nat

def mmadrsdscTInit : Mmadrsdsc := ⟨mmudscTInit, virmemadrsTInit, none⟩

/-- `thread_t` without what the scheduler reads. `tdMmdsc` is `none` for `initmmadrsdsc`, and `tdAppfilenm` is the text
it points to. -/
structure ThreadT where
  tdId : Nat
  tdPrivilege : Nat
  tdKrlstktop : Nat
  tdKrlstkstart : Nat
  tdUsrstktop : Nat
  tdUsrstkstart : Nat
  tdMmdsc : Option Nat
  tdAppfilenm : Option (List UInt8)
  tdAppfilenmlen : Nat

/-- `thread_t_init` on the `thread_t` at `initp`; its status and priority are in `threadTInitSched`. -/
def threadTInit (initp : Nat) : ThreadT := ⟨initp, prilgUsr, 0, 0, 0, 0, none, none, 0⟩

def threadTInitSched : Sched.Thread := ⟨.new, prityMin⟩

/-- The memory manager and what is in use of it, the physical memory, the descriptors of address spaces and threads by
address, and the scheduler. `cr3` is the register and `mb_pml4padr` the boot root table; no call here changes them. -/
structure Kern (A : PageAlloc) where
  krlmm : Krlmm.St A
  uses : Uses
  mem : Nat → Nat → Nat
  mm : Nat → Mmadrsdsc
  td : Nat → ThreadT
  sched : Schdata
  mbPml4padr : Nat
  cr3 : Nat

variable {A : PageAlloc}

namespace Kern

/-- The tables of the space at `mm`, as the functions of `halmmu.c` see them. -/
def st (x : Kern A) (mm : Nat) : Mmu.St A := ⟨(x.mm mm).msdMmu, x.krlmm.obj.alc, x.mem⟩

def vma (x : Kern A) (mm : Nat) : Virmemadrs := (x.mm mm).msdVirmemadrs

def setMm (x : Kern A) (mm : Nat) (d : Mmadrsdsc) : Kern A := { x with mm := update x.mm mm d }

def setVma (x : Kern A) (mm : Nat) (vma : Virmemadrs) : Kern A := x.setMm mm { x.mm mm with msdVirmemadrs := vma }

def setAlc (x : Kern A) (alc : A.State) : Kern A :=
  { x with krlmm := { x.krlmm with obj := { x.krlmm.obj with alc := alc } } }

def setSt (x : Kern A) (mm : Nat) (st : Mmu.St A) : Kern A :=
  { (x.setAlc st.alc).setMm mm { x.mm mm with msdMmu := st.mmu } with mem := st.mem }

end Kern

/-! ### Memory -/

def kmsobNew (x : Kern A) (msz : Nat) : Halt (Option Nat × Kern A) :=
  Obj.kmsobNew x.krlmm.obj msz >>= fun r =>
    .ok (r.1, { x with krlmm := { x.krlmm with obj := r.2 }, uses := handOut x.uses msz r.1 })

def kmsobDelete (x : Kern A) (fadrs fsz : Nat) : Halt (Bool × Kern A) :=
  Obj.kmsobDelete x.krlmm.obj fadrs fsz >>= fun r =>
    .ok (r.1, { x with krlmm := { x.krlmm with obj := r.2 }, uses := takeBack x.uses fadrs fsz r.1 })

def krlnew (x : Kern A) (mmsize : Nat) : Halt (Option Nat × Kern A) :=
  Krlmm.krlnew x.krlmm mmsize >>= fun r => .ok (r.1, { x with krlmm := r.2, uses := handOut x.uses mmsize r.1 })

def krldelete (x : Kern A) (fradr frsz : Nat) : Halt (Bool × Kern A) :=
  Krlmm.krldelete x.krlmm fradr frsz >>= fun r =>
    .ok (r.1, { x with krlmm := r.2, uses := takeBack x.uses fradr frsz r.1 })

/-! ### Address spaces -/

/-- `new_kmvarsdsc`; the descriptor is initialised where its fields are set. -/
def newKmvarsdsc (x : Kern A) : Halt (Option Nat × Kern A) := kmsobNew x sizeofKmvarsdsc

def delKmvarsdsc (x : Kern A) (delkmvd : Nat) : Halt (Bool × Kern A) := kmsobDelete x delkmvd sizeofKmvarsdsc

def kvmaInituserspaceVirmemadrs (x : Kern A) (mm : Nat) : Halt (Bool × Kern A) :=
  newKmvarsdsc x >>= fun ⟨r, x⟩ =>
    match r with
    | none => .ok (false, x)
    | some kmvdc =>
      newKmvarsdsc x >>= fun ⟨r, x⟩ =>
        match r with
        | none => delKmvarsdsc x kmvdc >>= fun ⟨_, x⟩ => .ok (false, x)
        | some heapkmvdc =>
          newKmvarsdsc x >>= fun ⟨r, x⟩ =>
            match r with
            | none =>
              delKmvarsdsc x kmvdc >>= fun ⟨_, x⟩ => delKmvarsdsc x heapkmvdc >>= fun ⟨_, x⟩ => .ok (false, x)
            | some stackkmvdc =>
              .ok (true, x.setVma mm
                (Vma.kvmaInituserspaceVirmemadrs (x.vma mm) (some kmvdc) (some heapkmvdc) (some stackkmvdc)).2)

/-- `new_mmadrsdsc`. What the two constructors in it answer is not looked at. -/
def newMmadrsdsc (x : Kern A) : Halt (Option Nat × Kern A) :=
  kmsobNew x sizeofMmadrsdsc >>= fun ⟨r, x⟩ =>
    match r with
    | none => .ok (none, x)
    | some mm =>
      kvmaInituserspaceVirmemadrs (x.setMm mm mmadrsdscTInit) mm >>= fun ⟨_, x⟩ =>
        halMmuInit x.mbPml4padr (x.st mm) >>= fun ⟨_, st⟩ => .ok (some mm, x.setSt mm st)

def delMmadrsdsc (x : Kern A) (mm : Nat) : Halt (Bool × Kern A) :=
  halMmuClean x.cr3 (x.st mm) >>= fun ⟨rets, st⟩ =>
    if rets = false then .ok (false, x.setSt mm st) else kmsobDelete (x.setSt mm st) mm sizeofMmadrsdsc

/-- Whether `vma_new_vadrs` gets as far as its call of `new_kmvarsdsc`. -/
def asksKmvd (vma : Virmemadrs) (start vassize vaslimits vastype : Nat) : Bool :=
  if vassize < 1 then false
  else if start ≠ 0 ∧ (start % 0x1000 ≠ 0 ∨ start < 0x1000 ∨ userVirtualAddressEnd < u64 (start + vassize)) then false
  else
    match vmaFindKmvarsdsc vma start (vadszAlign vassize) vaslimits vastype with
    | none => false
    | some currkmvd =>
      !decide ((start = 0 ∨ start = currkmvd.kvaEnd) ∧ vaslimits = currkmvd.kvaLimits ∧ vastype = currkmvd.kvaMaptype)

/-- `vma_new_vadrs` on the space at `mm`, with its descriptor from the object allocator. -/
def vmaNewVadrs (x : Kern A) (mm start vassize vaslimits vastype : Nat) : Halt (Nat × Kern A) :=
  (if asksKmvd (x.vma mm) start vassize vaslimits vastype then newKmvarsdsc x else .ok (none, x)) >>=
    fun ⟨newkmvd, x⟩ =>
    let r := Vma.vmaNewVadrs (x.vma mm) start vassize vaslimits vastype newkmvd
    .ok (r.1, x.setVma mm r.2)

def kvmaInitdefaultVirmemadrs (x : Kern A) (mm : Option Nat) (start size type : Nat) : Halt (Nat × Kern A) :=
  match mm with
  | none => .ok (0, x)
  | some mm => if start ≤ 0x1000 ∨ size = 0 then .ok (0, x) else vmaNewVadrs x mm start size 0 type

/-! ### Threads -/

def krlnewThreadDsc (x : Kern A) : Halt (Option Nat × Kern A) :=
  krlnew x sizeofThread >>= fun ⟨r, x⟩ =>
    match r with
    | none => .ok (none, x)
    | some rettdp =>
      .ok (some rettdp, { x with
        td := update x.td rettdp (threadTInit rettdp)
        sched := { x.sched with td := update x.sched.td rettdp threadTInitSched } })

def unkownThread : List UInt8 := [117, 110, 107, 111, 119, 110, 32, 116, 104, 114, 101, 97, 100]

def setName (x : Kern A) (thread : Nat) (name : List UInt8) (len : Nat) : Kern A :=
  let t := { x.td thread with tdAppfilenm := some name, tdAppfilenmlen := len }
  { x with td := update x.td thread t }

/-- `thread_name`; its callers ignore the answer. A long name is copied to memory of its own. -/
def threadName (x : Kern A) (thread : Nat) (name : Option (List UInt8)) : Halt (Kern A) :=
  match name with
  | none => .ok (setName x thread unkownThread threadNameMax)
  | some name =>
    if name.length < threadNameMax - 1 then .ok (setName x thread name threadNameMax)
    else
      krlnew x (name.length + 1) >>= fun ⟨r, x⟩ =>
        match r with
        | none => .ok x
        | some _ => .ok (setName x thread name (name.length + 1))

def clearLow4 (n : Nat) : Nat := n / 16 * 16

/-- The fields that the two constructors fill in, as `krlthread_userstack_init` and `krlthread_kernstack_init` leave
them. -/
def fillThread (t : ThreadT) (mm : Option Nat) (prilg krlstkadr krlstksz usrstktop usrstkadr : Nat) : ThreadT :=
  { t with
    tdMmdsc := mm
    tdPrivilege := prilg
    tdKrlstktop := clearLow4 (u64 (krlstkadr + (krlstksz - 1)))
    tdKrlstkstart := krlstkadr
    tdUsrstktop := clearLow4 usrstktop
    tdUsrstkstart := usrstkadr }

/-- `td_priority` is set, then `krlschdclass_add_thread`. -/
def enqueue (s : Schdata) (thdp prity : Nat) : Schdata :=
  krlschdclassAddThread { s with td := update s.td thdp ⟨(s.td thdp).tdStus, prity⟩ } thdp

/-- The end of both constructors. -/
def startThread (x : Kern A) (thdp : Nat) (mm : Option Nat) (prilg prity krlstkadr krlstksz usrstktop usrstkadr : Nat) :
    Kern A :=
  { x with
    td := update x.td thdp (fillThread (x.td thdp) mm prilg krlstkadr krlstksz usrstktop usrstkadr)
    sched := enqueue x.sched thdp prity }

/-- `krlnew_user_thread_core`; `filerun` goes to the register frame and `flg` is not used. -/
def krlnewUserThreadCore (x : Kern A) (name : Option (List UInt8)) (prilg prity usrstksz krlstksz : Nat) :
    Halt (Option Nat × Kern A) :=
  newMmadrsdsc x >>= fun ⟨r, x⟩ =>
    match r with
    | none => .ok (none, x)
    | some mm =>
      match (x.vma mm).kmvd? (x.vma mm).vsStackkmvdsc with
      | none => delMmadrsdsc x mm >>= fun ⟨_, x⟩ => .ok (none, x)
      | some stackkmvdsc =>
        if userVirtualAddressEnd ≠ stackkmvdsc.kvaEnd then delMmadrsdsc x mm >>= fun ⟨_, x⟩ => .ok (none, x)
        else if u64Sub stackkmvdsc.kvaEnd stackkmvdsc.kvaStart < usrstksz then
          delMmadrsdsc x mm >>= fun ⟨_, x⟩ => .ok (none, x)
        else
          krlnew x krlstksz >>= fun ⟨r, x⟩ =>
            match r with
            | none => delMmadrsdsc x mm >>= fun ⟨_, x⟩ => .ok (none, x)
            | some krlstkadr =>
              krlnewThreadDsc x >>= fun ⟨r, x⟩ =>
                match r with
                | none =>
                  krldelete x krlstkadr krlstksz >>= fun ⟨_, x⟩ =>
                    delMmadrsdsc x mm >>= fun ⟨_, x⟩ => .ok (none, x)
                | some retTd =>
                  threadName x retTd name >>= fun x =>
                    .ok (some retTd, startThread (x.setMm mm { x.mm mm with msdThread := some retTd }) retTd (some mm)
                      prilg prity krlstkadr krlstksz stackkmvdsc.kvaEnd stackkmvdsc.kvaStart)

def krlnewKernThreadCore (x : Kern A) (name : Option (List UInt8)) (prilg prity krlstksz : Nat) :
    Halt (Option Nat × Kern A) :=
  krlnew x krlstksz >>= fun ⟨r, x⟩ =>
    match r with
    | none => .ok (none, x)
    | some krlstkadr =>
      krlnewThreadDsc x >>= fun ⟨r, x⟩ =>
        match r with
        | none => krldelete x krlstkadr krlstksz >>= fun ⟨_, x⟩ => .ok (none, x)
        | some retTd =>
          threadName x retTd name >>= fun x =>
            .ok (some retTd, startThread x retTd none prilg prity krlstkadr krlstksz 0 0)

/-- `krlnew_thread`; `filerun` is compared with `NULL`. A stack smaller than the default is made as large. -/
def krlnewThread (x : Kern A) (name : Option (List UInt8)) (filerun flg prilg prity usrstksz krlstksz : Nat) :
    Halt (Option Nat × Kern A) :=
  if filerun = 0 ∨ daftTdusrstksz < usrstksz ∨ daftTdkrlstksz < krlstksz then .ok (none, x)
  else if (prilg ≠ prilgUsr ∧ prilg ≠ prilgSys) ∨ prityMax ≤ prity then .ok (none, x)
  else
    let tustksz := if usrstksz < daftTdusrstksz then daftTdusrstksz else usrstksz
    let tkstksz := if krlstksz < daftTdkrlstksz then daftTdkrlstksz else krlstksz
    if flg = kernthreadFlg then krlnewKernThreadCore x name prilg prity tkstksz
    else if flg = userthreadFlg then krlnewUserThreadCore x name prilg prity tustksz tkstksz
    else .ok (none, x)

/-! ### Programs -/

/-- `krlthread_execvl`; `file` is what `get_file_rvadrandsz` answers for the name, both `0` if there is no such file or
no name. -/
def krlthreadExecvl (file : Option (List UInt8) → Nat × Nat) (x : Kern A) (thread : Option Nat)
    (filename : Option (List UInt8)) : Halt (Option Nat × Kern A) :=
  match thread, filename with
  | some thread, some filename =>
    if (file (some filename)).1 = 0 ∨ (file (some filename)).2 = 0 then .ok (none, x)
    else if (x.td thread).tdMmdsc = none then .ok (none, x)
    else if threadHeapadrStart ≤ u64 (0x100000 + (file (some filename)).2) then .ok (none, x)
    else
      kvmaInitdefaultVirmemadrs x (x.td thread).tdMmdsc apprunStartVitrualaddr (file (some filename)).2 kmvBinType >>=
        fun ⟨vadr, x⟩ => if vadr = 0 then .ok (none, x) else .ok (some thread, x)
  | _, _ => .ok (none, x)

def krlsveCoreExelThread (file : Option (List UInt8) → Nat × Nat) (x : Kern A) (tdname : Option (List UInt8)) :
    Halt (Nat × Kern A) :=
  if (file tdname).1 = 0 ∨ (file tdname).2 = 0 then .ok (sysstuserr, x)
  else
    krlnewThread x tdname apprunStartVitrualaddr userthreadFlg prilgUsr prityMin daftTdusrstksz daftTdkrlstksz >>=
      fun ⟨t, x⟩ =>
        krlthreadExecvl file x t tdname >>= fun ⟨t, x⟩ =>
          match t with
          | none => .ok (sysstuserr, x)
          | some t => .ok ((x.td t).tdId, x)

end Cosmos.Thread
