import Cosmos.Obj.Model

/-!
# Kernel memory by size (`kernel/krlmm.c`, `kernel/krlpagempol.c`)

`krlnew` takes up to 2048 bytes from the object allocator and more from the page allocator. A page block is recorded by
its descriptor in `mp_msalsthead`, in the list of its number of pages; the last list takes all larger blocks.
`krldelete` has to find the descriptor again: it computes the list from the size it is given.

`oskmempool` is `mp_msalsthead`: nothing reads the other fields of `kmempool_t`.
-/

namespace Cosmos.Krlmm

open Cosmos.Lib Cosmos.Page

def malcszMin : Nat := 0
def malcszMax : Nat := 0x400000
def kmempalcszMin : Nat := 1
def kmempalcszMax : Nat := 0x400000
def objsorpage : Nat := 2048
def phymsaMax : Nat := 512
def pageSzrbit : Nat := 12

def objsAlign (x : Nat) : Nat := alignUp x 4

def pageAlign (n : Nat) : Nat := alignUp n 0x1000

structure Msahead where
  mlhNr : Nat
  mlhMsalst : List Nat
  deriving DecidableEq, Repr

/-- The object allocator with the page allocator under it, and the records of `oskmempool`. -/
structure St (A : PageAlloc) where
  obj : Obj.St A
  mpMsalsthead : Nat → Msahead

variable {A : PageAlloc}

def kmempoolTInit : Nat → Msahead := fun _ => ⟨0, []⟩

/-! ### The records -/

def msalstOf (relpnr : Nat) : Nat := if phymsaMax - 1 ≤ relpnr then phymsaMax - 1 else relpnr

def msadscAddKmempool (kmplp : Nat → Msahead) (msa relpnr : Nat) : Halt (Nat → Msahead) :=
  if relpnr < 1 then .error "msadsc_add_kmempool fail\n"
  else
    let i := msalstOf relpnr
    .ok (Function.update kmplp i ⟨(kmplp i).mlhNr + 1, msa :: (kmplp i).mlhMsalst⟩)

/-- The loop of `msadsc_del_kmempool`: the first descriptor of the list whose page is at `fradr`. -/
def findMsadsc (s : A.State) (fradr : Nat) : List Nat → Halt (Option Nat)
  | [] => .ok none
  | tmpmsa :: msalst =>
    A.msadscRetVaddr s tmpmsa >>= fun vaddr =>
      if vaddr = fradr then .ok (some tmpmsa) else findMsadsc s fradr msalst

def msadscDelKmempool (s : A.State) (kmplp : Nat → Msahead) (relpnr fradr : Nat) :
    Halt (Option Nat × (Nat → Msahead)) :=
  if relpnr < 1 ∨ fradr = 0 then .ok (none, kmplp)
  else
    let i := msalstOf relpnr
    findMsadsc s fradr (kmplp i).mlhMsalst >>= fun retmsa =>
      match retmsa with
      | none => .ok (none, kmplp)
      | some msa =>
        .ok (some msa, Function.update kmplp i ⟨(kmplp i).mlhNr - 1, (kmplp i).mlhMsalst.erase msa⟩)

/-! ### Pages -/

def kmempoolPagesCoreNew (st : St A) (msize : Nat) : Halt (Option Nat × St A) :=
  A.mmDivisionPages st.obj.alc (msize / 2 ^ 12) maTypeKrnl dmfReldiv >>= fun ⟨r, alc⟩ =>
    let st := { st with obj := { st.obj with alc := alc } }
    match r with
    | none => .ok (none, st)
    | some (retmsa, relpnr) =>
      msadscAddKmempool st.mpMsalsthead retmsa relpnr >>= fun kmplp =>
        A.msadscRetVaddr alc retmsa >>= fun vaddr => .ok (some vaddr, { st with mpMsalsthead := kmplp })

def kmempoolPagesCoreDelete (st : St A) (fradr frsz : Nat) : Halt (Bool × St A) :=
  let relpnr := frsz / 2 ^ pageSzrbit
  msadscDelKmempool st.obj.alc st.mpMsalsthead relpnr fradr >>= fun ⟨retmsa, kmplp⟩ =>
    let st := { st with mpMsalsthead := kmplp }
    match retmsa with
    | none => .ok (false, st)
    | some retmsa =>
      A.mmMergePages st.obj.alc retmsa relpnr >>= fun ⟨rets, alc⟩ =>
        .ok (rets, { st with obj := { st.obj with alc := alc } })

def kmempoolPagesNew (st : St A) (msize : Nat) : Halt (Option Nat × St A) :=
  kmempoolPagesCoreNew st (pageAlign msize)

def kmempoolPagesDelete (st : St A) (fradr frsz : Nat) : Halt (Bool × St A) :=
  kmempoolPagesCoreDelete st fradr (pageAlign frsz)

/-! ### Objects -/

def kmempoolObjszCoreNew (st : St A) (msize : Nat) : Halt (Option Nat × St A) :=
  Obj.kmsobNew st.obj msize >>= fun ⟨r, obj⟩ => .ok (r, { st with obj := obj })

def kmempoolObjszCoreDelete (st : St A) (fradr frsz : Nat) : Halt (Bool × St A) :=
  Obj.kmsobDelete st.obj fradr frsz >>= fun ⟨rets, obj⟩ => .ok (rets, { st with obj := obj })

def kmempoolObjszNew (st : St A) (msize : Nat) : Halt (Option Nat × St A) :=
  let sz := objsAlign msize
  if objsorpage < sz then .ok (none, st) else kmempoolObjszCoreNew st sz

def kmempoolObjszDelete (st : St A) (fradr frsz : Nat) : Halt (Bool × St A) :=
  let fsz := objsAlign frsz
  if objsorpage < fsz then .ok (false, st) else kmempoolObjszCoreDelete st fradr fsz

/-! ### By size -/

def kmempoolOnsizeNew (st : St A) (msize : Nat) : Halt (Option Nat × St A) :=
  if objsorpage < msize then kmempoolPagesNew st msize else kmempoolObjszNew st msize

def kmempoolOnsizeDelete (st : St A) (fradr frsz : Nat) : Halt (Bool × St A) :=
  if objsorpage < frsz then kmempoolPagesDelete st fradr frsz else kmempoolObjszDelete st fradr frsz

def kmempoolNew (st : St A) (msize : Nat) : Halt (Option Nat × St A) :=
  if msize < kmempalcszMin ∨ kmempalcszMax < msize then .ok (none, st) else kmempoolOnsizeNew st msize

def kmempoolDelete (st : St A) (fradr frsz : Nat) : Halt (Bool × St A) :=
  if fradr = 0 ∨ frsz < kmempalcszMin ∨ kmempalcszMax < frsz then .ok (false, st)
  else kmempoolOnsizeDelete st fradr frsz

def krlnew (st : St A) (mmsize : Nat) : Halt (Option Nat × St A) :=
  if mmsize = malcszMin ∨ malcszMax < mmsize then .ok (none, st) else kmempoolNew st mmsize

def krldelete (st : St A) (fradr frsz : Nat) : Halt (Bool × St A) :=
  if fradr = 0 ∨ frsz = malcszMin ∨ malcszMax < frsz then .ok (false, st) else kmempoolDelete st fradr frsz

/-- `init_krlpagempol` and `init_kmsob` over a page allocator. -/
def initKrlmm (alc : A.State) (kmsob : Nat → Obj.Kmsob) : St A :=
  ⟨⟨alc, Obj.kmsobmgrhedTInit, kmsob⟩, kmempoolTInit⟩

end Cosmos.Krlmm
