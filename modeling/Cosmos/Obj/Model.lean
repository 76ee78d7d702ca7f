import Mathlib.Logic.Function.Basic
import Cosmos.Page.Model

/-!
# The object allocator (`hal/x86/kmsob.c`)

Objects of up to 2048 bytes come in 64 size classes of 32 bytes each. A class has a list of `kmsob_t`, each of which
starts with its own header in the first of its page runs and cuts the rest of the run into objects; when it has none
free it takes another page run, with a `kmbext_t` header. A freed object goes back on the list of the `kmsob_t` whose
runs its address lies in, and a `kmsob_t` with no object in use gives all its runs back.

A pointer is its address, `NULL` is `none` where a function returns it, and `kmsob` gives the `kmsob_t` at an address.
Header addresses lie in the kernel's linear map, far from the end of the address space; sums with an address or a size
that a caller passed wrap.
-/

namespace Cosmos.Obj

open Cosmos.Lib Cosmos.Page

def koblstMax : Nat := 64
def msclstMax : Nat := 5
def pagesize : Nat := 0x1000
def sizeofKmsob : Nat := 368
def sizeofKmbext : Nat := 48
def sizeofFreobjh : Nat := 32

def uintMax : Nat := 2 ^ 64 - 1

/-! ### Data -/

/-- `kmbext_t`, without its list node. -/
structure Kmbext where
  mtVstat : Nat
  mtVend : Nat
  mtKmsb : Nat
  mtMobjnr : Nat
  deriving DecidableEq, Repr

/-- `msclst_t`; `ml_list` by its descriptors. -/
structure Msclst where
  mlMsanr : Nat
  mlOmpnr : Nat
  mlList : List Nat
  deriving DecidableEq, Repr

/-- `kmsob_t` with its `so_mc`; the lists by their elements, `so_frelst` by the addresses of the free objects. -/
structure Kmsob where
  soVstat : Nat
  soVend : Nat
  soObjsz : Nat
  soMobjnr : Nat
  soFobjnr : Nat
  soFrelst : List Nat
  soMextlst : List Kmbext
  soMextnr : Nat
  mcLst : Nat → Msclst
  mcKmobinlst : List Nat
  mcKmobinpnr : Nat

structure Koblst where
  olEmplst : List Nat
  olCahe : Option Nat
  olEmnr : Nat
  olSz : Nat
  deriving DecidableEq, Repr

structure Kmsobmgrhed where
  ksMsobnr : Nat
  ksMsobche : Option Nat
  ksMsoblst : Nat → Koblst

/-- The page allocator, the manager and the `kmsob_t` by address. -/
structure St (A : PageAlloc) where
  alc : A.State
  mgr : Kmsobmgrhed
  kmsob : Nat → Kmsob

variable {A : PageAlloc}

def St.setKoblst (st : St A) (kli : Nat) (f : Koblst → Koblst) : St A :=
  { st with mgr := { st.mgr with ksMsoblst := Function.update st.mgr.ksMsoblst kli (f (st.mgr.ksMsoblst kli)) } }

def St.setKmsob (st : St A) (kmsp : Nat) (k : Kmsob) : St A :=
  { st with kmsob := Function.update st.kmsob kmsp k }

/-- `retn_mscidx` is `retn_divoder` under another name. -/
def retnMscidx (pages : Nat) : Int := retnDivoder pages

def msomdcTInit (j : Nat) : Msclst := ⟨0, 2 ^ j, []⟩

def kmsobmgrhedTInit : Kmsobmgrhed where
  ksMsobnr := 0
  ksMsobche := none
  ksMsoblst := fun kli => ⟨[], none, 0, 32 * (kli + 1)⟩

/-- `kmsob_updata_cache` with `KUC_NEWFLG` or `KUC_DELFLG`. -/
def kmsobUpdataCache (st : St A) (kli kmsp : Nat) : St A :=
  let st := st.setKoblst kli fun koblp => { koblp with olCahe := some kmsp }
  { st with mgr := { st.mgr with ksMsobche := some kmsp } }

/-- `kmsob_updata_cache` with `KUC_DSYFLG`. -/
def kmsobUpdataCacheDsy (st : St A) (kli kmsp : Nat) : St A :=
  let st := st.setKoblst kli fun koblp =>
    { koblp with olCahe := if koblp.olCahe = some kmsp then none else koblp.olCahe }
  { st with mgr := { st.mgr with ksMsobche := if st.mgr.ksMsobche = some kmsp then none else st.mgr.ksMsobche } }

/-! ### Looking for the `kmsob_t` -/

def scanNewkmsobIsok (st : St A) (kmsp : Option Nat) (msz : Nat) : Option Nat :=
  match kmsp with
  | none => none
  | some kmsp => if msz < 1 then none else if msz ≤ (st.kmsob kmsp).soObjsz then some kmsp else none

/-- The test of `scan_delkmsob_isok` on one page run, whose objects start at `fostat`. -/
def inRun (fostat vend objsz fadrs fsz : Nat) : Bool :=
  decide ((fostat ≤ fadrs ∧ u64 (fadrs + fsz) ≤ vend) ∧ fsz ≤ objsz)

/-- The loop of `scan_delkmsob_isok` over the extensions. -/
def scanDelExts (kmsp objsz fadrs fsz : Nat) : List Kmbext → Halt Bool
  | [] => .ok false
  | bexp :: exts =>
    if bexp.mtKmsb ≠ kmsp then .error "scan_delkmsob_isok err\n"
    else if inRun (bexp.mtVstat + sizeofKmbext) bexp.mtVend objsz fadrs fsz then .ok true
    else scanDelExts kmsp objsz fadrs fsz exts

def scanDelkmsobIsok (st : St A) (kmsp : Option Nat) (fadrs fsz : Nat) : Halt (Option Nat) :=
  match kmsp with
  | none => .ok none
  | some kmsp =>
    let k := st.kmsob kmsp
    if fadrs = 0 ∨ fsz < 1 then .ok none
    else if inRun (k.soVstat + sizeofKmsob) k.soVend k.soObjsz fadrs fsz then .ok (some kmsp)
    else if k.soMextnr < 1 then .ok none
    else scanDelExts kmsp k.soObjsz fadrs fsz k.soMextlst >>= fun found => .ok (if found then some kmsp else none)

def onkoblstRetnNewkmsob (st : St A) (kli msz : Nat) : Option Nat :=
  let koblp := st.mgr.ksMsoblst kli
  if msz < 1 then none
  else
    match scanNewkmsobIsok st koblp.olCahe msz with
    | some kmsp => some kmsp
    | none =>
      if 0 < koblp.olEmnr then koblp.olEmplst.findSome? fun kmsp => scanNewkmsobIsok st (some kmsp) msz else none

/-- The loop of `onkoblst_retn_delkmsob`. -/
def scanDelEmplst (st : St A) (fadrs fsz : Nat) : List Nat → Halt (Option Nat)
  | [] => .ok none
  | tkmsp :: emplst =>
    scanDelkmsobIsok st (some tkmsp) fadrs fsz >>= fun kmsp =>
      match kmsp with
      | some kmsp => .ok (some kmsp)
      | none => scanDelEmplst st fadrs fsz emplst

def onkoblstRetnDelkmsob (st : St A) (kli fadrs fsz : Nat) : Halt (Option Nat) :=
  let koblp := st.mgr.ksMsoblst kli
  if fadrs = 0 ∨ fsz < 1 then .ok none
  else
    scanDelkmsobIsok st koblp.olCahe fadrs fsz >>= fun kmsp =>
      match kmsp with
      | some kmsp => .ok (some kmsp)
      | none => if 0 < koblp.olEmnr then scanDelEmplst st fadrs fsz koblp.olEmplst else .ok none

/-- `onmsz_retn_koblst`: the first class whose objects are large enough. -/
def onmszRetnKoblst (st : St A) (msz : Nat) : Option Nat :=
  if msz < 1 then none
  else (List.range koblstMax).find? fun kli => decide (msz ≤ (st.mgr.ksMsoblst kli).olSz)

/-! ### Making and extending a `kmsob_t` -/

/-- The loop that cuts a run into objects: the new `so_frelst` and how many objects it got. Every pass moves `ap` up,
so `vend - ap` passes are enough. -/
def carveLoop (objsz vend : Nat) : Nat → Nat → List Nat → Nat → List Nat × Nat
  | 0, _, frelst, nr => (frelst, nr)
  | n + 1, ap, frelst, nr =>
    if ap < vend then
      if ap + objsz ≤ vend then carveLoop objsz vend n (ap + objsz) (ap :: frelst) (nr + 1)
      else carveLoop objsz vend n (ap + objsz) frelst nr
    else (frelst, nr)

def pagesFor (objsz : Nat) : Nat := if 512 < objsz then 4 else if 128 < objsz then 2 else 1

def createInitKmsob (objsz cvadrs cvadre msa relpnr : Nat) : Option Kmsob :=
  if objsz < 1 ∨ cvadrs = 0 ∨ cvadre = 0 ∨ relpnr < 1 then none
  else if objsz < sizeofFreobjh then none
  else if u64 (u64Sub cvadre cvadrs + 1) < pagesize then none
  else if u64 (u64Sub cvadre cvadrs + 1) ≤ sizeofKmsob + sizeofFreobjh then none
  else
    let fohstat := cvadrs + sizeofKmsob
    let (frelst, nr) := carveLoop objsz cvadre (cvadre - fohstat) fohstat [] 0
    some
      { soVstat := cvadrs
        soVend := cvadre
        soObjsz := objsz
        soMobjnr := nr
        soFobjnr := nr
        soFrelst := frelst
        soMextlst := []
        soMextnr := 0
        mcLst := msomdcTInit
        mcKmobinlst := [msa]
        mcKmobinpnr := relpnr }

def kmsobAddKoblst (st : St A) (kli kmsp : Nat) : Bool × St A :=
  if (st.mgr.ksMsoblst kli).olSz < (st.kmsob kmsp).soObjsz then (false, st)
  else
    (true, st.setKoblst kli fun koblp =>
      { koblp with olEmplst := kmsp :: koblp.olEmplst, olEmnr := koblp.olEmnr + 1 })

/-- The first and the last address of a page run, in the kernel's linear map. -/
def runVadrs (s : A.State) (msa relpnr : Nat) : Halt (Nat × Nat) :=
  let phyadr := A.msadscRetAddr s msa
  phyadrToViradr phyadr >>= fun vadrs =>
    phyadrToViradr (phyadr + relpnr * pagesize - 1) >>= fun vadre => .ok (vadrs, vadre)

def createKmsob (st : St A) (kli objsz : Nat) : Halt (Option Nat × St A) :=
  if objsz < 1 then .ok (none, st)
  else
    A.mmDivisionPages st.alc (pagesFor objsz) maTypeKrnl dmfReldiv >>= fun ⟨r, alc⟩ =>
      let st := { st with alc := alc }
      match r with
      | none => .ok (none, st)
      | some (msa, relpnr) =>
        if relpnr = 0 then .error "_create_kmsob mm_division_pages fail\n"
        else
          runVadrs st.alc msa relpnr >>= fun ⟨vadrs, vadre⟩ =>
            match createInitKmsob (st.mgr.ksMsoblst kli).olSz vadrs vadre msa relpnr with
            | none =>
              A.mmMergePages st.alc msa relpnr >>= fun ⟨rets, alc⟩ =>
                if rets then .ok (none, { st with alc := alc })
                else .error "_create_kmsob mm_merge_pages fail\n"
            | some k =>
              let (rets, st) := kmsobAddKoblst (st.setKmsob vadrs k) kli vadrs
              if rets then .ok (some vadrs, { st with mgr := { st.mgr with ksMsobnr := st.mgr.ksMsobnr + 1 } })
              else .error " _create_kmsob kmsob_add_koblst FALSE\n"

/-- The extension's part of `kmsob_extn_pages`, once the pages are there: `mscidx` is the list they go on. -/
def addExt (k : Kmsob) (kmsp msa mscidx vadrs vadre : Nat) : Kmsob :=
  let fohstat := vadrs + sizeofKmbext
  let (frelst, nr) := carveLoop k.soObjsz vadre (vadre - fohstat) fohstat k.soFrelst 0
  { k with
    soMobjnr := k.soMobjnr + nr
    soFobjnr := k.soFobjnr + nr
    soFrelst := frelst
    soMextlst := ⟨vadrs, vadre, kmsp, nr⟩ :: k.soMextlst
    soMextnr := k.soMextnr + 1
    mcLst := Function.update k.mcLst mscidx
      { k.mcLst mscidx with
        mlMsanr := (k.mcLst mscidx).mlMsanr + 1
        mlList := msa :: (k.mcLst mscidx).mlList } }

def kmsobExtnPages (st : St A) (kmsp : Nat) : Halt (Bool × St A) :=
  let k := st.kmsob kmsp
  if uintMax ≤ k.soMobjnr ∨ uintMax ≤ k.soMextnr ∨ uintMax ≤ k.soFobjnr then .ok (false, st)
  else
    A.mmDivisionPages st.alc (pagesFor k.soObjsz) maTypeKrnl dmfReldiv >>= fun ⟨r, alc⟩ =>
      let st := { st with alc := alc }
      match r with
      | none => .ok (false, st)
      | some (msa, relpnr) =>
        if relpnr = 0 then .error "kmsob_extn_pages mm_division_pages fail\n"
        else
          runVadrs st.alc msa relpnr >>= fun ⟨vadrs, vadre⟩ =>
            let mscidx := retnMscidx relpnr
            if (msclstMax : Int) ≤ mscidx ∨ mscidx < 0 then
              A.mmMergePages st.alc msa relpnr >>= fun ⟨rets, alc⟩ =>
                if rets then .ok (false, { st with alc := alc })
                else .error "kmsob_extn_pages mm_merge_pages fail\n"
            else .ok (true, st.setKmsob kmsp (addExt k kmsp msa mscidx.toNat vadrs vadre))

/-! ### Allocating -/

def scanNmszkmsobIsok (k : Kmsob) (msz : Nat) : Bool :=
  if msz < 1 then false
  else if k.soFobjnr < 1 ∨ k.soMobjnr < 1 then false
  else if k.soObjsz < msz then false
  else if u64 (u64Sub k.soVend k.soVstat + 1) < pagesize ∨
      u64 (u64Sub k.soVend k.soVstat + 1) < sizeofKmsob + sizeofFreobjh then false
  else if k.soFrelst = [] then false
  else true

def scanKmsobObjnr (k : Kmsob) : Halt Nat :=
  if k.soFobjnr < 1 ∧ k.soFrelst ≠ [] then .error "scan_kmsob_objnr err2\n"
  else if 0 < k.soFobjnr then .ok k.soFobjnr
  else .ok 0

def kmsobNewOpkmsob (st : St A) (kmsp msz : Nat) : Option Nat × St A :=
  let k := st.kmsob kmsp
  if scanNmszkmsobIsok k msz = false then (none, st)
  else
    match k.soFrelst with
    | [] => (none, st)
    | fobh :: frelst => (some fobh, st.setKmsob kmsp { k with soFrelst := frelst, soFobjnr := k.soFobjnr - 1 })

def kmsobNewOnkmsob (st : St A) (kmsp msz : Nat) : Halt (Option Nat × St A) :=
  if msz < 1 then .ok (none, st)
  else
    scanKmsobObjnr (st.kmsob kmsp) >>= fun objnr =>
      if objnr < 1 then
        kmsobExtnPages st kmsp >>= fun ⟨rets, st⟩ =>
          if rets then .ok (kmsobNewOpkmsob st kmsp msz) else .ok (none, st)
      else .ok (kmsobNewOpkmsob st kmsp msz)

def retnOrCreateKmsob (st : St A) (kli msz : Nat) : Halt (Option Nat × St A) :=
  match onkoblstRetnNewkmsob st kli msz with
  | some kmsp => .ok (some kmsp, st)
  | none => createKmsob st kli (st.mgr.ksMsoblst kli).olSz

def kmsobNewCore (st : St A) (msz : Nat) : Halt (Option Nat × St A) :=
  match onmszRetnKoblst st msz with
  | none => .ok (none, st)
  | some kli =>
    retnOrCreateKmsob st kli msz >>= fun ⟨kmsp, st⟩ =>
      match kmsp with
      | none => .ok (none, st)
      | some kmsp =>
        kmsobNewOnkmsob st kmsp msz >>= fun ⟨retptr, st⟩ =>
          match retptr with
          | none => .ok (none, st)
          | some retptr => .ok (some retptr, kmsobUpdataCache st kli kmsp)

def kmsobNew (st : St A) (msz : Nat) : Halt (Option Nat × St A) :=
  if msz < 1 ∨ 2048 < msz then .ok (none, st) else kmsobNewCore st msz

/-! ### Freeing -/

def scanFadrskmsobIsok (fostat vend fadrs objsz : Nat) : Bool :=
  decide (fostat ≤ fadrs ∧ u64 (fadrs + objsz) ≤ vend ∧ (fadrs - fostat) % objsz = 0)

/-- The test of `scan_dfszkmsob_isok` on which run an address lies in. -/
def onRun (vstat vend fadrs fsz : Nat) : Bool :=
  decide (vstat ≤ fadrs ∧ u64Sub (u64 (fadrs + fsz)) 1 ≤ vend)

/-- `scan_dfszkmsob_isok`: the first run the address lies in decides. -/
def scanDfszkmsobIsok (k : Kmsob) (kmsp fadrs fsz : Nat) : Bool :=
  if fadrs = 0 ∨ fsz < 1 then false
  else if uintMax ≤ k.soFobjnr then false
  else if onRun k.soVstat k.soVend fadrs fsz then
    scanFadrskmsobIsok (kmsp + sizeofKmsob) k.soVend fadrs k.soObjsz
  else if 0 < k.soMextnr then
    match k.soMextlst.find? fun bextp => onRun bextp.mtVstat bextp.mtVend fadrs fsz with
    | some bextp => scanFadrskmsobIsok (bextp.mtVstat + sizeofKmbext) bextp.mtVend fadrs k.soObjsz
    | none => false
  else false

/-- `kmsob_del_opkmsob`, which `kmsob_delete_onkmsob` calls under the lock. -/
def kmsobDelOpkmsob (st : St A) (kmsp fadrs fsz : Nat) : Bool × St A :=
  let k := st.kmsob kmsp
  if fadrs = 0 ∨ fsz < 1 then (false, st)
  else if k.soMobjnr < k.soFobjnr + 1 then (false, st)
  else if scanDfszkmsobIsok k kmsp fadrs fsz = false then (false, st)
  else (true, st.setKmsob kmsp { k with soFrelst := fadrs :: k.soFrelst, soFobjnr := k.soFobjnr + 1 })

def scanFreekmsobIsok (k : Kmsob) : Nat :=
  if k.soMobjnr < k.soFobjnr then 0 else if k.soMobjnr = k.soFobjnr then 2 else 1

def mergeMsas (ompnr : Nat) : List Nat → A.State → Halt A.State
  | [], s => .ok s
  | msa :: msas, s =>
    A.mmMergePages s msa ompnr >>= fun ⟨rets, s⟩ =>
      if rets then mergeMsas ompnr msas s else .error "_destroy_kmsob_core mm_merge_pages FALSE2\n"

/-- The loop of `_destroy_kmsob_core` over `mc_lst`. -/
def mergeMsclsts (mcLst : Nat → Msclst) : List Nat → A.State → Halt A.State
  | [], s => .ok s
  | j :: js, s =>
    (if 0 < (mcLst j).mlMsanr then mergeMsas (mcLst j).mlOmpnr (mcLst j).mlList s else .ok s) >>=
      mergeMsclsts mcLst js

def destroyKmsobCore (st : St A) (kli kmsp : Nat) : Halt (Bool × St A) :=
  let k := st.kmsob kmsp
  if k.mcKmobinpnr < 1 ∨ k.mcKmobinlst = [] then .ok (false, st)
  else
    let st := st.setKoblst kli fun koblp =>
      { koblp with olEmplst := koblp.olEmplst.erase kmsp, olEmnr := koblp.olEmnr - 1 }
    let st := { st with mgr := { st.mgr with ksMsobnr := st.mgr.ksMsobnr - 1 } }
    let st := kmsobUpdataCacheDsy st kli kmsp
    mergeMsclsts k.mcLst (List.range msclstMax) st.alc >>= fun alc =>
      mergeMsas k.mcKmobinpnr k.mcKmobinlst alc >>= fun alc => .ok (true, { st with alc := alc })

def destroyKmsob (st : St A) (kli kmsp : Nat) : Halt (Bool × St A) :=
  if st.mgr.ksMsobnr < 1 ∨ (st.mgr.ksMsoblst kli).olEmnr < 1 then .ok (false, st)
  else
    match scanFreekmsobIsok (st.kmsob kmsp) with
    | 0 => .error "_destroy_kmsob scan_freekmsob_isok rets 0\n"
    | 1 => .ok (true, kmsobUpdataCache st kli kmsp)
    | _ => destroyKmsobCore st kli kmsp

def kmsobDeleteCore (st : St A) (fadrs fsz : Nat) : Halt (Bool × St A) :=
  match onmszRetnKoblst st fsz with
  | none => .ok (false, st)
  | some kli =>
    onkoblstRetnDelkmsob st kli fadrs fsz >>= fun kmsp =>
      match kmsp with
      | none => .ok (false, st)
      | some kmsp =>
        match kmsobDelOpkmsob st kmsp fadrs fsz with
        | (false, st) => .ok (false, st)
        | (true, st) => destroyKmsob st kli kmsp

def kmsobDelete (st : St A) (fadrs fsz : Nat) : Halt (Bool × St A) :=
  if fadrs = 0 ∨ fsz < 1 ∨ 2048 < fsz then .ok (false, st) else kmsobDeleteCore st fadrs fsz

end Cosmos.Obj
