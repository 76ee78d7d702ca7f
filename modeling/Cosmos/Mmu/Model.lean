import Mathlib.Logic.Function.Basic
import Cosmos.Page.Interface

/-!
# Page tables of an address space (`hal/x86/halmmu.c`, `include/halinc/halmmu.h`)

Four levels of tables of 512 entries: `tdirearr` (the root), `sdirearr`, `idirearr`, `mdirearr`. An entry holds
the frame of the next level in its bits 12 to 51. `hal_mmu_transform` creates the missing tables on the way to
an address, `hal_mmu_untransform` frees the tables it leaves empty. The frames of the tables of one level hang
on one list of the `mmudsc_t`.

The code repeats each operation for three or four levels. Here it is one definition with the level as its
parameter, and the source's functions are its instances. A table pointer is the kernel's linear address of
the table's frame; `mem` gives the 512 words of every physical page.
-/

namespace Cosmos.Mmu

open Cosmos.Lib Cosmos.Page Function

/-- The levels, by the prefix of the source's names. -/
inductive Dire where
  | t | s | i | m
  deriving DecidableEq, Repr

/-- `mmudsc_t`: `mud_tdirhead` to `mud_mdirhead` and `mud_tdirmsanr` to `mud_mdirmsanr` by level. -/
structure Mmudsc where
  mudTdirearr : Nat
  mudCr3 : Nat
  mudDirhead : Dire → List Nat
  mudDirmsanr : Dire → Nat

def mmudscTInit : Mmudsc := ⟨0, 0, fun _ => [], fun _ => 0⟩

def pml4eP : Nat := 1
def pml4eRw : Nat := 2
def pml4eUs : Nat := 4

/-! ### Indexes and entries -/

def mmuTdireIndex (vadrs : Nat) : Nat := vadrs / 2 ^ 39 % 512
def mmuSdireIndex (vadrs : Nat) : Nat := vadrs / 2 ^ 30 % 512
def mmuIdireIndex (vadrs : Nat) : Nat := vadrs / 2 ^ 21 % 512
def mmuMdireIndex (vadrs : Nat) : Nat := vadrs / 2 ^ 12 % 512

/-- The 40-bit frame field of an entry (`t_sdir`, `s_idir`, `i_mdir`, `m_msa`). -/
def direField (entry : Nat) : Nat := entry / 2 ^ 12 % 2 ^ 40

/-- `sdire_is_have`, `idire_is_have`, `mdire_is_have`, `mmumsa_is_have`. -/
def direIsHave (entry : Nat) : Bool := decide (0 < direField entry)

/-- `sdire_ret_padr`, `idire_ret_padr`, `mdire_ret_padr`, `mmumsa_ret_padr`. The shift of a bit-field of 40 bits has 40
bits. -/
def direRetPadr (entry : Nat) : Nat := bits 40 (direField entry * 2 ^ 12)

/-! ### The state the functions run on -/

/-- An address space's `mmudsc_t`, the page allocator and the physical memory. -/
structure St (A : PageAlloc) where
  mmu : Mmudsc
  alc : A.State
  mem : Nat → Nat → Nat

variable {A : PageAlloc}

def St.rd (st : St A) (arr j : Nat) : Nat := st.mem (arr - krnlMapVirtaddressStart) j

def St.fill (st : St A) (arr : Nat) (words : Nat → Nat) : St A :=
  { st with mem := update st.mem (arr - krnlMapVirtaddressStart) words }

def St.wr (st : St A) (arr j entry : Nat) : St A :=
  st.fill arr (update (st.mem (arr - krnlMapVirtaddressStart)) j entry)

/-- `sdirearr_is_allzero`, `idirearr_is_allzero`, `mdirearr_is_allzero`. -/
def St.isAllzero (st : St A) (arr : Nat) : Bool := (List.range 512).all fun j => decide (st.rd arr j = 0)

def Mmudsc.add (mmu : Mmudsc) (lv : Dire) (msa : Nat) : Mmudsc :=
  { mmu with
    mudDirhead := update mmu.mudDirhead lv (msa :: mmu.mudDirhead lv)
    mudDirmsanr := update mmu.mudDirmsanr lv (u64 (mmu.mudDirmsanr lv + 1)) }

def Mmudsc.del (mmu : Mmudsc) (lv : Dire) (msa : Nat) : Mmudsc :=
  { mmu with
    mudDirhead := update mmu.mudDirhead lv ((mmu.mudDirhead lv).erase msa)
    mudDirmsanr := update mmu.mudDirmsanr lv (u64Sub (mmu.mudDirmsanr lv) 1) }

/-! ### Creating and freeing one table -/

/-- A zeroed table for level `lv`, hung on the level's list. -/
def newDirearr (lv : Dire) (st : St A) : Halt (Option Nat × St A) :=
  A.mmDivisionPages st.alc 1 maTypeKrnl dmfReldiv >>= fun ⟨r, alc⟩ =>
    match r with
    | none => .ok (none, { st with alc := alc })
    | some (msa, _) =>
      A.msadscRetVaddr alc msa >>= fun direarr =>
        let st := ({ st with alc := alc } : St A).fill direarr fun _ => 0
        .ok (some msa, { st with mmu := st.mmu.add lv msa })

def mmuNewSdirearr (st : St A) : Halt (Option Nat × St A) := newDirearr .s st
def mmuNewIdirearr (st : St A) : Halt (Option Nat × St A) := newDirearr .i st
def mmuNewMdirearr (st : St A) : Halt (Option Nat × St A) := newDirearr .m st

/-- `mmu_new_tdirearr`: the root table is also the one `mud_tdirearr` points to. -/
def mmuNewTdirearr (st : St A) : Halt (Option Nat × St A) :=
  newDirearr .t st >>= fun ⟨r, st⟩ =>
    match r with
    | none => .ok (none, st)
    | some msa =>
      A.msadscRetVaddr st.alc msa >>= fun tdirearr =>
        .ok (some msa, { st with mmu := { st.mmu with mudTdirearr := tdirearr } })

def freeDirearr (lv : Dire) (msg : String) (st : St A) (msa : Nat) : Halt (St A) :=
  A.mmMergePages st.alc msa (A.onfrmsaRetnFpagenr st.alc msa) >>= fun ⟨rets, alc⟩ =>
    if rets then .ok { st with mmu := st.mmu.del lv msa, alc := alc }
    else .error msg

/-- Free the table at `direarr`: its descriptor is `msa` if that has the table's address, else it is searched
on the level's list. -/
def delDirearr (lv : Dire) (st : St A) (direarr : Nat) (msa : Option Nat) : Halt (Bool × St A) :=
  viradrToPhyadr direarr >>= fun tblphyadr =>
    let isTbl := fun msa => decide (A.msadscRetAddr st.alc msa = tblphyadr)
    match (msa.filter isTbl).or ((st.mmu.mudDirhead lv).find? isTbl) with
    | some msa => freeDirearr lv "mmu_del_tdirearr err\n" st msa >>= fun st => .ok (true, st)
    | none => .ok (false, st)

def mmuDelSdirearr (st : St A) : Nat → Option Nat → Halt (Bool × St A) := delDirearr .s st
def mmuDelIdirearr (st : St A) : Nat → Option Nat → Halt (Bool × St A) := delDirearr .i st
def mmuDelMdirearr (st : St A) : Nat → Option Nat → Halt (Bool × St A) := delDirearr .m st

/-! ### One level of the walk -/

/-- The table of level `lv` that entry `index` of its parent names; created when the entry is empty, then with
its descriptor (`*outmsa`). -/
def transformDire (lv : Dire) (st : St A) (parent index flags : Nat) :
    Halt (Option Nat × Option Nat × St A) :=
  let dire := st.rd parent index
  if direIsHave dire then
    phyadrToViradr (direRetPadr dire) >>= fun direarr => .ok (some direarr, none, st)
  else
    newDirearr lv st >>= fun ⟨r, st⟩ =>
      match r with
      | none => .ok (none, none, st)
      | some msa =>
        let dire := A.msadscRetAddr st.alc msa
        phyadrToViradr dire >>= fun direarr =>
          .ok (some direarr, some msa, st.wr parent index (dire ||| flags))

def mmuTransformSdire (st : St A) (tdirearr vadrs flags : Nat) : Halt (Option Nat × Option Nat × St A) :=
  transformDire .s st tdirearr (mmuTdireIndex vadrs) flags

def mmuTransformIdire (st : St A) (sdirearr vadrs flags : Nat) : Halt (Option Nat × Option Nat × St A) :=
  transformDire .i st sdirearr (mmuSdireIndex vadrs) flags

def mmuTransformMdire (st : St A) (idirearr vadrs flags : Nat) : Halt (Option Nat × Option Nat × St A) :=
  transformDire .m st idirearr (mmuIdireIndex vadrs) flags

/-- Free the table of level `lv` that entry `index` of its parent names if it is all zero, and clear the
entry. -/
def untransformDire (lv : Dire) (st : St A) (parent : Nat) (msa : Option Nat) (index : Nat) :
    Halt (Bool × St A) :=
  let dire := st.rd parent index
  if direIsHave dire then
    phyadrToViradr (direRetPadr dire) >>= fun direarr =>
      if st.isAllzero direarr then
        delDirearr lv st direarr msa >>= fun ⟨rets, st⟩ =>
          if rets then .ok (true, st.wr parent index 0) else .ok (false, st)
      else .ok (true, st)
  else .ok (true, st)

def mmuUntransformSdire (st : St A) (tdirearr : Nat) (msa : Option Nat) (vadrs : Nat) : Halt (Bool × St A) :=
  untransformDire .s st tdirearr msa (mmuTdireIndex vadrs)

def mmuUntransformIdire (st : St A) (sdirearr : Nat) (msa : Option Nat) (vadrs : Nat) : Halt (Bool × St A) :=
  untransformDire .i st sdirearr msa (mmuSdireIndex vadrs)

def mmuUntransformMdire (st : St A) (idirearr : Nat) (msa : Option Nat) (vadrs : Nat) : Halt (Bool × St A) :=
  untransformDire .m st idirearr msa (mmuIdireIndex vadrs)

def findDirearr (st : St A) (parent index : Nat) : Halt (Option Nat) :=
  let dire := st.rd parent index
  if direIsHave dire then phyadrToViradr (direRetPadr dire) >>= fun direarr => .ok (some direarr)
  else .ok none

def mmuFindSdirearr (st : St A) (tdirearr vadrs : Nat) : Halt (Option Nat) :=
  if tdirearr = 0 then .ok none else findDirearr st tdirearr (mmuTdireIndex vadrs)

def mmuFindIdirearr (st : St A) (sdirearr vadrs : Nat) : Halt (Option Nat) :=
  findDirearr st sdirearr (mmuSdireIndex vadrs)

def mmuFindMdirearr (st : St A) (idirearr vadrs : Nat) : Halt (Option Nat) :=
  findDirearr st idirearr (mmuIdireIndex vadrs)

/-! ### Mapping and unmapping -/

def mmuTransformMsa (st : St A) (mdirearr vadrs padrs flags : Nat) : Bool × St A :=
  (true, st.wr mdirearr (mmuMdireIndex vadrs) (padrs ||| flags))

def mmuUntransformMsa (st : St A) (mdirearr vadrs : Nat) : Nat × St A :=
  let mdire := st.rd mdirearr (mmuMdireIndex vadrs)
  if direIsHave mdire then (direRetPadr mdire, st.wr mdirearr (mmuMdireIndex vadrs) 0) else (0, st)

def untfSdire (st : St A) (tdirearr : Nat) (smsa : Option Nat) (vadrs : Nat) : Halt (St A) :=
  mmuUntransformSdire st tdirearr smsa vadrs >>= fun ⟨_, st⟩ => .ok st

def untfIdire (st : St A) (tdirearr sdirearr : Nat) (smsa imsa : Option Nat) (vadrs : Nat) : Halt (St A) :=
  mmuUntransformIdire st sdirearr imsa vadrs >>= fun ⟨_, st⟩ => untfSdire st tdirearr smsa vadrs

def untfMdire (st : St A) (tdirearr sdirearr idirearr : Nat) (smsa imsa mmsa : Option Nat) (vadrs : Nat) :
    Halt (St A) :=
  mmuUntransformMdire st idirearr mmsa vadrs >>= fun ⟨_, st⟩ =>
    untfIdire st tdirearr sdirearr smsa imsa vadrs

/-- `hal_mmu_transform_core` from its call of `mmu_transform_msa` on. -/
def transformMsaOn (st : St A) (tdirearr sdirearr idirearr mdirearr : Nat) (smsa imsa mmsa : Option Nat)
    (vadrs padrs flags : Nat) : Halt (Bool × St A) :=
  let r := mmuTransformMsa st mdirearr vadrs padrs flags
  if r.1 then .ok (true, r.2)
  else
    untfMdire (mmuUntransformMsa r.2 mdirearr vadrs).2 tdirearr sdirearr idirearr smsa imsa mmsa vadrs >>=
      fun st => .ok (false, st)

def transformMdireOn (st : St A) (tdirearr sdirearr idirearr : Nat) (smsa imsa : Option Nat)
    (vadrs padrs flags : Nat) : Halt (Bool × St A) :=
  mmuTransformMdire st idirearr vadrs flags >>= fun ⟨r, mmsa, st⟩ =>
    match r with
    | none => untfMdire st tdirearr sdirearr idirearr smsa imsa mmsa vadrs >>= fun st => .ok (false, st)
    | some mdirearr => transformMsaOn st tdirearr sdirearr idirearr mdirearr smsa imsa mmsa vadrs padrs flags

def transformIdireOn (st : St A) (tdirearr sdirearr : Nat) (smsa : Option Nat) (vadrs padrs flags : Nat) :
    Halt (Bool × St A) :=
  mmuTransformIdire st sdirearr vadrs flags >>= fun ⟨r, imsa, st⟩ =>
    match r with
    | none => untfIdire st tdirearr sdirearr smsa imsa vadrs >>= fun st => .ok (false, st)
    | some idirearr => transformMdireOn st tdirearr sdirearr idirearr smsa imsa vadrs padrs flags

def halMmuTransformCore (st : St A) (vadrs padrs flags : Nat) : Halt (Bool × St A) :=
  let tdirearr := st.mmu.mudTdirearr
  if tdirearr = 0 then .ok (false, st)
  else
    mmuTransformSdire st tdirearr vadrs flags >>= fun ⟨r, smsa, st⟩ =>
      match r with
      | none => untfSdire st tdirearr smsa vadrs >>= fun st => .ok (false, st)
      | some sdirearr => transformIdireOn st tdirearr sdirearr smsa vadrs padrs flags

def halMmuTransform (st : St A) (vadrs padrs flags : Nat) : Halt (Bool × St A) :=
  halMmuTransformCore st vadrs padrs flags

/-- `hal_mmu_untransform_core` from its call of `mmu_find_mdirearr` on. -/
def untransformMdireOn (st : St A) (tdirearr sdirearr idirearr vadrs : Nat) : Halt (Nat × St A) :=
  mmuFindMdirearr st idirearr vadrs >>= fun r =>
    match r with
    | none => untfIdire st tdirearr sdirearr none none vadrs >>= fun st => .ok (0, st)
    | some mdirearr =>
      let r := mmuUntransformMsa st mdirearr vadrs
      untfMdire r.2 tdirearr sdirearr idirearr none none none vadrs >>= fun st => .ok (r.1, st)

def untransformIdireOn (st : St A) (tdirearr sdirearr vadrs : Nat) : Halt (Nat × St A) :=
  mmuFindIdirearr st sdirearr vadrs >>= fun r =>
    match r with
    | none => untfSdire st tdirearr none vadrs >>= fun st => .ok (0, st)
    | some idirearr => untransformMdireOn st tdirearr sdirearr idirearr vadrs

def halMmuUntransformCore (st : St A) (vadrs : Nat) : Halt (Nat × St A) :=
  let tdirearr := st.mmu.mudTdirearr
  mmuFindSdirearr st tdirearr vadrs >>= fun r =>
    match r with
    | none => .ok (0, st)
    | some sdirearr => untransformIdireOn st tdirearr sdirearr vadrs

def halMmuUntransform (st : St A) (vadrs : Nat) : Halt (Nat × St A) :=
  halMmuUntransformCore st vadrs

/-! ### Making and cleaning an address space's tables -/

/-- `hal_mmu_init`: a root table with the kernel's entries, copied from the boot root table at
`mb_pml4padr`. -/
def halMmuInit (mbPml4padr : Nat) (st : St A) : Halt (Bool × St A) :=
  mmuNewTdirearr st >>= fun ⟨r, st⟩ =>
    match r with
    | none => .ok (false, st)
    | some _ =>
      phyadrToViradr mbPml4padr >>= fun vcr3 =>
        let st := st.fill st.mmu.mudTdirearr (st.rd vcr3)
        viradrToPhyadr st.mmu.mudTdirearr >>= fun cr3 =>
          let st := { st with mmu := { st.mmu with mudCr3 := cr3 } }
          .ok (true, st.wr st.mmu.mudTdirearr 0 0)

def cleanDirearrmsas (lv : Dire) (msg : String) : List Nat → St A → Halt (St A)
  | [], st => .ok st
  | msa :: msas, st => freeDirearr lv msg st msa >>= cleanDirearrmsas lv msg msas

def mmuCleanMdirearrmsas (st : St A) : Halt (St A) :=
  cleanDirearrmsas .m "mmu_clean_mdirearrmsas" (st.mmu.mudDirhead .m) st

def mmuCleanIdirearrmsas (st : St A) : Halt (St A) :=
  cleanDirearrmsas .i "mmu_clean_idirearrmsas" (st.mmu.mudDirhead .i) st

def mmuCleanSdirearrmsas (st : St A) : Halt (St A) :=
  cleanDirearrmsas .s "mmu_clean_sdirearrmsas" (st.mmu.mudDirhead .s) st

def mmuCleanTdirearrmsas (st : St A) : Halt (St A) :=
  cleanDirearrmsas .t "mmu_clean_tdirearrmsas" (st.mmu.mudDirhead .t) st

/-- `hal_mmu_clean`; `cr3` is the register's value. The tables the CPU runs on are not freed. -/
def halMmuClean (cr3 : Nat) (st : St A) : Halt (Bool × St A) :=
  phyadrToViradr (direRetPadr cr3) >>= fun vcr3 =>
    if vcr3 = st.mmu.mudTdirearr then .ok (false, st)
    else
      mmuCleanMdirearrmsas st >>= mmuCleanIdirearrmsas >>= mmuCleanSdirearrmsas >>=
        mmuCleanTdirearrmsas >>= fun st => .ok (true, st)

end Cosmos.Mmu
