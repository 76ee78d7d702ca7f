import Mathlib.Logic.Function.Basic
import Mathlib.Data.Nat.Log
import Cosmos.Page.Interface

/-!
# The page allocator (`hal/x86/memdivmer.c`)

Every physical page has a descriptor in one array; a descriptor pointer is its index. An area keeps its free
blocks of `2 ^ k` pages on the list `dm_mdmlielst[k]` and, for process memory, single pages on `dm_onemsalst`,
which follows the array and is slot 52 here. The first descriptor of a block links to its last one, and the
last one of a free block to the list the block hangs on.

`mm_division_pages` takes a block from the first list that has one and splits it down to the order asked for;
`mm_merge_pages` joins a freed block with a neighbour of its order as long as there is one.
-/

namespace Cosmos.Page

open Cosmos.Lib Function

/-! ### Data -/

inductive Olkty where
  | init | oder | bafh | tobj
  deriving DecidableEq, Repr

inductive Mocty where
  | free | krnl | user
  deriving DecidableEq, Repr

/-- A `bafhlst_t *`: the area and the slot in its `memdivmer_t`. -/
structure Bafhptr where
  area : Nat
  slot : Nat
  deriving DecidableEq, Repr

inductive Odlink where
  | null
  | msa (i : Nat)
  | bafh (p : Bafhptr)
  deriving DecidableEq, Repr

/-- `msadsc_t`, without its list node, its lock and the flags no function here reads. -/
structure Msadsc where
  mfOlkty : Olkty
  mfMocty : Mocty
  mfMarty : Nat
  mfUindx : Nat
  pafAlloc : Bool
  pafPadrs : Nat
  mdOdlink : Odlink
  deriving DecidableEq, Repr

inductive BafhStus where
  | init | onem | divp | divm
  deriving DecidableEq, Repr

/-- `bafhlst_t`; `af_frelst` by the first descriptors of its blocks. -/
structure Bafhlst where
  afStus : BafhStus
  afOder : Nat
  afOderpnr : Nat
  afFobjnr : Nat
  afMobjnr : Nat
  afAlcindx : Nat
  afFreindx : Nat
  afFrelst : List Nat
  deriving DecidableEq, Repr

/-- `memarea_t`, without the fields that only its initialiser writes and with `ma_mdmdata` apart. -/
structure Memarea where
  maType : Nat
  maMaxpages : Nat
  maAllocpages : Nat
  maFreepages : Nat
  maLogicstart : Nat
  maLogicend : Nat
  maAllmsadscnr : Nat
  deriving DecidableEq, Repr

def maTypeInit : Nat := 0
def maTypeShar : Nat := 4
def memareaMax : Nat := 4
def mdivmerArrLmax : Nat := 52
def mfUindxMax : Nat := 0xffffff

def onemsalst : Nat := mdivmerArrLmax

/-- `memmgrob_t`, with the descriptor array, the areas and their lists. -/
structure Memmgrob where
  moMsanr : Nat
  msa : Nat → Msadsc
  moMareanr : Nat
  marea : Nat → Memarea
  bafh : Nat → Nat → Bafhlst
  moMaxpages : Nat
  moAlocpages : Nat
  moFreepages : Nat

namespace Memmgrob

def setMsa (s : Memmgrob) (i : Nat) (f : Msadsc → Msadsc) : Memmgrob :=
  { s with msa := update s.msa i (f (s.msa i)) }

def setMarea (s : Memmgrob) (a : Nat) (f : Memarea → Memarea) : Memmgrob :=
  { s with marea := update s.marea a (f (s.marea a)) }

def setBafh (s : Memmgrob) (a k : Nat) (f : Bafhlst → Bafhlst) : Memmgrob :=
  { s with bafh := update s.bafh a (update (s.bafh a) k (f (s.bafh a k))) }

end Memmgrob

/-- `(uint_t)(mend - mstat) + 1` on descriptor pointers. -/
def msaCount (mstat mend : Nat) : Nat := (mend + 1 + (2 ^ 64 - mstat)) % 2 ^ 64

/-- `(msadsc_t *)md_odlink`. A link to a list read as a descriptor pointer is undefined in the source. -/
def Odlink.toMsa : Odlink → Halt (Option Nat)
  | .null => .ok none
  | .msa i => .ok (some i)
  | .bafh _ => .error "md_odlink"

/-! ### Counters and look-ups -/

/-- `mm_update_memmgrob`, `flgs` 0 (`alloc`) or 1. -/
def mmUpdateMemmgrob (s : Memmgrob) (realpnr : Nat) (alloc : Bool) : Memmgrob :=
  if alloc then
    { s with
      moAlocpages := u64 (s.moAlocpages + realpnr)
      moFreepages := u64Sub s.moFreepages realpnr }
  else
    { s with
      moAlocpages := u64Sub s.moAlocpages realpnr
      moFreepages := u64 (s.moFreepages + realpnr) }

/-- `mm_update_memarea`, `flgs` 0 (`alloc`) or 1. -/
def mmUpdateMemarea (s : Memmgrob) (a pgnr : Nat) (alloc : Bool) : Memmgrob :=
  s.setMarea a fun ma =>
    if alloc then
      { ma with
        maFreepages := u64Sub ma.maFreepages pgnr
        maAllocpages := u64 (ma.maAllocpages + pgnr) }
    else
      { ma with
        maFreepages := u64 (ma.maFreepages + pgnr)
        maAllocpages := u64Sub ma.maAllocpages pgnr }

/-- `search_64rlbits`: one more than the highest set bit, `0` for none. -/
def search64rlbits (val : Nat) : Int := if val = 0 then 0 else Nat.log2 val + 1

def retnDivoder (pages : Nat) : Int :=
  let pbits := search64rlbits pages - 1
  if pages &&& (pages - 1) ≠ 0 then pbits + 1 else pbits

def onfrmsaRetnFpagenr (s : Memmgrob) (freemsa : Nat) : Nat :=
  match (s.msa freemsa).mdOdlink with
  | .msa fmend => if fmend < freemsa then 0 else fmend - freemsa + 1
  | _ => 0

def onmrtypeRetnMarea (s : Memmgrob) (mrtype : Nat) : Option Nat :=
  (List.range s.moMareanr).find? fun mi => decide ((s.marea mi).maType = mrtype)

def onfrmsaRetnMarea (s : Memmgrob) (freemsa freepgs : Nat) : Halt (Option Nat) :=
  let fm := s.msa freemsa
  if fm.mfOlkty ≠ .oder then .ok none
  else
    fm.mdOdlink.toMsa >>= fun fmend =>
      match fmend with
      | none => .ok none
      | some fmend =>
        if msaCount freemsa fmend ≠ freepgs then .ok none
        else if fm.mfMarty ≠ (s.msa fmend).mfMarty then .ok none
        else .ok (onmrtypeRetnMarea s fm.mfMarty)

def onmaRetnMaxbafhlst (s : Memmgrob) (a : Nat) : Option Nat :=
  (List.range mdivmerArrLmax).reverse.find? fun li => decide (0 < (s.bafh a li).afFobjnr)

def retnProcmarea (s : Memmgrob) : Option Nat := onmrtypeRetnMarea s maTypeProc

def scanMapgsallocOk (s : Memmgrob) (a pages : Nat) : Bool :=
  decide (1 ≤ pages ∧ pages ≤ (s.marea a).maFreepages ∧ pages ≤ (s.marea a).maMaxpages)

/-! ### Division -/

/-- `mm_divpages_opmsadsc`: mark a block allocated at its first and last descriptor. -/
def mmDivpagesOpmsadsc (s : Memmgrob) (msastat mnr : Nat) : Halt (Option Nat × Memmgrob) :=
  if mnr = 0 then .ok (none, s)
  else
    let ms := s.msa msastat
    if (ms.mfOlkty ≠ .oder ∧ ms.mfOlkty ≠ .bafh) ∨ ms.mdOdlink = .null ∨ ms.pafAlloc = true then
      .error "mm_divpages_opmsadsc err1\n"
    else
      (if ms.mfOlkty = .bafh then .ok (some msastat) else ms.mdOdlink.toMsa) >>= fun mend =>
        match mend with
        | none => .error "mm_divpages_opmsadsc err1\n"
        | some mend =>
          if mend < msastat then .error "mm_divpages_opmsadsc err2\n"
          else if msaCount msastat mend ≠ mnr then .error "mm_divpages_opmsadsc err3\n"
          else if mfUindxMax - 1 < ms.mfUindx ∨ mfUindxMax - 1 < (s.msa mend).mfUindx ∨
              ms.mfUindx ≠ (s.msa mend).mfUindx then .error "mm_divpages_opmsadsc err4"
          else
            let s := if msastat = mend then s
              else s.setMsa mend fun d => { d with mfUindx := d.mfUindx + 1, pafAlloc := true }
            .ok (some msastat, s.setMsa msastat fun d =>
              { d with mfUindx := d.mfUindx + 1, pafAlloc := true, mfOlkty := .oder, mdOdlink := .msa mend })

/-- `onmpgs_retn_bafhlst`: the slot of the order asked for, and the first from there on with a free block. -/
def onmpgsRetnBafhlst (s : Memmgrob) (a pages : Nat) : Option (Nat × Nat) :=
  let dividx := retnDivoder pages
  if dividx < 0 ∨ (mdivmerArrLmax : Int) ≤ dividx then none
  else if (s.bafh a dividx.toNat).afOderpnr < pages then none
  else
    ((List.range' dividx.toNat (mdivmerArrLmax - dividx.toNat)).find? fun idx =>
      decide (pages ≤ (s.bafh a idx).afOderpnr ∧ 0 < (s.bafh a idx).afFobjnr)).map fun idx => (dividx.toNat, idx)

/-- `mm_retnmsaob_onbafhlst`: take the first block off a list. -/
def mmRetnmsaobOnbafhlst (s : Memmgrob) (a k : Nat) : Halt (Option (Nat × Option Nat) × Memmgrob) :=
  let bafhp := s.bafh a k
  if bafhp.afMobjnr < 1 ∨ bafhp.afFobjnr < 1 then .ok (none, s)
  else
    match bafhp.afFrelst with
    | [] => .ok (none, s)
    | tmp :: frelst =>
      let s := s.setBafh a k fun bafh =>
        { bafh with
          afFrelst := frelst
          afMobjnr := u64Sub bafh.afMobjnr 1
          afFobjnr := u64Sub bafh.afFobjnr 1
          afFreindx := u64 (bafh.afFreindx + 1) }
      let ms := s.msa tmp
      (if ms.mfOlkty = .bafh then .ok (some tmp) else ms.mdOdlink.toMsa) >>= fun retmend =>
        .ok (some (tmp, retmend), s)

/-- `mrdmb_add_msa_bafh`: hang the descriptors `msastat … msaend` on slot `k`. -/
def mrdmbAddMsaBafh (s : Memmgrob) (a k msastat : Nat) (msaend : Option Nat) : Bool × Memmgrob :=
  match msaend with
  | none => (false, s)
  | some msaend =>
    let mnr := msaCount msastat msaend
    if (s.bafh a k).afOderpnr ≠ mnr then (false, s)
    else if 0 < (s.msa msastat).mfUindx ∨ 0 < (s.msa msaend).mfUindx then (false, s)
    else if (s.msa msastat).pafAlloc = true ∨ (s.msa msaend).pafAlloc = true then (false, s)
    else if msastat = msaend ∧ mnr ≠ 1 ∧ (s.bafh a k).afOderpnr ≠ 1 then (false, s)
    else
      let s := s.setMsa msastat fun d => { d with mfOlkty := .oder, mdOdlink := .msa msaend }
      let s := s.setMsa msaend fun d => { d with mfOlkty := .bafh, mdOdlink := .bafh ⟨a, k⟩ }
      (true, s.setBafh a k fun bafh =>
        { bafh with
          afFrelst := msastat :: bafh.afFrelst
          afMobjnr := u64 (bafh.afMobjnr + 1)
          afFobjnr := u64 (bafh.afFobjnr + 1) })

/-- The loop of `mm_reldpgsdivmsa_bafhl` over the slots `rel + c - 1` down to `rel`: the upper half goes to the
slot's list. -/
def divLoop (a retmstat rel : Nat) : Nat → Nat → Memmgrob → Halt (Nat × Memmgrob)
  | 0, divnr, s => .ok (divnr, s)
  | c + 1, divnr, s =>
    let pnr := (s.bafh a (rel + c)).afOderpnr
    (s.msa retmstat).mdOdlink.toMsa >>= fun mend =>
      let r := mrdmbAddMsaBafh s a (rel + c) (retmstat + pnr) mend
      if r.1 then
        divLoop a retmstat rel c (u64Sub divnr pnr)
          (r.2.setMsa retmstat fun d => { d with mdOdlink := .msa (retmstat + pnr - 1) })
      else .error "mrdmb_add_msa_bafh fail\n"

/-- `mm_reldpgsdivmsa_bafhl`: the block with its number of pages. With `rel` and `div` equal the loop is empty,
which is the source's first branch and also what `mm_prcdivpages_onmarea` does on its list. -/
def mmReldpgsdivmsaBafhl (s : Memmgrob) (a rel div : Nat) : Halt (Option (Nat × Nat) × Memmgrob) :=
  if div < rel then .ok (none, s)
  else
    mmRetnmsaobOnbafhlst s a div >>= fun ⟨r, s⟩ =>
      match r with
      | some (retmstat, some retmend) =>
        if msaCount retmstat retmend ≠ (s.bafh a div).afOderpnr then .ok (none, s)
        else
          divLoop a retmstat rel (div - rel) (s.bafh a div).afOderpnr s >>= fun ⟨divnr, s⟩ =>
            mmDivpagesOpmsadsc s retmstat divnr >>= fun ⟨retmsa, s⟩ =>
              .ok (retmsa.map fun retmsa => (retmsa, (s.bafh a rel).afOderpnr), s)
      | _ => .ok (none, s)

def mmReldivpagesOnmarea (s : Memmgrob) (a pages : Nat) : Halt (Option (Nat × Nat) × Memmgrob) :=
  if scanMapgsallocOk s a pages = false then .ok (none, s)
  else
    match onmpgsRetnBafhlst s a pages with
    | none => .ok (none, s)
    | some (rel, div) => mmReldpgsdivmsaBafhl s a rel div

def mmMaxdivpagesOnmarea (s : Memmgrob) (a : Nat) : Halt (Option (Nat × Nat) × Memmgrob) :=
  match onmaRetnMaxbafhlst s a with
  | none => .ok (none, s)
  | some k =>
    mmRetnmsaobOnbafhlst s a k >>= fun ⟨r, s⟩ =>
      match r with
      | some (retmstat, some _) =>
        mmDivpagesOpmsadsc s retmstat (s.bafh a k).afOderpnr >>= fun ⟨retmsa, s⟩ =>
          .ok (retmsa.map fun retmsa => (retmsa, (s.bafh a k).afOderpnr), s)
      | _ => .ok (none, s)

def mmPrcdivpagesOnmarea (s : Memmgrob) (a pages : Nat) : Halt (Option (Nat × Nat) × Memmgrob) :=
  if pages ≠ 1 then .ok (none, s)
  else if (s.marea a).maType ≠ maTypeProc then .ok (none, s)
  else if scanMapgsallocOk s a pages = false then .ok (none, s)
  else mmReldpgsdivmsaBafhl s a onemsalst onemsalst

def countAlloc (a : Nat) : Option (Nat × Nat) × Memmgrob → Option (Nat × Nat) × Memmgrob
  | (some (msa, pnr), s) =>
    if pnr ≠ 0 then (some (msa, pnr), mmUpdateMemmgrob (mmUpdateMemarea s a pnr true) pnr true)
    else (some (msa, pnr), s)
  | r => r

def mmDivpagesCore (s : Memmgrob) (a pages flgs : Nat) : Halt (Option (Nat × Nat) × Memmgrob) :=
  if flgs ≠ dmfReldiv ∧ flgs ≠ dmfMaxdiv then .ok (none, s)
  else if (s.marea a).maType ≠ maTypeKrnl ∧ (s.marea a).maType ≠ maTypeHwad then .ok (none, s)
  else
    (if flgs = dmfMaxdiv then mmMaxdivpagesOnmarea s a else mmReldivpagesOnmarea s a pages) >>= fun r =>
      .ok (countAlloc a r)

/-- `mm_division_pages` through `mm_divpages_fmwk`. -/
def mmDivisionPages (s : Memmgrob) (pages mrtype flgs : Nat) : Halt (Option (Nat × Nat) × Memmgrob) :=
  if mrtype = 0 then .ok (none, s)
  else
    match onmrtypeRetnMarea s mrtype with
    | none => .ok (none, s)
    | some a => mmDivpagesCore s a pages flgs

def divpagesProcmareaCore (s : Memmgrob) (pages : Nat) : Halt (Option (Nat × Nat) × Memmgrob) :=
  if pages ≠ 1 then .ok (none, s)
  else
    match retnProcmarea s with
    | none => .ok (none, s)
    | some a =>
      if scanMapgsallocOk s a pages = false then .ok (none, s)
      else
        mmPrcdivpagesOnmarea s a pages >>= fun r =>
          let r := countAlloc a r
          .ok (r.1.filter fun b => decide (b.2 ≠ 0), r.2)

/-- `mm_divpages_procmarea`: from process memory, else from kernel memory. -/
def mmDivpagesProcmarea (s : Memmgrob) (pages : Nat) : Halt (Option (Nat × Nat) × Memmgrob) :=
  if pages ≠ 1 then .ok (none, s)
  else
    divpagesProcmareaCore s pages >>= fun ⟨r, s⟩ =>
      match r with
      | some b => .ok (some b, s)
      | none => mmDivisionPages s pages maTypeKrnl dmfReldiv

/-! ### Merging -/

def scanFreemsaIsok (s : Memmgrob) (freemsa freepgs : Nat) : Halt Bool :=
  let fm := s.msa freemsa
  if freepgs < 1 then .ok false
  else if fm.mfOlkty ≠ .oder ∨ fm.mfUindx < 1 then .ok false
  else
    fm.mdOdlink.toMsa >>= fun mend =>
      match mend with
      | none => .ok false
      | some mend =>
        if fm.pafAlloc = false ∨ (s.msa mend).pafAlloc = false ∨ (s.msa mend).mfUindx < 1 then .ok false
        else .ok (decide (msaCount freemsa mend = freepgs))

/-- The outcomes of `mm_merpages_opmsadsc`: refused, still shared, free. -/
inductive Mopms where
  | refused | shared | freed
  deriving DecidableEq, Repr

/-- `mm_merpages_opmsadsc`: drop one use of a block; at the last one its last descriptor links to the list. -/
def mmMerpagesOpmsadsc (s : Memmgrob) (a k freemsa freepgs : Nat) : Halt (Mopms × Memmgrob) :=
  let fm := s.msa freemsa
  if freepgs < 1 then .ok (.refused, s)
  else if fm.mfOlkty ≠ .oder ∨ fm.mdOdlink = .null then .error "mm_merpages_opmsadsc err1\n"
  else
    fm.mdOdlink.toMsa >>= fun fmend =>
      match fmend with
      | none => .error "mm_merpages_opmsadsc err1\n"
      | some fmend =>
        if fmend < freemsa then .error "mm_merpages_opmsadsc err2\n"
        else if (s.bafh a k).afOderpnr ≠ freepgs ∨ msaCount freemsa fmend ≠ freepgs then
          .error "mm_merpages_opmsadsc err3\n"
        else if fm.pafAlloc = false ∨ fm.mfUindx < 1 then .error "mm_merpages_opmsadsc err4\n"
        else if (s.msa fmend).pafAlloc = false ∨ (s.msa fmend).mfUindx < 1 then .error "mm_merpages_opmsadsc err5\n"
        else if fm.mfUindx ≠ (s.msa fmend).mfUindx then .error "mm_merpages_opmsadsc err6\n"
        else if freemsa = fmend then
          let s := s.setMsa freemsa fun d => { d with mfUindx := d.mfUindx - 1 }
          if 0 < (s.msa freemsa).mfUindx then .ok (.shared, s)
          else
            .ok (.freed, s.setMsa freemsa fun d =>
              { d with pafAlloc := false, mfOlkty := .bafh, mdOdlink := .bafh ⟨a, k⟩ })
        else
          let s := s.setMsa freemsa fun d => { d with mfUindx := d.mfUindx - 1 }
          let s := s.setMsa fmend fun d => { d with mfUindx := d.mfUindx - 1 }
          if 0 < (s.msa freemsa).mfUindx then .ok (.shared, s)
          else
            let s := s.setMsa freemsa fun d => { d with pafAlloc := false, mfOlkty := .oder, mdOdlink := .msa fmend }
            .ok (.freed, s.setMsa fmend fun d =>
              { d with pafAlloc := false, mfOlkty := .bafh, mdOdlink := .bafh ⟨a, k⟩ })

/-- `onfpgs_retn_bafhlst`: the slot of the block's order; merging ends at the last slot. -/
def onfpgsRetnBafhlst (s : Memmgrob) (a freepgs : Nat) : Halt (Option Nat) :=
  let dividx := retnDivoder freepgs
  if freepgs < 1 then .ok none
  else if dividx < 0 ∨ (mdivmerArrLmax : Int) ≤ dividx then .ok none
  else if 2 ^ 64 - 1 ≤ (s.bafh a dividx.toNat).afMobjnr then .error "onfpgs_retn_bafhlst af_mobjnr max"
  else if 2 ^ 64 - 1 ≤ (s.bafh a dividx.toNat).afFobjnr then .error "onfpgs_retn_bafhlst af_fobjnr max"
  else if (s.bafh a dividx.toNat).afOderpnr ≠ freepgs then .ok none
  else .ok (some dividx.toNat)

/-- `mm_cmsa1blk_isok`: `2` as true. -/
def mmCmsa1blkIsok (s : Memmgrob) (p : Bafhptr) (ms me : Nat) : Bool :=
  let s1 := s.msa ms
  let e1 := s.msa me
  decide (ms ≤ me) &&
    (decide (ms = me) ||
      decide (s1.mfOlkty = .oder ∧ s1.mdOdlink = .msa me ∧ s1.pafAlloc = false ∧ s1.mfUindx = 0)) &&
    decide (e1.mfOlkty = .bafh ∧ e1.mdOdlink = .bafh p ∧ e1.pafAlloc = false ∧ e1.mfUindx = 0 ∧
      bitsSub 52 e1.pafPadrs s1.pafPadrs = me - ms)

/-- The outcomes of `mm_cmsa2blk_isok`: `0`, `1`, `2` and `4`. -/
inductive Cmsa where
  | bad | apart | below | above
  deriving DecidableEq, Repr

/-- `mm_cmsa2blk_isok`: is the first block right `below` or right `above` the second one? -/
def mmCmsa2blkIsok (s : Memmgrob) (p : Bafhptr) (ms1 me1 ms2 me2 : Nat) : Halt Cmsa :=
  if ms1 = ms2 ∨ me1 = me2 then .ok .bad
  else if mmCmsa1blkIsok s p ms1 me1 = false then .error "mm_cmsa1blk_isok ret1s == 0\n"
  else if mmCmsa1blkIsok s p ms2 me2 = false then .error "mm_cmsa1blk_isok ret2s == 0\n"
  else if ms1 < ms2 ∧ me1 < me2 then
    if me1 + 1 ≠ ms2 ∨ bits 52 ((s.msa me1).pafPadrs + 1) ≠ (s.msa ms2).pafPadrs then .ok .apart else .ok .below
  else if ms2 < ms1 ∧ me2 < me1 then
    if me2 + 1 ≠ ms1 ∨ bits 52 ((s.msa me2).pafPadrs + 1) ≠ (s.msa ms1).pafPadrs then .ok .apart else .ok .above
  else .ok .bad

def chekCl2molkflg (s : Memmgrob) (p : Bafhptr) (ms1 me1 ms2 me2 : Nat) : Bool :=
  let linked := decide ((s.msa ms1).mfOlkty = .oder ∧ (s.msa ms1).mdOdlink = .msa me2)
  let hung := decide ((s.msa me2).mfOlkty = .bafh ∧ (s.msa me2).mdOdlink = .bafh p)
  decide (ms1 ≠ ms2 ∧ me1 ≠ me2 ∧ msaCount ms1 me2 = (s.bafh p.area p.slot).afOderpnr) && linked && hung &&
    (decide (ms1 = me1 ∧ ms2 = me2) ||
      decide ((s.msa me1).mfOlkty = .init ∧ (s.msa me1).mdOdlink = .null ∧
        (s.msa ms2).mfOlkty = .init ∧ (s.msa ms2).mdOdlink = .null))

/-- `mm_clear_2msaolflg`: join two blocks, the first one right below the second. -/
def mmClear2msaolflg (s : Memmgrob) (p : Bafhptr) (ms1 me1 ms2 me2 : Nat) : Bool × Memmgrob :=
  if ms1 = ms2 ∨ me1 = me2 then (false, s)
  else
    let s := s.setMsa me1 fun d => { d with mfOlkty := .init, mdOdlink := .null }
    let s := s.setMsa ms2 fun d => { d with mfOlkty := .init, mdOdlink := .null }
    let s := s.setMsa ms1 fun d => { d with mfOlkty := .oder, mdOdlink := .msa me2 }
    (true, s.setMsa me2 fun d => { d with mfOlkty := .bafh, mdOdlink := .bafh p })

/-- The scan of `mm_find_cmsa2blk` over a free list: the last comparison, and the neighbour if there is one. -/
def scanCmsa2blk (s : Memmgrob) (a k mstat mend : Nat) : List Nat → Cmsa → Halt (Cmsa × Option Nat)
  | [], rets => .ok (rets, none)
  | tmpmsa :: frelst, _ =>
    mmCmsa2blkIsok s ⟨a, k⟩ mstat mend tmpmsa (tmpmsa + (s.bafh a k).afOderpnr - 1) >>= fun rets =>
      if rets = .below ∨ rets = .above then .ok (rets, some tmpmsa)
      else scanCmsa2blk s a k mstat mend frelst rets

/-- `mm_clear_2msaolflg` and its check for slot `k + 1`; `none` is the source's `0`. -/
def joinBlks (s : Memmgrob) (a k ms1 me1 ms2 me2 : Nat) (msg : String) : Halt (Option (Nat × Nat) × Memmgrob) :=
  let r := mmClear2msaolflg s ⟨a, k + 1⟩ ms1 me1 ms2 me2
  if r.1 then
    if chekCl2molkflg r.2 ⟨a, k + 1⟩ ms1 me1 ms2 me2 = false then .error msg
    else .ok (some (ms1, me2), r.2)
  else .ok (none, r.2)

/-- The outcomes of `mm_find_cmsa2blk`: `0`, `1`, and `2` with the joined block. -/
inductive Cmsa2blk where
  | fail | alone | joined (mstat mend : Nat)
  deriving DecidableEq, Repr

def mmFindCmsa2blk (s : Memmgrob) (a k mstat mend : Nat) : Halt (Cmsa2blk × Memmgrob) :=
  if (s.bafh a k).afFobjnr < 1 then .ok (.alone, s)
  else
    scanCmsa2blk s a k mstat mend (s.bafh a k).afFrelst .bad >>= fun ⟨rets, blk⟩ =>
      match blk with
      | none => .ok (.alone, s)
      | some blkms =>
        let blkme := blkms + (s.bafh a k).afOderpnr - 1
        let s := s.setBafh a k fun bafh =>
          { bafh with
            afFrelst := bafh.afFrelst.erase blkms
            afFobjnr := u64Sub bafh.afFobjnr 1
            afMobjnr := u64Sub bafh.afMobjnr 1 }
        (if rets = .below then joinBlks s a k mstat mend blkms blkme "chek_cl2molkflg err1\n"
          else joinBlks s a k blkms blkme mstat mend "chek_cl2molkflg err2\n") >>= fun ⟨r, s⟩ =>
          match r with
          | some (ms, me) => .ok (.joined ms me, s)
          | none => .ok (.fail, s)

def mpobfAddMsadsc (s : Memmgrob) (a k freemstat freemend : Nat) : Halt (Bool × Memmgrob) :=
  if freemend < freemstat then .ok (false, s)
  else if (s.bafh a k).afOderpnr ≠ msaCount freemstat freemend then .ok (false, s)
  else if 2 ^ 64 - 1 ≤ (s.bafh a k).afFobjnr ∨ 2 ^ 64 - 1 ≤ (s.bafh a k).afMobjnr then
    .error "(~0UL)<=bafhp->af_fobjnr\n"
  else
    let s := s.setMsa freemstat fun d => { d with mfOlkty := .oder, mdOdlink := .msa freemend }
    let s := s.setMsa freemend fun d => { d with mfOlkty := .bafh, mdOdlink := .bafh ⟨a, k⟩ }
    .ok (true, s.setBafh a k fun bafh =>
      { bafh with
        afFrelst := freemstat :: bafh.afFrelst
        afFobjnr := u64 (bafh.afFobjnr + 1)
        afMobjnr := u64 (bafh.afMobjnr + 1) })

/-- The loop of `mm_merpages_onbafhlst` over `c` slots from `k` on: the slot it ends at and the block there. -/
def merLoop (a : Nat) : Nat → Nat → Nat → Nat → Memmgrob → Halt ((Nat × Nat × Nat) × Memmgrob)
  | 0, k, mnxs, mnxe, s => .ok ((k, mnxs, mnxe), s)
  | c + 1, k, mnxs, mnxe, s =>
    mmFindCmsa2blk s a k mnxs mnxe >>= fun ⟨r, s⟩ =>
      match r with
      | .alone => .ok ((k, mnxs, mnxe), s)
      | .fail => .error "mm_find_cmsa2blk retn 0\n"
      | .joined ms me => merLoop a c (k + 1) ms me s

def mmMerpagesOnbafhlst (s : Memmgrob) (a relbf freemsa freepgs : Nat) : Halt (Bool × Memmgrob) :=
  merLoop a (mdivmerArrLmax - 1 - relbf) relbf freemsa (freemsa + freepgs - 1) s >>= fun ⟨⟨k, ms, me⟩, s⟩ =>
    mpobfAddMsadsc s a k ms me

def countFree (s : Memmgrob) (a freepgs : Nat) : Memmgrob :=
  mmUpdateMemmgrob (mmUpdateMemarea s a freepgs false) freepgs false

def mmMerpagesOnmarea (s : Memmgrob) (a freemsa freepgs : Nat) : Halt (Bool × Memmgrob) :=
  if freepgs < 1 then .ok (false, s)
  else if (s.marea a).maType = maTypeProc then
    mmMerpagesOpmsadsc s a onemsalst freemsa freepgs >>= fun ⟨pocs, s⟩ =>
      match pocs with
      | .freed =>
        mpobfAddMsadsc s a onemsalst freemsa (freemsa + freepgs - 1) >>= fun ⟨rets, s⟩ =>
          if rets then .ok (true, countFree s a freepgs)
          else .error "mm_merpages_onmarea proc memarea merge fail\n"
      | .shared => .ok (true, s)
      | .refused => .ok (false, s)
  else
    onfpgsRetnBafhlst s a freepgs >>= fun relbf =>
      match relbf with
      | none => .ok (false, s)
      | some relbf =>
        mmMerpagesOpmsadsc s a relbf freemsa freepgs >>= fun ⟨mopms, s⟩ =>
          match mopms with
          | .freed =>
            mmMerpagesOnbafhlst s a relbf freemsa freepgs >>= fun ⟨rets, s⟩ =>
              if rets then .ok (true, countFree s a freepgs) else .ok (false, s)
          | .shared => .ok (true, s)
          | .refused => .ok (false, s)

def mmMerpagesCore (s : Memmgrob) (a freemsa freepgs : Nat) : Halt (Bool × Memmgrob) :=
  if freepgs < 1 then .ok (false, s)
  else
    scanFreemsaIsok s freemsa freepgs >>= fun isok =>
      if isok then mmMerpagesOnmarea s a freemsa freepgs else .ok (false, s)

/-- `mm_merge_pages` through `mm_merpages_fmwk`. -/
def mmMergePages (s : Memmgrob) (freemsa freepgs : Nat) : Halt (Bool × Memmgrob) :=
  if freepgs < 1 then .ok (false, s)
  else
    onfrmsaRetnMarea s freemsa freepgs >>= fun marea =>
      match marea with
      | none => .ok (false, s)
      | some a => mmMerpagesCore s a freemsa freepgs

end Cosmos.Page
