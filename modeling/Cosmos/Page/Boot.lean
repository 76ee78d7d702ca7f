import Cosmos.Page.Model

/-!
# The free lists at boot (`hal/x86/memarea.c`, `init_memmgrob`)

`init_merlove_mem` gives each page descriptor the area of its address, cuts each run of consecutive free pages of
an area into blocks and hangs them on the area's lists, and checks the lists. The pages that the kernel occupies
are marked before. The scan of a run may look at the descriptor after the last one, so the memory behind the array
is part of the input.
-/

namespace Cosmos.Page

open Cosmos.Lib

/-- What `init_merlove_mem` finds: the number of page descriptors and the descriptors, with the memory behind. -/
structure Boot where
  msanr : Nat
  msa : Nat → Msadsc

/-- `paf_padrs << PSHRSIZE`, a shift of a bit-field of 52 bits. -/
def phyadrOf (d : Msadsc) : Nat := bits 52 (d.pafPadrs * 0x1000)

def martyOf (maType : Nat) : Option Nat :=
  if maType = maTypeHwad ∨ maType = maTypeKrnl ∨ maType = maTypeProc then some maType else none

/-! ### Areas -/

def bafhlstInit (stus : BafhStus) (oder oderpnr : Nat) : Bafhlst where
  afStus := stus
  afOder := oder
  afOderpnr := oderpnr
  afFobjnr := 0
  afMobjnr := 0
  afAlcindx := 0
  afFreindx := 0
  afFrelst := []

def memdivmerInit (k : Nat) : Bafhlst :=
  if k < mdivmerArrLmax then bafhlstInit .divm k (2 ^ k) else bafhlstInit .onem 0 1

/-- `memarea_t_init`, with the type and the range that `init_memarea_core` writes. -/
def memareaInit (maType logicstart logicend : Nat) : Memarea where
  maType := maType
  maMaxpages := 0
  maAllocpages := 0
  maFreepages := 0
  maLogicstart := logicstart
  maLogicend := logicend
  maAllmsadscnr := 0

def initMemareaCore : Nat → Memarea
  | 0 => memareaInit maTypeHwad 0 0x1ffffff
  | 1 => memareaInit maTypeKrnl 0x2000000 0x3ffffffff
  | 2 => memareaInit maTypeProc 0x400000000 0xffffffffffffffff
  | 3 => memareaInit maTypeShar 0 0
  | _ => memareaInit maTypeInit 0 0

def bootSt (b : Boot) : Memmgrob where
  moMsanr := b.msanr
  msa := b.msa
  moMareanr := memareaMax
  marea := initMemareaCore
  bafh := fun _ => memdivmerInit
  moMaxpages := 0
  moAlocpages := 0
  moFreepages := 0

def inMarea (ma : Memarea) (d : Msadsc) : Bool :=
  decide (ma.maLogicstart ≤ phyadrOf d ∧ u64 (phyadrOf d + 0xfff) ≤ ma.maLogicend)

/-- The loop of `merlove_setallmarflgs_onmemarea` over the first `n` descriptors, with its count. -/
def setallmarflgsLoop (a marty : Nat) : Nat → Memmgrob → Nat × Memmgrob
  | 0, s => (0, s)
  | mix + 1, s =>
    let r := setallmarflgsLoop a marty mix s
    if (r.2.msa mix).mfMarty = 0 ∧ inMarea (r.2.marea a) (r.2.msa mix) = true then
      (r.1 + 1, r.2.setMsa mix fun d => { d with mfMarty := marty })
    else r

/-- `merlove_setallmarflgs_onmemarea`; `none` is the source's `~0UL`. -/
def merloveSetallmarflgsOnmemarea (s : Memmgrob) (a : Nat) : Option Nat × Memmgrob :=
  if s.moMsanr = 0 then (none, s)
  else if (s.marea a).maType = maTypeShar then (some 0, s)
  else
    match martyOf (s.marea a).maType with
    | none => (none, s)
    | some marty =>
      let r := setallmarflgsLoop a marty s.moMsanr s
      (some r.1, r.2)

def testSetflgs (s : Memmgrob) (a : Nat) : Option Nat :=
  if s.moMsanr = 0 then none
  else if (s.marea a).maType = maTypeShar then some 0
  else
    (martyOf (s.marea a).maType).map fun marty =>
      (List.range s.moMsanr).countP fun mix =>
        inMarea (s.marea a) (s.msa mix) && decide ((s.msa mix).mfMarty = marty)

/-! ### Runs of free pages -/

/-- The test on one descriptor in the scans: a free page of the area. -/
def isFreeMsa (marty : Nat) (d : Msadsc) : Bool :=
  decide (d.mfMarty = marty ∧ d.mfUindx = 0 ∧ d.mfMocty = .free ∧ d.pafAlloc = false)

def nextPage (d d' : Msadsc) : Bool := decide (bitsSub 52 (phyadrOf d') (phyadrOf d) = 0x1000)

def continumsadscIsOk (prevmsa nextmsa : Msadsc) (marty : Nat) : Nat :=
  if isFreeMsa marty prevmsa then
    if isFreeMsa marty nextmsa then if nextPage prevmsa nextmsa then 2 else 1
    else 1
  else 0

/-- The loop of `scan_len_msadsc` over `c` pairs from descriptor `i` on. -/
def scanLenLoop (msa : Nat → Msadsc) (marty : Nat) : Nat → Nat → Nat → Option Nat
  | 0, _, retnr => some retnr
  | c + 1, i, retnr =>
    let retclok := continumsadscIsOk (msa i) (msa (i + 1)) marty
    if retclok = 0 then none
    else if retclok = 1 then some retnr
    else scanLenLoop msa marty c (i + 1) (retnr + 1)

/-- `scan_len_msadsc`: how many descriptors after `mstat` continue its run. -/
def scanLenMsadsc (msa : Nat → Msadsc) (mstat marty mnr : Nat) : Option Nat :=
  if mnr = 0 then none else scanLenLoop msa marty (mnr - 1) mstat 0

/-- The pairs of descriptors that `check_continumsadsc` looks at, `c` of them from `ms` on. -/
def checkPairs (msa : Nat → Msadsc) (marty : Nat) : Nat → Nat → Bool
  | 0, _ => true
  | c + 1, ms =>
    isFreeMsa marty (msa ms) && isFreeMsa marty (msa (ms + 1)) && nextPage (msa ms) (msa (ms + 1)) &&
      checkPairs msa marty c (ms + 1)

def checkContinumsadsc (s : Memmgrob) (a ms me fmnr : Nat) : Nat :=
  if fmnr = 0 ∨ me < ms then 0
  else
    match martyOf (s.marea a).maType with
    | none => 0
    | some marty =>
      if ms = me then if isFreeMsa marty (s.msa ms) ∧ fmnr = 1 then 1 else 0
      else if checkPairs s.msa marty (me - ms) ms then if me - ms + 1 ≠ fmnr then 0 else me - ms
      else 0

/-- `merlove_scan_continumsadsc`: the next position and the run `(first, last, length)`; `none` is `FALSE`. -/
def merloveScanContinumsadsc (s : Memmgrob) (a fntmsanr : Nat) : Halt (Option (Nat × Option (Nat × Nat × Nat))) :=
  if s.moMsanr = 0 ∨ s.moMsanr ≤ fntmsanr then .ok none
  else
    match martyOf (s.marea a).maType with
    | none => .ok none
    | some marty =>
      match (List.range' fntmsanr (s.moMsanr - fntmsanr)).find? fun tmidx => isFreeMsa marty (s.msa tmidx) with
      | none => .ok (some (s.moMsanr, none))
      | some tmidx =>
        match scanLenMsadsc s.msa tmidx marty s.moMsanr with
        | none => .error "scan_len_msadsc err\n"
        | some retfindmnr =>
          .ok (some (tmidx + retfindmnr + 1, some (tmidx, tmidx + retfindmnr, retfindmnr + 1)))

/-! ### Hanging a run -/

def findContinumsaInbafhlst (s : Memmgrob) (a fmnr : Nat) : Option Nat :=
  if fmnr = 0 then none
  else if (s.marea a).maType = maTypeProc then some onemsalst
  else if (s.marea a).maType = maTypeShar then none
  else
    let fits := (List.range mdivmerArrLmax).filter fun li => decide ((s.bafh a li).afOderpnr ≤ fmnr)
    if mdivmerArrLmax ≤ fits.length then none else fits.getLast?

def countHung (s : Memmgrob) (a fmnr : Nat) : Memmgrob :=
  s.setMarea a fun ma =>
    { ma with
      maMaxpages := u64 (ma.maMaxpages + fmnr)
      maFreepages := u64 (ma.maFreepages + fmnr)
      maAllmsadscnr := u64 (ma.maAllmsadscnr + fmnr) }

def addFrelst (s : Memmgrob) (a k fstat : Nat) : Memmgrob :=
  s.setBafh a k fun bafh =>
    { bafh with
      afFrelst := fstat :: bafh.afFrelst
      afFobjnr := u64 (bafh.afFobjnr + 1)
      afMobjnr := u64 (bafh.afMobjnr + 1) }

/-- The loop of `continumsadsc_add_procmareabafh`. -/
def addProcLoop (a k fstat : Nat) : Nat → Memmgrob → Memmgrob
  | 0, s => s
  | tmpnr + 1, s =>
    let s := addProcLoop a k fstat tmpnr s
    let s := s.setMsa (fstat + tmpnr) fun d => { d with mfOlkty := .bafh, mdOdlink := .bafh ⟨a, k⟩ }
    countHung (addFrelst s a k (fstat + tmpnr)) a 1

def continumsadscAddProcmareabafh (s : Memmgrob) (a k fstat fend fmnr : Nat) : Bool × Memmgrob :=
  if fmnr = 0 then (false, s)
  else if (s.bafh a k).afStus ≠ .onem ∨ (s.marea a).maType ≠ maTypeProc then (false, s)
  else if (s.bafh a k).afOderpnr ≠ 1 then (false, s)
  else if fstat + (fmnr - 1) ≠ fend then (false, s)
  else (true, addProcLoop a k fstat fmnr s)

def continumsadscAddBafhlst (s : Memmgrob) (a k fstat fend fmnr : Nat) : Bool × Memmgrob :=
  if fmnr = 0 then (false, s)
  else if (s.bafh a k).afOderpnr ≠ fmnr then (false, s)
  else if fstat + (fmnr - 1) ≠ fend then (false, s)
  else
    let s := s.setMsa fstat fun d => { d with mfOlkty := .oder, mdOdlink := .msa fend }
    let s := s.setMsa fend fun d => { d with mfOlkty := .bafh, mdOdlink := .bafh ⟨a, k⟩ }
    (true, countHung (addFrelst s a k fstat) a fmnr)

/-- `continumsadsc_mareabafh_core`: `none` is `FALSE`, else the rest of the run. -/
def continumsadscMareabafhCore (s : Memmgrob) (a mstat mend retval : Nat) : Option (Nat × Nat × Memmgrob) :=
  if retval < 1 then none
  else
    match findContinumsaInbafhlst s a retval with
    | none => none
    | some k =>
      let bafhp := s.bafh a k
      if retval < bafhp.afOderpnr then none
      else if (bafhp.afStus = .divp ∨ bafhp.afStus = .divm) ∧ (s.marea a).maType ≠ maTypeProc then
        let r := continumsadscAddBafhlst s a k mstat (mstat + (bafhp.afOderpnr - 1)) bafhp.afOderpnr
        if r.1 then some (mstat + bafhp.afOderpnr, retval - bafhp.afOderpnr, r.2) else none
      else if bafhp.afStus = .onem ∧ (s.marea a).maType = maTypeProc then
        let r := continumsadscAddProcmareabafh s a k mstat mend retval
        if r.1 then some (mstat, 0, r.2) else none
      else none

/-- The loop of `merlove_continumsadsc_mareabafh`, in at most `c` turns. -/
def mareabafhLoop (a mend : Nat) : Nat → Nat → Nat → Memmgrob → Halt Memmgrob
  | _, _, 0, s => .ok s
  | 0, _, _ + 1, _ => .error "merlove_continumsadsc_mareabafh"
  | c + 1, mstat, mnr + 1, s =>
    match continumsadscMareabafhCore s a mstat mend (mnr + 1) with
    | none => .error "continumsadsc_mareabafh_core fail\n"
    | some (mstat, mnr, s) => mareabafhLoop a mend c mstat mnr s

/-- `merlove_continumsadsc_mareabafh`: each turn of its loop hangs at least one page. -/
def merloveContinumsadscMareabafh (s : Memmgrob) (a mstat mend mnr : Nat) : Halt Memmgrob :=
  if mnr = 0 then .error "merlove_continumsadsc_mareabafh fail\n" else mareabafhLoop a mend mnr mstat mnr s

/-- The loop of `merlove_mem_onmemarea`, in at most `c` turns. -/
def onmemareaLoop (a : Nat) : Nat → Nat → Memmgrob → Halt Memmgrob
  | 0, fntmnr, s => if fntmnr < s.moMsanr then .error "merlove_mem_onmemarea" else .ok s
  | c + 1, fntmnr, s =>
    if fntmnr < s.moMsanr then
      merloveScanContinumsadsc s a fntmnr >>= fun retscan =>
        match retscan with
        | none => .error "merlove_scan_continumsadsc fail\n"
        | some (fntmnr, none) => onmemareaLoop a c fntmnr s
        | some (fntmnr, some (retstat, retend, retfindmnr)) =>
          if checkContinumsadsc s a retstat retend retfindmnr = 0 then .error "check_continumsadsc fail\n"
          else merloveContinumsadscMareabafh s a retstat retend retfindmnr >>= fun s => onmemareaLoop a c fntmnr s
    else .ok s

/-- `merlove_mem_onmemarea`: each turn of its loop passes at least one descriptor. -/
def merloveMemOnmemarea (s : Memmgrob) (a : Nat) : Halt (Bool × Memmgrob) :=
  if s.moMsanr = 0 then .ok (false, s)
  else if (s.marea a).maType = maTypeShar then .ok (true, s)
  else if (s.marea a).maType = maTypeInit then .ok (false, s)
  else onmemareaLoop a s.moMsanr 0 s >>= fun s => .ok (true, s)

/-- The first loop of `merlove_mem_core`, over the areas `mi … mi + c - 1`. -/
def setflgsLoop : Nat → Nat → Memmgrob → Bool × Memmgrob
  | 0, _, s => (true, s)
  | c + 1, mi, s =>
    let r := merloveSetallmarflgsOnmemarea s mi
    match r.1, testSetflgs r.2 mi with
    | some sretf, some tretf => if sretf ≠ tretf then (false, r.2) else setflgsLoop c (mi + 1) r.2
    | _, _ => (false, r.2)

/-- The second loop of `merlove_mem_core`. -/
def onmemareasLoop : Nat → Nat → Memmgrob → Halt (Bool × Memmgrob)
  | 0, _, s => .ok (true, s)
  | c + 1, maidx, s =>
    merloveMemOnmemarea s maidx >>= fun ⟨r, s⟩ => if r then onmemareasLoop c (maidx + 1) s else .ok (false, s)

def merloveMemCore (s : Memmgrob) : Halt (Bool × Memmgrob) :=
  let r := setflgsLoop s.moMareanr 0 s
  if r.1 then onmemareasLoop s.moMareanr 0 r.2 else .ok (false, r.2)

/-! ### The check of the lists -/

/-- The pairs of descriptors of a block that `check_multi_msadsc` looks at, `c` of them from `mi` on. -/
def checkMultiPairs (s : Memmgrob) (ma : Memarea) : Nat → Nat → Bool
  | 0, _ => true
  | c + 1, mi =>
    let d := s.msa mi
    let d' := s.msa (mi + 1)
    decide (d.mfMarty = ma.maType ∧ d.pafAlloc = false ∧ d.mfUindx = 0 ∧ d'.pafAlloc = false ∧ d'.mfUindx = 0 ∧
      u64 (phyadrOf d + 0x1000) = phyadrOf d' ∧ ma.maLogicstart ≤ phyadrOf d ∧
      u64 (phyadrOf d' + 0xfff) ≤ ma.maLogicend) && checkMultiPairs s ma c (mi + 1)

def checkMultiMsadsc (s : Memmgrob) (a k mstat : Nat) : Halt Nat :=
  let d := s.msa mstat
  let ma := s.marea a
  if (d.mfOlkty ≠ .oder ∧ d.mfOlkty ≠ .bafh) ∨ d.mdOdlink = .null then .ok 0
  else
    (if d.mfOlkty = .bafh then .ok (some mstat) else d.mdOdlink.toMsa) >>= fun mend =>
      match mend with
      | none => .ok 0
      | some mend =>
        let mnr := msaCount mstat mend
        if mnr ≠ (s.bafh a k).afOderpnr then .ok 0
        else if (s.msa mend).mfOlkty ≠ .bafh ∨ (s.msa mend).mdOdlink ≠ .bafh ⟨a, k⟩ then .ok 0
        else if mnr = 1 then
          if d.mfMarty ≠ ma.maType ∨ d.pafAlloc = true ∨ d.mfUindx ≠ 0 ∨ inMarea ma d = false then .ok 0 else .ok 1
        else if checkMultiPairs s ma (mnr - 1) mstat then .ok mnr
        else .ok 0

def checkFrelst (s : Memmgrob) (a k : Nat) : List Nat → Halt Bool
  | [] => .ok true
  | msap :: frelst =>
    checkMultiMsadsc s a k msap >>= fun n =>
      if (s.bafh a k).afOderpnr ≠ n then .ok false else checkFrelst s a k frelst

def checkOneBafhlst (s : Memmgrob) (a k : Nat) : Halt Bool :=
  let bafhp := s.bafh a k
  if bafhp.afMobjnr < 1 ∧ bafhp.afFobjnr < 1 then .ok true
  else
    checkFrelst s a k bafhp.afFrelst >>= fun ok =>
      .ok (ok && decide (bafhp.afFrelst.length = bafhp.afFobjnr ∧ bafhp.afFrelst.length = bafhp.afMobjnr))

def checkSlots (s : Memmgrob) (a : Nat) : List Nat → Halt Bool
  | [] => .ok true
  | k :: ks => checkOneBafhlst s a k >>= fun ok => if ok then checkSlots s a ks else .ok false

def checkOneMemarea (s : Memmgrob) (a : Nat) : Halt Bool :=
  if (s.marea a).maMaxpages < 1 then .ok true else checkSlots s a (List.range mdivmerArrLmax ++ [onemsalst])

def memCheckMareadata (s : Memmgrob) : List Nat → Halt Unit
  | [] => .ok ()
  | maidx :: rest =>
    checkOneMemarea s maidx >>= fun ok =>
      if ok then memCheckMareadata s rest else .error "check_one_memarea fail\n"

def initMerloveMem (s : Memmgrob) : Halt Memmgrob :=
  merloveMemCore s >>= fun ⟨ok, s⟩ =>
    if ok then memCheckMareadata s (List.range s.moMareanr) >>= fun _ => .ok s
    else .error "merlove_mem_core fail\n"

def initMemmgrob (s : Memmgrob) : Memmgrob :=
  let aidx := (List.range s.moMsanr).countP fun i =>
    decide ((s.msa i).mfUindx = 1 ∧ (s.msa i).mfMocty = .krnl ∧ (s.msa i).pafAlloc = true)
  { s with
    moMaxpages := s.moMsanr
    moAlocpages := aidx
    moFreepages := u64Sub s.moMsanr aidx }

def boot (b : Boot) : Halt Memmgrob := initMerloveMem (bootSt b) >>= fun s => .ok (initMemmgrob s)

end Cosmos.Page
