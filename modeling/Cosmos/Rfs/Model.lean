import Cosmos.Lib.Bytes
import Cosmos.Lib.Run

/-!
# The RAM file system

`drvrfs.c`. A block is its `0x1000` bytes: block 0 the super block, block 1 a map with a byte for each block, and one
block for the root directory and for each file. Every operation copies whole blocks between the device and buffers of
its own; a buffer is a value here, and what `krlnew` and `krldelete` will answer is a sequence that the state carries.
-/

namespace Cosmos.Rfs

open Cosmos.Lib Function

/-! ### Data -/

def fsysAlcblksz : Nat := 0x1000
def drNmMax : Nat := 104
def sizeofRfsdir : Nat := 128
def sizeofRfssublk : Nat := 216
def sizeofFimgrhd : Nat := 632

def rdrDirType : Nat := 1
def rdrFilType : Nat := 2
def rdrDelType : Nat := 5

def fmdNulType : Nat := 0
def fmdDirType : Nat := 1
def fmdFilType : Nat := 2

abbrev Block := Nat → UInt8

def zeros : Block := fun _ => 0

/-- The device, by block number, and the answers of `krlnew` and `krldelete` to come. -/
structure St where
  rdeMsize : Nat
  blk : Nat → Block
  krl : Nat → Bool

/-! The fields of `fimgrhd_t`, and of the `rfsdir_t` at `o`. -/

def fmdType (b : Block) : Nat := getWord b 8
def fmdSfblk (b : Block) : Nat := getWord b 24
def fmdFilesz (b : Block) : Nat := getWord b 64
def fmdFileifstbkoff (b : Block) : Nat := getWord b 72
def fmdCurfwritebk (b : Block) : Nat := getWord b 88
def fmdCurfinwbkoff (b : Block) : Nat := getWord b 96
def fbBlkstart (b : Block) : Nat := getWord b 104

def rdrType (b : Block) (o : Nat) : Nat := getWord b (o + 8)
def rdrBlknr (b : Block) (o : Nat) : Nat := getWord b (o + 16)
def rdrName (b : Block) (o : Nat) : Nat → UInt8 := fun i => b (o + 24 + i)

def rsbBmpbks (b : Block) : Nat := getWord b 64
def rsbFsysallblk (b : Block) : Nat := getWord b 80
def rsbRootdir : Nat := 88

def rfsdirTInit (b : Block) (o : Nat) : Block := blit zeros b o sizeofRfsdir

/-- `rfssublk_t_init`, without the bytes of the lock. -/
def rfssublkTInit (b : Block) : Block :=
  let b := putWord b 8 0x142422
  let b := putWord b 16 1
  let b := putWord b 24 0
  let b := putWord b 32 0
  let b := putWord b 40 sizeofRfssublk
  let b := putWord b 48 1
  let b := putWord b 56 fsysAlcblksz
  let b := putWord b 64 1
  let b := putWord b 72 0
  let b := putWord b 80 0
  rfsdirTInit b rsbRootdir

/-- `fimgrhd_t_init`: every field is zero but `fmd_fileifstbkoff`. -/
def fimgrhdTInit (b : Block) : Block := putWord (blit zeros b 0 sizeofFimgrhd) 72 0x200

/-! ### Blocks and buffers -/

def retRfsdevblk (st : St) (blknr : Nat) : Bool := blknr * fsysAlcblksz < st.rdeMsize

def retRfsdevmaxblknr (st : St) : Nat := st.rdeMsize / fsysAlcblksz

def readRfsdevblk (st : St) (blknr : Nat) : Option Block :=
  if retRfsdevblk st blknr then some (st.blk blknr) else none

def writeRfsdevblk (st : St) (weadr : Block) (blknr : Nat) : Option St :=
  if retRfsdevblk st blknr then some { st with blk := update st.blk blknr weadr } else none

def St.next (st : St) : St := { st with krl := fun n => st.krl (n + 1) }

def newBuf (st : St) : Bool × St := (st.krl 0, st.next)

def delBuf (st : St) : Halt St := if st.krl 0 then .ok st.next else .error "del buf err"

/-! ### Strings and paths -/

def rfsStrcmp : Nat → (Nat → UInt8) → (Nat → UInt8) → Bool
  | 0, _, _ => false
  | n + 1, strs, strd =>
    if strs 0 ≠ strd 0 then false
    else if strs 0 = 0 then true
    else rfsStrcmp n (fun i => strs (i + 1)) fun i => strd (i + 1)

def rfsStrlen : Nat → (Nat → UInt8) → Nat
  | 0, _ => 0
  | n + 1, strs => if strs 0 = 0 then 0 else rfsStrlen n (fun i => strs (i + 1)) + 1

/-- `rfs_strcpy` from `strs` to `strd + o`, at most `n` bytes. -/
def rfsStrcpy : Nat → (Nat → UInt8) → (Nat → UInt8) → Nat → (Nat → UInt8)
  | 0, _, strd, _ => strd
  | n + 1, strs, strd, o =>
    if strs 0 = 0 then update strd o 0
    else rfsStrcpy n (fun i => strs (i + 1)) (update strd o (strs 0)) (o + 1)

/-- The loop of `rfs_chkfilepath`. At `"/"` it goes on behind the end of the string. -/
def chkfilepathLoop (chp : Nat → UInt8) : Nat → Nat → Nat
  | 0, _ => 4
  | n + 1, i =>
    if chp i = 47 then 3
    else if drNmMax ≤ i then 4
    else if chp i = 0 ∧ 1 < i then 0
    else chkfilepathLoop chp n (i + 1)

def rfsChkfilepath (fname : Nat → UInt8) : Nat :=
  if fname 0 ≠ 47 then 2 else chkfilepathLoop fname drNmMax 1

/-- `rfs_ret_fname` into a buffer of zeros; no path is the null pointer. -/
def rfsRetFname : Option (Nat → UInt8) → Nat × (Nat → UInt8)
  | none => (6, zeros)
  | some fpath =>
    if rfsChkfilepath fpath ≠ 0 then (rfsChkfilepath fpath, zeros)
    else (0, rfsStrcpy drNmMax (fun i => fpath (i + 1)) zeros 0)

/-! ### The super block, the map and the root directory -/

def getSuperblk (st : St) : Halt (Option Block × St) :=
  match newBuf st with
  | (false, st) => .ok (none, st)
  | (true, st) =>
    match readRfsdevblk st 0 with
    | none => delBuf st >>= fun st => .ok (none, st)
    | some buf => .ok (some buf, st)

def delSuperblk (st : St) (sbp : Block) : Halt St :=
  match writeRfsdevblk st sbp 0 with
  | none => .error "del superblk err"
  | some st => delBuf st

def getRootdir (st : St) : Halt (Option Block × St) :=
  getSuperblk st >>= fun r =>
    match r with
    | (none, st) => .ok (none, st)
    | (some sbp, st) =>
      match newBuf st with
      | (false, st) => delSuperblk st sbp >>= fun st => .ok (none, st)
      | (true, st) => delSuperblk st sbp >>= fun st => .ok (some fun i => sbp (rsbRootdir + i), st)

def getRootdirfileBlk (st : St) : Halt (Option Block × St) :=
  getRootdir st >>= fun r =>
    match r with
    | (none, st) => .ok (none, st)
    | (some rtdir, st) =>
      match newBuf st with
      | (false, st) => delBuf st >>= fun st => .ok (none, st)
      | (true, st) =>
        match readRfsdevblk st (rdrBlknr rtdir 0) with
        | none => delBuf st >>= fun st => delBuf st >>= fun st => .ok (none, st)
        | some buf => delBuf st >>= fun st => .ok (some buf, st)

def delRootdirfileBlk (st : St) (blkp : Block) : Halt St :=
  match writeRfsdevblk st blkp (fmdSfblk blkp) with
  | none => .error "del_rootfile_blk err"
  | some st => delBuf st

def getBitmapblk (st : St) : Halt (Option Block × St) :=
  getSuperblk st >>= fun r =>
    match r with
    | (none, st) => .ok (none, st)
    | (some sbp, st) =>
      match newBuf st with
      | (false, st) => .ok (none, st)
      | (true, st) =>
        match readRfsdevblk st (rsbBmpbks sbp) with
        | none => delBuf st >>= fun st => delSuperblk st sbp >>= fun st => .ok (none, st)
        | some buf => delSuperblk st sbp >>= fun st => .ok (some buf, st)

def delBitmapblk (st : St) (bitmap : Block) : Halt St :=
  getSuperblk st >>= fun r =>
    match r with
    | (none, _) => .error "del superblk err"
    | (some sbp, st) =>
      match writeRfsdevblk st bitmap (rsbBmpbks sbp) with
      | none => delSuperblk st sbp >>= fun _ => .error "del superblk err1"
      | some st => delSuperblk st sbp >>= delBuf

/-- The loop of `rfs_new_blk`. -/
def newBlkLoop (bitmap : Block) : Nat → Nat → Nat × Block
  | 0, _ => (0, bitmap)
  | n + 1, blknr => if bitmap blknr = 0 then (blknr, update bitmap blknr 1) else newBlkLoop bitmap n (blknr + 1)

def rfsNewBlk (st : St) : Halt (Nat × St) :=
  getBitmapblk st >>= fun r =>
    match r with
    | (none, st) => .ok (0, st)
    | (some bitmap, st) =>
      delBitmapblk st (newBlkLoop bitmap (fsysAlcblksz - 2) 2).2 >>= fun st =>
        .ok ((newBlkLoop bitmap (fsysAlcblksz - 2) 2).1, st)

def rfsDelBlk (st : St) (blknr : Nat) : Halt St :=
  if fsysAlcblksz < blknr then .error "rfs del blk err"
  else
    getBitmapblk st >>= fun r =>
      match r with
      | (none, _) => .error "rfs del blk err1"
      | (some bitmap, st) => delBitmapblk st (update bitmap blknr 0)

/-! ### Formatting -/

def createSuperblk (st : St) : Halt (Bool × St) :=
  match newBuf st with
  | (false, st) => .ok (false, st)
  | (true, st) =>
    match writeRfsdevblk st (putWord (rfssublkTInit zeros) 80 (retRfsdevmaxblknr st)) 0 with
    | none => .ok (false, st)
    | some st => delBuf st >>= fun st => .ok (true, st)

/-- The loop of `create_bitmap`: `n` bytes from `bi` on. -/
def clearLoop : Nat → Nat → Block → Block
  | 0, _, bitmap => bitmap
  | n + 1, bi, bitmap => clearLoop n (bi + 1) (update bitmap bi 0)

def createBitmap (st : St) : Halt (Bool × St) :=
  getSuperblk st >>= fun r =>
    match r with
    | (none, st) => .ok (false, st)
    | (some sbp, st) =>
      match newBuf st with
      | (false, st) => .ok (false, st)
      | (true, st) =>
        if fsysAlcblksz < rsbFsysallblk sbp then
          delSuperblk st sbp >>= fun st => delBuf st >>= fun st => .ok (false, st)
        else
          match writeRfsdevblk st (clearLoop (rsbFsysallblk sbp - 2) 2 fun _ => 1) (rsbBmpbks sbp) with
          | none => delSuperblk st sbp >>= fun st => delBuf st >>= fun st => .ok (false, st)
          | some st => delSuperblk st sbp >>= fun st => delBuf st >>= fun st => .ok (true, st)

def newFimgrhd (type blk : Nat) : Block :=
  let b := fimgrhdTInit zeros
  let b := putWord b 8 type
  let b := putWord b 24 blk
  let b := putWord b 88 blk
  let b := putWord b 96 0x200
  let b := putWord b 104 blk
  putWord b 112 1

def setRootdir (sbp : Block) (blk : Nat) : Block :=
  putWord (putWord (update sbp (rsbRootdir + 24) 47) (rsbRootdir + 8) rdrDirType) (rsbRootdir + 16) blk

def createRootdir (st : St) : Halt (Bool × St) :=
  getSuperblk st >>= fun r =>
    match r with
    | (none, st) => .ok (false, st)
    | (some sbp, st) =>
      match newBuf st with
      | (false, st) => delSuperblk st sbp >>= fun st => .ok (false, st)
      | (true, st) =>
        rfsNewBlk st >>= fun r =>
          match r with
          | (0, st) => delBuf st >>= fun st => delSuperblk st sbp >>= fun st => .ok (false, st)
          | (blk, st) =>
            match writeRfsdevblk st (newFimgrhd fmdDirType blk) blk with
            | none => delBuf st >>= fun st => delSuperblk st (setRootdir sbp blk) >>= fun st => .ok (false, st)
            | some st => delBuf st >>= fun st => delSuperblk st (setRootdir sbp blk) >>= fun st => .ok (true, st)

def rfsFmat (st : St) : Halt St :=
  createSuperblk st >>= fun r =>
    if r.1 = false then .error "create superblk err"
    else createBitmap r.2 >>= fun r =>
      if r.1 = false then .error "create bitmap err"
      else createRootdir r.2 >>= fun r => if r.1 = false then .error "create rootdir err" else .ok r.2

/-! ### Directory entries -/

/-- The loop over the entries from `o` on: the one of a file with this name. -/
def scanDir (b : Block) (fname : Nat → UInt8) : Nat → Nat → Option Nat
  | 0, _ => none
  | n + 1, o =>
    if fsysAlcblksz - 1 ≤ o then none
    else if rdrType b o = rdrFilType ∧ rfsStrcmp drNmMax (rdrName b o) fname = true then some o
    else scanDir b fname n (o + sizeofRfsdir)

/-- What `rfs_openfileblk`, `del_dirfileblk_core` and `rfs_chkfileisindev` test before their loop: no entry was ever
made. -/
def neverUsed (b : Block) : Bool :=
  fmdCurfwritebk b = fbBlkstart b ∧ fmdCurfinwbkoff b = fmdFileifstbkoff b

def findEntry (b : Block) (fname : Nat → UInt8) : Option Nat :=
  scanDir b fname (fsysAlcblksz / sizeofRfsdir) (fmdFileifstbkoff b)

def rfsChkfileisindev (st : St) (fname : Nat → UInt8) : Halt (Nat × St) :=
  if rfsStrlen drNmMax fname < 1 ∨ drNmMax ≤ rfsStrlen drNmMax fname then .ok (4, st)
  else
    getRootdirfileBlk st >>= fun r =>
      match r with
      | (none, st) => .ok (2, st)
      | (some rdblkp, st) =>
        delRootdirfileBlk st rdblkp >>= fun st =>
          .ok (if fmdType rdblkp ≠ fmdDirType then 3
            else if neverUsed rdblkp = true then 0
            else if (findEntry rdblkp fname).isSome then 1 else 0, st)

def addEntry (b : Block) (fname : Nat → UInt8) (fblk : Nat) : Block :=
  let o := fmdCurfinwbkoff b
  let b := putWord b o 0
  let b := putWord b (o + 8) rdrFilType
  let b := putWord b (o + 16) fblk
  let b := rfsStrcpy drNmMax fname b (o + 24)
  let b := putWord b 64 (u64 (fmdFilesz b + sizeofRfsdir))
  putWord b 96 (u64 (fmdCurfinwbkoff b + sizeofRfsdir))

def rfsNewDirfileblk (st : St) (fname : Nat → UInt8) : Halt (Bool × St) :=
  match newBuf st with
  | (false, st) => .ok (false, st)
  | (true, st) =>
    rfsNewBlk st >>= fun r =>
      match r with
      | (0, st) => delBuf st >>= fun st => .ok (false, st)
      | (fblk, st) =>
        getRootdirfileBlk st >>= fun r =>
          match r with
          | (none, st) => delBuf st >>= fun st => .ok (false, st)
          | (some rdirblk, st) =>
            if fsysAlcblksz ≤ fmdCurfinwbkoff rdirblk then
              delRootdirfileBlk st rdirblk >>= fun st => delBuf st >>= fun st => .ok (false, st)
            else
              match writeRfsdevblk st (newFimgrhd fmdFilType fblk) fblk with
              | none =>
                delRootdirfileBlk st (addEntry rdirblk fname fblk) >>= fun st => delBuf st >>= fun st => .ok (false, st)
              | some st =>
                delRootdirfileBlk st (addEntry rdirblk fname fblk) >>= fun st => delBuf st >>= fun st => .ok (true, st)

def rfsNewFile (st : St) (fname : Option (Nat → UInt8)) : Halt (Bool × St) :=
  if (rfsRetFname fname).1 ≠ 0 then .ok (false, st)
  else
    rfsChkfileisindev st (rfsRetFname fname).2 >>= fun r =>
      if r.1 ≠ 0 then .ok (false, r.2) else rfsNewDirfileblk r.2 (rfsRetFname fname).2

def delEntry (b : Block) (o : Nat) : Block := putWord (rfsdirTInit b o) (o + 8) rdrDelType

def delDirfileblkCore (st : St) (fname : Nat → UInt8) : Halt (Nat × St) :=
  getRootdirfileBlk st >>= fun r =>
    match r with
    | (none, st) => .ok (5, st)
    | (some rblkp, st) =>
      if fmdType rblkp ≠ fmdDirType then delRootdirfileBlk st rblkp >>= fun st => .ok (4, st)
      else if neverUsed rblkp = true then delRootdirfileBlk st rblkp >>= fun st => .ok (3, st)
      else
        match findEntry rblkp fname with
        | none => delRootdirfileBlk st rblkp >>= fun st => .ok (1, st)
        | some o =>
          rfsDelBlk st (rdrBlknr rblkp o) >>= fun st =>
            delRootdirfileBlk st (delEntry rblkp o) >>= fun st => .ok (0, st)

/-- `rfs_del_file` with no flag, through `rfs_del_dirfileblk`. -/
def rfsDelFile (st : St) (fname : Option (Nat → UInt8)) : Halt (Bool × St) :=
  if (rfsRetFname fname).1 ≠ 0 then .ok (false, st)
  else delDirfileblkCore st (rfsRetFname fname).2 >>= fun r => .ok (r.1 = 0, r.2)

/-! ### Open files -/

def rfsOpenfileblk (st : St) (fname : Option (Nat → UInt8)) : Halt (Option Block × St) :=
  if (rfsRetFname fname).1 ≠ 0 then .ok (none, st)
  else
    getRootdirfileBlk st >>= fun r =>
      match r with
      | (none, st) => .ok (none, st)
      | (some rblkp, st) =>
        if fmdType rblkp ≠ fmdDirType then delRootdirfileBlk st rblkp >>= fun st => .ok (none, st)
        else if neverUsed rblkp = true then delRootdirfileBlk st rblkp >>= fun st => .ok (none, st)
        else
          match findEntry rblkp (rfsRetFname fname).2 with
          | none => delRootdirfileBlk st rblkp >>= fun st => .ok (none, st)
          | some o =>
            match newBuf st with
            | (false, st) => delRootdirfileBlk st rblkp >>= fun st => .ok (none, st)
            | (true, st) =>
              match readRfsdevblk st (rdrBlknr rblkp o) with
              | none => delBuf st >>= fun st => delRootdirfileBlk st rblkp >>= fun st => .ok (none, st)
              | some buf =>
                if fmdType buf = fmdNulType ∨ fmdFileifstbkoff buf ≠ 0x200 then
                  delBuf st >>= fun st => delRootdirfileBlk st rblkp >>= fun st => .ok (none, st)
                else delRootdirfileBlk st rblkp >>= fun st => .ok (some buf, st)

/-- The test at the start of `rfs_writefileblk` and `rfs_readfileblk`. -/
def oneBlock (fmp : Block) : Bool := fmdSfblk fmp = fmdCurfwritebk fmp ∧ fmdCurfwritebk fmp = fbBlkstart fmp

def appendBlk (fmp : Block) (buf : Nat → UInt8) (len : Nat) : Block :=
  let fmp := blit buf fmp (fmdCurfinwbkoff fmp) len
  let fmp := putWord fmp 64 (u64 (fmdFilesz fmp + len))
  putWord fmp 96 (u64 (fmdCurfinwbkoff fmp + len))

/-- `rfs_writefileblk`: the status, the buffer of the handle and the device. Whether the block could be written is not
looked at. A length that wraps the bound around makes `hal_memcpy` run past the buffer, which has no outcome here. -/
def rfsWritefileblk (st : St) (fmp : Block) (buf : Nat → UInt8) (len : Nat) : Halt (Bool × Block × St) :=
  if oneBlock fmp = false then .ok (false, fmp, st)
  else if fsysAlcblksz ≤ u64 (fmdCurfinwbkoff fmp + len) then .ok (false, fmp, st)
  else if fsysAlcblksz < fmdCurfinwbkoff fmp + len then .error "hal_memcpy past the buffer"
  else
    let fmp := appendBlk fmp buf len
    .ok (true, fmp, (writeRfsdevblk st fmp (fmdCurfwritebk fmp)).getD st)

/-- `rfs_readfileblk`: the bytes put into the caller's buffer. -/
def rfsReadfileblk (fmp : Block) (len : Nat) : Option (List UInt8) :=
  if oneBlock fmp = false then none
  else if u64Sub fsysAlcblksz (fmdFileifstbkoff fmp) < len then none
  else some ((List.range len).map fun i => fmp (fmdFileifstbkoff fmp + i))

def rfsClosefileblk (st : St) (fblkp : Block) : Halt St :=
  delBuf ((writeRfsdevblk st fblkp (fmdSfblk fblkp)).getD st)

end Cosmos.Rfs
