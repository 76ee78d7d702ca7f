import Cosmos.Lib.Ledger
import Cosmos.Rfs.Runs

/-!
# The buffers of the file system

In the model a buffer is a value. Here it has a number as well, and a ledger notes which buffers were made and which
were given back: the same functions, which without the ledger are those of the model (`erases_*`), and what each of them
owes.

One path loses a buffer. `get_bitmapblk` returns nothing when it has read the super block and gets no buffer for the
map, and leaves the buffer of the super block behind. `rfs_del_blk` halts then; `rfs_new_blk` reports that no block is
free.
-/

namespace Cosmos.Rfs.Buffers

open Cosmos.Lib Halt

/-- The device, and what became of the buffers. -/
structure Log where
  st : St
  bufs : Ledger

structure Buf where
  num : Nat
  data : Block

def newBuf (x : Log) : Option Nat × Log :=
  if x.st.krl 0 then (some x.bufs.born, ⟨x.st.next, x.bufs.make⟩) else (none, ⟨x.st.next, x.bufs⟩)

def delBuf (x : Log) (buf : Nat) : Halt Log := Rfs.delBuf x.st >>= fun st => .ok ⟨st, x.bufs.giveBack buf⟩

def writeRfsdevblk (x : Log) (weadr : Block) (blknr : Nat) : Option Log :=
  (Rfs.writeRfsdevblk x.st weadr blknr).map fun st => ⟨st, x.bufs⟩

/-! ### The operations -/

def getSuperblk (x : Log) : Halt (Option Buf × Log) :=
  match newBuf x with
  | (none, x) => .ok (none, x)
  | (some buf, x) =>
    match readRfsdevblk x.st 0 with
    | none => delBuf x buf >>= fun x => .ok (none, x)
    | some data => .ok (some ⟨buf, data⟩, x)

def delSuperblk (x : Log) (sbp : Buf) : Halt Log :=
  match writeRfsdevblk x sbp.data 0 with
  | none => .error "del superblk err"
  | some x => delBuf x sbp.num

def getRootdir (x : Log) : Halt (Option Buf × Log) :=
  getSuperblk x >>= fun r =>
    match r with
    | (none, x) => .ok (none, x)
    | (some sbp, x) =>
      match newBuf x with
      | (none, x) => delSuperblk x sbp >>= fun x => .ok (none, x)
      | (some buf, x) => delSuperblk x sbp >>= fun x => .ok (some ⟨buf, fun i => sbp.data (rsbRootdir + i)⟩, x)

def delRootdir (x : Log) (rdir : Buf) : Halt Log := delBuf x rdir.num

def getRootdirfileBlk (x : Log) : Halt (Option Buf × Log) :=
  getRootdir x >>= fun r =>
    match r with
    | (none, x) => .ok (none, x)
    | (some rtdir, x) =>
      match newBuf x with
      | (none, x) => delRootdir x rtdir >>= fun x => .ok (none, x)
      | (some buf, x) =>
        match readRfsdevblk x.st (rdrBlknr rtdir.data 0) with
        | none => delBuf x buf >>= fun x => delRootdir x rtdir >>= fun x => .ok (none, x)
        | some data => delRootdir x rtdir >>= fun x => .ok (some ⟨buf, data⟩, x)

def delRootdirfileBlk (x : Log) (blkp : Buf) : Halt Log :=
  match writeRfsdevblk x blkp.data (fmdSfblk blkp.data) with
  | none => .error "del_rootfile_blk err"
  | some x => delBuf x blkp.num

def getBitmapblk (x : Log) : Halt (Option Buf × Log) :=
  getSuperblk x >>= fun r =>
    match r with
    | (none, x) => .ok (none, x)
    | (some sbp, x) =>
      match newBuf x with
      | (none, x) => .ok (none, x)
      | (some buf, x) =>
        match readRfsdevblk x.st (rsbBmpbks sbp.data) with
        | none => delBuf x buf >>= fun x => delSuperblk x sbp >>= fun x => .ok (none, x)
        | some data => delSuperblk x sbp >>= fun x => .ok (some ⟨buf, data⟩, x)

def delBitmapblk (x : Log) (bitmap : Buf) : Halt Log :=
  getSuperblk x >>= fun r =>
    match r with
    | (none, _) => .error "del superblk err"
    | (some sbp, x) =>
      match writeRfsdevblk x bitmap.data (rsbBmpbks sbp.data) with
      | none => delSuperblk x sbp >>= fun _ => .error "del superblk err1"
      | some x => delSuperblk x sbp >>= fun x => delBuf x bitmap.num

def rfsNewBlk (x : Log) : Halt (Nat × Log) :=
  getBitmapblk x >>= fun r =>
    match r with
    | (none, x) => .ok (0, x)
    | (some bitmap, x) =>
      delBitmapblk x ⟨bitmap.num, (newBlkLoop bitmap.data (fsysAlcblksz - 2) 2).2⟩ >>= fun x =>
        .ok ((newBlkLoop bitmap.data (fsysAlcblksz - 2) 2).1, x)

def rfsDelBlk (x : Log) (blknr : Nat) : Halt Log :=
  if fsysAlcblksz < blknr then .error "rfs del blk err"
  else
    getBitmapblk x >>= fun r =>
      match r with
      | (none, _) => .error "rfs del blk err1"
      | (some bitmap, x) => delBitmapblk x ⟨bitmap.num, Function.update bitmap.data blknr 0⟩

def rfsChkfileisindev (x : Log) (fname : Nat → UInt8) : Halt (Nat × Log) :=
  if rfsStrlen drNmMax fname < 1 ∨ drNmMax ≤ rfsStrlen drNmMax fname then .ok (4, x)
  else
    getRootdirfileBlk x >>= fun r =>
      match r with
      | (none, x) => .ok (2, x)
      | (some rdblkp, x) =>
        delRootdirfileBlk x rdblkp >>= fun x =>
          .ok (if fmdType rdblkp.data ≠ fmdDirType then 3
            else if neverUsed rdblkp.data = true then 0
            else if (findEntry rdblkp.data fname).isSome then 1 else 0, x)

def rfsNewDirfileblk (x : Log) (fname : Nat → UInt8) : Halt (Bool × Log) :=
  match newBuf x with
  | (none, x) => .ok (false, x)
  | (some buf, x) =>
    rfsNewBlk x >>= fun r =>
      match r with
      | (0, x) => delBuf x buf >>= fun x => .ok (false, x)
      | (fblk, x) =>
        getRootdirfileBlk x >>= fun r =>
          match r with
          | (none, x) => delBuf x buf >>= fun x => .ok (false, x)
          | (some rdirblk, x) =>
            if fsysAlcblksz ≤ fmdCurfinwbkoff rdirblk.data then
              delRootdirfileBlk x rdirblk >>= fun x => delBuf x buf >>= fun x => .ok (false, x)
            else
              match writeRfsdevblk x (newFimgrhd fmdFilType fblk) fblk with
              | none =>
                delRootdirfileBlk x ⟨rdirblk.num, addEntry rdirblk.data fname fblk⟩ >>= fun x =>
                  delBuf x buf >>= fun x => .ok (false, x)
              | some x =>
                delRootdirfileBlk x ⟨rdirblk.num, addEntry rdirblk.data fname fblk⟩ >>= fun x =>
                  delBuf x buf >>= fun x => .ok (true, x)

def rfsNewFile (x : Log) (fname : Option (Nat → UInt8)) : Halt (Bool × Log) :=
  if (rfsRetFname fname).1 ≠ 0 then .ok (false, x)
  else
    rfsChkfileisindev x (rfsRetFname fname).2 >>= fun r =>
      if r.1 ≠ 0 then .ok (false, r.2) else rfsNewDirfileblk r.2 (rfsRetFname fname).2

def delDirfileblkCore (x : Log) (fname : Nat → UInt8) : Halt (Nat × Log) :=
  getRootdirfileBlk x >>= fun r =>
    match r with
    | (none, x) => .ok (5, x)
    | (some rblkp, x) =>
      if fmdType rblkp.data ≠ fmdDirType then delRootdirfileBlk x rblkp >>= fun x => .ok (4, x)
      else if neverUsed rblkp.data = true then delRootdirfileBlk x rblkp >>= fun x => .ok (3, x)
      else
        match findEntry rblkp.data fname with
        | none => delRootdirfileBlk x rblkp >>= fun x => .ok (1, x)
        | some o =>
          rfsDelBlk x (rdrBlknr rblkp.data o) >>= fun x =>
            delRootdirfileBlk x ⟨rblkp.num, delEntry rblkp.data o⟩ >>= fun x => .ok (0, x)

def rfsDelFile (x : Log) (fname : Option (Nat → UInt8)) : Halt (Bool × Log) :=
  if (rfsRetFname fname).1 ≠ 0 then .ok (false, x)
  else delDirfileblkCore x (rfsRetFname fname).2 >>= fun r => .ok (r.1 = 0, r.2)

def rfsOpenfileblk (x : Log) (fname : Option (Nat → UInt8)) : Halt (Option Buf × Log) :=
  if (rfsRetFname fname).1 ≠ 0 then .ok (none, x)
  else
    getRootdirfileBlk x >>= fun r =>
      match r with
      | (none, x) => .ok (none, x)
      | (some rblkp, x) =>
        if fmdType rblkp.data ≠ fmdDirType then delRootdirfileBlk x rblkp >>= fun x => .ok (none, x)
        else if neverUsed rblkp.data = true then delRootdirfileBlk x rblkp >>= fun x => .ok (none, x)
        else
          match findEntry rblkp.data (rfsRetFname fname).2 with
          | none => delRootdirfileBlk x rblkp >>= fun x => .ok (none, x)
          | some o =>
            match newBuf x with
            | (none, x) => delRootdirfileBlk x rblkp >>= fun x => .ok (none, x)
            | (some buf, x) =>
              match readRfsdevblk x.st (rdrBlknr rblkp.data o) with
              | none => delBuf x buf >>= fun x => delRootdirfileBlk x rblkp >>= fun x => .ok (none, x)
              | some data =>
                if fmdType data = fmdNulType ∨ fmdFileifstbkoff data ≠ 0x200 then
                  delBuf x buf >>= fun x => delRootdirfileBlk x rblkp >>= fun x => .ok (none, x)
                else delRootdirfileBlk x rblkp >>= fun x => .ok (some ⟨buf, data⟩, x)

def rfsClosefileblk (x : Log) (fblkp : Buf) : Halt Log :=
  delBuf ((writeRfsdevblk x fblkp.data (fmdSfblk fblkp.data)).getD x) fblkp.num

/-! ### Without the ledger -/

def plain (r : Option Buf × Log) : Option Block × St := (r.1.map Buf.data, r.2.st)

def bare {α : Type} (r : α × Log) : α × St := (r.1, r.2.st)

variable {x : Log}

theorem newBuf_cases (x : Log) :
    (newBuf x = (none, ⟨x.st.next, x.bufs⟩) ∧ Rfs.newBuf x.st = (false, x.st.next) ∧ x.st.krl 0 = false) ∨
      (newBuf x = (some x.bufs.born, ⟨x.st.next, x.bufs.make⟩) ∧ Rfs.newBuf x.st = (true, x.st.next) ∧
        x.st.krl 0 = true) := by
  unfold newBuf Rfs.newBuf
  cases hkrl : x.st.krl 0
  · exact .inl ⟨rfl, rfl, rfl⟩
  · exact .inr ⟨rfl, rfl, rfl⟩

theorem erases_delBuf (x : Log) (buf : Nat) : Erases Log.st (delBuf x buf) (Rfs.delBuf x.st) := by
  unfold delBuf
  cases Rfs.delBuf x.st <;> rfl

theorem writeRfsdevblk_cases (x : Log) (weadr : Block) (blknr : Nat) :
    (writeRfsdevblk x weadr blknr = none ∧ Rfs.writeRfsdevblk x.st weadr blknr = none) ∨
      ∃ st, writeRfsdevblk x weadr blknr = some ⟨st, x.bufs⟩ ∧ Rfs.writeRfsdevblk x.st weadr blknr = some st := by
  unfold writeRfsdevblk
  cases Rfs.writeRfsdevblk x.st weadr blknr with
  | none => exact .inl ⟨rfl, rfl⟩
  | some st => exact .inr ⟨st, rfl, rfl⟩

theorem erases_getSuperblk (x : Log) : Erases plain (getSuperblk x) (Rfs.getSuperblk x.st) := by
  unfold getSuperblk Rfs.getSuperblk
  obtain ⟨hnew, hplain, -⟩ | ⟨hnew, hplain, -⟩ := newBuf_cases x
  · rw [hnew, hplain]
    rfl
  · rw [hnew, hplain]
    dsimp only
    cases readRfsdevblk x.st.next 0 with
    | none => exact (erases_delBuf _ _).bind fun _ => rfl
    | some data => rfl

theorem erases_delSuperblk (x : Log) (sbp : Buf) :
    Erases Log.st (delSuperblk x sbp) (Rfs.delSuperblk x.st sbp.data) := by
  unfold delSuperblk Rfs.delSuperblk
  obtain ⟨hwrite, hplain⟩ | ⟨st, hwrite, hplain⟩ := writeRfsdevblk_cases x sbp.data 0
  · rw [hwrite, hplain]
    rfl
  · rw [hwrite, hplain]
    exact erases_delBuf _ _

theorem erases_getRootdir (x : Log) : Erases plain (getRootdir x) (Rfs.getRootdir x.st) := by
  refine (erases_getSuperblk x).bind ?_
  rintro ⟨_ | sbp, y⟩
  · rfl
  · dsimp only [plain, Option.map_some]
    obtain ⟨hnew, hplain, -⟩ | ⟨hnew, hplain, -⟩ := newBuf_cases y
    all_goals
      rw [hnew, hplain]
      exact (erases_delSuperblk _ _).bind fun _ => rfl

theorem erases_getRootdirfileBlk (x : Log) :
    Erases plain (getRootdirfileBlk x) (Rfs.getRootdirfileBlk x.st) := by
  refine (erases_getRootdir x).bind ?_
  rintro ⟨_ | rtdir, y⟩
  · rfl
  · dsimp only [plain, Option.map_some]
    obtain ⟨hnew, hplain, -⟩ | ⟨hnew, hplain, -⟩ := newBuf_cases y
    · rw [hnew, hplain]
      exact (erases_delBuf _ _).bind fun _ => rfl
    · rw [hnew, hplain]
      dsimp only
      cases readRfsdevblk y.st.next (rdrBlknr rtdir.data 0) with
      | none => exact (erases_delBuf _ _).bind fun _ => (erases_delBuf _ _).bind fun _ => rfl
      | some data => exact (erases_delBuf _ _).bind fun _ => rfl

theorem erases_delRootdirfileBlk (x : Log) (blkp : Buf) :
    Erases Log.st (delRootdirfileBlk x blkp) (Rfs.delRootdirfileBlk x.st blkp.data) := by
  unfold delRootdirfileBlk Rfs.delRootdirfileBlk
  obtain ⟨hwrite, hplain⟩ | ⟨st, hwrite, hplain⟩ := writeRfsdevblk_cases x blkp.data (fmdSfblk blkp.data)
  · rw [hwrite, hplain]
    rfl
  · rw [hwrite, hplain]
    exact erases_delBuf _ _

theorem erases_getBitmapblk (x : Log) : Erases plain (getBitmapblk x) (Rfs.getBitmapblk x.st) := by
  refine (erases_getSuperblk x).bind ?_
  rintro ⟨_ | sbp, y⟩
  · rfl
  · dsimp only [plain, Option.map_some]
    obtain ⟨hnew, hplain, -⟩ | ⟨hnew, hplain, -⟩ := newBuf_cases y
    · rw [hnew, hplain]
      rfl
    · rw [hnew, hplain]
      dsimp only
      cases readRfsdevblk y.st.next (rsbBmpbks sbp.data) with
      | none => exact (erases_delBuf _ _).bind fun _ => (erases_delSuperblk _ _).bind fun _ => rfl
      | some data => exact (erases_delSuperblk _ _).bind fun _ => rfl

theorem erases_delBitmapblk (x : Log) (bitmap : Buf) :
    Erases Log.st (delBitmapblk x bitmap) (Rfs.delBitmapblk x.st bitmap.data) := by
  refine (erases_getSuperblk x).bind ?_
  rintro ⟨_ | sbp, y⟩
  · rfl
  · dsimp only [plain, Option.map_some]
    obtain ⟨hwrite, hplain⟩ | ⟨st, hwrite, hplain⟩ := writeRfsdevblk_cases y bitmap.data (rsbBmpbks sbp.data)
    · rw [hwrite, hplain]
      exact (erases_delSuperblk _ _).bind fun _ => rfl
    · rw [hwrite, hplain]
      exact (erases_delSuperblk _ _).bind fun _ => erases_delBuf _ _

theorem erases_rfsNewBlk (x : Log) : Erases bare (rfsNewBlk x) (Rfs.rfsNewBlk x.st) := by
  refine (erases_getBitmapblk x).bind ?_
  rintro ⟨_ | bitmap, y⟩
  · rfl
  · dsimp only [plain, Option.map_some]
    generalize newBlkLoop bitmap.data (fsysAlcblksz - 2) 2 = found
    exact (erases_delBitmapblk y ⟨bitmap.num, found.2⟩).bind fun _ => rfl

theorem erases_rfsDelBlk (x : Log) (blknr : Nat) :
    Erases Log.st (rfsDelBlk x blknr) (Rfs.rfsDelBlk x.st blknr) := by
  unfold rfsDelBlk Rfs.rfsDelBlk
  split_ifs
  · rfl
  · refine (erases_getBitmapblk x).bind ?_
    rintro ⟨_ | bitmap, y⟩
    · rfl
    · exact erases_delBitmapblk _ _

theorem erases_rfsChkfileisindev (x : Log) (fname : Nat → UInt8) :
    Erases bare (rfsChkfileisindev x fname) (Rfs.rfsChkfileisindev x.st fname) := by
  unfold rfsChkfileisindev Rfs.rfsChkfileisindev
  split_ifs
  · rfl
  · refine (erases_getRootdirfileBlk x).bind ?_
    rintro ⟨_ | rdblkp, y⟩
    · rfl
    · dsimp only [plain, Option.map_some]
      generalize (if fmdType rdblkp.data ≠ fmdDirType then 3 else _) = rets
      exact (erases_delRootdirfileBlk _ _).bind fun _ => rfl

theorem erases_rfsNewDirfileblk (x : Log) (fname : Nat → UInt8) :
    Erases bare (rfsNewDirfileblk x fname) (Rfs.rfsNewDirfileblk x.st fname) := by
  unfold rfsNewDirfileblk Rfs.rfsNewDirfileblk
  obtain ⟨hnew, hplain, -⟩ | ⟨hnew, hplain, -⟩ := newBuf_cases x
  · rw [hnew, hplain]
    rfl
  · rw [hnew, hplain]
    refine (erases_rfsNewBlk _).bind ?_
    rintro ⟨_ | n, y⟩
    · exact (erases_delBuf _ _).bind fun _ => rfl
    · refine (erases_getRootdirfileBlk y).bind ?_
      rintro ⟨_ | rdirblk, z⟩
      · exact (erases_delBuf _ _).bind fun _ => rfl
      · dsimp only [plain, Option.map_some]
        split_ifs
        · exact (erases_delRootdirfileBlk _ _).bind fun _ => (erases_delBuf _ _).bind fun _ => rfl
        · obtain ⟨hwrite, hplain⟩ | ⟨st, hwrite, hplain⟩ :=
            writeRfsdevblk_cases z (newFimgrhd fmdFilType (n + 1)) (n + 1)
          all_goals
            rw [hwrite, hplain]
            exact (erases_delRootdirfileBlk _ _).bind fun _ => (erases_delBuf _ _).bind fun _ => rfl

theorem erases_rfsNewFile (x : Log) (fname : Option (Nat → UInt8)) :
    Erases bare (rfsNewFile x fname) (Rfs.rfsNewFile x.st fname) := by
  unfold rfsNewFile Rfs.rfsNewFile
  split_ifs
  · rfl
  · refine (erases_rfsChkfileisindev x _).bind fun r => ?_
    dsimp only [bare]
    split_ifs
    · rfl
    · exact erases_rfsNewDirfileblk _ _

theorem erases_delDirfileblkCore (x : Log) (fname : Nat → UInt8) :
    Erases bare (delDirfileblkCore x fname) (Rfs.delDirfileblkCore x.st fname) := by
  refine (erases_getRootdirfileBlk x).bind ?_
  rintro ⟨_ | rblkp, y⟩
  · rfl
  · dsimp only [plain, Option.map_some]
    split_ifs
    · exact (erases_delRootdirfileBlk _ _).bind fun _ => rfl
    · exact (erases_delRootdirfileBlk _ _).bind fun _ => rfl
    · cases findEntry rblkp.data fname with
      | none => exact (erases_delRootdirfileBlk _ _).bind fun _ => rfl
      | some o => exact (erases_rfsDelBlk _ _).bind fun _ => (erases_delRootdirfileBlk _ _).bind fun _ => rfl

theorem erases_rfsDelFile (x : Log) (fname : Option (Nat → UInt8)) :
    Erases bare (rfsDelFile x fname) (Rfs.rfsDelFile x.st fname) := by
  unfold rfsDelFile Rfs.rfsDelFile
  split_ifs
  · rfl
  · exact (erases_delDirfileblkCore x _).bind fun _ => rfl

theorem erases_rfsOpenfileblk (x : Log) (fname : Option (Nat → UInt8)) :
    Erases plain (rfsOpenfileblk x fname) (Rfs.rfsOpenfileblk x.st fname) := by
  unfold rfsOpenfileblk Rfs.rfsOpenfileblk
  split_ifs
  · rfl
  refine (erases_getRootdirfileBlk x).bind ?_
  rintro ⟨_ | rblkp, y⟩
  · rfl
  dsimp only [plain, Option.map_some]
  split_ifs
  · exact (erases_delRootdirfileBlk _ _).bind fun _ => rfl
  · exact (erases_delRootdirfileBlk _ _).bind fun _ => rfl
  cases findEntry rblkp.data (rfsRetFname fname).2 with
  | none => exact (erases_delRootdirfileBlk _ _).bind fun _ => rfl
  | some o =>
    obtain ⟨hnew, hplain, -⟩ | ⟨hnew, hplain, -⟩ := newBuf_cases y
    · rw [hnew, hplain]
      exact (erases_delRootdirfileBlk _ _).bind fun _ => rfl
    rw [hnew, hplain]
    dsimp only
    cases readRfsdevblk y.st.next (rdrBlknr rblkp.data o) with
    | none => exact (erases_delBuf _ _).bind fun _ => (erases_delRootdirfileBlk _ _).bind fun _ => rfl
    | some data =>
      dsimp only
      split_ifs
      · exact (erases_delBuf _ _).bind fun _ => (erases_delRootdirfileBlk _ _).bind fun _ => rfl
      · exact (erases_delRootdirfileBlk _ _).bind fun _ => rfl

theorem erases_rfsClosefileblk (x : Log) (fblkp : Buf) :
    Erases Log.st (rfsClosefileblk x fblkp) (Rfs.rfsClosefileblk x.st fblkp.data) := by
  unfold rfsClosefileblk Rfs.rfsClosefileblk
  obtain ⟨hwrite, hplain⟩ | ⟨st, hwrite, hplain⟩ := writeRfsdevblk_cases x fblkp.data (fmdSfblk fblkp.data)
  all_goals
    rw [hwrite, hplain]
    exact erases_delBuf _ _

/-! ### What each function owes -/

def held (r : Option Buf) : List Nat := (r.map Buf.num).toList

theorem settles_delBuf (x : Log) (buf : Nat) : Yields False (delBuf x buf) fun y => Settles x.bufs y.bufs [buf] [] := by
  refine ⟨fun y hy => ?_, False.elim⟩
  obtain ⟨st, -, hy⟩ := bind_eq_ok hy
  obtain rfl := Except.ok.inj hy
  exact .giveBack _ _ _

theorem settles_written (x : Log) (weadr : Block) (blknr buf : Nat) (e : String) :
    Yields False
      (match writeRfsdevblk x weadr blknr with
        | none => .error e
        | some x => delBuf x buf)
      fun y => Settles x.bufs y.bufs [buf] [] := by
  obtain ⟨hwrite, -⟩ | ⟨st, hwrite, -⟩ := writeRfsdevblk_cases x weadr blknr
  · rw [hwrite]
    exact .halt not_false
  · rw [hwrite]
    exact settles_delBuf ⟨st, x.bufs⟩ buf

theorem settles_delSuperblk (x : Log) (sbp : Buf) :
    Yields False (delSuperblk x sbp) fun y => Settles x.bufs y.bufs [sbp.num] [] :=
  settles_written x sbp.data 0 sbp.num _

theorem settles_delRootdirfileBlk (x : Log) (blkp : Buf) :
    Yields False (delRootdirfileBlk x blkp) fun y => Settles x.bufs y.bufs [blkp.num] [] :=
  settles_written x blkp.data _ blkp.num _

theorem getSuperblk_spec (x : Log) : Yields False (getSuperblk x) fun r =>
    Settles x.bufs r.2.bufs [] (held r.1) ∧
      ((r.1 = none ∧ ¬ (x.st.krl 0 = true ∧ retRfsdevblk x.st 0 = true)) ∨
        ∃ sbp, r.1 = some sbp ∧ sbp.num = x.bufs.born ∧ r.2.st = x.st.next ∧
          x.st.krl 0 = true ∧ retRfsdevblk x.st 0 = true) := by
  unfold getSuperblk
  obtain ⟨hnew, -, hkrl⟩ | ⟨hnew, -, hkrl⟩ := newBuf_cases x
  · rw [hnew]
    exact .pure ⟨.refl _ _, .inl ⟨rfl, by simp [hkrl]⟩⟩
  · rw [hnew]
    by_cases hblk : retRfsdevblk x.st 0 = true
    · have hread : readRfsdevblk x.st.next 0 = some (x.st.blk 0) := if_pos hblk
      dsimp only
      rw [hread]
      exact .pure ⟨.make _ _, .inr ⟨_, rfl, rfl, rfl, hkrl, hblk⟩⟩
    · have hread : readRfsdevblk x.st.next 0 = none := if_neg hblk
      dsimp only
      rw [hread]
      exact (settles_delBuf _ _).bind fun y hy => .pure ⟨hy.after (.make _ _), .inl ⟨rfl, fun h => hblk h.2⟩⟩

theorem settles_getSuperblk (x : Log) :
    Yields False (getSuperblk x) fun r => Settles x.bufs r.2.bufs [] (held r.1) :=
  (getSuperblk_spec x).imp fun _ hr => hr.1

theorem settles_getRootdir (x : Log) :
    Yields False (getRootdir x) fun r => Settles x.bufs r.2.bufs [] (held r.1) := by
  refine (settles_getSuperblk x).bind ?_
  rintro ⟨_ | sbp, y⟩ hy
  · exact .pure hy
  · dsimp only
    obtain ⟨hnew, -⟩ | ⟨hnew, -⟩ := newBuf_cases y
    · rw [hnew]
      exact (settles_delSuperblk _ _).bind fun z hz => .pure (hz.after hy)
    · rw [hnew]
      have hboth : Settles x.bufs y.bufs.make [] [sbp.num, y.bufs.born] :=
        ((Settles.make y.bufs []).after hy).perm (.swap ..)
      exact (settles_delSuperblk _ _).bind fun z hz => .pure (hz.after hboth)

theorem settles_getRootdirfileBlk (x : Log) :
    Yields False (getRootdirfileBlk x) fun r => Settles x.bufs r.2.bufs [] (held r.1) := by
  refine (settles_getRootdir x).bind ?_
  rintro ⟨_ | rtdir, y⟩ hy
  · exact .pure hy
  · dsimp only
    obtain ⟨hnew, -⟩ | ⟨hnew, -⟩ := newBuf_cases y
    · rw [hnew]
      exact (settles_delBuf _ _).bind fun z hz => .pure (hz.after hy)
    · rw [hnew]
      dsimp only
      have hboth : Settles x.bufs y.bufs.make [] [y.bufs.born, rtdir.num] := (Settles.make y.bufs []).after hy
      cases readRfsdevblk y.st.next (rdrBlknr rtdir.data 0) with
      | none =>
        exact (settles_delBuf _ _).bind fun z hz => (settles_delBuf _ _).bind fun w hw =>
          .pure (hw.after (hz.after hboth))
      | some data => exact (settles_delBuf _ _).bind fun z hz => .pure (hz.after (hboth.perm (.swap ..)))

theorem settles_delBitmapblk (x : Log) (bitmap : Buf) :
    Yields False (delBitmapblk x bitmap) fun y => Settles x.bufs y.bufs [bitmap.num] [] := by
  refine (settles_getSuperblk x).bind ?_
  rintro ⟨_ | sbp, y⟩ hy
  · exact .halt not_false
  · dsimp only
    obtain ⟨hwrite, -⟩ | ⟨st, hwrite, -⟩ := writeRfsdevblk_cases y bitmap.data (rsbBmpbks sbp.data)
    · rw [hwrite]
      exact (settles_delSuperblk _ _).bind fun _ _ => .halt not_false
    · rw [hwrite]
      refine (settles_delSuperblk _ _).bind fun z hz => (settles_delBuf _ _).imp fun w hw => ?_
      have hmap : Settles x.bufs z.bufs [bitmap.num] [bitmap.num] := hz.after (hy.frame [bitmap.num])
      exact hmap.trans hw

/-! ### The lost buffer -/

/-- The super block is read and there is no buffer for the map. -/
def NoMapBuf (st : St) : Prop := st.krl 0 = true ∧ retRfsdevblk st 0 = true ∧ st.krl 1 = false

instance (st : St) : Decidable (NoMapBuf st) := inferInstanceAs (Decidable (_ ∧ _ ∧ _))

/-- What `get_bitmapblk` leaves behind: the next buffer, which is that of the super block. -/
def lost (x : Log) : List Nat := if NoMapBuf x.st then [x.bufs.born] else []

theorem lost_ne_nil : lost x ≠ [] ↔ NoMapBuf x.st := by
  unfold lost
  split_ifs with h <;> simp [h]

theorem settles_getBitmapblk (x : Log) : Yields False (getBitmapblk x) fun r =>
    Settles x.bufs r.2.bufs [] (held r.1 ++ lost x) ∧ (NoMapBuf x.st → r.1 = none) := by
  refine (getSuperblk_spec x).bind ?_
  rintro ⟨sbp, y⟩ ⟨hy, ⟨rfl, hno⟩ | ⟨sbp, rfl, hnum, hst, hyes⟩⟩
  · have hread : ¬ NoMapBuf x.st := fun h => hno ⟨h.1, h.2.1⟩
    rw [lost, if_neg hread]
    exact .pure ⟨hy, fun h => absurd h hread⟩
  · dsimp only at hst ⊢
    obtain ⟨hnew, -, hkrl⟩ | ⟨hnew, -, hkrl⟩ := newBuf_cases y
    · -- the super block is not given back
      have hlost : NoMapBuf x.st := ⟨hyes.1, hyes.2, by rwa [hst] at hkrl⟩
      rw [hnew, lost, if_pos hlost, ← hnum]
      exact .pure ⟨hy, fun _ => rfl⟩
    · have hread : ¬ NoMapBuf x.st := by
        intro h
        rw [hst] at hkrl
        exact Bool.false_ne_true (h.2.2.symm.trans hkrl)
      have hboth : Settles x.bufs y.bufs.make [] [y.bufs.born, sbp.num] := (Settles.make y.bufs []).after hy
      rw [hnew, lost, if_neg hread]
      dsimp only
      cases readRfsdevblk y.st.next (rsbBmpbks sbp.data) with
      | none =>
        exact (settles_delBuf _ _).bind fun z hz => (settles_delSuperblk _ _).bind fun w hw =>
          .pure ⟨hw.after (hz.after hboth), fun _ => rfl⟩
      | some data =>
        exact (settles_delSuperblk _ _).bind fun z hz =>
          .pure ⟨hz.after (hboth.perm (.swap ..)), fun h => absurd h hread⟩

theorem settles_rfsNewBlk (x : Log) : Yields False (rfsNewBlk x) fun r => Settles x.bufs r.2.bufs [] (lost x) := by
  refine (settles_getBitmapblk x).bind ?_
  rintro ⟨_ | bitmap, y⟩ ⟨hy, -⟩
  · exact .pure hy
  · exact (settles_delBitmapblk _ _).bind fun z hz => .pure (hz.after hy)

theorem settles_rfsDelBlk (x : Log) (blknr : Nat) :
    Yields False (rfsDelBlk x blknr) fun y => Settles x.bufs y.bufs [] [] := by
  unfold rfsDelBlk
  split_ifs
  · exact .halt not_false
  · refine (settles_getBitmapblk x).bind ?_
    rintro ⟨_ | bitmap, y⟩ ⟨hy, hnone⟩
    · exact .halt not_false
    · have hread : ¬ NoMapBuf x.st := fun h => by cases hnone h
      rw [lost, if_neg hread, List.append_nil] at hy
      exact (settles_delBitmapblk _ _).imp fun z hz => hy.trans hz

theorem settles_rfsChkfileisindev (x : Log) (fname : Nat → UInt8) :
    Yields False (rfsChkfileisindev x fname) fun r => Settles x.bufs r.2.bufs [] [] := by
  unfold rfsChkfileisindev
  split_ifs
  · exact .pure (.refl _ _)
  · refine (settles_getRootdirfileBlk x).bind ?_
    rintro ⟨_ | rdblkp, y⟩ hy
    · exact .pure hy
    · exact (settles_delRootdirfileBlk _ _).bind fun z hz => .pure (hy.trans hz)

theorem settles_rfsNewDirfileblk (x : Log) (fname : Nat → UInt8) :
    Yields False (rfsNewDirfileblk x fname) fun r =>
      ∃ l, Settles x.bufs r.2.bufs [] l ∧ (l ≠ [] ↔ x.st.krl 0 = true ∧ NoMapBuf x.st.next) := by
  unfold rfsNewDirfileblk
  obtain ⟨hnew, -, hkrl⟩ | ⟨hnew, -, hkrl⟩ := newBuf_cases x
  · rw [hnew]
    exact .pure ⟨[], .refl _ _, by simp [hkrl]⟩
  rw [hnew]
  refine (settles_rfsNewBlk _).bind ?_
  generalize hl : lost ⟨x.st.next, x.bufs.make⟩ = l
  have hiff : l ≠ [] ↔ x.st.krl 0 = true ∧ NoMapBuf x.st.next := by
    rw [← hl, lost_ne_nil]
    exact ⟨fun h => ⟨hkrl, h⟩, And.right⟩
  rintro ⟨fblk, y⟩ hy
  -- the buffer of the new file is held until the end, and what is lost beside it
  replace hy : Settles x.bufs y.bufs [] (x.bufs.born :: l) :=
    (hy.after (.make _ _)).perm (List.perm_append_singleton ..)
  cases fblk with
  | zero => exact (settles_delBuf _ _).bind fun z hz => .pure ⟨l, hz.after hy, hiff⟩
  | succ n =>
    refine (settles_getRootdirfileBlk y).bind ?_
    rintro ⟨_ | rdirblk, z⟩ hz
    · exact (settles_delBuf _ _).bind fun w hw => .pure ⟨l, hw.after (hz.after hy), hiff⟩
    · have hdir : Settles x.bufs z.bufs [] (rdirblk.num :: x.bufs.born :: l) := hz.after hy
      dsimp only
      split_ifs
      · exact (settles_delRootdirfileBlk _ _).bind fun w hw => (settles_delBuf _ _).bind fun v hv =>
          .pure ⟨l, hv.after (hw.after hdir), hiff⟩
      · obtain ⟨hwrite, -⟩ | ⟨st, hwrite, -⟩ := writeRfsdevblk_cases z (newFimgrhd fmdFilType (n + 1)) (n + 1)
        all_goals
          rw [hwrite]
          exact (settles_delRootdirfileBlk _ _).bind fun w hw => (settles_delBuf _ _).bind fun v hv =>
            .pure ⟨l, hv.after (hw.after hdir), hiff⟩

/-- A creation that gets as far as `get_bitmapblk` and no buffer for the map. -/
def LosesBuf (st : St) (fname : Option (Nat → UInt8)) : Prop :=
  (rfsRetFname fname).1 = 0 ∧ ∃ st₁, Rfs.rfsChkfileisindev st (rfsRetFname fname).2 = .ok (0, st₁) ∧
    st₁.krl 0 = true ∧ NoMapBuf st₁.next

theorem settles_rfsNewFile (x : Log) (fname : Option (Nat → UInt8)) :
    Yields False (rfsNewFile x fname) fun r =>
      ∃ l, Settles x.bufs r.2.bufs [] l ∧ (l ≠ [] ↔ LosesBuf x.st fname) := by
  unfold rfsNewFile
  split_ifs with hpath
  · exact .pure ⟨[], .refl _ _, by simp [LosesBuf, hpath]⟩
  · refine (settles_rfsChkfileisindev x _).self.bind ?_
    rintro ⟨rets, y⟩ ⟨hchk, hy⟩
    replace hchk := (erases_rfsChkfileisindev x _).ok hchk
    have hloses : LosesBuf x.st fname ↔ rets = 0 ∧ y.st.krl 0 = true ∧ NoMapBuf y.st.next := by
      unfold LosesBuf
      rw [hchk]
      constructor
      · rintro ⟨-, st₁, heq, hlost⟩
        obtain ⟨rfl, rfl⟩ := pair_inj heq
        exact ⟨rfl, hlost⟩
      · rintro ⟨rfl, hlost⟩
        exact ⟨not_not.mp hpath, y.st, rfl, hlost⟩
    dsimp only
    split_ifs with hrets
    · exact .pure ⟨[], hy, by simp [hloses, hrets]⟩
    · refine (settles_rfsNewDirfileblk y _).imp ?_
      rintro r ⟨l, hr, hiff⟩
      refine ⟨l, hy.trans hr, hiff.trans ?_⟩
      rw [hloses]
      exact ⟨fun h => ⟨not_not.mp hrets, h⟩, And.right⟩

theorem settles_delDirfileblkCore (x : Log) (fname : Nat → UInt8) :
    Yields False (delDirfileblkCore x fname) fun r => Settles x.bufs r.2.bufs [] [] := by
  refine (settles_getRootdirfileBlk x).bind ?_
  rintro ⟨_ | rblkp, y⟩ hy
  · exact .pure hy
  · dsimp only
    split_ifs
    · exact (settles_delRootdirfileBlk _ _).bind fun z hz => .pure (hy.trans hz)
    · exact (settles_delRootdirfileBlk _ _).bind fun z hz => .pure (hy.trans hz)
    · cases findEntry rblkp.data fname with
      | none => exact (settles_delRootdirfileBlk _ _).bind fun z hz => .pure (hy.trans hz)
      | some o =>
        exact (settles_rfsDelBlk _ _).bind fun z hz => (settles_delRootdirfileBlk _ _).bind fun w hw =>
          .pure (hw.after (hz.after hy))

theorem settles_rfsDelFile (x : Log) (fname : Option (Nat → UInt8)) :
    Yields False (rfsDelFile x fname) fun r => Settles x.bufs r.2.bufs [] [] := by
  unfold rfsDelFile
  split_ifs
  · exact .pure (.refl _ _)
  · exact (settles_delDirfileblkCore x _).bind fun r hr => .pure hr

theorem settles_rfsOpenfileblk (x : Log) (fname : Option (Nat → UInt8)) :
    Yields False (rfsOpenfileblk x fname) fun r => Settles x.bufs r.2.bufs [] (held r.1) := by
  unfold rfsOpenfileblk
  split_ifs
  · exact .pure (.refl _ _)
  refine (settles_getRootdirfileBlk x).bind ?_
  rintro ⟨_ | rblkp, y⟩ hy
  · exact .pure hy
  have hdel : ∀ y : Log, Settles x.bufs y.bufs [] [rblkp.num] →
      Yields False (delRootdirfileBlk y rblkp >>= fun x => .ok ((none : Option Buf), x))
        fun r => Settles x.bufs r.2.bufs [] (held r.1) :=
    fun y hy => (settles_delRootdirfileBlk _ _).bind fun z hz => .pure (hy.trans hz)
  dsimp only
  split_ifs
  · exact hdel y hy
  · exact hdel y hy
  cases findEntry rblkp.data (rfsRetFname fname).2 with
  | none => exact hdel y hy
  | some o =>
    obtain ⟨hnew, -⟩ | ⟨hnew, -⟩ := newBuf_cases y
    · rw [hnew]
      exact hdel _ hy
    rw [hnew]
    dsimp only
    have hboth : Settles x.bufs y.bufs.make [] [y.bufs.born, rblkp.num] := (Settles.make y.bufs []).after hy
    cases readRfsdevblk y.st.next (rdrBlknr rblkp.data o) with
    | none => exact (settles_delBuf _ _).bind fun z hz => hdel z (hz.after hboth)
    | some data =>
      dsimp only
      split_ifs
      · exact (settles_delBuf _ _).bind fun z hz => hdel z (hz.after hboth)
      · exact (settles_delRootdirfileBlk _ _).bind fun z hz => .pure (hz.after (hboth.perm (.swap ..)))

theorem settles_rfsClosefileblk (x : Log) (fblkp : Buf) :
    Yields False (rfsClosefileblk x fblkp) fun y => Settles x.bufs y.bufs [fblkp.num] [] := by
  unfold rfsClosefileblk
  obtain ⟨hwrite, -⟩ | ⟨st, hwrite, -⟩ := writeRfsdevblk_cases x fblkp.data (fmdSfblk fblkp.data)
  all_goals
    rw [hwrite]
    exact settles_delBuf _ _

/-! ### Every operation -/

inductive FileOp where
  | new (fname : Option (Nat → UInt8))
  | del (fname : Option (Nat → UInt8))
  | opn (fname : Option (Nat → UInt8))
  | close (fblkp : Buf)

def FileOp.run (x : Log) : FileOp → Halt (Option Buf × Log)
  | .new fname => rfsNewFile x fname >>= fun r => .ok (none, r.2)
  | .del fname => rfsDelFile x fname >>= fun r => .ok (none, r.2)
  | .opn fname => rfsOpenfileblk x fname
  | .close fblkp => rfsClosefileblk x fblkp >>= fun x => .ok (none, x)

def FileOp.given : FileOp → List Nat
  | .close fblkp => [fblkp.num]
  | _ => []

def FileOp.Loses (st : St) : FileOp → Prop
  | .new fname => LosesBuf st fname
  | _ => False

theorem FileOp.settles (x : Log) (op : FileOp) :
    Yields False (op.run x) fun r => ∃ l, Settles x.bufs r.2.bufs op.given (held r.1 ++ l) ∧
      (l ≠ [] ↔ op.Loses x.st) := by
  have hnone : ∀ {P : Prop}, ¬ P → (([] : List Nat) ≠ [] ↔ P) := fun hP => iff_of_false (fun h => h rfl) hP
  cases op with
  | new fname => exact (settles_rfsNewFile x fname).bind fun r hr => .pure hr
  | del fname => exact (settles_rfsDelFile x fname).bind fun r hr => .pure ⟨[], hr, hnone not_false⟩
  | opn fname =>
    refine (settles_rfsOpenfileblk x fname).imp fun r hr => ⟨[], ?_, hnone not_false⟩
    rwa [List.append_nil]
  | close fblkp => exact (settles_rfsClosefileblk x fblkp).bind fun y hy => .pure ⟨[], hy, hnone not_false⟩

theorem FileOp.settles_held {x y : Log} {op : FileOp} {r : Option Buf} (h : op.run x = .ok (r, y))
    (hkeeps : ¬ op.Loses x.st) : Settles x.bufs y.bufs op.given (held r) := by
  obtain ⟨l, hsettles, hiff⟩ := (op.settles x).post _ h
  obtain rfl : l = [] := not_not.mp (mt hiff.mp hkeeps)
  rwa [List.append_nil] at hsettles

/-- **Every buffer that an operation got or made is given back once before it returns, but for the one that
`rfs_openfileblk` returns, exactly if the operation is no creation that gets no buffer for the map.** -/
theorem buffers_returned_iff {x y : Log} {op : FileOp} {r : Option Buf} (h : op.run x = .ok (r, y)) :
    Settles x.bufs y.bufs op.given (held r) ↔ ¬ op.Loses x.st := by
  refine ⟨fun hall hloses => ?_, FileOp.settles_held h⟩
  obtain ⟨l, hsettles, hiff⟩ := (op.settles x).post _ h
  have hlen := hsettles.length_eq hall
  rw [List.length_append, Nat.add_eq_left] at hlen
  exact hiff.mpr hloses (List.length_eq_zero_iff.mp hlen)

/-- A creation on a formatted device, with every buffer to be had. -/
theorem buffers_returned_of_new : ∃ st y, rfsFmat ramDev = .ok st ∧
    (FileOp.new (letter 102)).run ⟨st, ⟨0, []⟩⟩ = .ok (none, y) ∧ Settles ⟨0, []⟩ y.bufs [] [] := by
  obtain ⟨r, hrun, hr⟩ := exists_of_map (b := (true, true))
    (x := rfsFmat ramDev >>= fun st => Rfs.rfsChkfileisindev st (rfsRetFname (letter 102)).2 >>= fun c =>
      (FileOp.new (letter 102)).run ⟨st, ⟨0, []⟩⟩ >>= fun r => .ok (c.2.krl 2, r))
    (f := fun r => (r.1, r.2.1.isNone)) (by decide +kernel)
  obtain ⟨st, hfmat, hrun⟩ := bind_eq_ok hrun
  obtain ⟨⟨rets, st₁⟩, hchk, hrun⟩ := bind_eq_ok hrun
  obtain ⟨⟨b, y⟩, hop, heq⟩ := bind_eq_ok hrun
  obtain rfl := Except.ok.inj heq
  obtain ⟨hkrl, hnone⟩ := Prod.mk.inj hr
  obtain rfl := Option.isNone_iff_eq_none.mp hnone
  refine ⟨st, y, hfmat, hop, (buffers_returned_iff hop).mpr ?_⟩
  rintro ⟨-, st₂, hchk', -, hno⟩
  obtain ⟨-, rfl⟩ := pair_inj (hchk.symm.trans hchk')
  exact Bool.false_ne_true (hno.2.2.symm.trans hkrl)

/-- **A creation on a formatted device that gets no buffer for the map makes five buffers and gives back four.** -/
theorem superblk_buffer_lost : ∃ st y, rfsFmat { ramDev with krl := fun n => n != 24 } = .ok st ∧
    (FileOp.new (letter 102)).run ⟨st, ⟨0, []⟩⟩ = .ok (none, y) ∧ y.bufs = ⟨5, [0, 1, 2, 3]⟩ ∧
    ¬ Settles ⟨0, []⟩ y.bufs [] [] := by
  obtain ⟨⟨r, y⟩, hrun, hr⟩ := exists_of_map (b := (true, ⟨5, [0, 1, 2, 3]⟩))
    (x := rfsFmat { ramDev with krl := fun n => n != 24 } >>= fun st =>
      (FileOp.new (letter 102)).run ⟨st, ⟨0, []⟩⟩)
    (f := fun r => (r.1.isNone, r.2.bufs)) (by decide +kernel)
  obtain ⟨st, hfmat, hrun⟩ := bind_eq_ok hrun
  obtain ⟨hnone, hbufs⟩ := Prod.mk.inj hr
  obtain rfl := Option.isNone_iff_eq_none.mp hnone
  refine ⟨st, y, hfmat, hrun, hbufs, ?_⟩
  rintro ⟨-, l, hfreed, hperm⟩
  have hlen := hperm.length_eq
  rw [← List.nil_append l, ← hfreed, hbufs] at hlen
  exact absurd hlen (by decide)

/-! ### Whole runs -/

/-- One call with the buffers of the open handles: a closed handle is one of them, and the buffer that is returned
becomes one. -/
def HandleStep (x : Log × List Nat) (op : FileOp) (y : Log × List Nat) : Prop :=
  ∃ r rest, x.2.Perm (op.given ++ rest) ∧ op.run x.1 = .ok (r, y.1) ∧ y.2 = held r ++ rest

/-- **In a run in which no creation loses a buffer, the buffers not given back are those of the open handles.** -/
theorem handles_of_run {z : Ledger} {x y : Log × List Nat} {ops : List FileOp} (hx : Settles z x.1.bufs [] x.2)
    (hrun : Trace (fun x op y => HandleStep x op y ∧ ¬ op.Loses x.1.st) x ops y) : Settles z y.1.bufs [] y.2 := by
  refine hrun.keeps (J := fun x => Settles z x.1.bufs [] x.2) ?_ hx
  rintro x op y hx ⟨⟨r, rest, hperm, hop, hy⟩, hkeeps⟩
  rw [hy]
  exact (FileOp.settles_held hop hkeeps).after (hx.perm hperm)

/-- A file is opened, and its buffer is the one that is not given back. -/
theorem handles_of_open : ∃ st y, Trace (fun x op y => HandleStep x op y ∧ ¬ op.Loses x.1.st) (⟨st, ⟨0, []⟩⟩, [])
    [.opn (letter 102)] y ∧ y.2 ≠ [] ∧ Settles ⟨0, []⟩ y.1.bufs [] y.2 := by
  obtain ⟨⟨st, r, y⟩, hrun, hr⟩ := exists_of_map (b := true)
    (x := rfsFmat ramDev >>= fun st => Rfs.rfsNewFile st (letter 102) >>= fun s =>
      (FileOp.opn (letter 102)).run ⟨s.2, ⟨0, []⟩⟩ >>= fun r => .ok (s.2, r))
    (f := fun r => r.2.1.isSome) (by decide +kernel)
  obtain ⟨_, -, hrun⟩ := bind_eq_ok hrun
  obtain ⟨s, -, hrun⟩ := bind_eq_ok hrun
  obtain ⟨_, hop, heq⟩ := bind_eq_ok hrun
  cases heq
  have hstep : HandleStep (⟨s.2, ⟨0, []⟩⟩, []) (.opn (letter 102)) (y, held r ++ []) := ⟨r, [], .refl _, hop, rfl⟩
  obtain ⟨buf, rfl⟩ := Option.isSome_iff_exists.mp hr
  exact ⟨s.2, _, .cons ⟨hstep, not_false⟩ (.nil _), List.cons_ne_nil buf.num [],
    handles_of_run (.refl _ _) (.cons ⟨hstep, not_false⟩ (.nil _))⟩

end Cosmos.Rfs.Buffers
