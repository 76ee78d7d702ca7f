import Cosmos.Rfs.Files

/-!
# Which answers of `krlnew` and `krldelete` a call needs

A call asks for buffers and gives them back in an order that the device and the answers so far decide. For a creation
and for an opening, on a well-formed device, this is followed answer by answer: which answers let the call return, how
many it has asked for by then, with which a creation takes a block off the map (`claimedBlk_ne_zero`) and with which an
opening gets its file (`rfsOpenfileblk_some_iff`).
-/

namespace Cosmos.Rfs

open Cosmos.Lib Halt Function

variable (st : St) {fname : Option (Nat → UInt8)}

def later (k : Nat → Bool) (n : Nat) : Nat → Bool := fun i => k (n + i)

/-- The state when `n` answers more were given. -/
def St.after (st : St) (n : Nat) : St := { st with krl := later st.krl n }

theorem next_eq_after (st : St) : st.next = st.after 1 := by
  unfold St.next St.after later
  simp only [Nat.add_comm]

@[simp] theorem after_krl (st : St) (n i : Nat) : (st.after n).krl i = st.krl (n + i) := rfl

theorem after_after (st : St) (n k : Nat) : (st.after n).after k = st.after (n + k) := by
  unfold St.after later
  simp only [Nat.add_assoc]

theorem newBuf_eq (st : St) : newBuf st = (st.krl 0, st.after 1) := by rw [newBuf, next_eq_after]

theorem delBuf_exact (st : St) (n : Nat) : Exact (st.krl n = true) (delBuf (st.after n)) (st.after (n + 1)) := by
  unfold delBuf
  constructor
  · intro h
    rw [if_pos (show (st.after n).krl 0 = true from h), next_eq_after, after_after]
  · exact fun h => ⟨_, if_neg h⟩

theorem delBuf_pure_exact {α : Type} (st : St) (n : Nat) (g : St → α) :
    Exact (st.krl n = true) (delBuf (st.after n) >>= fun st => .ok (g st)) (g (st.after (n + 1))) := by
  refine Exact.congr ((delBuf_exact st n).bind fun _ => Exact.pure) ?_ fun _ => rfl
  rw [and_true]

theorem readRfsdevblk_of_lt {b : Nat} (hb : b * fsysAlcblksz < st.rdeMsize) : readRfsdevblk st b = some (st.blk b) := by
  rw [readRfsdevblk, retRfsdevblk, if_pos (decide_eq_true hb)]

theorem writeRfsdevblk_of_lt {b : Nat} (hb : b * fsysAlcblksz < st.rdeMsize) (buf : Block) :
    writeRfsdevblk st buf b = some { st with blk := update st.blk b buf } := by
  rw [writeRfsdevblk, retRfsdevblk, if_pos (decide_eq_true hb)]

theorem writeRfsdevblk_same {b : Nat} (hb : b * fsysAlcblksz < st.rdeMsize) :
    writeRfsdevblk st (st.blk b) b = some st := by
  rw [writeRfsdevblk_of_lt st hb, update_eq_self]

theorem getSuperblk_eq (hm : 0 < st.rdeMsize) :
    getSuperblk st = .ok (if st.krl 0 then some (st.blk 0) else none, st.after 1) := by
  unfold getSuperblk
  rw [newBuf_eq]
  cases st.krl 0 with
  | false => rfl
  | true =>
    have hread : readRfsdevblk (st.after 1) 0 = some (st.blk 0) := readRfsdevblk_of_lt (st.after 1) (by simpa)
    simp only [hread, if_true]

theorem delSuperblk_same (hm : 0 < st.rdeMsize) : delSuperblk st (st.blk 0) = delBuf st := by
  rw [delSuperblk, writeRfsdevblk_same st (by omega)]

theorem delRootdirfileBlk_same (hwf : WF st.rdeMsize st.blk) : delRootdirfileBlk st (st.blk 2) = delBuf st := by
  obtain ⟨k, hdir⟩ := hwf.dir
  rw [delRootdirfileBlk, hdir.sfblk, writeRfsdevblk_same st (hwf.lt_size le_rfl)]

/-! ### The root directory -/

theorem getRootdir_exact (hm : 0 < st.rdeMsize) : Exact (st.krl 0 = true → st.krl 2 = true) (getRootdir st)
    (if st.krl 0 && st.krl 1 then some fun i => st.blk 0 (rsbRootdir + i) else none,
      st.after (if st.krl 0 then 3 else 1)) := by
  unfold getRootdir
  rw [getSuperblk_eq st hm, ok_bind]
  cases h0 : st.krl 0 with
  | false => exact Exact.pure.congr (by simp) (by simp)
  | true =>
    have hdel : delSuperblk (st.after 2) (st.blk 0) = delBuf (st.after 2) := delSuperblk_same (st.after 2) hm
    -- the entry is copied into a second buffer, if there is one, before the first is freed
    cases h1 : st.krl 1 <;> simp only [if_true, newBuf_eq, after_after, after_krl, Nat.reduceAdd, h1, hdel]
    · exact (delBuf_pure_exact st 2 fun st => (none, st)).congr (by simp) (by simp)
    · exact (delBuf_pure_exact st 2 fun st' => (some fun i => st.blk 0 (rsbRootdir + i), st')).congr (by simp) (by simp)

def DirReturns (k : Nat → Bool) : Prop := k 0 = true → k 2 = true ∧ (k 1 = true → k 4 = true)

def dirBuf (k : Nat → Bool) : Bool := k 0 && k 1 && k 3

def dirAsks (k : Nat → Bool) : Nat := if k 0 then if k 1 then 5 else 3 else 1

theorem dirAsks_eq {k : Nat → Bool} (h : dirBuf k = true) : dirAsks k = 5 := by
  unfold dirBuf at h
  unfold dirAsks
  grind

theorem getRootdirfileBlk_exact (hwf : WF st.rdeMsize st.blk) : Exact (DirReturns st.krl) (getRootdirfileBlk st)
    (if dirBuf st.krl then some (st.blk 2) else none, st.after (dirAsks st.krl)) := by
  have hroot := getRootdir_exact st (by simpa using hwf.lt_size (b := 0) (by omega))
  unfold getRootdirfileBlk DirReturns dirBuf dirAsks
  cases h0 : st.krl 0 with
  | false =>
    rw [h0] at hroot
    refine Exact.congr (hroot.bind fun _ => Exact.pure) ?_ ?_ <;> simp
  | true =>
    rw [h0] at hroot
    cases h1 : st.krl 1 with
    | false =>
      rw [h1] at hroot
      refine Exact.congr (hroot.bind fun _ => Exact.pure) ?_ ?_ <;> simp
    | true =>
      rw [h1] at hroot
      have hread : readRfsdevblk (st.after 4) 2 = some (st.blk 2) :=
        readRfsdevblk_of_lt (st.after 4) (hwf.lt_size le_rfl)
      refine Exact.congr (hroot.bind (Q := st.krl 4 = true)
        (b := (if st.krl 3 then some (st.blk 2) else none, st.after 5)) fun _ => ?_) (by simp) (by simp)
      cases h3 : st.krl 3 <;> simp only [Bool.and_self, if_true, newBuf_eq, after_after, after_krl, Nat.reduceAdd, h3,
        rdrBlknr_rootdir, hwf.rootdir, hread]
      · exact delBuf_pure_exact st 4 fun st => (none, st)
      · exact delBuf_pure_exact st 4 fun st' => (some (st.blk 2), st')

/-! ### The map of used blocks -/

def MapReturns (k : Nat → Bool) : Prop :=
  k 0 = true → k 1 = true → k 2 = true ∧ k 3 = true ∧ k 4 = true ∧ k 5 = true

def mapBuf (k : Nat → Bool) : Bool := k 0 && k 1

def mapAsks (k : Nat → Bool) : Nat := if k 0 then if k 1 then 6 else 2 else 1

theorem getBitmapblk_exact (hwf : WF st.rdeMsize st.blk) :
    Exact (st.krl 0 = true → st.krl 1 = true → st.krl 2 = true) (getBitmapblk st)
      (if mapBuf st.krl then some (st.blk 1) else none, st.after (min (mapAsks st.krl) 3)) := by
  have hm : 0 < st.rdeMsize := by simpa using hwf.lt_size (b := 0) (by omega)
  unfold getBitmapblk mapBuf mapAsks
  rw [getSuperblk_eq st hm, ok_bind]
  cases h0 : st.krl 0 with
  | false => exact Exact.pure.congr (by simp) (by simp)
  | true =>
    have hdel : delSuperblk (st.after 2) (st.blk 0) = delBuf (st.after 2) := delSuperblk_same (st.after 2) hm
    have hread : readRfsdevblk (st.after 2) 1 = some (st.blk 1) :=
      readRfsdevblk_of_lt (st.after 2) (hwf.lt_size (by omega))
    cases h1 : st.krl 1 <;> simp only [if_true, newBuf_eq, after_after, after_krl, Nat.reduceAdd, h1, hwf.bmpbks, hread,
      hdel]
    · exact Exact.pure.congr (by simp) (by simp)
    · exact (delBuf_pure_exact st 2 fun st' => (some (st.blk 1), st')).congr (by simp) (by simp)

def St.setMap (st : St) (bitmap : Block) : St := { st with blk := update st.blk 1 bitmap }

theorem setMap_zero (st : St) (bitmap : Block) : (st.setMap bitmap).blk 0 = st.blk 0 := by simp [St.setMap]

theorem delBitmapblk_exact (hwf : WF st.rdeMsize st.blk) (bitmap : Block) (n : Nat) :
    Exact (st.krl n = true ∧ st.krl (n + 1) = true ∧ st.krl (n + 2) = true) (delBitmapblk (st.after n) bitmap)
      ((st.setMap bitmap).after (n + 3)) := by
  have hm : 0 < st.rdeMsize := by simpa using hwf.lt_size (b := 0) (by omega)
  unfold delBitmapblk
  rw [getSuperblk_eq (st.after n) hm, ok_bind, after_krl, after_after]
  cases h0 : st.krl n with
  | false =>
    exact ⟨fun h => Bool.noConfusion h.1, fun _ => ⟨_, rfl⟩⟩
  | true =>
    have hwrite : writeRfsdevblk (st.after (n + 1)) bitmap 1 = some ((st.setMap bitmap).after (n + 1)) :=
      writeRfsdevblk_of_lt (st.after (n + 1)) (hwf.lt_size (by omega)) bitmap
    have hdel : delSuperblk ((st.setMap bitmap).after (n + 1)) (st.blk 0) =
        delBuf ((st.setMap bitmap).after (n + 1)) := by
      have hsame := delSuperblk_same ((st.setMap bitmap).after (n + 1)) hm
      rwa [show ((st.setMap bitmap).after (n + 1)).blk 0 = st.blk 0 from setMap_zero st bitmap] at hsame
    simp only [if_true, show (st.after n).blk = st.blk from rfl, hwf.bmpbks, hwrite, hdel]
    refine Exact.congr ((delBuf_exact (st.setMap bitmap) (n + 1)).bind fun _ =>
      delBuf_exact (st.setMap bitmap) (n + 2)) ?_ fun _ => rfl
    simp [St.setMap]

theorem rfsNewBlk_exact (hwf : WF st.rdeMsize st.blk) : Exact (MapReturns st.krl) (rfsNewBlk st)
    (if mapBuf st.krl then ((newBlkLoop (st.blk 1) (fsysAlcblksz - 2) 2).1,
        (st.setMap (newBlkLoop (st.blk 1) (fsysAlcblksz - 2) 2).2).after 6)
      else (0, st.after (mapAsks st.krl))) := by
  have hget := getBitmapblk_exact st hwf
  unfold rfsNewBlk MapReturns mapBuf mapAsks at *
  cases h0 : st.krl 0 with
  | false =>
    rw [h0] at hget
    refine Exact.congr (hget.bind fun _ => Exact.pure) ?_ ?_ <;> simp
  | true =>
    rw [h0] at hget
    cases h1 : st.krl 1 with
    | false =>
      rw [h1] at hget
      refine Exact.congr (hget.bind fun _ => Exact.pure) ?_ ?_ <;> simp
    | true =>
      rw [h1] at hget
      refine Exact.congr (hget.bind fun _ => (delBitmapblk_exact st hwf _ 3).bind fun _ => Exact.pure) ?_ ?_ <;> simp

/-! ### Names -/

variable {st}

theorem WF.chk_iff {m : Nat} {f : Nat → Block} (hwf : WF m f) (hpath : (rfsRetFname fname).1 = 0) :
    (¬ neverUsed (f 2) = true ∧ (findEntry (f 2) (rfsRetFname fname).2).isSome) ↔ files f (pathName fname) ≠ none := by
  obtain ⟨k, hdir⟩ := hwf.dir
  have hname := length_pathName hpath
  have hlt : (cstr drNmMax (rfsRetFname fname).2).length < drNmMax := Nat.lt_of_le_of_lt hname (by decide)
  constructor
  · rintro ⟨-, hsome⟩
    obtain ⟨o, hfind⟩ := Option.isSome_iff_exists.mp hsome
    obtain ⟨j, hj, -, hlive, heq⟩ := hdir.findEntry_some hlt hfind
    rw [pathName, ← heq, hwf.files_entName hj hlive]
    exact Option.some_ne_none _
  · intro hfile
    refine ⟨fun hnever => hfile (hdir.files_of_neverUsed hnever _), ?_⟩
    by_contra hnone
    exact hfile (hdir.files_of_findEntry_none hpath (Option.not_isSome_iff_eq_none.mp hnone))

theorem rfsChkfileisindev_exact (hwf : WF st.rdeMsize st.blk) (hpath : (rfsRetFname fname).1 = 0)
    (hname : pathName fname ≠ []) :
    Exact (DirReturns st.krl ∧ (dirBuf st.krl = true → st.krl 5 = true)) (rfsChkfileisindev st (rfsRetFname fname).2)
      (if dirBuf st.krl then if files st.blk (pathName fname) = none then 0 else 1 else 2,
        st.after (if dirBuf st.krl then 6 else dirAsks st.krl)) := by
  obtain ⟨k, hdir⟩ := hwf.dir
  have hlen : ¬ (rfsStrlen drNmMax (rfsRetFname fname).2 < 1 ∨ drNmMax ≤ rfsStrlen drNmMax (rfsRetFname fname).2) := by
    have hpos : 0 < (pathName fname).length := List.length_pos_iff.mpr hname
    have hle := length_pathName hpath
    have hnm : drNmMax = 104 := rfl
    rw [rfsStrlen_eq]
    unfold pathName at hpos hle
    omega
  have hget := getRootdirfileBlk_exact st hwf
  unfold rfsChkfileisindev
  rw [if_neg hlen]
  cases hbuf : dirBuf st.krl with
  | false =>
    rw [hbuf] at hget
    refine Exact.congr (hget.bind fun _ => Exact.pure) ?_ ?_ <;> simp
  | true =>
    have hasks := dirAsks_eq hbuf
    have hdel : delRootdirfileBlk (st.after 5) (st.blk 2) = delBuf (st.after 5) :=
      delRootdirfileBlk_same (st.after 5) hwf
    have hstatus : (if fmdType (st.blk 2) ≠ fmdDirType then 3 else if neverUsed (st.blk 2) = true then 0
        else if (findEntry (st.blk 2) (rfsRetFname fname).2).isSome then 1 else 0) =
        if files st.blk (pathName fname) = none then 0 else 1 := by
      have hchk := hwf.chk_iff hpath
      rw [if_neg (not_not.mpr hdir.type)]
      grind
    rw [hbuf, hasks] at hget
    refine Exact.congr (hget.bind (Q := st.krl 5 = true)
      (b := (if files st.blk (pathName fname) = none then 0 else 1, st.after 6)) fun _ => ?_) (by simp) (by simp)
    simp only [if_true, hdel, hstatus]
    exact delBuf_pure_exact st 5 fun st' => (_, st')

theorem rfsChkfileisindev_nil (h : pathName fname = []) :
    rfsChkfileisindev st (rfsRetFname fname).2 = .ok (4, st) := by
  have hlen : rfsStrlen drNmMax (rfsRetFname fname).2 = 0 := (rfsStrlen_eq ..).trans (congrArg List.length h)
  rw [rfsChkfileisindev, if_pos (.inl (by omega))]

/-! ### The block a creation takes -/

def FreeBlk (f : Nat → Block) : Prop := ∃ b, 2 ≤ b ∧ b < fsysAlcblksz ∧ f (rsbBmpbks (f 0)) b = 0

theorem WF.newBlkLoop_ne_zero {m : Nat} {f : Nat → Block} (hwf : WF m f) :
    (newBlkLoop (f 1) (fsysAlcblksz - 2) 2).1 ≠ 0 ↔ FreeBlk f := by
  have hsz : fsysAlcblksz = 0x1000 := rfl
  unfold FreeBlk
  rw [hwf.bmpbks]
  rcases newBlkLoop_spec (f 1) (fsysAlcblksz - 2) 2 with ⟨hloop, hused⟩ | ⟨b, hlo, hhi, hfree, hloop⟩
  · rw [hloop]
    exact iff_of_false (fun h => h rfl) fun ⟨b, hlo, hhi, hfree⟩ => hused b hlo (by omega) hfree
  · rw [hloop]
    exact iff_of_true (by simp only; omega) ⟨b, hlo, by omega, hfree⟩

/-- What `rfs_new_file` needs to take a block: a good path, a name no file has, its buffers up to the map, and a free
block. -/
def Claims (st : St) (fname : Option (Nat → UInt8)) : Prop :=
  Wanted st.blk fname ∧ dirBuf st.krl = true ∧ st.krl 6 = true ∧ mapBuf (later st.krl 7) = true ∧ FreeBlk st.blk

theorem takenBlk_ne_zero (st : St) {b : Nat} (hwf : WF st.rdeMsize st.blk) (h : takenBlk st = .ok b) :
    b ≠ 0 ↔ st.krl 0 = true ∧ mapBuf (later st.krl 1) = true ∧ FreeBlk st.blk := by
  unfold takenBlk at h
  rw [newBuf_eq] at h
  cases h0 : st.krl 0 with
  | false =>
    rw [h0] at h
    obtain rfl := Except.ok.inj h
    simp
  | true =>
    rw [h0] at h
    obtain ⟨r, hnew, h⟩ := bind_eq_ok h
    obtain ⟨-, rfl⟩ := (rfsNewBlk_exact (st.after 1) hwf).of_ok hnew
    obtain rfl := Except.ok.inj h
    rw [show (st.after 1).krl = later st.krl 1 from rfl, show (st.after 1).blk = st.blk from rfl]
    cases mapBuf (later st.krl 1) with
    | false => simp
    | true => simpa using hwf.newBlkLoop_ne_zero

theorem claimedBlk_ne_zero {b : Nat} (hwf : WF st.rdeMsize st.blk) (h : claimedBlk st fname = .ok b) :
    b ≠ 0 ↔ Claims st fname := by
  unfold claimedBlk at h
  unfold Claims Wanted
  by_cases hpath : (rfsRetFname fname).1 = 0
  · rw [if_neg (not_not.mpr hpath)] at h
    obtain ⟨r, hchk, h⟩ := bind_eq_ok h
    by_cases hname : pathName fname = []
    · rw [rfsChkfileisindev_nil hname] at hchk
      obtain rfl := Except.ok.inj hchk
      obtain rfl := Except.ok.inj h
      simp [hname]
    · obtain ⟨-, rfl⟩ := (rfsChkfileisindev_exact hwf hpath hname).of_ok hchk
      cases hbuf : dirBuf st.krl with
      | false =>
        rw [hbuf] at h
        obtain rfl := Except.ok.inj h
        simp
      | true =>
        rw [hbuf] at h
        by_cases hfile : files st.blk (pathName fname) = none
        · simp only [hfile, if_true, ne_eq, not_true_eq_false, if_false] at h
          rw [takenBlk_ne_zero (st.after 6) hwf h]
          simp only [hpath, hname, hfile, after_krl, true_and, ne_eq, not_false_eq_true, Nat.add_zero]
          rfl
        · simp only [hfile, if_true, if_false, ne_eq, one_ne_zero, not_false_eq_true] at h
          obtain rfl := Except.ok.inj h
          simp [hfile]
  · rw [if_pos hpath] at h
    obtain rfl := Except.ok.inj h
    simp [hpath]

/-! ### Creations and openings that return -/

theorem rfsNewBlk_none (st : St) (hwf : WF st.rdeMsize st.blk) (h : ¬ (mapBuf st.krl = true ∧ FreeBlk st.blk)) :
    Exact (MapReturns st.krl) (rfsNewBlk st) (0, st.after (mapAsks st.krl)) := by
  refine (rfsNewBlk_exact st hwf).congr Iff.rfl fun _ => ?_
  by_cases hbuf : mapBuf st.krl = true
  · rw [if_pos hbuf]
    have hasks : mapAsks st.krl = 6 := by
      unfold mapBuf at hbuf
      unfold mapAsks
      grind
    have hloop : newBlkLoop (st.blk 1) (fsysAlcblksz - 2) 2 = (0, st.blk 1) := by
      have hzero := mt hwf.newBlkLoop_ne_zero.mp fun hfree => h ⟨hbuf, hfree⟩
      rcases newBlkLoop_spec (st.blk 1) (fsysAlcblksz - 2) 2 with ⟨hloop, -⟩ | ⟨b, hlo, -, -, hloop⟩
      · exact hloop
      · rw [hloop] at hzero
        simp only at hzero
        omega
    rw [hloop, hasks]
    simp only [St.setMap, update_eq_self]
  · rw [if_neg hbuf]

theorem rfsNewBlk_some (st : St) (hwf : WF st.rdeMsize st.blk) (h : mapBuf st.krl = true ∧ FreeBlk st.blk) :
    ∃ b, 2 ≤ b ∧ b < fsysAlcblksz ∧ st.blk 1 b = 0 ∧
      Exact (MapReturns st.krl) (rfsNewBlk st) (b, (st.setMap (update (st.blk 1) b 1)).after 6) := by
  have hne := hwf.newBlkLoop_ne_zero.mpr h.2
  rcases newBlkLoop_spec (st.blk 1) (fsysAlcblksz - 2) 2 with ⟨hloop, -⟩ | ⟨b, hlo, hhi, hfree, hloop⟩
  · rw [hloop] at hne
    exact absurd rfl hne
  · have hsz : fsysAlcblksz = 0x1000 := rfl
    refine ⟨b, hlo, by omega, hfree, (rfsNewBlk_exact st hwf).congr Iff.rfl fun _ => ?_⟩
    rw [if_pos h.1, hloop]

/-- The answers with which `rfs_new_dirfileblk` returns, on a device with a free block or without one. -/
def BlkReturns (k : Nat → Bool) (free : Prop) : Prop :=
  k 0 = true → MapReturns (later k 1) ∧
    (mapBuf (later k 1) = true ∧ free → DirReturns (later k 7) ∧
      if dirBuf (later k 7) then k 12 = true ∧ k 13 = true else k (7 + dirAsks (later k 7)) = true) ∧
    (¬ (mapBuf (later k 1) = true ∧ free) → k (1 + mapAsks (later k 1)) = true)

theorem delRootdirfileBlk_eq (st : St) {buf : Block} {k : Nat} (hm : 2 * fsysAlcblksz < st.rdeMsize)
    (hdir : DirOk buf k) (n : Nat) :
    delRootdirfileBlk (st.after n) buf = delBuf (St.after { st with blk := update st.blk 2 buf } n) := by
  have hwrite : writeRfsdevblk (st.after n) buf 2 = some (St.after { st with blk := update st.blk 2 buf } n) :=
    writeRfsdevblk_of_lt (st.after n) hm buf
  rw [delRootdirfileBlk, hdir.sfblk, hwrite]

theorem delBuf_twice {α : Type} (st : St) (n : Nat) (g : St → α) :
    (∃ r, (delBuf (st.after n) >>= fun st => delBuf st >>= fun st => .ok (g st)) = .ok r) ↔
      st.krl n = true ∧ st.krl (n + 1) = true := by
  rw [(delBuf_exact st n).returns_bind, (delBuf_pure_exact st (n + 1) g).returns_iff]

/-- From the read of the directory on: full or not, two buffers are given back. -/
theorem newEntry_returns_iff (st : St) {name : Nat → UInt8} {c : Nat} (hwf : WF st.rdeMsize st.blk)
    (hin : c * fsysAlcblksz < st.rdeMsize) (hname : (cstr drNmMax name).length ≤ 102) (n : Nat) :
    (∃ r, (if fsysAlcblksz ≤ fmdCurfinwbkoff (st.blk 2) then
        delRootdirfileBlk (st.after n) (st.blk 2) >>= fun st => delBuf st >>= fun st => .ok (false, st)
      else
        match writeRfsdevblk (st.after n) (newFimgrhd fmdFilType c) c with
        | none => delRootdirfileBlk (st.after n) (addEntry (st.blk 2) name c) >>= fun st =>
          delBuf st >>= fun st => .ok (false, st)
        | some st' => delRootdirfileBlk st' (addEntry (st.blk 2) name c) >>= fun st =>
          delBuf st >>= fun st => .ok (true, st)) = .ok r) ↔ st.krl n = true ∧ st.krl (n + 1) = true := by
  obtain ⟨k, hdir⟩ := hwf.dir
  split_ifs with hfull
  · rw [show delRootdirfileBlk (st.after n) (st.blk 2) = _ from delRootdirfileBlk_same (st.after n) hwf]
    exact delBuf_twice st n fun st => (false, st)
  · have hk : k < dirMax := hdir.le.lt_of_ne (mt hdir.full_iff.mpr hfull)
    have hwrite : writeRfsdevblk (st.after n) (newFimgrhd fmdFilType c) c =
        some (St.after ⟨st.rdeMsize, update st.blk c (newFimgrhd fmdFilType c), st.krl⟩ n) :=
      writeRfsdevblk_of_lt (st.after n) hin _
    simp only [hwrite]
    rw [delRootdirfileBlk_eq ⟨st.rdeMsize, update st.blk c (newFimgrhd fmdFilType c), st.krl⟩ (hwf.lt_size le_rfl)
      (hdir.addEntry (c := c) hname hk)]
    exact delBuf_twice _ n fun st => (true, st)

theorem rfsNewDirfileblk_returns_iff (st : St) {name : Nat → UInt8} (hwf : WF st.rdeMsize st.blk)
    (hname : (cstr drNmMax name).length ≤ 102) :
    (∃ r, rfsNewDirfileblk st name = .ok r) ↔ BlkReturns st.krl (FreeBlk st.blk) := by
  unfold rfsNewDirfileblk BlkReturns
  rw [newBuf_eq]
  cases h0 : st.krl 0 with
  | false => simp
  | true =>
    simp only [forall_true_left]
    by_cases hfree : mapBuf (later st.krl 1) = true ∧ FreeBlk st.blk
    · obtain ⟨b, hlo, hhi, hzero, hnew⟩ := rfsNewBlk_some (st.after 1) hwf hfree
      have hin : b * fsysAlcblksz < st.rdeMsize := lt_size_of_lt_div (hwf.free_block hlo hhi hzero).2.1
      have hmark : WF st.rdeMsize (mark st.blk b 1) := hwf.mark_used b
      rw [hnew.returns_bind, show ((st.after 1).setMap (update ((st.after 1).blk 1) b 1)).after 6 =
        (St.mk st.rdeMsize (mark st.blk b 1) st.krl).after 7 from
          after_after ⟨st.rdeMsize, mark st.blk b 1, st.krl⟩ 1 6]
      simp only [hfree, not_true_eq_false, and_self, forall_true_left, false_imp_iff, and_true]
      refine and_congr Iff.rfl ?_
      -- the map has the block, and the directory is as it was
      obtain ⟨c, rfl⟩ : ∃ c, b = c + 1 := ⟨b - 1, by omega⟩
      generalize mark st.blk (c + 1) 1 = f at hmark
      simp only
      rw [(getRootdirfileBlk_exact (St.after ⟨st.rdeMsize, f, st.krl⟩ 7) hmark).returns_bind]
      refine and_congr Iff.rfl ?_
      rw [after_after, show (St.after ⟨st.rdeMsize, f, st.krl⟩ 7).krl = later st.krl 7 from rfl]
      cases hbuf : dirBuf (later st.krl 7) with
      | false => exact (delBuf_pure_exact ⟨st.rdeMsize, f, st.krl⟩ _ fun st => (false, st)).returns_iff
      | true =>
        simp only [if_true, dirAsks_eq hbuf, Nat.reduceAdd, show (St.after ⟨st.rdeMsize, f, st.krl⟩ 7).blk = f from rfl]
        exact newEntry_returns_iff ⟨st.rdeMsize, f, st.krl⟩ hmark hin hname 12
    · have hnew := rfsNewBlk_none (st.after 1) hwf hfree
      rw [hnew.returns_bind]
      refine and_congr Iff.rfl ?_
      simp only [hfree, not_false_eq_true, forall_true_left, false_imp_iff, true_and, after_after]
      exact (delBuf_pure_exact st _ fun st => (false, st)).returns_iff

/-- The answers with which `rfs_new_file` returns: it gets rid of every buffer it has, and once it has read the map it
can write it back. -/
def NewReturns (st : St) (fname : Option (Nat → UInt8)) : Prop :=
  (rfsRetFname fname).1 = 0 → pathName fname ≠ [] → DirReturns st.krl ∧ (dirBuf st.krl = true → st.krl 5 = true ∧
    (files st.blk (pathName fname) = none → BlkReturns (later st.krl 6) (FreeBlk st.blk)))

theorem rfsNewFile_returns_iff (hwf : WF st.rdeMsize st.blk) (fname : Option (Nat → UInt8)) :
    (∃ r, rfsNewFile st fname = .ok r) ↔ NewReturns st fname := by
  unfold rfsNewFile NewReturns
  by_cases hpath : (rfsRetFname fname).1 = 0
  · rw [if_neg (not_not.mpr hpath)]
    by_cases hname : pathName fname = []
    · rw [rfsChkfileisindev_nil hname]
      simp [hname]
    · rw [(rfsChkfileisindev_exact hwf hpath hname).returns_bind, and_assoc]
      simp only [hpath, hname, ne_eq, not_false_eq_true, forall_true_left]
      refine and_congr Iff.rfl ?_
      cases hbuf : dirBuf st.krl with
      | false => simp
      | true =>
        by_cases hfile : files st.blk (pathName fname) = none
        · simp only [hfile, if_true, forall_true_left, not_true_eq_false, if_false]
          refine and_congr Iff.rfl ?_
          exact rfsNewDirfileblk_returns_iff (st.after 6) hwf (length_pathName hpath)
        · simp [hfile]
  · rw [if_pos hpath]
    simp [hpath]

theorem all_seven {k : Nat → Bool} :
    (∀ n < 7, k n = true) ↔ DirReturns k ∧ dirBuf k = true ∧ k 5 = true ∧ k 6 = true := by
  unfold DirReturns dirBuf
  constructor
  · intro h
    simp [h]
  · rintro ⟨hret, hbuf, h5, h6⟩ n hn
    simp only [Bool.and_eq_true] at hbuf
    obtain ⟨h2, h4⟩ := hret hbuf.1.1
    interval_cases n <;> simp [hbuf, h2, h4, h5, h6]

theorem delBuf_none (st : St) :
    ¬ ∃ (fmdp : Block) (st' : St), (delBuf st >>= fun st => .ok ((none : Option Block), st)) =
      .ok (some fmdp, st') := by
  rintro ⟨fmdp, st', h⟩
  obtain ⟨st₁, -, h⟩ := bind_eq_ok h
  cases h

/-- **`rfs_openfileblk` opens a file** exactly if the path is good, there is such a file and every buffer is to be had
and given back. -/
theorem rfsOpenfileblk_some_iff (hwf : WF st.rdeMsize st.blk) (fname : Option (Nat → UInt8)) :
    (∃ fmdp st', rfsOpenfileblk st fname = .ok (some fmdp, st')) ↔
      (rfsRetFname fname).1 = 0 ∧ files st.blk (pathName fname) ≠ none ∧ ∀ n < 7, st.krl n = true := by
  obtain ⟨k, hdir⟩ := hwf.dir
  unfold rfsOpenfileblk
  by_cases hpath : (rfsRetFname fname).1 = 0
  · have hget := getRootdirfileBlk_exact st hwf
    have hsame : ∀ n, delRootdirfileBlk (st.after n) (st.blk 2) = delBuf (st.after n) := fun n =>
      delRootdirfileBlk_same (st.after n) hwf
    rw [if_neg (not_not.mpr hpath), all_seven]
    have hchk := hwf.chk_iff hpath
    by_cases hret : DirReturns st.krl
    · rw [hget.returns hret, ok_bind]
      cases hbuf : dirBuf st.krl with
      | false => simp
      | true =>
        simp only [if_true, hdir.type, ne_eq, not_true_eq_false, if_false, dirAsks_eq hbuf, hsame]
        by_cases hfile : files st.blk (pathName fname) = none
        · refine iff_of_false ?_ fun h => h.2.1 hfile
          by_cases hnever : neverUsed (st.blk 2) = true
          · rw [if_pos hnever]
            exact delBuf_none _
          · have hnone : findEntry (st.blk 2) (rfsRetFname fname).2 = none :=
              Option.not_isSome_iff_eq_none.mp fun hsome => hchk.mp ⟨hnever, hsome⟩ hfile
            rw [if_neg hnever, hnone]
            exact delBuf_none _
        · obtain ⟨hnever, hsome⟩ := hchk.mpr hfile
          obtain ⟨o, hfind⟩ := Option.isSome_iff_exists.mp hsome
          have hlt : (cstr drNmMax (rfsRetFname fname).2).length < drNmMax :=
            Nat.lt_of_le_of_lt (length_pathName hpath) (by decide)
          obtain ⟨j, hj, rfl, hlive, -⟩ := hdir.findEntry_some hlt hfind
          have hheader := hwf.file j hj hlive
          have hread : readRfsdevblk (st.after 6) (rdrBlknr (st.blk 2) (ent j)) = some (st.blk (entBlk (st.blk 2) j)) :=
            readRfsdevblk_of_lt (st.after 6) (lt_size_of_lt_div (hwf.nr j hj hlive).2.1)
          rw [if_neg hnever, hfind]
          simp only [newBuf_eq, after_after, after_krl, Nat.reduceAdd]
          cases h5 : st.krl 5 with
          | false =>
            simp only [hsame]
            exact iff_of_false (delBuf_none _) (by simp)
          | true =>
            simp only [hread, hheader.type, hheader.fileifstbkoff, hsame]
            rw [if_neg (by decide)]
            have hdel := delBuf_pure_exact st 6 fun st' => (some (st.blk (entBlk (st.blk 2) j)), st')
            refine ⟨fun ⟨_, _, h⟩ => ⟨hpath, hfile, hret, trivial, trivial, (hdel.of_ok h).1⟩,
              fun h => ⟨_, _, hdel.returns ?_⟩⟩
            exact h.2.2.2.2.2
    · obtain ⟨e, he⟩ := hget.halts hret
      simp [he, hret]
  · rw [if_pos hpath]
    simp [hpath]

end Cosmos.Rfs
