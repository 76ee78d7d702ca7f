import Cosmos.Rfs.Moves

/-!
# Writes to a file as writes to memory

`rfs_writefileblk` once more, with the buffer at an address of a memory of `2 ^ 64` bytes that can all be written. Where
`fmd_curfinwbkoff + len` is not beyond `2 ^ 64` it does what `rfsWritefileblk` says, and to the buffer's bytes only.
Where it is, the bound is computed modulo `2 ^ 64`, and a length close to `2 ^ 64` passes it.
-/

namespace Cosmos.Rfs

open Cosmos.Lib

/-- The memory outside the device, and the device. -/
structure Mach where
  mem : Nat → UInt8
  st : St

def blockAt (mem : Nat → UInt8) (fmp : Nat) : Block := fun i => mem (fmp + i)

def rfsWritefileblkAt (x : Mach) (fmp buf len : Nat) : Bool × Mach :=
  if oneBlock (blockAt x.mem fmp) = false then (false, x)
  else if fsysAlcblksz ≤ u64 (fmdCurfinwbkoff (blockAt x.mem fmp) + len) then (false, x)
  else
    let wrp := u64 (fmp + fmdCurfinwbkoff (blockAt x.mem fmp))
    let mem := memcpy buf wrp len x.mem
    let mem := putWord mem (fmp + 64) (u64 (fmdFilesz (blockAt mem fmp) + len))
    let mem := putWord mem (fmp + 96) (u64 (fmdCurfinwbkoff (blockAt mem fmp) + len))
    (true, ⟨mem, (writeRfsdevblk x.st (blockAt mem fmp) (fmdCurfwritebk (blockAt mem fmp))).getD x.st⟩)

variable {x y : Mach} {mem : Nat → UInt8} {fmp buf len nr : Nat} {b b' : Block}

/-! ### Without a wrap the buffer is all that is written -/

theorem blockAt_putWord (mem : Nat → UInt8) (fmp o v : Nat) :
    blockAt (putWord mem (fmp + o) v) fmp = putWord (blockAt mem fmp) o v := by
  funext i
  unfold blockAt putWord writeLE
  simp only [Nat.add_sub_add_left, Nat.add_assoc, Nat.add_le_add_iff_left, Nat.add_lt_add_iff_left]

/-- The bytes a write has put into the buffer. They are those of the source if that is apart from the buffer. -/
def copied (x : Mach) (fmp buf len : Nat) : Nat → UInt8 := fun i =>
  memcpy buf (fmp + fmdCurfinwbkoff (blockAt x.mem fmp)) len x.mem (fmp + fmdCurfinwbkoff (blockAt x.mem fmp) + i)

theorem blockAt_memcpy (mem : Nat → UInt8) (buf : Nat) {cur : Nat} (hin : fmp + cur + len ≤ 2 ^ 64) :
    blockAt (memcpy buf (fmp + cur) len mem) fmp =
      blit (fun i => memcpy buf (fmp + cur) len mem (fmp + cur + i)) (blockAt mem fmp) cur len := by
  funext i
  unfold blockAt blit
  split_ifs with hi
  · simp only
    rw [show fmp + cur + (i - cur) = fmp + i by omega]
  · refine memcpy_of_outside len fun k hk => ?_
    rw [u64_of_lt (by omega)]
    omega

theorem rfsWritefileblkAt_eq (buf : Nat) (hfile : FileOk (blockAt x.mem fmp) nr) (hfmp : fmp + fsysAlcblksz ≤ 2 ^ 64)
    (hfit : 0x200 + fmdFilesz (blockAt x.mem fmp) + len < fsysAlcblksz) :
    ∃ mem, rfsWritefileblkAt x fmp buf len = (true, ⟨mem, (writeRfsdevblk x.st (blockAt mem fmp) nr).getD x.st⟩) ∧
      blockAt mem fmp = appendBlk (blockAt x.mem fmp) (copied x fmp buf len) len ∧
      ∀ a, a < fmp ∨ fmp + fsysAlcblksz ≤ a → mem a = x.mem a := by
  have hsz : fsysAlcblksz = 0x1000 := rfl
  have hcur := hfile.curfinwbkoff
  have hbound : ¬ fsysAlcblksz ≤ u64 (fmdCurfinwbkoff (blockAt x.mem fmp) + len) := by
    rw [hcur, u64_of_lt (by omega)]
    omega
  have hwrp : u64 (fmp + fmdCurfinwbkoff (blockAt x.mem fmp)) = fmp + fmdCurfinwbkoff (blockAt x.mem fmp) :=
    u64_of_lt (by omega)
  have hin : fmp + fmdCurfinwbkoff (blockAt x.mem fmp) + len ≤ 2 ^ 64 := by omega
  have hcopy := blockAt_memcpy x.mem buf hin
  -- the three stores in turn
  generalize hm₁ : memcpy buf (fmp + fmdCurfinwbkoff (blockAt x.mem fmp)) len x.mem = m₁ at hcopy
  generalize hm₂ : putWord m₁ (fmp + 64) (u64 (fmdFilesz (blockAt m₁ fmp) + len)) = m₂
  generalize hm₃ : putWord m₂ (fmp + 96) (u64 (fmdCurfinwbkoff (blockAt m₂ fmp) + len)) = m₃
  have happ : blockAt m₃ fmp = appendBlk (blockAt x.mem fmp) (copied x fmp buf len) len := by
    rw [← hm₃, blockAt_putWord, ← hm₂, blockAt_putWord, hcopy, ← hm₁]
    rfl
  refine ⟨m₃, ?_, happ, fun a ha => ?_⟩
  · unfold rfsWritefileblkAt
    rw [if_neg hfile.oneBlock, if_neg hbound]
    simp only [hwrp, hm₁, hm₂, hm₃]
    rw [happ, (hfile.appendBlk hfit).curfwritebk]
  · rw [← hm₃, putWord_of_outside (by omega), ← hm₂, putWord_of_outside (by omega), ← hm₁]
    refine memcpy_of_outside len fun k hk => ?_
    rw [u64_of_lt (by omega)]
    omega

theorem rfsWritefileblkAt_cases (buf : Nat) (hfile : FileOk (blockAt x.mem fmp) nr)
    (hlen : fmdCurfinwbkoff (blockAt x.mem fmp) + len < 2 ^ 64) :
    rfsWritefileblkAt x fmp buf len = (false, x) ∧ fsysAlcblksz ≤ 0x200 + fmdFilesz (blockAt x.mem fmp) + len ∨
      0x200 + fmdFilesz (blockAt x.mem fmp) + len < fsysAlcblksz := by
  refine (Nat.lt_or_ge (0x200 + fmdFilesz (blockAt x.mem fmp) + len) fsysAlcblksz).symm.imp (fun hbig => ⟨?_, hbig⟩) id
  unfold rfsWritefileblkAt
  rw [u64_of_lt hlen, hfile.curfinwbkoff]
  split_ifs
  · rfl
  · rfl

/-- **Without a wrap the call does to memory what `rfsWritefileblk` does to the block.** -/
theorem rfsWritefileblkAt_refines (hfile : FileOk (blockAt x.mem fmp) nr) (hfmp : fmp + fsysAlcblksz ≤ 2 ^ 64)
    (hlen : fmdCurfinwbkoff (blockAt x.mem fmp) + len < 2 ^ 64) :
    rfsWritefileblk x.st (blockAt x.mem fmp) (copied x fmp buf len) len =
      .ok ((rfsWritefileblkAt x fmp buf len).1, blockAt (rfsWritefileblkAt x fmp buf len).2.mem fmp,
        (rfsWritefileblkAt x fmp buf len).2.st) := by
  have hvalue := hfile.rfsWritefileblk x.st (copied x fmp buf len) len
  rcases rfsWritefileblkAt_cases buf hfile hlen with ⟨heq, hbig⟩ | hfit
  · rw [heq]
    rcases hvalue with ⟨-, hvalue⟩ | ⟨hwrap, -⟩ | ⟨hfit, -⟩
    · exact hvalue
    · omega
    · omega
  · obtain ⟨mem, heq, happ, -⟩ := rfsWritefileblkAt_eq buf hfile hfmp hfit
    rw [heq]
    simp only [happ]
    rcases hvalue with ⟨hbig, -⟩ | ⟨hwrap, -⟩ | ⟨-, hvalue⟩
    · rw [u64_of_lt hlen, hfile.curfinwbkoff] at hbig
      omega
    · omega
    · exact hvalue

/-! ### Runs of writes -/

/-- The offset is in the data part of the block and the size is what is before it. -/
def InBlock (b : Block) : Prop :=
  0x200 ≤ fmdCurfinwbkoff b ∧ fmdCurfinwbkoff b < fsysAlcblksz ∧ fmdFilesz b = fmdCurfinwbkoff b - 0x200

theorem FileOk.inBlock (h : FileOk b nr) : InBlock b := by
  have hroom := h.room
  unfold InBlock
  rw [h.curfinwbkoff]
  omega

/-- A call that returns `DFCOKSTUS` changes bytes of the buffer only. -/
def StaysInside (x : Mach) (fmp buf len : Nat) : Prop :=
  (rfsWritefileblkAt x fmp buf len).1 = true →
    ∀ a, a < fmp ∨ fmp + fsysAlcblksz ≤ a → (rfsWritefileblkAt x fmp buf len).2.mem a = x.mem a

/-- A call for which the offset and the length do not wrap around. -/
def WriteStep (fmp : Nat) (x : Mach) (a : Nat × Nat) (y : Mach) : Prop :=
  fmdCurfinwbkoff (blockAt x.mem fmp) + a.2 < 2 ^ 64 ∧ (rfsWritefileblkAt x fmp a.1 a.2).2 = y

theorem FileOk.write (hfile : FileOk (blockAt x.mem fmp) nr) (hfmp : fmp + fsysAlcblksz ≤ 2 ^ 64)
    (hlen : fmdCurfinwbkoff (blockAt x.mem fmp) + len < 2 ^ 64) :
    StaysInside x fmp buf len ∧ FileOk (blockAt (rfsWritefileblkAt x fmp buf len).2.mem fmp) nr := by
  unfold StaysInside
  rcases rfsWritefileblkAt_cases buf hfile hlen with ⟨heq, -⟩ | hfit
  · rw [heq]
    exact ⟨fun _ _ _ => rfl, hfile⟩
  · obtain ⟨mem, heq, happ, hout⟩ := rfsWritefileblkAt_eq buf hfile hfmp hfit
    rw [heq]
    refine ⟨fun _ => hout, ?_⟩
    simp only [happ]
    exact hfile.appendBlk hfit

theorem FileOk.congr (h : FileOk b nr) (heq : ∀ i < 0x200, b' i = b i) : FileOk b' nr := by
  have hword : ∀ {o}, o + 8 ≤ 0x200 → getWord b' o = getWord b o :=
    fun ho => getWord_congr fun i _ hi => heq i (by omega)
  have hsize : fmdFilesz b' = fmdFilesz b := hword (by decide)
  have hheader : Header b' fmdFilType nr := h.header.of_words fun ho _ _ => hword ho
  refine { hheader with curfinwbkoff := ?_, room := ?_ }
  · rw [hsize]
    exact (hword (by decide)).trans h.curfinwbkoff
  · rw [hsize]
    exact h.room

/-- **Writes stay inside the block of the file**, in every run of writes to an opened file in which the offset and the
length never wrap around. -/
theorem writes_stay_inside {st₀ st : St} {es : List (Op × Res)} {s : Sys} {h : Nat} {n : List UInt8}
    {calls : List (Nat × Nat)} (hsized : Sized st₀.rdeMsize) (hfmat : rfsFmat st₀ = .ok st)
    (hrun : Trace AnyStep (start st) es s) (hopen : s.opened h = some (n, b)) (hfmp : fmp + fsysAlcblksz ≤ 2 ^ 64)
    (hmem : ∀ i < fsysAlcblksz, mem (fmp + i) = b i) (hcalls : Trace (WriteStep fmp) ⟨mem, s.st⟩ calls y) :
    InBlock (blockAt y.mem fmp) ∧
      ∀ buf len, fmdCurfinwbkoff (blockAt y.mem fmp) + len < 2 ^ 64 → StaysInside y fmp buf len := by
  have hs : Sound False s := sound_of_run hsized False.elim hfmat hrun
  obtain ⟨nr, -, hb⟩ := hs.header h n b hopen
  have hstart : FileOk (blockAt mem fmp) nr := hb.congr fun i hi => hmem i (by
    rw [show fsysAlcblksz = 0x1000 from rfl]
    omega)
  have hy : FileOk (blockAt y.mem fmp) nr := by
    refine hcalls.keeps (J := fun x => FileOk (blockAt x.mem fmp) nr) (fun x a z hx hstep => ?_) hstart
    rw [← hstep.2]
    exact (hx.write hfmp hstep.1).2
  exact ⟨hy.inBlock, fun buf len hlen => (hy.write hfmp hlen).1⟩

/-- A new file's buffer at `0x10000`, and a byte of the source at `0x2e00`. -/
def wrapMem (b : Block) : Nat → UInt8 := fun a =>
  if 0x10000 ≤ a ∧ a < 0x11000 then b (a - 0x10000) else if a = 0x2e00 then 7 else 0

theorem wrapMem_buffer (b : Block) {i : Nat} (hi : i < fsysAlcblksz) : wrapMem b (0x10000 + i) = b i := by
  rw [show fsysAlcblksz = 0x1000 from rfl] at hi
  rw [wrapMem, if_pos ⟨by omega, by omega⟩, Nat.add_sub_cancel_left]

theorem wrapMem_write (st : St) (hfile : FileOk b nr) (hempty : fmdFilesz b = 0) :
    (rfsWritefileblkAt ⟨wrapMem b, st⟩ 0x10000 0x2000 (2 ^ 64 - 1)).1 = true ∧
      (rfsWritefileblkAt ⟨wrapMem b, st⟩ 0x10000 0x2000 (2 ^ 64 - 1)).2.mem 0x11000 = 7 := by
  have hat : FileOk (blockAt (wrapMem b) 0x10000) nr :=
    hfile.congr fun i hi => wrapMem_buffer b (hi.trans (by decide))
  have hsize : fmdFilesz (blockAt (wrapMem b) 0x10000) = 0 := by
    rw [← hempty]
    exact getWord_congr fun i _ hi => wrapMem_buffer b (by
      rw [show fsysAlcblksz = 0x1000 from rfl]
      omega)
  have hcur : fmdCurfinwbkoff (blockAt (wrapMem b) 0x10000) = 0x200 := by rw [hat.curfinwbkoff, hsize]
  have hbound : ¬ fsysAlcblksz ≤ u64 (0x200 + (2 ^ 64 - 1)) := by decide
  have hwrp : u64 (0x10000 + 0x200) = 0x10200 := by decide
  unfold rfsWritefileblkAt
  simp only [hcur]
  rw [if_neg hat.oneBlock, if_neg hbound]
  refine ⟨rfl, ?_⟩
  simp only [hwrp]
  rw [putWord_of_outside (by omega), putWord_of_outside (by omega)]
  -- the byte `0xe00` of the copy, which the copy has not touched before in the source
  have hbyte := memcpy_at (m := wrapMem b) (s := 0x2000) (d := 0x10200) (2 ^ 64 - 1) (by decide) (k := 0xe00)
      (by decide)
  rw [show u64 (0x10200 + 0xe00) = 0x11000 by decide, show u64 (0x2000 + 0xe00) = 0x2e00 by decide] at hbyte
  rw [hbyte, memcpy_of_outside 0xe00 fun k hk => by unfold u64; omega]
  rfl

theorem exists_opened : ∃ st s n b, rfsFmat ramDev = .ok st ∧
    Trace AnyStep (start st) [(.new (letter 102), .ok), (.opn (letter 102) 0, .ok)] s ∧ s.opened 0 = some (n, b) ∧
    fmdFilesz b = 0 := by
  obtain ⟨st, s, hfmat, hrun, hsize⟩ := exists_run [(.new (letter 102), .ok), (.opn (letter 102) 0, .ok)]
    (fun x => (x.opened 0).map (fun p => fmdFilesz p.2) = some 0) (by decide +kernel)
  obtain ⟨⟨n, b⟩, hopen, hsize⟩ := Option.map_eq_some_iff.mp hsize
  exact ⟨st, s, n, b, hfmat, any_of_ok hrun, hopen, hsize⟩

theorem write_past_the_buffer : ∃ st s n b, rfsFmat ramDev = .ok st ∧
    Trace AnyStep (start st) [(.new (letter 102), .ok), (.opn (letter 102) 0, .ok)] s ∧ s.opened 0 = some (n, b) ∧
    (∀ i < fsysAlcblksz, wrapMem b (0x10000 + i) = b i) ∧
    ¬ StaysInside ⟨wrapMem b, s.st⟩ 0x10000 0x2000 (2 ^ 64 - 1) := by
  obtain ⟨st, s, n, b, hfmat, hrun, hopen, hsize⟩ := exists_opened
  have hs : Sound False s := sound_of_run sized_ramDev False.elim hfmat hrun
  obtain ⟨nr, -, hb⟩ := hs.header 0 n b hopen
  obtain ⟨hok, hbyte⟩ := wrapMem_write s.st hb hsize
  refine ⟨st, s, n, b, hfmat, hrun, hopen, fun i hi => wrapMem_buffer b hi, fun hstays => ?_⟩
  have hsame := hstays hok 0x11000 (.inr (by decide))
  rw [hbyte] at hsame
  exact absurd hsame (by show (7 : UInt8) ≠ 0; decide)

/-- One byte is written to a new file. -/
theorem writes_stay_inside_of_one : ∃ st s n b y, rfsFmat ramDev = .ok st ∧
    Trace AnyStep (start st) [(.new (letter 102), .ok), (.opn (letter 102) 0, .ok)] s ∧ s.opened 0 = some (n, b) ∧
    Trace (WriteStep 0x10000) ⟨wrapMem b, s.st⟩ [(0x2000, 1)] y ∧ InBlock (blockAt y.mem 0x10000) := by
  obtain ⟨st, s, n, b, hfmat, hrun, hopen, hsize⟩ := exists_opened
  have hcalls : Trace (WriteStep 0x10000) ⟨wrapMem b, s.st⟩ [(0x2000, 1)]
      (rfsWritefileblkAt ⟨wrapMem b, s.st⟩ 0x10000 0x2000 1).2 := by
    refine .cons ⟨?_, rfl⟩ (.nil _)
    have hinside := (writes_stay_inside (y := ⟨wrapMem b, s.st⟩) sized_ramDev hfmat hrun hopen (by decide)
      (fun i hi => wrapMem_buffer b hi) (.nil _)).1
    exact (Nat.add_lt_add_right hinside.2.1 1).trans (by decide)
  exact ⟨st, s, n, b, _, hfmat, hrun, hopen, hcalls,
    (writes_stay_inside sized_ramDev hfmat hrun hopen (by decide) (fun i hi => wrapMem_buffer b hi) hcalls).1⟩

end Cosmos.Rfs
