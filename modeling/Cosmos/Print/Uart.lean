import Cosmos.Print.Format
import Cosmos.Sve.Io
import Cosmos.Video.Decode

/-!
# Writing to the console (`drivers/drvuart.c`)

`uart_write` is given a buffer and a length, and prints the buffer with `kprint("%s")`: it looks for a terminating zero
and not at the length. So a write stays inside the caller's buffer and inside the 512 bytes of `kprint` exactly if there
is such a zero within both (`console_write_iff`).
-/

namespace Cosmos.Print

open Cosmos.Lib Cosmos.Sve

/-! ### The driver -/

def krldevDecDevcount (s : Sys) (devp : Nat) : Bool × Sys :=
  if (s.dev devp).devCount < 1 then (false, s)
  else (true, s.setDev devp { s.dev devp with devCount := (s.dev devp).devCount - 1 })

def uartClose (m : Machine) (devp : Nat) : Bool × Machine :=
  ((krldevDecDevcount m.sys devp).1, { m with sys := (krldevDecDevcount m.sys devp).2 })

/-- `uart_read`; the copy is not interrupted here. -/
def uartRead (m : Machine) (retbuf len : Nat) : Halt (Bool × Machine) :=
  if m.kbd.kbSem < 1 then .error "krlsem_down waits for a key"
  else
    .ok (true,
      { m with
        kbd := { m.kbd with kbSem := m.kbd.kbSem - 1 }
        mem := blit (fun i => UInt8.ofNat (m.kbd.byte i)) m.mem retbuf (Drv.readSz len) })

/-- `uart_write`; the length is fetched and not used. -/
def uartWrite (m : Machine) (retbuf _len : Nat) : Halt (Bool × Machine) :=
  kprint m.mem fmtS [retbuf] >>= fun r =>
    .ok (true, { m with shown := m.shown ++ [r.1], reads := m.reads + r.2 })

def uartIo (m : Machine) (devp : Nat) : Request → Halt (Bool × Machine)
  | .close => .ok (uartClose m devp)
  | .read onBuf onLen _ => uartRead m onBuf onLen
  | .write onBuf onLen _ => uartWrite m onBuf onLen

theorem uartIo_keeps {m : Machine} {devp : Nat} {q : Request} {r : Bool × Machine} (h : uartIo m devp q = .ok r) :
    r.2.sys.tdHandtbl = m.sys.tdHandtbl ∧ r.2.sys.node = m.sys.node := by
  cases q with
  | close =>
    cases h
    simp only [uartClose, krldevDecDevcount]
    split <;> exact ⟨rfl, rfl⟩
  | read =>
    simp only [uartIo, uartRead] at h
    split_ifs at h
    cases h
    exact ⟨rfl, rfl⟩
  | write =>
    obtain ⟨x, -, h⟩ := Halt.bind_eq_ok h
    cases h
    exact ⟨rfl, rfl⟩

def uart : Driver where
  io := uartIo
  tbl h := (uartIo_keeps h).1
  node h := (uartIo_keeps h).2

/-! ### A write -/

section Write

variable {m : Machine} {hand : Fin tdHandMax} {ondp devp : Nat}

theorem krlsveWrite_uart (buf len flgs : Nat) (h : Holds m.sys hand ondp devp) (hbuf : buf ≠ 0) (hlen : len ≠ 0) :
    ∃ s', s'.dev = m.sys.dev ∧ krlsveWrite uart m hand.val buf len flgs = (kprint m.mem fmtS [buf] >>= fun r =>
      .ok (sysstusok, { m with sys := s', shown := m.shown ++ [r.1], reads := m.reads + r.2 })) := by
  rw [krlsveWrite_hand hbuf hlen]
  obtain ⟨n, -, hreq⟩ := krlsveCoreRequest_of_holds (d := uart) (q := .write buf len flgs) h
  refine ⟨(m.requested ondp n (.write buf len flgs)).sys, rfl, hreq.trans ?_⟩
  show (uartWrite (m.requested ondp n (.write buf len flgs)) buf len >>= _) = _
  rw [uartWrite]
  show ((kprint m.mem fmtS [buf] >>= _) >>= _) = _
  cases kprint m.mem fmtS [buf] <;> rfl

/-- **A write to the console reads no more than `len` bytes of the buffer and stays inside the 512 bytes of `kprint`
exactly if a terminating zero stands within both.** -/
theorem console_write_iff (m : Machine) (hand : Fin tdHandMax) (ondp devp buf len flgs : Nat)
    (h : Holds m.sys hand ondp devp) (hbuf : buf ≠ 0) (hlen : len ≠ 0) :
    (∃ r, krlsveWrite uart m hand.val buf len flgs = .ok r ∧ r.2.reads ≤ m.reads + len) ↔
      ∃ text, Spells (strAt m.mem buf) text ∧ text.length < len ∧ text.length < 512 := by
  obtain ⟨s', -, hwrite⟩ := krlsveWrite_uart buf len flgs h hbuf hlen
  rw [hwrite]
  constructor
  · rintro ⟨r, hr, hreads⟩
    obtain ⟨x, hx, hr⟩ := Halt.bind_eq_ok hr
    obtain ⟨text, htext, hfits, rfl⟩ := kprint_fmtS_iff.mp hx
    cases hr
    exact ⟨text, htext, Nat.le_of_add_le_add_left hreads, hfits⟩
  · rintro ⟨text, htext, hlt, hfits⟩
    refine ⟨_, Halt.bind_of_ok (kprint_fmtS_iff.mpr ⟨text, htext, hfits, rfl⟩) _, ?_⟩
    exact Nat.add_le_add_left hlt m.reads

end Write

theorem tdHandMax_pos : 0 < tdHandMax := by decide

def hand0 : Fin tdHandMax := ⟨0, tdHandMax_pos⟩

/-- The first handle is open on the console, and `mem` is the memory of the process. -/
def openUart (mem : Nat → UInt8) : Machine where
  sys := ((oneDevice 15 .uartOpen Rfs.ramDev).setNode 2 (some (devNode 1))).setHand hand0 (some 2)
  mem := mem
  kbd := ⟨0, fun _ => 0⟩
  shown := []
  reads := 0

theorem openUart_holds (mem : Nat → UInt8) : Holds (openUart mem).sys hand0 2 1 := ⟨rfl, devNode 1, rfl, rfl, rfl⟩

def hiMem (a : Nat) : UInt8 := if a = 0x1000 then 104 else if a = 0x1001 then 105 else 0

theorem spells_hiMem : Spells (strAt hiMem 0x1000) [104, 105] := ⟨⟨rfl, by decide⟩, ⟨rfl, by decide⟩, rfl⟩

theorem console_write_three :
    ∃ r, krlsveWrite uart (openUart hiMem) hand0.val 0x1000 3 0 = .ok r ∧ r.2.reads ≤ (openUart hiMem).reads + 3 :=
  (console_write_iff (openUart hiMem) hand0 2 1 0x1000 3 0 (openUart_holds _) (by decide) (by decide)).mpr
    ⟨[104, 105], spells_hiMem, by decide, by decide⟩

/-- "hi" written with its length of two is read past its end, and a buffer without a zero is copied past the end of
the one in `kprint`. -/
theorem console_write_overruns :
    (∃ r, krlsveWrite uart (openUart hiMem) hand0.val 0x1000 2 0 = .ok r ∧ r.1 = sysstusok ∧ r.2.reads = 3) ∧
      ∃ e, krlsveWrite uart (openUart fun _ => 97) hand0.val 0x1000 2 0 = .error e := by
  constructor
  · obtain ⟨s', -, hwrite⟩ := krlsveWrite_uart 0x1000 2 0 (openUart_holds hiMem) (by decide) (by decide)
    have hprint := kprint_fmtS_iff.mpr ⟨_, spells_hiMem, by decide, rfl⟩
    exact ⟨_, hwrite.trans (Halt.bind_of_ok hprint _), rfl, rfl⟩
  · obtain ⟨s', -, hwrite⟩ := krlsveWrite_uart 0x1000 2 0 (openUart_holds fun _ => 97) (by decide) (by decide)
    rw [hwrite]
    cases hprint : kprint (openUart fun _ => 97).mem fmtS [0x1000] with
    | error e => exact ⟨e, rfl⟩
    | ok r =>
      obtain ⟨text, htext, -⟩ := kprint_fmtS_iff.mp hprint
      have hzero : (97 : UInt8) = 0 := htext.zero
      exact absurd hzero (by decide)

end Cosmos.Print
