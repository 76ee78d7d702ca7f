import Cosmos.Lib.Run
import Mathlib.Tactic

/-!
# The keyboard (`drivers/drvuart.c`)

An interrupt writes its scan code into the one slot of `kb_buff` and ups the semaphore; a reader downs the semaphore
and copies the slot byte by byte. The semaphore counts the codes, but the slot holds the last one only: a code that
arrives before the one before it was copied takes its place. In the runs where this does not happen, readers get
every code once and in order.

The semaphore is a count that a down waits on. The key map is any table: nothing depends on its entries.
-/

namespace Cosmos.Drv

open Cosmos.Lib

/-- The part of `kboard_t` the interrupt and the readers use: the permits of `kb_sem` and the words of `kb_buff`. -/
structure Kboard where
  kbSem : Nat
  kbBuff : Nat → Nat

def Kboard.byte (kbd : Kboard) (i : Nat) : Nat := kbd.kbBuff (i / 2) / 256 ^ (i % 2) % 256

def kbdMapCode (keymap : Nat → Nat) (scan cols : Nat) : Nat := keymap (scan * cols)

def Kboard.fill (kbd : Kboard) (down up code : Nat) : Kboard :=
  { kbd with kbBuff := fun i => if i = 0 then down else if i = 1 then up else if i = 2 then code else kbd.kbBuff i }

/-- `kbd_write_scan`: bit 7 tells a release from a press. -/
def kbdWriteScan (keymap : Nat → Nat) (ikbd : Kboard) (scan : Nat) : Kboard :=
  let ikbd := if scan &&& (1 <<< 7) = 0 then ikbd.fill scan 0 (kbdMapCode keymap scan 3) else ikbd
  if scan &&& (1 <<< 7) = 0x80 then ikbd.fill 0 scan (kbdMapCode keymap (scan &&& 0x7f) 3) else ikbd

/-- `uart_handle` with the scan code `read_keybd` got: the slot, then `krlsem_up`. -/
def uartHandle (keymap : Nat → Nat) (ikbd : Kboard) (scan : Nat) : Kboard :=
  let ikbd := kbdWriteScan keymap ikbd scan
  { ikbd with kbSem := ikbd.kbSem + 1 }

def readSz (len : Nat) : Nat := if 6 < len then 6 else len

/-- A `uart_read` behind its `krlsem_down`: the length asked for and the bytes `hal_memcpy` has copied so far. -/
structure Reader where
  len : Nat
  got : List Nat
  deriving DecidableEq

/-- The keyboard and the readers behind their down, with the scan codes that came and the buffers of the completed
reads, both oldest first. -/
structure St where
  kbd : Kboard
  readers : List Reader
  received : List Nat
  returned : List (List Nat)

inductive Ev where
  | intr (scan : Fin 256)
  | down (len : Nat)
  | copy (i : Nat)
  | ret (i : Nat)

/-- One event: an interrupt, a down that gets its permit, one byte of a copy, the return from a finished copy. -/
def step (keymap : Nat → Nat) (s : St) : Ev → Option St
  | .intr scan => some { s with kbd := uartHandle keymap s.kbd scan, received := s.received ++ [scan.val] }
  | .down len =>
    if s.kbd.kbSem < 1 then none
    else some { s with kbd := { s.kbd with kbSem := s.kbd.kbSem - 1 }, readers := s.readers ++ [⟨len, []⟩] }
  | .copy i => s.readers[i]?.bind fun rd =>
    if rd.got.length < readSz rd.len then
      some { s with readers := s.readers.set i { rd with got := rd.got ++ [s.kbd.byte rd.got.length] } }
    else none
  | .ret i => s.readers[i]?.bind fun rd =>
    if rd.got.length < readSz rd.len then none
    else some { s with readers := s.readers.eraseIdx i, returned := s.returned ++ [rd.got] }

/-- `kboard_t_init`: no permit, and whatever `kb_buff` holds. -/
def initSt (kbBuff : Nat → Nat) : St := ⟨⟨0, kbBuff⟩, [], [], []⟩

/-- The scan code in a buffer: a release code is in the second word, a press code in the first. -/
def scanOf (buf : List Nat) : Nat := if buf.getD 2 0 = 0 then buf.getD 0 0 else buf.getD 2 0

/-- Completed reads returned the codes received, in order and each once. -/
def InOrder (s : St) : Prop := s.returned.map scanOf <+: s.received

/-! ### The slot -/

def Kboard.Holds (kbd : Kboard) (scan : Nat) : Prop :=
  kbd.byte 0 = (if scan < 0x80 then scan else 0) ∧ kbd.byte 2 = if scan < 0x80 then 0 else scan

theorem and_bit7 {scan : Nat} (h : scan < 256) : scan &&& (1 <<< 7) = if scan < 0x80 then 0 else 0x80 := by
  have hall : ∀ scan < 256, scan &&& (1 <<< 7) = if scan < 0x80 then 0 else 0x80 := by decide +kernel
  exact hall scan h

theorem holds_uartHandle (keymap : Nat → Nat) (kbd : Kboard) {scan : Nat} (h : scan < 256) :
    (uartHandle keymap kbd scan).Holds scan := by
  simp only [uartHandle, kbdWriteScan, and_bit7 h]
  by_cases hlt : scan < 0x80
  · simp [Kboard.Holds, Kboard.byte, Kboard.fill, hlt]
    omega
  · simp [Kboard.Holds, Kboard.byte, Kboard.fill, hlt]
    omega

theorem scanOf_copied {kbd : Kboard} {scan n : Nat} (h : kbd.Holds scan) (hn : 3 ≤ n) :
    scanOf ((List.range n).map kbd.byte) = scan := by
  obtain ⟨hdown, hup⟩ := h
  have hget : ∀ i < 3, ((List.range n).map kbd.byte).getD i 0 = kbd.byte i := by
    intro i hi
    rw [List.getD_eq_getElem?_getD, List.getElem?_map, List.getElem?_range (by omega)]
    rfl
  rw [scanOf, hget 2 (by omega), hget 0 (by omega), hdown, hup]
  split_ifs <;> omega

/-! ### Interrupts that wait for the reader -/

/-- An interrupt finds every earlier code copied, and reads ask for at least the two codes. -/
def Ev.Quiet (s : St) : Ev → Prop
  | .intr _ => s.kbd.kbSem = 0 ∧ s.readers = []
  | .down len => 3 ≤ len
  | .copy _ => True
  | .ret _ => True

/-- A reader that has copied a part of the slot. -/
structure Copying (kbd : Kboard) (rd : Reader) : Prop where
  len_le : 3 ≤ rd.len
  got_le : rd.got.length ≤ readSz rd.len
  got_eq : rd.got = (List.range rd.got.length).map kbd.byte

/-- At most one code is on its way, in the slot. -/
inductive Flow (s : St) : Prop
  | idle : s.kbd.kbSem = 0 → s.readers = [] → s.returned.map scanOf = s.received → Flow s
  | pending (scan : Nat) : s.kbd.kbSem = 1 → s.readers = [] → s.kbd.Holds scan →
      s.returned.map scanOf ++ [scan] = s.received → Flow s
  | copying (scan : Nat) (rd : Reader) : s.kbd.kbSem = 0 → s.readers = [rd] → s.kbd.Holds scan → Copying s.kbd rd →
      s.returned.map scanOf ++ [scan] = s.received → Flow s

section Steps

variable {keymap : Nat → Nat} {s s' : St} {i : Nat}

@[simp] theorem uartHandle_kbSem (kbd : Kboard) (scan : Fin 256) :
    (uartHandle keymap kbd scan).kbSem = kbd.kbSem + 1 := by
  simp only [uartHandle, kbdWriteScan]
  split_ifs <;> rfl

theorem Flow.intr {scan : Fin 256} (hflow : Flow s) (hq : (Ev.intr scan).Quiet s)
    (h : step keymap s (.intr scan) = some s') : Flow s' := by
  obtain ⟨hsem, hreaders⟩ := hq
  cases h
  refine .pending scan (by simp [hsem]) hreaders (holds_uartHandle keymap s.kbd scan.isLt) ?_
  cases hflow with
  | idle _ _ heq => simp only [heq]
  | pending _ hsem' _ _ _ => omega
  | copying _ rd _ hrd _ _ _ => simp [hreaders] at hrd

theorem Flow.down {len : Nat} (hflow : Flow s) (hq : (Ev.down len).Quiet s)
    (h : step keymap s (.down len) = some s') : Flow s' := by
  simp only [step] at h
  split_ifs at h with hsem
  cases h
  cases hflow with
  | idle hzero _ _ => omega
  | pending scan hone hreaders hholds heq =>
    exact .copying scan ⟨len, []⟩ (by simp [hone]) (by simp [hreaders]) hholds ⟨hq, Nat.zero_le _, rfl⟩ heq
  | copying _ rd hzero _ _ _ _ => omega

theorem Flow.of_reader {rd : Reader} (hflow : Flow s) (hget : s.readers[i]? = some rd) :
    i = 0 ∧ s.kbd.kbSem = 0 ∧ s.readers = [rd] ∧ Copying s.kbd rd ∧
      ∃ scan, s.kbd.Holds scan ∧ s.returned.map scanOf ++ [scan] = s.received := by
  cases hflow with
  | idle _ hreaders _ => simp [hreaders] at hget
  | pending _ _ hreaders _ _ => simp [hreaders] at hget
  | copying scan rd' hsem hreaders hholds hcopying heq =>
    rw [hreaders, List.getElem?_eq_some_iff] at hget
    obtain ⟨hi, hrd⟩ := hget
    obtain rfl : i = 0 := by simpa using hi
    obtain rfl : rd' = rd := hrd
    exact ⟨rfl, hsem, hreaders, hcopying, scan, hholds, heq⟩

theorem Flow.copy (hflow : Flow s) (h : step keymap s (.copy i) = some s') : Flow s' := by
  obtain ⟨rd, hget, h⟩ := Option.bind_eq_some_iff.mp h
  split_ifs at h with hlt
  cases h
  obtain ⟨rfl, hsem, hreaders, hcopying, scan, hholds, heq⟩ := hflow.of_reader hget
  refine .copying scan { rd with got := rd.got ++ [s.kbd.byte rd.got.length] } hsem (by simp [hreaders]) hholds ?_ heq
  refine ⟨hcopying.len_le, by simpa using hlt, ?_⟩
  simp only [List.length_append, List.length_cons, List.length_nil, Nat.zero_add, List.range_succ, List.map_append,
    List.map_cons, List.map_nil]
  rw [← hcopying.got_eq]

theorem Flow.ret (hflow : Flow s) (h : step keymap s (.ret i) = some s') : Flow s' := by
  obtain ⟨rd, hget, h⟩ := Option.bind_eq_some_iff.mp h
  split_ifs at h with hlt
  cases h
  obtain ⟨rfl, hsem, hreaders, hcopying, scan, hholds, heq⟩ := hflow.of_reader hget
  have hlen : 3 ≤ rd.got.length := by
    have hle := hcopying.len_le
    unfold readSz at hlt
    split_ifs at hlt <;> omega
  have hscan : scanOf rd.got = scan := by
    rw [hcopying.got_eq]
    exact scanOf_copied hholds hlen
  refine .idle hsem (by simp [hreaders]) ?_
  simp only [List.map_append, List.map_cons, List.map_nil, hscan, heq]

theorem Flow.step {e : Ev} (hflow : Flow s) (hq : e.Quiet s) (h : step keymap s e = some s') : Flow s' := by
  cases e with
  | intr scan => exact hflow.intr hq h
  | down len => exact hflow.down hq h
  | copy i => exact hflow.copy h
  | ret i => exact hflow.ret h

theorem Flow.inOrder (hflow : Flow s) : InOrder s := by
  cases hflow with
  | idle _ _ heq => exact ⟨[], by rw [List.append_nil, heq]⟩
  | pending scan _ _ _ heq => exact ⟨[scan], heq⟩
  | copying scan rd _ _ _ _ heq => exact ⟨[scan], heq⟩

end Steps

/-- The permits, the readers behind their down and the completed reads are as many as the interrupts. -/
def Balanced (s : St) : Prop := s.kbd.kbSem + s.readers.length + s.returned.length = s.received.length

theorem balanced_step {keymap : Nat → Nat} {s s' : St} {e : Ev} (hbal : Balanced s) (h : step keymap s e = some s') :
    Balanced s' := by
  unfold Balanced at hbal ⊢
  cases e with
  | intr scan =>
    cases h
    simp only [uartHandle_kbSem, List.length_append, List.length_cons, List.length_nil]
    omega
  | down len =>
    simp only [step] at h
    split_ifs at h with hsem
    cases h
    simp only [List.length_append, List.length_cons, List.length_nil]
    omega
  | copy i =>
    obtain ⟨rd, hget, h⟩ := Option.bind_eq_some_iff.mp h
    split_ifs at h with hlt
    cases h
    simpa using hbal
  | ret i =>
    obtain ⟨rd, hget, h⟩ := Option.bind_eq_some_iff.mp h
    split_ifs at h with hlt
    cases h
    have hi := (List.getElem?_eq_some_iff.mp hget).1
    simp only [List.length_eraseIdx, hi, if_true, List.length_append, List.length_cons, List.length_nil]
    omega

/-- **Keyboard input is lossless and in order in the runs whose interrupts wait for the reader:** completed reads
return a prefix of the codes received, and all of them once there were as many reads. -/
theorem inOrder_of_quiet (keymap kbBuff : Nat → Nat) {es : List Ev} {s : St}
    (hrun : Trace (fun s e s' => e.Quiet s ∧ step keymap s e = some s') (initSt kbBuff) es s) :
    InOrder s ∧ s.kbd.kbSem + s.readers.length + s.returned.length = s.received.length ∧
      (s.returned.length = s.received.length → s.returned.map scanOf = s.received) := by
  have hboth : Flow s ∧ Balanced s := by
    refine hrun.keeps (J := fun s => Flow s ∧ Balanced s) ?_ ⟨.idle rfl rfl rfl, rfl⟩
    exact fun s e s' hs h => ⟨hs.1.step h.1 h.2, balanced_step hs.2 h.2⟩
  refine ⟨hboth.1.inOrder, hboth.2, fun hall => ?_⟩
  exact hboth.1.inOrder.eq_of_length (by rw [List.length_map, hall])

/-- A key is pressed and read, then released and read with the shortest buffer that shows it. -/
theorem inOrder_press_release :
    ∃ s, Trace (fun s e s' => e.Quiet s ∧ step (fun _ => 0) s e = some s') (initSt fun _ => 0)
        [.intr 0x1e, .down 3, .copy 0, .copy 0, .copy 0, .ret 0, .intr 0x9e, .down 3, .copy 0, .copy 0, .copy 0,
        .ret 0] s ∧
      s.received = [0x1e, 0x9e] ∧ s.returned.map scanOf = s.received := by
  suffices hex : ∃ s, Trace (fun s e s' => e.Quiet s ∧ step (fun _ => 0) s e = some s') (initSt fun _ => 0)
      [.intr 0x1e, .down 3, .copy 0, .copy 0, .copy 0, .ret 0, .intr 0x9e, .down 3, .copy 0, .copy 0, .copy 0,
      .ret 0] s ∧
      s.received = [0x1e, 0x9e] ∧ s.returned.length = 2 by
    obtain ⟨s, hrun, hreceived, hlen⟩ := hex
    exact ⟨s, hrun, hreceived, (inOrder_of_quiet _ _ hrun).2.2 (by rw [hlen, hreceived]; rfl)⟩
  refine ⟨_, .cons ⟨⟨rfl, rfl⟩, rfl⟩ (.cons ⟨Nat.le_refl 3, rfl⟩ (.cons ⟨trivial, rfl⟩ (.cons ⟨trivial, rfl⟩
    (.cons ⟨trivial, rfl⟩ (.cons ⟨trivial, rfl⟩ (.cons ⟨⟨rfl, rfl⟩, rfl⟩ (.cons ⟨Nat.le_refl 3, rfl⟩
    (.cons ⟨trivial, rfl⟩ (.cons ⟨trivial, rfl⟩ (.cons ⟨trivial, rfl⟩ (.cons ⟨trivial, rfl⟩ (.nil _)))))))))))),
    ?_, ?_⟩
  · rfl
  · rfl

/-- Two keys pressed before the first read: both reads return the second. -/
theorem lost_of_two_interrupts :
    ∃ s, Trace (fun s e s' => step (fun _ => 0) s e = some s') (initSt fun _ => 0)
        [.intr 0x1e, .intr 0x30, .down 3, .copy 0, .copy 0, .copy 0, .ret 0, .down 3, .copy 0, .copy 0, .copy 0,
        .ret 0] s ∧
      s.received = [0x1e, 0x30] ∧ s.returned.map scanOf = [0x30, 0x30] ∧ ¬InOrder s := by
  refine ⟨_, .cons rfl (.cons rfl (.cons rfl (.cons rfl (.cons rfl (.cons rfl (.cons rfl (.cons rfl (.cons rfl
    (.cons rfl (.cons rfl (.cons rfl (.nil _)))))))))))), ?_, ?_, ?_⟩
  · rfl
  · rfl
  · show ¬[0x30, 0x30] <+: [0x1e, 0x30]
    decide

end Cosmos.Drv
