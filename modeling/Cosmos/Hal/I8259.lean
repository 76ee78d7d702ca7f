import Cosmos.Lib.Run
import Mathlib.Tactic

/-!
# The interrupt controllers (`hal/x86/i8259.c`)

Two 8259 chips, the slave behind line 2 of the master. `i8259_enabled_line` clears the mask bit of a line and
`i8259_disable_line` sets it; for a line of the slave both also move the bit of line 2 on the master, which all
eight lines of the slave share. So a disable of one slave line cuts off the other seven, and the lines are
independent in exactly the runs where that does not show (`lines_independent_iff`).

A chip reads back the mask that was written, and takes it for a mask once its initialisation words are complete.
-/

namespace Cosmos.Hal

open Cosmos.Lib

/-! ### The chips -/

/-- One 8259: its mask register and the initialisation words it still waits for. -/
structure I8259 where
  imr : BitVec 8
  icws : Nat

/-- A byte for the command port. Bit 4 starts an initialisation: ICW2 follows, ICW3 unless bit 1 is set, and ICW4 if
bit 0 is. -/
def I8259.command (c : I8259) (val : BitVec 8) : I8259 :=
  if val.getLsbD 4 then
    ⟨0, 1 + (if val.getLsbD 1 then 0 else 1) + (if val.getLsbD 0 then 1 else 0)⟩
  else c

/-- A byte for the other port: an initialisation word while one is due, else the mask. -/
def I8259.data (c : I8259) (val : BitVec 8) : I8259 :=
  if c.icws = 0 then { c with imr := val } else { c with icws := c.icws - 1 }

/-- The master and the slave. -/
structure Pics where
  intm : I8259
  ints : I8259

/-- The four ports: `ZIOPT` and `_INTM_CTL`, `ZIOPT1` and `_INTM_CTLMASK`, `SIOPT` and `_INTS_CTL`, `SIOPT1` and
`_INTS_CTLMASK`. -/
inductive Port where
  | intmCtl | intmCtlmask | intsCtl | intsCtlmask

def outU8P (p : Pics) (port : Port) (val : BitVec 8) : Pics :=
  match port with
  | .intmCtl => { p with intm := p.intm.command val }
  | .intmCtlmask => { p with intm := p.intm.data val }
  | .intsCtl => { p with ints := p.ints.command val }
  | .intsCtlmask => { p with ints := p.ints.data val }

/-! ### The driver -/

def icw1 : BitVec 8 := 0x11
def zicw2 : BitVec 8 := 0x20
def sicw2 : BitVec 8 := 0x28
def zicw3 : BitVec 8 := 0x04
def sicw3 : BitVec 8 := 0x02
def icw4 : BitVec 8 := 0x01

def initI8259 (p : Pics) : Pics :=
  let p := outU8P p .intmCtl icw1
  let p := outU8P p .intsCtl icw1
  let p := outU8P p .intmCtlmask zicw2
  let p := outU8P p .intsCtlmask sicw2
  let p := outU8P p .intmCtlmask zicw3
  let p := outU8P p .intsCtlmask sicw3
  let p := outU8P p .intmCtlmask icw4
  let p := outU8P p .intsCtlmask icw4
  let p := outU8P p .intmCtlmask 0xff
  outU8P p .intsCtlmask 0xff

def i8259EnabledLine (p : Pics) (line : Nat) : Pics :=
  if line < 8 then outU8P p .intmCtlmask (p.intm.imr &&& ~~~(1#8 <<< line))
  else
    let p := outU8P p .intmCtlmask (p.intm.imr &&& ~~~(1#8 <<< 2))
    outU8P p .intsCtlmask (p.ints.imr &&& ~~~(1#8 <<< (line - 8)))

def i8259DisableLine (p : Pics) (line : Nat) : Pics :=
  if line < 8 then outU8P p .intmCtlmask (p.intm.imr ||| (1#8 <<< line))
  else
    let p := outU8P p .intmCtlmask (p.intm.imr ||| (1#8 <<< 2))
    outU8P p .intsCtlmask (p.ints.imr ||| (1#8 <<< (line - 8)))

/-! ### Runs -/

abbrev Line := { line : Fin 16 // line ≠ 2 }

inductive Call where
  | enabled (line : Line)
  | disable (line : Line)
  deriving DecidableEq

def Call.line : Call → Line
  | .enabled line => line
  | .disable line => line

/-- Whether the call is a disable: the value it gives to its mask bits. -/
def Call.masks : Call → Bool
  | .enabled _ => false
  | .disable _ => true

def step (p : Pics) : Call → Pics
  | .enabled line => i8259EnabledLine p line.val.val
  | .disable line => i8259DisableLine p line.val.val

def Line.slave (line : Line) : Bool := decide (8 ≤ line.val.val)

def Deliverable (p : Pics) (line : Line) : Prop :=
  if line.val.val < 8 then p.intm.imr.getLsbD line.val.val = false
  else p.ints.imr.getLsbD (line.val.val - 8) = false ∧ p.intm.imr.getLsbD 2 = false

def LastEnables (calls : List Call) (line : Line) : Prop :=
  (calls.filter fun c => decide (c.line = line)).getLast? = some (.enabled line)

/-- The last call for any line of the slave is an enable. -/
def SlaveOpen (calls : List Call) : Prop :=
  ((calls.filter fun c => c.line.slave).getLast?).map Call.masks = some false

instance (p : Pics) (line : Line) : Decidable (Deliverable p line) := by
  unfold Deliverable
  infer_instance

instance (calls : List Call) (line : Line) : Decidable (LastEnables calls line) :=
  inferInstanceAs (Decidable (_ = _))

instance (calls : List Call) : Decidable (SlaveOpen calls) := inferInstanceAs (Decidable (_ = _))

/-! ### Mask bits -/

def moved (masks : Bool) (m : BitVec 8) (i : Nat) : BitVec 8 :=
  if masks then m ||| (1#8 <<< i) else m &&& ~~~(1#8 <<< i)

theorem getLsbD_bit {i j : Nat} (hj : j < 8) : (1#8 <<< i).getLsbD j = decide (j = i) := by
  rw [BitVec.getLsbD_shiftLeft, BitVec.getLsbD_one]
  by_cases h : j = i
  · simp [h, h ▸ hj]
  · simp only [h, decide_false]
    by_cases hlt : j < i
    · simp [hlt]
    · have hne : j - i ≠ 0 := by omega
      simp [hne]

theorem getLsbD_moved {masks : Bool} {m : BitVec 8} {i j : Nat} (hj : j < 8) :
    (moved masks m i).getLsbD j = if j = i then masks else m.getLsbD j := by
  cases masks with
  | false =>
    rw [moved, if_neg Bool.false_ne_true, BitVec.getLsbD_and, BitVec.getLsbD_not, getLsbD_bit hj]
    by_cases h : j = i <;> simp [h, hj]
  | true =>
    rw [moved, if_pos rfl, BitVec.getLsbD_or, getLsbD_bit hj]
    by_cases h : j = i <;> simp [h]

theorem getLsbD_full {j : Nat} (hj : j < 8) : (0xff : BitVec 8).getLsbD j = true := by
  decide +revert

def Ready (p : Pics) : Prop := p.intm.icws = 0 ∧ p.ints.icws = 0

theorem Ready.init (p : Pics) : Ready (initI8259 p) := by
  simp [Ready, initI8259, outU8P, I8259.command, I8259.data, icw1]

theorem imr_init (p : Pics) : (initI8259 p).intm.imr = 0xff ∧ (initI8259 p).ints.imr = 0xff := by
  simp [initI8259, outU8P, I8259.command, I8259.data, icw1]

def moveLine (masks : Bool) (p : Pics) (line : Nat) : Pics :=
  if line < 8 then { p with intm := { p.intm with imr := moved masks p.intm.imr line } }
  else
    { intm := { p.intm with imr := moved masks p.intm.imr 2 },
      ints := { p.ints with imr := moved masks p.ints.imr (line - 8) } }

theorem i8259EnabledLine_eq {p : Pics} (h : Ready p) (line : Nat) :
    i8259EnabledLine p line = moveLine false p line := by
  obtain ⟨hm, hs⟩ := h
  unfold i8259EnabledLine moveLine
  split
  · simp only [outU8P, I8259.data, if_pos hm]
    rfl
  · simp only [outU8P, I8259.data, if_pos hm, if_pos hs]
    rfl

theorem i8259DisableLine_eq {p : Pics} (h : Ready p) (line : Nat) : i8259DisableLine p line = moveLine true p line := by
  obtain ⟨hm, hs⟩ := h
  unfold i8259DisableLine moveLine
  split
  · simp only [outU8P, I8259.data, if_pos hm]
    rfl
  · simp only [outU8P, I8259.data, if_pos hm, if_pos hs]
    rfl

theorem step_eq {p : Pics} (h : Ready p) (c : Call) : step p c = moveLine c.masks p c.line.val.val := by
  cases c with
  | enabled line => exact i8259EnabledLine_eq h _
  | disable line => exact i8259DisableLine_eq h _

theorem step_of_master {p : Pics} (h : Ready p) {c : Call} (hc : c.line.slave = false) :
    step p c = { p with intm := { p.intm with imr := moved c.masks p.intm.imr c.line.val.val } } := by
  rw [step_eq h, moveLine, if_pos (by simpa [Line.slave] using hc)]

theorem step_of_slave {p : Pics} (h : Ready p) {c : Call} (hc : c.line.slave = true) :
    step p c =
      { intm := { p.intm with imr := moved c.masks p.intm.imr 2 },
        ints := { p.ints with imr := moved c.masks p.ints.imr (c.line.val.val - 8) } } := by
  rw [step_eq h, moveLine, if_neg (by simpa [Line.slave] using hc)]

theorem Ready.step {p : Pics} (h : Ready p) (c : Call) : Ready (step p c) := by
  rw [step_eq h, moveLine]
  split
  · exact h
  · exact h

/-! ### What a run leaves in the masks -/

section Runs

variable {p : Pics} {line : Line} (h : Ready p) (calls : List Call)

include h

theorem master_bit (hlow : line.val.val < 8) :
    (calls.foldl step p).intm.imr.getLsbD line.val.val =
      ((calls.filter fun c => decide (c.line = line)).getLast?).elim (p.intm.imr.getLsbD line.val.val) Call.masks := by
  apply foldl_last (J := Ready) (f := fun p => p.intm.imr.getLsbD line.val.val) (fun _ c h => h.step c) ?_ ?_ calls p h
  · intro p c h hc
    have hc : c.line = line := of_decide_eq_true hc
    rw [step_of_master h (by simpa [Line.slave, hc] using hlow)]
    simp only [getLsbD_moved hlow, hc, if_true]
  · intro p c h hc
    have hne : c.line ≠ line := of_decide_eq_false hc
    cases hslave : c.line.slave with
    | true =>
      have htwo : line.val.val ≠ 2 := fun heq => line.property (Fin.ext heq)
      rw [step_of_slave h hslave]
      simp only [getLsbD_moved hlow, if_neg htwo]
    | false =>
      have hbit : line.val.val ≠ c.line.val.val := fun heq => hne (Subtype.ext (Fin.ext heq.symm))
      rw [step_of_master h hslave]
      simp only [getLsbD_moved hlow, if_neg hbit]

theorem slave_bit (hhigh : 8 ≤ line.val.val) :
    (calls.foldl step p).ints.imr.getLsbD (line.val.val - 8) =
      ((calls.filter fun c => decide (c.line = line)).getLast?).elim (p.ints.imr.getLsbD (line.val.val - 8))
        Call.masks := by
  have hlt : line.val.val - 8 < 8 := by omega
  apply foldl_last (J := Ready) (f := fun p => p.ints.imr.getLsbD (line.val.val - 8)) (fun _ c h => h.step c) ?_ ?_
    calls p h
  · intro p c h hc
    have hc : c.line = line := of_decide_eq_true hc
    rw [step_of_slave h (by simpa [Line.slave, hc] using hhigh)]
    simp only [getLsbD_moved hlt, hc, if_true]
  · intro p c h hc
    have hne : c.line ≠ line := of_decide_eq_false hc
    cases hslave : c.line.slave with
    | true =>
      have hge : 8 ≤ c.line.val.val := by simpa [Line.slave] using hslave
      have hbit : line.val.val - 8 ≠ c.line.val.val - 8 := fun heq => hne (Subtype.ext (Fin.ext (by omega)))
      rw [step_of_slave h hslave]
      simp only [getLsbD_moved hlt, if_neg hbit]
    | false => rw [step_of_master h hslave]

theorem cascade_bit :
    (calls.foldl step p).intm.imr.getLsbD 2 =
      ((calls.filter fun c => c.line.slave).getLast?).elim (p.intm.imr.getLsbD 2) Call.masks := by
  have hlt : 2 < 8 := by decide
  apply foldl_last (J := Ready) (f := fun p => p.intm.imr.getLsbD 2) (fun _ c h => h.step c) ?_ ?_ calls p h
  · intro p c h hslave
    rw [step_of_slave h hslave]
    simp only [getLsbD_moved hlt, if_true]
  · intro p c h hmaster
    have htwo : 2 ≠ c.line.val.val := fun heq => c.line.property (Fin.ext heq.symm)
    rw [step_of_master h hmaster]
    simp only [getLsbD_moved hlt, if_neg htwo]

end Runs

/-! ### Which lines are delivered -/

section Lines

variable (p : Pics) (calls : List Call)

theorem elim_masks_eq_false (last : Option Call) :
    last.elim true Call.masks = false ↔ last.map Call.masks = some false := by
  cases last with
  | none => simp
  | some c => simp

theorem lastEnables_iff (line : Line) :
    LastEnables calls line ↔ ((calls.filter fun c => decide (c.line = line)).getLast?).map Call.masks = some false := by
  unfold LastEnables
  cases hlast : (calls.filter fun c => decide (c.line = line)).getLast? with
  | none => simp
  | some c =>
    have hc : c.line = line := by
      have hmem := List.mem_of_getLast? hlast
      simpa using (List.mem_filter.mp hmem).2
    cases c with
    | enabled l => simp [Call.masks, show l = line from hc]
    | disable l => simp [Call.masks]

theorem deliverable_iff (line : Line) :
    Deliverable (calls.foldl step (initI8259 p)) line ↔
      LastEnables calls line ∧ (line.slave = true → SlaveOpen calls) := by
  have hready := Ready.init p
  obtain ⟨hm, hs⟩ := imr_init p
  rw [lastEnables_iff]
  by_cases hlow : line.val.val < 8
  · have hslave : line.slave = false := by simpa [Line.slave] using hlow
    have hfull : (0xff : BitVec 8).getLsbD line.val.val = true := getLsbD_full hlow
    rw [Deliverable, if_pos hlow, master_bit hready calls hlow, hm, hfull, elim_masks_eq_false]
    simp [hslave]
  · have hhigh : 8 ≤ line.val.val := by omega
    have hslave : line.slave = true := by simpa [Line.slave] using hhigh
    have hfull : (0xff : BitVec 8).getLsbD (line.val.val - 8) = true := getLsbD_full (by omega)
    have hfull2 : (0xff : BitVec 8).getLsbD 2 = true := by decide
    rw [Deliverable, if_neg hlow, slave_bit hready calls hhigh, cascade_bit hready, hm, hs, hfull, hfull2,
      elim_masks_eq_false, elim_masks_eq_false]
    simp [hslave, SlaveOpen]

/-- **After `init_i8259` and any calls, every line is delivered exactly if the last call that names it is an enable,
unless the last call for the slave is a disable and a line of the slave was left enabled.** -/
theorem lines_independent_iff :
    (∀ line, Deliverable (calls.foldl step (initI8259 p)) line ↔ LastEnables calls line) ↔
      ∀ line : Line, line.slave = true → LastEnables calls line → SlaveOpen calls := by
  constructor
  · intro hall line hslave hlast
    exact ((deliverable_iff p calls line).mp ((hall line).mpr hlast)).2 hslave
  · intro hopen line
    rw [deliverable_iff]
    exact ⟨fun h => h.1, fun h => ⟨h, fun hslave => hopen line hslave h⟩⟩

end Lines

/-- Lines 8 and 9 are enabled, line 8 is disabled: line 9 is lost with it. -/
theorem ninth_line_lost :
    let calls := [Call.enabled ⟨8, by decide⟩, .enabled ⟨9, by decide⟩, .disable ⟨8, by decide⟩]
    LastEnables calls ⟨9, by decide⟩ ∧
      ¬Deliverable (calls.foldl step (initI8259 ⟨⟨0, 0⟩, ⟨0, 0⟩⟩)) ⟨9, by decide⟩ := by
  decide

end Cosmos.Hal
