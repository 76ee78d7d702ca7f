import Cosmos.Lib.Bytes
import Cosmos.Lib.Printer

/-!
# The formatters (`hal/x86/halprint.c`, `lib/printf.c`)

The kernel's `vsprintfk` and the user library's `vsprintf` are the same text, and so are their parts. None of them knows
how much room there is: `strcopyk` copies up to the terminating zero wherever that is. As printers they halt where the C
code would write past the end of the buffer it was given.

A string is the memory from its pointer on; a format is the bytes before its terminating zero.
-/

namespace Cosmos.Print

open Cosmos.Lib Cosmos.Lib.Printer

/-! ### The parts -/

/-- `strcopyk`; it reads one byte more than it copies. -/
def strcopyk : (Nat → UInt8) → Printer UInt8
  | strS, 0 => if strS 0 = 0 then .ok ([], 1) else .error "strcopyk: write past the end of the buffer"
  | strS, room + 1 =>
    if strS 0 = 0 then .ok ([], 1)
    else strcopyk (fun i => strS (i + 1)) room >>= fun r => .ok (strS 0 :: r.1, r.2 + 1)

def strcopy : (Nat → UInt8) → Printer UInt8 := strcopyk

def digitChar (k : Nat) : UInt8 :=
  [48, 49, 50, 51, 52, 53, 54, 55, 56, 57, 97, 98, 99, 100, 101, 102].getD k 0

/-- The `do` loop of `numberk`, downwards in what is left of `strbuf`; `p` is what stands there already. -/
def digitLoop (base : Nat) : Nat → Nat → List UInt8 → Halt (List UInt8)
  | 0, _, _ => .error "numberk: write below strbuf"
  | left + 1, n, p =>
    let p := digitChar (n % base) :: p
    if n / base = 0 then .ok p else digitLoop base left (n / base) p

/-- The digits in `strbuf`: 36 bytes, the last one for the terminating zero. -/
def strbuf (n base : Nat) : Halt (List UInt8) := if n = 0 then .ok [48] else digitLoop base 35 n []

/-- `numberk`; its last loop is that of `strcopyk`. -/
def numberk (n base : Nat) : Printer UInt8 := fun room =>
  strbuf n base >>= fun p => strcopyk (fun i => p.getD i 0) room >>= fun r => .ok (r.1, 0)

def number (n base : Nat) : Printer UInt8 := numberk n base

/-! ### The formatter -/

def strAt (mem : Nat → UInt8) (p : Nat) : Nat → UInt8 := fun i => mem (u64 (p + i))

/-- The `switch` of `vsprintfk`: what is done with the next argument. -/
def directive (mem : Nat → UInt8) (c : UInt8) : Option (Nat → Printer UInt8) :=
  if c = 'x'.toUInt8 then some fun arg => numberk arg 16
  else if c = 'd'.toUInt8 then some fun arg => numberk arg 10
  else if c = 's'.toUInt8 then some fun arg => strcopyk (strAt mem arg)
  else none

def vsprintfk (mem : Nat → UInt8) : List UInt8 → List Nat → Printer UInt8
  | [], _ => put 0
  | c :: fmt, args =>
    if c ≠ '%'.toUInt8 then (put c).andThen (vsprintfk mem fmt args)
    else
      match fmt with
      | [] => put 0
      | d :: rest =>
        match directive mem d, args with
        | some print, arg :: args => (print arg).andThen (vsprintfk mem rest args)
        | some _, [] => fun _ => .error "va_arg: no such argument"
        -- no directive: only the `%` was passed over
        | none, args => vsprintfk mem (d :: rest) args

def vsprintf (mem : Nat → UInt8) (fmt : List UInt8) (args : List Nat) : Printer UInt8 := vsprintfk mem fmt args

/-- `kprint` up to `gstr_write`: what stands in its buffer. -/
def kprint (mem : Nat → UInt8) (fmt : List UInt8) (args : List Nat) : Halt (List UInt8 × Nat) :=
  vsprintfk mem fmt args 512

/-! ### Strings -/

variable {strS mem : Nat → UInt8} {text : List UInt8} {room p : Nat} {r : List UInt8 × Nat}

theorem prints_strcopyk (h : Spells strS text) : Prints (strcopyk strS) text (text.length + 1) := by
  induction text generalizing strS with
  | nil =>
    have h0 : strS 0 = 0 := h
    refine ⟨fun {k} _ => ?_, fun {k} hk => absurd hk (Nat.not_lt_zero k)⟩
    cases k <;> rw [strcopyk, if_pos h0] <;> rfl
  | cons c text ih =>
    obtain ⟨⟨rfl, hne⟩, hrest⟩ := h
    have ih := ih hrest
    constructor
    · intro k hk
      cases k with
      | zero => exact absurd hk (Nat.not_succ_le_zero _)
      | succ k =>
        rw [strcopyk, if_neg hne, ih.fits (Nat.le_of_succ_le_succ hk)]
        rfl
    · intro k hk
      cases k with
      | zero => exact ⟨_, by rw [strcopyk, if_neg hne]⟩
      | succ k =>
        obtain ⟨e, he⟩ := ih.overruns (Nat.lt_of_succ_lt_succ hk)
        exact ⟨e, by rw [strcopyk, if_neg hne, he]; rfl⟩

theorem spells_of_strcopyk (h : strcopyk strS room = .ok r) : Spells strS r.1 := by
  induction room generalizing strS r with
  | zero =>
    rw [strcopyk] at h
    split_ifs at h with h0
    cases h
    exact h0
  | succ room ih =>
    rw [strcopyk] at h
    split_ifs at h with h0
    · cases h
      exact h0
    · obtain ⟨r', hr', h⟩ := Halt.bind_eq_ok h
      cases h
      exact ⟨⟨rfl, h0⟩, ih hr'⟩

def fmtS : List UInt8 := ['%'.toUInt8, 's'.toUInt8]

theorem vsprintfk_fmtS : vsprintfk mem fmtS [p] = (strcopyk (strAt mem p)).andThen (put 0) := rfl

theorem kprint_fmtS_iff : kprint mem fmtS [p] = .ok r ↔
    ∃ text, Spells (strAt mem p) text ∧ text.length < 512 ∧ r = (text ++ [0], text.length + 1) := by
  have hprints {text : List UInt8} (h : Spells (strAt mem p) text) :
      kprint mem fmtS [p] = .ok r ↔ text.length < 512 ∧ r = (text ++ [0], text.length + 1) := by
    rw [kprint, vsprintfk_fmtS, ((prints_strcopyk h).andThen (.put 0)).ok_iff, List.length_append]
    rfl
  constructor
  · intro h
    obtain ⟨r₁, -, hcopy, -⟩ := of_andThen h
    exact ⟨r₁.1, spells_of_strcopyk hcopy, (hprints (spells_of_strcopyk hcopy)).mp h⟩
  · rintro ⟨text, htext, h⟩
    exact (hprints htext).mpr h

end Cosmos.Print
