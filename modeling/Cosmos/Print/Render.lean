import Cosmos.Print.Format
import Mathlib.Data.Nat.Digits.Lemmas

/-!
# What the formatters print (`hal/x86/halprint.c`)

`numberk` takes the digits of a number from the lowest on and writes them into `strbuf` from its end downwards, so that
they stand there as Mathlib's `Nat.digits` in reverse; 35 places are enough for every word in base ten and more
(`strbuf_eq`). A format is a list of pieces, each an ordinary character or a directive with its argument, and
`vsprintfk` prints the texts of the pieces one after another and a terminating zero (`prints_vsprintfk`).
-/

namespace Cosmos.Print

open Cosmos.Lib Cosmos.Lib.Printer

variable {mem : Nat → UInt8} {base n d : Nat}

/-! ### Numbers -/

def digitVal (c : UInt8) : Nat := if c.toNat ≤ 57 then c.toNat - 48 else c.toNat - 87

theorem digitVal_digitChar (h : d < 16) : digitVal (digitChar d) = d := by
  have hall : ∀ d < 16, digitVal (digitChar d) = d := by decide
  exact hall d h

theorem digitChar_ne_zero (h : d < 16) : digitChar d ≠ 0 := by
  have hall : ∀ d < 16, digitChar d ≠ 0 := by decide
  exact hall d h

/-- The text is `n` in base `base`: the highest digit first and, but for the number zero, not a `0`. -/
structure Numeral (base n : Nat) (text : List UInt8) : Prop where
  digits : ∀ c ∈ text, ∃ d < base, c = digitChar d
  value : text.foldl (fun v c => digitVal c + base * v) 0 = n
  leading : text.head? = some 48 → text = [48]
  ne_nil : text ≠ []

def numeral (base n : Nat) : List UInt8 := if n = 0 then [48] else (Nat.digits base n).reverse.map digitChar

theorem numeral_of_ne_zero (h : n ≠ 0) : numeral base n = (Nat.digits base n).reverse.map digitChar := if_neg h

theorem foldl_digitVal {ds : List Nat} (hds : ∀ d ∈ ds, d < 16) (v : Nat) :
    (ds.map digitChar).foldl (fun v c => digitVal c + base * v) v = ds.foldl (fun v d => d + base * v) v := by
  induction ds generalizing v with
  | nil => rfl
  | cons d ds ih =>
    rw [List.map_cons, List.foldl_cons, List.foldl_cons, digitVal_digitChar (hds d (by simp)),
      ih fun d hd => hds d (by simp [hd])]

theorem digits_lt (hone : 1 < base) (hbase : base ≤ 16) : ∀ d ∈ Nat.digits base n, d < 16 :=
  fun _ hd => (Nat.digits_lt_base hone hd).trans_le hbase

theorem numeral_spec (hone : 1 < base) (hbase : base ≤ 16) (n : Nat) : Numeral base n (numeral base n) := by
  by_cases hn : n = 0
  · subst hn
    refine ⟨fun c hc => ⟨0, by omega, ?_⟩, ?_, fun _ => rfl, by simp [numeral]⟩
    · rw [numeral, if_pos rfl, List.mem_singleton] at hc
      rw [hc]
      rfl
    · rw [numeral, if_pos rfl, List.foldl_cons, Nat.mul_zero]
      rfl
  · have hlt := digits_lt (n := n) hone hbase
    have hne : Nat.digits base n ≠ [] := Nat.digits_ne_nil_iff_ne_zero.mpr hn
    rw [numeral_of_ne_zero hn]
    refine ⟨fun c hc => ?_, ?_, fun hhead => ?_, ?_⟩
    · obtain ⟨d, hd, rfl⟩ := List.mem_map.mp hc
      exact ⟨d, Nat.digits_lt_base hone (List.mem_reverse.mp hd), rfl⟩
    · rw [foldl_digitVal (by simpa using hlt), List.foldl_reverse]
      have hvalue := Nat.ofDigits_digits base n
      rwa [Nat.ofDigits_eq_foldr] at hvalue
    · -- the first character is the highest digit, which is not zero
      rw [List.head?_map, List.head?_reverse, List.getLast?_eq_getLast_of_ne_nil hne, Option.map_some,
        Option.some.injEq] at hhead
      have hlast : (Nat.digits base n).getLast hne = 0 := by
        rw [← digitVal_digitChar (hlt _ (List.getLast_mem hne)), hhead]
        rfl
      exact absurd hlast (Nat.getLast_digit_ne_zero base hn)
    · simpa using hne

theorem numeral_ne_zero (hone : 1 < base) (hbase : base ≤ 16) : ∀ c ∈ numeral base n, c ≠ 0 := by
  intro c hc
  obtain ⟨d, hd, rfl⟩ := (numeral_spec hone hbase n).digits c hc
  exact digitChar_ne_zero (hd.trans_le hbase)

theorem digitLoop_eq (hone : 1 < base) (left : Nat) (hleft : n < base ^ left) (hn : n ≠ 0) (p : List UInt8) :
    digitLoop base left n p = .ok ((Nat.digits base n).reverse.map digitChar ++ p) := by
  induction left generalizing n p with
  | zero =>
    rw [Nat.pow_zero] at hleft
    omega
  | succ left ih =>
    have hdigits : Nat.digits base n = n % base :: Nat.digits base (n / base) :=
      Nat.digits_def' hone (Nat.pos_of_ne_zero hn)
    rw [hdigits, List.reverse_cons, List.map_append, List.append_assoc, digitLoop]
    by_cases hdiv : n / base = 0
    · rw [if_pos hdiv, hdiv, Nat.digits_zero]
      rfl
    · have hlt : n / base < base ^ left := by
        rw [Nat.div_lt_iff_lt_mul (by omega), ← Nat.pow_succ]
        exact hleft
      rw [if_neg hdiv, ih hlt hdiv]
      rfl

/-- **The scratch array is large enough**: 35 digits and a zero. -/
theorem strbuf_eq (hone : 1 < base) (hlt : n < base ^ 35) : strbuf n base = .ok (numeral base n) := by
  rw [strbuf, numeral]
  by_cases hn : n = 0
  · rw [if_pos hn, if_pos hn]
  · rw [if_neg hn, if_neg hn, digitLoop_eq hone 35 hlt hn, List.append_nil]

theorem prints_numberk (hone : 1 < base) (hbase : base ≤ 16) (hlt : n < base ^ 35) :
    Prints (numberk n base) (numeral base n) 0 := by
  have hcopy := prints_strcopyk (spells_getD (numeral_ne_zero (n := n) hone hbase))
  constructor
  · intro k hk
    rw [numberk, strbuf_eq hone hlt, Halt.ok_bind, hcopy.fits hk]
    rfl
  · intro k hk
    obtain ⟨e, he⟩ := hcopy.overruns hk
    exact ⟨e, by rw [numberk, strbuf_eq hone hlt, Halt.ok_bind, he]; rfl⟩

theorem word_lt_pow (hten : 10 ≤ base) (hn : n < 2 ^ 64) : n < base ^ 35 :=
  calc n < 2 ^ 64 := hn
    _ ≤ 10 ^ 35 := by norm_num
    _ ≤ base ^ 35 := Nat.pow_le_pow_left hten 35

/-! ### Formats -/

/-- A piece of a format, with the argument of a directive. -/
inductive Piece where
  | lit (c : UInt8)
  | x (arg : Nat)
  | d (arg : Nat)
  | s (arg : Nat) (text : List UInt8)

namespace Piece

def bytes : Piece → List UInt8
  | .lit c => [c]
  | .x _ => ['%'.toUInt8, 'x'.toUInt8]
  | .d _ => ['%'.toUInt8, 'd'.toUInt8]
  | .s _ _ => ['%'.toUInt8, 's'.toUInt8]

def args : Piece → List Nat
  | .lit _ => []
  | .x arg => [arg]
  | .d arg => [arg]
  | .s arg _ => [arg]

def text : Piece → List UInt8
  | .lit c => [c]
  | .x arg => numeral 16 arg
  | .d arg => numeral 10 arg
  | .s _ text => text

/-- A character is ordinary, a number is a word, and a string is where its argument points. -/
def Ok (mem : Nat → UInt8) : Piece → Prop
  | .lit c => c ≠ 0 ∧ c ≠ '%'.toUInt8
  | .x arg => arg < 2 ^ 64
  | .d arg => arg < 2 ^ 64
  | .s arg text => Spells (strAt mem arg) text

/-- The bytes of a string argument that are read, with its terminating zero. -/
def reads : Piece → Nat
  | .s _ text => text.length + 1
  | _ => 0

end Piece

theorem prints_piece {piece : Piece} (hok : piece.Ok mem) {fmt out : List UInt8} {args : List Nat}
    (hrest : Prints (vsprintfk mem fmt args) out n) :
    Prints (vsprintfk mem (piece.bytes ++ fmt) (piece.args ++ args)) (piece.text ++ out) (piece.reads + n) := by
  cases piece with
  | lit c =>
    have hput : vsprintfk mem (c :: fmt) args = (put c).andThen (vsprintfk mem fmt args) := by
      rw [vsprintfk.eq_def]
      exact if_pos hok.2
    show Prints (vsprintfk mem (c :: fmt) args) (c :: out) (0 + n)
    rw [hput]
    exact (Prints.put c).andThen hrest
  | x arg =>
    have hnumber : Prints (numberk arg 16) (numeral 16 arg) 0 :=
      prints_numberk (by norm_num) le_rfl (word_lt_pow (by norm_num) hok)
    exact hnumber.andThen hrest
  | d arg =>
    have hnumber : Prints (numberk arg 10) (numeral 10 arg) 0 :=
      prints_numberk (by norm_num) (by norm_num) (word_lt_pow le_rfl hok)
    exact hnumber.andThen hrest
  | s arg text => exact (prints_strcopyk hok).andThen hrest

/-- **A format is printed piece by piece**; arguments behind those of the format are not looked at. -/
theorem prints_vsprintfk {pieces : List Piece} (hok : ∀ piece ∈ pieces, piece.Ok mem) (more : List Nat) :
    Prints (vsprintfk mem (pieces.flatMap Piece.bytes) (pieces.flatMap Piece.args ++ more))
      (pieces.flatMap Piece.text ++ [0]) (pieces.map Piece.reads).sum := by
  induction pieces with
  | nil => exact Prints.put 0
  | cons piece pieces ih =>
    have hrest := ih fun piece hpiece => hok piece (by simp [hpiece])
    simp only [List.flatMap_cons, List.append_assoc, List.map_cons, List.sum_cons]
    exact prints_piece (hok piece (by simp)) hrest

/-- **Numbers and formats**: `numberk` writes the numeral of a word and stays in its scratch array, and `vsprintfk`
returns in every buffer that holds the texts of the pieces and a zero, with just these in it. -/
theorem numberk_vsprintfk (n base : Nat) (hn : n < 2 ^ 64) (hbase : base = 10 ∨ base = 16) (mem : Nat → UInt8)
    (pieces : List Piece) (hok : ∀ piece ∈ pieces, piece.Ok mem) (more : List Nat) :
    (strbuf n base = .ok (numeral base n) ∧ Prints (numberk n base) (numeral base n) 0 ∧
      Numeral base n (numeral base n) ∧ (n = 0 → numeral base n = ['0'.toUInt8])) ∧
    ∀ room, (pieces.flatMap Piece.text).length < room →
      ∃ reads, vsprintfk mem (pieces.flatMap Piece.bytes) (pieces.flatMap Piece.args ++ more) room =
        .ok (pieces.flatMap Piece.text ++ [0], reads) := by
  have hten : 10 ≤ base := by omega
  have hsixteen : base ≤ 16 := by omega
  have hlt := word_lt_pow hten hn
  refine ⟨⟨strbuf_eq (by omega) hlt, prints_numberk (by omega) hsixteen hlt, numeral_spec (by omega) hsixteen n,
    fun h => if_pos h⟩, fun room hroom => ?_⟩
  have hfits : (pieces.flatMap Piece.text ++ [0]).length ≤ room := by
    rw [List.length_append]
    exact hroom
  exact ⟨_, (prints_vsprintfk hok more).fits hfits⟩

/-- The greatest word in hexadecimal, and a line with all three directives. -/
theorem numberk_vsprintfk_line : Prints (numberk (2 ^ 64 - 1) 16) (List.replicate 16 'f'.toUInt8) 0 ∧
    ∃ reads, vsprintfk (fun i => if i = 0x1000 then 'k'.toUInt8 else 0) ("a%x%d%s".toList.map Char.toUInt8)
      [0x1f, 0, 0x1000] 6 = .ok ("a1f0k".toList.map Char.toUInt8 ++ [0], reads) := by
  have hok : ∀ piece ∈ [Piece.lit 'a'.toUInt8, .x 0x1f, .d 0, .s 0x1000 ['k'.toUInt8]],
      piece.Ok fun i => if i = 0x1000 then 'k'.toUInt8 else 0 := by
    have hchars : ('a'.toUInt8 ≠ 0 ∧ 'a'.toUInt8 ≠ '%'.toUInt8) ∧ 'k'.toUInt8 ≠ 0 := by decide
    simpa [Piece.Ok, Spells, strAt, u64] using hchars
  have h := numberk_vsprintfk (2 ^ 64 - 1) 16 (by norm_num) (.inr rfl) _ _ hok []
  have hmax : numeral 16 (2 ^ 64 - 1) = List.replicate 16 'f'.toUInt8 := by decide +kernel
  have htext : numeral 16 0x1f = ['1'.toUInt8, 'f'.toUInt8] := by decide +kernel
  refine ⟨hmax ▸ h.1.2.1, ?_⟩
  have hroom := h.2 6
  simp only [List.flatMap_cons, List.flatMap_nil, Piece.text, htext] at hroom
  exact hroom (by decide)

end Cosmos.Print
