import Cosmos.Page.Interface

/-!
# Drawing text (`hal/x86/bdvideo.c`)

`put_pixonechar` and `drxput_pixonechar` draw one character at the cursor and move it; they differ in the function that
writes a pixel. A line feed on the last line clears the screen by `hal_background`, which prints the version text
through the same functions before the caller goes on. `Console` is that process: the characters still to be drawn, the
version text put before them when the screen is cleared. The picture that `hal_background` copies is left out.

From the cursor that `init_dftgraph` sets, on a screen of at least 640 by 480, no pixel of a glyph is outside the
screen, and the cursor leaves room for a line (`text_on_screen`).
-/

namespace Cosmos.Video

open Cosmos.Lib Cosmos.Page

/-! ### The screen -/

/-- The part of `dftgraph_t` that text and pixels use. -/
structure Dftgraph where
  ghX : Nat
  ghY : Nat
  ghFramphyadr : Nat
  ghFvrmphyadr : Nat
  ghOnepixbits : Nat
  ghOnepixbyte : Nat
  ghBank : Nat
  ghCurdipbnk : Nat
  ghNextbnk : Nat
  ghFontadr : Nat
  ghFnthight : Nat
  ghNxtcharsx : Nat
  ghNxtcharsy : Nat
  ghLinesz : Nat
  ghChardxw : Nat

/-- The part of `machbstart_t` that `init_dftgraph` reads. -/
structure Machbstart where
  ghX : Nat
  ghY : Nat
  ghFramphyadr : Nat
  mbFvrmphyadr : Nat
  ghOnepixbits : Nat
  ghBank : Nat
  ghCurdipbnk : Nat
  ghNextbnk : Nat
  mbBfontpadr : Nat

/-- `init_dftgraph`: the record is zeroed before it is filled. -/
def initDftgraph (kmbsp : Machbstart) : Halt Dftgraph :=
  phyadrToViradr kmbsp.ghFramphyadr >>= fun framphyadr =>
  phyadrToViradr kmbsp.mbFvrmphyadr >>= fun fvrmphyadr =>
  phyadrToViradr kmbsp.mbBfontpadr >>= fun fontadr =>
    .ok
      { ghX := kmbsp.ghX
        ghY := kmbsp.ghY
        ghFramphyadr := framphyadr
        ghFvrmphyadr := fvrmphyadr
        ghOnepixbits := kmbsp.ghOnepixbits
        ghOnepixbyte := kmbsp.ghOnepixbits / 8
        ghBank := kmbsp.ghBank
        ghCurdipbnk := kmbsp.ghCurdipbnk
        ghNextbnk := kmbsp.ghNextbnk
        ghFontadr := fontadr
        ghFnthight := 16
        ghNxtcharsx := 0
        ghNxtcharsy := 0
        ghLinesz := 16 + 4
        ghChardxw := 0 }

/-- `fntdata_t`; the bytes from `fntchmap` on. -/
structure Fntdata where
  fntwxbyte : UInt8
  fnthx : UInt8
  fntwx : UInt8
  fntchmap : Nat → UInt8

/-- The functions that write a pixel. -/
inductive Writer where
  | writePixcolor | drxwPixcolor

/-- One call of such a function. -/
structure Draw where
  writer : Writer
  x : Nat
  y : Nat
  pix : UInt32

/-! ### One glyph -/

/-- The loop over `bi`: the places of the pixels to draw, and `x` behind it. -/
def bitLoop (chwx : Nat) (bitmap : UInt8) : Nat → Nat → List Nat × Nat
  | 0, x => ([], x)
  | bi + 1, x =>
    if chwx ≤ x then ([], x)
    else
      let r := bitLoop chwx bitmap bi (x + 1)
      (if (bitmap.toNat >>> bi) &&& 1 = 1 then x :: r.1 else r.1, r.2)

/-- The loop over `btyi`: the bytes of one line of the glyph. -/
def lineLoop (chwx : Nat) : List UInt8 → Nat → List Nat
  | [], _ => []
  | bitmap :: rest, x =>
    if bitmap = 0 then lineLoop chwx rest (x + 8)
    else
      let r := bitLoop chwx bitmap 8 x
      r.1 ++ lineLoop chwx rest r.2

/-- The loop over `hx`; sums are those of `u32_t`. -/
def drawGlyph (w : Writer) (d : Fntdata) (wpx wpy : Nat) (pix : UInt32) : List Draw :=
  (List.range d.fnthx.toNat).flatMap fun hx =>
    (lineLoop d.fntwx.toNat
      ((List.range d.fntwxbyte.toNat).map fun btyi => d.fntchmap (hx * d.fntwxbyte.toNat + btyi)) 0).map fun x =>
        ⟨w, (wpx + x) % 2 ^ 32, (wpy + hx) % 2 ^ 32, pix⟩

/-! ### One character -/

/-- The address `ret_charsinfo` returns: `fntchmap` of the record of the character, of 35 bytes. -/
def charyp (g : Dftgraph) (unicode : UInt32) : Nat := u64 (g.ghFontadr + 35 * unicode.toNat + 3)

def lastLine (g : Dftgraph) : Prop := u64Sub g.ghY g.ghFnthight < u64 (g.ghNxtcharsy + g.ghLinesz)

instance (g : Dftgraph) : Decidable (lastLine g) := inferInstanceAs (Decidable (_ < _))

/-- The cursor at the start of the next line, from the last one at the top. -/
def nextLine (g : Dftgraph) : Dftgraph :=
  { g with ghNxtcharsx := 0, ghNxtcharsy := if lastLine g then 0 else u64 (g.ghNxtcharsy + g.ghLinesz) }

/-- The body that the two functions share: the screen, the pixels drawn, and whether `hal_background` is called. -/
def pixonechar (w : Writer) (fntp : UInt32 → Fntdata) (g : Dftgraph) (unicode pix : UInt32) :
    Dftgraph × List Draw × Bool :=
  if unicode = 10 then (nextLine g, [], decide (lastLine g))
  else if charyp g unicode = 0 then (g, [], false)
  else
    let d := fntp unicode
    let chwx := d.fntwx.toNat
    let g := if u64Sub g.ghX chwx < u64 (g.ghNxtcharsx + chwx) then nextLine g else g
    ({ g with ghNxtcharsx := u64 (g.ghNxtcharsx + chwx) },
      drawGlyph w d (g.ghNxtcharsx % 2 ^ 32) (g.ghNxtcharsy % 2 ^ 32) pix, false)

def putPixonechar := pixonechar .writePixcolor

def drxputPixonechar := pixonechar .drxwPixcolor

/-! ### The console -/

/-- The screen, the characters that calls of `gstr_write` have still to draw, with their colours, and the pixels drawn
so far. -/
structure Console where
  graph : Dftgraph
  pending : List (UInt32 × UInt32)
  drawn : List Draw

/-- What can happen next: `gstr_write` comes to the next character, and `hal_dspversion` prints `version` if it is
called; or `set_charsdxwflush` chooses the function that draws. -/
inductive Ev where
  | char (version : List (UInt32 × UInt32))
  | setCharsdxwflush (chardxw : Nat)

def Ev.version : Ev → List (UInt32 × UInt32)
  | .char version => version
  | .setCharsdxwflush _ => []

/-- The body of the loop of `gstr_write` for a decoded character. -/
def gstrChar (fntp : UInt32 → Fntdata) (g : Dftgraph) (uc pix : UInt32) : Dftgraph × List Draw × Bool :=
  if g.ghChardxw = 1 then putPixonechar fntp g uc pix else drxputPixonechar fntp g uc pix

def Console.step (fntp : UInt32 → Fntdata) (c : Console) : Ev → Option Console
  | .char version =>
    match c.pending with
    | [] => none
    | p :: rest =>
      let r := gstrChar fntp c.graph p.1 p.2
      some ⟨r.1, if r.2.2 then version ++ rest else rest, c.drawn ++ r.2.1⟩
  | .setCharsdxwflush chardxw => some { c with graph := { c.graph with ghChardxw := chardxw } }

/-! ### Pixels of a glyph -/

theorem mem_bitLoop {chwx : Nat} {bitmap : UInt8} (n : Nat) : ∀ {x v}, v ∈ (bitLoop chwx bitmap n x).1 → v < chwx := by
  induction n with
  | zero => simp [bitLoop]
  | succ n ih =>
    intro x v hv
    rw [bitLoop] at hv
    split_ifs at hv with hx hbit
    · simp at hv
    · rcases List.mem_cons.mp hv with rfl | hv
      · omega
      · exact ih hv
    · exact ih hv

theorem mem_lineLoop {chwx : Nat} (bytes : List UInt8) : ∀ {x v}, v ∈ lineLoop chwx bytes x → v < chwx := by
  induction bytes with
  | nil => simp [lineLoop]
  | cons bitmap rest ih =>
    intro x v hv
    rw [lineLoop] at hv
    split_ifs at hv
    · exact ih hv
    · rcases List.mem_append.mp hv with hv | hv
      · exact mem_bitLoop 8 hv
      · exact ih hv

theorem mem_drawGlyph {w : Writer} {d : Fntdata} {wpx wpy : Nat} {pix : UInt32} {e : Draw}
    (he : e ∈ drawGlyph w d wpx wpy pix) :
    ∃ x < d.fntwx.toNat, ∃ y < d.fnthx.toNat, e.x = (wpx + x) % 2 ^ 32 ∧ e.y = (wpy + y) % 2 ^ 32 := by
  obtain ⟨y, hy, he⟩ := List.mem_flatMap.mp he
  obtain ⟨x, hx, rfl⟩ := List.mem_map.mp he
  exact ⟨x, mem_lineLoop _ hx, y, List.mem_range.mp hy, rfl, rfl⟩

/-! ### The cursor -/

/-- The cursor is on the screen, and a line of text fits below it. -/
structure OnScreen (g : Dftgraph) : Prop where
  wide : 640 ≤ g.ghX ∧ g.ghX < 2 ^ 64
  high : g.ghFnthight ≤ g.ghY ∧ g.ghY < 2 ^ 64
  x : g.ghNxtcharsx ≤ g.ghX
  y : g.ghNxtcharsy + g.ghFnthight ≤ g.ghY

def SameScreen (g g' : Dftgraph) : Prop := g'.ghX = g.ghX ∧ g'.ghY = g.ghY ∧ g'.ghFnthight = g.ghFnthight

section Cursor

variable {g : Dftgraph}

theorem OnScreen.nextLine (h : OnScreen g) : OnScreen (nextLine g) := by
  refine ⟨h.wide, h.high, Nat.zero_le _, ?_⟩
  obtain ⟨hle, hlt⟩ := h.high
  show (if lastLine g then 0 else u64 (g.ghNxtcharsy + g.ghLinesz)) + g.ghFnthight ≤ g.ghY
  split_ifs with hlast
  · omega
  · rw [lastLine, u64Sub_of_le hle hlt] at hlast
    omega

/-- A glyph at the cursor, when the line has room for it or has just begun. The sum in the test may wrap; then the
screen is so wide that every `u32_t` is on it. -/
theorem OnScreen.glyph (h : OnScreen g) {chwx : Nat} (hw : chwx < 256)
    (hfits : u64 (g.ghNxtcharsx + chwx) ≤ u64Sub g.ghX chwx ∨ g.ghNxtcharsx = 0) :
    u64 (g.ghNxtcharsx + chwx) ≤ g.ghX ∧ ∀ x < chwx, (g.ghNxtcharsx % 2 ^ 32 + x) % 2 ^ 32 < g.ghX := by
  obtain ⟨hwide, hlt⟩ := h.wide
  have hx := h.x
  rw [u64Sub_of_le (by omega) hlt] at hfits
  unfold u64 at hfits ⊢
  constructor
  · omega
  · intro x hxw
    omega

theorem onScreen_pixonechar (w : Writer) {fntp : UInt32 → Fntdata} {unicode : UInt32} (pix : UInt32) (h : OnScreen g)
    (hfnt : unicode ≠ 10 → (fntp unicode).fnthx.toNat ≤ g.ghFnthight) :
    OnScreen (pixonechar w fntp g unicode pix).1 ∧ SameScreen g (pixonechar w fntp g unicode pix).1 ∧
      ∀ e ∈ (pixonechar w fntp g unicode pix).2.1, e.x < g.ghX ∧ e.y < g.ghY := by
  unfold pixonechar
  split_ifs with hnl hnull
  · exact ⟨h.nextLine, ⟨rfl, rfl, rfl⟩, by simp⟩
  · exact ⟨h, ⟨rfl, rfl, rfl⟩, by simp⟩
  · dsimp only
    have hw := (fntp unicode).fntwx.toNat_lt
    have hhigh := hfnt hnl
    generalize hg' : (if u64Sub g.ghX (fntp unicode).fntwx.toNat < u64 (g.ghNxtcharsx + (fntp unicode).fntwx.toNat)
      then nextLine g else g) = g'
    have hmoved : OnScreen g' ∧ SameScreen g g' ∧ (u64 (g'.ghNxtcharsx + (fntp unicode).fntwx.toNat) ≤
        u64Sub g'.ghX (fntp unicode).fntwx.toNat ∨ g'.ghNxtcharsx = 0) := by
      split_ifs at hg' with hwrap
      · exact hg' ▸ ⟨h.nextLine, ⟨rfl, rfl, rfl⟩, .inr rfl⟩
      · exact hg' ▸ ⟨h, ⟨rfl, rfl, rfl⟩, .inl (by omega)⟩
    obtain ⟨hon, hsame, hfits⟩ := hmoved
    obtain ⟨hcursor, hpix⟩ := hon.glyph hw hfits
    refine ⟨⟨hon.wide, hon.high, hcursor, hon.y⟩, hsame, fun e he => ?_⟩
    obtain ⟨x, hx, y, hy, hex, hey⟩ := mem_drawGlyph he
    have hy' := hon.y
    obtain ⟨hsx, hsy, hsf⟩ := hsame
    refine ⟨hex ▸ hsx ▸ hpix x hx, ?_⟩
    rw [hey]
    omega

end Cursor

/-! ### Runs -/

/-- What holds of a console all the time. -/
structure Console.Inv (fntp : UInt32 → Fntdata) (g : Dftgraph) (c : Console) : Prop where
  on : OnScreen c.graph
  same : SameScreen g c.graph
  pending : ∀ p ∈ c.pending, p.1 ≠ 10 → (fntp p.1).fnthx.toNat ≤ g.ghFnthight
  drawn : ∀ e ∈ c.drawn, e.x < g.ghX ∧ e.y < g.ghY

theorem gstrChar_eq (fntp : UInt32 → Fntdata) (g : Dftgraph) (uc pix : UInt32) :
    ∃ w, gstrChar fntp g uc pix = pixonechar w fntp g uc pix := by
  unfold gstrChar
  split_ifs
  · exact ⟨_, rfl⟩
  · exact ⟨_, rfl⟩

theorem Console.Inv.step {fntp : UInt32 → Fntdata} {g : Dftgraph} {c c' : Console} {ev : Ev} (h : c.Inv fntp g)
    (hversion : ∀ p ∈ ev.version, p.1 ≠ 10 → (fntp p.1).fnthx.toNat ≤ g.ghFnthight)
    (hstep : c.step fntp ev = some c') : c'.Inv fntp g := by
  cases ev with
  | setCharsdxwflush chardxw =>
    cases hstep
    exact ⟨⟨h.on.wide, h.on.high, h.on.x, h.on.y⟩, h.same, h.pending, h.drawn⟩
  | char version =>
    cases hpending : c.pending with
    | nil => simp [Console.step, hpending] at hstep
    | cons p rest =>
      obtain ⟨hsx, hsy, hsf⟩ := h.same
      obtain ⟨w, hbody⟩ := gstrChar_eq fntp c.graph p.1 p.2
      have hchar := h.pending p (by simp [hpending])
      rw [← hsf] at hchar
      obtain ⟨hon, ⟨hx, hy, hf⟩, hpix⟩ := onScreen_pixonechar w p.2 h.on hchar
      simp only [Console.step, hpending, hbody, Option.some.injEq] at hstep
      subst hstep
      refine ⟨hon, ⟨hx.trans hsx, hy.trans hsy, hf.trans hsf⟩, fun q hq => ?_, fun e he => ?_⟩
      · have hrest : ∀ q ∈ rest, q.1 ≠ 10 → (fntp q.1).fnthx.toNat ≤ g.ghFnthight :=
          fun q hq => h.pending q (by simp [hpending, hq])
        simp only at hq
        split_ifs at hq
        · exact (List.mem_append.mp hq).elim (hversion q) (hrest q)
        · exact hrest q hq
      · rcases List.mem_append.mp he with he | he
        · exact h.drawn e he
        · exact hsx ▸ hsy ▸ hpix e he

theorem initDftgraph_cursor {kmbsp : Machbstart} {g : Dftgraph} (h : initDftgraph kmbsp = .ok g) :
    g.ghNxtcharsx = 0 ∧ g.ghNxtcharsy = 0 ∧ g.ghFnthight = 16 := by
  obtain ⟨_, -, h⟩ := Halt.bind_eq_ok h
  obtain ⟨_, -, h⟩ := Halt.bind_eq_ok h
  obtain ⟨_, -, h⟩ := Halt.bind_eq_ok h
  cases h
  exact ⟨rfl, rfl, rfl⟩

/-- **On a screen of at least 640 by 480, for every text and every version text printed in between, no pixel of a glyph
is outside the screen, and the cursor always leaves room for a line.** -/
theorem text_on_screen {kmbsp : Machbstart} {g : Dftgraph} {fntp : UInt32 → Fntdata} {text : List (UInt32 × UInt32)}
    {evs : List Ev} {c : Console} (hinit : initDftgraph kmbsp = .ok g) (hx : 640 ≤ g.ghX ∧ g.ghX < 2 ^ 64)
    (hy : 480 ≤ g.ghY ∧ g.ghY < 2 ^ 64)
    (hfnt : ∀ p ∈ text ++ evs.flatMap Ev.version, p.1 ≠ 10 →
      (fntp p.1).fntwx.toNat ≤ g.ghX ∧ (fntp p.1).fnthx.toNat ≤ g.ghFnthight)
    (hrun : Trace (fun c ev c' => Console.step fntp c ev = some c') ⟨g, text, []⟩ evs c) :
    (∀ e ∈ c.drawn, e.x < g.ghX ∧ e.y < g.ghY) ∧
      c.graph.ghNxtcharsx ≤ g.ghX ∧ c.graph.ghNxtcharsy + g.ghFnthight ≤ g.ghY := by
  obtain ⟨hx0, hy0, hf⟩ := initDftgraph_cursor hinit
  have hon : OnScreen g := ⟨hx, ⟨by omega, hy.2⟩, by omega, by omega⟩
  have hstart : Console.Inv fntp g ⟨g, text, []⟩ :=
    ⟨hon, ⟨rfl, rfl, rfl⟩, fun p hp hne => (hfnt p (by simp [hp]) hne).2, by simp⟩
  have hversions : ∀ ev ∈ evs, ∀ p ∈ ev.version, p.1 ≠ 10 → (fntp p.1).fnthx.toNat ≤ g.ghFnthight :=
    fun ev hev p hp hne => (hfnt p (List.mem_append_right _ (List.mem_flatMap.mpr ⟨ev, hev, hp⟩)) hne).2
  have hend := hrun.inv (fun c ev c' hev hc hstep => Console.Inv.step hc hev hstep) hversions hstart
  obtain ⟨hsx, hsy, hsf⟩ := hend.same
  exact ⟨hend.drawn, hsx ▸ hend.on.x, hsy ▸ hsf ▸ hend.on.y⟩

def kmbsp640 : Machbstart := ⟨640, 480, 0xe0000000, 0x1000000, 32, 0, 0, 0, 0x2000000⟩

/-- A font whose characters are two bars, 8 pixels wide and 16 high. -/
def bars : UInt32 → Fntdata := fun _ => ⟨1, 16, 8, fun _ => 0x81⟩

def screen640 : Dftgraph :=
  { ghX := 640, ghY := 480, ghFramphyadr := krnlMapVirtaddressStart + 0xe0000000,
    ghFvrmphyadr := krnlMapVirtaddressStart + 0x1000000, ghOnepixbits := 32, ghOnepixbyte := 4, ghBank := 0,
    ghCurdipbnk := 0, ghNextbnk := 0, ghFontadr := krnlMapVirtaddressStart + 0x2000000, ghFnthight := 16,
    ghNxtcharsx := 0, ghNxtcharsy := 0, ghLinesz := 20, ghChardxw := 0 }

/-- A letter and a line feed. -/
theorem text_on_screen_of_two :
    ∃ c, Trace (fun c ev c' => Console.step bars c ev = some c') ⟨screen640, [(0x41, 0xffffff), (10, 0xffffff)], []⟩
        [.char [], .char []] c ∧ c.drawn.length = 32 ∧
      (∀ e ∈ c.drawn, e.x < screen640.ghX ∧ e.y < screen640.ghY) ∧
      c.graph.ghNxtcharsx ≤ screen640.ghX ∧ c.graph.ghNxtcharsy + screen640.ghFnthight ≤ screen640.ghY := by
  obtain ⟨c, hrun, hlen⟩ : ∃ c, Trace (fun c ev c' => Console.step bars c ev = some c')
      ⟨screen640, [(0x41, 0xffffff), (10, 0xffffff)], []⟩ [.char [], .char []] c ∧ c.drawn.length = 32 :=
    ⟨_, .cons rfl (.cons rfl (.nil _)), rfl⟩
  have hinit : initDftgraph kmbsp640 = .ok screen640 := rfl
  have hbars : ∀ code, (bars code).fntwx.toNat ≤ screen640.ghX ∧ (bars code).fnthx.toNat ≤ screen640.ghFnthight :=
    fun _ => ⟨show 8 ≤ 640 by decide, le_rfl⟩
  exact ⟨c, hrun, hlen, text_on_screen hinit (by decide) (by decide) (fun p _ _ => hbars p.1) hrun⟩

end Cosmos.Video
