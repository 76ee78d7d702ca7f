import Mathlib
import Cosmos.Page.Occupy

/-!
# Where boot puts its tables (`hal/x86/halplatform.c`)

Before `init_memmgr` and its callees write a table behind the kernel, `initchkadr_is_ok` compares its address range with
the ranges that are in use. The comparison is one of 64-bit sums, so that a range whose end wraps is taken for a short
one (`placed_iff`).
-/

namespace Cosmos.Page

open Cosmos.Lib

/-- `machbstart_t`, with the other ranges that are in use and the size of the kernel's linear map. -/
structure Machranges extends Machbstart where
  mbKrlsz : Nat
  mbBfontpadr : Nat
  mbBfontsz : Nat
  mbE820padr : Nat
  mbE820sz : Nat
  mbE820expadr : Nat
  mbE820exnr : Nat
  mbE820exsz : Nat
  mbMemznpadr : Nat
  mbMemznsz : Nat
  mbMemmapsz : Nat
  mbKpmapphymemsz : Nat

def adrzoneIsOk (sadr slen kadr klen : Nat) : Int :=
  if sadr ≤ kadr ∧ kadr ≤ u64 (sadr + slen) then -1
  else if kadr ≤ sadr ∧ sadr ≤ u64 (kadr + klen) then -2
  else 0

namespace Machranges

variable (mb : Machranges)

/-- The ranges in use, by start and length: the stack, the image, the kernel, the font, the `e820` array, the areas, the
page descriptors and the converted `e820` array. -/
def zones : List (Nat × Nat) :=
  [(u64Sub mb.mbKrlinitstack mb.mbKrlitstacksz, mb.mbKrlitstacksz), (mb.mbImgpadr, mb.mbImgsz),
    (mb.mbKrlimgpadr, mb.mbKrlsz), (mb.mbBfontpadr, mb.mbBfontsz), (mb.mbE820padr, mb.mbE820sz),
    (mb.mbMemznpadr, mb.mbMemznsz), (mb.mbMemmappadr, mb.mbMemmapsz), (mb.mbE820expadr, mb.mbE820exsz)]

end Machranges

/-- The tests of `initchkadr_is_ok` one after another; the answer of a test that fails is its number. -/
def chkZones (chkadr cksz : Nat) : List (Nat × Nat) → Int → Int → Int
  | [], _, rest => rest
  | (sadr, slen) :: zones, num, rest =>
    if adrzoneIsOk sadr slen chkadr cksz ≠ 0 then num else chkZones chkadr cksz zones (num - 1) rest

def initchkadrIsOk (mb : Machranges) (chkadr cksz : Nat) : Int :=
  chkZones chkadr cksz mb.zones (-1) (if mb.mbKpmapphymemsz ≤ u64 (chkadr + cksz) then -9 else 0)

/-! ### What the check says -/

variable {mb : Machranges} {chkadr cksz sadr slen : Nat}

/-- No address from `chkadr` to `chkadr + cksz` is in the range of `slen` bytes at `sadr`. -/
def Clear (chkadr cksz : Nat) (zone : Nat × Nat) : Prop :=
  Disjoint (Set.Icc chkadr (chkadr + cksz)) (Set.Ico zone.1 (zone.1 + zone.2))

theorem clear_iff : Clear chkadr cksz (sadr, slen) ↔
    slen = 0 ∨ chkadr + cksz < sadr ∨ sadr + slen ≤ chkadr := by
  unfold Clear
  rw [Set.disjoint_left]
  constructor
  · intro h
    by_contra hnot
    push Not at hnot
    -- the larger of the two starts is in both
    refine h (a := max chkadr sadr) ⟨le_max_left _ _, ?_⟩ ⟨le_max_right _ _, ?_⟩
    · exact max_le (by omega) hnot.2.1
    · exact max_lt hnot.2.2 (by simp only; omega)
  · rintro (rfl | h | h) x ⟨hlo, hhi⟩ ⟨hlo', hhi'⟩ <;> simp only at hlo' hhi' <;> omega

theorem chkZones_eq_zero {zones : List (Nat × Nat)} {num rest : Int} (hnum : num < 0) :
    chkZones chkadr cksz zones num rest = 0 ↔
      (∀ z ∈ zones, adrzoneIsOk z.1 z.2 chkadr cksz = 0) ∧ rest = 0 := by
  induction zones generalizing num with
  | nil => simp [chkZones]
  | cons z zones ih =>
    obtain ⟨sadr, slen⟩ := z
    rw [chkZones]
    by_cases hz : adrzoneIsOk sadr slen chkadr cksz = 0
    · rw [if_neg (by simpa using hz), ih (by omega)]
      simp [hz]
    · rw [if_pos hz]
      simp [hz, hnum.ne]

theorem adrzoneIsOk_eq_zero : adrzoneIsOk sadr slen chkadr cksz = 0 ↔
    ¬(sadr ≤ chkadr ∧ chkadr ≤ u64 (sadr + slen)) ∧ ¬(chkadr ≤ sadr ∧ sadr ≤ u64 (chkadr + cksz)) := by
  unfold adrzoneIsOk
  split_ifs <;> simp [*]

/-- A range that the test lets pass is clear unless the zone wraps below it. -/
theorem clear_of_ok (hchk : chkadr + cksz < 2 ^ 64) (h : adrzoneIsOk sadr slen chkadr cksz = 0) :
    Clear chkadr cksz (sadr, slen) ↔ sadr + slen < 2 ^ 64 ∨ chkadr < sadr := by
  rw [adrzoneIsOk_eq_zero, u64_of_lt hchk] at h
  rw [clear_iff]
  by_cases hwrap : sadr + slen < 2 ^ 64
  · rw [u64_of_lt hwrap] at h
    exact ⟨fun _ => .inl hwrap, fun _ => by omega⟩
  · constructor
    · rintro (hzero | habove | hbelow) <;> omega
    · rintro (hbad | habove)
      · exact absurd hbad hwrap
      · exact .inr (.inl (by omega))

/-- The range is clear of everything in use and ends in the kernel's linear map. -/
structure Placed (mb : Machranges) (chkadr cksz : Nat) : Prop where
  clear : ∀ z ∈ mb.zones, Clear chkadr cksz z
  mapped : chkadr + cksz < mb.mbKpmapphymemsz

/-- **The check is sound exactly where no sum wraps**: the end of the range itself, and that of a zone which does not
start above it. -/
theorem placed_iff (hmap : mb.mbKpmapphymemsz < 2 ^ 64) (hok : initchkadrIsOk mb chkadr cksz = 0) :
    Placed mb chkadr cksz ↔
      chkadr + cksz < 2 ^ 64 ∧ ∀ z ∈ mb.zones, z.1 + z.2 < 2 ^ 64 ∨ chkadr < z.1 := by
  obtain ⟨hzones, hend⟩ := (chkZones_eq_zero (by decide)).mp hok
  have hend : u64 (chkadr + cksz) < mb.mbKpmapphymemsz := by
    by_contra hle
    rw [if_pos (by omega)] at hend
    exact absurd hend (by decide)
  constructor
  · rintro ⟨hclear, hmapped⟩
    have hchk : chkadr + cksz < 2 ^ 64 := by omega
    exact ⟨hchk, fun z hz => (clear_of_ok hchk (hzones z hz)).mp (hclear z hz)⟩
  · rintro ⟨hchk, hz⟩
    refine ⟨fun z hmem => (clear_of_ok hchk (hzones z hmem)).mpr (hz z hmem), ?_⟩
    rwa [u64_of_lt hchk] at hend

/-- A machine with 16 GiB of mapped memory: the kernel at 32 MiB, its tables behind it, and the image at 768 MiB. -/
def bootRanges : Machranges where
  mbKrlinitstack := ikstackPhyadr
  mbKrlitstacksz := ikstackSize
  mbImgpadr := 0x30000000
  mbImgsz := 0x1000000
  mbKrlimgpadr := 0x2000000
  mbNextwtpadr := 0x2800000
  mbMemmappadr := 0
  mbMemmapnr := 0
  mbKrlsz := 0x100000
  mbBfontpadr := 0x2200000
  mbBfontsz := 0x100000
  mbE820padr := 0x2400000
  mbE820sz := 0x1000
  mbE820expadr := 0x2600000
  mbE820exnr := 0x10
  mbE820exsz := 0x500
  mbMemznpadr := 0
  mbMemznsz := 0
  mbMemmapsz := 0
  mbKpmapphymemsz := 0x400000000

/-- The first mebibyte behind the tables is clear. -/
theorem placed_behind_tables : initchkadrIsOk bootRanges 0x2800000 0x100000 = 0 ∧
    Placed bootRanges 0x2800000 0x100000 := by
  have hok : initchkadrIsOk bootRanges 0x2800000 0x100000 = 0 := by decide
  exact ⟨hok, (placed_iff (by decide) hok).mpr ⟨by decide, by decide⟩⟩

/-- A range that reaches to `2 ^ 64` and beyond passes the check, with the image in it. -/
theorem wrapping_range_ok : initchkadrIsOk bootRanges 0x2800000 (2 ^ 64 - 0x1000) = 0 ∧
    ¬Clear 0x2800000 (2 ^ 64 - 0x1000) (bootRanges.mbImgpadr, bootRanges.mbImgsz) ∧
    ¬Placed bootRanges 0x2800000 (2 ^ 64 - 0x1000) := by
  refine ⟨by decide, ?_, fun h => absurd h.mapped (by decide)⟩
  rw [clear_iff]
  decide

end Cosmos.Page
