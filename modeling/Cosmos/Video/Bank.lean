import Cosmos.Video.Text

/-!
# Banks of the frame buffer (`hal/x86/bdvideo.c`)

The frame buffer holds several pictures, the banks. `bga_writepix` writes a pixel into the picture in memory,
`bga_flush` copies that picture into the next bank, and `bga_dxwritepix` writes into the bank on display. With 32 bits
for a pixel it computes the address of the bank and of the pixel in it. With 24 bits it multiplies the place of the
pixel by the number of the bank, so that in bank 0 all pixels fall on the first one and in the others they fall outside
the bank (`hits_bank_iff`).

Addresses wrap at `2 ^ 64`. What a function writes is the list of its stores, byte by byte.
-/

namespace Cosmos.Video

open Cosmos.Lib

/-! ### The functions -/

def pixByte (pix : UInt32) (k : Nat) : UInt8 := (pix >>> UInt32.ofNat (8 * k)).toUInt8

def store (adr : Nat) (pix : UInt32) (n : Nat) : List (Nat × UInt8) :=
  (List.range n).map fun k => (u64 (adr + k), pixByte pix k)

def bgaWritepix (g : Dftgraph) (pix : UInt32) (x y : Nat) : List (Nat × UInt8) :=
  if g.ghOnepixbits = 24 then store (u64 ((x + y * g.ghX) * 3) + g.ghFvrmphyadr) pix 3
  else store (g.ghFvrmphyadr + 4 * (x + y * g.ghX)) pix 4

def bgaDxwritepix (g : Dftgraph) (pix : UInt32) (x y : Nat) : List (Nat × UInt8) :=
  if g.ghOnepixbits = 24 then store (u64 ((x + y * g.ghX) * 3 * g.ghCurdipbnk) + g.ghFramphyadr) pix 3
  else store (u64 (g.ghFramphyadr + g.ghX * g.ghY * g.ghOnepixbyte * g.ghCurdipbnk) + 4 * (x + y * g.ghX)) pix 4

def retVramadrInbnk (g : Dftgraph) : Nat := u64 (g.ghFramphyadr + g.ghX * g.ghY * g.ghOnepixbyte * g.ghNextbnk)

/-- The copies of `bga_flush`, eight bytes a round: from where and to where. -/
def flushCopies (g : Dftgraph) : List (Nat × Nat) :=
  (List.range ((u64 (g.ghX * g.ghY * g.ghOnepixbyte) + 7) / 8)).flatMap fun j =>
    (List.range 8).map fun k => (u64 (g.ghFvrmphyadr + 8 * j + k), u64 (retVramadrInbnk g + 8 * j + k))

/-! ### Hitting the bank -/

def bankSize (g : Dftgraph) : Nat := g.ghX * g.ghY * g.ghOnepixbyte

/-- The distance of an address from the start of the frame buffer, and from the start of a bank. -/
def fromFrame (g : Dftgraph) (a : Nat) : Nat := u64Sub a g.ghFramphyadr

def fromBank (g : Dftgraph) (bank a : Nat) : Nat := u64Sub a (u64 (g.ghFramphyadr + bankSize g * bank))

/-- The direct writes stay in the bank on display, those of different pixels are apart, and each byte has the place in
the bank at which `bga_flush` puts the byte that `bga_writepix` wrote. -/
def HitsBank (g : Dftgraph) : Prop :=
  ∀ pix x y, x < g.ghX → y < g.ghY →
    (∀ s ∈ bgaDxwritepix g pix x y,
      g.ghCurdipbnk * bankSize g ≤ fromFrame g s.1 ∧ fromFrame g s.1 < (g.ghCurdipbnk + 1) * bankSize g) ∧
    (∀ x' y', x' < g.ghX → y' < g.ghY → (x', y') ≠ (x, y) →
      ∀ s ∈ bgaDxwritepix g pix x y, ∀ s' ∈ bgaDxwritepix g pix x' y', s.1 ≠ s'.1) ∧
    List.Forall₂ (fun w s => ∃ b, (w.1, b) ∈ flushCopies g ∧ fromBank g g.ghNextbnk b = fromBank g g.ghCurdipbnk s.1)
      (bgaWritepix g pix x y) (bgaDxwritepix g pix x y)

/-- The two pixel formats; addresses are words. -/
structure Format (g : Dftgraph) : Prop where
  depth : g.ghOnepixbits = 24 ∧ g.ghOnepixbyte = 3 ∨ g.ghOnepixbits = 32 ∧ g.ghOnepixbyte = 4
  fram : g.ghFramphyadr < 2 ^ 64

/-! ### Places on the screen -/

section Places

variable {X Y x y x' y' : Nat}

theorem place_lt (hx : x < X) (hy : y < Y) : x + y * X < X * Y := by
  calc x + y * X < X + y * X := by omega
    _ = (y + 1) * X := by ring
    _ ≤ Y * X := Nat.mul_le_mul_right _ hy
    _ = X * Y := Nat.mul_comm _ _

theorem place_inj (hx : x < X) (hx' : x' < X) (h : x + y * X = x' + y' * X) : x = x' ∧ y = y' := by
  have hmod := congrArg (· % X) h
  simp only [Nat.add_mul_mod_self_right, Nat.mod_eq_of_lt hx, Nat.mod_eq_of_lt hx'] at hmod
  subst hmod
  exact ⟨rfl, Nat.eq_of_mul_eq_mul_right (by omega) (Nat.add_left_cancel h)⟩

theorem exists_place {p : Nat} (h : p < X * Y) : ∃ x < X, ∃ y < Y, x + y * X = p := by
  have hX : 0 < X := Nat.pos_of_ne_zero fun h0 => by simp [h0] at h
  exact ⟨p % X, Nat.mod_lt _ hX, p / X, Nat.div_lt_of_lt_mul h, by rw [Nat.mul_comm]; exact Nat.mod_add_div p X⟩

end Places

theorem u64Sub_u64_add {f : Nat} (hf : f < 2 ^ 64) (o : Nat) : u64Sub (u64 (f + o)) f = u64 o := by
  unfold u64Sub u64
  omega

/-! ### What is written where -/

section Stores

variable {g : Dftgraph} {pix : UInt32} {x y adr n : Nat}

theorem mem_store {s : Nat × UInt8} : s ∈ store adr pix n ↔ ∃ k < n, s = (u64 (adr + k), pixByte pix k) := by
  simp [store, eq_comm]

theorem mem_flushCopies {o : Nat} (ho : o < u64 (bankSize g)) :
    (u64 (g.ghFvrmphyadr + o), u64 (retVramadrInbnk g + o)) ∈ flushCopies g := by
  refine List.mem_flatMap.mpr ⟨o / 8, List.mem_range.mpr ?_, List.mem_map.mpr ⟨o % 8, List.mem_range.mpr ?_, ?_⟩⟩
  · show o / 8 < (u64 (bankSize g) + 7) / 8
    omega
  · omega
  · have hsplit : 8 * (o / 8) + o % 8 = o := Nat.div_add_mod o 8
    rw [Nat.add_assoc, Nat.add_assoc, hsplit]

theorem flushCopies_nil (h : u64 (bankSize g) = 0) : flushCopies g = [] := by
  rw [flushCopies, ← bankSize, h]
  rfl

theorem fromBank_add (g : Dftgraph) (bank o : Nat) :
    fromBank g bank (u64 (u64 (g.ghFramphyadr + bankSize g * bank) + o)) = u64 o :=
  u64Sub_u64_add (u64_lt _) o

theorem fromFrame_bank (hfmt : Format g) (p k : Nat) :
    fromFrame g (u64 (u64 (g.ghFramphyadr + bankSize g * g.ghCurdipbnk) + 4 * p + k)) =
      u64 (bankSize g * g.ghCurdipbnk + 4 * p + k) := by
  have hadr : u64 (u64 (g.ghFramphyadr + bankSize g * g.ghCurdipbnk) + 4 * p + k) =
      u64 (g.ghFramphyadr + (bankSize g * g.ghCurdipbnk + 4 * p + k)) := by
    unfold u64
    omega
  rw [fromFrame, hadr, u64Sub_u64_add hfmt.fram]

theorem flushed (g : Dftgraph) {o : Nat} (ho : o < u64 (bankSize g)) :
    ∃ b, (u64 (g.ghFvrmphyadr + o), b) ∈ flushCopies g ∧ fromBank g g.ghNextbnk b = u64 o :=
  ⟨_, mem_flushCopies ho, fromBank_add g _ o⟩

end Stores

/-! ### 32 bits for a pixel -/

section Depth32

variable {g : Dftgraph} (hfmt : Format g) (hbits : g.ghOnepixbits = 32)

include hbits

theorem bgaDxwritepix_32 (pix : UInt32) (x y : Nat) :
    bgaDxwritepix g pix x y =
      store (u64 (g.ghFramphyadr + bankSize g * g.ghCurdipbnk) + 4 * (x + y * g.ghX)) pix 4 := by
  rw [bgaDxwritepix, if_neg (by omega)]
  rfl

theorem bgaWritepix_32 (pix : UInt32) (x y : Nat) :
    bgaWritepix g pix x y = store (g.ghFvrmphyadr + 4 * (x + y * g.ghX)) pix 4 := by
  rw [bgaWritepix, if_neg (by omega)]

include hfmt

theorem bankSize_32 : bankSize g = 4 * (g.ghX * g.ghY) := by
  have hbyte : g.ghOnepixbyte = 4 := by
    rcases hfmt.depth with h | h <;> omega
  rw [bankSize, hbyte, Nat.mul_comm]

theorem hits_of_fits (hfit : (g.ghCurdipbnk + 1) * bankSize g ≤ 2 ^ 64) (hlt : bankSize g < 2 ^ 64) : HitsBank g := by
  have hsize := bankSize_32 hfmt hbits
  have hend : (g.ghCurdipbnk + 1) * bankSize g = bankSize g * g.ghCurdipbnk + bankSize g := by ring
  intro pix x y hx hy
  have hp := place_lt hx hy
  rw [bgaDxwritepix_32 hbits, bgaWritepix_32 hbits]
  refine ⟨fun s hs => ?_, fun x' y' hx' hy' hne s hs s' hs' heq => ?_, ?_⟩
  · obtain ⟨k, hk, rfl⟩ := mem_store.mp hs
    rw [fromFrame_bank hfmt, u64_of_lt (by omega), Nat.mul_comm g.ghCurdipbnk]
    omega
  · have hp' := place_lt hx' hy'
    rw [bgaDxwritepix_32 hbits] at hs'
    obtain ⟨k, hk, rfl⟩ := mem_store.mp hs
    obtain ⟨k', hk', rfl⟩ := mem_store.mp hs'
    have hoff := congrArg (fromFrame g) heq
    rw [fromFrame_bank hfmt, fromFrame_bank hfmt, u64_of_lt (by omega), u64_of_lt (by omega)] at hoff
    obtain ⟨rfl, rfl⟩ := place_inj hx' hx (show x' + y' * g.ghX = x + y * g.ghX by omega)
    exact hne rfl
  · simp only [store, List.forall₂_map_left_iff, List.forall₂_map_right_iff, List.forall₂_same, List.mem_range]
    intro k hk
    obtain ⟨b, hb, hoff⟩ := flushed g (o := 4 * (x + y * g.ghX) + k) (by rw [u64_of_lt hlt]; omega)
    refine ⟨b, by rwa [Nat.add_assoc], hoff.trans ?_⟩
    rw [Nat.add_assoc, fromBank_add]

theorem fits_of_hits (h : HitsBank g) (hpos : 0 < g.ghX * g.ghY) :
    (g.ghCurdipbnk + 1) * bankSize g ≤ 2 ^ 64 ∧ bankSize g < 2 ^ 64 := by
  have hsize := bankSize_32 hfmt hbits
  have hend : (g.ghCurdipbnk + 1) * bankSize g = bankSize g * g.ghCurdipbnk + bankSize g := by ring
  have hlast : (g.ghCurdipbnk + 1) * bankSize g ≤ 2 ^ 64 := by
    by_contra hover
    obtain ⟨x, hx, y, hy, hp⟩ := exists_place (show g.ghX * g.ghY - 1 < g.ghX * g.ghY by omega)
    by_cases hbig : bankSize g ≤ 2 ^ 64
    · -- the last byte of the last pixel wraps to a place before the bank
      have hbyte := (h 0 x y hx hy).1 (u64 (_ + 3), pixByte 0 3)
        (by rw [bgaDxwritepix_32 hbits]; exact mem_store.mpr ⟨3, by decide, rfl⟩)
      rw [hp, fromFrame_bank hfmt, Nat.mul_comm g.ghCurdipbnk] at hbyte
      unfold u64 at hbyte
      omega
    · -- the pixel at `2 ^ 62` has the bytes of the first one
      obtain ⟨x', hx', y', hy', hp'⟩ := exists_place (show 2 ^ 62 < g.ghX * g.ghY by omega)
      have hX : 0 < g.ghX := by omega
      have hY : 0 < g.ghY := by omega
      refine (h 0 0 0 hX hY).2.1 x' y' hx' hy' (fun heq => ?_) (u64 (_ + 0), pixByte 0 0)
        (by rw [bgaDxwritepix_32 hbits]; exact mem_store.mpr ⟨0, by decide, rfl⟩) (u64 (_ + 0), pixByte 0 0)
        (by rw [bgaDxwritepix_32 hbits]; exact mem_store.mpr ⟨0, by decide, rfl⟩) ?_
      · cases heq
        omega
      · simp only
        rw [hp']
        unfold u64
        omega
  refine ⟨hlast, ?_⟩
  by_contra hfull
  -- the size of the bank wraps to zero, and nothing is copied
  have hX : 0 < g.ghX := Nat.pos_of_mul_pos_right hpos
  have hY : 0 < g.ghY := Nat.pos_of_mul_pos_left hpos
  have hflush := (h 0 0 0 hX hY).2.2
  rw [bgaDxwritepix_32 hbits, bgaWritepix_32 hbits, flushCopies_nil (by unfold u64; omega)] at hflush
  simp only [store, List.forall₂_map_left_iff, List.forall₂_map_right_iff, List.forall₂_same, List.not_mem_nil,
    false_and, exists_false] at hflush
  exact hflush 0 (by decide)

end Depth32

/-! ### 24 bits for a pixel -/

section Depth24

variable {g : Dftgraph} (hfmt : Format g) (hbits : g.ghOnepixbits = 24)

theorem first_pixel (hbank : g.ghCurdipbnk = 0) (p k : Nat) :
    u64 (u64 (p * 3 * g.ghCurdipbnk) + g.ghFramphyadr + k) = u64 (g.ghFramphyadr + k) := by
  rw [hbank, Nat.mul_zero, show u64 0 = 0 from rfl, Nat.zero_add]

include hbits

theorem bgaDxwritepix_24 (pix : UInt32) (x y : Nat) :
    bgaDxwritepix g pix x y = store (u64 ((x + y * g.ghX) * 3 * g.ghCurdipbnk) + g.ghFramphyadr) pix 3 := by
  rw [bgaDxwritepix, if_pos hbits]

theorem bgaWritepix_24 (pix : UInt32) (x y : Nat) :
    bgaWritepix g pix x y = store (u64 ((x + y * g.ghX) * 3) + g.ghFvrmphyadr) pix 3 := by
  rw [bgaWritepix, if_pos hbits]

include hfmt

theorem bankSize_24 : bankSize g = 3 * (g.ghX * g.ghY) := by
  have hbyte : g.ghOnepixbyte = 3 := by
    rcases hfmt.depth with h | h <;> omega
  rw [bankSize, hbyte, Nat.mul_comm]

theorem single_of_hits (h : HitsBank g) (hpos : 0 < g.ghX * g.ghY) : g.ghCurdipbnk = 0 ∧ g.ghX * g.ghY = 1 := by
  have hX : 0 < g.ghX := Nat.pos_of_mul_pos_right hpos
  have hY : 0 < g.ghY := Nat.pos_of_mul_pos_left hpos
  have hfirst : (u64 (u64 ((0 + 0 * g.ghX) * 3 * g.ghCurdipbnk) + g.ghFramphyadr + 0), pixByte 0 0) ∈
      bgaDxwritepix g 0 0 0 := by
    rw [bgaDxwritepix_24 hbits]
    exact mem_store.mpr ⟨0, by decide, rfl⟩
  -- the first pixel is at the start of the frame buffer, whichever the bank
  have hbank : g.ghCurdipbnk = 0 := by
    have hlow := ((h 0 0 0 hX hY).1 _ hfirst).1
    have hzero : fromFrame g (u64 (u64 ((0 + 0 * g.ghX) * 3 * g.ghCurdipbnk) + g.ghFramphyadr + 0)) = 0 := by
      have hadr : u64 (u64 ((0 + 0 * g.ghX) * 3 * g.ghCurdipbnk) + g.ghFramphyadr + 0) = u64 (g.ghFramphyadr + 0) := by
        simp [u64]
      rw [fromFrame, hadr, u64Sub_u64_add hfmt.fram]
      rfl
    rw [hzero, bankSize_24 hfmt hbits] at hlow
    have hmul := Nat.le_zero.mp hlow
    rcases Nat.mul_eq_zero.mp hmul with h0 | h0
    · exact h0
    · omega
  refine ⟨hbank, ?_⟩
  by_contra hone
  -- in bank 0 the second pixel is there, too
  obtain ⟨x, hx, y, hy, hp⟩ := exists_place (show 1 < g.ghX * g.ghY by omega)
  refine (h 0 0 0 hX hY).2.1 x y hx hy (fun heq => ?_) _ hfirst (u64 (_ + 0), pixByte 0 0)
    (by rw [bgaDxwritepix_24 hbits]; exact mem_store.mpr ⟨0, by decide, rfl⟩) ?_
  · cases heq
    omega
  · simp only [hbank, Nat.mul_zero]

theorem hits_of_single (hbank : g.ghCurdipbnk = 0) (hone : g.ghX * g.ghY = 1) : HitsBank g := by
  have hsize := bankSize_24 hfmt hbits
  rw [hone] at hsize
  obtain ⟨hX, hY⟩ := mul_eq_one.mp hone
  intro pix x y hx hy
  obtain rfl : x = 0 := by omega
  obtain rfl : y = 0 := by omega
  rw [bgaDxwritepix_24 hbits, bgaWritepix_24 hbits]
  refine ⟨fun s hs => ?_, fun x' y' hx' hy' hne => absurd (Prod.ext (by omega) (by omega)) hne, ?_⟩
  · obtain ⟨k, hk, rfl⟩ := mem_store.mp hs
    rw [first_pixel hbank, fromFrame, u64Sub_u64_add hfmt.fram, u64_of_lt (by omega), hbank, hsize]
    omega
  · simp only [store, List.forall₂_map_left_iff, List.forall₂_map_right_iff, List.forall₂_same, List.mem_range]
    intro k hk
    obtain ⟨b, hb, hoff⟩ := flushed g (o := k) (by rw [hsize, u64_of_lt (by decide)]; omega)
    have hbase : u64 (g.ghFramphyadr + k) = u64 (u64 (g.ghFramphyadr + bankSize g * g.ghCurdipbnk) + k) := by
      rw [hbank, Nat.mul_zero, Nat.add_zero, u64_of_lt hfmt.fram]
    refine ⟨b, by simpa [u64] using hb, hoff.trans ?_⟩
    rw [first_pixel hbank, hbase, fromBank_add]

end Depth24

/-! ### Both -/

/-- **The direct writes hit the bank on display exactly if a pixel has 32 bits and the bank and those before it lie
below `2 ^ 64`, the cases of no pixel at all and of one pixel of 24 bits in bank 0 apart.** -/
theorem hits_bank_iff {g : Dftgraph} (hfmt : Format g) :
    HitsBank g ↔ g.ghX * g.ghY = 0 ∨
      (g.ghOnepixbits = 32 ∧ (g.ghCurdipbnk + 1) * bankSize g ≤ 2 ^ 64 ∧ bankSize g < 2 ^ 64) ∨
      (g.ghOnepixbits = 24 ∧ g.ghCurdipbnk = 0 ∧ g.ghX * g.ghY = 1) := by
  constructor
  · intro h
    rcases Nat.eq_zero_or_pos (g.ghX * g.ghY) with h0 | hpos
    · exact .inl h0
    · rcases hfmt.depth with ⟨hbits, -⟩ | ⟨hbits, -⟩
      · exact .inr (.inr ⟨hbits, single_of_hits hfmt hbits h hpos⟩)
      · exact .inr (.inl ⟨hbits, fits_of_hits hfmt hbits h hpos⟩)
  · rintro (h0 | ⟨hbits, hfit, hlt⟩ | ⟨hbits, hbank, hone⟩)
    · intro pix x y hx hy
      have hp := place_lt hx hy
      omega
    · exact hits_of_fits hfmt hbits hfit hlt
    · exact hits_of_single hfmt hbits hbank hone

/-- The screen of 640 by 480 pixels of 32 bits, its third bank on display. -/
theorem hits_third_bank : HitsBank { screen640 with ghCurdipbnk := 2 } :=
  (hits_bank_iff ⟨.inr ⟨rfl, rfl⟩, by decide⟩).mpr (.inr (.inl ⟨rfl, by decide, by decide⟩))

/-- With 24 bits, all pixels of bank 0 have the bytes of the first one, and those of bank 1 lie in bank 0. -/
theorem misses_bank :
    (bgaDxwritepix { screen640 with ghOnepixbits := 24, ghOnepixbyte := 3 } 0xffffff 1 0).map Prod.fst =
        (bgaDxwritepix { screen640 with ghOnepixbits := 24, ghOnepixbyte := 3 } 0xffffff 0 0).map Prod.fst ∧
      ∀ s ∈ bgaDxwritepix { screen640 with ghOnepixbits := 24, ghOnepixbyte := 3, ghCurdipbnk := 1 } 0xffffff 7 0,
        fromFrame screen640 s.1 < 640 * 480 * 3 := by
  decide

end Cosmos.Video
