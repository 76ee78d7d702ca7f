import Cosmos.Ldr.Alloc
import Cosmos.Lib.Move

/-!
# Moving the image out of the way (`initldr/legacy/ldrkrl/fs.c`)

Before the legacy loader writes to a range it has `move_krlimg` move the image file to the first page behind the range,
if it is in the way. The copy is right also where the two places overlap (`m2mcopy_eq`), but the only thing that is
known of the new place is that the memory map has it as usable: the kernel, the font, the memory map itself or the
initial stack may be there. The loader is a 32-bit program that keeps 64-bit addresses and sizes, and they are cut off
without a test. `moveKrlimg_safe_iff` says which descriptions of the machine are safe, whatever is in memory.

The description and the memory map are read before the first write, so that they are values here. The write of
`mb_imgpadr` is also one to memory, where the description is.
-/

namespace Cosmos.Ldr

open Cosmos.Lib Cosmos.Page Function

/-- `machbstart_t` with the image, the other regions and the number of entries of the memory map. -/
structure Machbstart where
  mbKrlinitstack : Nat
  mbKrlitstacksz : Nat
  mbImgpadr : Nat
  mbImgsz : Nat
  mbKrlimgpadr : Nat
  mbKrlsz : Nat
  mbBfontpadr : Nat
  mbBfontsz : Nat
  mbE820padr : Nat
  mbE820nr : Nat
  mbE820sz : Nat

def offImgpadr : Nat := 32

def u32 (n : Nat) : Nat := n % 2 ^ 32

def s32 (n : Nat) : Int := if u32 n < 2 ^ 31 then u32 n else (u32 n : Int) - 2 ^ 32

def m2mcopy (src dest : Nat) (len : Int) (mem : Nat → UInt8) : Int × (Nat → UInt8) :=
  if src = 0 ∨ dest = 0 ∨ len < 1 then (0, mem)
  else if src = dest then (len, mem)
  else if src < dest then (len, copyDown (2 ^ 32) src dest len.toNat mem)
  else (len, copyUp (2 ^ 32) src dest len.toNat mem)

/-- `chk_memsize` on the map at `padr`: the first entry that has room. -/
def chkMemsize (padr : Nat) (e8p : Nat → E820map) (enr sadr size : Nat) : Option Nat :=
  if enr = 0 ∨ padr = 0 then none
  else (List.range enr).find? fun i => decide ((e8p i).type = ramUsable ∧ (e8p i).saddr ≤ sadr ∧
    u64 (sadr + size) < u64 ((e8p i).saddr + (e8p i).lsize))

/-- What `move_krlimg` returns, and `mb_imgpadr` and memory after it. -/
structure Moved where
  ret : Int
  imgpadr : Nat
  mem : Nat → UInt8

def toAdr (adr sz : Nat) : Nat := u32 (alignUp (u64 (adr + sz)) 0x1000)

/-- `move_krlimg`; `adrzone_is_ok` of the loader is that of the kernel. -/
def moveKrlimg (mbsp : Nat) (mb : Machbstart) (e8p : Nat → E820map) (adr sz : Nat) (mem : Nat → UInt8) : Moved :=
  if sz < 1 ∨ 0xffffffff ≤ u64 (adr + sz) then ⟨0, mb.mbImgpadr, mem⟩
  else
    let toSz := s32 mb.mbImgsz
    if adrzoneIsOk mb.mbImgpadr mb.mbImgsz adr sz ≠ 0 then
      if chkMemsize (u32 mb.mbE820padr) e8p (u32 mb.mbE820nr) (toAdr adr sz) (toSz % 2 ^ 64).toNat = none then
        ⟨-1, mb.mbImgpadr, mem⟩
      else
        ⟨1, toAdr adr sz, putWord (m2mcopy (u32 mb.mbImgpadr) (toAdr adr sz) toSz mem).2 (mbsp + offImgpadr)
          (toAdr adr sz)⟩
    else ⟨2, mb.mbImgpadr, mem⟩

/-! ### The copy -/

variable {mbsp adr sz src dest n N : Nat} {len : Int} {mb : Machbstart} {e8p : Nat → E820map} {mem : Nat → UInt8}

/-- **A copy is right in both directions.** -/
theorem m2mcopy_eq (hs : src ≠ 0) (hd : dest ≠ 0) (hn : 0 < n) (hne : src ≠ dest) (hsend : src + n ≤ 2 ^ 32)
    (hdend : dest + n ≤ 2 ^ 32) : (m2mcopy src dest n mem).2 = blit (fun i => mem (src + i)) mem dest n := by
  have hdo : ¬(src = 0 ∨ dest = 0 ∨ (n : Int) < 1) := by omega
  rw [m2mcopy, if_neg hdo, if_neg hne, Int.toNat_natCast]
  split_ifs with hlt
  · exact copyDown_eq hsend hdend hlt.le
  · exact copyUp_eq hsend hdend (not_lt.mp hlt)

theorem m2mcopy_id (h : src = 0 ∨ dest = 0 ∨ len < 1 ∨ src = dest) : (m2mcopy src dest len mem).2 = mem := by
  unfold m2mcopy
  split_ifs with h1 h2
  · rfl
  · rfl
  all_goals omega

theorem m2mcopy_inv {J : (Nat → UInt8) → Prop}
    (hstep : ∀ m a b, a < 2 ^ 32 → b < 2 ^ 32 → J m → J (update m a (m b))) (h : J mem) :
    J (m2mcopy src dest len mem).2 := by
  have hstep' : ∀ m k, J m → J (update m ((dest + k) % 2 ^ 32) (m ((src + k) % 2 ^ 32))) :=
    fun m k => hstep m _ _ (Nat.mod_lt _ (by norm_num)) (Nat.mod_lt _ (by norm_num))
  unfold m2mcopy
  split_ifs
  · exact h
  · exact h
  · exact copyDown_inv hstep' _ h
  · exact copyUp_inv hstep' _ h

/-! ### Which copies leave the image as it was, whatever it is -/

def oneAt (y : Nat) : Nat → UInt8 := fun x => if x = y then 1 else 0

theorem oneAt_self (y : Nat) : oneAt y y = 1 := if_pos rfl

theorem oneAt_of_ne {x y : Nat} (h : x ≠ y) : oneAt y x = 0 := if_neg h

/-- The image is in the address space before and after the copy, and is not at `NULL`. -/
structure Fits (img dest N : Nat) : Prop where
  src_ne : img ≠ 0
  dest_ne : dest ≠ 0
  src_end : img + N ≤ 2 ^ 32
  dest_end : dest + N ≤ 2 ^ 32
  lt : N < 2 ^ 31

theorem s32_of_lt (h : N < 2 ^ 31) : s32 N = N := by
  have hmod : u32 N = N := Nat.mod_eq_of_lt (by omega)
  rw [s32, hmod, if_pos h]

theorem lt_of_one_le_s32 (h : 1 ≤ s32 N) (hle : N ≤ 2 ^ 32) : N < 2 ^ 31 := by
  unfold s32 u32 at h
  split_ifs at h <;> omega

theorem Fits.copy_eq {img : Nat} (h : Fits img dest N) (hN : 0 < N) (hne : img ≠ dest) :
    (m2mcopy (u32 img) dest (s32 N) mem).2 = blit (fun i => mem (img + i)) mem dest N := by
  have hsrc : u32 img = img := Nat.mod_eq_of_lt (by have := h.src_end; omega)
  rw [hsrc, s32_of_lt h.lt]
  exact m2mcopy_eq h.src_ne h.dest_ne hN hne h.src_end h.dest_end

theorem m2mcopy_oneAt {y : Nat} (hy : 2 ^ 32 ≤ y) {x : Nat} (hx : x ≠ y) :
    (m2mcopy src dest len (oneAt y)).2 x = 0 := by
  refine m2mcopy_inv (J := fun m => ∀ x, x ≠ y → m x = 0) (fun m a b ha hb hm x hx => ?_) (fun x => oneAt_of_ne) x hx
  by_cases hxa : x = a
  · rw [hxa, update_self]
    exact hm b (by omega)
  · rw [update_of_ne hxa]
    exact hm x hx

theorem m2mcopy_above {x : Nat} (hx : 2 ^ 32 ≤ x) : (m2mcopy src dest len mem).2 x = mem x := by
  refine m2mcopy_inv (J := fun m => m x = mem x) (fun m a b ha _ hm => ?_) rfl
  rw [update_of_ne (by omega), hm]

/-- **An image that is copied elsewhere arrives whole only if it fits.** -/
theorem fits_of_copied {img : Nat} (hN : 0 < N) (hne : img ≠ dest)
    (h : ∀ mem, ∀ i < N, (m2mcopy (u32 img) dest (s32 N) mem).2 (dest + i) = mem (img + i)) : Fits img dest N := by
  -- with one byte of the image marked, its place in the copy would have to be marked too
  have hmark : ∀ i < N, (m2mcopy (u32 img) dest (s32 N) (oneAt (img + i))).2 (dest + i) ≠ 0 := by
    intro i hi
    rw [h _ i hi, oneAt_self]
    decide
  have hplace : ∀ i, dest + i ≠ img + i := fun i => by omega
  have hdo : ¬(u32 img = 0 ∨ dest = 0 ∨ s32 N < 1 ∨ u32 img = dest) := by
    intro hid
    refine hmark 0 hN ?_
    rw [m2mcopy_id hid, oneAt_of_ne (hplace 0)]
  have hsrc : img + N ≤ 2 ^ 32 := by
    by_contra hover
    exact hmark (2 ^ 32 - img) (by omega) (m2mcopy_oneAt (by omega) (hplace _))
  have hdest : dest + N ≤ 2 ^ 32 := by
    by_contra hover
    refine hmark (2 ^ 32 - dest) (by omega) ?_
    rw [m2mcopy_above (by omega), oneAt_of_ne (hplace _)]
  refine ⟨fun himg => ?_, by omega, hsrc, hdest, lt_of_one_le_s32 (by omega) (by omega)⟩
  rw [himg] at hdo
  exact hdo (.inl rfl)

/-! ### Which descriptions are safe -/

namespace Machbstart

/-- A byte of the kernel, the memory map, the font or the initial stack. -/
def InRegion (mb : Machbstart) (x : Nat) : Prop :=
  (mb.mbKrlimgpadr ≤ x ∧ x < mb.mbKrlimgpadr + mb.mbKrlsz) ∨ (mb.mbE820padr ≤ x ∧ x < mb.mbE820padr + mb.mbE820sz) ∨
    (mb.mbBfontpadr ≤ x ∧ x < mb.mbBfontpadr + mb.mbBfontsz) ∨
    (mb.mbKrlinitstack - mb.mbKrlitstacksz ≤ x ∧ x < mb.mbKrlinitstack)

end Machbstart

def InRange (start n x : Nat) : Prop := start ≤ x ∧ x < start + n

/-- The image is what it was and is clear of the range that was asked for, and the other regions are as they were. -/
structure Safe (mb : Machbstart) (adr sz : Nat) (mem : Nat → UInt8) (r : Moved) : Prop where
  image : ∀ i < mb.mbImgsz, r.mem (r.imgpadr + i) = mem (mb.mbImgpadr + i)
  clear : ∀ x, InRange r.imgpadr mb.mbImgsz x → ¬InRange adr sz x
  regions : ∀ x, mb.InRegion x → r.mem x = mem x

def afterMove (img N dest field : Nat) (mem : Nat → UInt8) : Nat → UInt8 :=
  putWord (m2mcopy (u32 img) dest (s32 N) mem).2 field dest

/-- `mb_imgpadr` is not a part of the image, and the image is already there or fits. -/
structure Arrives (img N dest field : Nat) : Prop where
  field : ∀ x, InRange field 8 x → ¬InRange dest N x
  fits : img = dest ∨ Fits img dest N

/-- Neither `mb_imgpadr` nor the image is written over a region. -/
structure Spares (mb : Machbstart) (dest field : Nat) : Prop where
  field : ∀ x, mb.InRegion x → ¬InRange field 8 x
  dest : mb.mbImgpadr ≠ dest → ∀ x, mb.InRegion x → ¬InRange dest mb.mbImgsz x

section After

variable {img dest field : Nat}

theorem afterMove_of_outside {x : Nat} (h : ¬InRange field 8 x) :
    afterMove img N dest field mem x = (m2mcopy (u32 img) dest (s32 N) mem).2 x :=
  putWord_of_outside (by unfold InRange at h; omega)

theorem afterMove_field {x : Nat} (h : InRange field 8 x) (mem mem' : Nat → UInt8) :
    afterMove img N dest field mem x = afterMove img N dest field mem' x := by
  unfold afterMove putWord writeLE
  exact (if_pos h).trans (if_pos h).symm

theorem exists_afterMove_ne (img N dest : Nat) {x : Nat} (h : InRange field 8 x) :
    ∃ c : UInt8, afterMove img N dest field (fun _ => c) x ≠ c := by
  by_cases hzero : afterMove img N dest field (fun _ => 0) x = 0
  · refine ⟨1, ?_⟩
    rw [afterMove_field h (fun _ => 1) fun _ => 0, hzero]
    decide
  · exact ⟨0, hzero⟩

theorem copy_eq_self (hdest : dest < 2 ^ 32) (h : N = 0 ∨ img = dest) :
    (m2mcopy (u32 img) dest (s32 N) mem).2 = mem := by
  refine m2mcopy_id ?_
  rcases h with rfl | rfl
  · exact .inr (.inr (.inl (by decide)))
  · exact .inr (.inr (.inr (Nat.mod_eq_of_lt hdest)))

/-- **The image arrives, whatever its bytes**, exactly if it is empty or these conditions hold. -/
theorem image_arrives_iff (hdest : dest < 2 ^ 32) :
    (∀ mem, ∀ i < N, afterMove img N dest field mem (dest + i) = mem (img + i)) ↔ N = 0 ∨ Arrives img N dest field := by
  constructor
  · intro h
    by_cases hN : N = 0
    · exact .inl hN
    have hfield : ∀ x, InRange field 8 x → ¬InRange dest N x := by
      rintro x hx ⟨hlo, hhi⟩
      obtain ⟨c, hc⟩ := exists_afterMove_ne img N dest hx
      have hbyte := h (fun _ => c) (x - dest) (by omega)
      rw [Nat.add_sub_cancel' hlo] at hbyte
      exact hc hbyte
    refine .inr ⟨hfield, or_iff_not_imp_left.mpr fun hne => fits_of_copied (by omega) hne fun mem i hi => ?_⟩
    rw [← h mem i hi, afterMove_of_outside fun hx => hfield _ hx ⟨by omega, by omega⟩]
  · rintro (rfl | ⟨hfield, hfits⟩) mem i hi
    · exact absurd hi (Nat.not_lt_zero i)
    rw [afterMove_of_outside fun hx => hfield _ hx ⟨by omega, by omega⟩]
    by_cases hne : img = dest
    · rw [copy_eq_self hdest (.inr hne), hne]
    · rw [(hfits.resolve_left hne).copy_eq (by omega) hne, blit_add hi]

/-- **The other regions stay, whatever the image is**, exactly if they are spared. -/
theorem regions_spared_iff (hdest : dest < 2 ^ 32)
    (harrives : mb.mbImgsz = 0 ∨ Arrives mb.mbImgpadr mb.mbImgsz dest field) :
    (∀ mem, ∀ x, mb.InRegion x → afterMove mb.mbImgpadr mb.mbImgsz dest field mem x = mem x) ↔
      Spares mb dest field := by
  constructor
  · intro h
    have hfield : ∀ x, mb.InRegion x → ¬InRange field 8 x := by
      intro x hx hin
      obtain ⟨c, hc⟩ := exists_afterMove_ne mb.mbImgpadr mb.mbImgsz dest hin
      exact hc (h (fun _ => c) x hx)
    refine ⟨hfield, fun hne x hx hin => ?_⟩
    obtain ⟨hlo, hhi⟩ := hin
    -- the byte of the image that is copied to `x` is marked, and `x` is not
    have hfits := ((harrives.resolve_left (by omega)).fits).resolve_left hne
    have hbyte := h (oneAt (mb.mbImgpadr + (x - dest))) x hx
    rw [afterMove_of_outside (hfield x hx), hfits.copy_eq (by omega) hne, oneAt_of_ne (by omega),
      ← Nat.add_sub_cancel' hlo, blit_add (by omega), Nat.add_sub_cancel_left, oneAt_self] at hbyte
    exact absurd hbyte (by decide)
  · intro h mem x hx
    rw [afterMove_of_outside (h.field x hx)]
    by_cases hid : mb.mbImgsz = 0 ∨ mb.mbImgpadr = dest
    · rw [copy_eq_self hdest hid]
    · obtain ⟨hN, hne⟩ := not_or.mp hid
      have hout := h.dest hne x hx
      rw [((harrives.resolve_left hN).fits.resolve_left hne).copy_eq (by omega) hne]
      exact blit_of_outside (by unfold InRange at hout; omega)

end After

/-! ### The answers -/

/-- An image that is left in its place is clear of the range: the sum that ends the lower of the two does not wrap. -/
def Stays (mb : Machbstart) (adr sz : Nat) : Prop :=
  mb.mbImgsz = 0 ∨ (adr < mb.mbImgpadr ∧ adr + sz < 2 ^ 64) ∨
    (mb.mbImgpadr ≤ adr ∧ mb.mbImgpadr + mb.mbImgsz < 2 ^ 64)

/-- An image that is moved is clear of the range, arrives, and is not written over another region. -/
structure Moves (mbsp : Nat) (mb : Machbstart) (adr sz : Nat) : Prop where
  clear : mb.mbImgsz = 0 ∨ adr + sz ≤ 0xfffff000 ∨ toAdr adr sz + mb.mbImgsz ≤ adr
  arrives : mb.mbImgsz = 0 ∨ Arrives mb.mbImgpadr mb.mbImgsz (toAdr adr sz) (mbsp + offImgpadr)
  spares : Spares mb (toAdr adr sz) (mbsp + offImgpadr)

theorem toAdr_lt (adr sz : Nat) : toAdr adr sz < 2 ^ 32 := Nat.mod_lt _ (by norm_num)

theorem le_toAdr_iff (hsz : 1 ≤ sz) : adr + sz ≤ toAdr adr sz ↔ adr + sz ≤ 0xfffff000 := by
  unfold toAdr u32 alignUp u64
  omega

theorem moveKrlimg_cases {mem₀ : Nat → UInt8} {r : Int} (hr : r = 1 ∨ r = 2)
    (hret : (moveKrlimg mbsp mb e8p adr sz mem₀).ret = r) : 1 ≤ sz ∧
    ((r = 1 ∧ ∀ mem, moveKrlimg mbsp mb e8p adr sz mem =
        ⟨1, toAdr adr sz, afterMove mb.mbImgpadr mb.mbImgsz (toAdr adr sz) (mbsp + offImgpadr) mem⟩) ∨
      (r = 2 ∧ adrzoneIsOk mb.mbImgpadr mb.mbImgsz adr sz = 0 ∧
        ∀ mem, moveKrlimg mbsp mb e8p adr sz mem = ⟨2, mb.mbImgpadr, mem⟩)) := by
  unfold moveKrlimg at hret ⊢
  by_cases hbad : sz < 1 ∨ 0xffffffff ≤ u64 (adr + sz)
  · rw [if_pos hbad] at hret
    simp only at hret
    omega
  refine ⟨by omega, ?_⟩
  simp only [if_neg hbad] at hret ⊢
  by_cases hzone : adrzoneIsOk mb.mbImgpadr mb.mbImgsz adr sz = 0
  · rw [if_neg (not_not.mpr hzone)] at hret
    exact .inr ⟨hret.symm, hzone, fun mem => if_neg (not_not.mpr hzone)⟩
  · rw [if_pos hzone] at hret
    by_cases hroom : chkMemsize (u32 mb.mbE820padr) e8p (u32 mb.mbE820nr) (toAdr adr sz)
        (s32 mb.mbImgsz % 2 ^ 64).toNat = none
    · rw [if_pos hroom] at hret
      simp only at hret
      omega
    · rw [if_neg hroom] at hret
      exact .inl ⟨hret.symm, fun mem => (if_pos hzone).trans (if_neg hroom)⟩

theorem inRange_clear_iff {start start' n' : Nat} : (∀ x, InRange start n x → ¬InRange start' n' x) ↔
    n = 0 ∨ n' = 0 ∨ start + n ≤ start' ∨ start' + n' ≤ start := by
  unfold InRange
  constructor
  · intro h
    -- the larger of the two starts would be in both
    have hboth := h (max start start')
    omega
  · intro h x hx hin
    omega

theorem stays_iff (himg : mb.mbImgpadr < 2 ^ 64) (hadr : adr < 2 ^ 64) (hsz : 1 ≤ sz)
    (hzone : adrzoneIsOk mb.mbImgpadr mb.mbImgsz adr sz = 0) :
    (∀ x, InRange mb.mbImgpadr mb.mbImgsz x → ¬InRange adr sz x) ↔ Stays mb adr sz := by
  rw [adrzoneIsOk_eq_zero] at hzone
  rw [inRange_clear_iff]
  unfold Stays
  unfold u64 at hzone
  omega

theorem clear_toAdr_iff (hsz : 1 ≤ sz) : (∀ x, InRange (toAdr adr sz) mb.mbImgsz x → ¬InRange adr sz x) ↔
    mb.mbImgsz = 0 ∨ adr + sz ≤ 0xfffff000 ∨ toAdr adr sz + mb.mbImgsz ≤ adr := by
  rw [← le_toAdr_iff hsz, inRange_clear_iff]
  omega

/-- A request below the last page of the address space, an image that fits before and after, and nothing of it over a
region or over `mb_imgpadr`. -/
structure Ordinary (mbsp : Nat) (mb : Machbstart) (adr sz : Nat) : Prop where
  request : adr + sz ≤ 0xfffff000
  image : mb.mbImgpadr ≠ 0 ∧ mb.mbImgpadr + mb.mbImgsz ≤ 2 ^ 32 ∧ mb.mbImgsz < 2 ^ 31
  dest : toAdr adr sz + mb.mbImgsz ≤ 2 ^ 32
  regions : ∀ x, mb.InRegion x → ¬InRange (toAdr adr sz) mb.mbImgsz x ∧ ¬InRange (mbsp + offImgpadr) 8 x
  field : ∀ x, InRange (mbsp + offImgpadr) 8 x → ¬InRange (toAdr adr sz) mb.mbImgsz x

theorem Ordinary.stays (h : Ordinary mbsp mb adr sz) : Stays mb adr sz := by
  have hrequest := h.request
  have himage := h.image
  unfold Stays
  omega

theorem Ordinary.moves (h : Ordinary mbsp mb adr sz) (hsz : 1 ≤ sz) : Moves mbsp mb adr sz := by
  have hrequest := h.request
  have hbehind := (le_toAdr_iff hsz).mpr hrequest
  obtain ⟨hne, hend, hlt⟩ := h.image
  have hfits : Fits mb.mbImgpadr (toAdr adr sz) mb.mbImgsz := ⟨hne, by omega, hend, h.dest, hlt⟩
  exact ⟨.inr (.inl hrequest), .inr ⟨h.field, .inr hfits⟩, fun x hx => (h.regions x hx).2,
    fun _ x hx => (h.regions x hx).1⟩

/-- **When moving the image is safe**, whatever is in memory: exactly if an image that stays is clear of the range, and
one that is moved is so too, fits and comes over no other region. -/
theorem moveKrlimg_safe_iff (mbsp : Nat) (mb : Machbstart) (himg : mb.mbImgpadr < 2 ^ 64) (e8p : Nat → E820map)
    (adr sz : Nat) (hadr : adr < 2 ^ 64) (mem₀ : Nat → UInt8) (r : Int) (hr : r = 1 ∨ r = 2)
    (hret : (moveKrlimg mbsp mb e8p adr sz mem₀).ret = r) :
    ((∀ mem, Safe mb adr sz mem (moveKrlimg mbsp mb e8p adr sz mem)) ↔
      (r = 2 → Stays mb adr sz) ∧ (r = 1 → Moves mbsp mb adr sz)) ∧
    (Ordinary mbsp mb adr sz → ∀ mem, Safe mb adr sz mem (moveKrlimg mbsp mb e8p adr sz mem)) := by
  obtain ⟨hsz, hcase⟩ := moveKrlimg_cases hr hret
  have hiff : (∀ mem, Safe mb adr sz mem (moveKrlimg mbsp mb e8p adr sz mem)) ↔
      (r = 2 → Stays mb adr sz) ∧ (r = 1 → Moves mbsp mb adr sz) := by
    rcases hcase with ⟨rfl, hmoved⟩ | ⟨rfl, hzone, hstays⟩
    · have hdest := toAdr_lt adr sz
      simp only [hmoved]
      constructor
      · intro h
        have harrives := (image_arrives_iff hdest).mp fun mem => (h mem).image
        refine ⟨fun h12 => absurd h12 (by decide), fun _ => ⟨?_, harrives, ?_⟩⟩
        · exact (clear_toAdr_iff hsz).mp (h mem₀).clear
        · exact (regions_spared_iff hdest harrives).mp fun mem => (h mem).regions
      · rintro ⟨-, h⟩ mem
        obtain ⟨hclear, harrives, hspares⟩ := h trivial
        exact ⟨(image_arrives_iff hdest).mpr harrives mem, (clear_toAdr_iff hsz).mpr hclear,
          (regions_spared_iff hdest harrives).mpr hspares mem⟩
    · simp only [hstays]
      constructor
      · intro h
        exact ⟨fun _ => (stays_iff himg hadr hsz hzone).mp (h mem₀).clear, fun h21 => absurd h21 (by decide)⟩
      · rintro ⟨h, -⟩ mem
        exact ⟨fun i _ => rfl, (stays_iff himg hadr hsz hzone).mpr (h trivial), fun x _ => rfl⟩
  exact ⟨hiff, fun h => hiff.mpr ⟨fun _ => h.stays, fun _ => h.moves hsz⟩⟩

/-- The image where the loader builds its page tables, the kernel at 32 MiB, and the font and the memory map behind
it. -/
def imageInTheWay (imgsz : Nat) : Machbstart where
  mbKrlinitstack := ikstackPhyadr
  mbKrlitstacksz := ikstackSize
  mbImgpadr := 0x1000000
  mbImgsz := imgsz
  mbKrlimgpadr := 0x2000000
  mbKrlsz := 0x100000
  mbBfontpadr := 0x2200000
  mbBfontsz := 0x100000
  mbE820padr := 0x2400000
  mbE820nr := 1
  mbE820sz := 20

def oneRange : Nat → E820map := fun _ => ⟨0x100000, 0x7ff00000, 1⟩

theorem toAdr_tables : toAdr 0x1000000 0x12000 = 0x1012000 := by decide

/-- An image of 8 MiB is moved up by the size of the tables, over itself, and is safe there. -/
theorem moveKrlimg_safe_overlapping :
    (moveKrlimg 0x100000 (imageInTheWay 0x800000) oneRange 0x1000000 0x12000 fun _ => 0).ret = 1 ∧
    ∀ mem, Safe (imageInTheWay 0x800000) 0x1000000 0x12000 mem
      (moveKrlimg 0x100000 (imageInTheWay 0x800000) oneRange 0x1000000 0x12000 mem) := by
  have hret : (moveKrlimg 0x100000 (imageInTheWay 0x800000) oneRange 0x1000000 0x12000 fun _ => 0).ret = 1 := by decide
  refine ⟨hret, (moveKrlimg_safe_iff _ _ (by decide) _ _ _ (by decide) _ 1 (.inl rfl) hret).2 ?_⟩
  refine ⟨by decide, by decide, by decide, fun x hx => ?_, fun x hx => ?_⟩
  · rw [toAdr_tables]
    simp only [Machbstart.InRegion, imageInTheWay, ikstackPhyadr, ikstackSize] at hx
    simp only [InRange, imageInTheWay, offImgpadr]
    omega
  · rw [toAdr_tables]
    simp only [InRange, imageInTheWay, offImgpadr] at hx ⊢
    omega

def imageAtTheEnd : Machbstart := { imageInTheWay 0x1000 with mbImgpadr := 0xffffe000 }

def lowRange : Nat → E820map := fun _ => ⟨0, 0xa0000, 1⟩

/-- An image of 16 MiB is moved over the start of the kernel. And an image that is in the way of the last page of the
address space is not moved at all, though `mb_imgpadr` is `0` then. -/
theorem moveKrlimg_not_safe :
    ((moveKrlimg 0x100000 (imageInTheWay 0x1000000) oneRange 0x1000000 0x12000 (oneAt 0x1fee000)).ret = 1 ∧
      ¬Safe (imageInTheWay 0x1000000) 0x1000000 0x12000 (oneAt 0x1fee000)
        (moveKrlimg 0x100000 (imageInTheWay 0x1000000) oneRange 0x1000000 0x12000 (oneAt 0x1fee000))) ∧
    ((moveKrlimg 0x100000 imageAtTheEnd lowRange 0xfffff000 1 (oneAt 0xffffe000)).ret = 1 ∧
      (moveKrlimg 0x100000 imageAtTheEnd lowRange 0xfffff000 1 (oneAt 0xffffe000)).imgpadr = 0 ∧
      ¬Safe imageAtTheEnd 0xfffff000 1 (oneAt 0xffffe000)
        (moveKrlimg 0x100000 imageAtTheEnd lowRange 0xfffff000 1 (oneAt 0xffffe000))) := by
  have hret : (moveKrlimg 0x100000 (imageInTheWay 0x1000000) oneRange 0x1000000 0x12000 (oneAt 0x1fee000)).ret = 1 := by
    decide
  refine ⟨⟨hret, fun h => ?_⟩, by decide, by decide, fun h => ?_⟩
  · -- the first byte of the kernel was zero, and a byte of the image that is not zero is copied there
    have hbyte := h.regions 0x2000000 (.inl (by decide))
    rw [show oneAt 0x1fee000 0x2000000 = 0 by decide] at hbyte
    obtain ⟨-, ⟨-, hmoved⟩ | ⟨hbad, -⟩⟩ := moveKrlimg_cases (.inl rfl) hret
    · have hfits : Fits 0x1000000 0x1012000 0x1000000 :=
        ⟨by decide, by decide, by decide, by decide, by decide⟩
      rw [hmoved, toAdr_tables] at hbyte
      simp only [imageInTheWay, offImgpadr] at hbyte
      rw [afterMove_of_outside (by unfold InRange; decide), hfits.copy_eq (by decide) (by decide), blit,
        if_pos (by decide)] at hbyte
      exact absurd hbyte (by decide)
    · exact absurd hbad (by decide)
  · exact absurd (h.image 0 (by decide)) (by decide)

end Cosmos.Ldr
