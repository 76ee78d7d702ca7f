import Cosmos.Lib.Yields
import Cosmos.Rfs.Change

/-!
# Blocks, the map of used blocks and formatting

What the functions below the file operations do to a device `f` of `m` bytes. `ok` says that `krlnew` and `krldelete`
succeed; without it a function may find no buffer, and then returns with the device as it was or halts. Reading the
super block or the directory writes the same bytes back.
-/

namespace Cosmos.Rfs

open Cosmos.Lib Function

variable {ok : Prop} {m b : Nat} {f : Nat → Block} {st : St} {buf : Block}

/-- The device of a state, and that every answer of the allocator will be good if `ok`. -/
structure At (ok : Prop) (m : Nat) (f : Nat → Block) (st : St) : Prop where
  msize : st.rdeMsize = m
  blk : st.blk = f
  krl : ok → ∀ n, st.krl n = true

/-! ### Buffers and blocks -/

theorem At.next (h : At ok m f st) : At ok m f st.next :=
  ⟨h.msize, h.blk, fun hok n => h.krl hok (n + 1)⟩

theorem At.newBuf (h : At ok m f st) :
    ∃ st', At ok m f st' ∧ (newBuf st = (true, st') ∨ newBuf st = (false, st') ∧ ¬ ok) := by
  refine ⟨st.next, h.next, ?_⟩
  unfold Rfs.newBuf
  cases hkrl : st.krl 0 with
  | true => exact .inl rfl
  | false =>
    refine .inr ⟨rfl, fun hok => ?_⟩
    rw [h.krl hok 0] at hkrl
    cases hkrl

theorem At.delBuf (h : At ok m f st) : Yields ok (delBuf st) (At ok m f) := by
  unfold Rfs.delBuf
  by_cases hkrl : st.krl 0 = true
  · rw [if_pos hkrl]
    exact .pure h.next
  · rw [if_neg hkrl]
    exact .halt fun hok => hkrl (h.krl hok 0)

theorem At.readRfsdevblk (h : At ok m f st) (hb : b * fsysAlcblksz < m) : readRfsdevblk st b = some (f b) := by
  rw [Rfs.readRfsdevblk, retRfsdevblk, h.msize, h.blk, if_pos (decide_eq_true hb)]

theorem At.writeRfsdevblk (h : At ok m f st) (buf : Block) (hb : b * fsysAlcblksz < m) :
    ∃ st', writeRfsdevblk st buf b = some st' ∧ At ok m (update f b buf) st' := by
  refine ⟨{ st with blk := update st.blk b buf }, ?_, h.msize, ?_, h.krl⟩
  · rw [Rfs.writeRfsdevblk, retRfsdevblk, h.msize, if_pos (decide_eq_true hb)]
  · show update st.blk b buf = _
    rw [h.blk]

/-! ### The super block and the root directory -/

theorem At.getSuperblk (h : At ok m f st) (hm : 0 < m) :
    Yields ok (getSuperblk st) fun r => At ok m f r.2 ∧ Given ok r.1 (f 0) := by
  unfold Rfs.getSuperblk
  obtain ⟨st₁, h₁, hbuf | ⟨hbuf, hfail⟩⟩ := h.newBuf
  · rw [hbuf]
    simp only [h₁.readRfsdevblk (b := 0) (by omega)]
    exact .pure ⟨h₁, .inl rfl⟩
  · rw [hbuf]
    exact .pure ⟨h₁, .inr ⟨rfl, hfail⟩⟩

theorem At.delSuperblk (h : At ok m f st) (hm : 0 < m) (buf : Block) :
    Yields ok (delSuperblk st buf) (At ok m (update f 0 buf)) := by
  unfold Rfs.delSuperblk
  obtain ⟨st₁, hwrite, h₁⟩ := h.writeRfsdevblk buf (b := 0) (by omega)
  rw [hwrite]
  exact h₁.delBuf

theorem At.delSuperblk_same (h : At ok m f st) (hm : 0 < m) : Yields ok (Rfs.delSuperblk st (f 0)) (At ok m f) := by
  have hdel := h.delSuperblk hm (f 0)
  rwa [update_eq_self] at hdel

theorem At.getRootdir (h : At ok m f st) (hm : 0 < m) :
    Yields ok (getRootdir st) fun r => At ok m f r.2 ∧ Given ok r.1 fun i => f 0 (rsbRootdir + i) := by
  unfold Rfs.getRootdir
  refine (h.getSuperblk hm).bind ?_
  rintro ⟨r, st₁⟩ ⟨h₁, rfl | ⟨rfl, hfail⟩⟩
  · obtain ⟨st₂, h₂, hbuf | ⟨hbuf, hfail⟩⟩ := h₁.newBuf
    · simp only [hbuf]
      exact (h₂.delSuperblk_same hm).bind fun st₃ h₃ => .pure ⟨h₃, .inl rfl⟩
    · simp only [hbuf]
      exact (h₂.delSuperblk_same hm).bind fun st₃ h₃ => .pure ⟨h₃, .inr ⟨rfl, hfail⟩⟩
  · exact .pure ⟨h₁, .inr ⟨rfl, hfail⟩⟩

theorem rdrBlknr_rootdir : rdrBlknr (fun i => f 0 (rsbRootdir + i)) 0 = rdrBlknr (f 0) rsbRootdir := rfl

theorem At.getRootdirfileBlk (h : At ok m f st) (hwf : WF m f) :
    Yields ok (getRootdirfileBlk st) fun r => At ok m f r.2 ∧ Given ok r.1 (f 2) := by
  have hm : 0 < m := by simpa using hwf.lt_size (b := 0) (by omega)
  unfold Rfs.getRootdirfileBlk
  refine (h.getRootdir hm).bind ?_
  rintro ⟨r, st₁⟩ ⟨h₁, rfl | ⟨rfl, hfail⟩⟩
  · obtain ⟨st₂, h₂, hbuf | ⟨hbuf, hfail⟩⟩ := h₁.newBuf
    · simp only [hbuf, rdrBlknr_rootdir, hwf.rootdir, h₂.readRfsdevblk (hwf.lt_size le_rfl)]
      exact h₂.delBuf.bind fun st₃ h₃ => .pure ⟨h₃, .inl rfl⟩
    · simp only [hbuf]
      exact h₂.delBuf.bind fun st₃ h₃ => .pure ⟨h₃, .inr ⟨rfl, hfail⟩⟩
  · exact .pure ⟨h₁, .inr ⟨rfl, hfail⟩⟩

theorem At.delRootdirfileBlk {k : Nat} (h : At ok m f st) (hm : 2 * fsysAlcblksz < m) (hdir : DirOk buf k) :
    Yields ok (delRootdirfileBlk st buf) (At ok m (update f 2 buf)) := by
  unfold Rfs.delRootdirfileBlk
  rw [hdir.sfblk]
  obtain ⟨st₁, hwrite, h₁⟩ := h.writeRfsdevblk buf hm
  rw [hwrite]
  exact h₁.delBuf

theorem At.delRootdirfileBlk_same (h : At ok m f st) (hwf : WF m f) :
    Yields ok (Rfs.delRootdirfileBlk st (f 2)) (At ok m f) := by
  obtain ⟨k, hdir⟩ := hwf.dir
  have hdel := h.delRootdirfileBlk (hwf.lt_size le_rfl) hdir
  rwa [update_eq_self] at hdel

/-! ### The map of used blocks -/

section Bitmap

variable (hm : fsysAlcblksz < m) (hbmp : rsbBmpbks (f 0) = 1)
include hm hbmp

theorem At.getBitmapblk (h : At ok m f st) :
    Yields ok (getBitmapblk st) fun r => At ok m f r.2 ∧ Given ok r.1 (f 1) := by
  unfold Rfs.getBitmapblk
  refine (h.getSuperblk (by omega)).bind ?_
  rintro ⟨r, st₁⟩ ⟨h₁, rfl | ⟨rfl, hfail⟩⟩
  · obtain ⟨st₂, h₂, hbuf | ⟨hbuf, hfail⟩⟩ := h₁.newBuf
    · simp only [hbuf, hbmp, h₂.readRfsdevblk (b := 1) (by omega)]
      exact (h₂.delSuperblk_same (by omega)).bind fun st₃ h₃ => .pure ⟨h₃, .inl rfl⟩
    · simp only [hbuf]
      exact .pure ⟨h₂, .inr ⟨rfl, hfail⟩⟩
  · exact .pure ⟨h₁, .inr ⟨rfl, hfail⟩⟩

theorem At.delBitmapblk (h : At ok m f st) (bitmap : Block) :
    Yields ok (delBitmapblk st bitmap) (At ok m (update f 1 bitmap)) := by
  unfold Rfs.delBitmapblk
  refine (h.getSuperblk (by omega)).bind ?_
  rintro ⟨r, st₁⟩ ⟨h₁, rfl | ⟨rfl, hfail⟩⟩
  · obtain ⟨st₂, hwrite, h₂⟩ := h₁.writeRfsdevblk bitmap (b := 1) (by omega)
    simp only [hbmp, hwrite]
    have hsame : update f 1 bitmap 0 = f 0 := update_of_ne (by decide) ..
    have hdel := h₂.delSuperblk_same (by omega)
    rw [hsame] at hdel
    exact hdel.bind fun st₃ h₃ => h₃.delBuf
  · exact .halt hfail

omit hm hbmp in
theorem newBlkLoop_spec (bitmap : Block) (n : Nat) : ∀ blknr,
    (newBlkLoop bitmap n blknr = (0, bitmap) ∧ ∀ b, blknr ≤ b → b < blknr + n → bitmap b ≠ 0) ∨
    ∃ b, blknr ≤ b ∧ b < blknr + n ∧ bitmap b = 0 ∧
      newBlkLoop bitmap n blknr = (b, update bitmap b 1) := by
  induction n with
  | zero => exact fun blknr => .inl ⟨rfl, fun b hlo hhi => by omega⟩
  | succ n ih =>
    intro blknr
    rw [newBlkLoop]
    by_cases hfree : bitmap blknr = 0
    · rw [if_pos hfree]
      exact .inr ⟨blknr, le_rfl, by omega, hfree, rfl⟩
    · rw [if_neg hfree]
      refine (ih (blknr + 1)).imp ?_ ?_
      · rintro ⟨hloop, hused⟩
        refine ⟨hloop, fun b hlo hhi => ?_⟩
        rcases Nat.eq_or_lt_of_le hlo with rfl | hlo
        · exact hfree
        · exact hused b hlo (by omega)
      · rintro ⟨b, hlo, hhi, hrest⟩
        exact ⟨b, by omega, by omega, hrest⟩

theorem At.rfsNewBlk (h : At ok m f st) :
    Yields ok (rfsNewBlk st) fun r =>
      (r.1 = 0 ∧ At ok m f r.2 ∧ (ok → ∀ b, 2 ≤ b → b < fsysAlcblksz → f 1 b ≠ 0)) ∨
      2 ≤ r.1 ∧ r.1 < fsysAlcblksz ∧ f 1 r.1 = 0 ∧ At ok m (mark f r.1 1) r.2 := by
  have hsz : fsysAlcblksz = 0x1000 := rfl
  unfold Rfs.rfsNewBlk
  refine (h.getBitmapblk hm hbmp).bind ?_
  rintro ⟨r, st₁⟩ ⟨h₁, rfl | ⟨rfl, hfail⟩⟩
  · simp only
    refine (h₁.delBitmapblk hm hbmp _).bind fun st₂ h₂ => .pure ?_
    rcases newBlkLoop_spec (f 1) (fsysAlcblksz - 2) 2 with ⟨hloop, hused⟩ | ⟨b, hlo, hhi, hfree, hloop⟩
    · rw [hloop, update_eq_self] at h₂
      exact .inl ⟨congrArg Prod.fst hloop, h₂, fun _ b hlo hhi => hused b hlo (by omega)⟩
    · rw [hloop] at h₂ ⊢
      exact .inr ⟨hlo, by omega, hfree, h₂⟩
  · exact .pure (.inl ⟨rfl, h₁, fun hok => absurd hok hfail⟩)

theorem At.rfsDelBlk (h : At ok m f st) (hb : b ≤ fsysAlcblksz) :
    Yields ok (rfsDelBlk st b) (At ok m (mark f b 0)) := by
  unfold Rfs.rfsDelBlk
  rw [if_neg (by omega)]
  refine (h.getBitmapblk hm hbmp).bind ?_
  rintro ⟨r, st₁⟩ ⟨h₁, rfl | ⟨rfl, hfail⟩⟩
  · exact h₁.delBitmapblk hm hbmp _
  · exact .halt hfail

end Bitmap

/-! ### Formatting -/

section Format

variable {g : Nat → Block}

/-- Devices `rfs_fmat` can format: three blocks are needed, and a block has a byte for each. -/
structure Sized (m : Nat) : Prop where
  lo : 3 ≤ m / fsysAlcblksz
  hi : m / fsysAlcblksz ≤ fsysAlcblksz

theorem Sized.lt (h : Sized m) (hb : b ≤ 2) : b * fsysAlcblksz < m :=
  lt_size_of_lt_div (by have := h.lo; omega)

def firstSuperblk (m : Nat) : Block := putWord (rfssublkTInit zeros) 80 (m / fsysAlcblksz)

def firstBitmap (m : Nat) : Block := clearLoop (m / fsysAlcblksz - 2) 2 fun _ => 1

def formatted (m : Nat) (g : Nat → Block) : Nat → Block :=
  update (update (update (update (update g 0 (firstSuperblk m)) 1
    (firstBitmap m)) 1 (update (firstBitmap m) 2 1)) 2 (newFimgrhd fmdDirType 2)) 0
      (setRootdir (firstSuperblk m) 2)

theorem clearLoop_of_lt (n : Nat) : ∀ {bi} {bm : Block} {i}, i < bi → clearLoop n bi bm i = bm i := by
  induction n with
  | zero => exact fun _ => rfl
  | succ n ih =>
    intro bi bm i hi
    rw [clearLoop, ih (by omega), update_of_ne (by omega)]

theorem clearLoop_of_mem (n : Nat) : ∀ {bi} {bm : Block} {i}, bi ≤ i → i < bi + n → clearLoop n bi bm i = 0 := by
  induction n with
  | zero =>
    intro bi bm i hlo hhi
    omega
  | succ n ih =>
    intro bi bm i hlo hhi
    rw [clearLoop]
    rcases Nat.eq_or_lt_of_le hlo with rfl | hlo
    · rw [clearLoop_of_lt n (by omega), update_self]
    · exact ih hlo (by omega)

theorem clearLoop_of_ge (n : Nat) : ∀ {bi} {bm : Block} {i}, bi + n ≤ i → clearLoop n bi bm i = bm i := by
  induction n with
  | zero => exact fun _ => rfl
  | succ n ih =>
    intro bi bm i hi
    rw [clearLoop, ih (by omega), update_of_ne (by omega)]

theorem rsbBmpbks_firstSuperblk : rsbBmpbks (firstSuperblk m) = 1 := by
  unfold firstSuperblk rfssublkTInit rsbBmpbks rfsdirTInit rsbRootdir
  simp (disch := decide) only [getWord_putWord_of_apart, getWord_blit_of_apart, getWord_putWord_self]

theorem rsbFsysallblk_firstSuperblk (h : m / fsysAlcblksz < 2 ^ 64) :
    rsbFsysallblk (firstSuperblk m) = m / fsysAlcblksz := getWord_putWord_self h

theorem rsbBmpbks_setRootdir (sbp : Block) (b : Nat) : rsbBmpbks (setRootdir sbp b) = rsbBmpbks sbp := by
  apply getWord_congr
  intro i hlo hhi
  unfold setRootdir rsbRootdir
  rw [putWord_of_outside (by omega), putWord_of_outside (by omega), update_of_ne (by omega)]

theorem At.createSuperblk (h : At ok m g st) (hm : 0 < m) :
    Yields ok (createSuperblk st) fun r =>
      (r.1 = true ∧ At ok m (update g 0 (firstSuperblk m)) r.2) ∨ (r.1 = false ∧ ¬ ok) := by
  unfold Rfs.createSuperblk
  obtain ⟨st₁, h₁, hbuf | ⟨hbuf, hfail⟩⟩ := h.newBuf
  · obtain ⟨st₂, hwrite, h₂⟩ := h₁.writeRfsdevblk (firstSuperblk m) (b := 0) (by omega)
    have hmax : retRfsdevmaxblknr st₁ = m / fsysAlcblksz := congrArg (· / fsysAlcblksz) h₁.msize
    simp only [hbuf, hmax]
    rw [show putWord (rfssublkTInit zeros) 80 (m / fsysAlcblksz) = firstSuperblk m from rfl, hwrite]
    exact h₂.delBuf.bind fun st₃ h₃ => .pure (.inl ⟨rfl, h₃⟩)
  · rw [hbuf]
    exact .pure (.inr ⟨rfl, hfail⟩)

theorem At.createBitmap (h : At ok m g st) (hsized : Sized m) (h0 : g 0 = firstSuperblk m) :
    Yields ok (createBitmap st) fun r =>
      (r.1 = true ∧ At ok m (update g 1 (firstBitmap m)) r.2) ∨ (r.1 = false ∧ ¬ ok) := by
  have hm : 0 < m := by simpa using hsized.lt (b := 0) (by omega)
  have hhi := hsized.hi
  have hsz : fsysAlcblksz = 0x1000 := rfl
  unfold Rfs.createBitmap
  refine (h.getSuperblk hm).bind ?_
  rintro ⟨r, st₁⟩ ⟨h₁, rfl | ⟨rfl, hfail⟩⟩
  · obtain ⟨st₂, h₂, hbuf | ⟨hbuf, hfail⟩⟩ := h₁.newBuf
    · obtain ⟨st₃, hwrite, h₃⟩ := h₂.writeRfsdevblk (firstBitmap m) (hsized.lt (b := 1) (by omega))
      have hall : rsbFsysallblk (firstSuperblk m) = m / fsysAlcblksz := rsbFsysallblk_firstSuperblk (by omega)
      simp only [hbuf, h0, hall, rsbBmpbks_firstSuperblk]
      rw [if_neg (by omega), show clearLoop (m / fsysAlcblksz - 2) 2 (fun _ => 1) = firstBitmap m from rfl, hwrite]
      have hdel := h₃.delSuperblk_same hm
      rw [update_of_ne (by decide), h0] at hdel
      exact hdel.bind fun st₄ h₄ => h₄.delBuf.bind fun st₅ h₅ => .pure (.inl ⟨rfl, h₅⟩)
    · simp only [hbuf]
      exact .pure (.inr ⟨rfl, hfail⟩)
  · exact .pure (.inr ⟨rfl, hfail⟩)

theorem firstBitmap_two (hsized : Sized m) : firstBitmap m 2 = 0 :=
  clearLoop_of_mem _ le_rfl (by have := hsized.lo; omega)

theorem newBlkLoop_firstBitmap (hsized : Sized m) (n : Nat) :
    newBlkLoop (firstBitmap m) (n + 1) 2 = (2, update (firstBitmap m) 2 1) := by
  rw [newBlkLoop, if_pos (firstBitmap_two hsized)]

theorem At.createRootdir (h : At ok m g st) (hsized : Sized m) (h0 : g 0 = firstSuperblk m) (h1 : g 1 = firstBitmap m) :
    Yields ok (createRootdir st) fun r =>
      (r.1 = true ∧ At ok m (update (update (mark g 2 1) 2 (newFimgrhd fmdDirType 2)) 0
        (setRootdir (firstSuperblk m) 2)) r.2) ∨ (r.1 = false ∧ ¬ ok) := by
  have hm : 0 < m := by simpa using hsized.lt (b := 0) (by omega)
  have hbmp : rsbBmpbks (g 0) = 1 := h0 ▸ rsbBmpbks_firstSuperblk
  have hm1 : fsysAlcblksz < m := by simpa using hsized.lt (b := 1) (by omega)
  unfold Rfs.createRootdir
  refine (h.getSuperblk hm).bind ?_
  rintro ⟨r, st₁⟩ ⟨h₁, rfl | ⟨rfl, hfail⟩⟩
  · obtain ⟨st₂, h₂, hbuf | ⟨hbuf, hfail⟩⟩ := h₁.newBuf
    · simp only [hbuf]
      -- the block is the first free one, which is block 2, unless the map could not be read
      have hnew : Yields ok (Rfs.rfsNewBlk st₂) fun r => (r.1 = 2 ∧ At ok m (mark g 2 1) r.2) ∨
          (r.1 = 0 ∧ At ok m g r.2 ∧ ¬ ok) := by
        unfold Rfs.rfsNewBlk
        refine (h₂.getBitmapblk hm1 hbmp).bind ?_
        rintro ⟨r, st₃⟩ ⟨h₃, rfl | ⟨rfl, hfail⟩⟩
        · have hloop : newBlkLoop (g 1) (fsysAlcblksz - 2) 2 = (2, update (g 1) 2 1) := by
            rw [h1]
            exact newBlkLoop_firstBitmap hsized _
          simp only [hloop]
          exact (h₃.delBitmapblk hm1 hbmp _).bind fun st₄ h₄ => .pure (.inl ⟨rfl, h₄⟩)
        · exact .pure (.inr ⟨rfl, h₃, hfail⟩)
      refine hnew.bind ?_
      rintro ⟨r, st₃⟩ (⟨rfl, h₃⟩ | ⟨rfl, h₃, hfail⟩)
      · obtain ⟨st₄, hwrite, h₄⟩ := h₃.writeRfsdevblk (newFimgrhd fmdDirType 2) (hsized.lt (b := 2) le_rfl)
        simp only [hwrite, h0]
        exact h₄.delBuf.bind fun st₅ h₅ => (h₅.delSuperblk hm _).bind fun st₆ h₆ => .pure (.inl ⟨rfl, h₆⟩)
      · simp only
        exact h₃.delBuf.bind fun st₄ h₄ => (h₄.delSuperblk_same hm).bind fun st₅ _ => .pure (.inr ⟨rfl, hfail⟩)
    · simp only [hbuf]
      exact (h₂.delSuperblk_same hm).bind fun st₃ _ => .pure (.inr ⟨rfl, hfail⟩)
  · exact .pure (.inr ⟨rfl, hfail⟩)

theorem At.rfsFmat (h : At ok m g st) (hsized : Sized m) : Yields ok (rfsFmat st) (At ok m (formatted m g)) := by
  have hm : 0 < m := by simpa using hsized.lt (b := 0) (by omega)
  unfold Rfs.rfsFmat
  refine (h.createSuperblk hm).bind ?_
  rintro ⟨r, st₁⟩ (⟨rfl, h₁⟩ | ⟨rfl, hfail⟩)
  · simp only [Bool.true_eq_false, if_false]
    refine (h₁.createBitmap hsized (update_self ..)).bind ?_
    rintro ⟨r, st₂⟩ (⟨rfl, h₂⟩ | ⟨rfl, hfail⟩)
    · simp only [Bool.true_eq_false, if_false]
      have h0 : update (update g 0 (firstSuperblk m)) 1 (firstBitmap m) 0 = firstSuperblk m := by
        rw [update_of_ne (by decide), update_self]
      refine (h₂.createRootdir hsized h0 (update_self ..)).bind ?_
      rintro ⟨r, st₃⟩ (⟨rfl, h₃⟩ | ⟨rfl, hfail⟩)
      · simp only [Bool.true_eq_false, if_false]
        rw [mark, update_self] at h₃
        exact .pure h₃
      · exact .halt hfail
    · exact .halt hfail
  · exact .halt hfail

theorem formatted_one (m : Nat) (g : Nat → Block) : formatted m g 1 = update (firstBitmap m) 2 1 := by
  rw [formatted, update_of_ne (by decide), update_of_ne (by decide), update_self]

theorem formatted_two (m : Nat) (g : Nat → Block) : formatted m g 2 = newFimgrhd fmdDirType 2 := by
  rw [formatted, update_of_ne (by decide), update_self]

theorem not_live_formatted (m : Nat) (g : Nat → Block) {j : Nat} (hj : j < dirMax) : ¬ Live (formatted m g 2) j := by
  rw [formatted_two]
  exact dirOk_newFimgrhd.fresh j (Nat.zero_le _) hj

/-- **A formatted device is well formed.** -/
theorem wf_formatted (hsized : Sized m) (g : Nat → Block) : WF m (formatted m g) := by
  have h0 : formatted m g 0 = setRootdir (firstSuperblk m) 2 := update_self ..
  have hdead : ∀ {j}, j < dirMax → ¬ Live (formatted m g 2) j := not_live_formatted m g
  constructor
  · exact hsized.lo
  · rw [h0, rsbBmpbks_setRootdir, rsbBmpbks_firstSuperblk]
  · rw [h0]
    exact getWord_putWord_self (by decide)
  · rw [formatted_two]
    exact ⟨0, dirOk_newFimgrhd⟩
  · rw [formatted_one, update_self]
    decide
  · intro b hlo _
    have h3 := hsized.lo
    rw [formatted_one, update_of_ne (by omega), firstBitmap, clearLoop_of_ge _ (by omega)]
    decide
  · exact fun j hj hlive => absurd hlive (hdead hj)
  · exact fun j hj hlive => absurd hlive (hdead hj)
  · exact fun i hi j hj hlive => absurd hlive (hdead hi)
  · exact fun i hi j hj hlive => absurd hlive (hdead hi)

theorem files_formatted (m : Nat) (g : Nat → Block) (n : List UInt8) : files (formatted m g) n = none := by
  apply files_eq_none
  intro j hj hlive
  exact absurd hlive (not_live_formatted m g hj)

end Format

end Cosmos.Rfs
