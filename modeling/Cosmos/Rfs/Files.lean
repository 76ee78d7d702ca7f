import Cosmos.Rfs.Blocks

/-!
# The file operations

What each operation does to a well-formed device. `Current` says that a handle's buffer is the file's block as it is on
the device, `Held` only that the buffer has a header for that block: a write or a close replaces the block by the buffer
in either case, and only a current buffer has everything that was written before.
-/

namespace Cosmos.Rfs

open Cosmos.Lib Function

variable {ok : Prop} {m : Nat} {f f' : Nat → Block} {st : St} {buf : Block} {n : List UInt8}

/-! ### No such file -/

theorem DirOk.files_of_neverUsed {k : Nat} (h : DirOk (f 2) k) (hnever : neverUsed (f 2) = true) (n : List UInt8) :
    files f n = none :=
  files_eq_none fun _ hj hlive => absurd hlive (h.not_live_of_neverUsed hnever hj)

theorem DirOk.files_of_findEntry_none {k : Nat} {fname : Option (Nat → UInt8)} (h : DirOk (f 2) k)
    (hpath : (rfsRetFname fname).1 = 0) (heq : findEntry (f 2) (rfsRetFname fname).2 = none) :
    files f (pathName fname) = none := by
  have hnm : drNmMax = 104 := rfl
  have hname := length_pathName hpath
  unfold pathName at hname
  exact files_eq_none fun _ hj hlive => h.findEntry_none (by omega) heq hj hlive

/-! ### Making files -/

section New

variable {fname : Nat → UInt8}

theorem At.rfsChkfileisindev (h : At ok m f st) (hwf : WF m f) (hname : (cstr drNmMax fname).length ≤ 102) :
    Yields ok (rfsChkfileisindev st fname) fun r => At ok m f r.2 ∧
      (r.1 = 0 → ∀ j < dirMax, Live (f 2) j → entName (f 2) j ≠ cstr drNmMax fname) ∧
      (ok → cstr drNmMax fname ≠ [] → (∀ j < dirMax, Live (f 2) j → entName (f 2) j ≠ cstr drNmMax fname) →
        r.1 = 0) := by
  obtain ⟨k, hdir⟩ := hwf.dir
  have hnm : drNmMax = 104 := rfl
  unfold Rfs.rfsChkfileisindev
  split_ifs with hlen
  · refine .pure ⟨h, nofun, fun _ hne => ?_⟩
    rw [rfsStrlen_eq] at hlen
    have hpos := List.length_pos_iff.mpr hne
    omega
  · refine (h.getRootdirfileBlk hwf).bind ?_
    rintro ⟨r, st₁⟩ ⟨h₁, rfl | ⟨rfl, hfail⟩⟩
    · refine (h₁.delRootdirfileBlk_same hwf).bind fun st₂ h₂ => .pure ⟨h₂, ?_⟩
      simp only [hdir.type, ne_eq, not_true_eq_false, if_false]
      refine ⟨fun h0 j hj hlive => ?_, fun _ _ hnew => ?_⟩
      · split_ifs at h0 with hnever hfind
        · exact absurd hlive (hdir.not_live_of_neverUsed hnever hj)
        · exact hdir.findEntry_none (by omega) (Option.not_isSome_iff_eq_none.mp hfind) hj hlive
      · split_ifs with hnever hfind
        · rfl
        · obtain ⟨o, hfind⟩ := Option.isSome_iff_exists.mp hfind
          obtain ⟨j, hj, -, hlive, heq⟩ := hdir.findEntry_some (by omega) hfind
          exact absurd heq (hnew j hj hlive)
        · rfl
    · exact .pure ⟨h₁, nofun, fun hok => absurd hok hfail⟩

/-- The block `rfs_new_dirfileblk` takes off the map, 0 if it takes none. -/
def takenBlk (st : St) : Halt Nat :=
  match Rfs.newBuf st with
  | (false, _) => .ok 0
  | (true, st) => Rfs.rfsNewBlk st >>= fun r => .ok r.1

/-- What `rfs_new_dirfileblk` does to the device with the block it takes: nothing if there is none, a block taken off
the map for no entry, or the file made. If it finds its buffers, the first is for want of a free block and the second
for want of an entry. -/
inductive Created (ok : Prop) (f : Nat → Block) (fname : Nat → UInt8) : Nat → Bool → (Nat → Block) → Prop
  | refused (hused : ok → ∀ b, 2 ≤ b → b < fsysAlcblksz → f 1 b ≠ 0) : Created ok f fname 0 false f
  | lost {b : Nat} (hb : 2 ≤ b) (hlt : b < fsysAlcblksz) (hfree : f 1 b = 0) (hfull : ok → DirOk (f 2) dirMax) :
      Created ok f fname b false (mark f b 1)
  | made {b k : Nat} (hb : 2 ≤ b) (hlt : b < fsysAlcblksz) (hfree : f 1 b = 0) (hdir : DirOk (f 2) k)
      (hk : k < dirMax) : Created ok f fname b true (added f fname b)

theorem At.rfsNewDirfileblk_created (h : At ok m f st) (hwf : WF m f) (hname : (cstr drNmMax fname).length ≤ 102) :
    Yields ok (rfsNewDirfileblk st fname) fun r =>
      ∃ b f', takenBlk st = .ok b ∧ At ok m f' r.2 ∧ Created ok f fname b r.1 f' := by
  have hm : fsysAlcblksz < m := by simpa using hwf.lt_size (b := 1) (by omega)
  unfold Rfs.rfsNewDirfileblk takenBlk
  obtain ⟨st₁, h₁, hbuf | ⟨hbuf, hfail⟩⟩ := h.newBuf
  · simp only [hbuf]
    refine (h₁.rfsNewBlk hm hwf.bmpbks).self.bind ?_
    rintro ⟨b, st₂⟩ ⟨hblk, ⟨rfl, h₂, hused⟩ | ⟨hb, hlt, hfree, h₂⟩⟩
    · rw [hblk]
      exact h₂.delBuf.bind fun st₃ h₃ => .pure ⟨0, f, rfl, h₃, .refused hused⟩
    · simp only at hb hlt hfree h₂
      rw [hblk]
      have hmark := hwf.mark_used b
      have hdir2 : mark f b 1 2 = f 2 := mark_of_ne 1 (by decide)
      obtain ⟨k, hdir⟩ := hwf.dir
      obtain ⟨c, rfl⟩ : ∃ c, b = c + 1 := ⟨b - 1, by omega⟩
      simp only
      refine (h₂.getRootdirfileBlk hmark).bind ?_
      rintro ⟨r, st₃⟩ ⟨h₃, rfl | ⟨rfl, hfail⟩⟩
      · simp only [hdir2]
        have hin : (c + 1) * fsysAlcblksz < m := lt_size_of_lt_div (hwf.free_block hb hlt hfree).2.1
        split_ifs with hfull
        · -- the offset is behind the last entry
          have hk : k = dirMax := hdir.full_iff.mp hfull
          have hdel := h₃.delRootdirfileBlk_same hmark
          rw [hdir2] at hdel
          exact hdel.bind fun st₄ h₄ => h₄.delBuf.bind fun st₅ h₅ =>
            .pure ⟨c + 1, _, rfl, h₅, .lost hb hlt hfree fun _ => hk ▸ hdir⟩
        · have hk : k < dirMax := hdir.le.lt_of_ne (mt hdir.full_iff.mpr hfull)
          obtain ⟨st₄, hwrite, h₄⟩ := h₃.writeRfsdevblk (newFimgrhd fmdFilType (c + 1)) hin
          rw [hwrite]
          exact (h₄.delRootdirfileBlk (hwf.lt_size le_rfl) (hdir.addEntry (c := c + 1) hname hk)).bind
            fun st₅ h₅ => h₅.delBuf.bind fun st₆ h₆ => .pure ⟨c + 1, _, rfl, h₆, .made hb hlt hfree hdir hk⟩
      · exact h₃.delBuf.bind fun st₄ h₄ =>
          .pure ⟨c + 1, _, rfl, h₄, .lost hb hlt hfree fun hok => absurd hok hfail⟩
  · simp only [hbuf]
    exact .pure ⟨0, f, rfl, h₁, .refused fun hok => absurd hok hfail⟩

theorem Created.change {b : Nat} {r : Bool} (h : Created ok f fname b r f') (hwf : WF m f)
    (hname : (cstr drNmMax fname).length ≤ 102)
    (hnew : ∀ j < dirMax, Live (f 2) j → entName (f 2) j ≠ cstr drNmMax fname) :
    r = false ∧ Same m f f' ∨ r = true ∧ Change m f f' (cstr drNmMax fname) (some []) := by
  cases h with
  | refused _ => exact .inl ⟨rfl, hwf.same⟩
  | lost _ _ _ _ => exact .inl ⟨rfl, hwf.same_mark _⟩
  | made hb hlt hfree hdir hk => exact .inr ⟨rfl, hwf.change_added hdir hk hname hnew hb hlt hfree⟩

end New

section Paths

variable {fname : Option (Nat → UInt8)}

def Wanted (f : Nat → Block) (fname : Option (Nat → UInt8)) : Prop :=
  (rfsRetFname fname).1 = 0 ∧ pathName fname ≠ [] ∧ files f (pathName fname) = none

/-- The block `rfs_new_file` takes off the map, 0 if it takes none. -/
def claimedBlk (st : St) (fname : Option (Nat → UInt8)) : Halt Nat :=
  if (rfsRetFname fname).1 ≠ 0 then .ok 0
  else Rfs.rfsChkfileisindev st (rfsRetFname fname).2 >>= fun r => if r.1 ≠ 0 then .ok 0 else takenBlk r.2

theorem At.rfsNewFile_created (h : At ok m f st) (hwf : WF m f) (fname : Option (Nat → UInt8)) :
    Yields ok (rfsNewFile st fname) fun r => ∃ b f', claimedBlk st fname = .ok b ∧ At ok m f' r.2 ∧
      (b = 0 ∧ r.1 = false ∧ f' = f ∧ (ok → ¬ Wanted f fname) ∨
        (pathName fname).length ≤ 102 ∧ files f (pathName fname) = none ∧
          (∀ j < dirMax, Live (f 2) j → entName (f 2) j ≠ pathName fname) ∧
          Created ok f (rfsRetFname fname).2 b r.1 f') := by
  unfold Rfs.rfsNewFile claimedBlk
  split_ifs with hpath
  · exact .pure ⟨0, f, rfl, h, .inl ⟨rfl, rfl, rfl, fun _ hwant => hpath hwant.1⟩⟩
  · have hname := length_pathName (not_not.mp hpath)
    refine (h.rfsChkfileisindev hwf hname).self.bind ?_
    rintro ⟨r, st₁⟩ ⟨hchk, h₁, hnew, hzero⟩
    rw [hchk]
    simp only [Halt.ok_bind] at h₁ hnew hzero ⊢
    split_ifs with hin
    · refine .pure ⟨0, f, rfl, h₁, .inl ⟨rfl, rfl, rfl, fun hok hwant => hin (hzero hok hwant.2.1 ?_)⟩⟩
      intro j hj hlive heq
      have hfile := hwf.files_entName hj hlive
      rw [heq] at hfile
      exact Option.some_ne_none _ (hfile.symm.trans hwant.2.2)
    · have hno := hnew (not_not.mp hin)
      refine (h₁.rfsNewDirfileblk_created hwf hname).imp ?_
      rintro r ⟨b, f', htaken, h', hcreated⟩
      exact ⟨b, f', htaken, h', .inr ⟨hname, files_eq_none hno, hno, hcreated⟩⟩

/-- **`rfs_new_file`** makes an empty file of a name that no file has, or leaves all files as they are. -/
theorem At.rfsNewFile (h : At ok m f st) (hwf : WF m f) (fname : Option (Nat → UInt8)) :
    Yields ok (rfsNewFile st fname) fun r => ∃ f', At ok m f' r.2 ∧
      (r.1 = false ∧ Same m f f' ∨
        r.1 = true ∧ files f (pathName fname) = none ∧ Change m f f' (pathName fname) (some [])) := by
  refine (h.rfsNewFile_created hwf fname).imp ?_
  rintro r ⟨b, f', -, h', ⟨-, hr, rfl, -⟩ | ⟨hname, hnone, hnew, hcreated⟩⟩
  · exact ⟨_, h', .inl ⟨hr, hwf.same⟩⟩
  · refine ⟨f', h', (hcreated.change hwf hname hnew).imp_right ?_⟩
    rintro ⟨hr, hchange⟩
    exact ⟨hr, hnone, hchange⟩

theorem At.rfsDelFile_removed (h : At ok m f st) (hwf : WF m f) (fname : Option (Nat → UInt8)) :
    Yields ok (rfsDelFile st fname) fun r => ∃ f', At ok m f' r.2 ∧
      (r.1 = false ∧ f' = f ∧ (ok → (rfsRetFname fname).1 = 0 → files f (pathName fname) = none) ∨
        r.1 = true ∧ ∃ j < dirMax, Live (f 2) j ∧ entName (f 2) j = pathName fname ∧ f' = removed f j) := by
  have hm : fsysAlcblksz < m := by simpa using hwf.lt_size (b := 1) (by omega)
  obtain ⟨k, hdir⟩ := hwf.dir
  have hnm : drNmMax = 104 := rfl
  unfold Rfs.rfsDelFile
  split_ifs with hpath
  · exact .pure ⟨f, h, .inl ⟨rfl, rfl, fun _ hok => absurd hok hpath⟩⟩
  · have hname := length_pathName (not_not.mp hpath)
    have hlt : (cstr drNmMax (rfsRetFname fname).2).length < drNmMax := by
      unfold pathName at hname
      omega
    have hcore : Yields ok (delDirfileblkCore st (rfsRetFname fname).2) fun r => ∃ f', At ok m f' r.2 ∧
        (r.1 ≠ 0 ∧ f' = f ∧ (ok → files f (pathName fname) = none) ∨
          r.1 = 0 ∧ ∃ j < dirMax, Live (f 2) j ∧ entName (f 2) j = pathName fname ∧ f' = removed f j) := by
      unfold delDirfileblkCore
      refine (h.getRootdirfileBlk hwf).bind ?_
      rintro ⟨r, st₁⟩ ⟨h₁, rfl | ⟨rfl, hfail⟩⟩
      · simp only [hdir.type, ne_eq, not_true_eq_false, if_false]
        split_ifs with hnever
        · exact (h₁.delRootdirfileBlk_same hwf).bind fun st₂ h₂ =>
            .pure ⟨f, h₂, .inl ⟨Nat.succ_ne_zero _, rfl, fun _ => hdir.files_of_neverUsed hnever _⟩⟩
        · cases hfind : findEntry (f 2) (rfsRetFname fname).2 with
          | none =>
            exact (h₁.delRootdirfileBlk_same hwf).bind fun st₂ h₂ =>
              .pure ⟨f, h₂, .inl ⟨Nat.succ_ne_zero _, rfl, fun _ => hdir.files_of_findEntry_none
                (not_not.mp hpath) hfind⟩⟩
          | some o =>
            obtain ⟨j, hj, rfl, hlive, hentry⟩ := hdir.findEntry_some hlt hfind
            have hnr := hwf.nr j hj hlive
            refine (h₁.rfsDelBlk hm hwf.bmpbks (b := entBlk (f 2) j) (by omega)).bind fun st₂ h₂ => ?_
            exact (h₂.delRootdirfileBlk (hwf.lt_size le_rfl) (hdir.delEntry j)).bind fun st₃ h₃ =>
              .pure ⟨_, h₃, .inr ⟨rfl, j, hj, hlive, hentry, rfl⟩⟩
      · exact .pure ⟨f, h₁, .inl ⟨Nat.succ_ne_zero _, rfl, fun hok => absurd hok hfail⟩⟩
    refine hcore.bind ?_
    rintro ⟨r, st₁⟩ ⟨f', h', ⟨hr, hsame, hnone⟩ | ⟨hr, hremoved⟩⟩
    · exact .pure ⟨f', h', .inl ⟨decide_eq_false hr, hsame, fun hok _ => hnone hok⟩⟩
    · exact .pure ⟨f', h', .inr ⟨decide_eq_true hr, hremoved⟩⟩

/-- **`rfs_del_file`** removes a file that there is, or leaves the device as it is. -/
theorem At.rfsDelFile (h : At ok m f st) (hwf : WF m f) (fname : Option (Nat → UInt8)) :
    Yields ok (rfsDelFile st fname) fun r => ∃ f', At ok m f' r.2 ∧
      (r.1 = false ∧ f' = f ∨
        r.1 = true ∧ files f (pathName fname) ≠ none ∧ Change m f f' (pathName fname) none) := by
  refine (h.rfsDelFile_removed hwf fname).imp ?_
  rintro r ⟨f', h', ⟨hr, hsame, -⟩ | ⟨hr, j, hj, hlive, heq, rfl⟩⟩
  · exact ⟨f', h', .inl ⟨hr, hsame⟩⟩
  · have hchange := hwf.change_removed hj hlive
    have hfile := hwf.files_entName hj hlive
    rw [heq] at hchange hfile
    refine ⟨_, h', .inr ⟨hr, ?_, hchange⟩⟩
    rw [hfile]
    exact Option.some_ne_none _

/-! ### Handles -/

/-- The buffer of a handle for `n` has a header for the block of `n`. -/
def Held (f : Nat → Block) (n : List UInt8) (buf : Block) : Prop :=
  ∃ j < dirMax, Live (f 2) j ∧ entName (f 2) j = n ∧ FileOk buf (entBlk (f 2) j)

def Current (f : Nat → Block) (n : List UInt8) (buf : Block) : Prop :=
  ∃ j < dirMax, Live (f 2) j ∧ entName (f 2) j = n ∧ f (entBlk (f 2) j) = buf

theorem Current.held (h : Current f n buf) (hwf : WF m f) : Held f n buf := by
  obtain ⟨j, hj, hlive, hname, rfl⟩ := h
  exact ⟨j, hj, hlive, hname, hwf.file j hj hlive⟩

theorem Current.files_eq (h : Current f n buf) (hwf : WF m f) : files f n = some (content buf) := by
  obtain ⟨j, hj, hlive, rfl, rfl⟩ := h
  exact hwf.files_entName hj hlive

theorem Held.of_dir (h : Held f n buf) (hdir : f' 2 = f 2) : Held f' n buf := by
  unfold Held
  rw [hdir]
  exact h

theorem Held.frame {n' : List UInt8} (h : Held f n buf) (hframe : Frame f f' n') (hne : n ≠ n') : Held f' n buf := by
  obtain ⟨j, hj, hlive, rfl, hfile⟩ := h
  obtain ⟨hlive', hname, hblk, -⟩ := hframe j hj hlive hne
  refine ⟨j, hj, hlive', hname, ?_⟩
  rw [hblk]
  exact hfile

theorem Current.frame {n' : List UInt8} (h : Current f n buf) (hframe : Frame f f' n') (hne : n ≠ n') :
    Current f' n buf := by
  obtain ⟨j, hj, hlive, rfl, hbuf⟩ := h
  obtain ⟨hlive', hname, hblk, heq⟩ := hframe j hj hlive hne
  exact ⟨j, hj, hlive', hname, by rw [hblk, heq, hbuf]⟩

/-- **`rfs_openfileblk`** returns a current buffer, for every file there is. -/
theorem At.rfsOpenfileblk (h : At ok m f st) (hwf : WF m f) (fname : Option (Nat → UInt8)) :
    Yields ok (rfsOpenfileblk st fname) fun r => At ok m f r.2 ∧
      (∀ buf, r.1 = some buf → Current f (pathName fname) buf) ∧
      (ok → (rfsRetFname fname).1 = 0 → files f (pathName fname) ≠ none → r.1 ≠ none) := by
  obtain ⟨k, hdir⟩ := hwf.dir
  have hnm : drNmMax = 104 := rfl
  unfold Rfs.rfsOpenfileblk
  split_ifs with hpath
  · exact .pure ⟨h, nofun, fun _ h0 => absurd h0 hpath⟩
  · have hname := length_pathName (not_not.mp hpath)
    refine (h.getRootdirfileBlk hwf).bind ?_
    rintro ⟨r, st₁⟩ ⟨h₁, rfl | ⟨rfl, hfail⟩⟩
    · simp only [hdir.type, ne_eq, not_true_eq_false, if_false]
      split_ifs with hnever
      · refine (h₁.delRootdirfileBlk_same hwf).bind fun st₂ h₂ => .pure ⟨h₂, nofun, ?_⟩
        exact fun _ _ hfile => absurd (hdir.files_of_neverUsed hnever _) hfile
      · cases hfind : findEntry (f 2) (rfsRetFname fname).2 with
        | none =>
          refine (h₁.delRootdirfileBlk_same hwf).bind fun st₂ h₂ => .pure ⟨h₂, nofun, ?_⟩
          exact fun _ hpath hfile => absurd (hdir.files_of_findEntry_none hpath hfind) hfile
        | some o =>
          obtain ⟨j, hj, rfl, hlive, hentry⟩ := hdir.findEntry_some (by unfold pathName at hname; omega) hfind
          have hnr := hwf.nr j hj hlive
          have hfile := hwf.file j hj hlive
          have hgood : ¬ (fmdType (f (entBlk (f 2) j)) = fmdNulType ∨ fmdFileifstbkoff (f (entBlk (f 2) j)) ≠
              0x200) := by
            rw [hfile.type, hfile.fileifstbkoff]
            decide
          simp only
          obtain ⟨st₂, h₂, hbuf | ⟨hbuf, hfail⟩⟩ := h₁.newBuf
          · simp only [hbuf]
            rw [show rdrBlknr (f 2) (ent j) = entBlk (f 2) j from rfl, h₂.readRfsdevblk (lt_size_of_lt_div hnr.2.1)]
            simp only
            rw [if_neg hgood]
            refine (h₂.delRootdirfileBlk_same hwf).bind fun st₃ h₃ => .pure ⟨h₃, fun buf hsome => ?_, ?_⟩
            · exact ⟨j, hj, hlive, hentry, Option.some.inj hsome⟩
            · exact fun _ _ _ => Option.some_ne_none _
          · simp only [hbuf]
            refine (h₂.delRootdirfileBlk_same hwf).bind fun st₃ h₃ => .pure ⟨h₃, nofun, ?_⟩
            exact fun hok => absurd hok hfail
    · exact .pure ⟨h₁, nofun, fun hok => absurd hok hfail⟩

end Paths

/-- Storing a held buffer sets the file to the bytes of the buffer, which is then current. -/
theorem WF.store {j : Nat} (hwf : WF m f) (hj : j < dirMax) (hlive : Live (f 2) j) (hbuf : FileOk buf (entBlk (f 2) j))
    (h : At ok m f st) :
    ∃ f', At ok m f' ((writeRfsdevblk st buf (entBlk (f 2) j)).getD st) ∧ f' 2 = f 2 ∧
      Change m f f' (entName (f 2) j) (some (content buf)) ∧ Current f' (entName (f 2) j) buf := by
  have hnr := hwf.nr j hj hlive
  obtain ⟨st₁, hwrite, h₁⟩ := h.writeRfsdevblk buf (lt_size_of_lt_div hnr.2.1)
  have h2 : update f (entBlk (f 2) j) buf 2 = f 2 := update_of_ne (by omega) ..
  rw [hwrite]
  refine ⟨update f (entBlk (f 2) j) buf, h₁, h2, hwf.change_put hj hlive hbuf, j, hj, ?_, ?_, ?_⟩
  · simp only [h2]
    exact hlive
  · simp only [h2]
  · simp only [h2, update_self]

theorem FileOk.oneBlock {nr : Nat} (h : FileOk buf nr) : ¬ oneBlock buf = false := by
  unfold Rfs.oneBlock
  rw [h.sfblk, h.curfwritebk, h.blkstart]
  simp

theorem FileOk.rfsWritefileblk {nr : Nat} (h : FileOk buf nr) (st : St) (data : Nat → UInt8) (len : Nat) :
    (fsysAlcblksz ≤ u64 (fmdCurfinwbkoff buf + len) ∧ rfsWritefileblk st buf data len = .ok (false, buf, st)) ∨
      (2 ^ 64 ≤ fmdCurfinwbkoff buf + len ∧ ∃ e, rfsWritefileblk st buf data len = .error e) ∨
      0x200 + fmdFilesz buf + len < fsysAlcblksz ∧ rfsWritefileblk st buf data len =
        .ok (true, Rfs.appendBlk buf data len, (writeRfsdevblk st (Rfs.appendBlk buf data len) nr).getD st) := by
  have hsz : fsysAlcblksz = 0x1000 := rfl
  have hroom := h.room
  unfold Rfs.rfsWritefileblk
  rw [if_neg h.oneBlock, h.curfinwbkoff]
  split_ifs with hbig hover
  · exact .inl ⟨hbig, rfl⟩
  · refine .inr (.inl ⟨?_, _, rfl⟩)
    unfold u64 at hbig
    omega
  · have hfit : 0x200 + fmdFilesz buf + len < fsysAlcblksz := by
      unfold u64 at hbig
      omega
    refine .inr (.inr ⟨hfit, ?_⟩)
    simp only [(h.appendBlk hfit).curfwritebk]

/-- **`rfs_writefileblk`** sets the file to the bytes of the handle's buffer and the new ones, or does nothing. -/
theorem At.rfsWritefileblk (h : At ok m f st) (hwf : WF m f) (hheld : Held f n buf) (data : Nat → UInt8) (len : Nat) :
    Yields (len < 2 ^ 63) (rfsWritefileblk st buf data len) fun r =>
      r = (false, buf, st) ∨ r.1 = true ∧ ∃ f', At ok m f' r.2.2 ∧ f' 2 = f 2 ∧
        Change m f f' n (some (content buf ++ taken data len)) ∧ Current f' n r.2.1 := by
  obtain ⟨j, hj, hlive, rfl, hfile⟩ := hheld
  rcases hfile.rfsWritefileblk st data len with ⟨-, heq⟩ | ⟨hwrap, e, heq⟩ | ⟨hfit, heq⟩
  · rw [heq]
    exact .pure (.inl rfl)
  · rw [heq]
    refine .halt fun hlen => ?_
    have hroom := hfile.room
    rw [hfile.curfinwbkoff] at hwrap
    rw [show fsysAlcblksz = 0x1000 from rfl] at hroom
    omega
  · rw [heq]
    obtain ⟨f', h', hdir, hchange, hcur⟩ := hwf.store hj hlive (hfile.appendBlk hfit) h
    rw [hfile.content_appendBlk hfit] at hchange
    exact .pure (.inr ⟨rfl, f', h', hdir, hchange, hcur⟩)

/-- **`rfs_closefileblk`** sets the file to the bytes of the handle's buffer. -/
theorem At.rfsClosefileblk (h : At ok m f st) (hwf : WF m f) (hheld : Held f n buf) :
    Yields ok (rfsClosefileblk st buf) fun st' =>
      ∃ f', At ok m f' st' ∧ f' 2 = f 2 ∧ Change m f f' n (some (content buf)) := by
  obtain ⟨j, hj, hlive, rfl, hfile⟩ := hheld
  obtain ⟨f', h', hdir, hchange, -⟩ := hwf.store hj hlive hfile h
  unfold Rfs.rfsClosefileblk
  rw [hfile.sfblk]
  exact h'.delBuf.imp fun st' hst' => ⟨f', hst', hdir, hchange⟩

/-- **`rfs_readfileblk`** gives the first bytes of the handle's buffer. -/
theorem Held.rfsReadfileblk (h : Held f n buf) (len : Nat) :
    rfsReadfileblk buf len = if len ≤ 0xe00 then some ((List.range len).map fun i => buf (0x200 + i)) else none := by
  obtain ⟨j, hj, hlive, rfl, hfile⟩ := h
  have hsub : u64Sub fsysAlcblksz 0x200 = 0xe00 := by decide
  unfold Rfs.rfsReadfileblk
  rw [if_neg hfile.oneBlock, hfile.fileifstbkoff, hsub]
  by_cases hlen : len ≤ 0xe00
  · rw [if_neg (by omega), if_pos hlen]
  · rw [if_pos (by omega), if_neg hlen]

theorem take_content {len : Nat} (hlen : len ≤ (content buf).length) :
    (List.range len).map (fun i => buf (0x200 + i)) = (content buf).take len := by
  unfold content at hlen ⊢
  rw [List.length_map, List.length_range] at hlen
  rw [← List.map_take, List.take_range, Nat.min_eq_left hlen]

end Cosmos.Rfs
