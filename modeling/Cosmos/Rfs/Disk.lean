import Cosmos.Rfs.Model

/-!
# What is on the device

A device `f` (block number to block) is well formed when its super block names the map and the root directory, and each
entry of a file names a block of its own that the map has as used and that holds a file header for that very block.
`files` reads the names and contents off it.
-/

namespace Cosmos.Rfs

open Cosmos.Lib Function

variable {m k j i b o : Nat} {f : Nat → Block} {dir buf : Block} {fname : Nat → UInt8}

/-! ### Strings -/

theorem rfsStrlen_eq (n : Nat) : ∀ s, rfsStrlen n s = (cstr n s).length := by
  induction n with
  | zero => exact fun _ => rfl
  | succ n ih =>
    intro s
    rw [rfsStrlen, cstr]
    split_ifs
    · rfl
    · rw [ih, List.length_cons]

theorem rfsStrcmp_iff (n : Nat) : ∀ {s d}, (cstr n d).length < n → (rfsStrcmp n s d = true ↔ cstr n s = cstr n d) := by
  induction n with
  | zero => exact fun h => absurd h (Nat.not_lt_zero _)
  | succ n ih =>
    intro s d h
    rw [rfsStrcmp, cstr, cstr]
    by_cases hsd : s 0 = d 0
    · rw [if_neg (not_not.mpr hsd), hsd]
      by_cases hd : d 0 = 0
      · simp [hd]
      · rw [cstr, if_neg hd, List.length_cons] at h
        simp only [hd, if_false, List.cons.injEq, true_and]
        exact ih (Nat.lt_of_succ_lt_succ h)
    · rw [if_pos hsd]
      by_cases hs : s 0 = 0
      · have hd : d 0 ≠ 0 := fun hd => hsd (hs.trans hd.symm)
        simp [hs, hd]
      · by_cases hd : d 0 = 0 <;> simp [hs, hd, hsd]

theorem rfsStrcpy_eq (n : Nat) : ∀ {s d o}, (cstr n s).length < n →
    rfsStrcpy n s d o = blit s d o ((cstr n s).length + 1) := by
  induction n with
  | zero => exact fun h => absurd h (Nat.not_lt_zero _)
  | succ n ih =>
    intro s d o h
    rw [rfsStrcpy, cstr]
    split_ifs with h0
    · funext i
      by_cases hi : i = o
      · subst hi
        rw [update_self, blit, if_pos ⟨by omega, by simp⟩, Nat.sub_self, h0]
      · rw [update_of_ne hi, blit_of_outside (by simp only [List.length_nil]; omega)]
    · rw [cstr, if_neg h0, List.length_cons] at h
      rw [ih (Nat.lt_of_succ_lt_succ h), List.length_cons]
      generalize (cstr n fun i => s (i + 1)).length = len
      funext i
      by_cases hlt : i < o
      · rw [blit_of_outside (by omega), blit_of_outside (by omega), update_of_ne (by omega)]
      · by_cases hi : i = o
        · subst hi
          rw [blit_of_outside (by omega), update_self, blit, if_pos ⟨le_rfl, by omega⟩, Nat.sub_self]
        · by_cases hout : o + len + 2 ≤ i
          · rw [blit_of_outside (by omega), blit_of_outside (by omega), update_of_ne hi]
          · rw [blit, blit, if_pos ⟨by omega, by omega⟩, if_pos ⟨by omega, by omega⟩]
            rw [show i - (o + 1) + 1 = i - o by omega]

/-! ### Paths -/

theorem chkfilepathLoop_zero (chp : Nat → UInt8) (n : Nat) : ∀ {i}, chkfilepathLoop chp n i = 0 →
    ∃ k, i ≤ k ∧ 1 < k ∧ k < drNmMax ∧ chp k = 0 := by
  induction n with
  | zero =>
    intro i h
    cases h
  | succ n ih =>
    intro i h
    rw [chkfilepathLoop] at h
    split_ifs at h with h1 h2 h3
    · exact ⟨i, le_rfl, h3.2, by omega, h3.1⟩
    · obtain ⟨k, hk, hrest⟩ := ih h
      exact ⟨k, by omega, hrest⟩

def pathName (fname : Option (Nat → UInt8)) : List UInt8 := cstr drNmMax (rfsRetFname fname).2

theorem length_pathName {fname : Option (Nat → UInt8)} (h : (rfsRetFname fname).1 = 0) :
    (pathName fname).length ≤ 102 := by
  cases fname with
  | none => cases h
  | some p =>
    unfold pathName
    rw [rfsRetFname] at h ⊢
    by_cases hchk : rfsChkfilepath p = 0
    · rw [if_neg (not_not.mpr hchk)]
      unfold rfsChkfilepath at hchk
      split_ifs at hchk with h0
      obtain ⟨k, -, hk1, hk, hz⟩ := chkfilepathLoop_zero p _ hchk
      have hnm : drNmMax = 104 := rfl
      have hz' : (fun i => p (i + 1)) (k - 1) = 0 := by
        simp only
        rw [show k - 1 + 1 = k by omega]
        exact hz
      have hlen : (cstr drNmMax fun i => p (i + 1)).length ≤ k - 1 := length_cstr_le_of_zero drNmMax hz'
      rw [rfsStrcpy_eq drNmMax (by omega)]
      have hcopy : cstr drNmMax (blit (fun i => p (i + 1)) zeros 0 ((cstr drNmMax fun i => p (i + 1)).length + 1)) =
          cstr drNmMax fun i => p (i + 1) := by
        apply cstr_congr
        intro i hi _
        rw [blit, if_pos ⟨by omega, by omega⟩]
        rfl
      rw [hcopy]
      omega
    · rw [if_pos hchk] at h
      exact absurd h hchk

/-! ### Entries -/

def dirMax : Nat := 28

def ent (j : Nat) : Nat := 0x200 + 128 * j

def Live (dir : Block) (j : Nat) : Prop := rdrType dir (ent j) = rdrFilType

instance (dir : Block) (j : Nat) : Decidable (Live dir j) := inferInstanceAs (Decidable (_ = _))

def entName (dir : Block) (j : Nat) : List UInt8 := cstr drNmMax (rdrName dir (ent j))

def entBlk (dir : Block) (j : Nat) : Nat := rdrBlknr dir (ent j)

/-- A directory header, with `k` entries made so far. -/
structure DirOk (dir : Block) (k : Nat) : Prop where
  type : fmdType dir = fmdDirType
  sfblk : fmdSfblk dir = 2
  curfwritebk : fmdCurfwritebk dir = 2
  blkstart : fbBlkstart dir = 2
  fileifstbkoff : fmdFileifstbkoff dir = 0x200
  curfinwbkoff : fmdCurfinwbkoff dir = ent k
  le : k ≤ dirMax
  fresh : ∀ j, k ≤ j → j < dirMax → ¬ Live dir j

theorem DirOk.full_iff {dir : Block} {k : Nat} (h : DirOk dir k) : fsysAlcblksz ≤ fmdCurfinwbkoff dir ↔ k = dirMax := by
  have hle := h.le
  rw [h.curfinwbkoff, ent, fsysAlcblksz]
  unfold dirMax at hle ⊢
  omega

/-- A file header for block `nr`. -/
structure FileOk (buf : Block) (nr : Nat) : Prop where
  type : fmdType buf = fmdFilType
  sfblk : fmdSfblk buf = nr
  curfwritebk : fmdCurfwritebk buf = nr
  blkstart : fbBlkstart buf = nr
  fileifstbkoff : fmdFileifstbkoff buf = 0x200
  curfinwbkoff : fmdCurfinwbkoff buf = 0x200 + fmdFilesz buf
  room : 0x200 + fmdFilesz buf < fsysAlcblksz

/-- What the headers of files and of the directory have in common: the words that no operation changes once `fimgrhd_t`
is made. -/
structure Header (buf : Block) (type nr : Nat) : Prop where
  type : fmdType buf = type
  sfblk : fmdSfblk buf = nr
  curfwritebk : fmdCurfwritebk buf = nr
  blkstart : fbBlkstart buf = nr
  fileifstbkoff : fmdFileifstbkoff buf = 0x200

theorem DirOk.header {k : Nat} (h : DirOk dir k) : Header dir fmdDirType 2 := { h with }

theorem FileOk.header {nr : Nat} (h : FileOk dir nr) : Header dir fmdFilType nr := { h with }

theorem Header.of_words {buf buf' : Block} {type nr : Nat} (h : Header buf type nr)
    (hword : ∀ {o}, o + 8 ≤ 0x200 → (o + 8 ≤ 64 ∨ 72 ≤ o) → (o + 8 ≤ 96 ∨ 104 ≤ o) → getWord buf' o = getWord buf o) :
    Header buf' type nr where
  type := (hword (by decide) (by decide) (by decide)).trans h.type
  sfblk := (hword (by decide) (by decide) (by decide)).trans h.sfblk
  curfwritebk := (hword (by decide) (by decide) (by decide)).trans h.curfwritebk
  blkstart := (hword (by decide) (by decide) (by decide)).trans h.blkstart
  fileifstbkoff := (hword (by decide) (by decide) (by decide)).trans h.fileifstbkoff

theorem scanDir_spec (hname : (cstr drNmMax fname).length < drNmMax) (n : Nat) : ∀ {j}, dirMax ≤ j + n →
    (∀ o, scanDir dir fname n (ent j) = some o →
      ∃ i < dirMax, o = ent i ∧ Live dir i ∧ entName dir i = cstr drNmMax fname) ∧
    (scanDir dir fname n (ent j) = none → ∀ i, j ≤ i → i < dirMax → Live dir i →
      entName dir i ≠ cstr drNmMax fname) := by
  have hmax : dirMax = 28 := rfl
  have hsz : fsysAlcblksz = 0x1000 := rfl
  induction n with
  | zero =>
    intro j hj
    refine ⟨fun o ho => ?_, fun _ i hji hi => ?_⟩
    · cases ho
    · omega
  | succ n ih =>
    intro j hj
    rw [scanDir]
    by_cases hend : fsysAlcblksz - 1 ≤ ent j
    · rw [if_pos hend]
      refine ⟨fun o ho => ?_, fun _ i hji hi => ?_⟩
      · cases ho
      · unfold ent at hend
        omega
    · rw [if_neg hend]
      have hlt : j < dirMax := by
        unfold ent at hend
        omega
      by_cases hhit : rdrType dir (ent j) = rdrFilType ∧ rfsStrcmp drNmMax (rdrName dir (ent j)) fname = true
      · rw [if_pos hhit]
        refine ⟨fun o ho => ?_, fun h => ?_⟩
        · exact ⟨j, hlt, (Option.some.inj ho).symm, hhit.1, (rfsStrcmp_iff drNmMax hname).mp hhit.2⟩
        · cases h
      · rw [if_neg hhit, show ent j + sizeofRfsdir = ent (j + 1) from rfl]
        obtain ⟨hsome, hnone⟩ := ih (j := j + 1) (by omega)
        refine ⟨hsome, fun h i hji hi hlive heq => ?_⟩
        rcases Nat.eq_or_lt_of_le hji with rfl | hji
        · exact hhit ⟨hlive, (rfsStrcmp_iff drNmMax hname).mpr heq⟩
        · exact hnone h i hji hi hlive heq

theorem DirOk.findEntry_some (h : DirOk dir k) (hname : (cstr drNmMax fname).length < drNmMax)
    (heq : findEntry dir fname = some o) :
    ∃ j < dirMax, o = ent j ∧ Live dir j ∧ entName dir j = cstr drNmMax fname := by
  unfold findEntry at heq
  rw [h.fileifstbkoff] at heq
  exact (scanDir_spec hname _ (j := 0) (by decide)).1 o heq

theorem DirOk.findEntry_none (h : DirOk dir k) (hname : (cstr drNmMax fname).length < drNmMax)
    (heq : findEntry dir fname = none) (hj : j < dirMax) (hlive : Live dir j) :
    entName dir j ≠ cstr drNmMax fname := by
  unfold findEntry at heq
  rw [h.fileifstbkoff] at heq
  exact (scanDir_spec hname _ (j := 0) (by decide)).2 heq j (Nat.zero_le _) hj hlive

theorem DirOk.not_live_of_neverUsed (h : DirOk dir k) (hnever : neverUsed dir = true) (hj : j < dirMax) :
    ¬ Live dir j := by
  unfold neverUsed at hnever
  rw [h.curfinwbkoff, h.fileifstbkoff] at hnever
  have hk := (of_decide_eq_true hnever).2
  unfold ent at hk
  exact h.fresh j (by omega) hj

/-! ### Well-formed devices -/

structure WF (m : Nat) (f : Nat → Block) : Prop where
  size : 3 ≤ m / fsysAlcblksz
  bmpbks : rsbBmpbks (f 0) = 1
  rootdir : rdrBlknr (f 0) rsbRootdir = 2
  dir : ∃ k, DirOk (f 2) k
  used : f 1 2 ≠ 0
  beyond : ∀ b, m / fsysAlcblksz ≤ b → b < fsysAlcblksz → f 1 b ≠ 0
  nr : ∀ j < dirMax, Live (f 2) j → 3 ≤ entBlk (f 2) j ∧ entBlk (f 2) j < m / fsysAlcblksz ∧
    entBlk (f 2) j < fsysAlcblksz ∧ f 1 (entBlk (f 2) j) ≠ 0
  file : ∀ j < dirMax, Live (f 2) j → FileOk (f (entBlk (f 2) j)) (entBlk (f 2) j)
  blk_inj : ∀ i < dirMax, ∀ j < dirMax, Live (f 2) i → Live (f 2) j → entBlk (f 2) i = entBlk (f 2) j → i = j
  name_inj : ∀ i < dirMax, ∀ j < dirMax, Live (f 2) i → Live (f 2) j → entName (f 2) i = entName (f 2) j → i = j

theorem WF.lt_size (h : WF m f) (hb : b ≤ 2) : b * fsysAlcblksz < m := by
  have hsize := h.size
  have hsz : fsysAlcblksz = 0x1000 := rfl
  rw [hsz] at hsize ⊢
  omega

theorem lt_size_of_lt_div (hb : b < m / fsysAlcblksz) : b * fsysAlcblksz < m := by
  have hsz : fsysAlcblksz = 0x1000 := rfl
  rw [hsz] at hb ⊢
  omega

def content (buf : Block) : List UInt8 := (List.range (fmdFilesz buf)).map fun i => buf (0x200 + i)

def slot (dir : Block) (n : List UInt8) : Option Nat :=
  (List.range dirMax).find? fun j => decide (Live dir j ∧ entName dir j = n)

def files (f : Nat → Block) (n : List UInt8) : Option (List UInt8) :=
  (slot (f 2) n).map fun j => content (f (entBlk (f 2) j))

theorem slot_some {n : List UInt8} (h : slot dir n = some j) : j < dirMax ∧ Live dir j ∧ entName dir j = n := by
  have hhit := List.find?_some h
  simp only [decide_eq_true_eq] at hhit
  exact ⟨List.mem_range.mp (List.mem_of_find?_eq_some h), hhit⟩

theorem slot_eq_none_iff {n : List UInt8} :
    slot dir n = none ↔ ∀ j < dirMax, Live dir j → entName dir j ≠ n := by
  unfold slot
  rw [List.find?_eq_none]
  simp only [List.mem_range, decide_eq_true_eq, not_and, ne_eq]

theorem WF.slot_entName (h : WF m f) (hj : j < dirMax) (hlive : Live (f 2) j) :
    slot (f 2) (entName (f 2) j) = some j := by
  cases hslot : slot (f 2) (entName (f 2) j) with
  | none => exact absurd rfl (slot_eq_none_iff.mp hslot j hj hlive)
  | some i =>
    obtain ⟨hi, hlive', hname⟩ := slot_some hslot
    exact congrArg some (h.name_inj i hi j hj hlive' hlive hname)

theorem files_eq_none {n : List UInt8} (h : ∀ j < dirMax, Live (f 2) j → entName (f 2) j ≠ n) : files f n = none := by
  unfold files
  rw [slot_eq_none_iff.mpr h]
  rfl

theorem WF.files_entName (h : WF m f) (hj : j < dirMax) (hlive : Live (f 2) j) :
    files f (entName (f 2) j) = some (content (f (entBlk (f 2) j))) := by
  unfold files
  rw [h.slot_entName hj hlive]
  rfl

theorem files_eq_of_entries {g : Nat → Block} {n : List UInt8} (h : WF m f) (h' : WF m g)
    (hent : ∀ j < dirMax, Live (g 2) j ∧ entName (g 2) j = n ↔ Live (f 2) j ∧ entName (f 2) j = n)
    (hcont : ∀ j < dirMax, Live (f 2) j → entName (f 2) j = n →
      content (g (entBlk (g 2) j)) = content (f (entBlk (f 2) j))) : files g n = files f n := by
  by_cases hex : ∃ j < dirMax, Live (f 2) j ∧ entName (f 2) j = n
  · obtain ⟨j, hj, hlive, hname⟩ := hex
    obtain ⟨hlive', hname'⟩ := (hent j hj).mpr ⟨hlive, hname⟩
    have hf := h.files_entName hj hlive
    have hg := h'.files_entName hj hlive'
    rw [hname] at hf
    rw [hname'] at hg
    rw [hf, hg, hcont j hj hlive hname]
  · rw [files_eq_none fun j hj hlive heq => hex ⟨j, hj, hlive, heq⟩]
    exact files_eq_none fun j hj hlive heq => hex ⟨j, hj, (hent j hj).mp ⟨hlive, heq⟩⟩

theorem files_congr {g : Nat → Block} (hdir : g 2 = f 2)
    (h : ∀ j < dirMax, Live (f 2) j → content (g (entBlk (f 2) j)) = content (f (entBlk (f 2) j))) :
    files g = files f := by
  funext n
  unfold files
  rw [hdir]
  cases hslot : slot (f 2) n with
  | none => rw [Option.map_none, Option.map_none]
  | some i =>
    obtain ⟨hi, hlive, -⟩ := slot_some hslot
    rw [Option.map_some, Option.map_some, h i hi hlive]

/-! ### A block marked as used -/

def mark (f : Nat → Block) (b : Nat) (v : UInt8) : Nat → Block := update f 1 (update (f 1) b v)

@[simp] theorem mark_one (v : UInt8) : mark f b v 1 = update (f 1) b v := update_self ..

theorem mark_of_ne (v : UInt8) (h : i ≠ 1) : mark f b v i = f i := update_of_ne h ..

theorem WF.mark_used (h : WF m f) (b : Nat) : WF m (mark f b 1) := by
  have hbit : ∀ {i}, f 1 i ≠ 0 → mark f b 1 1 i ≠ 0 := by
    intro i hi
    rw [mark_one]
    by_cases hib : i = b
    · rw [hib, update_self]
      decide
    · rwa [update_of_ne hib]
  have h2 : mark f b 1 2 = f 2 := mark_of_ne 1 (by decide)
  have h0 : mark f b 1 0 = f 0 := mark_of_ne 1 (by decide)
  constructor
  · exact h.size
  · rw [h0]
    exact h.bmpbks
  · rw [h0]
    exact h.rootdir
  · rw [h2]
    exact h.dir
  · exact hbit h.used
  · exact fun b hlo hhi => hbit (h.beyond b hlo hhi)
  · rw [h2]
    intro j hj hlive
    obtain ⟨h3, hmax, hsz, hused⟩ := h.nr j hj hlive
    exact ⟨h3, hmax, hsz, hbit hused⟩
  · rw [h2]
    intro j hj hlive
    rw [mark_of_ne 1 (by have := (h.nr j hj hlive).1; omega)]
    exact h.file j hj hlive
  · rw [h2]
    exact h.blk_inj
  · rw [h2]
    exact h.name_inj

theorem WF.files_mark (h : WF m f) (b : Nat) (v : UInt8) : files (mark f b v) = files f := by
  refine files_congr (mark_of_ne v (by decide)) fun j hj hlive => ?_
  rw [mark_of_ne v (by have := (h.nr j hj hlive).1; omega)]

/-! ### A file's block replaced -/

theorem WF.put_blk (h : WF m f) (hb : 3 ≤ b) (hbuf : FileOk buf b) : WF m (update f b buf) := by
  have hlow : ∀ {i}, i ≤ 2 → update f b buf i = f i := fun hi => update_of_ne (by omega) ..
  have h0 := hlow (i := 0) (by omega)
  have h1 := hlow (i := 1) (by omega)
  have h2 := hlow (i := 2) (by omega)
  constructor
  · exact h.size
  · rw [h0]
    exact h.bmpbks
  · rw [h0]
    exact h.rootdir
  · rw [h2]
    exact h.dir
  · rw [h1]
    exact h.used
  · rw [h1]
    exact h.beyond
  · rw [h1, h2]
    exact h.nr
  · rw [h2]
    intro i hi hlive
    by_cases hib : entBlk (f 2) i = b
    · rw [hib, update_self]
      exact hbuf
    · rw [update_of_ne hib]
      exact h.file i hi hlive
  · rw [h2]
    exact h.blk_inj
  · rw [h2]
    exact h.name_inj

theorem WF.put (h : WF m f) (hj : j < dirMax) (hlive : Live (f 2) j) (hbuf : FileOk buf (entBlk (f 2) j)) :
    WF m (update f (entBlk (f 2) j) buf) :=
  h.put_blk (h.nr j hj hlive).1 hbuf

theorem WF.files_put (h : WF m f) (hj : j < dirMax) (hlive : Live (f 2) j) :
    files (update f (entBlk (f 2) j) buf) =
      update (files f) (entName (f 2) j) (some (content buf)) := by
  have h3 := (h.nr j hj hlive).1
  have h2 : update f (entBlk (f 2) j) buf 2 = f 2 := update_of_ne (by omega) ..
  funext n
  by_cases hn : n = entName (f 2) j
  · rw [hn, update_self]
    unfold files
    rw [h2, h.slot_entName hj hlive, Option.map_some, update_self]
  · rw [update_of_ne hn]
    unfold files
    rw [h2]
    cases hslot : slot (f 2) n with
    | none => rw [Option.map_none, Option.map_none]
    | some i =>
      obtain ⟨hi, hlive', hname⟩ := slot_some hslot
      rw [Option.map_some, Option.map_some, update_of_ne]
      intro heq
      rw [h.blk_inj i hi j hj hlive' hlive heq] at hname
      exact hn hname.symm

end Cosmos.Rfs
