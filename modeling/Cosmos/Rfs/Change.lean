import Cosmos.Rfs.Disk

/-!
# How the operations change the device

A file is made by marking a free block, writing a header to it and adding an entry; it is deleted by clearing its mark
and its entry; bytes are appended in a copy of its block. Each keeps the device well formed, and `files` changes at that
one name.
-/

namespace Cosmos.Rfs

open Cosmos.Lib Function

variable {m k j i b o : Nat} {f : Nat → Block} {dir buf : Block} {fname : Nat → UInt8}

/-! ### Headers -/

section Headers

variable {type : Nat}

theorem getWord_newFimgrhd_of_zero (ho : o = 64 ∨ 120 ≤ o) : getWord (newFimgrhd type b) o = 0 := by
  unfold newFimgrhd fimgrhdTInit
  simp (disch := omega) only [getWord_putWord_of_apart]
  apply getWord_zero
  intro i _ _
  unfold blit
  split_ifs <;> rfl

theorem header_newFimgrhd (ht : type < 2 ^ 64) (hb : b < 2 ^ 64) : Header (newFimgrhd type b) type b := by
  constructor
  · unfold newFimgrhd fmdType
    simp (disch := omega) only [getWord_putWord_of_apart, getWord_putWord_self]
  · unfold newFimgrhd fmdSfblk
    simp (disch := omega) only [getWord_putWord_of_apart, getWord_putWord_self]
  · unfold newFimgrhd fmdCurfwritebk
    simp (disch := omega) only [getWord_putWord_of_apart, getWord_putWord_self]
  · unfold newFimgrhd fbBlkstart
    simp (disch := omega) only [getWord_putWord_of_apart, getWord_putWord_self]
  · unfold newFimgrhd fimgrhdTInit fmdFileifstbkoff
    simp (disch := omega) only [getWord_putWord_of_apart, getWord_putWord_self]

theorem curfinwbkoff_newFimgrhd : fmdCurfinwbkoff (newFimgrhd type b) = 0x200 := by
  unfold newFimgrhd fmdCurfinwbkoff
  simp (disch := omega) only [getWord_putWord_of_apart, getWord_putWord_self]

theorem fileOk_newFimgrhd (hb : b < 2 ^ 64) : FileOk (newFimgrhd fmdFilType b) b := by
  have hsize : fmdFilesz (newFimgrhd fmdFilType b) = 0 := getWord_newFimgrhd_of_zero (.inl rfl)
  refine { header_newFimgrhd (by decide) hb with curfinwbkoff := ?_, room := ?_ }
  · rw [hsize, curfinwbkoff_newFimgrhd]
  · rw [hsize]
    decide

theorem dirOk_newFimgrhd : DirOk (newFimgrhd fmdDirType 2) 0 := by
  refine { header_newFimgrhd (by decide) (by decide) with
    curfinwbkoff := curfinwbkoff_newFimgrhd, le := ?_, fresh := ?_ }
  · exact Nat.zero_le _
  · intro j _ _ hlive
    have hzero : rdrType (newFimgrhd fmdDirType 2) (ent j) = 0 := by
      apply getWord_newFimgrhd_of_zero
      unfold ent
      omega
    rw [Live, hzero] at hlive
    cases hlive

theorem content_newFimgrhd : content (newFimgrhd type b) = [] := by
  unfold content fmdFilesz
  rw [getWord_newFimgrhd_of_zero (.inl rfl)]
  rfl

end Headers

/-! ### An entry added -/

section Add

variable {c : Nat}

theorem DirOk.addEntry_of_outside (h : DirOk dir k) (hname : (cstr drNmMax fname).length ≤ 102)
    (h1 : i < ent k ∨ ent k + sizeofRfsdir ≤ i) (h2 : i < 64 ∨ 72 ≤ i) (h3 : i < 96 ∨ 104 ≤ i) :
    addEntry dir fname c i = dir i := by
  have hsz : sizeofRfsdir = 128 := rfl
  have hnm : drNmMax = 104 := rfl
  unfold addEntry
  simp only [h.curfinwbkoff]
  rw [putWord_of_outside (by omega), putWord_of_outside (by omega), rfsStrcpy_eq drNmMax (by omega),
    blit_of_outside (by omega), putWord_of_outside (by omega), putWord_of_outside (by omega),
    putWord_of_outside (by omega)]

theorem DirOk.getWord_addEntry (h : DirOk dir k) (hname : (cstr drNmMax fname).length ≤ 102)
    (h1 : o + 8 ≤ ent k ∨ ent k + sizeofRfsdir ≤ o) (h2 : o + 8 ≤ 64 ∨ 72 ≤ o) (h3 : o + 8 ≤ 96 ∨ 104 ≤ o) :
    getWord (addEntry dir fname c) o = getWord dir o :=
  getWord_congr fun i hlo hhi => h.addEntry_of_outside hname (by omega) (by omega) (by omega)

theorem DirOk.rdrType_addEntry (h : DirOk dir k) (hname : (cstr drNmMax fname).length ≤ 102) :
    rdrType (addEntry dir fname c) (ent k) = rdrFilType := by
  have hnm : drNmMax = 104 := rfl
  have hent : ent k = 0x200 + 128 * k := rfl
  unfold addEntry rdrType
  simp only [h.curfinwbkoff]
  rw [rfsStrcpy_eq drNmMax (by omega)]
  simp (disch := omega) only [getWord_putWord_of_apart, getWord_blit_of_apart]
  exact getWord_putWord_self (by decide)

theorem DirOk.rdrBlknr_addEntry (h : DirOk dir k) (hname : (cstr drNmMax fname).length ≤ 102) (hb : c < 2 ^ 64) :
    rdrBlknr (addEntry dir fname c) (ent k) = c := by
  have hnm : drNmMax = 104 := rfl
  have hent : ent k = 0x200 + 128 * k := rfl
  unfold addEntry rdrBlknr
  simp only [h.curfinwbkoff]
  rw [rfsStrcpy_eq drNmMax (by omega)]
  simp (disch := omega) only [getWord_putWord_of_apart, getWord_blit_of_apart]
  exact getWord_putWord_self hb

theorem DirOk.entName_addEntry (h : DirOk dir k) (hname : (cstr drNmMax fname).length ≤ 102) :
    entName (addEntry dir fname c) k = cstr drNmMax fname := by
  have hnm : drNmMax = 104 := rfl
  have hent : ent k = 0x200 + 128 * k := rfl
  apply cstr_congr
  intro i hi _
  unfold addEntry rdrName
  simp only [h.curfinwbkoff]
  rw [putWord_of_outside (by omega), putWord_of_outside (by omega), rfsStrcpy_eq drNmMax (by omega),
    blit_add (by omega)]

theorem DirOk.entry_addEntry (h : DirOk dir k) (hname : (cstr drNmMax fname).length ≤ 102) (hj : j ≠ k) :
    (Live (addEntry dir fname c) j ↔ Live dir j) ∧ entBlk (addEntry dir fname c) j = entBlk dir j ∧
      entName (addEntry dir fname c) j = entName dir j := by
  have hsz : sizeofRfsdir = 128 := rfl
  have hnm : drNmMax = 104 := rfl
  have hk : ent k = 0x200 + 128 * k := rfl
  have hj' : ent j = 0x200 + 128 * j := rfl
  refine ⟨?_, ?_, ?_⟩
  · unfold Live rdrType
    rw [h.getWord_addEntry hname (by omega) (by omega) (by omega)]
  · exact h.getWord_addEntry hname (by omega) (by omega) (by omega)
  · apply cstr_congr
    intro i _ hi
    exact h.addEntry_of_outside hname (by omega) (by omega) (by omega)

theorem DirOk.addEntry (h : DirOk dir k) (hname : (cstr drNmMax fname).length ≤ 102) (hk : k < dirMax) :
    DirOk (addEntry dir fname c) (k + 1) := by
  have hent : ent k = 0x200 + 128 * k := rfl
  have hnm : drNmMax = 104 := rfl
  have hmax : dirMax = 28 := rfl
  have hheader : Header (Rfs.addEntry dir fname c) fmdDirType 2 :=
    h.header.of_words fun ho h2 h3 => h.getWord_addEntry hname (by omega) h2 h3
  refine { hheader with curfinwbkoff := ?_, le := ?_, fresh := ?_ }
  · have hcur : fmdCurfinwbkoff dir = ent k := h.curfinwbkoff
    unfold Rfs.addEntry
    simp only [hcur]
    have hold : ∀ g v, fmdCurfinwbkoff (putWord (rfsStrcpy drNmMax fname (putWord (putWord (putWord dir (ent k) 0)
        (ent k + 8) rdrFilType) (ent k + 16) g) (ent k + 24)) 64 v) = ent k := by
      intro g v
      unfold fmdCurfinwbkoff
      rw [rfsStrcpy_eq drNmMax (by omega)]
      simp (disch := omega) only [getWord_putWord_of_apart, getWord_blit_of_apart]
      exact hcur
    have hnew : u64 (ent k + sizeofRfsdir) = ent (k + 1) := by
      have hsz : sizeofRfsdir = 128 := rfl
      unfold u64 ent
      omega
    rw [hold, hnew]
    apply getWord_putWord_self
    unfold ent
    omega
  · exact hk
  · intro j hkj hj hlive
    rw [(h.entry_addEntry hname (by omega)).1] at hlive
    exact h.fresh j (by omega) hj hlive

def added (f : Nat → Block) (fname : Nat → UInt8) (b : Nat) : Nat → Block :=
  update (update (mark f b 1) b (newFimgrhd fmdFilType b)) 2 (Rfs.addEntry (f 2) fname b)

theorem WF.free_block (h : WF m f) (hb : 2 ≤ b) (hlt : b < fsysAlcblksz) (hfree : f 1 b = 0) :
    3 ≤ b ∧ b < m / fsysAlcblksz ∧ ∀ j < dirMax, Live (f 2) j → entBlk (f 2) j ≠ b := by
  refine ⟨?_, ?_, ?_⟩
  · have hne : b ≠ 2 := fun heq => h.used (heq ▸ hfree)
    omega
  · by_contra hge
    exact h.beyond b (by omega) hlt hfree
  · intro j hj hlive heq
    exact (h.nr j hj hlive).2.2.2 (heq ▸ hfree)

theorem added_two (f : Nat → Block) (fname : Nat → UInt8) (b : Nat) :
    added f fname b 2 = Rfs.addEntry (f 2) fname b := update_self ..

theorem added_self (f : Nat → Block) (fname : Nat → UInt8) (hb : b ≠ 2) :
    added f fname b b = newFimgrhd fmdFilType b := by
  rw [added, update_of_ne hb, update_self]

theorem added_of_ne (f : Nat → Block) (fname : Nat → UInt8) (h2 : i ≠ 2) (hb : i ≠ b) :
    added f fname b i = mark f b 1 i := by
  rw [added, update_of_ne h2, update_of_ne hb]

theorem WF.added (h : WF m f) (hdir : DirOk (f 2) k) (hk : k < dirMax) (hname : (cstr drNmMax fname).length ≤ 102)
    (hnew : ∀ j < dirMax, Live (f 2) j → entName (f 2) j ≠ cstr drNmMax fname)
    (hb : 2 ≤ b) (hlt : b < fsysAlcblksz) (hfree : f 1 b = 0) : WF m (added f fname b) := by
  obtain ⟨h3, hmax, hother⟩ := h.free_block hb hlt hfree
  have hsz : fsysAlcblksz = 0x1000 := rfl
  have hmark := h.mark_used b
  have h0 : Rfs.added f fname b 0 = f 0 := by
    rw [added_of_ne f fname (by omega) (by omega), mark_of_ne 1 (by omega)]
  have h1 : Rfs.added f fname b 1 = mark f b 1 1 := added_of_ne f fname (by omega) (by omega)
  have hself : Live (Rfs.addEntry (f 2) fname b) k ∧ entBlk (Rfs.addEntry (f 2) fname b) k = b ∧
      entName (Rfs.addEntry (f 2) fname b) k = cstr drNmMax fname :=
    ⟨hdir.rdrType_addEntry hname, hdir.rdrBlknr_addEntry hname (by omega), hdir.entName_addEntry hname⟩
  have hold := fun {j : Nat} (hj : j ≠ k) => hdir.entry_addEntry (c := b) hname hj
  constructor
  · exact h.size
  · rw [h0]
    exact h.bmpbks
  · rw [h0]
    exact h.rootdir
  · rw [added_two]
    exact ⟨k + 1, hdir.addEntry hname hk⟩
  · rw [h1]
    exact hmark.used
  · rw [h1]
    exact hmark.beyond
  · rw [added_two, h1]
    intro j hj hlive
    by_cases hjk : j = k
    · subst hjk
      rw [hself.2.1, mark_one, update_self]
      exact ⟨h3, hmax, hlt, by decide⟩
    · rw [(hold hjk).2.1]
      have hlive' := (hold hjk).1.mp hlive
      have hnr := hmark.nr j hj
      rw [mark_of_ne 1 (by decide)] at hnr
      exact hnr hlive'
  · rw [added_two]
    intro j hj hlive
    by_cases hjk : j = k
    · subst hjk
      rw [hself.2.1, added_self f fname (by omega)]
      exact fileOk_newFimgrhd (by omega)
    · have hlive' := (hold hjk).1.mp hlive
      have hnr := h.nr j hj hlive'
      rw [(hold hjk).2.1, added_of_ne f fname (by omega) (hother j hj hlive'), mark_of_ne 1 (by omega)]
      exact h.file j hj hlive'
  · rw [added_two]
    intro i hi j hj hli hlj heq
    by_cases hik : i = k
    · by_cases hjk : j = k
      · rw [hik, hjk]
      · rw [hik, hself.2.1, (hold hjk).2.1] at heq
        exact absurd heq.symm (hother j hj ((hold hjk).1.mp hlj))
    · by_cases hjk : j = k
      · rw [hjk, hself.2.1, (hold hik).2.1] at heq
        exact absurd heq (hother i hi ((hold hik).1.mp hli))
      · rw [(hold hik).2.1, (hold hjk).2.1] at heq
        exact h.blk_inj i hi j hj ((hold hik).1.mp hli) ((hold hjk).1.mp hlj) heq
  · rw [added_two]
    intro i hi j hj hli hlj heq
    by_cases hik : i = k
    · by_cases hjk : j = k
      · rw [hik, hjk]
      · rw [hik, hself.2.2, (hold hjk).2.2] at heq
        exact absurd heq.symm (hnew j hj ((hold hjk).1.mp hlj))
    · by_cases hjk : j = k
      · rw [hjk, hself.2.2, (hold hik).2.2] at heq
        exact absurd heq (hnew i hi ((hold hik).1.mp hli))
      · rw [(hold hik).2.2, (hold hjk).2.2] at heq
        exact h.name_inj i hi j hj ((hold hik).1.mp hli) ((hold hjk).1.mp hlj) heq

theorem WF.files_added (h : WF m f) (hdir : DirOk (f 2) k) (hk : k < dirMax)
    (hname : (cstr drNmMax fname).length ≤ 102)
    (hnew : ∀ j < dirMax, Live (f 2) j → entName (f 2) j ≠ cstr drNmMax fname)
    (hb : 2 ≤ b) (hlt : b < fsysAlcblksz) (hfree : f 1 b = 0) :
    files (Rfs.added f fname b) = update (files f) (cstr drNmMax fname) (some []) := by
  obtain ⟨h3, -, hother⟩ := h.free_block hb hlt hfree
  have hsz : fsysAlcblksz = 0x1000 := rfl
  have hwf := h.added hdir hk hname hnew hb hlt hfree
  funext n
  by_cases hn : n = cstr drNmMax fname
  · have hlive : Live (Rfs.added f fname b 2) k := by
      rw [added_two]
      exact hdir.rdrType_addEntry hname
    have hfile := hwf.files_entName hk hlive
    rw [added_two, hdir.entName_addEntry hname, entBlk, hdir.rdrBlknr_addEntry hname (by omega),
      added_self f fname (by omega), content_newFimgrhd] at hfile
    rw [hn, update_self]
    exact hfile
  · rw [update_of_ne hn]
    apply files_eq_of_entries h hwf
    · intro j hj
      rw [added_two]
      by_cases hjk : j = k
      · subst hjk
        rw [hdir.entName_addEntry hname]
        constructor
        · exact fun hboth => absurd hboth.2.symm hn
        · exact fun hboth => absurd hboth.1 (hdir.fresh j le_rfl hj)
      · obtain ⟨hlive, -, heq⟩ := hdir.entry_addEntry (c := b) hname hjk
        rw [hlive, heq]
    · intro j hj hlive _
      have hjk : j ≠ k := fun heq => hdir.fresh j heq.ge hj hlive
      have hnr := h.nr j hj hlive
      rw [added_two, (hdir.entry_addEntry (c := b) hname hjk).2.1,
        added_of_ne f fname (by omega) (hother j hj hlive), mark_of_ne 1 (by omega)]

end Add

/-! ### An entry removed -/

section Remove

theorem delEntry_of_outside (h : i < o ∨ o + sizeofRfsdir ≤ i) : delEntry dir o i = dir i := by
  have hsz : sizeofRfsdir = 128 := rfl
  unfold delEntry rfsdirTInit
  rw [putWord_of_outside (by omega), blit_of_outside (by omega)]

theorem getWord_delEntry {o' : Nat} (h : o' + 8 ≤ o ∨ o + sizeofRfsdir ≤ o') :
    getWord (delEntry dir o) o' = getWord dir o' :=
  getWord_congr fun i hlo hhi => delEntry_of_outside (by omega)

theorem not_live_delEntry : ¬ Live (delEntry dir (ent j)) j := by
  have htype : rdrType (delEntry dir (ent j)) (ent j) = rdrDelType := getWord_putWord_self (by decide)
  rw [Live, htype]
  decide

theorem entry_delEntry (hij : i ≠ j) :
    (Live (delEntry dir (ent j)) i ↔ Live dir i) ∧ entBlk (delEntry dir (ent j)) i = entBlk dir i ∧
      entName (delEntry dir (ent j)) i = entName dir i := by
  have hsz : sizeofRfsdir = 128 := rfl
  have hnm : drNmMax = 104 := rfl
  have hi : ent i = 0x200 + 128 * i := rfl
  have hj : ent j = 0x200 + 128 * j := rfl
  refine ⟨?_, ?_, ?_⟩
  · unfold Live rdrType
    rw [getWord_delEntry (by omega)]
  · exact getWord_delEntry (by omega)
  · apply cstr_congr
    intro n _ hn
    exact delEntry_of_outside (by omega)

theorem DirOk.delEntry (h : DirOk dir k) (j : Nat) : DirOk (delEntry dir (ent j)) k := by
  have hent : ent j = 0x200 + 128 * j := rfl
  have hword : ∀ {o}, o + 8 ≤ 0x200 → getWord (Rfs.delEntry dir (ent j)) o = getWord dir o :=
    fun ho => getWord_delEntry (by omega)
  have hheader : Header (Rfs.delEntry dir (ent j)) fmdDirType 2 := h.header.of_words fun ho _ _ => hword ho
  refine { hheader with curfinwbkoff := ?_, le := h.le, fresh := ?_ }
  · exact (hword (by decide)).trans h.curfinwbkoff
  · intro i hki hi hlive
    by_cases hij : i = j
    · subst hij
      exact not_live_delEntry hlive
    · exact h.fresh i hki hi ((entry_delEntry hij).1.mp hlive)

def removed (f : Nat → Block) (j : Nat) : Nat → Block :=
  update (mark f (entBlk (f 2) j) 0) 2 (Rfs.delEntry (f 2) (ent j))

theorem removed_two (f : Nat → Block) (j : Nat) : removed f j 2 = Rfs.delEntry (f 2) (ent j) :=
  update_self ..

theorem removed_of_ne (f : Nat → Block) (j : Nat) (h1 : i ≠ 1) (h2 : i ≠ 2) : removed f j i = f i := by
  rw [removed, update_of_ne h2, mark_of_ne 0 h1]

theorem removed_one (f : Nat → Block) (j : Nat) : removed f j 1 = update (f 1) (entBlk (f 2) j) 0 := by
  rw [removed, update_of_ne (by decide), mark_one]

theorem live_removed (h : Live (removed f j 2) i) : i ≠ j ∧ Live (f 2) i := by
  rw [removed_two] at h
  have hij : i ≠ j := by
    rintro rfl
    exact not_live_delEntry h
  exact ⟨hij, (entry_delEntry hij).1.mp h⟩

theorem WF.removed (h : WF m f) (hj : j < dirMax) (hlive : Live (f 2) j) : WF m (removed f j) := by
  obtain ⟨k, hdir⟩ := h.dir
  obtain ⟨h3, hmax, -, -⟩ := h.nr j hj hlive
  have h0 : Rfs.removed f j 0 = f 0 := removed_of_ne f j (by decide) (by decide)
  have hbit : ∀ {b}, b ≠ entBlk (f 2) j → f 1 b ≠ 0 → Rfs.removed f j 1 b ≠ 0 := by
    intro b hne hb
    rwa [removed_one, update_of_ne hne]
  constructor
  · exact h.size
  · rw [h0]
    exact h.bmpbks
  · rw [h0]
    exact h.rootdir
  · rw [removed_two]
    exact ⟨k, hdir.delEntry j⟩
  · exact hbit (by omega) h.used
  · exact fun b hlo hhi => hbit (by omega) (h.beyond b hlo hhi)
  · intro i hi hlive'
    obtain ⟨hij, hold⟩ := live_removed hlive'
    rw [removed_two, (entry_delEntry hij).2.1]
    obtain ⟨hi3, himax, hisz, hiused⟩ := h.nr i hi hold
    exact ⟨hi3, himax, hisz, hbit (fun heq => hij (h.blk_inj i hi j hj hold hlive heq)) hiused⟩
  · intro i hi hlive'
    obtain ⟨hij, hold⟩ := live_removed hlive'
    have hi3 := (h.nr i hi hold).1
    rw [removed_two, (entry_delEntry hij).2.1, removed_of_ne f j (by omega) (by omega)]
    exact h.file i hi hold
  · intro i hi i' hi' hli hli' heq
    obtain ⟨hij, hold⟩ := live_removed hli
    obtain ⟨hij', hold'⟩ := live_removed hli'
    rw [removed_two, (entry_delEntry hij).2.1, (entry_delEntry hij').2.1] at heq
    exact h.blk_inj i hi i' hi' hold hold' heq
  · intro i hi i' hi' hli hli' heq
    obtain ⟨hij, hold⟩ := live_removed hli
    obtain ⟨hij', hold'⟩ := live_removed hli'
    rw [removed_two, (entry_delEntry hij).2.2, (entry_delEntry hij').2.2] at heq
    exact h.name_inj i hi i' hi' hold hold' heq

theorem WF.files_removed (h : WF m f) (hj : j < dirMax) (hlive : Live (f 2) j) :
    files (Rfs.removed f j) = update (files f) (entName (f 2) j) none := by
  have hwf := h.removed hj hlive
  funext n
  by_cases hn : n = entName (f 2) j
  · rw [hn, update_self]
    apply files_eq_none
    intro i hi hli heq
    obtain ⟨hij, hold⟩ := live_removed hli
    rw [removed_two, (entry_delEntry hij).2.2] at heq
    exact hij (h.name_inj i hi j hj hold hlive heq)
  · rw [update_of_ne hn]
    apply files_eq_of_entries h hwf
    · intro i hi
      by_cases hij : i = j
      · subst hij
        constructor
        · exact fun hboth => absurd rfl (live_removed hboth.1).1
        · exact fun hboth => absurd hboth.2.symm hn
      · rw [removed_two, (entry_delEntry hij).1, (entry_delEntry hij).2.2]
    · intro i hi hli hname
      have hij : i ≠ j := by
        rintro rfl
        exact hn hname.symm
      have hi3 := (h.nr i hi hli).1
      rw [removed_two, (entry_delEntry hij).2.1, removed_of_ne f j (by omega) (by omega)]

end Remove

/-! ### Bytes appended -/

section Append

variable {data : Nat → UInt8} {len nr : Nat}

def taken (data : Nat → UInt8) (len : Nat) : List UInt8 := (List.range len).map data

theorem FileOk.appendBlk_of_outside (h : FileOk buf nr)
    (h1 : i < 0x200 + fmdFilesz buf ∨ 0x200 + fmdFilesz buf + len ≤ i) (h2 : i < 64 ∨ 72 ≤ i) (h3 : i < 96 ∨ 104 ≤ i) :
    appendBlk buf data len i = buf i := by
  unfold appendBlk
  simp only [h.curfinwbkoff]
  rw [putWord_of_outside (by omega), putWord_of_outside (by omega), blit_of_outside (by omega)]

theorem FileOk.getWord_appendBlk (h : FileOk buf nr) (ho : o + 8 ≤ 0x200) (h2 : o + 8 ≤ 64 ∨ 72 ≤ o)
    (h3 : o + 8 ≤ 96 ∨ 104 ≤ o) : getWord (appendBlk buf data len) o = getWord buf o :=
  getWord_congr fun i hlo hhi => h.appendBlk_of_outside (by omega) (by omega) (by omega)

section Fits

variable (hfit : 0x200 + fmdFilesz buf + len < fsysAlcblksz)
include hfit

theorem FileOk.filesz_appendBlk (h : FileOk buf nr) :
    fmdFilesz (appendBlk buf data len) = fmdFilesz buf + len := by
  have hsz : fsysAlcblksz = 0x1000 := rfl
  have hold : fmdFilesz (blit data buf (0x200 + fmdFilesz buf) len) = fmdFilesz buf := getWord_blit_of_apart (by omega)
  have hword : u64 (fmdFilesz buf + len) = fmdFilesz buf + len := by
    unfold u64
    omega
  unfold appendBlk
  simp only [h.curfinwbkoff, hold, hword]
  unfold fmdFilesz
  rw [getWord_putWord_of_apart (by omega)]
  exact getWord_putWord_self (by unfold fmdFilesz at hfit; omega)

theorem FileOk.curfinwbkoff_appendBlk (h : FileOk buf nr) :
    fmdCurfinwbkoff (appendBlk buf data len) = 0x200 + (fmdFilesz buf + len) := by
  have hsz : fsysAlcblksz = 0x1000 := rfl
  have hold : ∀ v, fmdCurfinwbkoff (putWord (blit data buf (0x200 + fmdFilesz buf) len) 64 v) =
      0x200 + fmdFilesz buf := by
    intro v
    unfold fmdCurfinwbkoff
    rw [getWord_putWord_of_apart (by omega), getWord_blit_of_apart (by omega)]
    exact h.curfinwbkoff
  have hword : u64 (0x200 + fmdFilesz buf + len) = 0x200 + (fmdFilesz buf + len) := by
    unfold u64
    omega
  unfold appendBlk
  simp only [h.curfinwbkoff, hold, hword]
  exact getWord_putWord_self (by omega)

theorem FileOk.appendBlk (h : FileOk buf nr) : FileOk (appendBlk buf data len) nr := by
  have hheader : Header (Rfs.appendBlk buf data len) fmdFilType nr := h.header.of_words h.getWord_appendBlk
  refine { hheader with curfinwbkoff := ?_, room := ?_ }
  · rw [h.filesz_appendBlk hfit, h.curfinwbkoff_appendBlk hfit]
  · rw [h.filesz_appendBlk hfit]
    omega

theorem FileOk.content_appendBlk (h : FileOk buf nr) :
    content (Rfs.appendBlk buf data len) = content buf ++ taken data len := by
  have hold : (List.range (fmdFilesz buf)).map (fun i => Rfs.appendBlk buf data len (0x200 + i)) = content buf := by
    unfold content
    refine List.map_congr_left fun i hi => ?_
    have hlt := List.mem_range.mp hi
    exact h.appendBlk_of_outside (by omega) (by omega) (by omega)
  have hnew : (List.range len).map (fun i => Rfs.appendBlk buf data len (0x200 + (fmdFilesz buf + i))) =
      taken data len := by
    unfold taken
    refine List.map_congr_left fun i hi => ?_
    have hlt := List.mem_range.mp hi
    unfold Rfs.appendBlk
    simp only [h.curfinwbkoff]
    rw [putWord_of_outside (by omega), putWord_of_outside (by omega), ← Nat.add_assoc, blit_add hlt]
  rw [content, h.filesz_appendBlk hfit, List.range_add, List.map_append, List.map_map, hold]
  exact congrArg _ hnew

end Fits

end Append

/-! ### One file changed -/

section Change

variable {f' : Nat → Block} {n : List UInt8}

/-- Every file but `n` keeps its entry and its block. -/
def Frame (f f' : Nat → Block) (n : List UInt8) : Prop :=
  ∀ j < dirMax, Live (f 2) j → entName (f 2) j ≠ n →
    Live (f' 2) j ∧ entName (f' 2) j = entName (f 2) j ∧ entBlk (f' 2) j = entBlk (f 2) j ∧
      f' (entBlk (f 2) j) = f (entBlk (f 2) j)

/-- The device `f'` is `f` with the file `n` set to `c`. -/
structure Change (m : Nat) (f f' : Nat → Block) (n : List UInt8) (c : Option (List UInt8)) : Prop where
  wf : WF m f'
  files : files f' = update (files f) n c
  frame : Frame f f' n

/-- The device `f'` has the files of `f`. -/
structure Same (m : Nat) (f f' : Nat → Block) : Prop where
  wf : WF m f'
  files : files f' = files f
  frame : ∀ n, Frame f f' n

theorem WF.same (h : WF m f) : Same m f f :=
  ⟨h, rfl, fun _ _ _ hlive _ => ⟨hlive, rfl, rfl, rfl⟩⟩

theorem WF.same_mark (h : WF m f) (b : Nat) : Same m f (mark f b 1) := by
  refine ⟨h.mark_used b, h.files_mark b 1, fun n j hj hlive _ => ?_⟩
  have hnr := (h.nr j hj hlive).1
  have h2 : mark f b 1 2 = f 2 := mark_of_ne 1 (by decide)
  rw [h2]
  exact ⟨hlive, rfl, rfl, mark_of_ne 1 (by omega)⟩

theorem WF.change_added (h : WF m f) (hdir : DirOk (f 2) k) (hk : k < dirMax)
    (hname : (cstr drNmMax fname).length ≤ 102)
    (hnew : ∀ j < dirMax, Live (f 2) j → entName (f 2) j ≠ cstr drNmMax fname)
    (hb : 2 ≤ b) (hlt : b < fsysAlcblksz) (hfree : f 1 b = 0) :
    Change m f (Rfs.added f fname b) (cstr drNmMax fname) (some []) := by
  obtain ⟨-, -, hother⟩ := h.free_block hb hlt hfree
  refine ⟨h.added hdir hk hname hnew hb hlt hfree, h.files_added hdir hk hname hnew hb hlt hfree, ?_⟩
  intro j hj hlive _
  have hjk : j ≠ k := fun heq => hdir.fresh j heq.ge hj hlive
  obtain ⟨hlive', hblk, hname'⟩ := hdir.entry_addEntry (c := b) hname hjk
  have hnr := (h.nr j hj hlive).1
  rw [added_two]
  refine ⟨hlive'.mpr hlive, hname', hblk, ?_⟩
  rw [added_of_ne f fname (by omega) (hother j hj hlive), mark_of_ne 1 (by omega)]

theorem WF.change_removed (h : WF m f) (hj : j < dirMax) (hlive : Live (f 2) j) :
    Change m f (Rfs.removed f j) (entName (f 2) j) none := by
  refine ⟨h.removed hj hlive, h.files_removed hj hlive, ?_⟩
  intro i hi hli hne
  have hij : i ≠ j := by
    rintro rfl
    exact hne rfl
  obtain ⟨hlive', hblk, hname⟩ := @entry_delEntry j i (f 2) hij
  have hnr := (h.nr i hi hli).1
  rw [removed_two]
  exact ⟨hlive'.mpr hli, hname, hblk, removed_of_ne f j (by omega) (by omega)⟩

theorem WF.change_put (h : WF m f) (hj : j < dirMax) (hlive : Live (f 2) j) (hbuf : FileOk buf (entBlk (f 2) j)) :
    Change m f (update f (entBlk (f 2) j) buf) (entName (f 2) j) (some (content buf)) := by
  refine ⟨h.put hj hlive hbuf, h.files_put hj hlive, ?_⟩
  intro i hi hli hne
  have hnr := (h.nr j hj hlive).1
  have h2 : update f (entBlk (f 2) j) buf 2 = f 2 := update_of_ne (by omega) ..
  rw [h2]
  refine ⟨hli, rfl, rfl, update_of_ne (fun heq => hne ?_) ..⟩
  rw [h.blk_inj i hi j hj hli hlive heq]

end Change

end Cosmos.Rfs
