import Cosmos.Rfs.Answers
import Cosmos.Rfs.Runs

/-!
# What a call can do to the device

Any sequence of calls, with handles that outlive their files and with lengths of any size. A call does one of five
things to the device (`Moved`): nothing, a block marked for no file, a file made, a file removed, or the block of a
handle stored. Ownership of the blocks, the atomicity of a failed creation and the number of files that can be made are
read off these.
-/

namespace Cosmos.Rfs

open Cosmos.Lib Halt Function

variable {ok : Prop} {m b k j i : Nat} {f f' : Nat → Block} {made : Bool}

/-! ### The five moves -/

/-- A change of the device by one call, and whether it makes a file. -/
inductive Moved (f : Nat → Block) : Bool → (Nat → Block) → Prop
  | stay : Moved f false f
  | lost {b : Nat} (hb : 2 ≤ b) (hlt : b < fsysAlcblksz) (hfree : f 1 b = 0) : Moved f false (mark f b 1)
  | made {b k : Nat} {fname : Nat → UInt8} (hb : 2 ≤ b) (hlt : b < fsysAlcblksz) (hfree : f 1 b = 0)
      (hdir : DirOk (f 2) k) (hk : k < dirMax) (hname : (cstr drNmMax fname).length ≤ 102)
      (hnew : ∀ j < dirMax, Live (f 2) j → entName (f 2) j ≠ cstr drNmMax fname) : Moved f true (added f fname b)
  | removed {j : Nat} (hj : j < dirMax) (hlive : Live (f 2) j) : Moved f false (removed f j)
  | stored {b : Nat} {buf : Block} (hb : 3 ≤ b) (hbuf : FileOk buf b) : Moved f false (update f b buf)

theorem Moved.wf (h : Moved f made f') (hwf : WF m f) : WF m f' := by
  cases h with
  | stay => exact hwf
  | lost hb hlt hfree => exact hwf.mark_used _
  | made hb hlt hfree hdir hk hname hnew => exact hwf.added hdir hk hname hnew hb hlt hfree
  | removed hj hlive => exact hwf.removed hj hlive
  | stored hb hbuf => exact hwf.put_blk hb hbuf

theorem added_one (f : Nat → Block) (fname : Nat → UInt8) (hb : 2 ≤ b) :
    added f fname b 1 = update (f 1) b 1 := by
  rw [added_of_ne f fname (by decide) (by omega), mark_one]

theorem Moved.low_used (h : Moved f made f') (hwf : WF m f) (hi : i < 2) (hused : f 1 i ≠ 0) : f' 1 i ≠ 0 := by
  cases h with
  | stay => exact hused
  | lost hb _ _ =>
    rw [mark_one, update_of_ne (by omega)]
    exact hused
  | made hb _ _ _ _ _ _ =>
    rw [added_one _ _ hb, update_of_ne (by omega)]
    exact hused
  | removed hj hlive =>
    have hnr := (hwf.nr _ hj hlive).1
    rw [removed_one, update_of_ne (by omega)]
    exact hused
  | stored hb _ =>
    rw [update_of_ne (by omega)]
    exact hused

theorem DirOk.unique {dir : Block} {k' : Nat} (h : DirOk dir k) (h' : DirOk dir k') : k = k' := by
  have heq := h.curfinwbkoff.symm.trans h'.curfinwbkoff
  unfold ent at heq
  omega

/-- The entries made so far are one more exactly if a file was made: a deletion gives no entry back. -/
theorem Moved.dir (h : Moved f made f') (hdir : DirOk (f 2) k) : DirOk (f' 2) (k + if made then 1 else 0) := by
  cases h with
  | stay => exact hdir
  | lost _ _ _ =>
    rw [mark_of_ne 1 (by decide)]
    exact hdir
  | made _ _ _ hdir' hk hname _ =>
    rw [added_two, hdir.unique hdir']
    exact hdir'.addEntry hname hk
  | removed _ _ =>
    rw [removed_two]
    exact hdir.delEntry _
  | stored hb _ =>
    rw [update_of_ne (by omega)]
    exact hdir

theorem Created.moved {fname : Nat → UInt8} {r : Bool} (h : Created ok f fname b r f')
    (hname : (cstr drNmMax fname).length ≤ 102)
    (hnew : ∀ j < dirMax, Live (f 2) j → entName (f 2) j ≠ cstr drNmMax fname) : Moved f r f' := by
  cases h with
  | refused _ => exact .stay
  | lost hb hlt hfree _ => exact .lost hb hlt hfree
  | made hb hlt hfree hdir hk => exact .made hb hlt hfree hdir hk hname hnew

/-! ### Any valid calls -/

/-- The handle of a call is open, or free for a new one, and a length is a word. -/
def Op.Valid (x : Sys) : Op → Prop
  | .new _ => True
  | .del _ => True
  | .opn _ fmp => (x.opened fmp).isNone
  | .write fmp _ len => (x.opened fmp).isSome ∧ len < 2 ^ 64
  | .read fmp _ => (x.opened fmp).isSome
  | .close fmp => (x.opened fmp).isSome

theorem Op.Ok.valid {x : Sys} {op : Op} (h : op.Ok x) : op.Valid x := by
  cases op with
  | new _ | del _ | opn _ _ | read _ _ | close _ => exact h
  | write fmp buf len => exact ⟨h.1, h.2.trans (by decide)⟩

def makes : Op × Res → Bool
  | (.new _, .ok) => true
  | _ => false

/-- The device is well formed and each handle has a header for some block that can be a file's. -/
structure Sound (ok : Prop) (x : Sys) : Prop where
  krl : ok → ∀ n, x.st.krl n = true
  wf : WF x.st.rdeMsize x.st.blk
  header : ∀ fmp n buf, x.opened fmp = some (n, buf) → ∃ b, 3 ≤ b ∧ FileOk buf b

section Steps

variable {x y : Sys} {op : Op} {r : Res}

theorem Sound.at (h : Sound ok x) : At ok x.st.rdeMsize x.st.blk x.st := ⟨rfl, rfl, h.krl⟩

theorem Sound.of_at {st : St} (h : Sound ok x) (hst : At ok x.st.rdeMsize f' st) (hmoved : Moved x.st.blk made f')
    (hy : y.st = st) (hopened : ∀ fmp n buf, y.opened fmp = some (n, buf) → ∃ b, 3 ≤ b ∧ FileOk buf b) :
    Sound ok y ∧ y.st.rdeMsize = x.st.rdeMsize ∧ Moved x.st.blk made y.st.blk := by
  refine ⟨⟨?_, ?_, hopened⟩, ?_, ?_⟩
  · rw [hy]
    exact hst.krl
  · rw [hy, hst.msize, hst.blk]
    exact hmoved.wf h.wf
  · rw [hy, hst.msize]
  · rw [hy, hst.blk]
    exact hmoved

theorem headers_update {P : Block → Prop} {fmp : Nat} {n : List UInt8} {buf : Block}
    (h : ∀ fmp n buf, x.opened fmp = some (n, buf) → P buf) (hbuf : P buf) :
    ∀ fmp' n' buf', update x.opened fmp (some (n, buf)) fmp' = some (n', buf') → P buf' := by
  intro fmp' n' buf' hopen
  rcases handle_cases hopen with ⟨-, hnew⟩ | ⟨-, hopen⟩
  · obtain ⟨-, rfl⟩ := Prod.mk.inj (Option.some.inj hnew)
    exact hbuf
  · exact h fmp' n' buf' hopen

theorem headers_close {P : Block → Prop} {fmp : Nat} (h : ∀ fmp n buf, x.opened fmp = some (n, buf) → P buf) :
    ∀ fmp' n' buf', update x.opened fmp none fmp' = some (n', buf') → P buf' := by
  intro fmp' n' buf' hopen
  rcases handle_cases hopen with ⟨-, hnew⟩ | ⟨-, hopen⟩
  · cases hnew
  · exact h fmp' n' buf' hopen

theorem Sound.store {buf : Block} (h : Sound ok x) (hb : 3 ≤ b) (hbuf : FileOk buf b) :
    ∃ f', At ok x.st.rdeMsize f' ((writeRfsdevblk x.st buf b).getD x.st) ∧ Moved x.st.blk false f' := by
  by_cases hin : b * fsysAlcblksz < x.st.rdeMsize
  · obtain ⟨st', hwrite, h'⟩ := h.at.writeRfsdevblk buf hin
    rw [hwrite]
    exact ⟨_, h', .stored hb hbuf⟩
  · rw [writeRfsdevblk, retRfsdevblk, if_neg (by simpa using hin)]
    exact ⟨_, h.at, .stay⟩

/-- **What one call does**: one of the five moves. -/
theorem Sound.step (h : Sound ok x) (hvalid : op.Valid x) (hstep : step x op = .ok (r, y)) :
    Sound ok y ∧ y.st.rdeMsize = x.st.rdeMsize ∧ Moved x.st.blk (makes (op, r)) y.st.blk := by
  cases op with
  | new fname =>
    obtain ⟨⟨c, st⟩, hnew, hstep⟩ := bind_eq_ok hstep
    obtain ⟨b, f', -, h', hcase⟩ := (h.at.rfsNewFile_created h.wf fname).post _ hnew
    have hmoved : Moved x.st.blk c f' := by
      rcases hcase with ⟨-, rfl, rfl, -⟩ | ⟨hname, -, hfresh, hcreated⟩
      · exact .stay
      · exact hcreated.moved hname hfresh
    cases hstep
    have hmakes : makes (.new fname, status c) = c := by cases c <;> rfl
    rw [hmakes]
    exact h.of_at h' hmoved rfl h.header
  | del fname =>
    obtain ⟨⟨c, st⟩, hdel, hstep⟩ := bind_eq_ok hstep
    obtain ⟨f', h', hcase⟩ := (h.at.rfsDelFile_removed h.wf fname).post _ hdel
    cases hstep
    rcases hcase with ⟨-, rfl, -⟩ | ⟨-, j, hj, hlive, -, rfl⟩
    · exact h.of_at h' .stay rfl h.header
    · exact h.of_at h' (.removed hj hlive) rfl h.header
  | opn fname fmp =>
    obtain ⟨⟨c, st⟩, hopn, hstep⟩ := bind_eq_ok hstep
    obtain ⟨h', hcur, -⟩ := (h.at.rfsOpenfileblk h.wf fname).post _ hopn
    cases hstep
    cases c with
    | none => exact h.of_at h' .stay rfl h.header
    | some buf =>
      obtain ⟨j, hj, hlive, -, hbuf⟩ := hcur buf rfl
      refine h.of_at h' .stay rfl (headers_update h.header ⟨entBlk (x.st.blk 2) j, (h.wf.nr j hj hlive).1, ?_⟩)
      exact hbuf ▸ h.wf.file j hj hlive
  | write fmp data len =>
    obtain ⟨⟨n, buf⟩, hopen⟩ := Option.isSome_iff_exists.mp hvalid.1
    obtain ⟨b, hb, hbuf⟩ := h.header fmp n buf hopen
    simp only [Rfs.step, hopen] at hstep
    rcases hbuf.rfsWritefileblk x.st data len with ⟨-, heq⟩ | ⟨-, e, heq⟩ | ⟨hfit, heq⟩
    · rw [heq] at hstep
      cases hstep
      exact h.of_at h.at .stay rfl (headers_update h.header ⟨b, hb, hbuf⟩)
    · rw [heq] at hstep
      cases hstep
    · rw [heq] at hstep
      have happ : FileOk (appendBlk buf data len) b := hbuf.appendBlk hfit
      generalize appendBlk buf data len = buf' at hstep happ
      cases hstep
      obtain ⟨f', h', hmoved⟩ := h.store hb happ
      exact h.of_at h' hmoved rfl (headers_update h.header ⟨b, hb, happ⟩)
  | read fmp len =>
    obtain ⟨⟨n, buf⟩, hopen⟩ := Option.isSome_iff_exists.mp hvalid
    simp only [Rfs.step, hopen] at hstep
    obtain ⟨-, rfl⟩ := pair_inj hstep
    exact h.of_at h.at .stay rfl h.header
  | close fmp =>
    obtain ⟨⟨n, buf⟩, hopen⟩ := Option.isSome_iff_exists.mp hvalid
    obtain ⟨b, hb, hbuf⟩ := h.header fmp n buf hopen
    simp only [Rfs.step, hopen] at hstep
    obtain ⟨st, hclose, hstep⟩ := bind_eq_ok hstep
    cases hstep
    obtain ⟨f', h', hmoved⟩ := h.store hb hbuf
    unfold rfsClosefileblk at hclose
    rw [hbuf.sfblk] at hclose
    exact h.of_at (h'.delBuf.post _ hclose) hmoved rfl (headers_close h.header)

abbrev AnyStep : Sys → Op × Res → Sys → Prop := Step fun x op => op.Valid x

theorem sound_start (ok : Prop) {st₀ st : St} (hsized : Sized st₀.rdeMsize) (hkrl : ok → ∀ n, st₀.krl n = true)
    (hfmat : rfsFmat st₀ = .ok st) : Sound ok (start st) := by
  have h := (inv_start ok hsized hkrl hfmat).1
  exact ⟨h.krl, h.wf, fun fmp n buf hopen => by cases hopen⟩

theorem sound_of_run {st₀ st : St} {es : List (Op × Res)} (hsized : Sized st₀.rdeMsize)
    (hkrl : ok → ∀ n, st₀.krl n = true) (hfmat : rfsFmat st₀ = .ok st) (hrun : Trace AnyStep (start st) es x) :
    Sound ok x :=
  hrun.keeps (J := Sound ok) (fun _ _ _ h hstep => (h.step hstep.1 hstep.2).1) (sound_start ok hsized hkrl hfmat)

end Steps

/-! ### Who owns which block -/

/-- The map of used blocks and the root directory, where the super block says they are. -/
def bitmapOf (f : Nat → Block) : Block := f (rsbBmpbks (f 0))

def rootBlk (f : Nat → Block) : Nat := rdrBlknr (f 0) rsbRootdir

def rootOf (f : Nat → Block) : Block := f (rootBlk f)

/-- Every file has a block of its own that is marked and has a header for it, and a name of its own; the blocks of the
system are marked. -/
structure BlocksOwned (m : Nat) (f : Nat → Block) : Prop where
  range : ∀ j < dirMax, Live (rootOf f) j →
    2 ≤ entBlk (rootOf f) j ∧ entBlk (rootOf f) j < m / fsysAlcblksz ∧ entBlk (rootOf f) j ≠ rootBlk f
  own : ∀ i < dirMax, ∀ j < dirMax, Live (rootOf f) i → Live (rootOf f) j →
    entBlk (rootOf f) i = entBlk (rootOf f) j → i = j
  marked : ∀ j < dirMax, Live (rootOf f) j → bitmapOf f (entBlk (rootOf f) j) ≠ 0
  header : ∀ j < dirMax, Live (rootOf f) j → fmdSfblk (f (entBlk (rootOf f) j)) = entBlk (rootOf f) j
  system : bitmapOf f 0 ≠ 0 ∧ bitmapOf f 1 ≠ 0 ∧ bitmapOf f (rootBlk f) ≠ 0
  names : ∀ i < dirMax, ∀ j < dirMax, Live (rootOf f) i → Live (rootOf f) j →
    entName (rootOf f) i = entName (rootOf f) j → i = j

theorem WF.bitmapOf_eq (h : WF m f) : bitmapOf f = f 1 := by rw [bitmapOf, h.bmpbks]

theorem WF.rootBlk_eq (h : WF m f) : rootBlk f = 2 := h.rootdir

theorem WF.rootOf_eq (h : WF m f) : rootOf f = f 2 := by rw [rootOf, h.rootBlk_eq]

theorem WF.blocksOwned (h : WF m f) (h0 : f 1 0 ≠ 0) (h1 : f 1 1 ≠ 0) : BlocksOwned m f := by
  constructor
  · rw [h.rootOf_eq, h.rootBlk_eq]
    intro j hj hlive
    obtain ⟨h3, hmax, -, -⟩ := h.nr j hj hlive
    exact ⟨by omega, hmax, by omega⟩
  · rw [h.rootOf_eq]
    exact h.blk_inj
  · rw [h.rootOf_eq, h.bitmapOf_eq]
    exact fun j hj hlive => (h.nr j hj hlive).2.2.2
  · rw [h.rootOf_eq]
    exact fun j hj hlive => (h.file j hj hlive).sfblk
  · rw [h.bitmapOf_eq, h.rootBlk_eq]
    exact ⟨h0, h1, h.used⟩
  · rw [h.rootOf_eq]
    exact h.name_inj

section Runs

variable {x y : Sys} {st₀ st : St} {es : List (Op × Res)} {fname : Option (Nat → UInt8)}

theorem blk_of_fmat (hsized : Sized st₀.rdeMsize) (hfmat : rfsFmat st₀ = .ok st) :
    st.blk = formatted st₀.rdeMsize st₀.blk := by
  have hat : At False st₀.rdeMsize st₀.blk st₀ := ⟨rfl, rfl, False.elim⟩
  exact ((hat.rfsFmat hsized).post st hfmat).blk

/-- **Every file owns its block**, after any valid calls and whichever buffers are to be had. -/
theorem blocks_owned (hsized : Sized st₀.rdeMsize) (hfmat : rfsFmat st₀ = .ok st)
    (hrun : Trace AnyStep (start st) es x) : BlocksOwned x.st.rdeMsize x.st.blk := by
  have hlow : ∀ i < 2, st.blk 1 i ≠ 0 := by
    intro i hi
    rw [blk_of_fmat hsized hfmat, formatted_one, update_of_ne (by omega), firstBitmap,
      clearLoop_of_lt _ hi]
    decide
  obtain ⟨hx, hused⟩ := hrun.keeps (J := fun x => Sound False x ∧ ∀ i < 2, x.st.blk 1 i ≠ 0)
    (fun x e y hx hstep => by
      obtain ⟨hy, -, hmoved⟩ := hx.1.step hstep.1 hstep.2
      exact ⟨hy, fun i hi => hmoved.low_used hx.1.wf hi (hx.2 i hi)⟩)
    ⟨sound_start False hsized False.elim hfmat, hlow⟩
  exact hx.wf.blocksOwned (hused 0 (by decide)) (hused 1 (by decide))

theorem any_of_ok {st : St} (h : Trace (Step fun x op => op.Ok x) (start st) es x) : Trace AnyStep (start st) es x :=
  h.imp fun _ _ _ hstep => ⟨hstep.1.valid, hstep.2⟩

/-- Two files, one of them open. -/
theorem blocks_owned_of_two : ∃ st x, rfsFmat ramDev = .ok st ∧
    Trace AnyStep (start st) [(.new (letter 103), .ok), (.new (letter 102), .ok), (.opn (letter 102) 0, .ok)] x ∧
    BlocksOwned x.st.rdeMsize x.st.blk := by
  obtain ⟨st, x, -, hfmat, hrun, -⟩ := exists_solo_run
  have hany := any_of_ok (hrun.imp fun _ _ _ hstep => ⟨hstep.1.1.1, hstep.2⟩)
  exact ⟨st, x, hfmat, hany, blocks_owned sized_ramDev hfmat hany⟩

/-! ### A creation that fails -/

/-- The map of used blocks and the root directory are as before. -/
def Untouched (f f' : Nat → Block) : Prop := bitmapOf f' = bitmapOf f ∧ rootOf f' = rootOf f

theorem Sound.untouched_iff {b : Nat} (h : Sound ok x) (hclaim : claimedBlk x.st fname = .ok b)
    (hnew : rfsNewFile x.st fname = .ok (false, st)) : Untouched x.st.blk st.blk ↔ b = 0 := by
  obtain ⟨b', f', hclaim', h', hcase⟩ := (h.at.rfsNewFile_created h.wf fname).post _ hnew
  obtain rfl : b = b' := Except.ok.inj (hclaim.symm.trans hclaim')
  rw [h'.blk]
  rcases hcase with ⟨rfl, -, rfl, -⟩ | ⟨-, -, -, hcreated⟩
  · exact ⟨fun _ => rfl, fun _ => ⟨rfl, rfl⟩⟩
  · cases hcreated with
    | refused _ => exact ⟨fun _ => rfl, fun _ => ⟨rfl, rfl⟩⟩
    | lost hb hlt hfree _ =>
      refine ⟨fun hsame => ?_, fun h0 => by omega⟩
      -- the byte of the block has changed
      have hbyte := congrFun hsame.1 b
      rw [(h.wf.mark_used b).bitmapOf_eq, h.wf.bitmapOf_eq, mark_one, update_self, hfree] at hbyte
      cases hbyte

/-- **A failed creation leaves the map and the directory alone exactly if it cannot take a block**: for a bad path, a
name in use, want of a buffer for the directory, the file or the map, or a full map. Once `rfs_new_blk` has marked a
block, no way out of `rfs_new_dirfileblk` gives it back. -/
theorem failed_creation_untouched_iff (hsized : Sized st₀.rdeMsize) (hfmat : rfsFmat st₀ = .ok st)
    (hrun : Trace AnyStep (start st) es x) {st' : St} (hnew : rfsNewFile x.st fname = .ok (false, st')) :
    Untouched x.st.blk st'.blk ↔ ¬ Claims x.st fname := by
  have h : Sound False x := sound_of_run hsized False.elim hfmat hrun
  obtain ⟨b, -, hclaim, -⟩ := (h.at.rfsNewFile_created h.wf fname).post _ hnew
  rw [h.untouched_iff hclaim hnew, ← claimedBlk_ne_zero h.wf hclaim, not_not]

/-- A name that a file has is refused before a block is taken. -/
theorem untouched_of_used_name : ∃ st x st', rfsFmat ramDev = .ok st ∧
    Trace AnyStep (start st) [(.new (letter 102), .ok)] x ∧ rfsNewFile x.st (letter 102) = .ok (false, st') ∧
    Untouched x.st.blk st'.blk := by
  obtain ⟨st, x, hfmat, hrun, hnew, hfile⟩ := exists_run [(.new (letter 102), .ok)]
    (fun x => Except.map Prod.fst (rfsNewFile x.st (letter 102)) = .ok false ∧
      files x.st.blk (pathName (letter 102)) ≠ none) (by decide +kernel)
  obtain ⟨⟨r, st'⟩, hnew, rfl⟩ := exists_of_map hnew
  have hany := any_of_ok hrun
  exact ⟨st, x, st', hfmat, hany, hnew,
    (failed_creation_untouched_iff sized_ramDev hfmat hany hnew).mpr fun hclaims => hfile hclaims.1.2.2⟩

/-! ### How many files can be made -/

def created (es : List (Op × Res)) : Nat := es.countP makes

theorem Sound.dirOk_run (hrun : Trace AnyStep x es y) :
    Sound False x → ∀ {k}, DirOk (x.st.blk 2) k → DirOk (y.st.blk 2) (k + created es) := by
  induction hrun with
  | nil x => exact fun _ _ hdir => hdir
  | @cons x z y e es hstep hrest ih =>
    intro hx k hdir
    obtain ⟨hz, -, hmoved⟩ := hx.step hstep.1 hstep.2
    have hdir := ih hz (hmoved.dir hdir)
    rw [Nat.add_assoc, Nat.add_comm _ (created es)] at hdir
    rw [created, List.countP_cons, ← created]
    exact hdir

theorem dirOk_of_run (hsized : Sized st₀.rdeMsize) (hfmat : rfsFmat st₀ = .ok st)
    (hrun : Trace AnyStep (start st) es x) : DirOk (x.st.blk 2) (created es) := by
  have hstart : DirOk ((start st).st.blk 2) 0 := by
    show DirOk (st.blk 2) 0
    rw [blk_of_fmat hsized hfmat, formatted_two]
    exact dirOk_newFimgrhd
  have hdir := Sound.dirOk_run hrun (sound_start False hsized False.elim hfmat) hstart
  rwa [Nat.zero_add] at hdir

theorem Sound.newFile_iff (h : Sound True x) (hdir : DirOk (x.st.blk 2) k) (hwant : Wanted x.st.blk fname)
    (hb : 2 ≤ b) (hlt : b < fsysAlcblksz) (hfree : x.st.blk 1 b = 0) :
    ∃ r st', rfsNewFile x.st fname = .ok (r, st') ∧ (r = true ↔ k < dirMax) := by
  have hyields := h.at.rfsNewFile_created h.wf fname
  obtain ⟨⟨r, st'⟩, hnew⟩ := hyields.returns trivial
  refine ⟨r, st', hnew, ?_⟩
  obtain ⟨b', f', -, -, ⟨-, -, -, hno⟩ | ⟨-, -, -, hcreated⟩⟩ := hyields.post _ hnew
  · exact absurd hwant (hno trivial)
  · cases hcreated with
    | refused hused => exact absurd hfree (hused trivial b hb hlt)
    | lost _ _ _ hfull =>
      have hk := hdir.unique (hfull trivial)
      exact ⟨fun h => Bool.noConfusion h, fun hlt => absurd hlt (hk ▸ lt_irrefl k)⟩
    | made _ _ _ hdir' hk => exact ⟨fun _ => hdir.unique hdir' ▸ hk, fun _ => rfl⟩

/-- **A name to be had gets a file as long as fewer than 28 files have been made since `rfs_fmat`**, whatever has been
deleted since. -/
theorem new_file_iff_created_lt (hsized : Sized st₀.rdeMsize) (hkrl : ∀ n, st₀.krl n = true)
    (hfmat : rfsFmat st₀ = .ok st) (hrun : Trace AnyStep (start st) es x) (hwant : Wanted x.st.blk fname)
    (hfree : ∃ b, 2 ≤ b ∧ b < fsysAlcblksz ∧ bitmapOf x.st.blk b = 0) :
    (∃ st', rfsNewFile x.st fname = .ok (true, st')) ↔ created es < dirMax := by
  have h : Sound True x := sound_of_run hsized (fun _ => hkrl) hfmat hrun
  obtain ⟨b, hb, hlt, hfree⟩ := hfree
  rw [h.wf.bitmapOf_eq] at hfree
  obtain ⟨r, st', hnew, hiff⟩ := h.newFile_iff (dirOk_of_run hsized hfmat hrun) hwant hb hlt hfree
  rw [← hiff, hnew]
  constructor
  · rintro ⟨st'', heq⟩
    exact (pair_inj heq).1
  · rintro rfl
    exact ⟨st', rfl⟩

/-! ### Making and deleting one file again and again -/

def makeAndDelete : List (Op × Res) := [(.new (letter 102), .ok), (.del (letter 102), .ok)]

/-- No file, and a block for one. -/
structure Blank (x : Sys) : Prop where
  files : Rfs.files x.st.blk = fun _ => none
  free : ∃ b, 2 ≤ b ∧ b < fsysAlcblksz ∧ x.st.blk 1 b = 0

theorem Blank.wanted (h : Blank x) : Wanted x.st.blk (letter 102) :=
  ⟨by decide +kernel, by decide +kernel, by rw [h.files]⟩

theorem Blank.again (h : Blank x) (hx : Sound True x) (hdir : DirOk (x.st.blk 2) k) (hk : k < dirMax) :
    ∃ z, Trace AnyStep x makeAndDelete z ∧ Blank z := by
  have hwant := h.wanted
  obtain ⟨b, hb, hlt, hfree⟩ := h.free
  obtain ⟨r, st₁, hnew, hiff⟩ := hx.newFile_iff hdir hwant hb hlt hfree
  obtain rfl : r = true := hiff.mpr hk
  obtain ⟨f₁, h₁, ⟨hr, -⟩ | ⟨-, -, hchange⟩⟩ := (hx.at.rfsNewFile hx.wf (letter 102)).post _ hnew
  · cases hr
  · have hmade : Rfs.files f₁ (pathName (letter 102)) ≠ none := by
      rw [hchange.files, update_self]
      exact Option.some_ne_none _
    have hdel := h₁.rfsDelFile_removed hchange.wf (letter 102)
    obtain ⟨⟨c, st₂⟩, heq⟩ := hdel.returns trivial
    obtain ⟨f₂, h₂, ⟨-, -, hnone⟩ | ⟨rfl, j, hj, hlive, hname, rfl⟩⟩ := hdel.post _ heq
    · exact absurd (hnone trivial hwant.1) hmade
    · have hnr := hchange.wf.nr j hj hlive
      let log := update x.log (pathName (letter 102)) []
      have hfst : step x (.new (letter 102)) = .ok (.ok, ⟨st₁, x.opened, log⟩) := bind_of_ok hnew _
      have hsnd : step ⟨st₁, x.opened, log⟩ (.del (letter 102)) = .ok (.ok, ⟨st₂, x.opened, log⟩) :=
        bind_of_ok heq _
      refine ⟨⟨st₂, x.opened, log⟩, .cons ⟨trivial, hfst⟩ (.cons ⟨trivial, hsnd⟩ (.nil _)), ?_, ?_⟩
      · show Rfs.files st₂.blk = _
        rw [h₂.blk, hchange.wf.files_removed hj hlive, hname, hchange.files, h.files, update_idem]
        exact update_eq_self _ _
      · refine ⟨entBlk (f₁ 2) j, by omega, hnr.2.2.1, ?_⟩
        show st₂.blk 1 _ = 0
        rw [h₂.blk, removed_one, update_self]

theorem blank_start (hsized : Sized st₀.rdeMsize) (h3 : 3 < st₀.rdeMsize / fsysAlcblksz)
    (hfmat : rfsFmat st₀ = .ok st) :
    Blank (start st) := by
  have hkrl : False → ∀ n, st₀.krl n = true := False.elim
  refine ⟨(inv_start False hsized hkrl hfmat).2, 3, by decide, by decide, ?_⟩
  show st.blk 1 3 = 0
  rw [blk_of_fmat hsized hfmat, formatted_one, update_of_ne (by decide), firstBitmap]
  exact clearLoop_of_mem _ (by decide) (by omega)

theorem created_makeAndDelete (n : Nat) : created (List.replicate n makeAndDelete).flatten = n := by
  unfold created
  rw [List.countP_flatten, List.map_replicate, List.sum_replicate, show makeAndDelete.countP makes = 1 from rfl]
  exact Nat.mul_one n

theorem exists_worn (n : Nat) (hn : n ≤ dirMax) : ∃ st x, rfsFmat ramDev = .ok st ∧
    Trace AnyStep (start st) (List.replicate n makeAndDelete).flatten x ∧ Blank x := by
  induction n with
  | zero =>
    have hat : At True ramDev.rdeMsize ramDev.blk ramDev := ⟨rfl, rfl, fun _ _ => rfl⟩
    obtain ⟨st, hfmat⟩ := (hat.rfsFmat sized_ramDev).returns trivial
    exact ⟨st, start st, hfmat, .nil _, blank_start sized_ramDev (by decide) hfmat⟩
  | succ n ih =>
    obtain ⟨st, x, hfmat, hrun, hblank⟩ := ih (by omega)
    have hx : Sound True x := sound_of_run sized_ramDev (fun _ _ => rfl) hfmat hrun
    have hdir := dirOk_of_run sized_ramDev hfmat hrun
    have hcount := created_makeAndDelete n
    obtain ⟨z, hrest, hz⟩ := hblank.again hx hdir (by omega)
    refine ⟨st, z, hfmat, ?_, hz⟩
    rw [List.replicate_succ', List.flatten_concat]
    exact hrun.append hrest

theorem exists_worn_out : ∃ st x st', rfsFmat ramDev = .ok st ∧
    Trace AnyStep (start st) (List.replicate 28 makeAndDelete).flatten x ∧ Blank x ∧
    rfsNewFile x.st (letter 102) = .ok (false, st') ∧ ¬ Untouched x.st.blk st'.blk := by
  obtain ⟨st, x, hfmat, hrun, hblank⟩ := exists_worn 28 le_rfl
  have hx : Sound True x := sound_of_run sized_ramDev (fun _ _ => rfl) hfmat hrun
  have hdir : DirOk (x.st.blk 2) 28 := dirOk_of_run sized_ramDev hfmat hrun
  obtain ⟨b, hb, hlt, hfree⟩ := hblank.free
  obtain ⟨r, st', hnew, hiff⟩ := hx.newFile_iff hdir hblank.wanted hb hlt hfree
  obtain rfl : r = false := Bool.eq_false_iff.mpr fun hr => absurd (hiff.mp hr) (lt_irrefl 28)
  refine ⟨st, x, st', hfmat, hrun, hblank, hnew, ?_⟩
  obtain ⟨c, f', hclaim, -, ⟨-, -, -, hno⟩ | ⟨-, -, -, hcreated⟩⟩ :=
    (hx.at.rfsNewFile_created hx.wf (letter 102)).post _ hnew
  · exact absurd hblank.wanted (hno trivial)
  · rw [hx.untouched_iff hclaim hnew]
    cases hcreated with
    | refused hused => exact absurd hfree (hused trivial b hb hlt)
    | lost hc _ _ _ => omega

theorem no_file_after_28 : ∃ st x st', rfsFmat ramDev = .ok st ∧
    Trace AnyStep (start st) (List.replicate 28 makeAndDelete).flatten x ∧ files x.st.blk = (fun _ => none) ∧
    Wanted x.st.blk (letter 102) ∧ (∃ b, 2 ≤ b ∧ b < fsysAlcblksz ∧ bitmapOf x.st.blk b = 0) ∧
    rfsNewFile x.st (letter 102) = .ok (false, st') := by
  obtain ⟨st, x, st', hfmat, hrun, hblank, hnew, -⟩ := exists_worn_out
  have hx : Sound True x := sound_of_run sized_ramDev (fun _ _ => rfl) hfmat hrun
  obtain ⟨b, hb, hlt, hfree⟩ := hblank.free
  exact ⟨st, x, st', hfmat, hrun, hblank.files, hblank.wanted, ⟨b, hb, hlt, hx.wf.bitmapOf_eq ▸ hfree⟩, hnew⟩

/-- The last file there is an entry for. -/
theorem new_file_after_27 : ∃ st x st', rfsFmat ramDev = .ok st ∧
    Trace AnyStep (start st) (List.replicate 27 makeAndDelete).flatten x ∧
    rfsNewFile x.st (letter 102) = .ok (true, st') := by
  obtain ⟨st, x, hfmat, hrun, hblank⟩ := exists_worn 27 (by decide)
  have hx : Sound True x := sound_of_run sized_ramDev (fun _ _ => rfl) hfmat hrun
  obtain ⟨b, hb, hlt, hfree⟩ := hblank.free
  obtain ⟨st', hnew⟩ := (new_file_iff_created_lt sized_ramDev (fun _ => rfl) hfmat hrun hblank.wanted
    ⟨b, hb, hlt, hx.wf.bitmapOf_eq ▸ hfree⟩).mpr (by rw [created_makeAndDelete]; decide)
  exact ⟨st, x, st', hfmat, hrun, hnew⟩

theorem block_lost_by_full_directory : ∃ st x st', rfsFmat ramDev = .ok st ∧
    Trace AnyStep (start st) (List.replicate 28 makeAndDelete).flatten x ∧
    rfsNewFile x.st (letter 102) = .ok (false, st') ∧ ¬ Untouched x.st.blk st'.blk := by
  obtain ⟨st, x, st', hfmat, hrun, -, hnew, hlost⟩ := exists_worn_out
  exact ⟨st, x, st', hfmat, hrun, hnew, hlost⟩

end Runs

end Cosmos.Rfs
