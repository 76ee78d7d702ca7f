import Cosmos.Rfs.Files

/-!
# Runs of the file system

The operations over a formatted device and any number of open handles. A handle is the buffer `rfs_openfileblk`
returned, with the name it was opened for. As long as no file is deleted under an open handle, each handle writes to its
own file's block only.
-/

namespace Cosmos.Rfs

open Cosmos.Lib Halt Function

/-! ### The system -/

/-- The device, the open handles, and the bytes written to each file since it was made. -/
structure Sys where
  st : St
  opened : Nat → Option (List UInt8 × Block)
  log : List UInt8 → List UInt8

inductive Op where
  | new (fname : Option (Nat → UInt8))
  | del (fname : Option (Nat → UInt8))
  | opn (fname : Option (Nat → UInt8)) (fmp : Nat)
  | write (fmp : Nat) (buf : Nat → UInt8) (len : Nat)
  | read (fmp len : Nat)
  | close (fmp : Nat)

/-- `DFCOKSTUS`, `DFCERRSTUS`, or the bytes of a read. -/
inductive Res where
  | ok
  | err
  | bytes (l : List UInt8)
  deriving DecidableEq

def status (b : Bool) : Res := if b then .ok else .err

/-- One call. The address of a new handle is the allocator's choice, and a handle that is not open is no argument. -/
def step (x : Sys) : Op → Halt (Res × Sys)
  | .new fname =>
    rfsNewFile x.st fname >>= fun r =>
      .ok (status r.1, { x with st := r.2, log := if r.1 then update x.log (pathName fname) [] else x.log })
  | .del fname => rfsDelFile x.st fname >>= fun r => .ok (status r.1, { x with st := r.2 })
  | .opn fname fmp =>
    rfsOpenfileblk x.st fname >>= fun r =>
      .ok (status r.1.isSome,
        { x with
          st := r.2
          opened := if r.1.isSome then update x.opened fmp (r.1.map (pathName fname, ·)) else x.opened })
  | .write fmp buf len =>
    match x.opened fmp with
    | none => .error "no such handle"
    | some (n, b) =>
      rfsWritefileblk x.st b buf len >>= fun r =>
        .ok (status r.1,
          { st := r.2.2
            opened := update x.opened fmp (some (n, r.2.1))
            log := if r.1 then update x.log n (x.log n ++ taken buf len) else x.log })
  | .read fmp len =>
    match x.opened fmp with
    | none => .error "no such handle"
    | some (_, b) => .ok ((rfsReadfileblk b len).elim .err .bytes, x)
  | .close fmp =>
    match x.opened fmp with
    | none => .error "no such handle"
    | some (_, b) =>
      rfsClosefileblk x.st b >>= fun st => .ok (.ok, { x with st := st, opened := update x.opened fmp none })

/-- The arguments of a call: a free address for a new handle, an open handle otherwise, and a length below `2 ^ 63`. -/
def Op.Ok (x : Sys) : Op → Prop
  | .new _ => True
  | .del _ => True
  | .opn _ fmp => (x.opened fmp).isNone
  | .write fmp _ len => (x.opened fmp).isSome ∧ len < 2 ^ 63
  | .read fmp _ => (x.opened fmp).isSome
  | .close fmp => (x.opened fmp).isSome

def Unopened (x : Sys) (fname : Option (Nat → UInt8)) : Prop :=
  ∀ fmp n b, x.opened fmp = some (n, b) → n ≠ pathName fname

def Op.KeepsOpen (x : Sys) : Op → Prop
  | .del fname => Unopened x fname
  | _ => True

def Op.Single (x : Sys) : Op → Prop
  | .opn fname _ => Unopened x fname
  | _ => True

/-- A handle is written or closed only while its copy is the file's block. -/
def Op.Fresh (x : Sys) : Op → Prop
  | .write fmp _ _ => ∀ n b, x.opened fmp = some (n, b) → Current x.st.blk n b
  | .close fmp => ∀ n b, x.opened fmp = some (n, b) → Current x.st.blk n b
  | _ => True

def Op.Calm (x : Sys) (op : Op) : Prop := op.Ok x ∧ op.KeepsOpen x

/-- Valid calls with at most one handle for each file, none of which is deleted while open. -/
def Op.Solo (x : Sys) (op : Op) : Prop := op.Calm x ∧ op.Single x

def Step (guard : Sys → Op → Prop) (x : Sys) (e : Op × Res) (y : Sys) : Prop :=
  guard x e.1 ∧ step x e.1 = .ok (e.2, y)

def start (st : St) : Sys := ⟨st, fun _ => none, fun _ => []⟩

/-! ### What one call does -/

variable {ok : Prop} {x y : Sys} {op : Op} {r : Res}

def Outcome (x : Sys) (r : Res) (y : Sys) : Op → Prop
  | .new fname => y.opened = x.opened ∧
      (r = .err ∧ Same x.st.rdeMsize x.st.blk y.st.blk ∧ y.log = x.log ∨
        r = .ok ∧ files x.st.blk (pathName fname) = none ∧
          Change x.st.rdeMsize x.st.blk y.st.blk (pathName fname) (some []) ∧
          y.log = update x.log (pathName fname) [])
  | .del fname => y.opened = x.opened ∧ y.log = x.log ∧
      (r = .err ∧ y.st.blk = x.st.blk ∨
        r = .ok ∧ files x.st.blk (pathName fname) ≠ none ∧
          Change x.st.rdeMsize x.st.blk y.st.blk (pathName fname) none)
  | .opn fname fmp => y.st.blk = x.st.blk ∧ y.log = x.log ∧
      (r = .err ∧ y.opened = x.opened ∨
        r = .ok ∧ ∃ b, Current x.st.blk (pathName fname) b ∧
          y.opened = update x.opened fmp (some (pathName fname, b)))
  | .write fmp buf len => ∃ n b, x.opened fmp = some (n, b) ∧
      (r = .err ∧ y = x ∨
        r = .ok ∧ y.st.blk 2 = x.st.blk 2 ∧
          Change x.st.rdeMsize x.st.blk y.st.blk n (some (content b ++ taken buf len)) ∧
          y.log = update x.log n (x.log n ++ taken buf len) ∧
          ∃ b', Current y.st.blk n b' ∧ y.opened = update x.opened fmp (some (n, b')))
  | .read fmp len => y = x ∧ ∃ n b, x.opened fmp = some (n, b) ∧
      (r = .err ∨ r = .bytes ((List.range len).map fun i => b (0x200 + i)))
  | .close fmp => ∃ n b, x.opened fmp = some (n, b) ∧ r = .ok ∧ y.st.blk 2 = x.st.blk 2 ∧
      Change x.st.rdeMsize x.st.blk y.st.blk n (some (content b)) ∧ y.log = x.log ∧
      y.opened = update x.opened fmp none

/-- The device is well formed and each handle's buffer has a header for its file's block. -/
structure Inv (ok : Prop) (x : Sys) : Prop where
  krl : ok → ∀ n, x.st.krl n = true
  wf : WF x.st.rdeMsize x.st.blk
  held : ∀ fmp n b, x.opened fmp = some (n, b) → Held x.st.blk n b

theorem Inv.at (h : Inv ok x) : At ok x.st.rdeMsize x.st.blk x.st := ⟨rfl, rfl, h.krl⟩

theorem Inv.step (h : Inv ok x) (hok : op.Ok x) :
    Yields ok (step x op) fun r =>
      (ok → ∀ n, r.2.st.krl n = true) ∧ r.2.st.rdeMsize = x.st.rdeMsize ∧ Outcome x r.1 r.2 op := by
  cases op with
  | new fname =>
    refine (h.at.rfsNewFile h.wf fname).bind ?_
    rintro ⟨b, st⟩ ⟨f', h', ⟨rfl, hsame⟩ | ⟨rfl, hnone, hchange⟩⟩
    · exact .pure ⟨h'.krl, h'.msize, rfl, .inl ⟨rfl, h'.blk.symm ▸ hsame, rfl⟩⟩
    · exact .pure ⟨h'.krl, h'.msize, rfl, .inr ⟨rfl, hnone, h'.blk.symm ▸ hchange, rfl⟩⟩
  | del fname =>
    refine (h.at.rfsDelFile h.wf fname).bind ?_
    rintro ⟨b, st⟩ ⟨f', h', ⟨rfl, rfl⟩ | ⟨rfl, hex, hchange⟩⟩
    · exact .pure ⟨h'.krl, h'.msize, rfl, rfl, .inl ⟨rfl, h'.blk⟩⟩
    · exact .pure ⟨h'.krl, h'.msize, rfl, rfl, .inr ⟨rfl, hex, h'.blk.symm ▸ hchange⟩⟩
  | opn fname fmp =>
    refine (h.at.rfsOpenfileblk h.wf fname).bind ?_
    rintro ⟨b, st⟩ ⟨h', hcur, -⟩
    cases b with
    | none => exact .pure ⟨h'.krl, h'.msize, h'.blk, rfl, .inl ⟨rfl, rfl⟩⟩
    | some b => exact .pure ⟨h'.krl, h'.msize, h'.blk, rfl, .inr ⟨rfl, b, hcur b rfl, rfl⟩⟩
  | write fmp buf len =>
    obtain ⟨⟨n, b⟩, hopen⟩ := Option.isSome_iff_exists.mp hok.1
    unfold Rfs.step
    simp only [hopen]
    refine ((h.at.rfsWritefileblk h.wf (h.held fmp n b hopen) buf len).weaken fun _ => hok.2).bind ?_
    rintro r (rfl | ⟨hr, f', h', hdir, hchange, hcur⟩)
    · have hsame : update x.opened fmp (some (n, b)) = x.opened := by
        rw [← hopen, update_eq_self]
      refine .pure ⟨h.krl, rfl, n, b, hopen, .inl ⟨rfl, ?_⟩⟩
      simp only [hsame]
      rfl
    · obtain ⟨b', buf', st⟩ := r
      simp only at hr h' hcur
      subst hr
      refine .pure ⟨h'.krl, h'.msize, n, b, hopen, .inr ⟨rfl, ?_, h'.blk.symm ▸ hchange, rfl, buf', ?_, rfl⟩⟩
      · exact (congrFun h'.blk 2).trans hdir
      · exact h'.blk.symm ▸ hcur
  | read fmp len =>
    obtain ⟨⟨n, b⟩, hopen⟩ := Option.isSome_iff_exists.mp hok
    unfold Rfs.step
    simp only [hopen]
    refine .pure ⟨h.krl, rfl, rfl, n, b, hopen, ?_⟩
    rw [(h.held fmp n b hopen).rfsReadfileblk]
    split_ifs
    · exact .inr rfl
    · exact .inl rfl
  | close fmp =>
    obtain ⟨⟨n, b⟩, hopen⟩ := Option.isSome_iff_exists.mp hok
    unfold Rfs.step
    simp only [hopen]
    refine (h.at.rfsClosefileblk h.wf (h.held fmp n b hopen)).bind ?_
    rintro st ⟨f', h', hdir, hchange⟩
    refine .pure ⟨h'.krl, h'.msize, n, b, hopen, rfl, ?_, h'.blk.symm ▸ hchange, rfl, rfl⟩
    exact (congrFun h'.blk 2).trans hdir

/-! ### Runs on the device of `rfs_entry` -/

def ramDev : St := ⟨0x400000, fun _ => zeros, fun _ => true⟩

theorem sized_ramDev : Sized ramDev.rdeMsize := ⟨by decide, by decide⟩

def letter (c : UInt8) : Option (Nat → UInt8) := some fun i => if i = 0 then 47 else if i = 1 then c else 0

instance (x : Sys) : (op : Op) → Decidable (op.Ok x)
  | .new _ => isTrue trivial
  | .del _ => isTrue trivial
  | .opn _ fmp => inferInstanceAs (Decidable ((x.opened fmp).isNone = true))
  | .write fmp _ len => inferInstanceAs (Decidable ((x.opened fmp).isSome = true ∧ len < 2 ^ 63))
  | .read fmp _ => inferInstanceAs (Decidable ((x.opened fmp).isSome = true))
  | .close fmp => inferInstanceAs (Decidable ((x.opened fmp).isSome = true))

def replay (x : Sys) (e : Op × Res) : Halt Sys :=
  step x e.1 >>= fun p => if p.1 = e.2 then .ok p.2 else .error "another result"

theorem step_of_replay {e : Op × Res} (h : replay x e = .ok y) : step x e.1 = .ok (e.2, y) := by
  obtain ⟨⟨r, z⟩, hstep, h⟩ := bind_eq_ok h
  simp only at h
  split_ifs at h with hr
  cases h
  rw [hstep, hr]

def runOf (es : List (Op × Res)) : Halt Sys :=
  rfsFmat ramDev >>= fun st =>
    runHalt (fun x e => if Op.Ok x e.1 then replay x e else .error "") (start st) es

theorem exists_run (es : List (Op × Res)) (P : Sys → Prop) [DecidablePred P]
    (h : Except.map (fun x => decide (P x)) (runOf es) = .ok true) :
    ∃ st x, rfsFmat ramDev = .ok st ∧ Trace (Step fun x op => op.Ok x) (start st) es x ∧ P x := by
  obtain ⟨x, hrun, hP⟩ := exists_of_map h
  obtain ⟨st, hfmat, hrun⟩ := bind_eq_ok hrun
  have htrace : Trace (fun x e y => Op.Ok x e.1 ∧ replay x e = .ok y) (start st) es x := Trace.of_runHalt es hrun
  exact ⟨st, x, hfmat, htrace.imp fun _ _ _ hstep => ⟨hstep.1, step_of_replay hstep.2⟩, of_decide_eq_true hP⟩

theorem opened_of_new {fname : Option (Nat → UInt8)} (h : step x (.new fname) = .ok (r, y)) : y.opened = x.opened := by
  obtain ⟨p, -, h⟩ := bind_eq_ok h
  cases h
  rfl

theorem exists_solo_run : ∃ st x y, rfsFmat ramDev = .ok st ∧
    Trace (Step fun x op => op.Solo x) (start st)
      [(.new (letter 103), .ok), (.new (letter 102), .ok), (.opn (letter 102) 0, .ok)] x ∧
    Step (fun x op => op.Solo x) x (.write 0 (fun _ => 7) 1, .ok) y ∧
    (x.opened 0).map Prod.fst = some [102] ∧ Live (x.st.blk 2) 0 ∧ entName (x.st.blk 2) 0 = [103] ∧
    files y.st.blk [102] = some [7] := by
  obtain ⟨st, x, hfmat, hrun, hok, hopen, hlive, hname, hfiles⟩ := exists_run
    [(.new (letter 103), .ok), (.new (letter 102), .ok), (.opn (letter 102) 0, .ok)]
    (fun x => Op.Ok x (.write 0 (fun _ => 7) 1) ∧ (x.opened 0).map Prod.fst = some [102] ∧ Live (x.st.blk 2) 0 ∧
      entName (x.st.blk 2) 0 = [103] ∧
      Except.map (fun p => (p.1, files p.2.st.blk [102])) (step x (.write 0 (fun _ => 7) 1)) = .ok (.ok, some [7]))
    (by decide +kernel)
  obtain ⟨⟨r, y⟩, hstep, hres⟩ := exists_of_map hfiles
  obtain ⟨rfl, hfiles⟩ := Prod.mk.inj hres
  refine ⟨st, x, y, hfmat, ?_, ⟨⟨⟨hok, trivial⟩, trivial⟩, hstep⟩, hopen, hlive, hname, hfiles⟩
  -- no handle is open yet where the one of the run is opened
  cases hrun with
  | cons h₁ hrun =>
    cases hrun with
    | cons h₂ hrun =>
      cases hrun with
      | cons h₃ hrun =>
        refine .cons ⟨⟨⟨h₁.1, trivial⟩, trivial⟩, h₁.2⟩ (.cons ⟨⟨⟨h₂.1, trivial⟩, trivial⟩, h₂.2⟩
          (.cons ⟨⟨⟨h₃.1, trivial⟩, fun fmp n b hopened => ?_⟩, h₃.2⟩ ?_))
        · rw [opened_of_new h₂.2, opened_of_new h₁.2] at hopened
          cases hopened
        · cases hrun
          exact .nil _

/-! ### Handles keep to their files -/

theorem Held.files_ne_none {m : Nat} {f : Nat → Block} {n : List UInt8} {b : Block} (h : Held f n b) (hwf : WF m f) :
    files f n ≠ none := by
  obtain ⟨j, hj, hlive, rfl, -⟩ := h
  rw [hwf.files_entName hj hlive]
  exact Option.some_ne_none _

theorem Same.held {m : Nat} {f f' : Nat → Block} {n : List UInt8} {b : Block} (h : Same m f f') (hheld : Held f n b) :
    Held f' n b :=
  hheld.frame (h.frame (0 :: n)) (List.cons_ne_self _ _).symm

theorem Same.current {m : Nat} {f f' : Nat → Block} {n : List UInt8} {b : Block} (h : Same m f f')
    (hcur : Current f n b) : Current f' n b :=
  hcur.frame (h.frame (0 :: n)) (List.cons_ne_self _ _).symm

theorem Outcome.wf (h : Outcome x r y op) (hwf : WF x.st.rdeMsize x.st.blk) : WF x.st.rdeMsize y.st.blk := by
  cases op with
  | new fname =>
    rcases h.2 with ⟨-, hsame, -⟩ | ⟨-, -, hchange, -⟩
    · exact hsame.wf
    · exact hchange.wf
  | del fname =>
    rcases h.2.2 with ⟨-, heq⟩ | ⟨-, -, hchange⟩
    · rw [heq]
      exact hwf
    · exact hchange.wf
  | opn fname fmp =>
    rw [h.1]
    exact hwf
  | write fmp buf len =>
    obtain ⟨n, b, -, ⟨-, rfl⟩ | ⟨-, -, hchange, -⟩⟩ := h
    · exact hwf
    · exact hchange.wf
  | read fmp len =>
    rw [h.1]
    exact hwf
  | close fmp =>
    obtain ⟨n, b, -, -, -, hchange, -⟩ := h
    exact hchange.wf

theorem handle_cases {opened : Nat → Option (List UInt8 × Block)} {v : Option (List UInt8 × Block)} {fmp fmp' : Nat}
    {h : List UInt8 × Block} (hopen : update opened fmp v fmp' = some h) :
    fmp' = fmp ∧ v = some h ∨ fmp' ≠ fmp ∧ opened fmp' = some h := by
  by_cases hfmp : fmp' = fmp
  · rw [hfmp, update_self] at hopen
    exact .inl ⟨hfmp, hopen⟩
  · rw [update_of_ne hfmp] at hopen
    exact .inr ⟨hfmp, hopen⟩

theorem Inv.of_outcome (h : Inv ok x) (hkrl : ok → ∀ n, y.st.krl n = true) (hsize : y.st.rdeMsize = x.st.rdeMsize)
    (hout : Outcome x r y op) (hkeep : op.KeepsOpen x) : Inv ok y := by
  have hwf := hout.wf h.wf
  refine ⟨hkrl, hsize ▸ hwf, fun fmp' n' b' hopen => ?_⟩
  cases op with
  | new fname =>
    obtain ⟨hopened, hcase⟩ := hout
    rw [hopened] at hopen
    have hheld := h.held fmp' n' b' hopen
    rcases hcase with ⟨-, hsame, -⟩ | ⟨-, hnone, hchange, -⟩
    · exact hsame.held hheld
    · refine hheld.frame hchange.frame fun heq => ?_
      exact hheld.files_ne_none h.wf (heq ▸ hnone)
  | del fname =>
    obtain ⟨hopened, -, hcase⟩ := hout
    rw [hopened] at hopen
    have hheld := h.held fmp' n' b' hopen
    rcases hcase with ⟨-, heq⟩ | ⟨-, -, hchange⟩
    · rw [heq]
      exact hheld
    · exact hheld.frame hchange.frame (hkeep fmp' n' b' hopen)
  | opn fname fmp =>
    obtain ⟨hblk, -, ⟨-, hopened⟩ | ⟨-, b, hcur, hopened⟩⟩ := hout
    · rw [hopened] at hopen
      rw [hblk]
      exact h.held fmp' n' b' hopen
    · rw [hopened] at hopen
      rw [hblk]
      rcases handle_cases hopen with ⟨-, hnew⟩ | ⟨-, hopen⟩
      · obtain ⟨rfl, rfl⟩ := Prod.mk.inj (Option.some.inj hnew)
        exact hcur.held h.wf
      · exact h.held fmp' n' b' hopen
  | write fmp buf len =>
    obtain ⟨n, b, hopen', ⟨-, rfl⟩ | ⟨-, hdir, -, -, b₁, hcur, hopened⟩⟩ := hout
    · exact h.held fmp' n' b' hopen
    · rw [hopened] at hopen
      rcases handle_cases hopen with ⟨-, hnew⟩ | ⟨-, hopen⟩
      · obtain ⟨rfl, rfl⟩ := Prod.mk.inj (Option.some.inj hnew)
        exact hcur.held hwf
      · exact (h.held fmp' n' b' hopen).of_dir hdir
  | read fmp len =>
    obtain ⟨rfl, -⟩ := hout
    exact h.held fmp' n' b' hopen
  | close fmp =>
    obtain ⟨n, b, hopen', -, hdir, -, -, hopened⟩ := hout
    rw [hopened] at hopen
    rcases handle_cases hopen with ⟨-, hnew⟩ | ⟨-, hopen⟩
    · cases hnew
    · exact (h.held fmp' n' b' hopen).of_dir hdir

theorem inv_start (ok : Prop) {st₀ st : St} (hsized : Sized st₀.rdeMsize) (hkrl : ok → ∀ n, st₀.krl n = true)
    (hfmat : rfsFmat st₀ = .ok st) : Inv ok (start st) ∧ files st.blk = fun _ => none := by
  have hat : At ok st₀.rdeMsize st₀.blk st₀ := ⟨rfl, rfl, hkrl⟩
  have h := (hat.rfsFmat hsized).post st hfmat
  have hblk := h.blk
  have hsize := h.msize
  refine ⟨⟨h.krl, ?_, fun _ _ _ hnone => ?_⟩, ?_⟩
  · show WF st.rdeMsize st.blk
    rw [hblk, hsize]
    exact wf_formatted hsized _
  · cases hnone
  · funext n
    rw [hblk]
    exact files_formatted _ _ n

theorem Inv.of_step {e : Op × Res} (h : Inv ok x) (hstep : Step (fun x op => op.Calm x) x e y) :
    Inv ok y ∧ Outcome x e.2 y e.1 := by
  obtain ⟨hkrl, hsize, hout⟩ := (h.step hstep.1.1).post _ hstep.2
  exact ⟨h.of_outcome hkrl hsize hout hstep.1.2, hout⟩

theorem inv_of_run {st₀ st : St} {es : List (Op × Res)} (hsized : Sized st₀.rdeMsize)
    (hkrl : ok → ∀ n, st₀.krl n = true) (hfmat : rfsFmat st₀ = .ok st)
    (hrun : Trace (Step fun x op => op.Calm x) (start st) es x) : Inv ok x :=
  hrun.keeps (J := Inv ok) (fun _ _ _ h hstep => (h.of_step hstep).1) (inv_start ok hsized hkrl hfmat).1

/-- A write through a handle, or its close, leaves the blocks of all other files as they are. -/
def OwnOnly (x : Sys) (op : Op) (y : Sys) : Prop :=
  ∀ fmp n b, x.opened fmp = some (n, b) → (op = .close fmp ∨ ∃ buf len, op = .write fmp buf len) →
    ∀ j < dirMax, Live (x.st.blk 2) j → entName (x.st.blk 2) j ≠ n →
      y.st.blk (entBlk (x.st.blk 2) j) = x.st.blk (entBlk (x.st.blk 2) j)

theorem Outcome.ownOnly (h : Outcome x r y op) : OwnOnly x op y := by
  rintro fmp n b hopen (rfl | ⟨buf, len, rfl⟩) j hj hlive hname
  · obtain ⟨n', b', hopen', -, -, hchange, -⟩ := h
    rw [hopen] at hopen'
    obtain ⟨rfl, rfl⟩ := Prod.mk.inj (Option.some.inj hopen')
    exact (hchange.frame j hj hlive hname).2.2.2
  · obtain ⟨n', b', hopen', ⟨-, rfl⟩ | ⟨-, -, hchange, -⟩⟩ := h
    · rfl
    · rw [hopen] at hopen'
      obtain ⟨rfl, rfl⟩ := Prod.mk.inj (Option.some.inj hopen')
      exact (hchange.frame j hj hlive hname).2.2.2

/-- **A handle touches only its own file**, in every run in which no file is deleted while a handle for it is open. -/
theorem own_block_only {st₀ st : St} {es : List (Op × Res)} (hsized : Sized st₀.rdeMsize)
    (hfmat : rfsFmat st₀ = .ok st) (hrun : Trace (Step fun x op => op.Calm x) (start st) es x)
    (hok : op.Ok x) (hstep : step x op = .ok (r, y)) : OwnOnly x op y := by
  have h : Inv False x := inv_of_run hsized False.elim hfmat hrun
  exact ((h.step hok).post _ hstep).2.2.ownOnly

/-- A write to one of two files leaves the other's block. -/
theorem own_block_only_of_two : ∃ st x y, rfsFmat ramDev = .ok st ∧
    Trace (Step fun x op => op.Calm x) (start st)
      [(.new (letter 103), .ok), (.new (letter 102), .ok), (.opn (letter 102) 0, .ok)] x ∧
    step x (.write 0 (fun _ => 7) 1) = .ok (.ok, y) ∧ Live (x.st.blk 2) 0 ∧
    y.st.blk (entBlk (x.st.blk 2) 0) = x.st.blk (entBlk (x.st.blk 2) 0) := by
  obtain ⟨st, x, y, hfmat, hrun, hwrite, hopen, hlive, hname, -⟩ := exists_solo_run
  have hcalm := hrun.imp fun _ _ _ hstep => (⟨hstep.1.1, hstep.2⟩ : Step (fun x op => op.Calm x) _ _ _)
  have honly := own_block_only sized_ramDev hfmat hcalm hwrite.1.1.1 hwrite.2
  obtain ⟨⟨n, b⟩, hopened, rfl⟩ := Option.map_eq_some_iff.mp hopen
  exact ⟨st, x, y, hfmat, hcalm, hwrite.2, hlive,
    honly 0 _ b hopened (.inr ⟨_, _, rfl⟩) 0 (by decide) hlive (by rw [hname]; decide)⟩

/-- A file made, opened, deleted, and another made in its block: a write through the old handle goes to the new file. -/
theorem write_after_delete : ∃ st x y, rfsFmat ramDev = .ok st ∧
    Trace (Step fun x op => op.Ok x) (start st)
      [(.new (letter 102), .ok), (.opn (letter 102) 0, .ok), (.del (letter 102), .ok), (.new (letter 103), .ok)] x ∧
    Op.Ok x (.write 0 (fun _ => 7) 1) ∧ step x (.write 0 (fun _ => 7) 1) = .ok (.ok, y) ∧
    ¬ OwnOnly x (.write 0 (fun _ => 7) 1) y := by
  obtain ⟨st, x, hfmat, hrun, hok, hlive, hname, hopen, hbefore, hafter⟩ := exists_run
    [(.new (letter 102), .ok), (.opn (letter 102) 0, .ok), (.del (letter 102), .ok), (.new (letter 103), .ok)]
    (fun x => Op.Ok x (.write 0 (fun _ => 7) 1) ∧ Live (x.st.blk 2) 1 ∧ entName (x.st.blk 2) 1 = [103] ∧
      (x.opened 0).map Prod.fst = some [102] ∧ x.st.blk (entBlk (x.st.blk 2) 1) 0x200 = 0 ∧
      Except.map (fun p => (p.1, p.2.st.blk (entBlk (x.st.blk 2) 1) 0x200)) (step x (.write 0 (fun _ => 7) 1)) =
        .ok (.ok, 7)) (by decide +kernel)
  obtain ⟨⟨r, y⟩, hstep, hres⟩ := exists_of_map hafter
  obtain ⟨rfl, hafter⟩ := Prod.mk.inj hres
  refine ⟨st, x, y, hfmat, hrun, hok, hstep, fun honly => ?_⟩
  obtain ⟨⟨n, b⟩, hopened, rfl⟩ := Option.map_eq_some_iff.mp hopen
  have hsame := honly 0 [102] b hopened (.inr ⟨_, _, rfl⟩) 1 (by decide) hlive (by rw [hname]; decide)
  have hbyte := congrFun hsame 0x200
  rw [hbefore, hafter] at hbyte
  cases hbyte

end Cosmos.Rfs
