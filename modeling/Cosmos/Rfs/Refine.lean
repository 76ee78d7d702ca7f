import Cosmos.Rfs.Runs

/-!
# The file system as a map

What a write or a close stores is the handle's whole copy of the block, so bytes written through another handle
meanwhile are lost unless the copy is current. With one handle at a time for each file it always is, and then the file
system is a map from names to byte strings.
-/

namespace Cosmos.Rfs

open Cosmos.Lib Function

variable {ok : Prop} {x y : Sys} {op : Op} {r : Res}

/-! ### Bytes written are in the file -/

/-- What is written to a file since it was made is its content. -/
def Logged (x : Sys) : Prop := ∀ n c, files x.st.blk n = some c → c = x.log n

theorem Outcome.logged (h : Outcome x r y op) (hlog : Logged x) (hwf : WF x.st.rdeMsize x.st.blk)
    (hfresh : op.Fresh x) : Logged y := by
  intro n' c hc
  cases op with
  | new fname =>
    obtain ⟨-, ⟨-, hsame, hy⟩ | ⟨-, -, hchange, hy⟩⟩ := h
    · rw [hsame.files] at hc
      rw [hy]
      exact hlog n' c hc
    · rw [hchange.files] at hc
      rw [hy]
      by_cases hn : n' = pathName fname
      · rw [hn, update_self] at hc ⊢
        exact (Option.some.inj hc).symm
      · rw [update_of_ne hn] at hc ⊢
        exact hlog n' c hc
  | del fname =>
    obtain ⟨-, hy, ⟨-, heq⟩ | ⟨-, -, hchange⟩⟩ := h
    · rw [heq] at hc
      rw [hy]
      exact hlog n' c hc
    · rw [hchange.files] at hc
      rw [hy]
      by_cases hn : n' = pathName fname
      · rw [hn, update_self] at hc
        cases hc
      · rw [update_of_ne hn] at hc
        exact hlog n' c hc
  | opn fname fmp =>
    rw [h.1] at hc
    rw [h.2.1]
    exact hlog n' c hc
  | write fmp buf len =>
    obtain ⟨n, b, hopen, ⟨-, rfl⟩ | ⟨-, -, hchange, hy, -⟩⟩ := h
    · exact hlog n' c hc
    · rw [hchange.files] at hc
      rw [hy]
      by_cases hn : n' = n
      · rw [hn, update_self] at hc ⊢
        rw [← hlog n _ ((hfresh n b hopen).files_eq hwf)]
        exact (Option.some.inj hc).symm
      · rw [update_of_ne hn] at hc ⊢
        exact hlog n' c hc
  | read fmp len =>
    obtain ⟨rfl, -⟩ := h
    exact hlog n' c hc
  | close fmp =>
    obtain ⟨n, b, hopen, -, -, hchange, hy, -⟩ := h
    rw [hchange.files] at hc
    rw [hy]
    by_cases hn : n' = n
    · rw [hn, update_self] at hc
      rw [hn, ← hlog n _ ((hfresh n b hopen).files_eq hwf)]
      exact (Option.some.inj hc).symm
    · rw [update_of_ne hn] at hc
      exact hlog n' c hc

/-- **No write is lost** in a run in which every write and every close is made while the handle's copy is current: a
file has exactly the bytes of the successful writes since it was made, in their order. -/
theorem no_lost_write {st₀ st : St} {es : List (Op × Res)} (hsized : Sized st₀.rdeMsize) (hfmat : rfsFmat st₀ = .ok st)
    (hrun : Trace (Step fun x op => op.Calm x ∧ op.Fresh x) (start st) es x) {n c : List UInt8}
    (hfile : files x.st.blk n = some c) : c = x.log n := by
  have hstart := inv_start False hsized False.elim hfmat
  have hlogged : Logged (start st) := by
    intro n c hc
    rw [show files (start st).st.blk = _ from hstart.2] at hc
    cases hc
  have hkeep := hrun.keeps (J := fun x => Inv False x ∧ Logged x) ?_ ⟨hstart.1, hlogged⟩
  · exact hkeep.2 n c hfile
  · intro x e y h hstep
    obtain ⟨hinv, hout⟩ := h.1.of_step ⟨hstep.1.1, hstep.2⟩
    exact ⟨hinv, hout.logged h.2 h.1.wf hstep.1.2⟩

theorem Inv.current_of_opn {fname : Option (Nat → UInt8)} {fmp : Nat} (h : Inv ok x) (hok : Op.Ok x (.opn fname fmp))
    (hstep : Rfs.step x (.opn fname fmp) = .ok (.ok, y)) :
    ∀ n b, y.opened fmp = some (n, b) → Current y.st.blk n b := by
  intro n b hopen
  obtain ⟨hblk, -, ⟨hr, -⟩ | ⟨-, b', hcur, hopened⟩⟩ := ((h.step hok).post _ hstep).2.2
  · cases hr
  · rw [hopened, update_self] at hopen
    obtain ⟨rfl, rfl⟩ := Prod.mk.inj (Option.some.inj hopen)
    rw [hblk]
    exact hcur

/-- Two handles for one file, the second opened after the write through the first: both bytes are in the file. -/
theorem no_lost_write_of_two : ∃ st x, rfsFmat ramDev = .ok st ∧
    Trace (Step fun x op => op.Calm x ∧ op.Fresh x) (start st)
      [(.new (letter 102), .ok), (.opn (letter 102) 0, .ok), (.write 0 (fun _ => 7) 1, .ok),
        (.opn (letter 102) 1, .ok), (.write 1 (fun _ => 9) 1, .ok)] x ∧
    files x.st.blk [102] = some [7, 9] ∧ [7, 9] = x.log [102] := by
  obtain ⟨st, x, hfmat, hrun, hfiles⟩ := exists_run [(.new (letter 102), .ok), (.opn (letter 102) 0, .ok),
      (.write 0 (fun _ => 7) 1, .ok), (.opn (letter 102) 1, .ok), (.write 1 (fun _ => 9) 1, .ok)]
    (fun x => files x.st.blk [102] = some [7, 9]) (by decide +kernel)
  have h₀ := (inv_start False sized_ramDev False.elim hfmat).1
  have hfresh : Trace (Step fun x op => op.Calm x ∧ op.Fresh x) (start st)
      [(.new (letter 102), .ok), (.opn (letter 102) 0, .ok), (.write 0 (fun _ => 7) 1, .ok),
        (.opn (letter 102) 1, .ok), (.write 1 (fun _ => 9) 1, .ok)] x := by
    obtain _ | ⟨s₁, _ | ⟨s₂, _ | ⟨s₃, _ | ⟨s₄, _ | ⟨s₅, ⟨⟩⟩⟩⟩⟩⟩ := hrun
    have h₁ := (h₀.of_step ⟨⟨s₁.1, trivial⟩, s₁.2⟩).1
    have h₂ := (h₁.of_step ⟨⟨s₂.1, trivial⟩, s₂.2⟩).1
    have h₃ := (h₂.of_step ⟨⟨s₃.1, trivial⟩, s₃.2⟩).1
    -- each handle is written through right after it was opened
    have hcur := h₁.current_of_opn s₂.1 s₂.2
    have hcur' := h₃.current_of_opn s₄.1 s₄.2
    exact .cons ⟨⟨⟨s₁.1, trivial⟩, trivial⟩, s₁.2⟩ (.cons ⟨⟨⟨s₂.1, trivial⟩, trivial⟩, s₂.2⟩
      (.cons ⟨⟨⟨s₃.1, trivial⟩, hcur⟩, s₃.2⟩ (.cons ⟨⟨⟨s₄.1, trivial⟩, trivial⟩, s₄.2⟩
      (.cons ⟨⟨⟨s₅.1, trivial⟩, hcur'⟩, s₅.2⟩ (.nil _)))))
  exact ⟨st, x, hfmat, hfresh, hfiles, no_lost_write sized_ramDev hfmat hfresh hfiles⟩

/-- Two handles that both read the empty file: each stores its own byte, and one byte is left of two. -/
theorem write_lost : ∃ st x, rfsFmat ramDev = .ok st ∧
    Trace (Step fun x op => op.Ok x) (start st)
      [(.new (letter 102), .ok), (.opn (letter 102) 0, .ok), (.opn (letter 102) 1, .ok),
        (.write 0 (fun _ => 7) 1, .ok), (.write 1 (fun _ => 9) 1, .ok), (.close 0, .ok), (.close 1, .ok)] x ∧
    files x.st.blk [102] = some [9] ∧ x.log [102] = [7, 9] :=
  exists_run _ _ (by decide +kernel)

/-! ### A map from names to byte strings -/

/-- The files by name, and for each handle the name it was opened for. -/
structure FileMap where
  files : List UInt8 → Option (List UInt8)
  opened : Nat → Option (List UInt8)

/-- What the file system should do. -/
def FileMap.Step (a : FileMap) (e : Op × Res) (a' : FileMap) : Prop :=
  match e with
  | (.new fname, .ok) => a.files (pathName fname) = none ∧
      a' = { a with files := update a.files (pathName fname) (some []) }
  | (.del fname, .ok) => a.files (pathName fname) ≠ none ∧
      a' = { a with files := update a.files (pathName fname) none }
  | (.opn fname fmp, .ok) => a.files (pathName fname) ≠ none ∧
      a' = { a with opened := update a.opened fmp (some (pathName fname)) }
  | (.write fmp buf len, .ok) => ∃ n c, a.opened fmp = some n ∧ a.files n = some c ∧
      a' = { a with files := update a.files n (some (c ++ taken buf len)) }
  | (.read fmp len, .bytes l) => ∃ n c, a.opened fmp = some n ∧ a.files n = some c ∧
      (len ≤ c.length → l = c.take len) ∧ a' = a
  | (.close fmp, .ok) => a' = { a with opened := update a.opened fmp none }
  | (.close _, .err) => False
  | (_, .err) => a' = a
  | _ => False

def Sys.fileMap (x : Sys) : FileMap := ⟨Rfs.files x.st.blk, fun fmp => (x.opened fmp).map Prod.fst⟩

/-- Each handle has the block of its file, and no two have the same file. -/
structure Sole (x : Sys) : Prop where
  current : ∀ fmp n b, x.opened fmp = some (n, b) → Current x.st.blk n b
  single : ∀ fmp fmp' n b b', x.opened fmp = some (n, b) → x.opened fmp' = some (n, b') → fmp = fmp'

theorem Sys.fileMap_eq {c : List UInt8 → Option (List UInt8)} {o : Nat → Option (List UInt8)}
    (hfiles : files y.st.blk = c) (hopened : y.fileMap.opened = o) : y.fileMap = ⟨c, o⟩ := by
  rw [← hfiles, ← hopened]
  rfl

theorem Sys.fileMap_files (x : Sys) : x.fileMap.files = files x.st.blk := by
  simp only [Sys.fileMap]

theorem opened_same (h : y.opened = x.opened) : y.fileMap.opened = x.fileMap.opened := by
  unfold Sys.fileMap
  rw [h]

theorem opened_update {fmp : Nat} {v : Option (List UInt8 × Block)} (h : y.opened = update x.opened fmp v) :
    y.fileMap.opened = update x.fileMap.opened fmp (v.map Prod.fst) := by
  funext fmp'
  show (y.opened fmp').map Prod.fst = _
  rw [h]
  by_cases hfmp : fmp' = fmp
  · rw [hfmp, update_self, update_self]
  · rw [update_of_ne hfmp, update_of_ne hfmp]
    rfl

theorem Sole.of_outcome (h : Sole x) (hwf : WF x.st.rdeMsize x.st.blk) (hout : Outcome x r y op)
    (hkeep : op.KeepsOpen x) (hsingle : op.Single x) : Sole y := by
  cases op with
  | new fname =>
    obtain ⟨hopened, hcase⟩ := hout
    refine ⟨fun fmp n b hopen => ?_, by rw [hopened]; exact h.single⟩
    rw [hopened] at hopen
    have hcur := h.current fmp n b hopen
    rcases hcase with ⟨-, hsame, -⟩ | ⟨-, hnone, hchange, -⟩
    · exact hsame.current hcur
    · refine hcur.frame hchange.frame fun heq => ?_
      exact (hcur.held hwf).files_ne_none hwf (heq ▸ hnone)
  | del fname =>
    obtain ⟨hopened, -, hcase⟩ := hout
    refine ⟨fun fmp n b hopen => ?_, by rw [hopened]; exact h.single⟩
    rw [hopened] at hopen
    have hcur := h.current fmp n b hopen
    rcases hcase with ⟨-, heq⟩ | ⟨-, -, hchange⟩
    · rw [heq]
      exact hcur
    · exact hcur.frame hchange.frame (hkeep fmp n b hopen)
  | opn fname fmp =>
    obtain ⟨hblk, -, ⟨-, hopened⟩ | ⟨-, b, hcur, hopened⟩⟩ := hout
    · exact ⟨by rw [hblk, hopened]; exact h.current, by rw [hopened]; exact h.single⟩
    · constructor
      · intro fmp' n' b' hopen
        rw [hopened] at hopen
        rw [hblk]
        rcases handle_cases hopen with ⟨-, hnew⟩ | ⟨-, hopen⟩
        · obtain ⟨rfl, rfl⟩ := Prod.mk.inj (Option.some.inj hnew)
          exact hcur
        · exact h.current fmp' n' b' hopen
      · intro fmp₁ fmp₂ n' b₁ b₂ h₁ h₂
        rw [hopened] at h₁ h₂
        rcases handle_cases h₁ with ⟨hf₁, hnew₁⟩ | ⟨-, h₁⟩
        · rcases handle_cases h₂ with ⟨hf₂, -⟩ | ⟨-, h₂⟩
          · rw [hf₁, hf₂]
          · obtain ⟨rfl, -⟩ := Prod.mk.inj (Option.some.inj hnew₁)
            exact absurd rfl (hsingle fmp₂ _ b₂ h₂)
        · rcases handle_cases h₂ with ⟨-, hnew₂⟩ | ⟨-, h₂⟩
          · obtain ⟨rfl, -⟩ := Prod.mk.inj (Option.some.inj hnew₂)
            exact absurd rfl (hsingle fmp₁ _ b₁ h₁)
          · exact h.single fmp₁ fmp₂ n' b₁ b₂ h₁ h₂
  | write fmp buf len =>
    obtain ⟨n, b, hopen', ⟨-, rfl⟩ | ⟨-, -, hchange, -, b₁, hcur, hopened⟩⟩ := hout
    · exact h
    · constructor
      · intro fmp' n' b' hopen
        rw [hopened] at hopen
        rcases handle_cases hopen with ⟨-, hnew⟩ | ⟨hfmp, hopen⟩
        · obtain ⟨rfl, rfl⟩ := Prod.mk.inj (Option.some.inj hnew)
          exact hcur
        · refine (h.current fmp' n' b' hopen).frame hchange.frame fun heq => hfmp ?_
          exact h.single fmp' fmp n' b' b hopen (heq ▸ hopen')
      · -- the handle keeps its name, so handles that agree now agreed before
        have hbefore : ∀ fmp' n' b', y.opened fmp' = some (n', b') → ∃ b'', x.opened fmp' = some (n', b'') := by
          intro fmp' n' b' hopen
          rw [hopened] at hopen
          rcases handle_cases hopen with ⟨hfmp, hnew⟩ | ⟨-, hopen⟩
          · obtain ⟨rfl, -⟩ := Prod.mk.inj (Option.some.inj hnew)
            exact ⟨b, hfmp ▸ hopen'⟩
          · exact ⟨b', hopen⟩
        intro fmp₁ fmp₂ n' b₁ b₂ h₁ h₂
        obtain ⟨c₁, h₁⟩ := hbefore fmp₁ n' b₁ h₁
        obtain ⟨c₂, h₂⟩ := hbefore fmp₂ n' b₂ h₂
        exact h.single fmp₁ fmp₂ n' c₁ c₂ h₁ h₂
  | read fmp len =>
    obtain ⟨rfl, -⟩ := hout
    exact h
  | close fmp =>
    obtain ⟨n, b, hopen', -, -, hchange, -, hopened⟩ := hout
    have hbefore : ∀ fmp' n' b', y.opened fmp' = some (n', b') → fmp' ≠ fmp ∧ x.opened fmp' = some (n', b') := by
      intro fmp' n' b' hopen
      rw [hopened] at hopen
      rcases handle_cases hopen with ⟨-, hnew⟩ | hbefore
      · cases hnew
      · exact hbefore
    constructor
    · intro fmp' n' b' hopen
      obtain ⟨hfmp, hopen⟩ := hbefore fmp' n' b' hopen
      refine (h.current fmp' n' b' hopen).frame hchange.frame fun heq => hfmp ?_
      exact h.single fmp' fmp n' b' b hopen (heq ▸ hopen')
    · intro fmp₁ fmp₂ n' b₁ b₂ h₁ h₂
      exact h.single fmp₁ fmp₂ n' b₁ b₂ (hbefore fmp₁ n' b₁ h₁).2 (hbefore fmp₂ n' b₂ h₂).2

theorem Sole.refines (h : Sole x) (hwf : WF x.st.rdeMsize x.st.blk) (hout : Outcome x r y op) :
    x.fileMap.Step (op, r) y.fileMap := by
  have hname : ∀ {fmp n b}, x.opened fmp = some (n, b) → x.fileMap.opened fmp = some n :=
    fun hopen => congrArg (Option.map Prod.fst) hopen
  cases op with
  | new fname =>
    obtain ⟨hopened, ⟨rfl, hsame, -⟩ | ⟨rfl, hnone, hchange, -⟩⟩ := hout
    · rw [FileMap.Step]
      · exact Sys.fileMap_eq hsame.files (opened_same hopened)
      · exact nofun
    · rw [FileMap.Step, Sys.fileMap_files]
      exact ⟨hnone, Sys.fileMap_eq hchange.files (opened_same hopened)⟩
  | del fname =>
    obtain ⟨hopened, -, ⟨rfl, heq⟩ | ⟨rfl, hex, hchange⟩⟩ := hout
    · rw [FileMap.Step]
      · exact Sys.fileMap_eq (congrArg files heq) (opened_same hopened)
      · exact nofun
    · rw [FileMap.Step, Sys.fileMap_files]
      exact ⟨hex, Sys.fileMap_eq hchange.files (opened_same hopened)⟩
  | opn fname fmp =>
    obtain ⟨hblk, -, ⟨rfl, hopened⟩ | ⟨rfl, b, hcur, hopened⟩⟩ := hout
    · rw [FileMap.Step]
      · exact Sys.fileMap_eq (congrArg files hblk) (opened_same hopened)
      · exact nofun
    · rw [FileMap.Step, Sys.fileMap_files]
      exact ⟨(hcur.held hwf).files_ne_none hwf, Sys.fileMap_eq (congrArg files hblk) (opened_update hopened)⟩
  | write fmp buf len =>
    obtain ⟨n, b, hopen, ⟨rfl, rfl⟩ | ⟨rfl, -, hchange, -, b₁, -, hopened⟩⟩ := hout
    · rw [FileMap.Step]
      exact nofun
    · rw [FileMap.Step, Sys.fileMap_files]
      refine ⟨n, content b, hname hopen, (h.current fmp n b hopen).files_eq hwf, Sys.fileMap_eq hchange.files ?_⟩
      rw [opened_update hopened, Option.map_some, ← hname hopen]
      exact update_eq_self ..
  | read fmp len =>
    obtain ⟨rfl, n, b, hopen, rfl | rfl⟩ := hout
    · rw [FileMap.Step]
      exact nofun
    · rw [FileMap.Step, Sys.fileMap_files]
      exact ⟨n, content b, hname hopen, (h.current fmp n b hopen).files_eq hwf, take_content, rfl⟩
  | close fmp =>
    obtain ⟨n, b, hopen, rfl, -, hchange, -, hopened⟩ := hout
    -- what is stored is the block as it is
    have hfiles : files y.st.blk = files x.st.blk := by
      rw [hchange.files, ← (h.current fmp n b hopen).files_eq hwf]
      exact update_eq_self ..
    rw [FileMap.Step, Sys.fileMap_files]
    exact Sys.fileMap_eq hfiles (opened_update hopened)

theorem Sole.of_run {x y : Sys} {es : List (Op × Res)} (hrun : Trace (Step fun x op => op.Solo x) x es y) :
    Inv ok x → Sole x → Trace FileMap.Step x.fileMap es y.fileMap ∧ Inv ok y := by
  induction hrun with
  | nil x => exact fun hinv _ => ⟨.nil _, hinv⟩
  | @cons x y z e es hstep _ ih =>
    intro hinv hsole
    obtain ⟨hinv', hout⟩ := hinv.of_step ⟨hstep.1.1, hstep.2⟩
    have hsole' := hsole.of_outcome hinv.wf hout hstep.1.1.2 hstep.1.2
    obtain ⟨htrace, hend⟩ := ih hinv' hsole'
    exact ⟨.cons (hsole.refines hinv.wf hout) htrace, hend⟩

theorem sole_start (st : St) : Sole (start st) := ⟨nofun, nofun⟩

/-- **The file system is a map from names to byte strings** in every run with at most one handle for each file, none of
which is deleted while open, and with buffers to be had: its calls are steps of the map, from the empty one, and every
call returns. -/
theorem refines_map {st₀ st : St} {es : List (Op × Res)} (hsized : Sized st₀.rdeMsize)
    (hkrl : ∀ n, st₀.krl n = true) (hfmat : rfsFmat st₀ = .ok st)
    (hrun : Trace (Step fun x op => op.Solo x) (start st) es x) :
    Trace FileMap.Step ⟨fun _ => none, fun _ => none⟩ es x.fileMap ∧
      ∀ op : Op, op.Ok x → ∃ r y, step x op = .ok (r, y) := by
  obtain ⟨hinv, hempty⟩ := inv_start True hsized (fun _ => hkrl) hfmat
  have hstart : (start st).fileMap = ⟨fun _ => none, fun _ => none⟩ := Sys.fileMap_eq hempty rfl
  obtain ⟨htrace, hend⟩ := Sole.of_run hrun hinv (sole_start st)
  refine ⟨hstart ▸ htrace, fun op hok => ?_⟩
  obtain ⟨⟨r, y⟩, heq⟩ := (hend.step hok).returns trivial
  exact ⟨r, y, heq⟩

/-- The map after a byte was written to one of two files. -/
theorem refines_map_of_two : ∃ (st : St) (x : Sys), rfsFmat ramDev = .ok st ∧
    Trace FileMap.Step ⟨fun _ => none, fun _ => none⟩
      [(.new (letter 103), .ok), (.new (letter 102), .ok), (.opn (letter 102) 0, .ok), (.write 0 (fun _ => 7) 1, .ok)]
      x.fileMap ∧ files x.st.blk [102] = some [7] := by
  obtain ⟨st, x, y, hfmat, hrun, hwrite, -, -, -, hfiles⟩ := exists_solo_run
  have hrefines := refines_map sized_ramDev (fun _ => rfl) hfmat (hrun.append (.cons hwrite (.nil _)))
  exact ⟨st, y, hfmat, hrefines.1, hfiles⟩

end Cosmos.Rfs
