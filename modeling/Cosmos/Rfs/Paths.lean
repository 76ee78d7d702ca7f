import Cosmos.Rfs.Disk

/-!
# Paths

A path is a slash and a name without a slash of 1 to 102 bytes. `rfs_chkfilepath` accepts exactly these and reads no
byte behind the terminating zero, but for the path that is a slash only: there the test for the end of the string is
skipped at index 1, and the answer depends on what follows in memory.
-/

namespace Cosmos.Rfs

open Cosmos.Lib

variable {s : List UInt8} {p q : Nat → UInt8} {n i : Nat}

/-! ### The loop -/

/-- What the loop of `rfs_chkfilepath` answers to the rest `s` of the string at index `i`. -/
def chkRest : List UInt8 → Nat → Nat
  | [], i => if drNmMax ≤ i then 4 else 0
  | c :: s, i => if c = 47 then 3 else if drNmMax ≤ i then 4 else chkRest s (i + 1)

theorem chkfilepathLoop_eq (s : List UInt8) : ∀ {n i}, Spells (fun k => p (i + k)) s → 1 ≤ i → 1 < i ∨ s ≠ [] →
    i ≤ drNmMax → drNmMax < n + i → chkfilepathLoop p n i = chkRest s i := by
  induction s with
  | nil =>
    intro n i hs hpos hi hle hn
    have h0 : p i = 0 := hs
    have h1 : 1 < i := hi.resolve_right (not_not.mpr rfl)
    obtain ⟨n, rfl⟩ : ∃ k, n = k + 1 := ⟨n - 1, by omega⟩
    rw [chkfilepathLoop, chkRest, h0, if_neg (by decide)]
    split_ifs with hmax hend
    · rfl
    · rfl
    · exact absurd ⟨rfl, h1⟩ hend
  | cons c s ih =>
    intro n i hs hpos hi hle hn
    obtain ⟨⟨hc, hne⟩, hrest⟩ := hs
    have hc : p i = c := hc
    have hrest : Spells (fun k => p (i + 1 + k)) s := by
      refine hrest.congr fun k _ => ?_
      rw [Nat.add_assoc, Nat.add_comm 1 k]
    obtain ⟨n, rfl⟩ : ∃ k, n = k + 1 := ⟨n - 1, by omega⟩
    rw [chkfilepathLoop, chkRest, hc]
    split_ifs with hslash hmax hend
    · rfl
    · rfl
    · exact absurd hend.1 hne
    · -- at index 1 the string has a character, so the next index is behind 1
      exact ih hrest (by omega) (.inl (by omega)) (by omega) (by omega)

theorem chkRest_eq_zero_iff (s : List UInt8) : ∀ {i}, chkRest s i = 0 ↔ 47 ∉ s ∧ i + s.length < drNmMax := by
  induction s with
  | nil =>
    intro i
    rw [chkRest]
    split_ifs with hmax
    · exact ⟨nofun, fun h => absurd h.2 (Nat.not_lt.mpr hmax)⟩
    · exact ⟨fun _ => ⟨List.not_mem_nil, Nat.lt_of_not_le hmax⟩, fun _ => rfl⟩
  | cons c s ih =>
    intro i
    rw [chkRest, List.mem_cons, List.length_cons]
    split_ifs with hslash hmax
    · exact ⟨nofun, fun h => absurd (.inl hslash.symm) h.1⟩
    · exact ⟨nofun, fun h => by omega⟩
    · rw [ih, Nat.add_right_comm, Nat.add_assoc i]
      constructor
      · rintro ⟨hno, hlt⟩
        exact ⟨fun h => h.elim (fun heq => hslash heq.symm) hno, hlt⟩
      · rintro ⟨hno, hlt⟩
        exact ⟨fun h => hno (.inr h), hlt⟩

/-! ### What is accepted -/

/-- A slash and a name of at least one and fewer than `DR_NM_MAX - 1` bytes, none of them a slash. -/
def ValidPath (s : List UInt8) : Prop :=
  ∃ name, s = 47 :: name ∧ 1 ≤ name.length ∧ name.length < drNmMax - 1 ∧ 47 ∉ name

def chkPath : List UInt8 → Nat
  | [] => 2
  | c :: name => if c = 47 then chkRest name 1 else 2

theorem rfsChkfilepath_eq (hs : Spells p s) (hne : s ≠ [47]) : rfsChkfilepath p = chkPath s := by
  unfold rfsChkfilepath
  cases s with
  | nil =>
    have h0 : p 0 = 0 := hs
    rw [h0, if_pos (by decide), chkPath]
  | cons c name =>
    obtain ⟨⟨hc, -⟩, hrest⟩ := hs
    rw [hc, chkPath]
    by_cases hslash : c = 47
    · subst hslash
      have hname : name ≠ [] := fun heq => hne (by rw [heq])
      rw [if_neg (not_not.mpr rfl), if_pos rfl]
      exact chkfilepathLoop_eq name (hrest.congr fun k _ => by rw [Nat.add_comm]) le_rfl (.inr hname) (by decide)
        (by decide)
    · rw [if_pos hslash, if_neg hslash]

theorem chkPath_eq_zero_iff (hne : s ≠ [47]) : chkPath s = 0 ↔ ValidPath s := by
  unfold ValidPath
  cases s with
  | nil =>
    constructor
    · exact nofun
    · rintro ⟨_, heq, -⟩
      cases heq
  | cons c name =>
    rw [chkPath]
    split_ifs with hslash
    · subst hslash
      have hpos : 1 ≤ name.length := List.length_pos_iff.mpr fun heq => hne (by rw [heq])
      rw [chkRest_eq_zero_iff]
      constructor
      · rintro ⟨hno, hlt⟩
        exact ⟨name, rfl, hpos, by omega, hno⟩
      · rintro ⟨_, heq, -, hlt, hno⟩
        cases heq
        exact ⟨hno, by omega⟩
    · constructor
      · exact nofun
      · rintro ⟨_, heq, -⟩
        exact absurd (List.cons.inj heq).1 hslash

/-! ### The name -/

theorem rfsStrcpy_of_spells {d : Nat → UInt8} (hs : Spells p s) (hn : s.length < n) :
    rfsStrcpy n p d 0 = blit p d 0 (s.length + 1) := by
  have hcstr := hs.cstr_eq hn
  rw [rfsStrcpy_eq n (by rw [hcstr]; exact hn), hcstr]

/-- Everything said of the paths that hold `s`: which are accepted, that bytes behind the string do not matter, and that
the name is stored in the `DR_NM_MAX` bytes at `buf`, whatever else is there and however far the copy may go. -/
structure PathSyntax (s : List UInt8) : Prop where
  accepted : ∀ p, Spells p s → (rfsChkfilepath p = 0 ↔ ValidPath s)
  unread : ∀ p q, Spells p s → Spells q s → rfsChkfilepath p = rfsChkfilepath q
  stored : ∀ p, Spells p s → rfsChkfilepath p = 0 → ∀ n ≥ drNmMax, ∀ buf : Nat → UInt8,
    rfsRetFname (some p) = (0, rfsStrcpy n (fun i => p (i + 1)) zeros 0) ∧
      Spells (rfsStrcpy n (fun i => p (i + 1)) buf 0) s.tail ∧
      ∀ i, drNmMax ≤ i → rfsStrcpy n (fun i => p (i + 1)) buf 0 i = buf i

theorem pathSyntax_of_ne (hne : s ≠ [47]) : PathSyntax s where
  accepted := fun p hs => by rw [rfsChkfilepath_eq hs hne, chkPath_eq_zero_iff hne]
  unread := fun p q hp hq => by rw [rfsChkfilepath_eq hp hne, rfsChkfilepath_eq hq hne]
  stored := fun p hs hzero n hn buf => by
    have hvalid : ValidPath s := by
      rw [← chkPath_eq_zero_iff hne, ← rfsChkfilepath_eq hs hne]
      exact hzero
    obtain ⟨name, rfl, -, hlt, -⟩ := hvalid
    have hrest : Spells (fun i => p (i + 1)) name := hs.2
    have hcopy : ∀ {k} {d : Nat → UInt8}, drNmMax ≤ k →
        rfsStrcpy k (fun i => p (i + 1)) d 0 = blit (fun i => p (i + 1)) d 0 (name.length + 1) :=
      fun hk => rfsStrcpy_of_spells hrest (by omega)
    refine ⟨?_, ?_, fun i hi => ?_⟩
    · rw [rfsRetFname, if_neg (not_not.mpr hzero), hcopy le_rfl, hcopy hn]
    · rw [hcopy hn]
      refine hrest.congr fun i hi => ?_
      rw [blit, if_pos ⟨Nat.zero_le i, by omega⟩]
      rfl
    · rw [hcopy hn]
      exact blit_of_outside (.inr (by omega))

def rootThen (c : UInt8) : Nat → UInt8 := fun i => if i = 0 then 47 else if i = 2 then c else 0

theorem spells_rootThen (c : UInt8) : Spells (rootThen c) [47] := ⟨⟨rfl, by decide⟩, rfl⟩

theorem not_pathSyntax_root : ¬ PathSyntax [47] := fun h =>
  absurd (h.unread _ _ (spells_rootThen 0) (spells_rootThen 47)) (by decide +kernel)

/-- The path `/` is accepted, or not, as the byte behind its terminating zero is zero or a slash. -/
theorem root_path_read_on : rfsChkfilepath (rootThen 0) = 0 ∧ rfsChkfilepath (rootThen 47) = 3 ∧ ¬ PathSyntax [47] :=
  ⟨by decide +kernel, by decide +kernel, not_pathSyntax_root⟩

/-- **Paths are checked as they should be, the path that is a slash alone excepted.** -/
theorem path_syntax_iff (s : List UInt8) : PathSyntax s ↔ s ≠ [47] := by
  constructor
  · rintro h rfl
    exact not_pathSyntax_root h
  · exact pathSyntax_of_ne

end Cosmos.Rfs
