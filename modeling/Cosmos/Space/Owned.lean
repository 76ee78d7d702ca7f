import Cosmos.Mmu.Undo
import Cosmos.Space.Model

/-!
# Tables, frames and mappings of all address spaces

The live blocks of the page allocator are the tables of the address spaces, the user frames and the blocks of
everyone else. Every address space owns its tables beside all other blocks (`Owned`). That a user mapping leads to a
user frame that no other mapping leads to (`Faithful`) is kept apart: an unmapping sees 40 bits of a frame only, so it
holds where all frames are below `2 ^ 40`. What a call changes is said by how it changes `look`, the translation of
every page of every space.
-/

namespace Cosmos.Space

open Cosmos.Lib Cosmos.Page Cosmos.Mmu Function

variable {A : PageAlloc} {L : Lawful A} {s t : Sys A} {frames frames' : List Nat} {rest rest' : List Blk} {i v : Nat}

namespace Sys

def addr (s : Sys A) : Nat → Nat := A.msadscRetAddr s.alc

/-- The frame that page `v` of space `i` maps to, `0` for none. -/
def look (s : Sys A) (i v : Nat) : Nat := lookup (s.st i) v

def list (s : Sys A) (b : Nat) : List Nat := (s.box b).kmbMsalist

def tables (s : Sys A) (l : List Nat) : List Nat := l.flatMap fun i => (s.mm i).msdMmu.tables

/-- The live blocks, with the user frames `frames` and the blocks `rest` of everyone else. -/
def blocks (s : Sys A) (frames : List Nat) (rest : List Blk) : List Blk :=
  (s.tables (List.range s.mmnr) ++ frames).map (·, 1) ++ rest

/-- The live blocks without the tables of space `i`. -/
def others (s : Sys A) (i : Nat) (frames : List Nat) (rest : List Blk) : List Blk :=
  (s.tables ((List.range s.mmnr).erase i) ++ frames).map (·, 1) ++ rest

theorem blocks_perm (s : Sys A) (frames : List Nat) (rest : List Blk) (hi : i < s.mmnr) :
    ((s.mm i).msdMmu.tables.map (·, 1) ++ s.others i frames rest).Perm (s.blocks frames rest) := by
  have hrange : (List.range s.mmnr).Perm (i :: (List.range s.mmnr).erase i) :=
    List.perm_cons_erase (List.mem_range.mpr hi)
  have htables : ((s.mm i).msdMmu.tables ++ s.tables ((List.range s.mmnr).erase i)).Perm
      (s.tables (List.range s.mmnr)) := by
    have hflat := hrange.flatMap_right fun i => (s.mm i).msdMmu.tables
    rw [List.flatMap_cons] at hflat
    exact hflat.symm
  unfold others blocks
  rw [← List.append_assoc, ← List.map_append, ← List.append_assoc]
  exact ((htables.append_right frames).map _).append_right rest

theorem blocks_cons (s : Sys A) (msa : Nat) (frames : List Nat) (rest : List Blk) :
    (s.blocks (msa :: frames) rest).Perm ((msa, 1) :: s.blocks frames rest) :=
  (List.perm_middle.map _).append_right rest

theorem blocks_congr (s : Sys A) (rest : List Blk) (h : frames.Perm frames') :
    (s.blocks frames rest).Perm (s.blocks frames' rest) := ((h.append_left _).map _).append_right rest

theorem blocks_erase (s : Sys A) {msa : Nat} (rest : List Blk) (h : msa ∈ frames) :
    (s.blocks frames rest).Perm ((msa, 1) :: s.blocks (frames.erase msa) rest) :=
  (s.blocks_congr rest (List.perm_cons_erase h)).trans (s.blocks_cons msa _ rest)

theorem mem_blocks_of_frame {msa : Nat} (h : msa ∈ frames) : (msa, 1) ∈ s.blocks frames rest :=
  List.mem_append_left _ (List.mem_map_of_mem (List.mem_append_right _ h))

theorem mem_others_of_frame {msa : Nat} (h : msa ∈ frames) : (msa, 1) ∈ s.others i frames rest :=
  List.mem_append_left _ (List.mem_map_of_mem (List.mem_append_right _ h))

theorem mem_others_of_table {j msa : Nat} (hj : j < s.mmnr) (hne : j ≠ i) (h : msa ∈ (s.mm j).msdMmu.tables) :
    (msa, 1) ∈ s.others i frames rest := by
  refine List.mem_append_left _ (List.mem_map_of_mem (List.mem_append_left _ (List.mem_flatMap.mpr ⟨j, ?_, h⟩)))
  exact (List.mem_erase_of_ne hne).mpr (List.mem_range.mpr hj)

@[simp] theorem setSt_mmnr (s : Sys A) (i : Nat) (st : St A) : (s.setSt i st).mmnr = s.mmnr := rfl

@[simp] theorem st_setSt (s : Sys A) (i : Nat) (st : St A) : (s.setSt i st).st i = st := by
  simp only [Sys.st, setSt, update_self]

theorem others_setSt (s : Sys A) (i : Nat) (st : St A) (frames : List Nat) (rest : List Blk) :
    (s.setSt i st).others i frames rest = s.others i frames rest := by
  have htables : (s.setSt i st).tables ((List.range s.mmnr).erase i) = s.tables ((List.range s.mmnr).erase i) := by
    refine List.flatMap_congr fun j hj => ?_
    have hne : j ≠ i := (List.nodup_range.mem_erase_iff.mp hj).1
    simp only [setSt, update_of_ne hne]
  unfold others
  rw [setSt_mmnr, htables]

theorem look_congr (hmmu : ∀ i, (t.mm i).msdMmu = (s.mm i).msdMmu) (hmem : t.mem = s.mem) (i v : Nat) :
    t.look i v = s.look i v := by
  simp only [look, lookup, St.root, Sys.st, hmmu, hmem]

end Sys

/-! ### Pages of the user's half -/

theorem userHalf_of_lt (hv : v < 2 ^ 47) : UserHalf v := by
  unfold UserHalf mmuTdireIndex
  omega

theorem pageOf_eq_iff {w : Nat} (hv : v < 2 ^ 47) (hw : w < 2 ^ 47) :
    pageOf w = pageOf v ↔ w / 0x1000 = v / 0x1000 := by
  unfold pageOf
  omega

/-! ### The tables -/

/-- Every address space owns its tables beside the other live blocks. -/
structure Owned (L : Lawful A) (s : Sys A) (frames : List Nat) (rest : List Blk) : Prop where
  live : L.Inv s.alc (s.blocks frames rest)
  owns : ∀ i < s.mmnr, Owns L (s.st i) (s.others i frames rest) 0

namespace Owned

theorem env (h : Owned L s frames rest) (hnr : t.mmnr = s.mmnr) (hmmu : ∀ i, (t.mm i).msdMmu = (s.mm i).msdMmu)
    (haddr : t.addr = s.addr) (hlive : L.Inv t.alc (s.blocks frames' rest'))
    (hmem : ∀ i < s.mmnr, ∀ msa ∈ (s.mm i).msdMmu.tables, t.mem (s.addr msa) = s.mem (s.addr msa)) :
    Owned L t frames' rest' ∧ ∀ i < s.mmnr, ∀ v < 2 ^ 47, t.look i v = s.look i v := by
  have htables : t.tables = s.tables := by
    funext l
    simp only [Sys.tables, hmmu]
  have hothers : ∀ i, t.others i frames' rest' = s.others i frames' rest' := by
    intro i
    simp only [Sys.others, htables, hnr]
  have hrel : ∀ i < s.mmnr, Others L (s.st i, s.others i frames rest) (t.st i, t.others i frames' rest') := by
    intro i hi
    refine ⟨hmmu i, haddr, ?_, hmem i hi⟩
    rw [hothers]
    exact L.perm hlive (s.blocks_perm frames' rest' hi).symm
  refine ⟨⟨?_, fun i hi => ?_⟩, fun i hi v hv => (hrel i hi).lookup_eq (h.owns i hi) (userHalf_of_lt hv)⟩
  · simpa only [Sys.blocks, htables, hnr] using hlive
  · rw [hnr] at hi
    exact (hrel i hi).owns (h.owns i hi)

theorem same (h : Owned L s frames rest) (hnr : t.mmnr = s.mmnr) (hmmu : ∀ i, (t.mm i).msdMmu = (s.mm i).msdMmu)
    (halc : t.alc = s.alc) (hmem : t.mem = s.mem) : Owned L t frames rest :=
  (h.env hnr hmmu (by rw [Sys.addr, halc]; rfl) (halc ▸ h.live) fun _ _ _ _ => by rw [hmem]).1

theorem setSt {st' : St A} (h : Owned L s frames rest) (hi : i < s.mmnr)
    (hown : Owns L st' (s.others i frames rest) 0) (hout : Outside (s.st i) st' (s.others i frames rest)) :
    Owned L (s.setSt i st') frames rest ∧ (s.setSt i st').addr = s.addr ∧
      ∀ j < s.mmnr, j ≠ i → ∀ v, UserHalf v → (s.setSt i st').look j v = s.look j v := by
  have hperm := (s.setSt i st').blocks_perm frames rest (i := i) hi
  have hmmu : ((s.setSt i st').mm i).msdMmu = st'.mmu := congrArg St.mmu (s.st_setSt i st')
  rw [hmmu, Sys.others_setSt] at hperm
  have hlive : L.Inv st'.alc ((s.setSt i st').blocks frames rest) := L.perm hown.inv hperm
  have hrel : ∀ j < s.mmnr, j ≠ i →
      Others L (s.st j, s.others j frames rest) ((s.setSt i st').st j, (s.setSt i st').others j frames rest) := by
    intro j hj hne
    have hmm : ((s.setSt i st').mm j) = s.mm j := update_of_ne hne _ _
    have hpermj := (s.setSt i st').blocks_perm frames rest (i := j) hj
    rw [hmm] at hpermj
    refine ⟨congrArg Mmadrsdsc.msdMmu hmm, hout.addr, L.perm hlive hpermj.symm, fun msa hmsa => ?_⟩
    exact hout.rest (msa, 1) (Sys.mem_others_of_table hj hne hmsa) (s.addr msa) le_rfl
      (Nat.lt_add_of_pos_right (show 0 < 1 * 0x1000 by decide))
  refine ⟨⟨hlive, fun j hj => ?_⟩, hout.addr, fun j hj hne v hv => (hrel j hj hne).lookup_eq (h.owns j hj) hv⟩
  by_cases hji : j = i
  · subst hji
    rw [Sys.st_setSt, Sys.others_setSt]
    exact hown
  · exact (hrel j hj hji).owns (h.owns j hj)

variable {msa msa' : Nat}

theorem frames_nodup (h : Owned L s frames rest) : frames.Nodup := by
  have hnodup := (List.nodup_append.mp (L.nodup h.live)).1.of_map _
  exact (List.nodup_append.mp hnodup).2.1

theorem addr_inj (h : Owned L s frames rest) (hmsa : msa ∈ frames) (hmsa' : msa' ∈ frames)
    (heq : s.addr msa = s.addr msa') : msa = msa' :=
  congrArg Prod.fst (L.eq_of_addr h.live (Sys.mem_blocks_of_frame hmsa) (Sys.mem_blocks_of_frame hmsa') heq)

theorem mapArgs (h : Owned L s frames rest) (hmsa : msa ∈ frames) :
    MapArgs (s.addr msa) (pml4eUs ||| pml4eRw ||| pml4eP) := by
  obtain ⟨-, hpos, hdvd, hlt⟩ := L.frame h.live _ (Sys.mem_blocks_of_frame hmsa)
  exact ⟨hdvd, hpos, lt_of_lt_of_le (Nat.lt_add_of_pos_right (by simp)) hlt, by decide, by decide⟩

theorem ne_table (h : Owned L s frames rest) (hmsa : msa ∈ frames) (hi : i < s.mmnr)
    (htbl : msa' ∈ (s.mm i).msdMmu.tables) : s.addr msa' ≠ s.addr msa := by
  intro heq
  have hinv := L.perm h.live (s.blocks_perm frames rest hi).symm
  have hmem : (msa', 1) ∈ (s.mm i).msdMmu.tables.map (·, 1) := List.mem_map_of_mem htbl
  have hframe : (msa, 1) ∈ s.others i frames rest := Sys.mem_others_of_frame hmsa
  have hsame := L.eq_of_addr hinv (List.mem_append_left _ hmem) (List.mem_append_right _ hframe) heq
  exact (List.nodup_append.mp (L.nodup hinv)).2.2 _ hmem _ hframe hsame

end Owned

/-! ### One page of one space -/

theorem Owned.setPage {st' : St A} {p : Nat} (h : Owned L s frames rest) (hi : i < s.mmnr) (hv : v < 2 ^ 47)
    (hown : Owns L st' (s.others i frames rest) 0) (hout : Outside (s.st i) st' (s.others i frames rest))
    (hpage : ∀ w, UserHalf w → lookup st' w = if pageOf w = pageOf v then p else s.look i w) :
    Owned L (s.setSt i st') frames rest ∧ (s.setSt i st').addr = s.addr ∧
      ∀ j < s.mmnr, ∀ w < 2 ^ 47, (s.setSt i st').look j w =
        if j = i ∧ w / 0x1000 = v / 0x1000 then p else s.look j w := by
  obtain ⟨howned, haddr, hother⟩ := h.setSt hi hown hout
  refine ⟨howned, haddr, fun j hj w hw => ?_⟩
  by_cases hji : j = i
  · subst hji
    have hst : (s.setSt j st').look j w = lookup st' w := congrArg (lookup · w) (s.st_setSt j st')
    rw [hst, hpage w (userHalf_of_lt hw)]
    simp only [pageOf_eq_iff hv hw, true_and]
  · rw [hother j hj hji w (userHalf_of_lt hw), if_neg fun hand => hji hand.1]

theorem Owned.restored {st' : St A} (h : Owned L s frames rest) (hi : i < s.mmnr)
    (hr : Restored L (s.others i frames rest) (s.st i) st') :
    Owned L (s.setSt i st') frames rest ∧ (s.setSt i st').addr = s.addr ∧
      (∀ j < s.mmnr, ∀ w < 2 ^ 47, (s.setSt i st').look j w = s.look j w) ∧
      ∀ j, ((s.setSt i st').mm j).msdMmu = (s.mm j).msdMmu := by
  have hmmu : ∀ j, ((s.setSt i st').mm j).msdMmu = (s.mm j).msdMmu := by
    intro j
    by_cases hj : j = i
    · subst hj
      exact (congrArg St.mmu (s.st_setSt j st')).trans hr.others.mmu
    · exact congrArg Mmadrsdsc.msdMmu (update_of_ne hj _ _)
  have hlive : L.Inv st'.alc (s.blocks frames rest) := L.perm hr.others.inv (s.blocks_perm frames rest hi)
  -- a page that was written in between lay beside the live blocks
  have hmem : ∀ j < s.mmnr, ∀ msa ∈ (s.mm j).msdMmu.tables, st'.mem (s.addr msa) = s.mem (s.addr msa) := by
    intro j hj msa hmsa
    by_contra hne
    obtain ⟨alc, msa', haddr, hinv, heq⟩ := hr.pages _ hne
    have hblock : (msa, 1) ∈ (s.st i).mmu.tables.map (·, 1) ++ s.others i frames rest := by
      by_cases hji : j = i
      · subst hji
        exact List.mem_append_left _ (List.mem_map_of_mem hmsa)
      · exact List.mem_append_right _ (Sys.mem_others_of_table hj hji hmsa)
    have hsame := L.eq_of_addr hinv List.mem_cons_self (List.mem_cons_of_mem _ hblock) (by
      rw [haddr]
      exact heq)
    exact (List.nodup_cons.mp (L.nodup hinv)).1 (hsame ▸ hblock)
  obtain ⟨howned, hlook⟩ := h.env (t := s.setSt i st') rfl hmmu hr.others.addr hlive hmem
  exact ⟨howned, hr.others.addr, hlook, hmmu⟩

/-- **Mapping** a user frame. -/
theorem Owned.map {msa : Nat} (h : Owned L s frames rest) (hi : i < s.mmnr) (hv : v < 2 ^ 47) (hmsa : msa ∈ frames) :
    ∃ rets st', halMmuTransform (s.st i) v (s.addr msa) (pml4eUs ||| pml4eRw ||| pml4eP) = .ok (rets, st') ∧
      Owned L (s.setSt i st') frames rest ∧ (s.setSt i st').addr = s.addr ∧
      (∀ j < s.mmnr, ∀ w < 2 ^ 47, (s.setSt i st').look j w =
        if rets = true ∧ j = i ∧ w / 0x1000 = v / 0x1000 then s.addr msa else s.look j w) ∧
      (rets = false → ∀ j, ((s.setSt i st').mm j).msdMmu = (s.mm j).msdMmu) := by
  obtain ⟨rets, st', heq, hown, hout, hpage⟩ :=
    halMmuTransform_spec (h.owns i hi) (userHalf_of_lt hv) (h.mapArgs hmsa)
  refine ⟨rets, st', heq, ?_⟩
  cases rets with
  | true =>
    simp only [true_and] at hpage ⊢
    obtain ⟨howned, haddr, hlook⟩ := h.setPage hi hv hown hout hpage
    exact ⟨howned, haddr, hlook, fun hfalse => by cases hfalse⟩
  | false =>
    obtain ⟨howned, haddr, hlook, hmmu⟩ :=
      h.restored hi (halMmuTransform_undo (h.owns i hi) (userHalf_of_lt hv) (h.mapArgs hmsa) heq)
    refine ⟨howned, haddr, fun j hj w hw => ?_, fun _ => hmmu⟩
    rw [hlook j hj w hw, if_neg fun hand => by cases hand.1]

/-- **Unmapping** a page: the caller sees the lower 40 bits of the frame. -/
theorem Owned.unmap (h : Owned L s frames rest) (hi : i < s.mmnr) (hv : v < 2 ^ 47) :
    ∃ st', halMmuUntransform (s.st i) v = .ok (bits 40 (s.look i v), st') ∧
      Owned L (s.setSt i st') frames rest ∧ (s.setSt i st').addr = s.addr ∧
      ∀ j < s.mmnr, ∀ w < 2 ^ 47, (s.setSt i st').look j w =
        if j = i ∧ w / 0x1000 = v / 0x1000 then 0 else s.look j w := by
  obtain ⟨st', heq, hown, hout, hpage⟩ := halMmuUntransform_spec (h.owns i hi) (userHalf_of_lt hv)
  exact ⟨st', heq, h.setPage hi hv hown hout hpage⟩

/-! ### The mappings -/

/-- Every user mapping leads to a user frame, and to a frame of its own. -/
structure Faithful (s : Sys A) (frames : List Nat) : Prop where
  mapped : ∀ i < s.mmnr, ∀ v < 2 ^ 47, s.look i v ≠ 0 → ∃ msa ∈ frames, s.addr msa = s.look i v
  once : ∀ i < s.mmnr, ∀ i' < s.mmnr, ∀ v < 2 ^ 47, ∀ v' < 2 ^ 47, s.look i v ≠ 0 → s.look i v = s.look i' v' →
    i = i' ∧ v / 0x1000 = v' / 0x1000

theorem Faithful.congr (h : Faithful s frames) (hnr : t.mmnr = s.mmnr) (haddr : t.addr = s.addr)
    (hlook : ∀ i < s.mmnr, ∀ v < 2 ^ 47, t.look i v = s.look i v) : Faithful t frames := by
  refine ⟨fun i hi v hv hne => ?_, fun i hi i' hi' v hv v' hv' hne heq => ?_⟩
  · rw [hnr] at hi
    rw [hlook i hi v hv] at hne ⊢
    rw [haddr]
    exact h.mapped i hi v hv hne
  · rw [hnr] at hi hi'
    rw [hlook i hi v hv] at hne heq
    rw [hlook i' hi' v' hv'] at heq
    exact h.once i hi i' hi' v hv v' hv' hne heq

/-- **One page changes**: it leads nowhere or to a frame that no page led to, and a frame that is given back is not led
to any more. -/
theorem Faithful.setPage {p : Nat} (h : Faithful s frames) (hnr : t.mmnr = s.mmnr) (haddr : t.addr = s.addr)
    (hlook : ∀ j < s.mmnr, ∀ w < 2 ^ 47, t.look j w = if j = i ∧ w / 0x1000 = v / 0x1000 then p else s.look j w)
    (hp : p = 0 ∨ (∃ msa ∈ frames', s.addr msa = p) ∧ ∀ j < s.mmnr, ∀ w < 2 ^ 47, s.look j w ≠ p)
    (hframes : ∀ msa ∈ frames, msa ∈ frames' ∨ ∀ j < s.mmnr, ∀ w < 2 ^ 47, t.look j w ≠ s.addr msa) :
    Faithful t frames' := by
  refine ⟨fun j hj w hw hne => ?_, fun j hj j' hj' w hw w' hw' hne heq => ?_⟩
  · rw [hnr] at hj
    have hsame := hlook j hj w hw
    rw [haddr]
    by_cases hset : j = i ∧ w / 0x1000 = v / 0x1000
    · rw [hsame, if_pos hset] at hne ⊢
      exact (hp.resolve_left hne).1
    · rw [if_neg hset] at hsame
      rw [hsame] at hne
      obtain ⟨msa, hmsa, heq⟩ := h.mapped j hj w hw hne
      refine ⟨msa, (hframes msa hmsa).resolve_right fun hfree => hfree j hj w hw ?_, ?_⟩ <;> rw [hsame, heq]
  · rw [hnr] at hj hj'
    rw [hlook j hj w hw] at hne heq
    rw [hlook j' hj' w' hw'] at heq
    by_cases hset : j = i ∧ w / 0x1000 = v / 0x1000
    · rw [if_pos hset] at hne heq
      by_cases hset' : j' = i ∧ w' / 0x1000 = v / 0x1000
      · omega
      · rw [if_neg hset'] at heq
        exact absurd heq.symm ((hp.resolve_left hne).2 j' hj' w' hw')
    · rw [if_neg hset] at hne heq
      by_cases hset' : j' = i ∧ w' / 0x1000 = v / 0x1000
      · rw [if_pos hset'] at heq
        rw [heq] at hne
        exact absurd heq ((hp.resolve_left hne).2 j hj w hw)
      · rw [if_neg hset'] at heq
        exact h.once j hj j' hj' w hw w' hw' hne heq

end Cosmos.Space
