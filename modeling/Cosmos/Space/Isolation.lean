import Cosmos.Space.Refused

/-!
# Isolation of the address spaces

A frame is the target of one page of one address space, it is live in the page allocator and no table is such a
target, in every state of every run in which no range wraps, on a machine whose pages lie below `2 ^ 40`
(`isolated_of_run`). The invariant of the runs says it of its own list of frames; here it is said of the translations
alone.

With a range that wraps, an interval of a process reaches into the kernel's half of its tables. There the walk of
`hal_mmu_untransform` takes a page of 2 MB for a table, and a word of kernel memory for a user frame
(`mapped_frame_freed`).
-/

namespace Cosmos.Space

open Cosmos.Lib Cosmos.Page Cosmos.Mmu Cosmos.Vma

variable {A : PageAlloc} {L : Lawful A} {image : Nat → UInt8} {s t : Sys A} {frames : List Nat} {rest : List Blk}

/-- The live blocks of the allocator have every mapped frame as a block of one page. -/
def MappedLive (L : Lawful A) (s : Sys A) : Prop :=
  ∃ live, L.Inv s.alc live ∧
    ∀ i < s.mmnr, ∀ v < 2 ^ 47, s.look i v ≠ 0 → ∃ msa, (msa, 1) ∈ live ∧ s.addr msa = s.look i v

/-- No two pages share a frame, every mapped frame is live, and none is a table of any address space. -/
structure Isolated (L : Lawful A) (s : Sys A) : Prop where
  once : ∀ i < s.mmnr, ∀ j < s.mmnr, ∀ v < 2 ^ 47, ∀ w < 2 ^ 47, s.look i v ≠ 0 → s.look i v = s.look j w →
    i = j ∧ v / 0x1000 = w / 0x1000
  live : MappedLive L s
  tables : ∀ i < s.mmnr, ∀ v < 2 ^ 47, s.look i v ≠ 0 → ∀ j < s.mmnr, ∀ msa ∈ (s.mm j).msdMmu.tables,
    s.addr msa ≠ s.look i v

theorem Faithful.mappedLive (h : Faithful s frames) (howned : Owned L s frames rest) : MappedLive L s := by
  refine ⟨s.blocks frames rest, howned.live, fun i hi v hv hne => ?_⟩
  obtain ⟨msa, hmsa, haddr⟩ := h.mapped i hi v hv hne
  exact ⟨msa, Sys.mem_blocks_of_frame hmsa, haddr⟩

theorem Faithful.isolated (h : Faithful s frames) (howned : Owned L s frames rest) : Isolated L s where
  once := h.once
  live := h.mappedLive howned
  tables := by
    intro i hi v hv hne j hj msa hmsa heq
    obtain ⟨frame, hframe, haddr⟩ := h.mapped i hi v hv hne
    exact howned.ne_table hframe hj hmsa (heq.trans haddr.symm)

/-- **Isolation**: whatever calls on whatever address spaces follow one another. -/
theorem isolated_of_run {cs : List Call} (hlow : L.Low) (h : Ran L image cs s rest) (hcs : ∀ c ∈ cs, c.NoWrap) :
    Isolated L s := by
  obtain ⟨frames, hinv, hfaith⟩ := inv_of_run h hcs
  exact (hfaith hlow).isolated hinv.owned

/-- Two processes with a page of the stack each. -/
theorem isolated_of_two : ∃ s : Sys bump, Ran bumpLawful (fun _ => 0)
    [.create 0 (some 1) (some 2) (some 3) none, .create 0 (some 4) (some 5) (some 6) none,
      .fault 0 0x7fffffffe000 (some 9), .fault 1 0x7fffffffe000 (some 10)] s [] ∧
    s.look 0 0x7fffffffe000 = 0x3000 ∧ s.look 1 0x7fffffffe000 = 0x7000 ∧ Isolated bumpLawful s := by
  obtain ⟨s, hrun, hs⟩ := Halt.exists_of_map
    (x := runCalls (fun _ => 0) (bootSys (A := bump) (0 : Nat))
      [.create 0 (some 1) (some 2) (some 3) none, .create 0 (some 4) (some 5) (some 6) none,
        .fault 0 0x7fffffffe000 (some 9), .fault 1 0x7fffffffe000 (some 10)])
    (f := fun s => (s.look 0 0x7fffffffe000, s.look 1 0x7fffffffe000)) (b := (0x3000, 0x7000)) (by decide +kernel)
  obtain ⟨hfirst, hsecond⟩ := Prod.mk.inj hs
  have hran := ran_of_runCalls (L := bumpLawful) bump_empty hrun
  refine ⟨s, hran, hfirst, hsecond, isolated_of_run bump_low hran ?_⟩
  simp [Call.NoWrap]

/-! ### A range that wraps -/

/-- The memory at boot: the root table at `0x100000`, with the kernel's half mapped by pages of 2 MB, and a kernel page
at `0x2200000` whose first two words are data. -/
def kernelMem : Nat → Nat → Nat
  | 0x100000, 256 => 0x101003
  | 0x101000, 0 => 0x102003
  | 0x102000, 17 => 0x2200083
  | 0x2200000, 0 => 0x2001
  | 0x2200000, 1 => 1
  | _, _ => 0

/-- A process with the page `0x1000`; the deletion of a range that wraps lets its first interval end in the kernel's
half, and the next deletion is of a kernel page. -/
def freeKernelPage : List Call :=
  [.create 0x100000 (some 1) (some 2) (some 3) none, .fault 0 0x1000 (some 9),
    .delVadrs 0 0xffff800040000000 0x7fffc0005000 none, .delVadrs 0 0xffff800002200000 0x1000 (some 4)]

def Sys.shelved (s : Sys shelf) : List Nat := s.alc

theorem not_mappedLive_of_free {n v m : Nat} {hn : n ≤ 0x1000} {s : Sys shelf} (hi : 0 < s.mmnr) (hv : v < 2 ^ 47)
    (hlook : s.look 0 v = (m + 1) * 0x1000) (hfree : m ∈ s.shelved) :
    ¬MappedLive (shelfLawful n hn) s := by
  rintro ⟨live, hlive, hmapped⟩
  obtain ⟨m', hmem, haddr⟩ := hmapped 0 hi v hv (by omega)
  have hsame : m' = m := by
    have haddr' : (m' + 1) * 0x1000 = (m + 1) * 0x1000 := haddr.trans hlook
    omega
  subst hsame
  have hnodup : (s.shelved.map (·, 1) ++ live).Nodup :=
    (show List.Perm _ _ from hlive).nodup_iff.mpr (List.nodup_range.map fun _ _ heq => congrArg Prod.fst heq)
  exact (List.nodup_append.mp hnodup).2.2 _ (List.mem_map_of_mem hfree) _ hmem rfl

/-- The walk for the kernel page finds the word `0x2001` where an entry should be: the frame `0x2000` is freed, and
page `0x1000` still maps it. -/
theorem mapped_frame_freed : ∃ s : Sys shelf,
    Ran (shelfLawful 5 (by decide)) (fun _ => 0) freeKernelPage s [] ∧ s.look 0 0x1000 = 0x2000 ∧
      ¬Isolated (shelfLawful 5 (by decide)) s := by
  obtain ⟨s, hrun, hs⟩ := Halt.exists_of_map
    (x := runCalls (fun _ => 0) { bootSys (A := shelf) [0, 1, 2, 3, 4] with mem := kernelMem } freeKernelPage)
    (f := fun s => (s.mmnr, s.look 0 0x1000, s.shelved)) (b := (1, 0x2000, [1])) (by decide +kernel)
  obtain ⟨hnr, hs⟩ := Prod.mk.inj hs
  obtain ⟨hlook, hfree⟩ := Prod.mk.inj hs
  have hboot : Boot (shelfLawful 5 (by decide)) { bootSys (A := shelf) [0, 1, 2, 3, 4] with mem := kernelMem } [] :=
    ⟨rfl, rfl, rfl, shelf_empty 5 (by decide)⟩
  refine ⟨s, ⟨_, [], hboot, trace_of_runCalls hrun⟩, hlook, fun hisolated => ?_⟩
  exact not_mappedLive_of_free (v := 0x1000) (m := 1) (by omega) (by decide) hlook (by rw [hfree]; simp)
    hisolated.live

end Cosmos.Space
