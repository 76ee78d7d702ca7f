import Cosmos.Page.Memmap

/-!
# The allocator of the UEFI loader (`initldr/uefi/ldrkrl/chkcpmm.c`)

`LoaderAllocMemory` hands out the memory at `mb_nextwtpadr` and moves that up to the next page behind it, if
`MemoryIsFree` finds the range inside a usable entry of the memory map. Three things are missing: an entry of length `0`
at address `0` is taken for all of memory, the end of a range may wrap, and at address `0` the answer is `NULL`, though
the memory was handed out. On a map without that entry, with its usable memory 4 GiB below `2 ^ 64`, and from an address
other than `0` on, none of them occurs.
-/

namespace Cosmos.Ldr

open Cosmos.Lib Cosmos.Page

def ramUsable : Nat := 1

def entryIsFree (start size : Nat) (e : E820map) : Bool :=
  decide (e.type = ramUsable ∧ e.saddr ≤ start ∧ u64 (start + size) < u64 (e.saddr + u64Sub e.lsize 1))

/-- `MemoryIsFree`, with what `GetLoaderinfo` gives: the entries of the memory map, or `NULL`. -/
def memoryIsFree (info : Option (List E820map)) (start size : Nat) : Bool :=
  match info with
  | none => false
  | some emap => emap.any (entryIsFree start size)

/-- `LoaderAllocMemory`, with what `GetMachbstart` gives: a `machbstart_t` with this `mb_nextwtpadr`, or `NULL`. -/
def loaderAllocMemory (info : Option (List E820map)) (mbsp : Option Nat) (size : Nat) : Nat × Option Nat :=
  match mbsp with
  | none => (0, none)
  | some start =>
    if size = 0 then (0, some start)
    else if memoryIsFree info start size = false then (0, some start)
    else (start, some (alignUp (u64 (start + size)) 0x1000))

/-- One call: what it was asked for and what it returned, with `mb_nextwtpadr` before and after. -/
structure Call where
  size : Nat
  ret : Nat
  before : Option Nat
  after : Option Nat
  deriving DecidableEq, Repr

def allocs (info : Option (List E820map)) : Option Nat → List Nat → List Call
  | _, [] => []
  | mbsp, size :: sizes =>
    let r := loaderAllocMemory info mbsp size
    ⟨size, r.1, mbsp, r.2⟩ :: allocs info r.2 sizes

/-! ### One call -/

variable {info : Option (List E820map)} {start size p : Nat} {sizes : List Nat}

def Inside (info : Option (List E820map)) (start size : Nat) : Prop :=
  ∃ e ∈ info.getD [], e.type = ramUsable ∧ e.saddr ≤ start ∧ start + size ≤ e.saddr + e.lsize

theorem memoryIsFree_iff : memoryIsFree info start size = true ↔ ∃ e ∈ info.getD [], e.type = ramUsable ∧
    e.saddr ≤ start ∧ u64 (start + size) < u64 (e.saddr + u64Sub e.lsize 1) := by
  cases info with
  | none => simp [memoryIsFree]
  | some emap => simp [memoryIsFree, entryIsFree]

def nextwt (start size : Nat) : Nat := alignUp (u64 (start + size)) 0x1000

/-! ### A sequence of calls -/

namespace Call

def Succeeds (c : Call) : Prop := c.ret ≠ 0

instance (c : Call) : Decidable c.Succeeds := inferInstanceAs (Decidable (_ ≠ _))

def Apart (c d : Call) : Prop := c.ret + c.size ≤ d.ret ∨ d.ret + d.size ≤ c.ret

end Call

/-- What is handed out is inside usable entries and nowhere twice, and a call that returns `NULL` does nothing. -/
structure Sound (info : Option (List E820map)) (calls : List Call) : Prop where
  inside : ∀ c ∈ calls, c.Succeeds → Inside info c.ret c.size
  apart : calls.Pairwise fun c d => c.Succeeds → d.Succeeds → c.Apart d
  null : ∀ c ∈ calls, c.ret = 0 → c.after = c.before

theorem Sound.nil : Sound info [] := ⟨by simp, .nil, by simp⟩

theorem Sound.cons {c : Call} {calls : List Call} (h : Sound info calls) (hin : c.Succeeds → Inside info c.ret c.size)
    (hapart : c.Succeeds → ∀ d ∈ calls, d.Succeeds → c.Apart d) (hnull : c.ret = 0 → c.after = c.before) :
    Sound info (c :: calls) := by
  refine ⟨List.forall_mem_cons.mpr ⟨hin, h.inside⟩, ?_, List.forall_mem_cons.mpr ⟨hnull, h.null⟩⟩
  exact List.pairwise_cons.mpr ⟨fun d hd hc => hapart hc d hd, h.apart⟩

theorem allocs_cons_cases (info : Option (List E820map)) (p : Nat) (hsize : 0 < size) (sizes : List Nat) :
    (memoryIsFree info p size = false ∧
      allocs info (some p) (size :: sizes) = ⟨size, 0, some p, some p⟩ :: allocs info (some p) sizes) ∨
    (memoryIsFree info p size = true ∧ allocs info (some p) (size :: sizes) =
      ⟨size, p, some p, some (nextwt p size)⟩ :: allocs info (some (nextwt p size)) sizes) := by
  have hcons : allocs info (some p) (size :: sizes) =
      ⟨size, (loaderAllocMemory info (some p) size).1, some p, (loaderAllocMemory info (some p) size).2⟩ ::
        allocs info (loaderAllocMemory info (some p) size).2 sizes := rfl
  rw [hcons, loaderAllocMemory, if_neg hsize.ne']
  cases hfree : memoryIsFree info p size with
  | false => exact .inl ⟨rfl, rfl⟩
  | true => exact .inr ⟨rfl, rfl⟩

/-! ### Maps on which every call is sound -/

/-- No usable entry is the empty one at `0`, and usable memory and `mb_nextwtpadr` end 4 GiB below `2 ^ 64`. -/
structure Tame (info : Option (List E820map)) (p : Nat) : Prop where
  usable : ∀ e ∈ info.getD [], e.type = ramUsable → ¬(e.saddr = 0 ∧ e.lsize = 0) ∧ e.saddr + e.lsize ≤ 2 ^ 64 - 2 ^ 32
  ne_zero : p ≠ 0
  le : p ≤ 2 ^ 64 - 2 ^ 32

theorem Tame.step (h : Tame info p) (hlt : size < 2 ^ 32) (hfree : memoryIsFree info p size = true) :
    Inside info p size ∧ p + size ≤ nextwt p size ∧ Tame info (nextwt p size) := by
  obtain ⟨e, he, husable, hstart, hend⟩ := memoryIsFree_iff.mp hfree
  obtain ⟨hempty, htop⟩ := h.usable e he husable
  have hne := h.ne_zero
  have hle := h.le
  -- the entry is not empty: `saddr - 1`, where the test would end, is below `start`
  have hin : p + size < e.saddr + e.lsize := by
    unfold u64 u64Sub at hend
    omega
  refine ⟨⟨e, he, husable, hstart, hin.le⟩, ?_, h.usable, ?_, ?_⟩ <;> unfold nextwt alignUp u64 <;> omega

/-- Memory is handed out upwards. -/
theorem Tame.start_le (h : Tame info p) (hsizes : ∀ size ∈ sizes, 0 < size ∧ size < 2 ^ 32) :
    ∀ c ∈ allocs info (some p) sizes, c.Succeeds → p ≤ c.ret := by
  induction sizes generalizing p with
  | nil => simp [allocs]
  | cons size sizes ih =>
    obtain ⟨⟨hpos, hlt⟩, hsizes⟩ := List.forall_mem_cons.mp hsizes
    rcases allocs_cons_cases info p hpos sizes with ⟨-, heq⟩ | ⟨hfree, heq⟩
    · rw [heq, List.forall_mem_cons]
      exact ⟨fun hsucc => absurd rfl hsucc, ih h hsizes⟩
    · obtain ⟨-, hnext, htame⟩ := h.step hlt hfree
      rw [heq, List.forall_mem_cons]
      refine ⟨fun _ => le_rfl, fun c hc hsucc => ?_⟩
      have hle := ih htame hsizes c hc hsucc
      omega

/-- **On a tame map every sequence of allocations is sound.** -/
theorem loader_allocs_sound (info : Option (List E820map)) (p : Nat) (htame : Tame info p) (sizes : List Nat)
    (hsizes : ∀ size ∈ sizes, 0 < size ∧ size < 2 ^ 32) : Sound info (allocs info (some p) sizes) := by
  induction sizes generalizing p with
  | nil => exact .nil
  | cons size sizes ih =>
    obtain ⟨⟨hpos, hlt⟩, hsizes⟩ := List.forall_mem_cons.mp hsizes
    rcases allocs_cons_cases info p hpos sizes with ⟨-, heq⟩ | ⟨hfree, heq⟩
    · rw [heq]
      exact (ih p htame hsizes).cons (fun h => absurd rfl h) (fun h => absurd rfl h) fun _ => rfl
    · obtain ⟨hin, hnext, htame'⟩ := htame.step hlt hfree
      rw [heq]
      refine (ih _ htame' hsizes).cons (fun _ => hin) (fun _ d hd hsucc => .inl ?_) fun h => absurd h htame.ne_zero
      -- what is handed out later is behind `mb_nextwtpadr`
      exact hnext.trans (htame'.start_le hsizes d hd hsucc)

theorem not_sound_of_behind {e : E820map} {c : Call} (hsucc : c.Succeeds) (hend : e.saddr + e.lsize < c.ret + c.size) :
    ¬Sound (some [e]) [c] := by
  intro h
  obtain ⟨e', he', -, -, hle⟩ := h.inside c List.mem_cons_self hsucc
  rw [List.mem_singleton.mp he'] at hle
  exact absurd hle (not_le.mpr hend)

def gibMap : List E820map := [⟨0, 0xa0000, 1⟩, ⟨0x100000, 0x3ff00000, 1⟩]

/-- Two allocations behind the kernel's image. -/
theorem loader_allocs_sound_of_gib :
    (allocs (some gibMap) (some 0x2000000) [0x1234, 0x1000]).map Call.ret = [0x2000000, 0x2002000] ∧
    Sound (some gibMap) (allocs (some gibMap) (some 0x2000000) [0x1234, 0x1000]) := by
  refine ⟨by decide, ?_⟩
  exact loader_allocs_sound (some gibMap) 0x2000000 ⟨by decide, by decide, by decide⟩ [0x1234, 0x1000] (by decide)

/-- A call at address `0` returns `NULL` and moves `mb_nextwtpadr`. An entry of no bytes at `0` has room for everything.
And a range is taken for free that ends behind `2 ^ 64`. -/
theorem loader_allocs_not_sound :
    (allocs (some gibMap) (some 0) [0x1000] = [⟨0x1000, 0, some 0, some 0x1000⟩] ∧
      ¬Sound (some gibMap) (allocs (some gibMap) (some 0) [0x1000])) ∧
    (allocs (some [⟨0, 0, 1⟩]) (some 0x2000000) [0x1000] = [⟨0x1000, 0x2000000, some 0x2000000, some 0x2001000⟩] ∧
      ¬Sound (some [⟨0, 0, 1⟩]) (allocs (some [⟨0, 0, 1⟩]) (some 0x2000000) [0x1000])) ∧
    (allocs (some [⟨2 ^ 64 - 0x3000, 0x3000, 1⟩]) (some (2 ^ 64 - 0x1000)) [0x2000] =
        [⟨0x2000, 2 ^ 64 - 0x1000, some (2 ^ 64 - 0x1000), some 0x1000⟩] ∧
      ¬Sound (some [⟨2 ^ 64 - 0x3000, 0x3000, 1⟩])
        (allocs (some [⟨2 ^ 64 - 0x3000, 0x3000, 1⟩]) (some (2 ^ 64 - 0x1000)) [0x2000])) := by
  refine ⟨?_, ?_, ?_⟩
  · have heq : allocs (some gibMap) (some 0) [0x1000] = [⟨0x1000, 0, some 0, some 0x1000⟩] := by decide
    refine ⟨heq, fun h => ?_⟩
    rw [heq] at h
    exact absurd (h.null _ List.mem_cons_self rfl) (by decide)
  · have heq : allocs (some [⟨0, 0, 1⟩]) (some 0x2000000) [0x1000] =
        [⟨0x1000, 0x2000000, some 0x2000000, some 0x2001000⟩] := by decide
    exact ⟨heq, heq ▸ not_sound_of_behind (by decide) (by decide)⟩
  · have heq : allocs (some [⟨2 ^ 64 - 0x3000, 0x3000, 1⟩]) (some (2 ^ 64 - 0x1000)) [0x2000] =
        [⟨0x2000, 2 ^ 64 - 0x1000, some (2 ^ 64 - 0x1000), some 0x1000⟩] := by decide
    exact ⟨heq, heq ▸ not_sound_of_behind (by decide) (by decide)⟩

end Cosmos.Ldr
