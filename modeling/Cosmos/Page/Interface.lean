import Mathlib.Data.Nat.Log
import Mathlib.Data.List.Pairwise
import Mathlib.Data.List.Perm.Basic
import Cosmos.Lib.Run
import Cosmos.Lib.Word

/-!
# The page allocator as its callers see it

The page tables, the object allocator, the memory pool and the page-fault path call `mm_division_pages`,
`mm_divpages_procmarea` and `mm_merge_pages`. A `PageAlloc` is any implementation of these calls, and
`Lawful` is what the callers rely on: an allocated block is a run of pages apart from every other live
block, and freeing a live block gives back that block. Which requests are refused is left to the
implementation.
-/

namespace Cosmos.Page

open Cosmos.Lib

def maTypeHwad : Nat := 1
def maTypeKrnl : Nat := 2
def maTypeProc : Nat := 3

def dmfReldiv : Nat := 0
def dmfMaxdiv : Nat := 1

/-! ### The kernel's linear map (`hal/x86/halplatform.c`) -/

def krnlMapPhyaddressEnd : Nat := 0x400000000
def krnlMapVirtaddressStart : Nat := 0xffff800000000000
def krnlMapVirtaddressEnd : Nat := krnlMapVirtaddressStart + 0x400000000

def viradrToPhyadr (kviradr : Nat) : Halt Nat :=
  if kviradr < krnlMapVirtaddressStart ∨ krnlMapVirtaddressEnd < kviradr then .error "virtadr_to_phyadr err\n"
  else .ok (kviradr - krnlMapVirtaddressStart)

def phyadrToViradr (kphyadr : Nat) : Halt Nat :=
  if krnlMapPhyaddressEnd ≤ kphyadr then .error "phyadr_to_viradr err\n"
  else .ok (krnlMapVirtaddressStart + kphyadr)

theorem phyadrToViradr_ok {p : Nat} (h : p < krnlMapPhyaddressEnd) :
    phyadrToViradr p = .ok (krnlMapVirtaddressStart + p) := if_neg (by omega)

theorem viradrToPhyadr_ok {p : Nat} (h : p < krnlMapPhyaddressEnd) :
    viradrToPhyadr (krnlMapVirtaddressStart + p) = .ok p := by
  have hend : krnlMapVirtaddressEnd = krnlMapVirtaddressStart + krnlMapPhyaddressEnd := rfl
  rw [viradrToPhyadr, if_neg (by omega), Nat.add_sub_cancel_left]

/-! ### The calls -/

/-- The calls on `memmgrob`. A descriptor is its index in the page array. -/
structure PageAlloc where
  State : Type
  /-- `pages`, `mrtype`, `flgs`; the descriptor and `*retrelpnr`. -/
  mmDivisionPages : State → Nat → Nat → Nat → Halt (Option (Nat × Nat) × State)
  mmDivpagesProcmarea : State → Nat → Halt (Option (Nat × Nat) × State)
  mmMergePages : State → Nat → Nat → Halt (Bool × State)
  onfrmsaRetnFpagenr : State → Nat → Nat
  msadscRetAddr : State → Nat → Nat

def PageAlloc.msadscRetVaddr (A : PageAlloc) (s : A.State) (msa : Nat) : Halt Nat :=
  phyadrToViradr (A.msadscRetAddr s msa)

abbrev Blk := Nat × Nat

/-- Two blocks share no page, at the addresses `addr` gives descriptors. -/
def Apart (addr : Nat → Nat) (b c : Blk) : Prop :=
  addr b.1 + b.2 * 0x1000 ≤ addr c.1 ∨ addr c.1 + c.2 * 0x1000 ≤ addr b.1

instance (addr : Nat → Nat) : Std.Symm (Apart addr) := ⟨fun _ _ h => Or.symm h⟩

/-- The outcome of a request for `n` pages with the live blocks `l`: refused, or one more live block. -/
def Grants {σ : Type} (Inv : σ → List Blk → Prop) (l : List Blk) (n : Nat) (P : Blk → Prop) :
    Option Blk × σ → Prop
  | (none, s) => Inv s l
  | (some b, s) => b.2 = n ∧ P b ∧ Inv s (b :: l)

theorem Grants.imp {σ : Type} {Inv : σ → List Blk → Prop} {l : List Blk} {n : Nat} {P Q : Blk → Prop}
    (hpq : ∀ b, P b → Q b) : ∀ {r : Option Blk × σ}, Grants Inv l n P r → Grants Inv l n Q r
  | (none, _), h => h
  | (some b, _), ⟨hn, hp, hinv⟩ => ⟨hn, hpq b hp, hinv⟩

theorem Grants.and {σ : Type} {Inv : σ → List Blk → Prop} {l : List Blk} {n : Nat} {P : Blk → Prop} {J : σ → Prop} :
    ∀ {r : Option Blk × σ}, Grants Inv l n P r → J r.2 → Grants (fun s l => Inv s l ∧ J s) l n P r
  | (none, _), h, hj => ⟨h, hj⟩
  | (some _, _), ⟨hn, hp, hinv⟩, hj => ⟨hn, hp, hinv, hj⟩

/-- What the callers rely on. `Inv s l`: the live blocks of `s` are `l`. -/
structure Lawful (A : PageAlloc) where
  Inv : A.State → List Blk → Prop
  perm : ∀ {s l l'}, Inv s l → l.Perm l' → Inv s l'
  apart : ∀ {s l}, Inv s l → l.Pairwise (Apart (A.msadscRetAddr s))
  frame : ∀ {s l}, Inv s l → ∀ b ∈ l, 0 < b.2 ∧ 0 < A.msadscRetAddr s b.1 ∧
    0x1000 ∣ A.msadscRetAddr s b.1 ∧ A.msadscRetAddr s b.1 + b.2 * 0x1000 ≤ 2 ^ 52
  fpagenr : ∀ {s l}, Inv s l → ∀ b ∈ l, A.onfrmsaRetnFpagenr s b.1 = b.2
  division : ∀ {s l} (pages mrtype : Nat), Inv s l → 1 ≤ pages →
    ∃ r s', A.mmDivisionPages s pages mrtype dmfReldiv = .ok (r, s') ∧
      A.msadscRetAddr s' = A.msadscRetAddr s ∧
      Grants Inv l (2 ^ Nat.clog 2 pages)
        (fun b => mrtype = maTypeKrnl → A.msadscRetAddr s b.1 + b.2 * 0x1000 ≤ krnlMapPhyaddressEnd) (r, s')
  procmarea : ∀ {s l} (pages : Nat), Inv s l → 1 ≤ pages →
    ∃ r s', A.mmDivpagesProcmarea s pages = .ok (r, s') ∧ A.msadscRetAddr s' = A.msadscRetAddr s ∧
      Grants Inv l (2 ^ Nat.clog 2 pages) (fun _ => True) (r, s')
  merge : ∀ {s l b}, Inv s (b :: l) →
    ∃ s', A.mmMergePages s b.1 b.2 = .ok (true, s') ∧ A.msadscRetAddr s' = A.msadscRetAddr s ∧ Inv s' l

namespace Lawful

variable {A : PageAlloc} (L : Lawful A) {s : A.State} {l : List Blk} {b c : Blk}

def FreeCount (free : A.State → Nat) : Prop := ∀ ⦃s t l⦄, L.Inv s l → L.Inv t l → free t = free s

theorem nodup (h : L.Inv s l) : l.Nodup := by
  refine (L.apart h).imp_of_mem fun {b c} hb _ hapart heq => ?_
  have hpos := L.frame h b hb
  subst heq
  unfold Apart at hapart
  omega

theorem apart_of_ne (h : L.Inv s l) (hb : b ∈ l) (hc : c ∈ l) (hne : b ≠ c) :
    Apart (A.msadscRetAddr s) b c := (L.apart h).forall hb hc hne

theorem eq_of_addr (h : L.Inv s l) (hb : b ∈ l) (hc : c ∈ l)
    (heq : A.msadscRetAddr s b.1 = A.msadscRetAddr s c.1) : b = c := by
  by_contra hne
  have hapart := L.apart_of_ne h hb hc hne
  have hposb := L.frame h b hb
  have hposc := L.frame h c hc
  unfold Apart at hapart
  omega

theorem length_le (h : L.Inv s l) : l.length ≤ 2 ^ 40 := by
  have hnodup : (l.map fun b => A.msadscRetAddr s b.1 / 0x1000).Nodup := by
    refine (L.nodup h).map_on fun b hb c hc heq => L.eq_of_addr h hb hc ?_
    have hdvdb := (L.frame h b hb).2.2.1
    have hdvdc := (L.frame h c hc).2.2.1
    omega
  have hsub : (l.map fun b => A.msadscRetAddr s b.1 / 0x1000) ⊆ List.range (2 ^ 40) := by
    intro x hx
    obtain ⟨b, hb, rfl⟩ := List.mem_map.mp hx
    have hframe := L.frame h b hb
    rw [List.mem_range]
    omega
  have hlen := (hnodup.subperm hsub).length_le
  rwa [List.length_map, List.length_range] at hlen

/-- The same laws for the states that give descriptors the addresses `addr`: no call changes them. -/
def pin (addr : Nat → Nat) : Lawful A where
  Inv := fun s l => L.Inv s l ∧ A.msadscRetAddr s = addr
  perm := fun h hperm => ⟨L.perm h.1 hperm, h.2⟩
  apart := fun h => L.apart h.1
  frame := fun h => L.frame h.1
  fpagenr := fun h => L.fpagenr h.1
  division := by
    intro s l pages mrtype h hpages
    obtain ⟨r, s', heq, haddr, hgrants⟩ := L.division pages mrtype h.1 hpages
    exact ⟨r, s', heq, haddr, hgrants.and (haddr.trans h.2)⟩
  procmarea := by
    intro s l pages h hpages
    obtain ⟨r, s', heq, haddr, hgrants⟩ := L.procmarea pages h.1 hpages
    exact ⟨r, s', heq, haddr, hgrants.and (haddr.trans h.2)⟩
  merge := by
    intro s l b h
    obtain ⟨s', heq, haddr, hinv⟩ := L.merge h.1
    exact ⟨s', heq, haddr, hinv, haddr.trans h.2⟩

/-- The live blocks start below `2 ^ 40`, so that the page tables give their addresses back whole. -/
def Low : Prop := ∀ ⦃s l b⦄, L.Inv s l → b ∈ l → A.msadscRetAddr s b.1 < 2 ^ 40

/-- A live block is not given back with another number of pages. -/
def Strict : Prop := ∀ ⦃s l b n⦄, L.Inv s l → b ∈ l → n ≠ b.2 → A.mmMergePages s b.1 n = .ok (false, s)

end Lawful

/-! ### The laws can be met -/

theorem singles_apart {l : List Blk} (hnodup : l.Nodup) (hone : ∀ b ∈ l, b.2 = 1) :
    l.Pairwise (Apart fun msa => (msa + 1) * 0x1000) := by
  refine hnodup.imp_of_mem fun {b c} hb hc hne => ?_
  have hb' := hone b hb
  have hc' := hone c hc
  have hidx : b.1 ≠ c.1 := fun heq => hne (Prod.ext heq (hb'.trans hc'.symm))
  simp only [Apart]
  omega

theorem single_frame {b : Blk} (hlt : b.1 < 0x1000) (hone : b.2 = 1) : 1 ≤ b.2 ∧ 0 < (b.1 + 1) * 0x1000 ∧
    0x1000 ∣ (b.1 + 1) * 0x1000 ∧ (b.1 + 1) * 0x1000 + b.2 * 0x1000 ≤ 2 ^ 52 := by omega

def bumpTake (s pages : Nat) : Option Blk × Nat :=
  if pages = 1 ∧ s < 0x1000 then (some (s, 1), s + 1) else (none, s)

/-- Single pages, handed out in order up to `0x1000` of them and never again. -/
def bump : PageAlloc where
  State := Nat
  mmDivisionPages := fun s pages _ _ => .ok (bumpTake s pages)
  mmDivpagesProcmarea := fun s pages => .ok (bumpTake s pages)
  mmMergePages := fun s _ _ => .ok (true, s)
  onfrmsaRetnFpagenr := fun _ _ => 1
  msadscRetAddr := fun _ msa => (msa + 1) * 0x1000

def bumpInv (s : Nat) (l : List Blk) : Prop := s ≤ 0x1000 ∧ l.Nodup ∧ ∀ b ∈ l, b.2 = 1 ∧ b.1 < s

theorem bump_grants {s : Nat} {l : List Blk} (pages : Nat) (h : bumpInv s l) :
    Grants bumpInv l (2 ^ Nat.clog 2 pages) (fun b => (b.1 + 1) * 0x1000 + b.2 * 0x1000 ≤ krnlMapPhyaddressEnd)
      (bumpTake s pages) := by
  unfold bumpTake
  obtain ⟨hs, hnodup, hl⟩ := h
  by_cases hp : pages = 1 ∧ s < 0x1000
  · rw [if_pos hp]
    obtain ⟨rfl, hlt⟩ := hp
    refine ⟨rfl, ?_, hlt, List.nodup_cons.mpr ⟨fun hmem => ?_, hnodup⟩, ?_⟩
    · show (s + 1) * 0x1000 + 1 * 0x1000 ≤ 0x400000000
      omega
    · exact absurd (hl _ hmem).2 (lt_irrefl _)
    · intro b hb
      rcases List.mem_cons.mp hb with rfl | hb
      · exact ⟨rfl, Nat.lt_succ_self _⟩
      · exact ⟨(hl b hb).1, Nat.lt_succ_of_lt (hl b hb).2⟩
  · rw [if_neg hp]
    exact ⟨hs, hnodup, hl⟩

def bumpLawful : Lawful bump where
  Inv := bumpInv
  perm := fun ⟨hs, hnodup, hl⟩ hperm => ⟨hs, hperm.nodup hnodup, fun b hb => hl b (hperm.mem_iff.mpr hb)⟩
  apart := fun ⟨_, hnodup, hl⟩ => singles_apart hnodup fun b hb => (hl b hb).1
  frame := fun ⟨hs, _, hl⟩ b hb => single_frame ((hl b hb).2.trans_le hs) (hl b hb).1
  fpagenr := fun ⟨_, _, hl⟩ b hb => (hl b hb).1.symm
  division := fun {s _} pages _ h _ =>
    ⟨(bumpTake s pages).1, (bumpTake s pages).2, rfl, rfl, (bump_grants pages h).imp fun _ hend _ => hend⟩
  procmarea := fun {s _} pages h _ =>
    ⟨(bumpTake s pages).1, (bumpTake s pages).2, rfl, rfl, (bump_grants pages h).imp fun _ _ => trivial⟩
  merge := by
    intro s l b ⟨hs, hnodup, hl⟩
    exact ⟨s, rfl, rfl, hs, (List.nodup_cons.mp hnodup).2, fun c hc => hl c (List.mem_cons_of_mem _ hc)⟩

theorem bump_low : bumpLawful.Low := by
  rintro s l b ⟨hs, -, hl⟩ hb
  have hlt := (hl b hb).2
  show (b.1 + 1) * 0x1000 < 2 ^ 40
  omega

def shelfTake : List Nat → Nat → Option Blk × List Nat
  | msa :: s, 1 => (some (msa, 1), s)
  | s, _ => (none, s)

/-- A list of free single pages; a page that is given back comes first. -/
def shelf : PageAlloc where
  State := List Nat
  mmDivisionPages := fun s pages _ _ => .ok (shelfTake s pages)
  mmDivpagesProcmarea := fun s pages => .ok (shelfTake s pages)
  mmMergePages := fun s freemsa _ => .ok (true, freemsa :: s)
  onfrmsaRetnFpagenr := fun _ _ => 1
  msadscRetAddr := fun _ msa => (msa + 1) * 0x1000

/-- The free pages and the live ones are the first `n` pages. -/
def shelfInv (n : Nat) (s : List Nat) (l : List Blk) : Prop :=
  (s.map (·, 1) ++ l).Perm ((List.range n).map (·, 1))

section Shelf

variable {n : Nat} {s : List Nat} {l : List Blk}

theorem shelfInv.mem (h : shelfInv n s l) {b : Blk} (hb : b ∈ l) : b.1 < n ∧ b.2 = 1 := by
  have hmem := h.mem_iff.mp (List.mem_append_right _ hb)
  obtain ⟨i, hi, rfl⟩ := List.mem_map.mp hmem
  exact ⟨List.mem_range.mp hi, rfl⟩

theorem shelf_grants (hn : n ≤ 0x1000) (pages : Nat) (h : shelfInv n s l) :
    Grants (shelfInv n) l (2 ^ Nat.clog 2 pages)
      (fun b => (b.1 + 1) * 0x1000 + b.2 * 0x1000 ≤ krnlMapPhyaddressEnd) (shelfTake s pages) := by
  unfold shelfTake
  split
  · next msa s =>
    have hinv : shelfInv n s ((msa, 1) :: l) := List.perm_middle.trans h
    have hlt : msa < n := (hinv.mem List.mem_cons_self).1
    refine ⟨rfl, ?_, hinv⟩
    show (msa + 1) * 0x1000 + 1 * 0x1000 ≤ 0x400000000
    omega
  · exact h

/-- The laws hold with a count of the free pages that depends on the live ones only. -/
def shelfLawful (n : Nat) (hn : n ≤ 0x1000) : Lawful shelf where
  Inv := shelfInv n
  perm := fun h hperm => (hperm.symm.append_left _).trans h
  apart := by
    intro s l h
    have hnodup : (s.map (·, 1) ++ l).Nodup :=
      h.nodup_iff.mpr (List.nodup_range.map fun _ _ heq => congrArg Prod.fst heq)
    exact singles_apart (List.nodup_append.mp hnodup).2.1 fun b hb => (shelfInv.mem h hb).2
  frame := fun h b hb => single_frame ((shelfInv.mem h hb).1.trans_le hn) (shelfInv.mem h hb).2
  fpagenr := fun h _ hb => (shelfInv.mem h hb).2.symm
  division := fun {s _} pages _ h _ =>
    ⟨(shelfTake s pages).1, (shelfTake s pages).2, rfl, rfl, (shelf_grants hn pages h).imp fun _ hend _ => hend⟩
  procmarea := fun {s _} pages h _ =>
    ⟨(shelfTake s pages).1, (shelfTake s pages).2, rfl, rfl, (shelf_grants hn pages h).imp fun _ _ => trivial⟩
  merge := by
    intro s l b h
    obtain ⟨msa, n⟩ := b
    obtain rfl : n = 1 := (shelfInv.mem h List.mem_cons_self).2
    exact ⟨msa :: s, rfl, rfl, List.perm_middle.symm.trans h⟩

theorem shelf_length_eq {t : List Nat} (h : shelfInv n s l) (ht : shelfInv n t l) : t.length = s.length := by
  have hlen := (List.Perm.length_eq h).trans (List.Perm.length_eq ht).symm
  simp only [List.length_append, List.length_map] at hlen
  omega

theorem shelf_freeCount (hn : n ≤ 0x1000) : (shelfLawful n hn).FreeCount List.length :=
  fun _ _ _ h ht => shelf_length_eq h ht

end Shelf

end Cosmos.Page
