import Cosmos.Lib.Radix
import Cosmos.Mmu.Model

/-!
# Who owns the table pages

The tables of an address space form a radix tree (`Radix.Forest`): every table below the root is referred to by
exactly one entry of one table a level up, and none is all zero. Their frames are live blocks of the page
allocator, next to the blocks `rest` of everyone else (`Owns`). One level of a mapping or unmapping moves the
one table that may be all zero down or up the path (`transformDire_spec`, `untransformDire_spec`).
-/

namespace Cosmos.Mmu

open Cosmos.Lib Cosmos.Page

/-! ### Entries -/

/-- The frame the processor reads from an entry: none unless the entry is present. -/
def hwFrame (entry : Nat) : Nat := if entry % 2 = 1 then direField entry * 2 ^ 12 else 0

/-- An entry the code writes below the kernel's half: empty or present. -/
def EntryOk (entry : Nat) : Prop := entry = 0 ∨ entry % 2 = 1

@[simp] theorem hwFrame_zero : hwFrame 0 = 0 := rfl

/-- The code reads the frame with its upper bits cut off. -/
theorem EntryOk.direRetPadr_eq {entry : Nat} (h : EntryOk entry) : direRetPadr entry = bits 40 (hwFrame entry) := by
  rcases h with rfl | h
  · rfl
  · rw [direRetPadr, hwFrame, if_pos h]

theorem EntryOk.hwFrame_eq {entry : Nat} (h : EntryOk entry) (hlt : hwFrame entry < 2 ^ 40) :
    hwFrame entry = direRetPadr entry := by
  rw [h.direRetPadr_eq, bits_of_lt hlt]

theorem direIsHave_iff {entry : Nat} (h : EntryOk entry) : direIsHave entry = true ↔ hwFrame entry ≠ 0 := by
  rw [direIsHave, decide_eq_true_iff]
  rcases h with rfl | h
  · decide
  · rw [hwFrame, if_pos h]
    omega

theorem not_direIsHave {entry : Nat} (h : EntryOk entry) (h0 : hwFrame entry = 0) : ¬direIsHave entry = true :=
  fun hhave => (direIsHave_iff h).mp hhave h0

section Entry

variable {p flags : Nat}

theorem frame_or_flags (hp : 0x1000 ∣ p) (hflags : flags < 0x1000) : p ||| flags = p + flags := by
  obtain ⟨q, rfl⟩ := hp
  exact (Nat.two_pow_add_eq_or_of_lt (i := 12) hflags q).symm

theorem entry_odd (hp : 0x1000 ∣ p) (hflags : flags < 0x1000) (hodd : flags % 2 = 1) :
    (p ||| flags) % 2 = 1 := by
  rw [frame_or_flags hp hflags]
  omega

theorem hwFrame_entry (hp : 0x1000 ∣ p) (hlt : p < 2 ^ 52) (hflags : flags < 0x1000) (hodd : flags % 2 = 1) :
    hwFrame (p ||| flags) = p := by
  rw [hwFrame, if_pos (entry_odd hp hflags hodd), frame_or_flags hp hflags, direField]
  omega

end Entry

/-! ### The tables of a state -/

def Mmudsc.tables (mmu : Mmudsc) : List Nat :=
  mmu.mudDirhead .t ++ (mmu.mudDirhead .s ++ (mmu.mudDirhead .i ++ mmu.mudDirhead .m))

theorem Mmudsc.mem_tables {mmu : Mmudsc} {lv : Dire} {msa : Nat} (h : msa ∈ mmu.mudDirhead lv) :
    msa ∈ mmu.tables := by
  cases lv <;> simp [tables, h]

theorem Mmudsc.add_tables (mmu : Mmudsc) (lv : Dire) (msa : Nat) :
    (msa :: mmu.tables).Perm (mmu.add lv msa).tables := by
  cases lv
  · exact .refl _
  · exact List.perm_middle.symm
  · exact ((List.perm_middle.append_left _).trans List.perm_middle).symm
  · exact ((((List.perm_middle.append_left _).trans List.perm_middle).append_left _).trans List.perm_middle).symm

theorem Mmudsc.del_tables (mmu : Mmudsc) (lv : Dire) {msa : Nat} (h : msa ∈ mmu.mudDirhead lv) :
    mmu.tables.Perm (msa :: (mmu.del lv msa).tables) := by
  have hcons : ∀ lv', ((mmu.del lv msa).add lv msa).mudDirhead lv' |>.Perm (mmu.mudDirhead lv') := by
    intro lv'
    by_cases hlv : lv' = lv
    · subst hlv
      simp only [add, del, Function.update_self]
      exact (List.perm_cons_erase h).symm
    · simp only [add, del, Function.update_of_ne hlv]
      exact .refl _
  refine .trans ?_ ((mmu.del lv msa).add_tables lv msa).symm
  exact ((hcons .t).append ((hcons .s).append ((hcons .i).append (hcons .m)))).symm

def lvl : Nat → Dire
  | 0 => .t
  | 1 => .s
  | 2 => .i
  | _ => .m

/-- The slots of depth `k` that user addresses use. -/
def bnd : Nat → Nat
  | 0 => 256
  | _ => 512

variable {A : PageAlloc}

def St.addr (st : St A) : Nat → Nat := A.msadscRetAddr st.alc

def St.lay (st : St A) (k : Nat) : Set Nat := { a | ∃ msa ∈ st.mmu.mudDirhead (lvl k), st.addr msa = a }

def St.root (st : St A) : Nat := st.mmu.mudTdirearr - krnlMapVirtaddressStart

def path (vadrs : Nat) : Nat → Nat
  | 0 => mmuTdireIndex vadrs
  | 1 => mmuSdireIndex vadrs
  | 2 => mmuIdireIndex vadrs
  | _ => mmuMdireIndex vadrs

theorem path_zero (vadrs : Nat) : path vadrs 0 = mmuTdireIndex vadrs := rfl

/-- The processor's walk of the tables: the frame that `vadrs` maps to, `0` for none. -/
def lookup (st : St A) (vadrs : Nat) : Nat := Radix.walk hwFrame st.mem (path vadrs) 4 0 st.root

def UserPath (π : Nat → Nat) : Prop := ∀ k ≤ 3, π k < bnd k

def UserHalf (vadrs : Nat) : Prop := mmuTdireIndex vadrs < 256

instance (vadrs : Nat) : Decidable (UserHalf vadrs) := inferInstanceAs (Decidable (_ < _))

theorem UserHalf.path {vadrs : Nat} (h : UserHalf vadrs) : UserPath (path vadrs) := by
  intro k hk
  match k, hk with
  | 0, _ => exact h
  | 1, _ => exact Nat.mod_lt _ (by decide)
  | 2, _ => exact Nat.mod_lt _ (by decide)
  | 3, _ => exact Nat.mod_lt _ (by decide)

/-- The address space owns its tables beside the live blocks `rest`; only the table at `e` may be all zero. -/
structure Owns (L : Lawful A) (st : St A) (rest : List Blk) (e : Nat) : Prop where
  inv : L.Inv st.alc (st.mmu.tables.map (·, 1) ++ rest)
  below : ∀ msa ∈ st.mmu.tables, st.addr msa + 0x1000 ≤ krnlMapPhyaddressEnd
  root : ∃ msa, st.mmu.mudDirhead .t = [msa] ∧ st.mmu.mudTdirearr = krnlMapVirtaddressStart + st.addr msa
  forest : Radix.Forest hwFrame st.mem st.lay bnd 3 e
  entryOk : ∀ k ≤ 3, ∀ a ∈ st.lay k, ∀ j < bnd k, EntryOk (st.mem a j)
  leaf : ∀ a ∈ st.lay 3, ∀ j < 512, st.mem a j = 0 ∨ hwFrame (st.mem a j) ≠ 0
  count : ∀ lv, st.mmu.mudDirmsanr lv = (st.mmu.mudDirhead lv).length

/-- What a mapping or unmapping leaves alone outside the user's half of the tables. -/
structure Outside (st st' : St A) (rest : List Blk) : Prop where
  addr : st'.addr = st.addr
  tdirearr : st'.mmu.mudTdirearr = st.mmu.mudTdirearr
  kernel : ∀ j, 256 ≤ j → st'.mem st.root j = st.mem st.root j
  rest : ∀ b ∈ rest, ∀ a, st.addr b.1 ≤ a → a < st.addr b.1 + b.2 * 0x1000 → st'.mem a = st.mem a

/-- What one level below a table of depth `k` leaves alone. -/
structure Keeps (st st' : St A) (rest : List Blk) (k : Nat) : Prop extends Outside st st' rest where
  head : ∀ k' ≤ k, st'.mmu.mudDirhead (lvl k') = st.mmu.mudDirhead (lvl k')
  above : ∀ k' < k, ∀ a ∈ st.lay k', st'.mem a = st.mem a
  walk : ∀ π, UserPath π →
    Radix.walk hwFrame st'.mem π 4 0 st.root = Radix.walk hwFrame st.mem π 4 0 st.root

/-! ### Tables and blocks -/

section Facts

variable {L : Lawful A} {st st' : St A} {rest : List Blk} {e : Nat}

namespace Owns

theorem mem_blocks {msa : Nat} (h : msa ∈ st.mmu.tables) : (msa, 1) ∈ st.mmu.tables.map (·, 1) ++ rest :=
  List.mem_append_left _ (List.mem_map_of_mem h)

theorem addr_inj (h : Owns L st rest e) {msa msa' : Nat} (hmsa : msa ∈ st.mmu.tables)
    (hmsa' : msa' ∈ st.mmu.tables) (heq : st.addr msa = st.addr msa') : msa = msa' := by
  by_contra hne
  have hapart : Apart st.addr (msa, 1) (msa', 1) :=
    L.apart_of_ne h.inv (mem_blocks hmsa) (mem_blocks hmsa') (by simpa using hne)
  simp only [Apart] at hapart
  omega

theorem not_in_rest (h : Owns L st rest e) {msa : Nat} (hmsa : msa ∈ st.mmu.tables) {b : Blk} (hb : b ∈ rest) :
    ¬(st.addr b.1 ≤ st.addr msa ∧ st.addr msa < st.addr b.1 + b.2 * 0x1000) := by
  have hne : (msa, 1) ≠ b := by
    rintro rfl
    have hnodup := L.nodup h.inv
    rw [List.nodup_append] at hnodup
    exact hnodup.2.2 _ (List.mem_map_of_mem hmsa) _ hb rfl
  have hapart : Apart st.addr (msa, 1) b :=
    L.apart_of_ne h.inv (mem_blocks hmsa) (List.mem_append_right _ hb) hne
  simp only [Apart] at hapart
  omega

theorem frame (h : Owns L st rest e) {msa : Nat} (hmsa : msa ∈ st.mmu.tables) :
    0 < st.addr msa ∧ 0x1000 ∣ st.addr msa ∧ st.addr msa < krnlMapPhyaddressEnd := by
  obtain ⟨-, hpos, hdvd, -⟩ := L.frame h.inv _ (mem_blocks hmsa)
  have hbelow := h.below msa hmsa
  exact ⟨hpos, hdvd, by omega⟩

theorem root_mem (h : Owns L st rest e) : st.root ∈ st.lay 0 := by
  obtain ⟨msa, hhead, hroot⟩ := h.root
  exact ⟨msa, by simp [lvl, hhead], by rw [St.root, hroot, Nat.add_sub_cancel_left]⟩

theorem tdirearr_eq (h : Owns L st rest e) : st.mmu.mudTdirearr = krnlMapVirtaddressStart + st.root := by
  obtain ⟨msa, -, hroot⟩ := h.root
  rw [St.root, hroot, Nat.add_sub_cancel_left]

theorem tdirearr_ne_zero (h : Owns L st rest e) : st.mmu.mudTdirearr ≠ 0 := by
  rw [h.tdirearr_eq]
  unfold krnlMapVirtaddressStart
  omega

theorem lay_lt (h : Owns L st rest e) {k a : Nat} (ha : a ∈ st.lay k) : a < krnlMapPhyaddressEnd := by
  obtain ⟨msa, hmsa, rfl⟩ := ha
  exact (h.frame (Mmudsc.mem_tables hmsa)).2.2

theorem tables_nodup (h : Owns L st rest e) : st.mmu.tables.Nodup :=
  (List.nodup_append.mp (L.nodup h.inv)).1.of_map _

theorem length_tables_le (h : Owns L st rest e) : st.mmu.tables.length ≤ 0x400000 := by
  have hnodup : (st.mmu.tables.map fun msa => st.addr msa / 0x1000).Nodup := by
    refine h.tables_nodup.map_on fun msa hmsa msa' hmsa' heq => h.addr_inj hmsa hmsa' ?_
    have := (h.frame hmsa).2.1
    have := (h.frame hmsa').2.1
    omega
  have hsub : (st.mmu.tables.map fun msa => st.addr msa / 0x1000) ⊆ List.range 0x400000 := by
    intro x hx
    obtain ⟨msa, hmsa, rfl⟩ := List.mem_map.mp hx
    have hlt := (h.frame hmsa).2.2
    rw [List.mem_range]
    unfold krnlMapPhyaddressEnd at hlt
    omega
  have hlen := (hnodup.subperm hsub).length_le
  rwa [List.length_map, List.length_range] at hlen

theorem length_head_le (h : Owns L st rest e) (lv : Dire) : (st.mmu.mudDirhead lv).length ≤ 0x400000 := by
  refine le_trans ?_ h.length_tables_le
  cases lv <;> simp only [Mmudsc.tables, List.length_append] <;> omega

end Owns

end Facts

end Cosmos.Mmu
