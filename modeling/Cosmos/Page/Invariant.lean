import Cosmos.Lib.Tiling
import Cosmos.Page.Model

/-!
# The invariant of the page allocator

Every page that the kernel did not keep at boot is in exactly one block: a free block on one list, a live block, or
a block that a call has in hand. `FreeBlk`, `LiveBlk` and `InHand` say what the descriptors of such a block look
like. A call takes a block off a list (`Inv.unhang`), writes to the descriptors of the block in hand
(`Inv.write`), cuts or joins blocks in hand (`Inv.cut`, `Inv.join`) and hangs blocks on lists (`Inv.hang`).
-/

namespace Cosmos.Page

open Cosmos.Lib Function

def pnr (k : Nat) : Nat := if k = onemsalst then 1 else 2 ^ k

theorem pnr_pos (k : Nat) : 0 < pnr k := by
  unfold pnr
  split
  · exact Nat.one_pos
  · exact Nat.two_pow_pos k

theorem pnr_of_lt {k : Nat} (hk : k < mdivmerArrLmax) : pnr k = 2 ^ k := if_neg hk.ne

/-- The slots that hold blocks: the orders of the first two areas, and the single pages of the third. -/
def SlotOk (a k : Nat) : Prop := (a < 2 ∧ k < mdivmerArrLmax) ∨ (a = 2 ∧ k = onemsalst)

theorem SlotOk.lt {a k : Nat} (h : SlotOk a k) : a < 3 := by
  unfold SlotOk at h
  omega

/-! ### Descriptors of a block -/

/-- Descriptors `m … m + n - 1` of area `a`, for consecutive pages. -/
structure Region (msa : Nat → Msadsc) (a m n : Nat) : Prop where
  marty : ∀ i, m ≤ i → i < m + n → (msa i).mfMarty = a + 1
  padrs : ∀ i, m ≤ i → i < m + n → (msa i).pafPadrs = (msa m).pafPadrs + (i - m)

/-- A block of slot `k`, linked as the blocks on that list are. -/
structure FreeBlk (msa : Nat → Msadsc) (a k m : Nat) : Prop extends Region msa a m (pnr k) where
  idle : ∀ i, m ≤ i → i < m + pnr k → (msa i).mfUindx = 0 ∧ (msa i).pafAlloc = false
  first : 1 < pnr k → (msa m).mfOlkty = .oder ∧ (msa m).mdOdlink = .msa (m + pnr k - 1)
  inner : ∀ i, m < i → i + 1 < m + pnr k → (msa i).mfOlkty = .init ∧ (msa i).mdOdlink = .null
  last : (msa (m + pnr k - 1)).mfOlkty = .bafh ∧ (msa (m + pnr k - 1)).mdOdlink = .bafh ⟨a, k⟩

structure LiveBlk (msa : Nat → Msadsc) (a m n : Nat) : Prop extends Region msa a m n where
  first : (msa m).mfOlkty = .oder ∧ (msa m).mdOdlink = .msa (m + n - 1) ∧ (msa m).mfUindx = 1 ∧
    (msa m).pafAlloc = true
  inner : ∀ i, m < i → i + 1 < m + n → (msa i).mfOlkty = .init ∧ (msa i).mdOdlink = .null ∧
    (msa i).mfUindx = 0 ∧ (msa i).pafAlloc = false
  last : (msa (m + n - 1)).mfUindx = 1 ∧ (msa (m + n - 1)).pafAlloc = true ∧
    (1 < n → (msa (m + n - 1)).mfOlkty ≠ .oder)

/-- A block taken off a list and not yet allocated. -/
structure InHand (msa : Nat → Msadsc) (a m n : Nat) : Prop extends Region msa a m n where
  idle : ∀ i, m ≤ i → i < m + n → (msa i).mfUindx = 0 ∧ (msa i).pafAlloc = false
  first : (n = 1 ∧ (msa m).mfOlkty = .bafh ∧ (msa m).mdOdlink ≠ .null) ∨
    ((msa m).mfOlkty = .oder ∧ (msa m).mdOdlink = .msa (m + n - 1))
  inner : ∀ i, m < i → i + 1 < m + n → (msa i).mfOlkty = .init ∧ (msa i).mdOdlink = .null
  last : 1 < n → (msa (m + n - 1)).mfOlkty ≠ .oder

section Congr

variable {msa msa' : Nat → Msadsc} {a k m n : Nat}

theorem Region.congr (h : Region msa a m n) (hmsa : ∀ i, m ≤ i → i < m + n → msa' i = msa i) :
    Region msa' a m n where
  marty := fun i hlo hhi => by rw [hmsa i hlo hhi, h.marty i hlo hhi]
  padrs := fun i hlo hhi => by rw [hmsa i hlo hhi, hmsa m le_rfl (by omega), h.padrs i hlo hhi]

theorem FreeBlk.congr (h : FreeBlk msa a k m) (hmsa : ∀ i, m ≤ i → i < m + pnr k → msa' i = msa i) :
    FreeBlk msa' a k m := by
  have hpos := pnr_pos k
  refine ⟨h.toRegion.congr hmsa, fun i hlo hhi => ?_, fun h1 => ?_, fun i hlo hhi => ?_, ?_⟩
  · rw [hmsa i hlo hhi]
    exact h.idle i hlo hhi
  · rw [hmsa m le_rfl (by omega)]
    exact h.first h1
  · rw [hmsa i (by omega) (by omega)]
    exact h.inner i hlo hhi
  · rw [hmsa _ (by omega) (by omega)]
    exact h.last

theorem LiveBlk.congr (h : LiveBlk msa a m n) (hn : 0 < n) (hmsa : ∀ i, m ≤ i → i < m + n → msa' i = msa i) :
    LiveBlk msa' a m n := by
  refine ⟨h.toRegion.congr hmsa, ?_, fun i hlo hhi => ?_, ?_⟩
  · rw [hmsa m le_rfl (by omega)]
    exact h.first
  · rw [hmsa i (by omega) (by omega)]
    exact h.inner i hlo hhi
  · rw [hmsa _ (by omega) (by omega)]
    exact h.last

theorem FreeBlk.inHand (h : FreeBlk msa a k m) : InHand msa a m (pnr k) := by
  have hpos := pnr_pos k
  refine ⟨h.toRegion, h.idle, ?_, h.inner, fun _ => by rw [h.last.1]; simp⟩
  by_cases h1 : 1 < pnr k
  · exact .inr (h.first h1)
  · have hlast := h.last
    rw [show m + pnr k - 1 = m by omega] at hlast
    exact .inl ⟨by omega, hlast.1, by rw [hlast.2]; simp⟩

end Congr

/-! ### Blocks that tile the pages -/

/-- What a page belongs to: a block of slot `k` of area `a`, or a block of `n` pages on no list. -/
inductive Owner where
  | free (a k m : Nat)
  | used (m n : Nat)

def Owner.ext : Owner → Set Nat
  | free _ k m => { i | m ≤ i ∧ i < m + pnr k }
  | used m n => { i | m ≤ i ∧ i < m + n }

def blocks (s : Memmgrob) (xs : Set Blk) : Set Owner
  | .free a k m => m ∈ (s.bafh a k).afFrelst
  | .used m n => (m, n) ∈ xs

@[simp] theorem mem_blocks_free {s : Memmgrob} {xs : Set Blk} {a k m : Nat} :
    Owner.free a k m ∈ blocks s xs ↔ m ∈ (s.bafh a k).afFrelst := Iff.rfl

@[simp] theorem mem_blocks_used {s : Memmgrob} {xs : Set Blk} {m n : Nat} :
    Owner.used m n ∈ blocks s xs ↔ (m, n) ∈ xs := Iff.rfl

def pages (s : Memmgrob) : Set Nat := { i | i < s.moMsanr ∧ (s.msa i).mfMocty ≠ .krnl }

/-- The block of `n` pages from `m` on ends where the one from `m'` on starts. -/
def Adjacent (msa : Nat → Msadsc) (m n m' : Nat) : Prop :=
  m + n = m' ∧ (msa (m + n - 1)).pafPadrs + 1 = (msa m').pafPadrs

/-- The allocator's state between and within calls, with the blocks `hand` of the running call and the allocated
blocks `live`. -/
structure Inv (s : Memmgrob) (hand live : Set Blk) : Prop where
  areas : s.moMareanr = memareaMax
  type : ∀ a < memareaMax, (s.marea a).maType = a + 1
  oder : ∀ a k, SlotOk a k → (s.bafh a k).afOderpnr = pnr k
  slot : ∀ a k m, m ∈ (s.bafh a k).afFrelst → SlotOk a k
  nodup : ∀ a k, (s.bafh a k).afFrelst.Nodup
  count : ∀ a k, SlotOk a k → (s.bafh a k).afFobjnr = (s.bafh a k).afFrelst.length ∧
    (s.bafh a k).afMobjnr = (s.bafh a k).afFrelst.length
  small : s.moMsanr < 2 ^ 63
  padrs : ∀ i < s.moMsanr, (s.msa i).pafPadrs < 2 ^ 40
  tile : Tiling Owner.ext (pages s) (blocks s (hand ∪ live))
  apart : ∀ b ∈ hand, b ∉ live
  free : ∀ a k m, m ∈ (s.bafh a k).afFrelst → FreeBlk s.msa a k m
  live : ∀ b ∈ live, ∃ a k, SlotOk a k ∧ b.2 = pnr k ∧ LiveBlk s.msa a b.1 b.2
  krnl : ∀ i < s.moMsanr, (s.msa i).mfMocty = .krnl → (s.msa i).mfOlkty = .init ∧ (s.msa i).mdOdlink = .null
  /-- No two free blocks of one order below the last are neighbours. -/
  alone : ∀ a < 2, ∀ k < mdivmerArrLmax - 1, ∀ m ∈ (s.bafh a k).afFrelst, ∀ m' ∈ (s.bafh a k).afFrelst,
    ¬Adjacent s.msa m (pnr k) m'

/-- What no call changes, and the counters of pages. -/
structure Same (s s' : Memmgrob) : Prop where
  msanr : s'.moMsanr = s.moMsanr
  mareanr : s'.moMareanr = s.moMareanr
  marea : s'.marea = s.marea
  maxpages : s'.moMaxpages = s.moMaxpages
  alocpages : s'.moAlocpages = s.moAlocpages
  freepages : s'.moFreepages = s.moFreepages
  oder : ∀ a k, (s'.bafh a k).afOderpnr = (s.bafh a k).afOderpnr
  unused : ∀ a k, ¬SlotOk a k → s'.bafh a k = s.bafh a k
  mocty : ∀ i, (s'.msa i).mfMocty = (s.msa i).mfMocty
  marty : ∀ i, (s'.msa i).mfMarty = (s.msa i).mfMarty
  padrs : ∀ i, (s'.msa i).pafPadrs = (s.msa i).pafPadrs

namespace Same

variable {s s' s'' : Memmgrob}

theorem refl (s : Memmgrob) : Same s s :=
  ⟨rfl, rfl, rfl, rfl, rfl, rfl, fun _ _ => rfl, fun _ _ _ => rfl, fun _ => rfl, fun _ => rfl, fun _ => rfl⟩

theorem trans (h : Same s s') (h' : Same s' s'') : Same s s'' where
  msanr := h'.msanr.trans h.msanr
  mareanr := h'.mareanr.trans h.mareanr
  marea := h'.marea.trans h.marea
  maxpages := h'.maxpages.trans h.maxpages
  alocpages := h'.alocpages.trans h.alocpages
  freepages := h'.freepages.trans h.freepages
  oder := fun a k => (h'.oder a k).trans (h.oder a k)
  unused := fun a k hno => (h'.unused a k hno).trans (h.unused a k hno)
  mocty := fun i => (h'.mocty i).trans (h.mocty i)
  marty := fun i => (h'.marty i).trans (h.marty i)
  padrs := fun i => (h'.padrs i).trans (h.padrs i)

theorem pages_eq (h : Same s s') : pages s' = pages s := by
  unfold pages
  simp only [h.msanr, h.mocty]

theorem adjacent_iff (h : Same s s') (m n m' : Nat) : Adjacent s'.msa m n m' ↔ Adjacent s.msa m n m' := by
  simp only [Adjacent, h.padrs]

end Same

/-! ### Writing to one slot or one descriptor -/

section Set

variable (s : Memmgrob) {a k a' k' i j : Nat} (f : Bafhlst → Bafhlst) (g : Msadsc → Msadsc)

@[simp] theorem setBafh_self : (s.setBafh a k f).bafh a k = f (s.bafh a k) := by
  simp [Memmgrob.setBafh]

theorem setBafh_of_ne (h : ¬(a' = a ∧ k' = k)) : (s.setBafh a k f).bafh a' k' = s.bafh a' k' := by
  simp only [Memmgrob.setBafh]
  by_cases ha : a' = a
  · subst ha
    rw [update_self, update_of_ne fun hk => h ⟨rfl, hk⟩]
  · rw [update_of_ne ha]

@[simp] theorem setBafh_msa : (s.setBafh a k f).msa = s.msa := rfl

@[simp] theorem setBafh_marea : (s.setBafh a k f).marea = s.marea := rfl

@[simp] theorem setMsa_bafh : (s.setMsa i g).bafh = s.bafh := rfl

@[simp] theorem setMsa_marea : (s.setMsa i g).marea = s.marea := rfl

@[simp] theorem setMsa_self : (s.setMsa i g).msa i = g (s.msa i) := by
  simp [Memmgrob.setMsa]

theorem setMsa_of_ne (h : j ≠ i) : (s.setMsa i g).msa j = s.msa j := update_of_ne h _ _

theorem same_setBafh (hslot : SlotOk a k) (hf : ∀ b, (f b).afOderpnr = b.afOderpnr) : Same s (s.setBafh a k f) := by
  refine ⟨rfl, rfl, rfl, rfl, rfl, rfl, fun a' k' => ?_, fun a' k' hno => ?_, fun _ => rfl, fun _ => rfl, fun _ => rfl⟩
  · by_cases h : a' = a ∧ k' = k
    · obtain ⟨rfl, rfl⟩ := h
      rw [setBafh_self, hf]
    · rw [setBafh_of_ne s f h]
  · refine setBafh_of_ne s f ?_
    rintro ⟨rfl, rfl⟩
    exact hno hslot

theorem setMsa_field {β : Type} (p : Msadsc → β) (hg : ∀ d, p (g d) = p d) (j : Nat) :
    p ((s.setMsa i g).msa j) = p (s.msa j) := by
  by_cases h : j = i
  · subst h
    rw [setMsa_self, hg]
  · rw [setMsa_of_ne s g h]

theorem same_setMsa (hg : ∀ d, (g d).mfMocty = d.mfMocty ∧ (g d).mfMarty = d.mfMarty ∧ (g d).pafPadrs = d.pafPadrs) :
    Same s (s.setMsa i g) :=
  ⟨rfl, rfl, rfl, rfl, rfl, rfl, fun _ _ => rfl, fun _ _ _ => rfl,
    setMsa_field s g _ fun d => (hg d).1, setMsa_field s g _ fun d => (hg d).2.1,
    setMsa_field s g _ fun d => (hg d).2.2⟩

variable {s} {t : Memmgrob}

theorem Same.setMsa (h : Same s t)
    (hg : ∀ d, (g d).mfMocty = d.mfMocty ∧ (g d).mfMarty = d.mfMarty ∧ (g d).pafPadrs = d.pafPadrs) :
    Same s (t.setMsa i g) := h.trans (same_setMsa t g hg)

end Set

/-! ### Blocks and lists -/

namespace Inv

variable {s s' : Memmgrob} {hand live : Set Blk} {a k m : Nat}

theorem mem_blocks {b : Blk} (hb : b ∈ hand ∪ live) : Owner.used b.1 b.2 ∈ blocks s (hand ∪ live) := hb

theorem lt_of_used (h : Inv s hand live) {b : Blk} (hb : b ∈ hand ∪ live) {i : Nat} (hlo : b.1 ≤ i)
    (hhi : i < b.1 + b.2) : i < s.moMsanr ∧ (s.msa i).mfMocty ≠ .krnl :=
  h.tile.mem_of_mem (mem_blocks hb) ⟨hlo, hhi⟩

theorem lt_of_free (h : Inv s hand live) (hm : m ∈ (s.bafh a k).afFrelst) {i : Nat} (hlo : m ≤ i)
    (hhi : i < m + pnr k) : i < s.moMsanr ∧ (s.msa i).mfMocty ≠ .krnl :=
  h.tile.mem_of_mem (show Owner.free a k m ∈ blocks s (hand ∪ live) from hm) ⟨hlo, hhi⟩

theorem free_apart (h : Inv s hand live) (hm : m ∈ (s.bafh a k).afFrelst) {b : Blk} (hb : b ∈ hand ∪ live) {i : Nat}
    (hlo : m ≤ i) (hhi : i < m + pnr k) : ¬(b.1 ≤ i ∧ i < b.1 + b.2) :=
  h.tile.not_mem_of_ne (show Owner.free a k m ∈ blocks s (hand ∪ live) from hm) (mem_blocks hb) (by simp) ⟨hlo, hhi⟩

theorem used_apart (h : Inv s hand live) {b c : Blk} (hb : b ∈ hand ∪ live) (hc : c ∈ hand ∪ live) (hne : b ≠ c)
    {i : Nat} (hlo : b.1 ≤ i) (hhi : i < b.1 + b.2) : ¬(c.1 ≤ i ∧ i < c.1 + c.2) := by
  refine h.tile.not_mem_of_ne (mem_blocks hb) (mem_blocks hc) (fun heq => hne ?_) ⟨hlo, hhi⟩
  injection heq with h1 h2
  exact Prod.ext h1 h2

theorem used_pos (h : Inv s hand live) {b : Blk} (hb : b ∈ hand ∪ live) : 0 < b.2 := by
  obtain ⟨i, hlo, hhi⟩ := h.tile.nonempty _ (mem_blocks hb)
  omega

theorem length_lt (h : Inv s hand live) (a k : Nat) : (s.bafh a k).afFrelst.length < 2 ^ 63 := by
  have hsub : (s.bafh a k).afFrelst ⊆ List.range s.moMsanr := fun m hm =>
    List.mem_range.mpr (h.lt_of_free hm le_rfl (Nat.lt_add_of_pos_right (pnr_pos k))).1
  have hle := (List.subperm_of_subset (h.nodup a k) hsub).length_le
  rw [List.length_range] at hle
  exact lt_of_le_of_lt hle h.small

theorem write (h : Inv s hand live) {b : Blk} (hb : b ∈ hand) (hsame : Same s s') (hbafh : s'.bafh = s.bafh)
    (hmsa : ∀ i, ¬(b.1 ≤ i ∧ i < b.1 + b.2) → s'.msa i = s.msa i) : Inv s' hand live where
  areas := hsame.mareanr.trans h.areas
  type := hsame.marea ▸ h.type
  oder := hbafh ▸ h.oder
  slot := hbafh ▸ h.slot
  nodup := hbafh ▸ h.nodup
  count := hbafh ▸ h.count
  small := hsame.msanr ▸ h.small
  padrs := fun i hi => by
    rw [hsame.padrs]
    exact h.padrs i (hsame.msanr ▸ hi)
  tile := by
    have hblocks : blocks s' (hand ∪ live) = blocks s (hand ∪ live) := by
      funext o
      cases o <;> simp only [blocks, hbafh]
    rw [hsame.pages_eq, hblocks]
    exact h.tile
  apart := h.apart
  free := by
    intro a k m hm
    rw [hbafh] at hm
    exact (h.free a k m hm).congr fun i hlo hhi => hmsa i (h.free_apart hm (.inl hb) hlo hhi)
  live := by
    intro c hc
    obtain ⟨a, k, hslot, hn, hlive⟩ := h.live c hc
    have hne : c ≠ b := fun heq => h.apart b hb (heq ▸ hc)
    exact ⟨a, k, hslot, hn, hlive.congr (h.used_pos (.inr hc)) fun i hlo hhi =>
      hmsa i (h.used_apart (.inr hc) (.inl hb) hne hlo hhi)⟩
  krnl := by
    intro i hi hkrnl
    rw [hsame.msanr] at hi
    rw [hsame.mocty] at hkrnl
    rw [hmsa i fun hin => (h.lt_of_used (.inl hb) hin.1 hin.2).2 hkrnl]
    exact h.krnl i hi hkrnl
  alone := by
    intro a ha k hk m hm m' hm'
    rw [hbafh] at hm hm'
    rw [hsame.adjacent_iff]
    exact h.alone a ha k hk m hm m' hm'

theorem relist (h : Inv s hand live) {hand' : Set Blk} (hslot : SlotOk a k) {f : Bafhlst → Bafhlst}
    (hoder : ∀ b, (f b).afOderpnr = b.afOderpnr) (hnodup : (f (s.bafh a k)).afFrelst.Nodup)
    (hcount : (f (s.bafh a k)).afFobjnr = (f (s.bafh a k)).afFrelst.length ∧
      (f (s.bafh a k)).afMobjnr = (f (s.bafh a k)).afFrelst.length)
    (hfree : ∀ m ∈ (f (s.bafh a k)).afFrelst, FreeBlk s.msa a k m)
    (halone : a < 2 → k < mdivmerArrLmax - 1 → ∀ m ∈ (f (s.bafh a k)).afFrelst, ∀ m' ∈ (f (s.bafh a k)).afFrelst,
      ¬Adjacent s.msa m (pnr k) m')
    (htile : Tiling Owner.ext (pages s) (blocks (s.setBafh a k f) (hand' ∪ live)))
    (hapart : ∀ b ∈ hand', b ∉ live) : Inv (s.setBafh a k f) hand' live := by
  -- the fields that speak of every slot hold at the written one by assumption and elsewhere as before
  have hcase : ∀ P : Nat → Nat → Bafhlst → Prop, P a k (f (s.bafh a k)) → (∀ a k, P a k (s.bafh a k)) →
      ∀ a' k', P a' k' ((s.setBafh a k f).bafh a' k') := by
    intro P hnew hold a' k'
    by_cases heq : a' = a ∧ k' = k
    · obtain ⟨rfl, rfl⟩ := heq
      rw [setBafh_self]
      exact hnew
    · rw [setBafh_of_ne s f heq]
      exact hold a' k'
  refine ⟨h.areas, h.type, ?_, ?_, ?_, ?_, h.small, h.padrs, htile, hapart, ?_, h.live, h.krnl, ?_⟩
  · exact hcase (fun a k b => SlotOk a k → b.afOderpnr = pnr k) (fun hs => (hoder _).trans (h.oder a k hs)) h.oder
  · exact hcase (fun a k b => ∀ m, m ∈ b.afFrelst → SlotOk a k) (fun _ _ => hslot) h.slot
  · exact hcase (fun _ _ b => b.afFrelst.Nodup) hnodup h.nodup
  · exact hcase (fun a k b => SlotOk a k → b.afFobjnr = b.afFrelst.length ∧ b.afMobjnr = b.afFrelst.length)
      (fun _ => hcount) h.count
  · exact hcase (fun a k b => ∀ m, m ∈ b.afFrelst → FreeBlk s.msa a k m) hfree h.free
  · intro a' ha' k'
    exact hcase (fun a k b => a < 2 → k < mdivmerArrLmax - 1 → ∀ m ∈ b.afFrelst, ∀ m' ∈ b.afFrelst,
      ¬Adjacent s.msa m (pnr k) m') halone (fun a k ha hk => h.alone a ha k hk) a' k' ha'

theorem unhang (h : Inv s hand live) (hm : m ∈ (s.bafh a k).afFrelst) {f : Bafhlst → Bafhlst}
    (hoder : ∀ b, (f b).afOderpnr = b.afOderpnr)
    (hlst : (f (s.bafh a k)).afFrelst = (s.bafh a k).afFrelst.erase m)
    (hfobj : (f (s.bafh a k)).afFobjnr = u64Sub (s.bafh a k).afFobjnr 1)
    (hmobj : (f (s.bafh a k)).afMobjnr = u64Sub (s.bafh a k).afMobjnr 1) :
    Inv (s.setBafh a k f) (insert (m, pnr k) hand) live := by
  have hslot := h.slot a k m hm
  have hlen := h.length_lt a k
  have hpos := List.length_pos_of_mem hm
  have hcount := h.count a k hslot
  have hsub : ∀ m' ∈ (f (s.bafh a k)).afFrelst, m' ∈ (s.bafh a k).afFrelst := fun m' hm' =>
    List.mem_of_mem_erase (hlst ▸ hm')
  refine h.relist hslot hoder (hlst ▸ (h.nodup a k).erase m) ?_ (fun m' hm' => h.free a k m' (hsub m' hm'))
    (fun ha hk m₁ h₁ m₂ h₂ => h.alone a ha k hk m₁ (hsub m₁ h₁) m₂ (hsub m₂ h₂)) ?_ ?_
  · rw [hfobj, hmobj, hcount.1, hcount.2, hlst, List.length_erase_of_mem hm, u64Sub_of_le hpos (by omega)]
    exact ⟨rfl, rfl⟩
  · refine h.tile.swap { .free a k m } { .used m (pnr k) } ?_ ?_ ?_ ?_ ?_
    · rintro o rfl
      exact hm
    · intro i
      simp [Owner.ext]
    · rintro o rfl
      exact ⟨m, le_rfl, Nat.lt_add_of_pos_right (pnr_pos k)⟩
    · rintro b rfl c rfl i - -
      rfl
    · intro o
      cases o with
      | free a' k' m' =>
        rw [mem_blocks_free, mem_blocks_free]
        by_cases heq : a' = a ∧ k' = k
        · obtain ⟨rfl, rfl⟩ := heq
          rw [setBafh_self, hlst, (h.nodup a' k').mem_erase_iff]
          simp [and_comm]
        · rw [setBafh_of_ne s f heq]
          have hne : Owner.free a' k' m' ≠ .free a k m := fun hh => by
            injection hh with h1 h2
            exact heq ⟨h1, h2⟩
          simp [hne]
      | used m' n' =>
        simp only [mem_blocks_used, Set.mem_union, Set.mem_insert_iff, Set.mem_singleton_iff, reduceCtorEq,
          not_false_eq_true, and_true, Owner.used.injEq, Prod.mk.injEq]
        rw [or_assoc, or_comm]
  · intro b hb hlive
    rcases Set.mem_insert_iff.mp hb with rfl | hb
    · have hmpos := pnr_pos k
      exact h.free_apart hm (.inr hlive) le_rfl (by omega) ⟨le_rfl, Nat.lt_add_of_pos_right hmpos⟩
    · exact h.apart b hb hlive

theorem hang (h : Inv s (insert (m, pnr k) hand) live) (hb : (m, pnr k) ∉ hand) (hslot : SlotOk a k)
    (hfree : FreeBlk s.msa a k m)
    (halone : a < 2 → k < mdivmerArrLmax - 1 → ∀ m' ∈ (s.bafh a k).afFrelst,
      ¬Adjacent s.msa m (pnr k) m' ∧ ¬Adjacent s.msa m' (pnr k) m)
    {f : Bafhlst → Bafhlst} (hoder : ∀ b, (f b).afOderpnr = b.afOderpnr)
    (hlst : (f (s.bafh a k)).afFrelst = m :: (s.bafh a k).afFrelst)
    (hfobj : (f (s.bafh a k)).afFobjnr = u64 ((s.bafh a k).afFobjnr + 1))
    (hmobj : (f (s.bafh a k)).afMobjnr = u64 ((s.bafh a k).afMobjnr + 1)) :
    Inv (s.setBafh a k f) hand live := by
  have hpos := pnr_pos k
  have hlen := h.length_lt a k
  have hcount := h.count a k hslot
  have hin : (m, pnr k) ∈ insert (m, pnr k) hand ∪ live := .inl (Set.mem_insert _ _)
  have hnotin : m ∉ (s.bafh a k).afFrelst := fun hm =>
    h.free_apart hm hin le_rfl (Nat.lt_add_of_pos_right hpos) ⟨le_rfl, Nat.lt_add_of_pos_right hpos⟩
  have hlive := h.apart _ (Set.mem_insert (m, pnr k) hand)
  refine h.relist hslot hoder (hlst ▸ List.nodup_cons.mpr ⟨hnotin, h.nodup a k⟩) ?_ ?_ ?_ ?_
    (fun b hb' => h.apart b (Set.mem_insert_of_mem _ hb'))
  · rw [hfobj, hmobj, hcount.1, hcount.2, hlst, List.length_cons, u64_of_lt (by omega)]
    exact ⟨rfl, rfl⟩
  · rw [hlst]
    intro m' hm'
    rcases List.mem_cons.mp hm' with rfl | hm'
    · exact hfree
    · exact h.free a k m' hm'
  · rw [hlst]
    intro ha hk m₁ h₁ m₂ h₂
    rcases List.mem_cons.mp h₁ with rfl | hm₁ <;> rcases List.mem_cons.mp h₂ with rfl | hm₂
    · exact fun hadj => absurd hadj.1 (by omega)
    · exact (halone ha hk m₂ hm₂).1
    · exact (halone ha hk m₁ hm₁).2
    · exact h.alone a ha k hk m₁ hm₁ m₂ hm₂
  · refine h.tile.swap { .used m (pnr k) } { .free a k m } ?_ ?_ ?_ ?_ ?_
    · rintro o rfl
      exact hin
    · intro i
      simp [Owner.ext]
    · rintro o rfl
      exact ⟨m, le_rfl, Nat.lt_add_of_pos_right hpos⟩
    · rintro b rfl c rfl i - -
      rfl
    · intro o
      cases o with
      | free a' k' m' =>
        rw [mem_blocks_free, mem_blocks_free]
        by_cases heq : a' = a ∧ k' = k
        · obtain ⟨rfl, rfl⟩ := heq
          rw [setBafh_self, hlst]
          simp [or_comm]
        · rw [setBafh_of_ne s f heq]
          have hne : Owner.free a' k' m' ≠ .free a k m := fun hh => by
            injection hh with h1 h2
            exact heq ⟨h1, h2⟩
          simp [hne]
      | used m' n' =>
        simp only [mem_blocks_used, Set.mem_union, Set.mem_insert_iff, Set.mem_singleton_iff, reduceCtorEq, or_false,
          Owner.used.injEq, Prod.mk.injEq]
        constructor
        · rintro (hh | hh)
          · exact ⟨.inl (.inr hh), fun ⟨h1, h2⟩ => hb (h1 ▸ h2 ▸ hh)⟩
          · exact ⟨.inr hh, fun ⟨h1, h2⟩ => hlive (h1 ▸ h2 ▸ hh)⟩
        · rintro ⟨(hh | hh) | hh, hne⟩
          · exact absurd hh hne
          · exact .inl hh
          · exact .inr hh

theorem swap_used (h : Inv s hand live) {hand' live' : Set Blk} (Old New : Set Blk) (hold : ∀ b ∈ Old, b ∈ hand ∪ live)
    (hpos : ∀ b ∈ New, 0 < b.2)
    (hext : ∀ i, (∃ b ∈ New, b.1 ≤ i ∧ i < b.1 + b.2) ↔ ∃ b ∈ Old, b.1 ≤ i ∧ i < b.1 + b.2)
    (honce : ∀ b ∈ New, ∀ c ∈ New, ∀ i, b.1 ≤ i → i < b.1 + b.2 → c.1 ≤ i → i < c.1 + c.2 → b = c)
    (hmem : ∀ b, b ∈ hand' ∪ live' ↔ (b ∈ hand ∪ live ∧ b ∉ Old) ∨ b ∈ New) :
    Tiling Owner.ext (pages s) (blocks s (hand' ∪ live')) := by
  refine h.tile.swap ((fun b : Blk => Owner.used b.1 b.2) '' Old)
    ((fun b : Blk => Owner.used b.1 b.2) '' New) ?_ ?_ ?_ ?_ ?_
  · rintro o ⟨b, hb, rfl⟩
    exact hold b hb
  · intro i
    simp only [Set.exists_mem_image, Owner.ext, Set.mem_ofPred_eq]
    exact hext i
  · rintro o ⟨b, hb, rfl⟩
    exact ⟨b.1, le_rfl, Nat.lt_add_of_pos_right (hpos b hb)⟩
  · rintro o ⟨b, hb, rfl⟩ o' ⟨c, hc, rfl⟩ i hib hic
    rw [honce b hb c hc i hib.1 hib.2 hic.1 hic.2]
  · intro o
    cases o with
    | free a k m => simp
    | used m n =>
      have himage : ∀ T : Set Blk, Owner.used m n ∈ (fun b : Blk => Owner.used b.1 b.2) '' T ↔ (m, n) ∈ T := by
        intro T
        constructor
        · rintro ⟨b, hb, heq⟩
          injection heq with h1 h2
          rw [← h1, ← h2]
          exact hb
        · exact fun hb => ⟨(m, n), hb, rfl⟩
      rw [mem_blocks_used, mem_blocks_used, himage, himage]
      exact hmem (m, n)

theorem cut {n₁ n₂ : Nat} (h : Inv s (insert (m, n₁ + n₂) hand) live) (hb : (m, n₁ + n₂) ∉ hand) (h₁ : 0 < n₁)
    (h₂ : 0 < n₂) : Inv s (insert (m, n₁) (insert (m + n₁, n₂) hand)) live := by
  have hlive := h.apart _ (Set.mem_insert _ _)
  have hin : (m, n₁ + n₂) ∈ insert (m, n₁ + n₂) hand ∪ live := .inl (Set.mem_insert _ _)
  refine { h with tile := ?_, apart := ?_ }
  · refine h.swap_used {(m, n₁ + n₂)} {(m, n₁), (m + n₁, n₂)} ?_ ?_ ?_ ?_ ?_
    · rintro b rfl
      exact hin
    · rintro b (rfl | rfl)
      · exact h₁
      · exact h₂
    · intro i
      simp only [Set.mem_insert_iff, Set.mem_singleton_iff, exists_eq_or_imp, exists_eq_left]
      omega
    · rintro b (rfl | rfl) c (rfl | rfl) i hb₁ hb₂ hc₁ hc₂
      · rfl
      · simp only at *
        omega
      · simp only at *
        omega
      · rfl
    · intro b
      simp only [Set.mem_union, Set.mem_insert_iff, Set.mem_singleton_iff]
      by_cases hbb : b = (m, n₁ + n₂)
      · subst hbb
        simp [hb, hlive, h₁.ne', h₂.ne']
      · simp only [hbb, false_or, not_false_eq_true, and_true]
        tauto
  · -- a half that was live would share pages with the whole
    rintro b (rfl | rfl | hbh) hbl
    · exact h.used_apart hin (.inr hbl) (by simp [h₂.ne']) le_rfl (by simp; omega) ⟨le_rfl, by simp; omega⟩
    · exact h.used_apart hin (.inr hbl) (by simp [h₁.ne']) (i := m + n₁) (by simp) (by simp; omega)
        ⟨le_rfl, by simp; omega⟩
    · exact h.apart b (Set.mem_insert_of_mem _ hbh) hbl

theorem join {n₁ n₂ : Nat} (h : Inv s {(m, n₁), (m + n₁, n₂)} live) (h₁ : 0 < n₁) (h₂ : 0 < n₂) :
    Inv s {(m, n₁ + n₂)} live := by
  have hin₁ : (m, n₁) ∈ ({(m, n₁), (m + n₁, n₂)} : Set Blk) ∪ live := .inl (.inl rfl)
  have hlive₁ := h.apart (m, n₁) (.inl rfl)
  have hlive₂ := h.apart (m + n₁, n₂) (.inr rfl)
  refine { h with tile := ?_, apart := ?_ }
  · refine h.swap_used {(m, n₁), (m + n₁, n₂)} {(m, n₁ + n₂)} ?_ ?_ ?_ ?_ ?_
    · exact fun b hb => .inl hb
    · rintro b rfl
      simp only
      omega
    · intro i
      simp only [Set.mem_insert_iff, Set.mem_singleton_iff, exists_eq_or_imp, exists_eq_left]
      omega
    · rintro b rfl c rfl i - - - -
      rfl
    · intro b
      simp only [Set.mem_union, Set.mem_insert_iff, Set.mem_singleton_iff]
      by_cases hb₁ : b = (m, n₁)
      · subst hb₁
        simp [hlive₁, h₂.ne', h₁.ne']
      · by_cases hb₂ : b = (m + n₁, n₂)
        · subst hb₂
          simp [hlive₂, h₁.ne']
        · simp only [hb₁, hb₂, or_false, not_false_eq_true, and_true, false_or]
          tauto
  · rintro b rfl hbl
    exact h.used_apart hin₁ (.inr hbl) (by simp [h₂.ne']) le_rfl (by simp; omega) ⟨le_rfl, by simp; omega⟩

theorem toLive {b : Blk} (h : Inv s (insert b hand) live) (hb : b ∉ hand) (hslot : SlotOk a k) (hn : b.2 = pnr k)
    (hlive : LiveBlk s.msa a b.1 b.2) : Inv s hand (insert b live) := by
  have hunion : hand ∪ insert b live = insert b hand ∪ live := by
    rw [Set.insert_union, Set.union_insert]
  refine { h with tile := hunion ▸ h.tile, apart := ?_, live := ?_ }
  · rintro c hc (rfl | hcl)
    · exact hb hc
    · exact h.apart c (Set.mem_insert_of_mem _ hc) hcl
  · rintro c (rfl | hc)
    · exact ⟨a, k, hslot, hn, hlive⟩
    · exact h.live c hc

theorem ofLive {b : Blk} (h : Inv s hand (insert b live)) (hb : b ∉ live) : Inv s (insert b hand) live := by
  have hunion : insert b hand ∪ live = hand ∪ insert b live := by
    rw [Set.insert_union, Set.union_insert]
  refine { h with tile := hunion ▸ h.tile, apart := ?_, live := fun c hc => h.live c (Set.mem_insert_of_mem _ hc) }
  rintro c (rfl | hc) hcl
  · exact hb hcl
  · exact h.apart c hc (Set.mem_insert_of_mem _ hcl)

end Inv

/-! ### Linking a free block -/

def Memmgrob.markFree (s : Memmgrob) (a k m e : Nat) : Memmgrob :=
  (s.setMsa m fun d => { d with mfOlkty := .oder, mdOdlink := .msa e }).setMsa e fun d =>
    { d with mfOlkty := .bafh, mdOdlink := .bafh ⟨a, k⟩ }

section MarkFree

variable (s : Memmgrob) {a k m e i : Nat}

theorem same_markFree (a k m e : Nat) : Same s (s.markFree a k m e) := by
  refine .setMsa _ ?_ fun _ => ⟨rfl, rfl, rfl⟩
  exact same_setMsa s _ fun _ => ⟨rfl, rfl, rfl⟩

theorem markFree_of_ne (hm : i ≠ m) (he : i ≠ e) : (s.markFree a k m e).msa i = s.msa i := by
  rw [Memmgrob.markFree, setMsa_of_ne _ _ he, setMsa_of_ne _ _ hm]

theorem markFree_uindx (i : Nat) : ((s.markFree a k m e).msa i).mfUindx = (s.msa i).mfUindx := by
  refine (setMsa_field _ _ Msadsc.mfUindx ?_ i).trans (setMsa_field s _ Msadsc.mfUindx ?_ i) <;> exact fun _ => rfl

theorem markFree_alloc (i : Nat) : ((s.markFree a k m e).msa i).pafAlloc = (s.msa i).pafAlloc := by
  refine (setMsa_field _ _ Msadsc.pafAlloc ?_ i).trans (setMsa_field s _ Msadsc.pafAlloc ?_ i) <;> exact fun _ => rfl

theorem markFree_first (hne : m ≠ e) :
    (s.markFree a k m e).msa m = { s.msa m with mfOlkty := .oder, mdOdlink := .msa e } := by
  rw [Memmgrob.markFree, setMsa_of_ne _ _ hne, setMsa_self]

theorem markFree_last : ((s.markFree a k m e).msa e).mfOlkty = .bafh ∧
    ((s.markFree a k m e).msa e).mdOdlink = .bafh ⟨a, k⟩ := by
  rw [Memmgrob.markFree, setMsa_self]
  exact ⟨rfl, rfl⟩

variable {s}

theorem freeBlk_markFree (hregion : Region s.msa a m (pnr k))
    (hidle : ∀ i, m ≤ i → i < m + pnr k → (s.msa i).mfUindx = 0 ∧ (s.msa i).pafAlloc = false)
    (hinner : ∀ i, m < i → i + 1 < m + pnr k → (s.msa i).mfOlkty = .init ∧ (s.msa i).mdOdlink = .null) :
    FreeBlk (s.markFree a k m (m + pnr k - 1)).msa a k m := by
  have hpos := pnr_pos k
  have hsame := same_markFree s a k m (m + pnr k - 1)
  refine ⟨⟨fun i hlo hhi => ?_, fun i hlo hhi => ?_⟩, fun i hlo hhi => ?_, fun h1 => ?_, fun i hlo hhi => ?_, ?_⟩
  · rw [hsame.marty, hregion.marty i hlo hhi]
  · rw [hsame.padrs, hsame.padrs, hregion.padrs i hlo hhi]
  · rw [markFree_uindx, markFree_alloc]
    exact hidle i hlo hhi
  · rw [markFree_first s (by omega)]
    exact ⟨rfl, rfl⟩
  · rw [markFree_of_ne s (by omega) (by omega)]
    exact hinner i hlo hhi
  · exact markFree_last s

end MarkFree

end Cosmos.Page
