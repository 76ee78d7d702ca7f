import Mathlib.Data.Finset.Basic
import Cosmos.Page.BootSpec

/-!
# Runs of the page allocator

From the state boot builds, every sequence of `mm_division_pages`, `mm_divpages_procmarea` and `mm_merge_pages`
returns, and in the state it ends in every page descriptor is in exactly one place: a free block on one list, a live
block, or the pages the kernel marked at boot.
-/

namespace Cosmos.Page

open Cosmos.Lib Halt

inductive Op where
  | divisionPages (pages mrtype flgs : Nat)
  | divpagesProcmarea (pages : Nat)
  | mergePages (freemsa freepgs : Nat)

def Op.InArray (msanr : Nat) : Op → Prop
  | mergePages freemsa _ => freemsa < msanr
  | _ => True

def grant (live : Finset Blk) : Option Blk → Finset Blk
  | some b => insert b live
  | none => live

/-- One call, with the blocks handed out and not given back. -/
def step : Memmgrob × Finset Blk → Op → Halt (Memmgrob × Finset Blk)
  | (s, live), .divisionPages pages mrtype flgs =>
    mmDivisionPages s pages mrtype flgs >>= fun ⟨r, s⟩ => .ok (s, grant live r)
  | (s, live), .divpagesProcmarea pages =>
    mmDivpagesProcmarea s pages >>= fun ⟨r, s⟩ => .ok (s, grant live r)
  | (s, live), .mergePages freemsa freepgs =>
    mmMergePages s freemsa freepgs >>= fun ⟨r, s⟩ =>
      .ok (s, if r then live.erase (freemsa, freepgs) else live)

variable {b : Boot} {s s' : Memmgrob} {live live' : Finset Blk} {a k m n : Nat}

inductive Effect (s : Memmgrob) (live : Finset Blk) : Memmgrob → Finset Blk → Prop
  | refused : Effect s live s live
  | took {s' : Memmgrob} {a k m : Nat} (h : Handed s s' ↑live a k m) : Effect s live s' (insert (m, pnr k) live)
  | freed {s' : Memmgrob} {a m n : Nat} (hmem : (m, n) ∈ live) (hblk : LiveBlk s.msa a m n)
      (h : Freed s s' ↑(live.erase (m, n)) a m n) : Effect s live s' (live.erase (m, n))

theorem step_effect (h : Inv s ∅ ↑live) {op : Op} (hop : op.InArray s.moMsanr) :
    ∃ s' live', step (s, live) op = .ok (s', live') ∧ Effect s live s' live' := by
  cases op with
  | divisionPages pages mrtype flgs =>
    rcases mmDivisionPages_spec h pages mrtype flgs with heq | ⟨a, k, m, s', heq, hh, -⟩
    · exact ⟨s, live, bind_of_ok heq _, .refused⟩
    · exact ⟨s', _, bind_of_ok heq _, .took hh⟩
  | divpagesProcmarea pages =>
    rcases mmDivpagesProcmarea_spec h pages with heq | ⟨a, k, m, s', heq, hh, hk⟩
    · exact ⟨s, live, bind_of_ok heq _, .refused⟩
    · rw [← hk] at heq
      exact ⟨s', _, bind_of_ok heq _, .took hh⟩
  | mergePages freemsa freepgs =>
    by_cases hmem : (freemsa, freepgs) ∈ live
    · have hinsert : Inv s ∅ (insert (freemsa, freepgs) ↑(live.erase (freemsa, freepgs))) := by
        rw [← Finset.coe_insert, Finset.insert_erase hmem]
        exact h
      obtain ⟨s', a, heq, hblk, hfreed⟩ := mmMergePages_freed hinsert (by simp)
      exact ⟨s', _, bind_of_ok heq _, .freed hmem hblk hfreed⟩
    · exact ⟨s, live, bind_of_ok (mmMergePages_refused h hop (by simpa using hmem)) _, .refused⟩

theorem Effect.inv (he : Effect s live s' live') (h : Inv s ∅ ↑live) : Inv s' ∅ ↑live' := by
  cases he with
  | refused => exact h
  | took hh =>
    rw [Finset.coe_insert]
    exact hh.inv
  | freed _ _ hf => exact hf.inv

structure Kept (s s' : Memmgrob) : Prop where
  msanr : s'.moMsanr = s.moMsanr
  mocty : ∀ i, (s'.msa i).mfMocty = (s.msa i).mfMocty
  marty : ∀ i, (s'.msa i).mfMarty = (s.msa i).mfMarty
  padrs : ∀ i, (s'.msa i).pafPadrs = (s.msa i).pafPadrs

theorem Kept.refl (s : Memmgrob) : Kept s s := ⟨rfl, fun _ => rfl, fun _ => rfl, fun _ => rfl⟩

theorem Kept.trans {s'' : Memmgrob} (h : Kept s s') (h' : Kept s' s'') : Kept s s'' :=
  ⟨h'.msanr.trans h.msanr, fun i => (h'.mocty i).trans (h.mocty i), fun i => (h'.marty i).trans (h.marty i),
    fun i => (h'.padrs i).trans (h.padrs i)⟩

theorem Effect.kept (he : Effect s live s' live') : Kept s s' := by
  cases he with
  | refused => exact .refl s
  | took hh =>
    obtain ⟨div, s₁, htook, rfl⟩ := hh
    exact ⟨htook.same.msanr, htook.same.mocty, htook.same.marty, htook.same.padrs⟩
  | freed _ _ hf =>
    obtain ⟨s₁, hsame, rfl⟩ := hf.counted
    exact ⟨hsame.msanr, hsame.mocty, hsame.marty, hsame.padrs⟩

/-- **Runs**: from a sound state every sequence of calls returns, in a sound state. -/
theorem runHalt_step (h : Inv s ∅ ↑live) {ops : List Op} (hops : ∀ op ∈ ops, op.InArray s.moMsanr) :
    ∃ s' live', runHalt step (s, live) ops = .ok (s', live') ∧ Inv s' ∅ ↑live' ∧ Kept s s' := by
  have hstep : ∀ (t : Memmgrob × Finset Blk) op, Op.InArray s.moMsanr op → Inv t.1 ∅ ↑t.2 ∧ Kept s t.1 →
      ∃ t', step t op = .ok t' ∧ (Inv t'.1 ∅ ↑t'.2 ∧ Kept s t'.1) := by
    intro t op hop ht
    obtain ⟨s', live', heq, he⟩ := step_effect ht.1 (ht.2.msanr ▸ hop)
    exact ⟨(s', live'), heq, he.inv ht.1, ht.2.trans he.kept⟩
  obtain ⟨⟨s', live'⟩, heq, hinv, hkept⟩ := runHalt_inv hstep ops hops (s, live) ⟨h, .refl s⟩
  exact ⟨s', live', heq, hinv, hkept⟩

theorem run_of_boot (hb : b.Wf) {ops : List Op} (hops : ∀ op ∈ ops, op.InArray b.msanr) :
    ∃ s₀ s live, boot b = .ok s₀ ∧ runHalt step (s₀, ∅) ops = .ok (s, live) ∧ OfBoot b s₀ ∧ Inv s ∅ ↑live ∧
      Kept s₀ s := by
  obtain ⟨s₀, hboot, hof, hinv₀⟩ := boot_spec hb
  have hstart : Inv s₀ ∅ ↑(∅ : Finset Blk) := by rwa [Finset.coe_empty]
  obtain ⟨s, live, hrun, hinv, hkept⟩ := runHalt_step hstart (hof.msanr ▸ hops)
  exact ⟨s₀, s, live, hboot, hrun, hof, hinv, hkept⟩

/-! ### The partition -/

/-- Where a page descriptor can be: in the free block from `m` on of slot `k` of area `a`, in a live block, or among
the pages the kernel marked at boot. -/
inductive Place where
  | free (a k m : Nat)
  | live (m n : Nat)
  | krnl

def At (b : Boot) (s : Memmgrob) (live : Finset Blk) (i : Nat) : Place → Prop
  | .free a k m => m ∈ (s.bafh a k).afFrelst ∧ m ≤ i ∧ i < m + (s.bafh a k).afOderpnr ∧ (s.msa i).mfMarty = a + 1
  | .live m n => (m, n) ∈ live ∧ m ≤ i ∧ i < m + n
  | .krnl => (b.msa i).mfMocty = .krnl

/-- A block on a list: exactly `af_oderpnr` descriptors of the array, linked and idle as the list wants them. -/
structure Listed (s : Memmgrob) (a k m : Nat) : Prop extends FreeBlk s.msa a k m where
  oder : (s.bafh a k).afOderpnr = pnr k
  le : m + pnr k ≤ s.moMsanr

theorem Inv.listed (h : Inv s ∅ ↑live) (hm : m ∈ (s.bafh a k).afFrelst) : Listed s a k m := by
  have hpos := pnr_pos k
  have hlt := (h.lt_of_free hm (i := m + pnr k - 1) (by omega) (by omega)).1
  exact ⟨h.free a k m hm, h.oder a k (h.slot a k m hm), by omega⟩

theorem Inv.existsUnique_at (h : Inv s ∅ ↑live) (hmocty : ∀ i, (s.msa i).mfMocty = (b.msa i).mfMocty) {i : Nat}
    (hi : i < s.moMsanr) : ∃! p, At b s live i p := by
  -- a block that holds `i` is the block of a place
  have hfree : ∀ {a k m}, m ∈ (s.bafh a k).afFrelst → m ≤ i → i < m + (s.bafh a k).afOderpnr →
      Owner.free a k m ∈ blocks s (∅ ∪ ↑live) ∧ i ∈ Owner.ext (.free a k m) := by
    intro a k m hm hlo hhi
    rw [(h.listed hm).oder] at hhi
    exact ⟨hm, hlo, hhi⟩
  have hlive : ∀ {m n}, (m, n) ∈ live → m ≤ i → i < m + n →
      Owner.used m n ∈ blocks s (∅ ∪ ↑live) ∧ i ∈ Owner.ext (.used m n) := by
    intro m n hm hlo hhi
    exact ⟨.inr hm, hlo, hhi⟩
  by_cases hkrnl : (s.msa i).mfMocty = .krnl
  · refine ⟨.krnl, (hmocty i).symm.trans hkrnl, fun p hp => ?_⟩
    cases p with
    | free a k m => exact absurd hkrnl (h.tile.mem_of_mem (hfree hp.1 hp.2.1 hp.2.2.1).1
        (hfree hp.1 hp.2.1 hp.2.2.1).2).2
    | live m n => exact absurd hkrnl (h.tile.mem_of_mem (hlive hp.1 hp.2.1 hp.2.2).1 (hlive hp.1 hp.2.1 hp.2.2).2).2
    | krnl => rfl
  · obtain ⟨o, ⟨ho, hio⟩, huniq⟩ := h.tile.existsUnique (show i ∈ pages s from ⟨hi, hkrnl⟩)
    have hnot : (b.msa i).mfMocty ≠ .krnl := hmocty i ▸ hkrnl
    cases o with
    | free a k m =>
      have hblk := h.listed ho
      refine ⟨.free a k m, ⟨ho, hio.1, hblk.oder.symm ▸ hio.2, hblk.marty i hio.1 hio.2⟩, fun p hp => ?_⟩
      cases p with
      | free a' k' m' =>
        have heq := huniq _ (hfree hp.1 hp.2.1 hp.2.2.1)
        injection heq with h1 h2 h3
        rw [h1, h2, h3]
      | live m' n' => exact absurd (huniq _ (hlive hp.1 hp.2.1 hp.2.2)) (by simp)
      | krnl => exact absurd hp hnot
    | used m n =>
      have hmem : (m, n) ∈ live := by simpa using ho
      refine ⟨.live m n, ⟨hmem, hio.1, hio.2⟩, fun p hp => ?_⟩
      cases p with
      | free a' k' m' => exact absurd (huniq _ (hfree hp.1 hp.2.1 hp.2.2.1)) (by simp)
      | live m' n' =>
        have heq := huniq _ (hlive hp.1 hp.2.1 hp.2.2)
        injection heq with h1 h2
        rw [h1, h2]
      | krnl => exact absurd hp hnot

theorem Handed.apart (h : Handed s s' ↑live a k m) {c : Blk} (hc : c ∈ live) {i : Nat} (hlo : m ≤ i)
    (hhi : i < m + pnr k) : ¬(c.1 ≤ i ∧ i < c.1 + c.2) := by
  obtain ⟨div, s₁, htook, -⟩ := h
  refine htook.inv.used_apart (.inr (Set.mem_insert _ _)) (.inr (Set.mem_insert_of_mem _ hc)) ?_ hlo hhi
  rintro rfl
  exact htook.fresh hc

theorem Handed.was_free (h : Inv s ∅ ↑live) (hh : Handed s s' ↑live a k m)
    (hmocty : ∀ i, (s.msa i).mfMocty = (b.msa i).mfMocty) {i : Nat} (hlo : m ≤ i) (hhi : i < m + pnr k) :
    ∃ a' k' m', At b s live i (.free a' k' m') := by
  have hpage : i < s.moMsanr ∧ (b.msa i).mfMocty ≠ .krnl := by
    have hlt := hh.inv.lt_of_used (b := (m, pnr k)) (.inr (Set.mem_insert _ _)) hlo hhi
    have hkept := (Effect.took hh).kept
    rw [hkept.msanr, hkept.mocty, hmocty] at hlt
    exact hlt
  obtain ⟨p, hp, -⟩ := h.existsUnique_at hmocty hpage.1
  cases p with
  | free a' k' m' => exact ⟨a', k', m', hp⟩
  | live m' n' => exact absurd ⟨hp.2.1, hp.2.2⟩ (hh.apart hp.1 hlo hhi)
  | krnl => exact absurd hp hpage.2

/-- **The pages are partitioned in every state of every run**, and a block is handed out of free pages only. -/
theorem partition_of_run (b : Boot) (hb : b.Wf) (ops : List Op) (hops : ∀ op ∈ ops, op.InArray b.msanr) :
    ∃ s₀ s live, boot b = .ok s₀ ∧ runHalt step (s₀, ∅) ops = .ok (s, live) ∧
      (∀ i < b.msanr, ∃! p, At b s live i p) ∧
      (∀ a k, (s.bafh a k).afFrelst.Nodup ∧ ∀ m ∈ (s.bafh a k).afFrelst, Listed s a k m) ∧
      ∀ pages mrtype flgs r, mmDivisionPages s pages mrtype flgs = .ok r ∨ mmDivpagesProcmarea s pages = .ok r →
        ∀ c ∈ r.1, ∀ i, c.1 ≤ i → i < c.1 + c.2 → ∃ a k m, At b s live i (.free a k m) := by
  obtain ⟨s₀, s, live, hboot, hrun, hof, hinv, hkept⟩ := run_of_boot hb hops
  have hmocty : ∀ i, (s.msa i).mfMocty = (b.msa i).mfMocty := fun i => (hkept.mocty i).trans (hof.mocty i)
  refine ⟨s₀, s, live, hboot, hrun, fun i hi => ?_, fun a k => ⟨hinv.nodup a k, fun m hm => hinv.listed hm⟩, ?_⟩
  · refine hinv.existsUnique_at hmocty ?_
    rw [hkept.msanr, hof.msanr]
    exact hi
  · rintro pages mrtype flgs ⟨r, s'⟩ hcall c hc i hlo hhi
    obtain rfl : r = some c := hc
    rcases hcall with hcall | hcall
    · rcases mmDivisionPages_spec hinv pages mrtype flgs with heq | ⟨a, k, m, s'', heq, hh, -⟩
      · rw [heq] at hcall
        simp at hcall
      · rw [heq] at hcall
        simp only [Except.ok.injEq, Prod.mk.injEq, Option.some.injEq] at hcall
        obtain ⟨rfl, -⟩ := hcall
        exact hh.was_free hinv hmocty hlo hhi
    · rcases mmDivpagesProcmarea_spec hinv pages with heq | ⟨a, k, m, s'', heq, hh, hk⟩
      · rw [heq] at hcall
        simp at hcall
      · rw [heq] at hcall
        simp only [Except.ok.injEq, Prod.mk.injEq, Option.some.injEq] at hcall
        obtain ⟨rfl, -⟩ := hcall
        exact hh.was_free hinv hmocty hlo (hk ▸ hhi)

def freeBoot (n : Nat) : Boot where
  msanr := n
  msa := fun i =>
    { mfOlkty := .init
      mfMocty := .free
      mfMarty := 0
      mfUindx := if i < n then 0 else 1
      pafAlloc := false
      pafPadrs := i
      mdOdlink := .null }

theorem freeBoot_wf {n : Nat} (hpos : 0 < n) (hn : n < 2 ^ 40) : (freeBoot n).Wf where
  pos := hpos
  small := lt_trans hn (by norm_num)
  padrs := fun i hi => lt_trans hi hn
  fresh := fun _ _ => ⟨rfl, rfl, rfl⟩
  marks := fun _ hi => .inr ⟨rfl, if_pos hi, rfl⟩
  tail := fun marty hbad => by simp [isFreeMsa, freeBoot] at hbad

/-- Four pages, of which one is taken and given back. -/
theorem partition_of_four : ∃ s₀ s live, boot (freeBoot 4) = .ok s₀ ∧
    runHalt step (s₀, ∅) [.divisionPages 1 maTypeHwad dmfReldiv, .mergePages 0 1] = .ok (s, live) ∧
    (∀ i < 4, ∃! p, At (freeBoot 4) s live i p) ∧ ∀ a k, ∀ m ∈ (s.bafh a k).afFrelst, Listed s a k m := by
  obtain ⟨s₀, s, live, hboot, hrun, hpart, hlist, -⟩ := partition_of_run (freeBoot 4)
    (freeBoot_wf (by norm_num) (by norm_num)) [.divisionPages 1 maTypeHwad dmfReldiv, .mergePages 0 1]
    (by simp [Op.InArray, freeBoot])
  exact ⟨s₀, s, live, hboot, hrun, hpart, fun a k => (hlist a k).2⟩

/-! ### Memory behind the array -/

/-- The pages `padrs`, free but for those the kernel has. The first `msanr` descriptors are the array; the others are
what memory behind it may look like. -/
def behind (msanr : Nat) (krnl padrs : List Nat) : Boot where
  msanr := msanr
  msa := fun i =>
    { mfOlkty := if i < msanr then .init else .bafh
      mfMocty := if i ∈ krnl then .krnl else .free
      mfMarty := if i < msanr then 0 else maTypeHwad
      mfUindx := if i ∈ krnl ∨ padrs.length ≤ i then 1 else 0
      pafAlloc := decide (i ∈ krnl)
      pafPadrs := padrs.getD i 0
      mdOdlink := .null }

theorem behind_arr {msanr : Nat} {krnl padrs : List Nat} (h : (0 < msanr ∧ msanr < 2 ^ 63) ∧ msanr ≤ padrs.length ∧
    ∀ i < msanr, padrs.getD i 0 < 2 ^ 40) : (behind msanr krnl padrs).Arr where
  pos := h.1.1
  small := h.1.2
  padrs := h.2.2
  fresh := fun i (hi : i < msanr) => ⟨if_pos hi, rfl, if_pos hi⟩
  marks := by
    intro i (hi : i < msanr)
    by_cases hkrnl : i ∈ krnl
    · exact .inl ⟨if_pos hkrnl, if_pos (.inl hkrnl), decide_eq_true hkrnl⟩
    · exact .inr ⟨if_neg hkrnl, if_neg (by have := h.2.1; simp only [hkrnl, false_or]; omega), decide_eq_false hkrnl⟩

theorem exists_run (b : Boot) (ops : List Op) (P : Memmgrob × Finset Blk → Prop) [DecidablePred P]
    (h : Except.map (fun t => decide (P t)) (boot b >>= fun s₀ => runHalt step (s₀, ∅) ops) = .ok true) :
    ∃ s₀ s live, boot b = .ok s₀ ∧ runHalt step (s₀, ∅) ops = .ok (s, live) ∧ P (s, live) := by
  obtain ⟨⟨s, live⟩, hrun, hp⟩ := exists_of_map h
  obtain ⟨s₀, hboot, hrun⟩ := bind_eq_ok hrun
  exact ⟨s₀, s, live, hboot, hrun, of_decide_eq_true hp⟩

/-- Four descriptors, the last two of free pages, and two more that go on behind: boot hangs one block of all four free
pages, with an inner descriptor that is not of the array and still has the link type it had. -/
theorem hung_behind : (behind 4 [0, 1] [0, 1, 2, 3, 4, 5]).Arr ∧
    ∃ s₀ s live, boot (behind 4 [0, 1] [0, 1, 2, 3, 4, 5]) = .ok s₀ ∧ runHalt step (s₀, ∅) [] = .ok (s, live) ∧
      2 ∈ (s.bafh 0 2).afFrelst ∧ (s.bafh 0 2).afOderpnr = 4 ∧ (s.msa 4).mfOlkty = .bafh ∧ ¬Listed s 0 2 2 := by
  refine ⟨behind_arr (by decide), ?_⟩
  obtain ⟨s₀, s, live, hboot, hrun, hmem, hoder, holk, hmsanr⟩ := exists_run (behind 4 [0, 1] [0, 1, 2, 3, 4, 5]) []
    (fun t => 2 ∈ (t.1.bafh 0 2).afFrelst ∧ (t.1.bafh 0 2).afOderpnr = 4 ∧ (t.1.msa 4).mfOlkty = .bafh ∧
      t.1.moMsanr = 4)
    (by decide +kernel)
  refine ⟨s₀, s, live, hboot, hrun, hmem, hoder, holk, fun hlisted => ?_⟩
  have hle := hlisted.le
  rw [hmsanr] at hle
  exact absurd hle (by decide)

/-! ### No call halts -/

/-- **No call halts**: in every state of every run each request and each free of a descriptor of the array returns,
whatever the other arguments are. -/
theorem calls_return_of_run (b : Boot) (hb : b.Wf) (ops : List Op) (hops : ∀ op ∈ ops, op.InArray b.msanr) :
    ∃ s₀ s live, boot b = .ok s₀ ∧ runHalt step (s₀, ∅) ops = .ok (s, live) ∧
      (∀ pages mrtype flgs, ∃ r, mmDivisionPages s pages mrtype flgs = .ok r) ∧
      (∀ pages, ∃ r, mmDivpagesProcmarea s pages = .ok r) ∧
      ∀ freemsa < b.msanr, ∀ freepgs, ∃ r, mmMergePages s freemsa freepgs = .ok r := by
  obtain ⟨s₀, s, live, hboot, hrun, hof, hinv, hkept⟩ := run_of_boot hb hops
  refine ⟨s₀, s, live, hboot, hrun, fun pages mrtype flgs => ?_, fun pages => ?_, fun freemsa hlt freepgs => ?_⟩
  · obtain ⟨_, _, hstep, -⟩ := step_effect hinv
      (show (Op.divisionPages pages mrtype flgs).InArray s.moMsanr from trivial)
    obtain ⟨r, hr, -⟩ := bind_eq_ok hstep
    exact ⟨r, hr⟩
  · obtain ⟨_, _, hstep, -⟩ := step_effect hinv (show (Op.divpagesProcmarea pages).InArray s.moMsanr from trivial)
    obtain ⟨r, hr, -⟩ := bind_eq_ok hstep
    exact ⟨r, hr⟩
  · have hin : (Op.mergePages freemsa freepgs).InArray s.moMsanr := by
      rw [hkept.msanr, hof.msanr]
      exact hlt
    obtain ⟨_, _, hstep, -⟩ := step_effect hinv hin
    obtain ⟨r, hr, -⟩ := bind_eq_ok hstep
    exact ⟨r, hr⟩

/-- One page of four is taken; then every call returns. -/
theorem calls_return_of_four : ∃ s₀ s live, boot (freeBoot 4) = .ok s₀ ∧
    runHalt step (s₀, ∅) [.divisionPages 1 maTypeHwad dmfReldiv] = .ok (s, live) ∧
    ∀ freemsa < 4, ∀ freepgs, ∃ r, mmMergePages s freemsa freepgs = .ok r := by
  obtain ⟨s₀, s, live, hboot, hrun, -, -, hmerge⟩ := calls_return_of_run (freeBoot 4)
    (freeBoot_wf (by norm_num) (by norm_num)) [.divisionPages 1 maTypeHwad dmfReldiv] (by simp [Op.InArray])
  exact ⟨s₀, s, live, hboot, hrun, hmerge⟩

/-- The page behind the array is taken for the one after page `0x10`, though its number has a bit more than an address
has: the free of the block of both halts when it is compared with another block. -/
theorem free_halts_behind : (behind 3 [] [1, 2, 0x10, 0x10000000011]).Arr ∧
    ∃ s₀ s live, boot (behind 3 [] [1, 2, 0x10, 0x10000000011]) = .ok s₀ ∧
      runHalt step (s₀, ∅) [.divisionPages 2 maTypeHwad dmfReldiv] = .ok (s, live) ∧
      ∀ r, mmMergePages s 2 2 ≠ .ok r := by
  refine ⟨behind_arr (by decide), ?_⟩
  obtain ⟨s₀, s, live, hboot, hrun, hhalt⟩ := exists_run (behind 3 [] [1, 2, 0x10, 0x10000000011])
    [.divisionPages 2 maTypeHwad dmfReldiv] (fun t => (Except.toBool (mmMergePages t.1 2 2)) = false)
    (by decide +kernel)
  refine ⟨s₀, s, live, hboot, hrun, fun r hr => ?_⟩
  simp only [hr, Except.toBool] at hhalt
  cases hhalt

/-! ### Neighbours -/

/-- In an array in the order of the addresses, blocks that are neighbours in memory are so in the array. -/
theorem Inv.adjacent_of_padrs (h : Inv s ∅ ↑live)
    (hinc : ∀ i j, i < j → j < s.moMsanr → (s.msa i).pafPadrs < (s.msa j).pafPadrs) {m' : Nat}
    (hm : m ∈ (s.bafh a k).afFrelst) (hm' : m' ∈ (s.bafh a k).afFrelst)
    (hnext : (s.msa m).pafPadrs + pnr k = (s.msa m').pafPadrs) : Adjacent s.msa m (pnr k) m' := by
  have hpos := pnr_pos k
  have hlt' := (h.lt_of_free hm' le_rfl (by omega)).1
  have hlast := (h.free a k m hm).padrs (m + pnr k - 1) (by omega) (by omega)
  have hlast_lt := (h.lt_of_free hm (i := m + pnr k - 1) (by omega) (by omega)).1
  -- the last page of the first block lies one below the other block's first, and no page is between them
  have hgt : m + pnr k - 1 < m' := by
    by_contra hle
    rcases Nat.eq_or_lt_of_le (Nat.not_lt.mp hle) with heq | hlt
    · rw [← heq] at hlast
      omega
    · have := hinc m' (m + pnr k - 1) hlt hlast_lt
      omega
  have hidx : m + pnr k = m' := by
    by_contra hne
    have h1 := hinc (m + pnr k - 1) (m + pnr k) (by omega) (by omega)
    have h2 := hinc (m + pnr k) m' (by omega) hlt'
    omega
  exact ⟨hidx, by omega⟩

/-- **Free blocks are merged**: in every state of every run no two blocks of one order below the last are neighbours,
that is, one ends where the other starts, in the array and in memory; where the array is in the order of the addresses
the place in memory alone decides. -/
theorem merged_of_run (b : Boot) (hb : b.Wf) (ops : List Op) (hops : ∀ op ∈ ops, op.InArray b.msanr) :
    ∃ s₀ s live, boot b = .ok s₀ ∧ runHalt step (s₀, ∅) ops = .ok (s, live) ∧
      ∀ a < 2, ∀ k < mdivmerArrLmax - 1, ∀ m ∈ (s.bafh a k).afFrelst, ∀ m' ∈ (s.bafh a k).afFrelst,
        ¬Adjacent s.msa m (s.bafh a k).afOderpnr m' ∧
        ((∀ i j, i < j → j < b.msanr → (b.msa i).pafPadrs < (b.msa j).pafPadrs) →
          (s.msa m).pafPadrs + (s.bafh a k).afOderpnr ≠ (s.msa m').pafPadrs) := by
  obtain ⟨s₀, s, live, hboot, hrun, hof, hinv, hkept⟩ := run_of_boot hb hops
  refine ⟨s₀, s, live, hboot, hrun, fun a ha k hk m hm m' hm' => ?_⟩
  have hnot := hinv.alone a ha k hk m hm m' hm'
  rw [hinv.oder a k (hinv.slot a k m hm)]
  refine ⟨hnot, fun hinc hnext => hnot (hinv.adjacent_of_padrs (fun i j hij hj => ?_) hm hm' hnext)⟩
  rw [hkept.msanr, hof.msanr] at hj
  rw [hkept.padrs, hkept.padrs, hof.padrs, hof.padrs]
  exact hinc i j hij hj

/-- Of four pages one is taken: the others are on the lists of their orders, with no neighbours on any. -/
theorem merged_of_four : ∃ s₀ s live, boot (freeBoot 4) = .ok s₀ ∧
    runHalt step (s₀, ∅) [.divisionPages 1 maTypeHwad dmfReldiv] = .ok (s, live) ∧
    ∀ a < 2, ∀ k < mdivmerArrLmax - 1, ∀ m ∈ (s.bafh a k).afFrelst, ∀ m' ∈ (s.bafh a k).afFrelst,
      (s.msa m).pafPadrs + (s.bafh a k).afOderpnr ≠ (s.msa m').pafPadrs := by
  obtain ⟨s₀, s, live, hboot, hrun, hmerged⟩ := merged_of_run (freeBoot 4)
    (freeBoot_wf (by norm_num) (by norm_num)) [.divisionPages 1 maTypeHwad dmfReldiv] (by simp [Op.InArray])
  exact ⟨s₀, s, live, hboot, hrun, fun a ha k hk m hm m' hm' => (hmerged a ha k hk m hm m' hm').2 fun _ _ hij _ => hij⟩

/-- A free page and one behind the array at the next address, with a page number of more bits: one of the two is taken
and given back, and stays beside the other on the list of single pages. -/
theorem unmerged_behind : (behind 2 [0] [0, 1, 0x10000000002]).Arr ∧
    ∃ s₀ s live, boot (behind 2 [0] [0, 1, 0x10000000002]) = .ok s₀ ∧
      runHalt step (s₀, ∅) [.divisionPages 1 maTypeHwad dmfReldiv, .mergePages 1 1] = .ok (s, live) ∧
      1 ∈ (s.bafh 0 0).afFrelst ∧ 2 ∈ (s.bafh 0 0).afFrelst ∧ phyadrOf (s.msa 1) + 0x1000 = phyadrOf (s.msa 2) :=
  ⟨behind_arr (by decide),
    exists_run _ _ (fun t => 1 ∈ (t.1.bafh 0 0).afFrelst ∧ 2 ∈ (t.1.bafh 0 0).afFrelst ∧
      phyadrOf (t.1.msa 1) + 0x1000 = phyadrOf (t.1.msa 2)) (by decide +kernel)⟩

end Cosmos.Page
