import Cosmos.Vma.Invariant

/-!
# The address space as a set of covered addresses

What an address space is for: which addresses it covers, each with its limits and type (`Cover`). An accepted
`vma_new_vadrs` adds exactly the range it returns, an accepted `vma_del_vadrs` removes exactly its range, and a
refused call changes nothing, whichever search found the interval and whichever way the list was changed.
-/

namespace Cosmos.Vma

open Cosmos.Lib Kmvarsdsc

abbrev Cover := Nat → Option (Nat × Nat)

/-- `[r, r + n)` covered with the attributes `a`. -/
def Cover.add (c : Cover) (r n : Nat) (a : Nat × Nat) : Cover :=
  fun x => if r ≤ x ∧ x < r + n then some a else c x

def Cover.cut (c : Cover) (r n : Nat) : Cover :=
  fun x => if r ≤ x ∧ x < r + n then none else c x

def attrs (k : Kmvarsdsc) : Nat × Nat := (k.kvaLimits, k.kvaMaptype)

def coverOf (l : List Kmvarsdsc) : Cover :=
  fun x => (Intervals.at? kvaStart kvaEnd l x).map attrs

def cover (vma : Virmemadrs) : Cover := coverOf vma.vsList

def pageRound (size : Nat) : Nat := (size + 0xfff) / 0x1000 * 0x1000

theorem pageRound_spec {size : Nat} (h : 1 ≤ size) :
    0x1000 ≤ pageRound size ∧ size ≤ pageRound size ∧ pageRound size % 0x1000 = 0 := by
  unfold pageRound
  omega

theorem vadszAlign_eq {start size : Nat} (h : start + pageRound size ≤ 2 ^ 64 - 1) :
    vadszAlign size = pageRound size := by
  have hle : size ≤ pageRound size := by
    unfold pageRound
    omega
  rw [vadszAlign, alignUp_eq]
  · rfl
  · -- a page-rounded size below `2 ^ 64` leaves a whole page
    have hdvd : 0x1000 ∣ pageRound size := Dvd.intro_left _ rfl
    omega

section Cover

variable {x : Nat} {l : List Kmvarsdsc}

theorem coverOf_cons (k : Kmvarsdsc) (s e : Nat) (a : Nat × Nat) (hs : k.kvaStart = s) (he : k.kvaEnd = e)
    (ha : attrs k = a) : coverOf (k :: l) x = if s ≤ x ∧ x < e then some a else coverOf l x := by
  subst hs he ha
  unfold coverOf
  split
  · next h => rw [Intervals.at?_cons_of_mem h, Option.map_some]
  · next h => rw [Intervals.at?_cons_of_not_mem h]

@[simp] theorem coverOf_nil : coverOf [] x = none := rfl

variable {vma vma' : Virmemadrs} {pre post : List Kmvarsdsc} {k : Kmvarsdsc}

theorem cover_replace (hwf : Wf vma) (hsplit : Nodes.Split kvaAdr vma.vsList pre k post)
    (mid : List Kmvarsdsc) (b : Nat) (hlist : vma'.vsList = pre ++ (mid ++ post)) (hkb : k.kvaEnd ≤ b)
    (hlo : ∀ m ∈ mid, k.kvaStart ≤ m.kvaStart) (hhi : ∀ m ∈ mid, m.kvaEnd ≤ b)
    (hpost : ∀ p ∈ post, b ≤ p.kvaStart) (x : Nat) :
    cover vma' x = if k.kvaStart ≤ x ∧ x < b then coverOf mid x else cover vma x := by
  have hord := hsplit.eq ▸ hwf.ordered
  simp only [cover, coverOf, hlist, hsplit.eq, hord.at?_replace b hkb hlo hhi hpost]
  split <;> rfl

theorem cover_room (hwf : Wf vma) (hsplit : Nodes.Split kvaAdr vma.vsList pre k post) (b : Nat)
    (hkb : k.kvaEnd ≤ b) (hpost : ∀ p ∈ post, b ≤ p.kvaStart) (hx : k.kvaStart ≤ x ∧ x < b) :
    cover vma x = if x < k.kvaEnd then some (attrs k) else none := by
  have h := cover_replace hwf hsplit [k] b hsplit.eq hkb (by simp) (by simpa) hpost x
  rw [if_pos hx, coverOf_cons k _ _ _ rfl rfl rfl, coverOf_nil] at h
  simpa [hx.1] using h

end Cover

/-! ### Allocation -/

section New

variable {vma vma' : Virmemadrs} {pre post : List Kmvarsdsc} {k : Kmvarsdsc} {r n limits type : Nat}
  {newkmvd : Option Nat}

theorem Fits.uncovered (hwf : Wf vma) (hsplit : Nodes.Split kvaAdr vma.vsList pre k post)
    (hfits : Fits vma k post r n) {x : Nat} (hx : r ≤ x ∧ x < r + n) : cover vma x = none := by
  have hk := (hsplit.eq ▸ hwf.ordered).split.2.2.1
  have hbehind := hfits.behind
  rw [cover_room hwf hsplit (r + n) (by omega) (hfits.post_le hwf hsplit) ⟨by omega, hx.2⟩, if_neg (by omega)]

theorem NewShape.cover_eq (hwf : Wf vma) (hsplit : Nodes.Split kvaAdr vma.vsList pre k post)
    (hfits : Fits vma k post r n) (h : NewShape vma r n limits type newkmvd pre k post vma') :
    cover vma' = (cover vma).add r n (limits, type) := by
  have hk := (hsplit.eq ▸ hwf.ordered).split.2.2.1
  have hbehind := hfits.behind
  have hpost := hfits.post_le hwf hsplit
  have hlt := hwf.isalcend_lt
  have hend : u64 (r + n) = r + n := u64_of_lt (by have := hfits.le_isalcend hwf hsplit; omega)
  funext x
  -- outside the room of `k` nothing changes; inside it, `k` covers up to its end and the range from `r`
  have hroom := cover_room (x := x) hwf hsplit (r + n) (by omega) hpost
  unfold Cover.add
  cases h with
  | extend hr hlimits htype =>
    rw [cover_replace hwf hsplit [{ k with kvaEnd := r + n }] (r + n) rfl (by omega) (by simp) (by simp) hpost,
      coverOf_cons { k with kvaEnd := r + n } k.kvaStart (r + n) (attrs k) rfl rfl rfl, coverOf_nil]
    by_cases hin : k.kvaStart ≤ x ∧ x < r + n
    · rw [if_pos hin, if_pos hin, hroom hin]
      by_cases hx : x < k.kvaEnd
      · rw [if_neg (by omega), if_pos hx]
      · rw [if_pos (by omega), hlimits, htype]
        rfl
    · rw [if_neg hin, if_neg (by omega)]
  | insert adr _ =>
    rw [cover_replace hwf hsplit [k, newKmvd adr r n limits type] (r + n) rfl (by omega)
      (by simp only [List.mem_cons, List.not_mem_nil, or_false, forall_eq_or_imp, forall_eq, newKmvd]; omega)
      (by simp only [List.mem_cons, List.not_mem_nil, or_false, forall_eq_or_imp, forall_eq, newKmvd]; omega)
      hpost, coverOf_cons k _ _ _ rfl rfl rfl,
      coverOf_cons (newKmvd adr r n limits type) r (r + n) (limits, type) rfl hend rfl, coverOf_nil]
    by_cases hin : k.kvaStart ≤ x ∧ x < r + n
    · rw [if_pos hin, hroom hin]
      by_cases hx : x < k.kvaEnd
      · rw [if_pos ⟨hin.1, hx⟩, if_neg (by omega), if_pos hx]
      · rw [if_neg (by omega), if_neg hx]
    · rw [if_neg hin, if_neg (by omega)]

end New

/-! ### Deletion -/

section Del

variable {vma : Virmemadrs} {pre post : List Kmvarsdsc} {k : Kmvarsdsc} {start n : Nat}
  {newkmvd : Option Nat} {out : DelOut}

theorem covered_of_inside (hwf : Wf vma) (hsplit : Nodes.Split kvaAdr vma.vsList pre k post)
    {x : Nat} (hx : k.kvaStart ≤ x ∧ x < k.kvaEnd) : cover vma x = some (attrs k) := by
  obtain ⟨-, -, -, -, hpost, -⟩ := (hsplit.eq ▸ hwf.ordered).split
  rw [cover_room hwf hsplit k.kvaEnd le_rfl hpost hx, if_pos hx.2]

theorem DelShape.rets (h : DelShape vma start n newkmvd pre k post out) : out.rets = true := by
  cases h <;> rfl

theorem DelShape.exists_mid (h : DelShape vma start n newkmvd pre k post out) :
    ∃ mid, out.vma.vsList = pre ++ (mid ++ post) ∧ (∀ m ∈ mid, k.kvaStart ≤ m.kvaStart) ∧
      (∀ m ∈ mid, m.kvaEnd ≤ k.kvaEnd) ∧
      ∀ x, k.kvaStart ≤ x ∧ x < k.kvaEnd →
        coverOf mid x = if start ≤ x ∧ x < start + n then none else some (attrs k) := by
  cases h with
  | whole hs he =>
    refine ⟨[], rfl, by simp, by simp, fun x hx => ?_⟩
    rw [coverOf_nil, if_pos (by omega)]
  | trimLeft hs he =>
    refine ⟨[{ k with kvaStart := start + n }], rfl, ?_, by simp, fun x hx => ?_⟩
    · simp only [List.mem_singleton, forall_eq]
      omega
    · rw [coverOf_cons { k with kvaStart := start + n } (start + n) k.kvaEnd (attrs k) rfl rfl rfl, coverOf_nil]
      by_cases hin : x < start + n
      · rw [if_neg (by omega), if_pos (by omega)]
      · rw [if_pos (by omega), if_neg (by omega)]
  | trimRight hs he =>
    refine ⟨[{ k with kvaEnd := start }], rfl, by simp, ?_, fun x hx => ?_⟩
    · simp only [List.mem_singleton, forall_eq]
      omega
    · rw [coverOf_cons { k with kvaEnd := start } k.kvaStart start (attrs k) rfl rfl rfl, coverOf_nil]
      by_cases hin : x < start
      · rw [if_pos ⟨hx.1, hin⟩, if_neg (by omega)]
      · rw [if_neg (by omega), if_pos (by omega)]
  | split adr hs he _ =>
    refine ⟨[{ k with kvaEnd := start }, tailKmvd adr (start + n) k], rfl, ?_, ?_, fun x hx => ?_⟩
    · simp only [List.mem_cons, List.not_mem_nil, or_false, forall_eq_or_imp, forall_eq, tailKmvd]
      omega
    · simp only [List.mem_cons, List.not_mem_nil, or_false, forall_eq_or_imp, forall_eq, tailKmvd]
      omega
    · rw [coverOf_cons { k with kvaEnd := start } k.kvaStart start (attrs k) rfl rfl rfl,
        coverOf_cons (tailKmvd adr (start + n) k) (start + n) k.kvaEnd (attrs k) rfl rfl rfl, coverOf_nil]
      by_cases hlow : x < start
      · rw [if_pos ⟨hx.1, hlow⟩, if_neg (by omega)]
      · rw [if_neg (fun h => hlow h.2)]
        by_cases hin : x < start + n
        · rw [if_neg (by omega), if_pos (by omega)]
        · rw [if_pos (by omega), if_neg (by omega)]

theorem DelShape.cover_eq (hwf : Wf vma) (hsplit : Nodes.Split kvaAdr vma.vsList pre k post)
    (hstart : k.kvaStart ≤ start) (hend : start + n ≤ k.kvaEnd)
    (h : DelShape vma start n newkmvd pre k post out) : cover out.vma = (cover vma).cut start n := by
  obtain ⟨-, -, -, -, hpost, -⟩ := (hsplit.eq ▸ hwf.ordered).split
  obtain ⟨mid, hlist, hlo, hhi, hmid⟩ := h.exists_mid
  funext x
  rw [cover_replace hwf hsplit mid k.kvaEnd hlist le_rfl hlo hhi hpost]
  unfold Cover.cut
  by_cases hin : k.kvaStart ≤ x ∧ x < k.kvaEnd
  · rw [if_pos hin, hmid x hin, covered_of_inside hwf hsplit hin]
  · rw [if_neg hin, if_neg (by omega)]

end Del

/-- **An address space is the set of the addresses it covers.** Whatever `new_kmvarsdsc` answers, an accepted
call adds or removes exactly its page-rounded range, and a refused one changes no address. -/
theorem vma_refines_cover {vma : Virmemadrs} (hwf : Wf vma) (start size limits type : Nat)
    (newkmvd : Option Nat) (hfresh : FreshFor vma newkmvd) (hsum : start + pageRound size ≤ 2 ^ 64 - 1) :
    (∀ r vma', vmaNewVadrs vma start size limits type newkmvd = (r, vma') →
      (r ≠ 0 → (start ≠ 0 → r = start) ∧ (∀ x, r ≤ x → x < r + pageRound size → cover vma x = none) ∧
        cover vma' = (cover vma).add r (pageRound size) (limits, type)) ∧
      (r = 0 → cover vma' = cover vma)) ∧
    (∀ out, vmaDelVadrs vma start size newkmvd = out →
      (out.rets = true →
        (∀ x, start ≤ x → x < start + pageRound size → (cover vma x).isSome) ∧
        cover out.vma = (cover vma).cut start (pageRound size)) ∧
      (out.rets = false → cover out.vma = cover vma)) := by
  have hround := vadszAlign_eq hsum
  rw [← hround] at hsum ⊢
  have hsum' : start + vadszAlign size < 2 ^ 64 := by omega
  constructor
  · rintro r vma' heq
    rcases vmaNewVadrs_cases hwf start size limits type newkmvd hfresh hsum' with hnone | hshape
    · obtain ⟨rfl, rfl⟩ := Prod.mk.inj (heq.symm.trans hnone)
      exact ⟨fun h => absurd rfl h, fun _ => rfl⟩
    · obtain ⟨pre, k, post, vma'', hsplit, hfits, hn, hres, hshape⟩ := hshape
      obtain ⟨rfl, rfl⟩ := Prod.mk.inj (heq.symm.trans hres)
      refine ⟨fun _ => ⟨fun h0 => if_neg h0, fun x hlo hhi => hfits.uncovered hwf hsplit ⟨hlo, hhi⟩,
        hshape.cover_eq hwf hsplit hfits⟩, fun h0 => ?_⟩
      -- the range never starts at 0: it lies behind an interval
      have hk := hwf.ordered.pos k (by rw [hsplit.eq]; simp)
      have := hfits.behind
      omega
  · rintro out rfl
    rcases vmaDelVadrs_cases hwf start size newkmvd hfresh hsum' with
      hnone | ⟨pre, k, post, hsplit, hn, hstart, hend, hshape⟩
    · rw [hnone]
      exact ⟨fun h => (by cases h), fun _ => rfl⟩
    · refine ⟨fun _ => ⟨fun x hlo hhi => ?_, hshape.cover_eq hwf hsplit hstart hend⟩, fun h => ?_⟩
      · rw [covered_of_inside hwf hsplit ⟨by omega, by omega⟩]
        rfl
      · rw [hshape.rets] at h
        cases h

/-- A page added behind the heap of a new process. -/
theorem cover_heap_grows :
    cover (vmaNewVadrs (userspace 1 2 3) 0 0x10 0 kmvHeapType none).2 =
      (cover (userspace 1 2 3)).add 0x100001000 0x1000 (0, kmvHeapType) := by
  have hwf : Wf (userspace 1 2 3) := wf_userspace (by decide)
  have hnew : vmaNewVadrs (userspace 1 2 3) 0 0x10 0 kmvHeapType none =
      (0x100001000, (vmaNewVadrs (userspace 1 2 3) 0 0x10 0 kmvHeapType none).2) :=
    Prod.ext (by decide) rfl
  have hrefines := vma_refines_cover hwf 0 0x10 0 kmvHeapType none (fun _ h => by cases h) (by decide)
  exact ((hrefines.1 _ _ hnew).1 (by decide)).2.2

end Cosmos.Vma
