import Cosmos.Vma.Invariant

/-!
# Runs of allocations and deletions

From the three intervals of a new process, the list stays sorted, disjoint and in bounds along every run
whose calls do not wrap: `start + VADSZ_ALIGN(vassize)` fits 64 bits. `vma_del_vadrs` does not test this, and
one wrapping call from `mfreeblk` makes two intervals overlap.

The count `vs_kmvdscnr` and the five pointers into the list are kept by hand. `vma_new_vadrs` does not count the
intervals it links, and nothing updates `vs_startkmvdsc`, `vs_heapkmvdsc` and `vs_stackkmvdsc` when their interval goes.
-/

namespace Cosmos.Vma

open Cosmos.Lib Kmvarsdsc

/-- A call, with the answer `new_kmvarsdsc` gives if the call asks for a descriptor. -/
inductive Call where
  | newVadrs (start vassize vaslimits vastype : Nat) (newkmvd : Option Nat)
  | delVadrs (start vassize : Nat) (newkmvd : Option Nat)

namespace Call

def start : Call → Nat
  | newVadrs start .. => start
  | delVadrs start .. => start

def vassize : Call → Nat
  | newVadrs _ vassize .. => vassize
  | delVadrs _ vassize _ => vassize

def newkmvd : Call → Option Nat
  | newVadrs _ _ _ _ newkmvd => newkmvd
  | delVadrs _ _ newkmvd => newkmvd

def run (vma : Virmemadrs) : Call → Virmemadrs
  | newVadrs start vassize vaslimits vastype newkmvd =>
    (vmaNewVadrs vma start vassize vaslimits vastype newkmvd).2
  | delVadrs start vassize newkmvd => (vmaDelVadrs vma start vassize newkmvd).vma

def NoWrap (c : Call) : Prop := c.start + vadszAlign c.vassize < 2 ^ 64

instance (c : Call) : Decidable c.NoWrap := inferInstanceAs (Decidable (_ < _))

end Call

/-- A call whose descriptor, if it gets one, is not in use. -/
def Step (vma : Virmemadrs) (c : Call) (vma' : Virmemadrs) : Prop :=
  FreshFor vma c.newkmvd ∧ vma' = c.run vma

theorem wf_step {vma vma' : Virmemadrs} {c : Call} (hc : c.NoWrap) (hwf : Wf vma) (h : Step vma c vma') :
    Wf vma' := by
  obtain ⟨hfresh, rfl⟩ := h
  cases c with
  | newVadrs start vassize limits type newkmvd =>
    exact hwf.vmaNewVadrs start vassize limits type newkmvd hfresh hc
  | delVadrs start vassize newkmvd => exact hwf.vmaDelVadrs start vassize newkmvd hfresh hc

/-- **The intervals stay sorted, disjoint and in bounds** in every run of calls that do not wrap. -/
theorem valid_of_run (d₁ d₂ d₃ : Nat) {cs : List Call} {vma : Virmemadrs} (hd : [d₁, d₂, d₃].Nodup)
    (hrun : Trace Step (userspace d₁ d₂ d₃) cs vma) (hcs : ∀ c ∈ cs, c.NoWrap) : Valid vma :=
  (hrun.inv (fun _ _ _ hc hwf h => wf_step hc hwf h) hcs (wf_userspace hd)).toValid

/-- A run that cuts the text interval in two, then lets the heap grow. -/
theorem valid_of_run_split :
    Valid (Call.run (Call.run (userspace 1 2 3) (.delVadrs 0x2000 0x1000 (some 4)))
      (.newVadrs 0 0x10 0 8 none)) := by
  refine valid_of_run 1 2 3 (by decide) (.cons ⟨?_, rfl⟩ (.cons ⟨?_, rfl⟩ (.nil _))) ?_
  · intro adr hadr
    cases hadr
    decide
  · intro adr hadr
    cases hadr
  · intro c hc
    simp only [List.mem_cons, List.not_mem_nil, or_false] at hc
    rcases hc with rfl | rfl <;> decide

/-- Freeing `2 ^ 64 - 0x1000` bytes at `0x2000` splits the text interval with the part behind the hole
starting at `0x1000`, inside the part before it. -/
theorem overlap_of_wrapping_delVadrs :
    ∃ vma, Trace Step (userspace 1 2 3) [.delVadrs 0x2000 (2 ^ 64 - 0x1000) (some 4)] vma ∧ ¬Valid vma := by
  refine ⟨_, .cons ⟨?_, rfl⟩ (.nil _), fun hvalid => ?_⟩
  · intro adr hadr
    cases hadr
    decide
  · have hsorted := hvalid.ordered.sorted
    revert hsorted
    decide

/-! ### The interval count -/

/-- The end of the range fits 64 bits, and the descriptor, if the call gets one, is not in use. -/
def Call.Allowed (vma : Virmemadrs) (c : Call) : Prop := c.NoWrap ∧ FreshFor vma c.newkmvd

instance (vma : Virmemadrs) (c : Call) : Decidable (c.Allowed vma) := inferInstanceAs (Decidable (_ ∧ _))

/-- An accepted `vma_new_vadrs` that gets a descriptor and cannot extend the interval `vma_find_kmvarsdsc` finds. -/
def Call.Links (vma : Virmemadrs) : Call → Prop
  | newVadrs start vassize vaslimits vastype newkmvd =>
    newkmvd.isSome ∧ ¬vassize < 1 ∧
      ¬(start ≠ 0 ∧ (start % 0x1000 ≠ 0 ∨ start < 0x1000 ∨ userVirtualAddressEnd < u64 (start + vassize))) ∧
      ∃ currkmvd ∈ vmaFindKmvarsdsc vma start (vadszAlign vassize) vaslimits vastype,
        ¬((start = 0 ∨ start = currkmvd.kvaEnd) ∧ vaslimits = currkmvd.kvaLimits ∧
          vastype = currkmvd.kvaMaptype)
  | delVadrs .. => False

def Counted (vma : Virmemadrs) : Prop := vma.vsKmvdscnr = vma.vsList.length

instance (vma : Virmemadrs) : Decidable (Counted vma) := inferInstanceAs (Decidable (_ = _))

instance (vma : Virmemadrs) : (c : Call) → Decidable (c.Links vma)
  | .newVadrs start vassize vaslimits vastype newkmvd => by
    unfold Call.Links
    infer_instance
  | .delVadrs .. => isFalse id

section Steps

variable {vma : Virmemadrs} {c : Call}

theorem wf_run (hwf : Wf vma) (hc : c.Allowed vma) : Wf (c.run vma) := wf_step hc.1 hwf ⟨hc.2, rfl⟩

theorem Wf.length_lt (hwf : Wf vma) : vma.vsList.length < 2 ^ 63 := by
  have hle := hwf.ordered.add_length_le (Nat.zero_le vma.vsIsalcend) (fun _ _ => Nat.zero_le _)
    fun k hk => (hwf.inside k hk).2
  have hlt := hwf.isalcend_lt
  omega

theorem length_newVadrs (hwf : Wf vma) (start vassize limits type : Nat) (newkmvd : Option Nat) :
    (vmaNewVadrs vma start vassize limits type newkmvd).2.vsList.length =
      vma.vsList.length + if (Call.newVadrs start vassize limits type newkmvd).Links vma then 1 else 0 := by
  unfold vmaNewVadrs
  split
  · next h => rw [if_neg fun hl => hl.2.1 h, Nat.add_zero]
  split
  · next h => rw [if_neg fun hl => hl.2.2.1 h, Nat.add_zero]
  next hsize hstart =>
  unfold vmaNewVadrsCore
  split
  · next hfind =>
    rw [if_neg, Nat.add_zero]
    rintro ⟨-, -, -, k, hk, -⟩
    rw [hfind] at hk
    cases hk
  · next k hfind =>
    obtain ⟨pre, post, hsplit⟩ := Nodes.exists_split hwf.nodup (vmaFindKmvarsdsc_spec hfind).1
    have hold := congrArg List.length hsplit.eq
    rw [List.length_append, List.length_cons] at hold
    split
    · next hext =>
      rw [if_neg, hsplit.modify_eq]
      · simp only [List.length_append, List.length_cons]
        omega
      · rintro ⟨-, -, -, k', hk', hnot⟩
        cases hfind.symm.trans hk'
        exact hnot hext
    · next hext =>
      cases newkmvd with
      | none => rw [if_neg fun hl => Bool.noConfusion hl.1, Nat.add_zero]
      | some adr =>
        rw [if_pos ⟨rfl, hsize, hstart, k, hfind, hext⟩]
        simp only [hsplit.insertAfter_eq, List.length_append, List.length_cons]
        omega

theorem counted_run_iff (hwf : Wf vma) (hc : c.Allowed vma) (h : Counted vma) :
    Counted (c.run vma) ↔ ¬c.Links vma := by
  have hlen := hwf.length_lt
  unfold Counted at h ⊢
  cases c with
  | newVadrs start vassize limits type newkmvd =>
    have hnr : (vmaNewVadrs vma start vassize limits type newkmvd).2.vsKmvdscnr = vma.vsKmvdscnr := by
      rcases vmaNewVadrs_cases hwf start vassize limits type newkmvd hc.2 hc.1 with
        heq | ⟨pre, k, post, vma', -, -, -, heq, hshape⟩
      · rw [heq]
      · rw [heq]
        cases hshape <;> rfl
    simp only [Call.run, hnr, length_newVadrs hwf, h]
    split
    · next hl => simp [hl]
    · next hl => simp [hl]
  | delVadrs start vassize newkmvd =>
    simp only [Call.run, Call.Links, not_false_eq_true, iff_true]
    rcases vmaDelVadrs_cases hwf start vassize newkmvd hc.2 hc.1 with
      heq | ⟨pre, k, post, hsplit, -, -, -, hshape⟩
    · rw [heq]
      exact h
    · have hold := congrArg List.length hsplit.eq
      have hnr : (vmaDelSetEndcurrkmvd vma k).vsKmvdscnr = vma.vsKmvdscnr := by
        unfold vmaDelSetEndcurrkmvd
        split <;> rfl
      generalize vmaDelVadrs vma start vassize newkmvd = out at hshape ⊢
      cases hshape with
      | whole _ _ =>
        simp only [List.length_append, List.length_cons, List.length_nil] at hold ⊢
        rw [hnr, h, u64Sub_of_le (by omega) (by omega)]
        omega
      | trimLeft _ _ =>
        simp only [List.length_append, List.length_cons, List.length_nil] at hold ⊢
        omega
      | trimRight _ _ =>
        simp only [List.length_append, List.length_cons, List.length_nil] at hold ⊢
        omega
      | split adr _ _ _ =>
        simp only [List.length_append, List.length_cons, List.length_nil] at hold ⊢
        rw [h, u64_of_lt (by omega)]
        omega

end Steps

/-- **The count is right after every call exactly in the runs where `vma_new_vadrs` links no interval.** -/
theorem counted_iff_never_links (d₁ d₂ d₃ : Nat) {cs : List Call} (hd : [d₁, d₂, d₃].Nodup)
    (hcs : Along Call.run Call.Allowed (userspace d₁ d₂ d₃) cs) :
    Along Call.run (fun vma c => Counted (c.run vma)) (userspace d₁ d₂ d₃) cs ↔
      Along Call.run (fun vma c => ¬c.Links vma) (userspace d₁ d₂ d₃) cs :=
  along_iff_never (fun _ _ hwf hc => wf_run hwf hc) (fun _ _ hwf hc h => counted_run_iff hwf hc h) cs _
    (wf_userspace hd) rfl hcs

/-- The text interval is cut in two and its first part deleted, then the heap grows. -/
theorem counted_of_split : Along Call.run (fun vma c => Counted (c.run vma)) (userspace 1 2 3)
    [.delVadrs 0x2000 0x1000 (some 4), .delVadrs 0x1000 0x1000 none, .newVadrs 0 0x10 0 kmvHeapType none] :=
  (counted_iff_never_links 1 2 3 (by decide) (by decide)).mpr (by decide)

/-- A range between text and heap is linked and not counted. -/
theorem uncounted_of_newVadrs :
    Along Call.run Call.Allowed (userspace 1 2 3) [.newVadrs 0x10000 0x1000 0 0 (some 4)] ∧
      ¬Counted (Call.run (userspace 1 2 3) (.newVadrs 0x10000 0x1000 0 0 (some 4))) := by
  decide

/-! ### The pointers into the list -/

def Virmemadrs.adrs (vma : Virmemadrs) : List Nat := vma.vsList.map kvaAdr

/-- The pointers that only `kvma_inituserspace_virmemadrs` sets. -/
def Virmemadrs.fixed (vma : Virmemadrs) : List (Option Nat) :=
  [vma.vsStartkmvdsc, vma.vsHeapkmvdsc, vma.vsStackkmvdsc]

/-- Every pointer is `NULL` or on the list, and the list starts and ends where it should. -/
structure Pointers (vma : Virmemadrs) : Prop where
  fixed : ∀ p ∈ vma.fixed, ∀ adr ∈ p, adr ∈ vma.adrs
  curr : ∀ adr ∈ vma.vsCurrkmvdsc, adr ∈ vma.adrs
  last : ∀ adr ∈ vma.vsEndkmvdsc, adr ∈ vma.adrs
  start_eq : ∀ adr ∈ vma.adrs.head?, vma.vsStartkmvdsc = some adr
  end_eq : ∀ adr ∈ vma.adrs.getLast?, vma.vsEndkmvdsc = some adr

/-- A deletion whose start and rounded end are those of an interval at which a fixed pointer points. -/
def Call.Drops (vma : Virmemadrs) : Call → Prop
  | newVadrs .. => False
  | delVadrs start vassize _ =>
    ∃ kmvd ∈ vma.vsList, some kmvd.kvaAdr ∈ vma.fixed ∧ kmvd.kvaStart = start ∧
      kmvd.kvaEnd = start + vadszAlign vassize

instance (vma : Virmemadrs) : (c : Call) → Decidable (c.Drops vma)
  | .newVadrs .. => isFalse id
  | .delVadrs start vassize _ => inferInstanceAs (Decidable (∃ kmvd ∈ vma.vsList,
      some kmvd.kvaAdr ∈ vma.fixed ∧ kmvd.kvaStart = start ∧ kmvd.kvaEnd = start + vadszAlign vassize))

section Pointers

variable {vma vma' : Virmemadrs} {c : Call} {pre post : List Kmvarsdsc} {k : Kmvarsdsc} {adr : Nat}

theorem Pointers.congr (h : Pointers vma) (hadrs : vma'.adrs = vma.adrs) (hfixed : vma'.fixed = vma.fixed)
    (hend : vma'.vsEndkmvdsc = vma.vsEndkmvdsc) (hcurr : ∀ adr ∈ vma'.vsCurrkmvdsc, adr ∈ vma.adrs) :
    Pointers vma' := by
  have hstart : vma'.vsStartkmvdsc = vma.vsStartkmvdsc := List.head_eq_of_cons_eq hfixed
  refine ⟨?_, ?_, ?_, ?_, ?_⟩
  · rw [hfixed, hadrs]
    exact h.fixed
  · rw [hadrs]
    exact hcurr
  · rw [hend, hadrs]
    exact h.last
  · rw [hstart, hadrs]
    exact h.start_eq
  · rw [hend, hadrs]
    exact h.end_eq

theorem adrs_of_split (hsplit : Nodes.Split kvaAdr vma.vsList pre k post) :
    vma.adrs = pre.map kvaAdr ++ k.kvaAdr :: post.map kvaAdr := by
  rw [Virmemadrs.adrs, hsplit.eq, List.map_append, List.map_cons]

theorem Pointers.linked (h : Pointers vma) (hsplit : Nodes.Split kvaAdr vma.vsList pre k post)
    (hnew : vma'.adrs = pre.map kvaAdr ++ k.kvaAdr :: adr :: post.map kvaAdr) (hfixed : vma'.fixed = vma.fixed)
    (hend : vma'.vsEndkmvdsc = if post.head?.isNone then some adr else vma.vsEndkmvdsc)
    (hcurr : vma'.vsCurrkmvdsc = some adr) : Pointers vma' := by
  have hold := adrs_of_split hsplit
  have hstart : vma'.vsStartkmvdsc = vma.vsStartkmvdsc := List.head_eq_of_cons_eq hfixed
  have hsub : ∀ x ∈ vma.adrs, x ∈ vma'.adrs := by
    intro x hx
    rw [hold] at hx
    rw [hnew]
    simp only [List.mem_append, List.mem_cons] at hx ⊢
    tauto
  have hmem : adr ∈ vma'.adrs := by
    rw [hnew]
    simp
  have hhead : vma'.adrs.head? = vma.adrs.head? := by
    rw [hnew, hold]
    cases pre <;> rfl
  refine ⟨?_, ?_, ?_, ?_, ?_⟩
  · rw [hfixed]
    exact fun p hp x hx => hsub x (h.fixed p hp x hx)
  · intro x hx
    rw [hcurr] at hx
    cases hx
    exact hmem
  · intro x hx
    rw [hend] at hx
    split at hx
    · cases hx
      exact hmem
    · exact hsub x (h.last x hx)
  · rw [hstart, hhead]
    exact h.start_eq
  · intro x hx
    rw [hend]
    cases post with
    | nil =>
      rw [hnew] at hx
      simpa using hx
    | cons p post =>
      rw [if_neg (by simp)]
      refine h.end_eq x ?_
      rw [hnew] at hx
      rw [hold]
      simpa using hx

theorem Pointers.unlinked (h : Pointers vma) (hsplit : Nodes.Split kvaAdr vma.vsList pre k post)
    (hnew : vma'.adrs = (pre ++ post).map kvaAdr) (hfixed : vma'.fixed = vma.fixed)
    (hkeep : ∀ p ∈ vma.fixed, ∀ x ∈ p, x ∈ vma'.adrs)
    (hend : vma'.vsEndkmvdsc = if post.head?.isNone then pre.getLast?.map kvaAdr else vma.vsEndkmvdsc)
    (hcurr : ∀ x ∈ vma'.vsCurrkmvdsc, x ∈ vma'.adrs) : Pointers vma' := by
  have hold := adrs_of_split hsplit
  have hstart : vma'.vsStartkmvdsc = vma.vsStartkmvdsc := List.head_eq_of_cons_eq hfixed
  have hlast : vma'.adrs.getLast? = if post.head?.isNone then pre.getLast?.map kvaAdr else vma.adrs.getLast? := by
    rw [hnew, hold]
    cases post with
    | nil => simp
    | cons p post => simp
  refine ⟨?_, hcurr, ?_, ?_, ?_⟩
  · rw [hfixed]
    exact hkeep
  · intro x hx
    refine List.mem_of_getLast? ?_
    rw [hend] at hx
    rw [hlast]
    by_cases hpost : post.head?.isNone = true
    · rwa [if_pos hpost] at hx ⊢
    · -- the last interval stays, and the pointer is at it
      rw [if_neg hpost] at hx ⊢
      obtain ⟨y, hy⟩ : ∃ y, vma.adrs.getLast? = some y := by
        rw [hold]
        exact ⟨_, List.getLast?_eq_some_getLast (by simp)⟩
      obtain rfl : y = x := Option.some.inj ((h.end_eq y hy).symm.trans hx)
      exact hy
  · cases pre with
    | nil =>
      -- `k` was the first interval, at which `vs_startkmvdsc` points
      have hfirst := h.start_eq k.kvaAdr (by rw [hold]; rfl)
      have hmem := hkeep _ List.mem_cons_self _ hfirst
      rw [hnew] at hmem
      obtain ⟨x, hx, heq⟩ := List.mem_map.mp hmem
      exact absurd heq (hsplit.post_ne x hx)
    | cons p pre =>
      rw [hstart, hnew]
      refine fun x hx => h.start_eq x ?_
      rw [hold]
      exact hx
  · intro x hx
    rw [hlast] at hx
    rw [hend]
    split
    · next hpost => rwa [if_pos hpost] at hx
    · next hpost =>
      rw [if_neg hpost] at hx
      exact h.end_eq x hx

theorem NewShape.pointers {r n limits type : Nat} {newkmvd : Option Nat} (h : Pointers vma)
    (hsplit : Nodes.Split kvaAdr vma.vsList pre k post)
    (hshape : NewShape vma r n limits type newkmvd pre k post vma') : Pointers vma' ∧ vma'.fixed = vma.fixed := by
  cases hshape with
  | extend _ _ _ =>
    refine ⟨h.congr (map_adr_replace hsplit _ rfl) rfl rfl fun adr hadr => ?_, rfl⟩
    cases hadr
    rw [adrs_of_split hsplit]
    simp
  | insert adr _ =>
    exact ⟨h.linked hsplit (by simp [Virmemadrs.adrs, newKmvd, kmvarsdscTInit]) rfl rfl rfl, rfl⟩

theorem vmaDelSetEndcurrkmvd_end (hsplit : Nodes.Split kvaAdr vma.vsList pre k post) :
    vmaDelSetEndcurrkmvd vma k = { vma with
      vsEndkmvdsc := if post.head?.isNone then pre.getLast?.map kvaAdr else vma.vsEndkmvdsc
      vsCurrkmvdsc := (vmaDelSetEndcurrkmvd vma k).vsCurrkmvdsc } := by
  unfold vmaDelSetEndcurrkmvd
  rw [hsplit.next?_eq, hsplit.prev?_eq]
  cases post <;> rfl

theorem DelShape.fixed_eq {start n : Nat} {newkmvd : Option Nat} {out : DelOut}
    (hsplit : Nodes.Split kvaAdr vma.vsList pre k post)
    (hshape : DelShape vma start n newkmvd pre k post out) : out.vma.fixed = vma.fixed := by
  cases hshape with
  | whole _ _ =>
    rw [vmaDelSetEndcurrkmvd_end hsplit]
    rfl
  | trimLeft _ _ => rfl
  | trimRight _ _ => rfl
  | split adr _ _ _ => rfl

theorem DelShape.pointers {start n : Nat} {newkmvd : Option Nat} {out : DelOut} (h : Pointers vma)
    (hsplit : Nodes.Split kvaAdr vma.vsList pre k post) (hshape : DelShape vma start n newkmvd pre k post out)
    (hkeep : ∀ p ∈ vma.fixed, ∀ x ∈ p, x ∈ out.vma.adrs) : Pointers out.vma := by
  have hfixed := hshape.fixed_eq hsplit
  cases hshape with
  | whole _ _ =>
    refine h.unlinked hsplit rfl hfixed hkeep ?_ (vmaDelSetEndcurrkmvd_curr hsplit)
    rw [vmaDelSetEndcurrkmvd_end hsplit]
  | trimLeft _ _ => exact h.congr (map_adr_replace hsplit _ rfl) hfixed rfl h.curr
  | trimRight _ _ => exact h.congr (map_adr_replace hsplit _ rfl) hfixed rfl h.curr
  | split adr _ _ _ => exact h.linked hsplit (by simp [Virmemadrs.adrs, tailKmvd, kmvarsdscTInit]) hfixed rfl rfl

theorem NewShape.adrs_subset {r n limits type : Nat} {newkmvd : Option Nat}
    (hsplit : Nodes.Split kvaAdr vma.vsList pre k post)
    (hshape : NewShape vma r n limits type newkmvd pre k post vma') : vma.adrs ⊆ vma'.adrs := by
  rw [adrs_of_split hsplit]
  cases hshape <;> intro x hx <;> simp only [Virmemadrs.adrs, List.map_append, List.map_cons, List.map_nil,
    List.mem_append, List.mem_cons] at hx ⊢ <;> tauto

/-- The addresses a deletion takes off the list. -/
theorem DelShape.gone_iff {start n : Nat} {newkmvd : Option Nat} {out : DelOut}
    (hsplit : Nodes.Split kvaAdr vma.vsList pre k post)
    (hshape : DelShape vma start n newkmvd pre k post out) :
    adr ∈ vma.adrs ∧ adr ∉ out.vma.adrs ↔ adr = k.kvaAdr ∧ k.kvaStart = start ∧ k.kvaEnd = start + n := by
  rw [adrs_of_split hsplit]
  cases hshape with
  | whole hs he =>
    have hpre : k.kvaAdr ∉ pre.map kvaAdr := fun h => by
      obtain ⟨x, hx, heq⟩ := List.mem_map.mp h
      exact hsplit.pre_ne x hx heq
    have hpost : k.kvaAdr ∉ post.map kvaAdr := fun h => by
      obtain ⟨x, hx, heq⟩ := List.mem_map.mp h
      exact hsplit.post_ne x hx heq
    simp only [Virmemadrs.adrs, List.nil_append, List.map_append, List.mem_append, List.mem_cons, not_or]
    constructor
    · rintro ⟨hin | rfl | hin, hout⟩
      · exact absurd hin hout.1
      · exact ⟨rfl, hs, he⟩
      · exact absurd hin hout.2
    · rintro ⟨rfl, -, -⟩
      exact ⟨.inr (.inl rfl), hpre, hpost⟩
  | trimLeft hs he =>
    simp only [Virmemadrs.adrs, List.map_append, List.map_cons, List.map_nil, List.mem_append, List.mem_cons,
      List.not_mem_nil, or_false, and_not_self, false_iff]
    omega
  | trimRight hs he =>
    simp only [Virmemadrs.adrs, List.map_append, List.map_cons, List.map_nil, List.mem_append, List.mem_cons,
      List.not_mem_nil, or_false, and_not_self, false_iff]
    omega
  | split adr' hs he _ =>
    simp only [Virmemadrs.adrs, List.map_append, List.map_cons, List.map_nil, List.mem_append, List.mem_cons,
      List.not_mem_nil, or_false]
    constructor
    · rintro ⟨hin, hout⟩
      exact absurd hin (by tauto)
    · rintro ⟨-, hstart, -⟩
      omega

/-- A range with the bounds of an interval is found, and it is that interval which is found. -/
theorem vmaDelFind_eq {start n : Nat} (hwf : Wf vma) (hk : k ∈ vma.vsList) (hstart : k.kvaStart = start)
    (hend : k.kvaEnd = start + n) (hsum : start + n < 2 ^ 64) (hn : 0x1000 ≤ n) :
    vmaDelFindKmvarsdsc vma start n = some k := by
  obtain ⟨k', hfind⟩ : ∃ k', vmaDelFindKmvarsdsc vma start n = some k' := by
    rw [vmaDelFindKmvarsdsc, if_neg (by omega), ← Option.isSome_iff_exists, Option.isSome_or, Bool.or_eq_true]
    refine .inr (List.find?_isSome.mpr ⟨k, hk, decide_eq_true ?_⟩)
    rw [u64_of_lt hsum]
    omega
  obtain ⟨hk', hstart', hend', -⟩ := vmaDelFindKmvarsdsc_spec hfind
  rw [u64_of_lt hsum] at hend'
  rw [hfind, hwf.ordered.eq_of_mem (x := start) hk' hk (by omega) (by omega)]

theorem vmaDelVadrs_ne_refused {start vassize : Nat} {newkmvd : Option Nat} (hwf : Wf vma) (hk : k ∈ vma.vsList)
    (hstart : k.kvaStart = start) (hend : k.kvaEnd = start + vadszAlign vassize)
    (hsum : start + vadszAlign vassize < 2 ^ 64) : vmaDelVadrs vma start vassize newkmvd ≠ delRefused vma := by
  have hpos := hwf.ordered.pos k hk
  have hlow := (hwf.inside k hk).1
  have hn : 0x1000 ≤ vadszAlign vassize := Nat.le_of_dvd (by omega) (alignUp_dvd vassize 0x1000)
  have hsize : ¬(vassize < 1 ∨ start = 0) := by
    rintro (hsize | h0)
    · obtain rfl : vassize = 0 := by omega
      exact absurd hn (by decide)
    · omega
  rw [vmaDelVadrs, if_neg hsize]
  simp only [vmaDelVadrsCore, vmaDelFind_eq hwf hk hstart hend hsum hn, u64_of_lt hsum, hstart, hend, and_self,
    if_true]
  intro heq
  cases congrArg DelOut.rets heq

/-- The fixed pointers left at a descriptor off the list are those `Call.Drops` names before the call. -/
theorem drops_iff (hwf : Wf vma) (hc : c.Allowed vma) :
    c.Drops vma ↔ ∃ p ∈ vma.fixed, ∃ adr ∈ p, adr ∈ vma.adrs ∧ adr ∉ (c.run vma).adrs := by
  cases c with
  | newVadrs start vassize limits type newkmvd =>
    simp only [Call.Drops, Call.run, false_iff]
    rintro ⟨p, -, adr, -, hin, hout⟩
    rcases vmaNewVadrs_cases hwf start vassize limits type newkmvd hc.2 hc.1 with
      heq | ⟨pre, k, post, vma', hsplit, -, -, heq, hshape⟩
    · rw [heq] at hout
      exact hout hin
    · rw [heq] at hout
      exact hout (hshape.adrs_subset hsplit hin)
  | delVadrs start vassize newkmvd =>
    simp only [Call.Drops, Call.run]
    rcases vmaDelVadrs_cases hwf start vassize newkmvd hc.2 hc.1 with
      heq | ⟨pre, k, post, hsplit, hn, hstart, hend, hshape⟩
    · rw [heq]
      constructor
      · rintro ⟨k, hk, -, hstart, hend⟩
        exact absurd heq (vmaDelVadrs_ne_refused hwf hk hstart hend hc.1)
      · rintro ⟨p, -, adr, -, hin, hout⟩
        exact absurd hin hout
    · have hk : k ∈ vma.vsList := by
        rw [hsplit.eq]
        simp
      constructor
      · rintro ⟨k', hk', hfix, hs, he⟩
        obtain rfl := hwf.ordered.eq_of_mem (x := start) hk' hk (by omega) (by omega)
        exact ⟨_, hfix, _, rfl, (hshape.gone_iff hsplit).mpr ⟨rfl, hs, he⟩⟩
      · rintro ⟨p, hp, adr, hadr, hgone⟩
        obtain ⟨rfl, hs, he⟩ := (hshape.gone_iff hsplit).mp hgone
        obtain rfl := Option.mem_def.mp hadr
        exact ⟨k, hk, hp, hs, he⟩

theorem pointers_run_iff (hwf : Wf vma) (hc : c.Allowed vma) (h : Pointers vma) :
    Pointers (c.run vma) ↔ ¬c.Drops vma := by
  rw [drops_iff hwf hc]
  suffices hrun : (c.run vma).fixed = vma.fixed ∧
      ((∀ p ∈ vma.fixed, ∀ x ∈ p, x ∈ (c.run vma).adrs) → Pointers (c.run vma)) by
    constructor
    · rintro hafter ⟨p, hp, adr, hadr, -, hgone⟩
      rw [← hrun.1] at hp
      exact hgone (hafter.fixed p hp adr hadr)
    · intro hkept
      refine hrun.2 fun p hp x hx => ?_
      by_contra hgone
      exact hkept ⟨p, hp, x, hx, h.fixed p hp x hx, hgone⟩
  cases c with
  | newVadrs start vassize limits type newkmvd =>
    simp only [Call.run]
    rcases vmaNewVadrs_cases hwf start vassize limits type newkmvd hc.2 hc.1 with
      heq | ⟨pre, k, post, vma', hsplit, -, -, heq, hshape⟩
    · rw [heq]
      exact ⟨rfl, fun _ => h⟩
    · rw [heq]
      obtain ⟨hpointers, hfixed⟩ := hshape.pointers h hsplit
      exact ⟨hfixed, fun _ => hpointers⟩
  | delVadrs start vassize newkmvd =>
    simp only [Call.run]
    rcases vmaDelVadrs_cases hwf start vassize newkmvd hc.2 hc.1 with
      heq | ⟨pre, k, post, hsplit, -, -, -, hshape⟩
    · rw [heq]
      exact ⟨rfl, fun _ => h⟩
    · exact ⟨hshape.fixed_eq hsplit, hshape.pointers h hsplit⟩

end Pointers

theorem pointers_userspace (d₁ d₂ d₃ : Nat) : Pointers (userspace d₁ d₂ d₃) := by
  refine ⟨?_, ?_, ?_, ?_, ?_⟩ <;>
    simp [userspace, kvmaInituserspaceVirmemadrs, virmemadrsTInit, Virmemadrs.fixed, Virmemadrs.adrs, kmvarsdscTInit]

/-- **The five pointers are right after every call exactly in the runs that never delete a whole interval at
which `vs_startkmvdsc`, `vs_heapkmvdsc` or `vs_stackkmvdsc` points.** -/
theorem pointers_iff_never_drops (d₁ d₂ d₃ : Nat) {cs : List Call} (hd : [d₁, d₂, d₃].Nodup)
    (hcs : Along Call.run Call.Allowed (userspace d₁ d₂ d₃) cs) :
    Along Call.run (fun vma c => Pointers (c.run vma)) (userspace d₁ d₂ d₃) cs ↔
      Along Call.run (fun vma c => ¬c.Drops vma) (userspace d₁ d₂ d₃) cs :=
  along_iff_never (fun _ _ hwf hc => wf_run hwf hc) (fun _ _ hwf hc h => pointers_run_iff hwf hc h) cs _
    (wf_userspace hd) (pointers_userspace d₁ d₂ d₃) hcs

/-- The text interval is cut in two, a range is linked behind it, and both new intervals go again. -/
theorem pointers_of_link : Along Call.run (fun vma c => Pointers (c.run vma)) (userspace 1 2 3)
    [.delVadrs 0x2000 0x1000 (some 4), .newVadrs 0x10000 0x1000 0 kmvBinType (some 5), .delVadrs 0x3000 0x2000 none,
      .delVadrs 0x10000 0x1000 none] :=
  (pointers_iff_never_drops 1 2 3 (by decide) (by decide)).mpr (by decide)

/-- Freeing the text interval leaves `vs_startkmvdsc` at its descriptor. -/
theorem dangling_of_delVadrs :
    Along Call.run Call.Allowed (userspace 1 2 3) [.delVadrs 0x1000 0x4000 none] ∧
      ¬Pointers (Call.run (userspace 1 2 3) (.delVadrs 0x1000 0x4000 none)) := by
  refine ⟨by decide, fun h => ?_⟩
  have hstart := h.fixed (some 1) (by decide) 1 rfl
  revert hstart
  decide

end Cosmos.Vma
