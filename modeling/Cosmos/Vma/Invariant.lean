import Cosmos.Lib.Intervals
import Cosmos.Lib.Run
import Cosmos.Vma.Model

/-!
# The interval list along runs

Under arguments whose sum does not wrap, `vma_new_vadrs` and `vma_del_vadrs` either leave the address space
alone or put new intervals in the place of one interval (`vmaNewVadrs_cases`, `vmaDelVadrs_cases`). Both keep
the list sorted, disjoint and in bounds (`Wf`).
-/

namespace Cosmos.Vma

open Cosmos.Lib Kmvarsdsc

/-- The intervals are sorted, not empty, disjoint, and inside `[0x1000, vs_isalcend]`. -/
structure Valid (vma : Virmemadrs) : Prop where
  ordered : Intervals.Ordered kvaStart kvaEnd vma.vsList
  inside : ∀ k ∈ vma.vsList, 0x1000 ≤ k.kvaStart ∧ k.kvaEnd ≤ vma.vsIsalcend

/-- A valid list of distinct descriptors, one of them cached, below an end at which `kva_end + vassize`
cannot wrap. -/
structure Wf (vma : Virmemadrs) : Prop extends Valid vma where
  nodup : (vma.vsList.map kvaAdr).Nodup
  curr : ∀ p, vma.vsCurrkmvdsc = some p → p ∈ vma.vsList.map kvaAdr
  isalcend_lt : vma.vsIsalcend < 2 ^ 63

/-- `new_kmvarsdsc` answers with an object that is not one of the list's descriptors. -/
def FreshFor (vma : Virmemadrs) (newkmvd : Option Nat) : Prop :=
  ∀ adr, newkmvd = some adr → adr ∉ vma.vsList.map kvaAdr

instance (vma : Virmemadrs) : (newkmvd : Option Nat) → Decidable (FreshFor vma newkmvd)
  | none => isTrue fun _ h => nomatch h
  | some adr => decidable_of_iff (adr ∉ vma.vsList.map kvaAdr)
      ⟨fun h _ heq => Option.some.inj heq ▸ h, fun h => h adr rfl⟩

theorem Wf.replace {vma vma' : Virmemadrs} {pre mid post : List Kmvarsdsc} {k : Kmvarsdsc} (hwf : Wf vma)
    (hsplit : Nodes.Split kvaAdr vma.vsList pre k post) (b : Nat)
    (hmid : Intervals.Ordered kvaStart kvaEnd mid) (hlo : ∀ m ∈ mid, k.kvaStart ≤ m.kvaStart)
    (hhi : ∀ m ∈ mid, m.kvaEnd ≤ b) (hpost : ∀ p ∈ post, b ≤ p.kvaStart) (hb : b ≤ vma.vsIsalcend)
    (hlist : vma'.vsList = pre ++ (mid ++ post)) (hend : vma'.vsIsalcend = vma.vsIsalcend)
    (hnodup : (vma'.vsList.map kvaAdr).Nodup)
    (hcurr : ∀ p, vma'.vsCurrkmvdsc = some p → p ∈ vma'.vsList.map kvaAdr) : Wf vma' := by
  have hmem : ∀ x, x ∈ pre ∨ x = k ∨ x ∈ post → x ∈ vma.vsList := by
    intro x hx
    rw [hsplit.eq]
    simpa using hx
  refine ⟨⟨?_, ?_⟩, hnodup, hcurr, hend ▸ hwf.isalcend_lt⟩
  · rw [hlist]
    exact (hsplit.eq ▸ hwf.ordered).replace hmid b hlo hhi hpost
  · rw [hlist, hend]
    intro m hm
    simp only [List.mem_append] at hm
    rcases hm with hm | hm | hm
    · exact hwf.inside m (hmem m (.inl hm))
    · have hk := hwf.inside k (hmem k (.inr (.inl rfl)))
      have := hlo m hm
      have := hhi m hm
      omega
    · exact hwf.inside m (hmem m (.inr (.inr hm)))

theorem Virmemadrs.kmvd?_mem {vma : Virmemadrs} {p : Option Nat} {k : Kmvarsdsc} (h : vma.kmvd? p = some k) :
    k ∈ vma.vsList := by
  obtain ⟨adr, -, hget⟩ := Option.bind_eq_some_iff.mp h
  exact List.mem_of_find?_eq_some hget

/-! ### What allocation does -/

/-- The gap behind `k`, up to the next interval or the end of the space, takes `[r, r + n)`. -/
structure Fits (vma : Virmemadrs) (k : Kmvarsdsc) (post : List Kmvarsdsc) (r n : Nat) : Prop where
  behind : k.kvaEnd ≤ r
  next : ∀ p ∈ post.head?, r + n ≤ p.kvaStart
  last : post = [] → r + n < vma.vsIsalcend

theorem isOk_eq {vma : Virmemadrs} {c d : Kmvarsdsc} {start n : Nat}
    (h : vmaFindKmvarsdscIsOk vma c start n = some d) : d = c := by
  simp only [vmaFindKmvarsdscIsOk] at h
  split at h <;> split at h <;> split at h <;> simp_all

theorem fits_of_isOk {vma : Virmemadrs} {pre post : List Kmvarsdsc} {k : Kmvarsdsc} {start n : Nat}
    (hsplit : Nodes.Split kvaAdr vma.vsList pre k post) (hsum : start + n < 2 ^ 64)
    (hopen : k.kvaEnd + n < 2 ^ 64) (h : vmaFindKmvarsdscIsOk vma k start n = some k) :
    Fits vma k post (newStart start k) n := by
  simp only [vmaFindKmvarsdscIsOk] at h
  rw [hsplit.next?_eq, u64_of_lt hsum, u64_of_lt hopen] at h
  unfold newStart
  cases hpost : post with
  | nil =>
    simp only [hpost, List.head?_nil] at h
    split at h <;> split at h <;> simp only [reduceCtorEq] at h
    · exact ⟨by simp_all, by simp, fun _ => by simp_all⟩
    · exact ⟨by simp_all, by simp, fun _ => by simp_all⟩
  | cons p post' =>
    simp only [hpost, List.head?_cons] at h
    split at h <;> split at h <;> simp only [reduceCtorEq] at h
    · exact ⟨by simp_all, by simp_all, by simp⟩
    · exact ⟨by simp_all, by simp_all, by simp⟩

theorem vmaFindKmvarsdsc_spec {vma : Virmemadrs} {k : Kmvarsdsc} {start n limits type : Nat}
    (h : vmaFindKmvarsdsc vma start n limits type = some k) :
    k ∈ vma.vsList ∧ vmaFindKmvarsdscIsOk vma k start n = some k ∧ 0x1000 ≤ n ∧
      u64 (start + n) ≤ vma.vsIsalcend := by
  simp only [vmaFindKmvarsdsc] at h
  split at h
  · cases h
  · split at h
    · cases h
    · suffices hfound : k ∈ vma.vsList ∧ vmaFindKmvarsdscIsOk vma k start n = some k from
        ⟨hfound.1, hfound.2, by omega, by omega⟩
      rcases Option.or_eq_some_iff.mp h with hcurr | ⟨-, h⟩
      · obtain ⟨c, hc, hfilter⟩ := Option.bind_eq_some_iff.mp hcurr
        have hok := (Option.filter_eq_some_iff.mp hfilter).1
        obtain rfl := isOk_eq hok
        exact ⟨Virmemadrs.kmvd?_mem hc, hok⟩
      · rcases Option.or_eq_some_iff.mp h with hsame | ⟨-, hany⟩
        · obtain ⟨c, hc, hok⟩ := List.exists_of_findSome?_eq_some hsame
          split at hok
          · obtain rfl := isOk_eq hok
            exact ⟨hc, hok⟩
          · cases hok
        · obtain ⟨c, hc, hok⟩ := List.exists_of_findSome?_eq_some hany
          obtain rfl := isOk_eq hok
          exact ⟨hc, hok⟩

/-- The two ways an accepted allocation changes the list: `k` grows, or a new interval follows it. -/
inductive NewShape (vma : Virmemadrs) (r n limits type : Nat) (newkmvd : Option Nat)
    (pre : List Kmvarsdsc) (k : Kmvarsdsc) (post : List Kmvarsdsc) : Virmemadrs → Prop
  | extend : r = k.kvaEnd → limits = k.kvaLimits → type = k.kvaMaptype →
      NewShape vma r n limits type newkmvd pre k post { vma with
        vsList := pre ++ ([{ k with kvaEnd := r + n }] ++ post)
        vsCurrkmvdsc := some k.kvaAdr }
  | insert (adr : Nat) : newkmvd = some adr →
      NewShape vma r n limits type newkmvd pre k post { vma with
        vsList := pre ++ ([k, newKmvd adr r n limits type] ++ post)
        vsCurrkmvdsc := some adr
        vsEndkmvdsc := if post.head?.isNone then some adr else vma.vsEndkmvdsc }

theorem split_insert {vma : Virmemadrs} {pre post : List Kmvarsdsc} {k : Kmvarsdsc} (k' new : Kmvarsdsc)
    (hsplit : Nodes.Split kvaAdr vma.vsList pre k post) (hadr : k'.kvaAdr = k.kvaAdr)
    (hfresh : new.kvaAdr ∉ vma.vsList.map kvaAdr) :
    Nodes.Split kvaAdr (pre ++ ([k', new] ++ post)) (pre ++ [k']) new post := by
  have hne : ∀ x, x ∈ pre ∨ x = k ∨ x ∈ post → kvaAdr x ≠ kvaAdr new := by
    intro x hx heq
    refine hfresh (heq ▸ List.mem_map_of_mem ?_)
    rw [hsplit.eq]
    simpa using hx
  refine ⟨by simp, fun x hx => ?_, fun x hx => hne x (.inr (.inr hx))⟩
  rcases List.mem_append.mp hx with hx | hx
  · exact hne x (.inl hx)
  · obtain rfl := List.mem_singleton.mp hx
    exact hadr ▸ hne k (.inr (.inl rfl))

/-- **What `vma_new_vadrs` does** when its sum does not wrap. -/
theorem vmaNewVadrs_cases {vma : Virmemadrs} (hwf : Wf vma) (start vassize limits type : Nat)
    (newkmvd : Option Nat) (hfresh : FreshFor vma newkmvd) (hsum : start + vadszAlign vassize < 2 ^ 64) :
    vmaNewVadrs vma start vassize limits type newkmvd = (0, vma) ∨
      ∃ pre k post vma', Nodes.Split kvaAdr vma.vsList pre k post ∧
        Fits vma k post (newStart start k) (vadszAlign vassize) ∧ 0x1000 ≤ vadszAlign vassize ∧
        vmaNewVadrs vma start vassize limits type newkmvd = (newStart start k, vma') ∧
        NewShape vma (newStart start k) (vadszAlign vassize) limits type newkmvd pre k post vma' := by
  generalize hn : vadszAlign vassize = n at *
  simp only [vmaNewVadrs, hn]
  split
  · exact .inl rfl
  split
  · exact .inl rfl
  unfold vmaNewVadrsCore
  split
  · exact .inl rfl
  · next k hfind =>
    obtain ⟨hmem, hok, hmin, hle⟩ := vmaFindKmvarsdsc_spec hfind
    obtain ⟨pre, post, hsplit⟩ := Nodes.exists_split hwf.nodup hmem
    have hkend := (hwf.inside k hmem).2
    have hlt := hwf.isalcend_lt
    rw [u64_of_lt hsum] at hle
    have hopen : k.kvaEnd + n < 2 ^ 64 := by omega
    have hfits := fits_of_isOk hsplit hsum hopen hok
    split
    · next hext =>
      have hr : newStart start k = k.kvaEnd := by
        unfold newStart
        split
        · rfl
        · next h0 => exact hext.1.resolve_left h0
      refine .inr ⟨pre, k, post, _, hsplit, hfits, hmin, Prod.ext hr.symm rfl, ?_⟩
      rw [hsplit.modify_eq, u64_of_lt hopen, hr]
      exact .extend rfl hext.2.1 hext.2.2
    · cases newkmvd with
      | none => exact .inl rfl
      | some adr =>
        refine .inr ⟨pre, k, post, _, hsplit, hfits, hmin, rfl, ?_⟩
        have hnext : Nodes.next? kvaAdr adr (pre ++ k :: newKmvd adr (newStart start k) n limits type :: post) =
            post.head? := (split_insert k (newKmvd adr _ n limits type) hsplit rfl (hfresh adr rfl)).next?_eq
        simp only [hsplit.insertAfter_eq, hnext]
        exact .insert adr rfl

/-! ### What deletion does -/

/-- The four ways an accepted deletion of `[start, start + n)` changes the list. -/
inductive DelShape (vma : Virmemadrs) (start n : Nat) (newkmvd : Option Nat)
    (pre : List Kmvarsdsc) (k : Kmvarsdsc) (post : List Kmvarsdsc) : DelOut → Prop
  | whole : k.kvaStart = start → k.kvaEnd = start + n →
      DelShape vma start n newkmvd pre k post
        ⟨true, { vmaDelSetEndcurrkmvd vma k with
          vsList := pre ++ ([] ++ post)
          vsKmvdscnr := u64Sub (vmaDelSetEndcurrkmvd vma k).vsKmvdscnr 1 },
        some (k.kvaKvmbox, start, n), k.kvaKvmbox, none⟩
  | trimLeft : k.kvaStart = start → start + n < k.kvaEnd →
      DelShape vma start n newkmvd pre k post
        ⟨true, { vma with vsList := pre ++ ([{ k with kvaStart := start + n }] ++ post) },
        some (k.kvaKvmbox, start, n), none, none⟩
  | trimRight : k.kvaStart < start → k.kvaEnd = start + n →
      DelShape vma start n newkmvd pre k post
        ⟨true, { vma with vsList := pre ++ ([{ k with kvaEnd := start }] ++ post) },
        some (k.kvaKvmbox, start, n), none, none⟩
  | split (adr : Nat) : k.kvaStart < start → start + n < k.kvaEnd → newkmvd = some adr →
      DelShape vma start n newkmvd pre k post
        ⟨true, { vma with
          vsList := pre ++ ([{ k with kvaEnd := start }, tailKmvd adr (start + n) k] ++ post)
          vsKmvdscnr := u64 (vma.vsKmvdscnr + 1)
          vsEndkmvdsc := if post.head?.isNone then some adr else vma.vsEndkmvdsc
          vsCurrkmvdsc := some adr },
        some (k.kvaKvmbox, start, n), none, k.kvaKvmbox⟩

@[simp] theorem vmaDelSetEndcurrkmvd_vsList (vma : Virmemadrs) (k : Kmvarsdsc) :
    (vmaDelSetEndcurrkmvd vma k).vsList = vma.vsList := by
  unfold vmaDelSetEndcurrkmvd
  split <;> rfl

@[simp] theorem vmaDelSetEndcurrkmvd_vsIsalcend (vma : Virmemadrs) (k : Kmvarsdsc) :
    (vmaDelSetEndcurrkmvd vma k).vsIsalcend = vma.vsIsalcend := by
  unfold vmaDelSetEndcurrkmvd
  split <;> rfl

theorem Virmemadrs.mem_of_cached_or_find {vma : Virmemadrs} {p : Kmvarsdsc → Bool} {k : Kmvarsdsc} {c : Option Nat}
    (h : ((vma.kmvd? c).filter p).or (vma.vsList.find? p) = some k) : k ∈ vma.vsList ∧ p k = true := by
  rcases Option.or_eq_some_iff.mp h with hcurr | ⟨-, hlist⟩
  · obtain ⟨hc, hin⟩ := Option.filter_eq_some_iff.mp hcurr
    exact ⟨Virmemadrs.kmvd?_mem hc, hin⟩
  · exact ⟨List.mem_of_find?_eq_some hlist, List.find?_some hlist⟩

theorem vmaDelFindKmvarsdsc_spec {vma : Virmemadrs} {k : Kmvarsdsc} {start n : Nat}
    (h : vmaDelFindKmvarsdsc vma start n = some k) :
    k ∈ vma.vsList ∧ k.kvaStart ≤ start ∧ u64 (start + n) ≤ k.kvaEnd ∧ 0x1000 ≤ n := by
  simp only [vmaDelFindKmvarsdsc] at h
  split at h
  · cases h
  · obtain ⟨hmem, hinside⟩ := Virmemadrs.mem_of_cached_or_find h
    have hin := of_decide_eq_true hinside
    exact ⟨hmem, hin.1, hin.2, by omega⟩

def delRefused (vma : Virmemadrs) : DelOut := ⟨false, vma, none, none, none⟩

/-- **What `vma_del_vadrs` does** when its sum does not wrap. -/
theorem vmaDelVadrs_cases {vma : Virmemadrs} (hwf : Wf vma) (start vassize : Nat) (newkmvd : Option Nat)
    (hfresh : FreshFor vma newkmvd) (hsum : start + vadszAlign vassize < 2 ^ 64) :
    vmaDelVadrs vma start vassize newkmvd = delRefused vma ∨
      ∃ pre k post, Nodes.Split kvaAdr vma.vsList pre k post ∧ 0x1000 ≤ vadszAlign vassize ∧
        k.kvaStart ≤ start ∧ start + vadszAlign vassize ≤ k.kvaEnd ∧
        DelShape vma start (vadszAlign vassize) newkmvd pre k post
          (vmaDelVadrs vma start vassize newkmvd) := by
  generalize hn : vadszAlign vassize = n at *
  simp only [vmaDelVadrs, hn]
  split
  · exact .inl rfl
  unfold vmaDelVadrsCore
  split
  · exact .inl rfl
  · next k hfind =>
    obtain ⟨hmem, hstart, hend, hmin⟩ := vmaDelFindKmvarsdsc_spec hfind
    obtain ⟨pre, post, hsplit⟩ := Nodes.exists_split hwf.nodup hmem
    simp only [u64_of_lt hsum] at hend ⊢
    split
    · next h =>
      refine .inr ⟨pre, k, post, hsplit, hmin, hstart, hend, ?_⟩
      rw [vmaDelSetEndcurrkmvd_vsList, hsplit.remove_eq]
      exact .whole h.1 h.2
    split
    · next h =>
      refine .inr ⟨pre, k, post, hsplit, hmin, hstart, hend, ?_⟩
      rw [hsplit.modify_eq]
      exact .trimLeft h.1 h.2
    split
    · next h =>
      refine .inr ⟨pre, k, post, hsplit, hmin, hstart, hend, ?_⟩
      rw [hsplit.modify_eq]
      exact .trimRight h.1 h.2
    split
    · next h =>
      cases newkmvd with
      | none => exact .inl rfl
      | some adr =>
        refine .inr ⟨pre, k, post, hsplit, hmin, hstart, hend, ?_⟩
        have hnext : Nodes.next? kvaAdr adr (pre ++ { k with kvaEnd := start } :: tailKmvd adr (start + n) k :: post)
            = post.head? :=
          (split_insert { k with kvaEnd := start } (tailKmvd adr _ k) hsplit rfl (hfresh adr rfl)).next?_eq
        have hcut : Nodes.Split kvaAdr (pre ++ { k with kvaEnd := start } :: post) pre
            { k with kvaEnd := start } post := ⟨rfl, hsplit.pre_ne, hsplit.post_ne⟩
        have hins := hcut.insertAfter_eq (tailKmvd adr (start + n) k)
        simp only [hsplit.modify_eq, hins, hnext]
        exact .split adr h.1 h.2 rfl
    · exact .inl rfl

/-! ### Both keep the invariant -/

section Preservation

variable {vma : Virmemadrs} {pre post : List Kmvarsdsc} {k : Kmvarsdsc} {r n start limits type : Nat}
  {newkmvd : Option Nat}

theorem map_adr_replace (hsplit : Nodes.Split kvaAdr vma.vsList pre k post) (k' : Kmvarsdsc)
    (hadr : k'.kvaAdr = k.kvaAdr) : (pre ++ ([k'] ++ post)).map kvaAdr = vma.vsList.map kvaAdr := by
  rw [hsplit.eq]
  simp [hadr]

theorem Wf.rebound {vma' : Virmemadrs} (hwf : Wf vma) (hsplit : Nodes.Split kvaAdr vma.vsList pre k post)
    (k' : Kmvarsdsc) (b : Nat) (hlist : vma'.vsList = pre ++ ([k'] ++ post)) (hadr : k'.kvaAdr = k.kvaAdr)
    (hpos : k'.kvaStart < k'.kvaEnd) (hlo : k.kvaStart ≤ k'.kvaStart) (hhi : k'.kvaEnd ≤ b)
    (hpost : ∀ p ∈ post, b ≤ p.kvaStart) (hb : b ≤ vma.vsIsalcend) (hend : vma'.vsIsalcend = vma.vsIsalcend)
    (hcurr : vma'.vsCurrkmvdsc = vma.vsCurrkmvdsc ∨ vma'.vsCurrkmvdsc = some k.kvaAdr) : Wf vma' := by
  have hmap : vma'.vsList.map kvaAdr = vma.vsList.map kvaAdr := by
    rw [hlist, map_adr_replace hsplit k' hadr]
  refine hwf.replace hsplit b ?_ (by simpa) (by simpa) hpost hb hlist hend (hmap ▸ hwf.nodup) ?_
  · exact Intervals.ordered_cons.mpr ⟨hpos, by simp, Intervals.ordered_nil⟩
  · intro p hp
    rw [hmap]
    rcases hcurr with hcurr | hcurr
    · exact hwf.curr p (hcurr ▸ hp)
    · obtain rfl := Option.some.inj (hcurr.symm.trans hp)
      rw [hsplit.eq]
      simp

theorem nodup_insert (hwf : Wf vma) (hsplit : Nodes.Split kvaAdr vma.vsList pre k post) (k' new : Kmvarsdsc)
    (hadr : k'.kvaAdr = k.kvaAdr) (hfresh : new.kvaAdr ∉ vma.vsList.map kvaAdr) :
    ((pre ++ ([k', new] ++ post)).map kvaAdr).Nodup := by
  rw [(split_insert k' new hsplit hadr hfresh).nodup_iff, ← List.map_append, List.append_assoc,
    map_adr_replace hsplit k' hadr]
  exact hwf.nodup

theorem Fits.post_le (hwf : Wf vma) (hsplit : Nodes.Split kvaAdr vma.vsList pre k post)
    (hfits : Fits vma k post r n) : ∀ p ∈ post, r + n ≤ p.kvaStart := by
  have hord := (hsplit.eq ▸ hwf.ordered).split.2.1
  exact hord.le_lo_of_head (r + n) hfits.next

theorem Fits.le_isalcend (hwf : Wf vma) (hsplit : Nodes.Split kvaAdr vma.vsList pre k post)
    (hfits : Fits vma k post r n) : r + n ≤ vma.vsIsalcend := by
  cases hpost : post with
  | nil => exact (hfits.last hpost).le
  | cons p post' =>
    have hmem : p ∈ vma.vsList := by
      rw [hsplit.eq, hpost]
      simp
    have hp := hfits.post_le hwf hsplit p (by simp [hpost])
    have hpos := hwf.ordered.pos p hmem
    have hin := (hwf.inside p hmem).2
    omega

theorem NewShape.wf {vma' : Virmemadrs} (hwf : Wf vma) (hfresh : FreshFor vma newkmvd)
    (hsplit : Nodes.Split kvaAdr vma.vsList pre k post) (hfits : Fits vma k post r n) (hn : 0x1000 ≤ n)
    (h : NewShape vma r n limits type newkmvd pre k post vma') : Wf vma' := by
  have hk := (hsplit.eq ▸ hwf.ordered).split.2.2.1
  have hle := hfits.le_isalcend hwf hsplit
  have hbehind := hfits.behind
  have hlt := hwf.isalcend_lt
  cases h with
  | extend hr _ _ =>
    exact hwf.rebound hsplit _ (r + n) rfl rfl (by simp only; omega) le_rfl le_rfl (hfits.post_le hwf hsplit) hle
      rfl (.inr rfl)
  | insert adr hadr =>
    have hend : u64 (r + n) = r + n := u64_of_lt (by omega)
    refine hwf.replace hsplit (r + n) ?_ ?_ ?_ (hfits.post_le hwf hsplit) hle rfl rfl ?_ ?_
    · refine Intervals.ordered_cons.mpr ⟨hk, by simp [newKmvd, hbehind], ?_⟩
      exact Intervals.ordered_cons.mpr ⟨by simp only [newKmvd]; omega, by simp, Intervals.ordered_nil⟩
    · simp only [List.mem_cons, List.not_mem_nil, or_false, forall_eq_or_imp, forall_eq, newKmvd]
      omega
    · simp only [List.mem_cons, List.not_mem_nil, or_false, forall_eq_or_imp, forall_eq, newKmvd]
      omega
    · exact nodup_insert hwf hsplit k _ rfl (hfresh adr hadr)
    · simp [newKmvd, kmvarsdscTInit]

theorem vmaDelSetEndcurrkmvd_curr (hsplit : Nodes.Split kvaAdr vma.vsList pre k post) (p : Nat)
    (h : (vmaDelSetEndcurrkmvd vma k).vsCurrkmvdsc = some p) : p ∈ (pre ++ post).map kvaAdr := by
  rw [vmaDelSetEndcurrkmvd, hsplit.next?_eq, hsplit.prev?_eq] at h
  cases hpost : post with
  | nil =>
    simp only [hpost, List.head?_nil] at h
    obtain ⟨x, hx, rfl⟩ := Option.map_eq_some_iff.mp h
    exact List.mem_map_of_mem (by simp [List.mem_of_getLast? hx])
  | cons x post' =>
    simp only [hpost, List.head?_cons, Option.some.injEq] at h
    exact h ▸ List.mem_map_of_mem (by simp)

theorem DelShape.wf {out : DelOut} (hwf : Wf vma) (hfresh : FreshFor vma newkmvd)
    (hsplit : Nodes.Split kvaAdr vma.vsList pre k post) (hn : 0x1000 ≤ n)
    (h : DelShape vma start n newkmvd pre k post out) : Wf out.vma := by
  obtain ⟨-, -, hk, -, hpost, -⟩ := (hsplit.eq ▸ hwf.ordered).split
  have hmem : k ∈ vma.vsList := by
    rw [hsplit.eq]
    simp
  have hin := (hwf.inside k hmem).2
  cases h with
  | whole _ _ =>
    refine hwf.replace hsplit k.kvaEnd Intervals.ordered_nil ?_ ?_ hpost hin rfl (by simp) ?_ ?_
    · simp
    · simp
    · have hsub : (pre ++ ([] ++ post)).Sublist vma.vsList := by
        rw [hsplit.eq]
        simp
      exact hwf.nodup.sublist (hsub.map kvaAdr)
    · exact vmaDelSetEndcurrkmvd_curr hsplit
  | trimLeft _ _ =>
    exact hwf.rebound hsplit _ k.kvaEnd rfl rfl (by simpa) (by simp only; omega) le_rfl hpost hin rfl (.inl rfl)
  | trimRight _ _ =>
    exact hwf.rebound hsplit _ k.kvaEnd rfl rfl (by simpa) le_rfl (by simp only; omega) hpost hin rfl (.inl rfl)
  | split adr _ _ hadr =>
    refine hwf.replace hsplit k.kvaEnd ?_ ?_ ?_ hpost hin rfl rfl ?_ ?_
    · refine Intervals.ordered_cons.mpr ⟨by simpa, by simp [tailKmvd], ?_⟩
      exact Intervals.ordered_cons.mpr ⟨by simpa [tailKmvd], by simp, Intervals.ordered_nil⟩
    · simp only [List.mem_cons, List.not_mem_nil, or_false, forall_eq_or_imp, forall_eq, tailKmvd]
      omega
    · simp only [List.mem_cons, List.not_mem_nil, or_false, forall_eq_or_imp, forall_eq, tailKmvd]
      omega
    · exact nodup_insert hwf hsplit _ _ rfl (hfresh adr hadr)
    · simp [tailKmvd, kmvarsdscTInit]

theorem Wf.vmaNewVadrs (hwf : Wf vma) (start vassize limits type : Nat) (newkmvd : Option Nat)
    (hfresh : FreshFor vma newkmvd) (hsum : start + vadszAlign vassize < 2 ^ 64) :
    Wf (vmaNewVadrs vma start vassize limits type newkmvd).2 := by
  rcases vmaNewVadrs_cases hwf start vassize limits type newkmvd hfresh hsum with heq | hshape
  · rw [heq]
    exact hwf
  · obtain ⟨pre, k, post, vma', hsplit, hfits, hn, heq, hshape⟩ := hshape
    rw [heq]
    exact hshape.wf hwf hfresh hsplit hfits hn

theorem Wf.vmaDelVadrs (hwf : Wf vma) (start vassize : Nat) (newkmvd : Option Nat)
    (hfresh : FreshFor vma newkmvd) (hsum : start + vadszAlign vassize < 2 ^ 64) :
    Wf (vmaDelVadrs vma start vassize newkmvd).vma := by
  rcases vmaDelVadrs_cases hwf start vassize newkmvd hfresh hsum with
    heq | ⟨pre, k, post, hsplit, hn, -, -, hshape⟩
  · rw [heq]
    exact hwf
  · exact hshape.wf hwf hfresh hsplit hn

end Preservation

/-! ### A new process -/

/-- The address space `kvma_inituserspace_virmemadrs` builds from three descriptors. -/
def userspace (kmvdc heapkmvdc stackkmvdc : Nat) : Virmemadrs :=
  (kvmaInituserspaceVirmemadrs virmemadrsTInit (some kmvdc) (some heapkmvdc) (some stackkmvdc)).2

theorem wf_userspace {d₁ d₂ d₃ : Nat} (hd : [d₁, d₂, d₃].Nodup) : Wf (userspace d₁ d₂ d₃) := by
  refine ⟨⟨⟨?_, ?_⟩, ?_⟩, hd, ?_, ?_⟩
  · simp only [userspace, kvmaInituserspaceVirmemadrs, virmemadrsTInit, List.nil_append, List.pairwise_cons]
    simp +decide
  · simp only [userspace, kvmaInituserspaceVirmemadrs, virmemadrsTInit, List.nil_append]
    simp +decide
  · simp only [userspace, kvmaInituserspaceVirmemadrs, virmemadrsTInit, List.nil_append]
    simp +decide
  · intro p hp
    cases hp
  · show userVirtualAddressEnd < 2 ^ 63
    decide

end Cosmos.Vma
