import Mathlib.Data.Set.Insert
import Mathlib.Tactic.Common

/-!
# Radix trees of tables in a flat memory

A table is a page of slots, named by its address. Slot `j` of the table at `a` is the word `mem a j`; `dec`
gives the address the word refers to, `0` for none. The tables of depth `0 … n` are the layers `lay 0 … lay n`,
and a slot of depth `k < n` refers to a table of depth `k + 1`. A path picks one slot of every depth; `walk`
follows it.

`Forest` says that the tables of every depth are referred to exactly once and that none but `e` is all zero.
Linking a fresh table into an empty slot and unlinking an empty table keep it and leave every walk alone
(`Forest.link`, `Forest.unlink`); a write to a slot of the last depth changes the one walk that ends there
(`Forest.walk_write`).
-/

namespace Cosmos.Lib

namespace Radix

variable (dec : Nat → Nat)

/-- Follow `r` slots of the path from the table at `a` of depth `k`. -/
def walk (mem : Nat → Nat → Nat) (path : Nat → Nat) : Nat → Nat → Nat → Nat
  | 0, _, a => a
  | r + 1, k, a =>
    let c := dec (mem a (path k))
    if c = 0 then 0 else walk mem path r (k + 1) c

/-- The tables of depth `0 … n`, with the slots below `bnd k` in use at depth `k`. -/
structure Forest (mem : Nat → Nat → Nat) (lay : Nat → Set Nat) (bnd : Nat → Nat) (n e : Nat) : Prop where
  pos : ∀ k ≤ n, ∀ a ∈ lay k, a ≠ 0
  depth : ∀ k ≤ n, ∀ k' ≤ n, ∀ a ∈ lay k, a ∈ lay k' → k = k'
  ref : ∀ k < n, ∀ a ∈ lay k, ∀ j < bnd k, mem a j = 0 ∨ dec (mem a j) ∈ lay (k + 1)
  owned : ∀ k < n, ∀ c ∈ lay (k + 1), ∃ a ∈ lay k, ∃ j < bnd k, dec (mem a j) = c
  once : ∀ k < n, ∀ a ∈ lay k, ∀ j < bnd k, ∀ a' ∈ lay k, ∀ j' < bnd k,
    dec (mem a j) ≠ 0 → dec (mem a j) = dec (mem a' j') → a = a' ∧ j = j'
  nonzero : ∀ k < n, ∀ c ∈ lay (k + 1), c ≠ e → ∃ j < bnd (k + 1), mem c j ≠ 0

variable {dec} {mem mem' : Nat → Nat → Nat} {lay lay' : Nat → Set Nat} {bnd : Nat → Nat} {n e : Nat}

namespace Forest

theorem except {p : Nat} (h : Forest dec mem lay bnd n p) (x k j : Nat) (hp : p ∈ lay k) (hk : k ≤ n)
    (hj : j < bnd k) (hne : mem p j ≠ 0) : Forest dec mem lay bnd n x := by
  refine { h with nonzero := fun k' hk' c hc _ => ?_ }
  by_cases hcp : c = p
  · subst hcp
    obtain rfl := h.depth k hk (k' + 1) hk' c hp hc
    exact ⟨j, hj, hne⟩
  · exact h.nonzero k' hk' c hc hcp

theorem of_zero (h : Forest dec mem lay bnd n 0) (x : Nat) : Forest dec mem lay bnd n x :=
  { h with nonzero := fun k hk c hc _ => h.nonzero k hk c hc (h.pos (k + 1) hk c hc) }

theorem of_root {r : Nat} (h : Forest dec mem lay bnd n r) (hr : r ∈ lay 0) : Forest dec mem lay bnd n 0 := by
  refine { h with nonzero := fun k hk c hc _ => h.nonzero k hk c hc ?_ }
  rintro rfl
  exact absurd (h.depth 0 (by omega) (k + 1) hk c hr hc) (by omega)

theorem congr (h : Forest dec mem lay bnd n e) (hmem : ∀ k ≤ n, ∀ a ∈ lay k, mem' a = mem a) :
    Forest dec mem' lay bnd n e where
  pos := h.pos
  depth := h.depth
  ref := fun k hk a ha => hmem k hk.le a ha ▸ h.ref k hk a ha
  owned := by
    intro k hk c hc
    obtain ⟨a, ha, j, hj, heq⟩ := h.owned k hk c hc
    exact ⟨a, ha, j, hj, by rw [hmem k hk.le a ha, heq]⟩
  once := by
    intro k hk a ha j hj a' ha' j' hj'
    rw [hmem k hk.le a ha, hmem k hk.le a' ha']
    exact h.once k hk a ha j hj a' ha' j' hj'
  nonzero := fun k hk c hc => hmem (k + 1) hk c hc ▸ h.nonzero k hk c hc

/-! ### Linking a fresh table -/

section Link

variable {k p j c : Nat}

/-- The memory and the layers after a fresh zeroed table `c` is linked into slot `j` of `p`. -/
structure Linked (dec : Nat → Nat) (mem mem' : Nat → Nat → Nat) (lay lay' : Nat → Set Nat)
    (bnd : Nat → Nat) (n k p j c : Nat) : Prop where
  fresh : ∀ k' ≤ n, c ∉ lay k'
  ne : c ≠ 0
  zero : ∀ j' < bnd (k + 1), mem' c j' = 0
  slot : dec (mem' p j) = c
  else_eq : ∀ a j', a ≠ c → (a = p → j' ≠ j) → mem' a j' = mem a j'
  lay_eq : ∀ k' ≤ n, lay' k' = if k' = k + 1 then insert c (lay k') else lay k'

theorem Linked.mem_lay (hl : Linked dec mem mem' lay lay' bnd n k p j c) {k' a : Nat} (hk' : k' ≤ n) :
    a ∈ lay' k' ↔ a ∈ lay k' ∨ (k' = k + 1 ∧ a = c) := by
  rw [hl.lay_eq k' hk']
  by_cases hk : k' = k + 1
  · rw [if_pos hk, Set.mem_insert_iff]
    tauto
  · rw [if_neg hk]
    tauto

theorem link (h : Forest dec mem lay bnd n p) (hdec : dec 0 = 0) (hk : k < n) (hp : p ∈ lay k)
    (hj : j < bnd k) (hempty : mem p j = 0) (hl : Linked dec mem mem' lay lay' bnd n k p j c) :
    Forest dec mem' lay' bnd n c := by
  have hpc : p ≠ c := fun heq => hl.fresh k (by omega) (heq ▸ hp)
  have hold : ∀ k' ≤ n, ∀ a ∈ lay k', a ≠ c := fun k' hk' a ha heq => hl.fresh k' hk' (heq ▸ ha)
  -- a slot of an old table keeps its word, except the linked one
  have hslot : ∀ k' ≤ n, ∀ a ∈ lay k', ∀ j', (a = p ∧ j' = j) ∨ mem' a j' = mem a j' := by
    intro k' hk' a ha j'
    by_cases heq : a = p ∧ j' = j
    · exact .inl heq
    · exact .inr (hl.else_eq a j' (hold k' hk' a ha) fun hap hjj => heq ⟨hap, hjj⟩)
  have hnew : ∀ k' < n, ∀ a ∈ lay' k', ∀ j' < bnd k', dec (mem' a j') ≠ 0 → a ∈ lay k' := by
    intro k' hk' a ha j' hj' hne
    rcases (hl.mem_lay hk'.le).mp ha with ha | ⟨rfl, rfl⟩
    · exact ha
    · rw [hl.zero j' hj', hdec] at hne
      exact absurd rfl hne
  refine ⟨?_, ?_, ?_, ?_, ?_, ?_⟩
  · intro k' hk' a ha
    rcases (hl.mem_lay hk').mp ha with ha | ⟨-, rfl⟩
    · exact h.pos k' hk' a ha
    · exact hl.ne
  · intro k₁ hk₁ k₂ hk₂ a ha₁ ha₂
    rcases (hl.mem_lay hk₁).mp ha₁ with h₁ | ⟨h₁, rfl⟩ <;> rcases (hl.mem_lay hk₂).mp ha₂ with h₂ | ⟨h₂, heq⟩
    · exact h.depth k₁ hk₁ k₂ hk₂ a h₁ h₂
    · exact absurd (heq ▸ h₁) (hl.fresh k₁ hk₁)
    · exact absurd h₂ (hl.fresh k₂ hk₂)
    · omega
  · intro k' hk' a ha j' hj'
    rcases (hl.mem_lay hk'.le).mp ha with ha | ⟨rfl, rfl⟩
    · rcases hslot k' hk'.le a ha j' with ⟨rfl, rfl⟩ | heq
      · obtain rfl := h.depth k hk.le k' hk'.le a hp ha
        exact .inr ((hl.mem_lay hk').mpr (.inr ⟨rfl, hl.slot⟩))
      · rw [heq]
        exact (h.ref k' hk' a ha j' hj').imp_right fun href => (hl.mem_lay hk').mpr (.inl href)
    · exact .inl (hl.zero j' hj')
  · intro k' hk' c' hc'
    rcases (hl.mem_lay hk').mp hc' with hc' | ⟨hkk, rfl⟩
    · obtain ⟨a, ha, j', hj', hdec'⟩ := h.owned k' hk' c' hc'
      refine ⟨a, (hl.mem_lay hk'.le).mpr (.inl ha), j', hj', ?_⟩
      rcases hslot k' hk'.le a ha j' with ⟨rfl, rfl⟩ | heq
      · rw [hempty, hdec] at hdec'
        exact absurd hdec'.symm (h.pos (k' + 1) hk' c' hc')
      · rw [heq, hdec']
    · obtain rfl : k' = k := by omega
      exact ⟨p, (hl.mem_lay hk.le).mpr (.inl hp), j, hj, hl.slot⟩
  · intro k' hk' a ha j₁ hj₁ a' ha' j₂ hj₂ hne heq
    have ha := hnew k' hk' a ha j₁ hj₁ hne
    have ha' := hnew k' hk' a' ha' j₂ hj₂ (heq ▸ hne)
    rcases hslot k' hk'.le a ha j₁ with ⟨rfl, rfl⟩ | h₁ <;> rcases hslot k' hk'.le a' ha' j₂ with ⟨rfl, rfl⟩ | h₂
    · exact ⟨rfl, rfl⟩
    · -- the new table is no old slot's target
      rw [hl.slot, h₂] at heq
      rcases h.ref k' hk' a' ha' j₂ hj₂ with h0 | href
      · rw [h0, hdec] at heq
        exact absurd heq hl.ne
      · exact absurd (heq ▸ href) (hl.fresh (k' + 1) hk')
    · rw [hl.slot, h₁] at heq
      rcases h.ref k' hk' a ha j₁ hj₁ with h0 | href
      · rw [h0, hdec] at heq
        exact absurd heq.symm hl.ne
      · exact absurd (heq ▸ href) (hl.fresh (k' + 1) hk')
    · rw [h₁, h₂] at heq
      rw [h₁] at hne
      exact h.once k' hk' a ha j₁ hj₁ a' ha' j₂ hj₂ hne heq
  · intro k' hk' c' hc' hne
    rcases (hl.mem_lay hk').mp hc' with hc' | ⟨-, rfl⟩
    · by_cases hcp : c' = p
      · subst hcp
        obtain rfl := h.depth k hk.le (k' + 1) hk' c' hp hc'
        refine ⟨j, hj, fun h0 => hl.ne ?_⟩
        rw [← hl.slot, h0, hdec]
      · obtain ⟨j', hj', hmem⟩ := h.nonzero k' hk' c' hc' hcp
        refine ⟨j', hj', ?_⟩
        rw [hl.else_eq c' j' hne fun heq => absurd heq hcp]
        exact hmem
    · exact absurd rfl hne

theorem walk_link (h : Forest dec mem lay bnd n e) (hdec : dec 0 = 0) (hk : k < n) (hp : p ∈ lay k)
    (hempty : mem p j = 0) (hl : Linked dec mem mem' lay lay' bnd n k p j c) (path : Nat → Nat)
    (hpath : ∀ k ≤ n, path k < bnd k) :
    ∀ r k' a, k' + r = n + 1 → a ∈ lay k' → walk dec mem' path r k' a = walk dec mem path r k' a := by
  intro r
  induction r with
  | zero => intro k' a _ _; rfl
  | succ r ih =>
    intro k' a hr ha
    have hac : a ≠ c := fun heq => hl.fresh k' (by omega) (heq ▸ ha)
    by_cases hslot : a = p ∧ path k' = j
    · obtain ⟨rfl, hj⟩ := hslot
      obtain rfl := h.depth k hk.le k' (by omega) a hp ha
      obtain ⟨r, rfl⟩ : ∃ r', r = r' + 1 := ⟨r - 1, by omega⟩
      have hzero := hl.zero (path (k + 1)) (hpath (k + 1) hk)
      simp only [walk, hj, hempty, hdec, hl.slot, hzero, if_true, ite_self]
    · have heq : mem' a (path k') = mem a (path k') := hl.else_eq a _ hac fun hap hjj => hslot ⟨hap, hjj⟩
      simp only [walk, heq]
      by_cases h0 : dec (mem a (path k')) = 0
      · rw [if_pos h0, if_pos h0]
      · rw [if_neg h0, if_neg h0]
        by_cases hlast : k' < n
        · refine ih (k' + 1) _ (by omega) ?_
          rcases h.ref k' hlast a ha (path k') (hpath k' (by omega)) with hzero | href
          · rw [hzero, hdec] at h0
            exact absurd rfl h0
          · exact href
        · obtain rfl : r = 0 := by omega
          rfl

theorem unlink (h : Forest dec mem lay bnd n e) (he : e = c ∨ e = p ∨ e = 0) (hdec : dec 0 = 0) (hk : k < n)
    (hp : p ∈ lay k) (hj : j < bnd k) (hempty : mem' p j = 0)
    (hl : Linked dec mem' mem lay' lay bnd n k p j c) : Forest dec mem' lay' bnd n p := by
  have hsub : ∀ {k' a}, k' ≤ n → a ∈ lay' k' → a ∈ lay k' := fun hk' ha => (hl.mem_lay hk').mpr (.inl ha)
  have hold : ∀ {k' a}, k' ≤ n → a ∈ lay' k' → a ≠ c := fun hk' ha heq => hl.fresh _ hk' (heq ▸ ha)
  -- a word that is left refers to what it did
  have hslot : ∀ {k' a j'}, k' ≤ n → a ∈ lay' k' → mem' a j' = 0 ∨ mem' a j' = mem a j' := by
    intro k' a j' hk' ha
    by_cases heq : a = p ∧ j' = j
    · obtain ⟨rfl, rfl⟩ := heq
      exact .inl hempty
    · exact .inr (hl.else_eq a j' (hold hk' ha) fun hap hjj => heq ⟨hap, hjj⟩).symm
  have hleft : ∀ {k' a j'}, k' ≤ n → a ∈ lay' k' → dec (mem' a j') ≠ 0 → mem' a j' = mem a j' := by
    intro k' a j' hk' ha hne
    refine (hslot hk' ha).resolve_left fun h0 => hne ?_
    rw [h0, hdec]
  refine ⟨fun k' hk' a ha => h.pos k' hk' a (hsub hk' ha),
    fun k₁ hk₁ k₂ hk₂ a ha₁ ha₂ => h.depth k₁ hk₁ k₂ hk₂ a (hsub hk₁ ha₁) (hsub hk₂ ha₂), ?_, ?_, ?_, ?_⟩
  · intro k' hk' a ha j' hj'
    by_cases heq : a = p ∧ j' = j
    · obtain ⟨rfl, rfl⟩ := heq
      exact .inl hempty
    · have hmem := hl.else_eq a j' (hold hk'.le ha) fun hap hjj => heq ⟨hap, hjj⟩
      rw [← hmem]
      refine (h.ref k' hk' a (hsub hk'.le ha) j' hj').imp_right fun href => ?_
      rcases (hl.mem_lay hk').mp href with href | ⟨hkk, hc⟩
      · exact href
      · -- the unlinked table had no other reference
        obtain rfl : k' = k := by omega
        have honce := h.once k' hk' a (hsub hk'.le ha) j' hj' p hp j hj (by rw [hc]; exact hl.ne)
          (hc.trans hl.slot.symm)
        exact absurd honce heq
  · intro k' hk' c' hc'
    obtain ⟨a, ha, j', hj', hslot'⟩ := h.owned k' hk' c' (hsub hk' hc')
    have hne := h.pos (k' + 1) hk' c' (hsub hk' hc')
    have ha' : a ∈ lay' k' := by
      rcases (hl.mem_lay hk'.le).mp ha with ha | ⟨rfl, rfl⟩
      · exact ha
      · rw [hl.zero j' hj', hdec] at hslot'
        exact absurd hslot'.symm hne
    refine ⟨a, ha', j', hj', ?_⟩
    rw [← hl.else_eq a j' (hold hk'.le ha') ?_]
    · exact hslot'
    · rintro rfl rfl
      exact hold hk' hc' (hslot'.symm.trans hl.slot)
  · intro k' hk' a ha j₁ hj₁ a' ha' j₂ hj₂ hne heq
    have h₁ := hleft hk'.le ha hne
    have h₂ := hleft hk'.le ha' (heq ▸ hne)
    rw [h₁, h₂] at heq
    rw [h₁] at hne
    exact h.once k' hk' a (hsub hk'.le ha) j₁ hj₁ a' (hsub hk'.le ha') j₂ hj₂ hne heq
  · intro k' hk' c' hc' hcp
    have hce : c' ≠ e := by
      rintro rfl
      rcases he with rfl | rfl | rfl
      · exact hold hk' hc' rfl
      · exact hcp rfl
      · exact h.pos (k' + 1) hk' _ (hsub hk' hc') rfl
    obtain ⟨j', hj', hmem⟩ := h.nonzero k' hk' c' (hsub hk' hc') hce
    refine ⟨j', hj', ?_⟩
    rw [← hl.else_eq c' j' (hold hk' hc') fun heq => absurd heq hcp]
    exact hmem

end Link

/-! ### Walks and the last depth -/

section Walk

variable {path path' : Nat → Nat}

theorem ref_of_ne (h : Forest dec mem lay bnd n e) (hdec : dec 0 = 0) {k a j : Nat} (hk : k < n)
    (ha : a ∈ lay k) (hj : j < bnd k) (hne : dec (mem a j) ≠ 0) : dec (mem a j) ∈ lay (k + 1) := by
  refine (h.ref k hk a ha j hj).resolve_left fun h0 => hne ?_
  rw [h0, hdec]

theorem walk_inj (h : Forest dec mem lay bnd n e) (hdec : dec 0 = 0) (hpath : ∀ k ≤ n, path k < bnd k)
    (hpath' : ∀ k ≤ n, path' k < bnd k) :
    ∀ r k a a', k + r ≤ n → a ∈ lay k → a' ∈ lay k → walk dec mem path r k a ≠ 0 →
      walk dec mem path r k a = walk dec mem path' r k a' →
      a = a' ∧ ∀ i, k ≤ i → i < k + r → path i = path' i := by
  intro r
  induction r with
  | zero => exact fun k a a' _ _ _ _ heq => ⟨heq, fun i h₁ h₂ => by omega⟩
  | succ r ih =>
    intro k a a' hr ha ha' hne heq
    have h0 : dec (mem a (path k)) ≠ 0 := fun h0 => hne (if_pos h0)
    have h0' : dec (mem a' (path' k)) ≠ 0 := fun h0 => hne (heq.trans (if_pos h0))
    simp only [walk, if_neg h0, if_neg h0'] at hne heq
    have hp := hpath k (by omega)
    have hp' := hpath' k (by omega)
    obtain ⟨hc, hrest⟩ := ih (k + 1) _ _ (by omega) (h.ref_of_ne hdec (by omega) ha hp h0)
      (h.ref_of_ne hdec (by omega) ha' hp' h0') hne heq
    obtain ⟨rfl, hk⟩ := h.once k (by omega) a ha _ hp a' ha' _ hp' h0 hc
    refine ⟨rfl, fun i h₁ h₂ => ?_⟩
    by_cases hi : i = k
    · rw [hi, hk]
    · exact hrest i (by omega) (by omega)

theorem walk_of_ne {k a : Nat} (r : Nat) (h0 : dec (mem a (path k)) ≠ 0) :
    walk dec mem path (r + 1) k a = walk dec mem path r (k + 1) (dec (mem a (path k))) := if_neg h0

theorem walk_of_eq {k a : Nat} (r : Nat) (h0 : dec (mem a (path k)) = 0) :
    walk dec mem path (r + 1) k a = 0 := if_pos h0

theorem walk_succ (r : Nat) : ∀ k a, a ≠ 0 → walk dec mem path (r + 1) k a =
    if walk dec mem path r k a = 0 then 0 else dec (mem (walk dec mem path r k a) (path (k + r))) := by
  induction r with
  | zero =>
    intro k a ha
    rw [walk, walk, if_neg ha]
    simp only [Nat.add_zero]
    by_cases h0 : dec (mem a (path k)) = 0
    · rw [if_pos h0, h0]
    · rw [if_neg h0, walk]
  | succ r ih =>
    intro k a _
    by_cases h0 : dec (mem a (path k)) = 0
    · rw [walk_of_eq _ h0, walk_of_eq _ h0, if_pos rfl]
    · rw [walk_of_ne _ h0, walk_of_ne r h0, ih (k + 1) _ h0, show k + 1 + r = k + (r + 1) by omega]

theorem walk_congr (h : Forest dec mem lay bnd n e) (hdec : dec 0 = 0) (hpath : ∀ k ≤ n, path k < bnd k)
    (hmem : ∀ k ≤ n, ∀ a ∈ lay k, mem' a = mem a) : ∀ r k a, k + r ≤ n + 1 → a ∈ lay k →
      walk dec mem' path r k a = walk dec mem path r k a := by
  intro r
  induction r with
  | zero => intro k a _ _; rfl
  | succ r ih =>
    intro k a hr ha
    have hword : dec (mem' a (path k)) = dec (mem a (path k)) := by rw [hmem k (by omega) a ha]
    by_cases h0 : dec (mem a (path k)) = 0
    · rw [walk_of_eq r h0, walk_of_eq r (hword.trans h0)]
    · rw [walk_of_ne r h0, walk_of_ne r (hword ▸ h0), hword]
      by_cases hr0 : r = 0
      · rw [hr0, walk, walk]
      · exact ih (k + 1) _ (by omega) (h.ref_of_ne hdec (by omega) ha (hpath k (by omega)) h0)

theorem walk_congr_path (r : Nat) : ∀ k a, (∀ i, k ≤ i → i < k + r → path i = path' i) →
    walk dec mem path r k a = walk dec mem path' r k a := by
  induction r with
  | zero => intro k a _; rfl
  | succ r ih =>
    intro k a hagree
    rw [walk, walk, hagree k le_rfl (by omega)]
    rw [ih (k + 1) _ fun i h₁ h₂ => hagree i (by omega) (by omega)]

theorem exists_walk (h : Forest dec mem lay bnd n e) : ∀ k ≤ n, ∀ c ∈ lay k,
    ∃ root ∈ lay 0, ∃ path : Nat → Nat, (∀ i < k, path i < bnd i) ∧ walk dec mem path k 0 root = c := by
  intro k
  induction k with
  | zero => exact fun _ c hc => ⟨c, hc, fun _ => 0, fun i hi => by omega, rfl⟩
  | succ k ih =>
    intro hk c hc
    obtain ⟨a, ha, j, hj, heq⟩ := h.owned k (by omega) c hc
    obtain ⟨root, hroot, path, hpath, hwalk⟩ := ih (by omega) a ha
    refine ⟨root, hroot, fun i => if i = k then j else path i, fun i hi => ?_, ?_⟩
    · by_cases hik : i = k
      · simpa [hik] using hj
      · simpa [hik] using hpath i (by omega)
    · have hwalk' : walk dec mem (fun i => if i = k then j else path i) k 0 root = a := by
        rw [← hwalk]
        refine walk_congr_path k 0 root fun i _ hi => if_neg ?_
        omega
      rw [walk_succ k 0 root (h.pos 0 (by omega) root hroot), hwalk', if_neg (h.pos k (by omega) a ha)]
      simpa using heq

variable {a₀ j₀ v : Nat}

theorem write (h : Forest dec mem lay bnd n e) (he : e = a₀ ∨ e = 0) (ha₀ : a₀ ∈ lay n)
    (helse : ∀ a j, (a = a₀ → j ≠ j₀) → mem' a j = mem a j) : Forest dec mem' lay bnd n a₀ := by
  have hsame : ∀ k < n, ∀ a ∈ lay k, ∀ j, mem' a j = mem a j := by
    intro k hk a ha j
    refine helse a j fun heq => absurd (h.depth k hk.le n le_rfl a ha (heq ▸ ha₀)) (by omega)
  refine ⟨h.pos, h.depth, ?_, ?_, ?_, ?_⟩
  · intro k hk a ha j hj
    rw [hsame k hk a ha]
    exact h.ref k hk a ha j hj
  · intro k hk c hc
    obtain ⟨a, ha, j, hj, hslot⟩ := h.owned k hk c hc
    exact ⟨a, ha, j, hj, by rw [hsame k hk a ha, hslot]⟩
  · intro k hk a ha j hj a' ha' j' hj'
    rw [hsame k hk a ha, hsame k hk a' ha']
    exact h.once k hk a ha j hj a' ha' j' hj'
  · intro k hk c hc hne
    have hce : c ≠ e := by
      rintro rfl
      rcases he with rfl | rfl
      · exact hne rfl
      · exact h.pos (k + 1) hk _ hc rfl
    obtain ⟨j, hj, hmem⟩ := h.nonzero k hk c hc hce
    exact ⟨j, hj, by rw [helse c j fun heq => absurd heq hne]; exact hmem⟩

theorem walk_write (h : Forest dec mem lay bnd n e) (hdec : dec 0 = 0) {root : Nat} (hroot : root ∈ lay 0)
    (ha₀ : a₀ ∈ lay n) (hpath : ∀ k ≤ n, path k < bnd k) (hreach : walk dec mem path n 0 root = a₀)
    (hslot : mem' a₀ (path n) = v) (helse : ∀ a j, (a = a₀ → j ≠ path n) → mem' a j = mem a j)
    (hpath' : ∀ k ≤ n, path' k < bnd k) :
    walk dec mem' path' (n + 1) 0 root =
      if ∀ k ≤ n, path' k = path k then dec v else walk dec mem path' (n + 1) 0 root := by
  have hr0 := h.pos 0 (by omega) root hroot
  -- above the last depth the memory is unchanged
  have habove : ∀ r k a, k + r ≤ n → a ∈ lay k → walk dec mem' path' r k a = walk dec mem path' r k a := by
    intro r
    induction r with
    | zero => intro k a _ _; rfl
    | succ r ih =>
      intro k a hr ha
      have heq : mem' a (path' k) = mem a (path' k) := by
        refine helse a _ fun haa => absurd (h.depth k (by omega) n le_rfl a ha (haa ▸ ha₀)) (by omega)
      simp only [walk, heq]
      by_cases h0 : dec (mem a (path' k)) = 0
      · rw [if_pos h0, if_pos h0]
      · rw [if_neg h0, if_neg h0]
        exact ih (k + 1) _ (by omega) (h.ref_of_ne hdec (by omega) ha (hpath' k (by omega)) h0)
  rw [walk_succ n 0 root hr0, walk_succ n 0 root hr0, habove n 0 root (by omega) hroot, Nat.zero_add]
  have ha0 := h.pos n le_rfl a₀ ha₀
  by_cases hsame : ∀ k ≤ n, path' k = path k
  · have hwalk : walk dec mem path' n 0 root = a₀ := by
      rw [← hreach]
      exact walk_congr_path n 0 root fun i _ hi => hsame i (by omega)
    rw [if_pos hsame, hwalk, if_neg ha0, hsame n le_rfl, hslot]
  · rw [if_neg hsame]
    by_cases h0 : walk dec mem path' n 0 root = 0
    · rw [if_pos h0, if_pos h0]
    · rw [if_neg h0, if_neg h0, helse]
      intro heq hlast
      refine hsame fun k hk => ?_
      obtain ⟨-, hagree⟩ := h.walk_inj hdec hpath' hpath n 0 root root (by omega) hroot hroot h0
        (heq.trans hreach.symm)
      by_cases hkn : k = n
      · rw [hkn, hlast]
      · exact hagree k (by omega) (by omega)

end Walk

end Forest

end Radix

end Cosmos.Lib
