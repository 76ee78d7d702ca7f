import Cosmos.Mmu.Invariant

/-!
# One level of a mapping or unmapping

`transformDire` keeps the tables owned and moves the table that may be all zero from the parent to the child it
reaches or creates; when the page allocator refuses, nothing changes. `untransformDire` frees that child if it
is all zero, after which only the parent may be.
-/

namespace Cosmos.Mmu

open Cosmos.Lib Halt Cosmos.Page Function

variable {A : PageAlloc} {L : Lawful A} {st st' : St A} {rest : List Blk} {e : Nat}

/-! ### Tables through the linear map -/

/-- Where the kernel reaches the page at `a`. -/
abbrev viradr (a : Nat) : Nat := krnlMapVirtaddressStart + a

@[simp] theorem St.rd_table (st : St A) (a j : Nat) : st.rd (viradr a) j = st.mem a j := by
  rw [St.rd, Nat.add_sub_cancel_left]

@[simp] theorem St.fill_table (st : St A) (a : Nat) (words : Nat → Nat) :
    st.fill (viradr a) words = { st with mem := update st.mem a words } := by
  rw [St.fill, Nat.add_sub_cancel_left]

@[simp] theorem St.wr_table (st : St A) (a j entry : Nat) : st.wr (viradr a) j entry =
    { st with mem := update st.mem a (update (st.mem a) j entry) } := by
  rw [St.wr, Nat.add_sub_cancel_left, St.fill_table]

theorem St.isAllzero_table (st : St A) (a : Nat) :
    st.isAllzero (viradr a) = true ↔ ∀ j < 512, st.mem a j = 0 := by
  simp [St.isAllzero]

theorem update_slot (mem : Nat → Nat → Nat) (p j v : Nat) {a j' : Nat} (h : a = p → j' ≠ j) :
    update mem p (update (mem p) j v) a j' = mem a j' := by
  by_cases hap : a = p
  · subst hap
    rw [update_self, update_of_ne (h rfl)]
  · rw [update_of_ne hap]

theorem update_slot_self (mem : Nat → Nat → Nat) (p j v : Nat) :
    update mem p (update (mem p) j v) p j = v := by
  rw [update_self, update_self]

/-! ### A new table -/

theorem newDirearr_spec (lv : Dire) {l : List Blk} (hinv : L.Inv st.alc l) :
    (∃ alc, newDirearr lv st = .ok (none, { st with alc := alc }) ∧
      A.msadscRetAddr alc = st.addr ∧ L.Inv alc l) ∨
    (∃ msa alc, newDirearr lv st = .ok (some msa, { st with
        alc := alc
        mem := update st.mem (st.addr msa) fun _ => 0
        mmu := st.mmu.add lv msa }) ∧
      A.msadscRetAddr alc = st.addr ∧ L.Inv alc ((msa, 1) :: l) ∧
      st.addr msa + 0x1000 ≤ krnlMapPhyaddressEnd) := by
  obtain ⟨r, alc, hdiv, haddr, hgrant⟩ := L.division 1 maTypeKrnl hinv le_rfl
  change _ = st.addr at haddr
  unfold newDirearr
  rw [hdiv, ok_bind]
  cases r with
  | none => exact .inl ⟨alc, rfl, haddr, hgrant⟩
  | some b =>
    obtain ⟨msa, n⟩ := b
    obtain ⟨hn, hbelow, hinv⟩ := hgrant
    obtain rfl : n = 1 := hn
    have hend : st.addr msa + 0x1000 ≤ krnlMapPhyaddressEnd := by
      simpa [St.addr] using hbelow rfl
    refine .inr ⟨msa, alc, ?_, haddr, hinv, hend⟩
    have hv : A.msadscRetVaddr alc msa = .ok (viradr (st.addr msa)) := by
      rw [PageAlloc.msadscRetVaddr, haddr, phyadrToViradr_ok (by omega)]
    simp only [hv, ok_bind, St.fill_table]

/-! ### Layers after a table comes or goes -/

theorem lvl_inj {k k' : Nat} (hk : k ≤ 3) (hk' : k' ≤ 3) (h : lvl k = lvl k') : k = k' := by
  interval_cases k <;> interval_cases k' <;> simp_all [lvl]

theorem head_add (mmu : Mmudsc) (msa : Nat) {k k' : Nat} (hk : k ≤ 3) (hk' : k' ≤ 3) :
    (mmu.add (lvl k) msa).mudDirhead (lvl k') =
      if k' = k then msa :: mmu.mudDirhead (lvl k') else mmu.mudDirhead (lvl k') := by
  by_cases heq : k' = k
  · subst heq
    rw [if_pos rfl]
    exact update_self _ _ _
  · rw [if_neg heq]
    exact update_of_ne (fun h => heq (lvl_inj hk' hk h)) _ _

theorem head_del (mmu : Mmudsc) (msa : Nat) {k k' : Nat} (hk : k ≤ 3) (hk' : k' ≤ 3) :
    (mmu.del (lvl k) msa).mudDirhead (lvl k') =
      if k' = k then (mmu.mudDirhead (lvl k')).erase msa else mmu.mudDirhead (lvl k') := by
  by_cases heq : k' = k
  · subst heq
    rw [if_pos rfl]
    exact update_self _ _ _
  · rw [if_neg heq]
    exact update_of_ne (fun h => heq (lvl_inj hk' hk h)) _ _

theorem lay_add {msa k k' : Nat} (haddr : st'.addr = st.addr) (hmmu : st'.mmu = st.mmu.add (lvl k) msa)
    (hk : k ≤ 3) (hk' : k' ≤ 3) :
    st'.lay k' = if k' = k then insert (st.addr msa) (st.lay k') else st.lay k' := by
  ext a
  simp only [St.lay, hmmu, haddr, head_add st.mmu msa hk hk']
  by_cases heq : k' = k
  · rw [if_pos heq, if_pos heq]
    simp only [List.mem_cons, Set.mem_ofPred_eq, Set.mem_insert_iff, exists_eq_or_imp]
    tauto
  · rw [if_neg heq, if_neg heq]

theorem lay_del {msa k k' : Nat} (haddr : st'.addr = st.addr) (hmmu : st'.mmu = st.mmu.del (lvl k) msa)
    (hmsa : msa ∈ st.mmu.mudDirhead (lvl k)) (hk : k ≤ 3) (hk' : k' ≤ 3) :
    st.lay k' = if k' = k then insert (st.addr msa) (st'.lay k') else st'.lay k' := by
  ext a
  simp only [St.lay, hmmu, haddr, head_del st.mmu msa hk hk']
  by_cases heq : k' = k
  · subst heq
    have hperm := List.perm_cons_erase hmsa
    simp only [if_true, Set.mem_ofPred_eq, Set.mem_insert_iff, hperm.mem_iff, List.mem_cons, exists_eq_or_imp]
    tauto
  · rw [if_neg heq, if_neg heq]

/-! ### Linking a new table -/

section Link

variable {p j k msa flags : Nat} {alc : A.State}

def St.link (st : St A) (alc : A.State) (k p j msa flags : Nat) : St A :=
  let zeroed := update st.mem (st.addr msa) fun _ => 0
  { mmu := st.mmu.add (lvl (k + 1)) msa
    alc := alc
    mem := update zeroed p (update (zeroed p) j (st.addr msa ||| flags)) }

theorem linked_link (hk : k < 3) (hp : p ∈ st.lay k)
    (haddr : A.msadscRetAddr alc = st.addr) (hinv : L.Inv alc ((msa, 1) :: (st.mmu.tables.map (·, 1) ++ rest)))
    (hflags : flags < 0x1000) (hodd : flags % 2 = 1) :
    Radix.Forest.Linked hwFrame st.mem (st.link alc k p j msa flags).mem st.lay
      (st.link alc k p j msa flags).lay bnd 3 k p j (st.addr msa) := by
  have hframe := L.frame hinv (msa, 1) (by simp)
  simp only [haddr] at hframe
  obtain ⟨-, hpos, hdvd, hlt⟩ := hframe
  have hfresh : ∀ k', st.addr msa ∉ st.lay k' := by
    rintro k' ⟨msa', hmsa', heq⟩
    have hapart := List.rel_of_pairwise_cons (L.apart hinv) (Owns.mem_blocks (Mmudsc.mem_tables hmsa'))
    simp only [Apart, haddr] at hapart
    omega
  have hpc : p ≠ st.addr msa := fun heq => hfresh k (heq ▸ hp)
  refine ⟨fun k' _ => hfresh k', hpos.ne', fun j' _ => ?_, ?_, fun a j' hac hslot => ?_, fun k' hk' => ?_⟩
  · simp only [St.link, update_of_ne hpc.symm, update_self]
  · simp only [St.link, update_self]
    exact hwFrame_entry hdvd (by omega) hflags hodd
  · simp only [St.link]
    rw [update_slot _ p j _ hslot, update_of_ne hac]
  · exact lay_add haddr rfl hk hk'

theorem Owns.link (h : Owns L st rest p) (hk : k < 3) (hp : p ∈ st.lay k) (hj : j < bnd k)
    (hempty : st.mem p j = 0) (haddr : A.msadscRetAddr alc = st.addr)
    (hinv : L.Inv alc ((msa, 1) :: (st.mmu.tables.map (·, 1) ++ rest)))
    (hbelow : st.addr msa + 0x1000 ≤ krnlMapPhyaddressEnd) (hflags : flags < 0x1000) (hodd : flags % 2 = 1) :
    Owns L (st.link alc k p j msa flags) rest (st.addr msa) ∧
      Keeps st (st.link alc k p j msa flags) rest k := by
  have hl := linked_link (j := j) hk hp haddr hinv hflags hodd
  have hdvd : 0x1000 ∣ st.addr msa := by
    have hframe := L.frame hinv (msa, 1) (by simp)
    simp only [haddr] at hframe
    exact hframe.2.2.1
  have haddr' : (st.link alc k p j msa flags).addr = st.addr := haddr
  have hlt : lvl (k + 1) ≠ .t := fun heq => absurd (lvl_inj (by omega) (by omega) heq : k + 1 = 0) (by omega)
  have hhead : ∀ k' ≤ 3, k' ≠ k + 1 →
      (st.link alc k p j msa flags).mmu.mudDirhead (lvl k') = st.mmu.mudDirhead (lvl k') := by
    intro k' hk' hne
    exact (head_add st.mmu msa hk hk').trans (if_neg hne)
  -- a page other than the parent and the new table is not written
  have hpage : ∀ a, a ≠ p → a ≠ st.addr msa → (st.link alc k p j msa flags).mem a = st.mem a := by
    intro a hap hac
    simp only [St.link, update_of_ne hap, update_of_ne hac]
  have hpk : ∀ k' ≤ 3, ∀ a ∈ st.lay k', k' ≠ k → a ≠ p := by
    rintro k' hk' a ha hne rfl
    exact hne (h.forest.depth k' hk' k hk.le a ha hp)
  refine ⟨⟨?_, ?_, ?_, ?_, ?_, ?_, ?_⟩, ⟨⟨haddr', rfl, ?_, ?_⟩, ?_, ?_, ?_⟩⟩
  · have hperm := (st.mmu.add_tables (lvl (k + 1)) msa).map (·, 1)
    exact L.perm hinv (hperm.append_right rest)
  · intro msa' hmsa'
    rw [haddr']
    rcases List.mem_cons.mp ((st.mmu.add_tables (lvl (k + 1)) msa).mem_iff.mpr hmsa') with rfl | hmem
    · exact hbelow
    · exact h.below msa' hmem
  · obtain ⟨root, hroot, htdir⟩ := h.root
    refine ⟨root, ?_, ?_⟩
    · rw [← hroot]
      exact hhead 0 (by omega) (by omega)
    · rw [haddr']
      exact htdir
  · exact h.forest.link hwFrame_zero hk hp hj hempty hl
  · intro k' hk' a ha j' hj'
    rcases (hl.mem_lay hk').mp ha with hold | ⟨rfl, rfl⟩
    · by_cases hslot : a = p ∧ j' = j
      · obtain ⟨rfl, rfl⟩ := hslot
        refine .inr ?_
        simp only [St.link, update_self]
        exact entry_odd hdvd hflags hodd
      · rw [hl.else_eq a j' (fun heq => hl.fresh k' hk' (heq ▸ hold)) fun hap hjj => hslot ⟨hap, hjj⟩]
        exact h.entryOk k' hk' a hold j' hj'
    · exact .inl (hl.zero j' hj')
  · intro a ha j' hj'
    rcases (hl.mem_lay le_rfl).mp ha with hold | ⟨hk3, rfl⟩
    · rw [hpage a (hpk 3 le_rfl a hold (by omega)) fun heq => hl.fresh 3 le_rfl (heq ▸ hold)]
      exact h.leaf a hold j' hj'
    · exact .inl (hl.zero j' (by rw [← hk3]; exact hj'))
  · intro lv
    have hcount := h.count lv
    have hlen := h.length_head_le lv
    by_cases hlv : lv = lvl (k + 1)
    · subst hlv
      simp only [St.link, Mmudsc.add, update_self, List.length_cons]
      rw [hcount, u64_of_lt (by omega)]
    · simp only [St.link, Mmudsc.add, update_of_ne hlv]
      exact hcount
  · intro j' hj'
    have hroot := h.root_mem
    refine hl.else_eq st.root j' (fun heq => hl.fresh 0 (by omega) (heq ▸ hroot)) fun hrp hjj => ?_
    obtain rfl := h.forest.depth 0 (by omega) k hk.le st.root hroot (hrp ▸ hp)
    have : j < 256 := hj
    omega
  · intro b hb a hlo hhi
    obtain ⟨pmsa, hpmsa, rfl⟩ := hp
    refine hpage a ?_ ?_
    · rintro rfl
      exact h.not_in_rest (Mmudsc.mem_tables hpmsa) hb ⟨hlo, hhi⟩
    · rintro rfl
      have hapart := List.rel_of_pairwise_cons (L.apart hinv) (List.mem_append_right _ hb)
      simp only [Apart, haddr] at hapart
      omega
  · intro k' hk'
    exact hhead k' (by omega) (by omega)
  · intro k' hk' a ha
    exact hpage a (hpk k' (by omega) a ha (by omega)) fun heq => hl.fresh k' (by omega) (heq ▸ ha)
  · intro π hπ
    exact h.forest.walk_link hwFrame_zero hk hp hempty hl π hπ 4 0 st.root rfl h.root_mem

end Link

/-! ### Unlinking an empty table -/

section Unlink

variable {p j k msa : Nat} {alc : A.State}

def St.unlink (st : St A) (alc : A.State) (k p j msa : Nat) : St A :=
  { mmu := st.mmu.del (lvl (k + 1)) msa
    alc := alc
    mem := update st.mem p (update (st.mem p) j 0) }

theorem St.unlink_slot (st : St A) {a j' : Nat} (h : a = p → j' ≠ j) :
    (st.unlink alc k p j msa).mem a j' = st.mem a j' := update_slot st.mem p j 0 h

theorem Owns.head_nodup (h : Owns L st rest e) (lv : Dire) : (st.mmu.mudDirhead lv).Nodup := by
  refine h.tables_nodup.sublist ?_
  cases lv
  · exact List.sublist_append_left _ _
  · exact (List.sublist_append_left _ _).trans (List.sublist_append_right _ _)
  · exact (List.sublist_append_left _ _).trans
      ((List.sublist_append_right _ _).trans (List.sublist_append_right _ _))
  · exact (List.sublist_append_right _ _).trans
      ((List.sublist_append_right _ _).trans (List.sublist_append_right _ _))

theorem Owns.linked_unlink (h : Owns L st rest e) (hk : k < 3) (hmsa : msa ∈ st.mmu.mudDirhead (lvl (k + 1)))
    (hslot : hwFrame (st.mem p j) = st.addr msa) (hzero : ∀ j' < 512, st.mem (st.addr msa) j' = 0)
    (haddr : A.msadscRetAddr alc = st.addr) :
    Radix.Forest.Linked hwFrame (st.unlink alc k p j msa).mem st.mem (st.unlink alc k p j msa).lay st.lay
      bnd 3 k p j (st.addr msa) := by
  have hlay : st.addr msa ∈ st.lay (k + 1) := ⟨msa, hmsa, rfl⟩
  have heq : ∀ k' ≤ 3, st.lay k' =
      if k' = k + 1 then insert (st.addr msa) ((st.unlink alc k p j msa).lay k')
      else (st.unlink alc k p j msa).lay k' := fun k' hk' => lay_del haddr rfl hmsa hk hk'
  refine ⟨fun k' hk' hmem => ?_, (h.frame (Mmudsc.mem_tables hmsa)).1.ne', hzero, hslot, ?_, heq⟩
  · by_cases hkk : k' = k + 1
    · subst hkk
      obtain ⟨msa', hmsa', haddr''⟩ := hmem
      have herase : msa' ∈ (st.mmu.mudDirhead (lvl (k + 1))).erase msa := by
        rw [show (st.unlink alc k p j msa).mmu = st.mmu.del (lvl (k + 1)) msa from rfl, head_del _ _ hk hk,
          if_pos rfl] at hmsa'
        exact hmsa'
      rw [show (st.unlink alc k p j msa).addr = st.addr from haddr] at haddr''
      obtain rfl := h.addr_inj (Mmudsc.mem_tables (List.mem_of_mem_erase herase)) (Mmudsc.mem_tables hmsa) haddr''
      exact (h.head_nodup _).not_mem_erase herase
    · have hold : st.addr msa ∈ st.lay k' := by
        rw [heq k' hk', if_neg hkk]
        exact hmem
      exact hkk (h.forest.depth k' hk' (k + 1) hk _ hold hlay)
  · intro a j' _ hne
    exact (st.unlink_slot hne).symm

theorem Owns.unlink (h : Owns L st rest e) (he : e = st.addr msa ∨ e = p ∨ e = 0) (hk : k < 3)
    (hp : p ∈ st.lay k) (hj : j < bnd k) (hmsa : msa ∈ st.mmu.mudDirhead (lvl (k + 1)))
    (hslot : hwFrame (st.mem p j) = st.addr msa) (hzero : ∀ j' < 512, st.mem (st.addr msa) j' = 0)
    (haddr : A.msadscRetAddr alc = st.addr)
    (hinv : L.Inv alc ((st.mmu.del (lvl (k + 1)) msa).tables.map (·, 1) ++ rest)) :
    Owns L (st.unlink alc k p j msa) rest p ∧ Keeps st (st.unlink alc k p j msa) rest k := by
  have hl := h.linked_unlink hk hmsa hslot hzero haddr
  have haddr' : (st.unlink alc k p j msa).addr = st.addr := haddr
  have hempty : (st.unlink alc k p j msa).mem p j = 0 := update_slot_self st.mem p j 0
  have hforest := h.forest.unlink he hwFrame_zero hk hp hj hempty hl
  have hp' : p ∈ (st.unlink alc k p j msa).lay k :=
    ((hl.mem_lay hk.le).mp hp).resolve_right fun hkk => absurd hkk.1 (by omega)
  have hsub : ∀ {k' a}, k' ≤ 3 → a ∈ (st.unlink alc k p j msa).lay k' → a ∈ st.lay k' :=
    fun hk' ha => (hl.mem_lay hk').mpr (.inl ha)
  have hhead : ∀ k' ≤ 3, k' ≠ k + 1 →
      (st.unlink alc k p j msa).mmu.mudDirhead (lvl k') = st.mmu.mudDirhead (lvl k') := by
    intro k' hk' hne
    exact (head_del st.mmu msa hk hk').trans (if_neg hne)
  have hpage : ∀ a, a ≠ p → (st.unlink alc k p j msa).mem a = st.mem a := fun a hap =>
    update_of_ne hap _ _
  have hpk : ∀ k' ≤ 3, ∀ a ∈ st.lay k', k' ≠ k → a ≠ p := by
    rintro k' hk' a ha hne rfl
    exact hne (h.forest.depth k' hk' k hk.le a ha hp)
  refine ⟨⟨hinv, ?_, ?_, hforest, ?_, ?_, ?_⟩, ⟨⟨haddr', rfl, ?_, ?_⟩, ?_, ?_, ?_⟩⟩
  · intro msa' hmsa'
    rw [haddr']
    exact h.below msa' ((st.mmu.del_tables (lvl (k + 1)) hmsa).mem_iff.mpr (List.mem_cons_of_mem _ hmsa'))
  · obtain ⟨root, hroot, htdir⟩ := h.root
    refine ⟨root, ?_, ?_⟩
    · rw [← hroot]
      exact hhead 0 (by omega) (by omega)
    · rw [haddr']
      exact htdir
  · intro k' hk' a ha j' hj'
    by_cases hslot' : a = p ∧ j' = j
    · obtain ⟨rfl, rfl⟩ := hslot'
      exact .inl hempty
    · rw [st.unlink_slot fun hap hjj => hslot' ⟨hap, hjj⟩]
      exact h.entryOk k' hk' a (hsub hk' ha) j' hj'
  · intro a ha j' hj'
    have hold := hsub le_rfl ha
    rw [hpage a (hpk 3 le_rfl a hold (by omega))]
    exact h.leaf a hold j' hj'
  · intro lv
    have hcount := h.count lv
    have hlen := h.length_head_le lv
    by_cases hlv : lv = lvl (k + 1)
    · subst hlv
      have hpos := List.length_pos_of_mem hmsa
      simp only [St.unlink, Mmudsc.del, update_self, List.length_erase_of_mem hmsa]
      rw [hcount, u64Sub_of_le (by omega) (by omega)]
    · simp only [St.unlink, Mmudsc.del, update_of_ne hlv]
      exact hcount
  · intro j' hj'
    refine st.unlink_slot fun hrp hjj => ?_
    obtain rfl := h.forest.depth 0 (by omega) k hk.le st.root h.root_mem (hrp ▸ hp)
    have : j < 256 := hj
    omega
  · intro b hb a hlo hhi
    obtain ⟨pmsa, hpmsa, rfl⟩ := hp
    refine hpage a ?_
    rintro rfl
    exact h.not_in_rest (Mmudsc.mem_tables hpmsa) hb ⟨hlo, hhi⟩
  · intro k' hk'
    exact hhead k' (by omega) (by omega)
  · intro k' hk' a ha
    exact hpage a (hpk k' (by omega) a ha (by omega))
  · intro π hπ
    have hroot : st.root ∈ (st.unlink alc k p j msa).lay 0 :=
      ((hl.mem_lay (by omega)).mp h.root_mem).resolve_right fun hkk => absurd hkk.1 (by omega)
    exact (hforest.walk_link hwFrame_zero hk hp' hempty hl π hπ 4 0 st.root rfl hroot).symm

end Unlink

/-! ### The two functions -/

theorem Keeps.refl (st : St A) (rest : List Blk) (k : Nat) : Keeps st st rest k :=
  ⟨⟨rfl, rfl, fun _ _ => rfl, fun _ _ _ _ _ => rfl⟩, fun _ _ => rfl, fun _ _ _ _ => rfl, fun _ _ => rfl⟩

theorem Owns.setExcept {e' : Nat} (h : Owns L st rest e)
    (hforest : Radix.Forest hwFrame st.mem st.lay bnd 3 e') : Owns L st rest e' := { h with forest := hforest }

theorem Owns.setAlc (h : Owns L st rest e) {alc : A.State} (haddr : A.msadscRetAddr alc = st.addr)
    (hinv : L.Inv alc (st.mmu.tables.map (·, 1) ++ rest)) (k : Nat) :
    Owns L { st with alc := alc } rest e ∧ Keeps st { st with alc := alc } rest k := by
  have hst : ({ st with alc := alc } : St A).addr = st.addr := haddr
  have hlay : ({ st with alc := alc } : St A).lay = st.lay := by
    funext k
    simp only [St.lay, hst]
  refine ⟨⟨hinv, hst ▸ h.below, hst ▸ h.root, ?_, ?_, ?_, h.count⟩,
    ⟨⟨haddr, rfl, fun _ _ => rfl, fun _ _ _ _ _ => rfl⟩, fun _ _ => rfl, fun _ _ _ _ => rfl, fun _ _ => rfl⟩⟩
  · rw [hlay]
    exact h.forest
  · rw [hlay]
    exact h.entryOk
  · rw [hlay]
    exact h.leaf

section Spec

variable {p j k flags : Nat}

theorem Owns.child_mem (h : Owns L st rest e) (hk : k < 3) (hp : p ∈ st.lay k) (hj : j < bnd k)
    (hne : hwFrame (st.mem p j) ≠ 0) : hwFrame (st.mem p j) ∈ st.lay (k + 1) :=
  h.forest.ref_of_ne hwFrame_zero hk hp hj hne

/-- A table is in the kernel's memory, so the code reads its whole address. -/
theorem Owns.direRetPadr_eq (h : Owns L st rest e) (hk : k < 3) (hp : p ∈ st.lay k) (hj : j < bnd k) :
    direRetPadr (st.mem p j) = hwFrame (st.mem p j) := by
  have hok := h.entryOk k hk.le p hp j hj
  refine (hok.hwFrame_eq ?_).symm
  by_cases hhave : hwFrame (st.mem p j) = 0
  · rw [hhave]
    decide
  · exact lt_trans (h.lay_lt (h.child_mem hk hp hj hhave)) (by decide)

theorem Owns.entry_zero (h : Owns L st rest e) (hk : k < 3) (hp : p ∈ st.lay k) (hj : j < bnd k)
    (h0 : hwFrame (st.mem p j) = 0) : st.mem p j = 0 := by
  refine (h.forest.ref k hk p hp j hj).resolve_right fun hmem => ?_
  exact h.forest.pos (k + 1) hk _ hmem h0

/-- One level of the way down from the table at `p` to the child at `c`, which was there or is new, then with its
descriptor. -/
inductive Climb (L : Lawful A) (rest : List Blk) (k p j flags : Nat) (st : St A) : Nat → Option Nat → St A → Prop
  | there : hwFrame (st.mem p j) ≠ 0 → Climb L rest k p j flags st (hwFrame (st.mem p j)) none st
  | made (msa : Nat) (alc : A.State) : st.mem p j = 0 → A.msadscRetAddr alc = st.addr →
      L.Inv alc ((msa, 1) :: (st.mmu.tables.map (·, 1) ++ rest)) → st.addr msa + 0x1000 ≤ krnlMapPhyaddressEnd →
      Climb L rest k p j flags st (st.addr msa) (some msa) (st.link alc k p j msa flags)

theorem transformDire_cases (h : Owns L st rest p) (hk : k < 3) (hp : p ∈ st.lay k) (hj : j < bnd k) (flags : Nat) :
    (∃ alc, transformDire (lvl (k + 1)) st (viradr p) j flags =
        .ok (none, none, { st with alc := alc }) ∧ st.mem p j = 0 ∧
      A.msadscRetAddr alc = st.addr ∧ L.Inv alc (st.mmu.tables.map (·, 1) ++ rest)) ∨
    (∃ c out st', transformDire (lvl (k + 1)) st (viradr p) j flags =
        .ok (some (viradr c), out, st') ∧ Climb L rest k p j flags st c out st') := by
  have hok := h.entryOk k hk.le p hp j hj
  unfold transformDire
  simp only [St.rd_table]
  by_cases hhave : hwFrame (st.mem p j) = 0
  · rw [if_neg (not_direIsHave hok hhave)]
    have hempty := h.entry_zero hk hp hj hhave
    rcases newDirearr_spec (lvl (k + 1)) h.inv with ⟨alc, heq, haddr, hinv⟩ | ⟨msa, alc, heq, haddr, hinv, hend⟩
    · exact .inl ⟨alc, by rw [heq]; rfl, hempty, haddr, hinv⟩
    · refine .inr ⟨_, _, _, ?_, .made msa alc hempty haddr hinv hend⟩
      simp only [heq, ok_bind, haddr, phyadrToViradr_ok (show st.addr msa < _ by omega), St.wr_table]
      rfl
  · rw [if_pos ((direIsHave_iff hok).mpr hhave), h.direRetPadr_eq hk hp hj]
    refine .inr ⟨_, _, _, ?_, .there hhave⟩
    rw [phyadrToViradr_ok (h.lay_lt (h.child_mem hk hp hj hhave))]
    rfl

theorem Climb.spec {c : Nat} {out : Option Nat} (h : Owns L st rest p) (hc : Climb L rest k p j flags st c out st')
    (hk : k < 3) (hp : p ∈ st.lay k) (hj : j < bnd k) (hflags : flags < 0x1000) (hodd : flags % 2 = 1) :
    Owns L st' rest c ∧ Keeps st st' rest k ∧ c ∈ st'.lay (k + 1) ∧ hwFrame (st'.mem p j) = c ∧
      ∀ msa ∈ out, msa ∈ st'.mmu.mudDirhead (lvl (k + 1)) := by
  cases hc with
  | there hhave =>
    have hchild := h.child_mem hk hp hj hhave
    refine ⟨h.setExcept ?_, .refl st rest k, hchild, rfl, by simp⟩
    refine h.forest.except _ k j hp hk.le hj fun h0 => hhave ?_
    rw [h0, hwFrame_zero]
  | made msa alc hempty haddr hinv hend =>
    obtain ⟨hown, hkeep⟩ := h.link hk hp hj hempty haddr hinv hend hflags hodd
    have hl := linked_link (j := j) hk hp haddr hinv hflags hodd
    refine ⟨hown, hkeep, (hl.mem_lay hk).mpr (.inr ⟨rfl, rfl⟩), hl.slot, ?_⟩
    rintro msa' ⟨⟩
    simp only [St.link, head_add st.mmu msa hk hk]
    simp

/-- **One level of a mapping**: refused with nothing changed, or the child is there. -/
theorem transformDire_spec (h : Owns L st rest p) (hk : k < 3) (hp : p ∈ st.lay k) (hj : j < bnd k)
    (hflags : flags < 0x1000) (hodd : flags % 2 = 1) :
    (∃ st', transformDire (lvl (k + 1)) st (viradr p) j flags = .ok (none, none, st') ∧
      Owns L st' rest p ∧ Keeps st st' rest k) ∨
    (∃ c out st', transformDire (lvl (k + 1)) st (viradr p) j flags =
        .ok (some (viradr c), out, st') ∧
      Owns L st' rest c ∧ Keeps st st' rest k ∧ c ∈ st'.lay (k + 1) ∧ hwFrame (st'.mem p j) = c ∧
      ∀ msa ∈ out, msa ∈ st'.mmu.mudDirhead (lvl (k + 1))) := by
  rcases transformDire_cases h hk hp hj flags with ⟨alc, heq, -, haddr, hinv⟩ | ⟨c, out, st', heq, hclimb⟩
  · obtain ⟨hown, hkeep⟩ := h.setAlc haddr hinv k
    exact .inl ⟨_, heq, hown, hkeep⟩
  · exact .inr ⟨c, out, st', heq, hclimb.spec h hk hp hj hflags hodd⟩

theorem freeDirearr_ok (hinv : L.Inv st.alc (st.mmu.tables.map (·, 1) ++ rest)) {lv : Dire} {msa : Nat}
    (hmsa : msa ∈ st.mmu.mudDirhead lv) (msg : String) :
    ∃ alc, freeDirearr lv msg st msa = .ok { st with mmu := st.mmu.del lv msa, alc := alc } ∧
      A.msadscRetAddr alc = st.addr ∧ L.Inv alc ((st.mmu.del lv msa).tables.map (·, 1) ++ rest) ∧
      A.mmMergePages st.alc msa (A.onfrmsaRetnFpagenr st.alc msa) = .ok (true, alc) := by
  have hperm := ((st.mmu.del_tables lv hmsa).map (·, 1)).append_right rest
  obtain ⟨alc, hmerge, haddr, hinv'⟩ := L.merge (L.perm hinv hperm)
  have hnr := L.fpagenr hinv _ (Owns.mem_blocks (Mmudsc.mem_tables hmsa))
  refine ⟨alc, ?_, haddr, hinv', by rw [hnr, hmerge]⟩
  simp only [freeDirearr, hnr, hmerge, ok_bind, if_true]

theorem Owns.find_table (h : Owns L st rest e) {lv : Dire} {msa₀ : Nat} (hmsa₀ : msa₀ ∈ st.mmu.mudDirhead lv)
    {msa : Option Nat} (hmsa : ∀ m ∈ msa, m ∈ st.mmu.mudDirhead lv) :
    (msa.filter fun m => decide (A.msadscRetAddr st.alc m = st.addr msa₀)).or
      ((st.mmu.mudDirhead lv).find? fun m => decide (A.msadscRetAddr st.alc m = st.addr msa₀)) = some msa₀ := by
  have huniq : ∀ m ∈ st.mmu.mudDirhead lv, A.msadscRetAddr st.alc m = st.addr msa₀ → m = msa₀ := fun m hm heq =>
    h.addr_inj (Mmudsc.mem_tables hm) (Mmudsc.mem_tables hmsa₀) heq
  have hfind : (st.mmu.mudDirhead lv).find? (fun m => decide (A.msadscRetAddr st.alc m = st.addr msa₀)) =
      some msa₀ := by
    cases hfind : (st.mmu.mudDirhead lv).find? fun m => decide (A.msadscRetAddr st.alc m = st.addr msa₀) with
    | none =>
      have hnone := List.find?_eq_none.mp hfind msa₀ hmsa₀
      exact absurd (decide_eq_true rfl) hnone
    | some m =>
      have heq : A.msadscRetAddr st.alc m = st.addr msa₀ := by simpa using List.find?_some hfind
      rw [huniq m (List.mem_of_find?_eq_some hfind) heq]
  rw [hfind]
  cases msa with
  | none => rfl
  | some m =>
    rw [Option.filter_some]
    by_cases heq : A.msadscRetAddr st.alc m = st.addr msa₀
    · rw [if_pos (decide_eq_true heq), huniq m (hmsa m rfl) heq, Option.some_or]
    · rw [if_neg (by simpa using heq), Option.none_or]

theorem untransformDire_cases (h : Owns L st rest e) (hk : k < 3) (hp : p ∈ st.lay k) (hj : j < bnd k)
    {msa : Option Nat} (hmsa : ∀ m ∈ msa, m ∈ st.mmu.mudDirhead (lvl (k + 1))) :
    (hwFrame (st.mem p j) = 0 ∧
      untransformDire (lvl (k + 1)) st (viradr p) msa j = .ok (true, st)) ∨
    (hwFrame (st.mem p j) ∈ st.lay (k + 1) ∧ (∃ j' < 512, st.mem (hwFrame (st.mem p j)) j' ≠ 0) ∧
      untransformDire (lvl (k + 1)) st (viradr p) msa j = .ok (true, st)) ∨
    (∃ msa₀ alc, msa₀ ∈ st.mmu.mudDirhead (lvl (k + 1)) ∧ hwFrame (st.mem p j) = st.addr msa₀ ∧
      (∀ j' < 512, st.mem (st.addr msa₀) j' = 0) ∧ A.msadscRetAddr alc = st.addr ∧
      L.Inv alc ((st.mmu.del (lvl (k + 1)) msa₀).tables.map (·, 1) ++ rest) ∧
      untransformDire (lvl (k + 1)) st (viradr p) msa j =
        .ok (true, st.unlink alc k p j msa₀)) := by
  have hok := h.entryOk k hk.le p hp j hj
  unfold untransformDire
  simp only [St.rd_table]
  by_cases hhave : hwFrame (st.mem p j) = 0
  · rw [if_neg (not_direIsHave hok hhave)]
    exact .inl ⟨hhave, rfl⟩
  · rw [if_pos ((direIsHave_iff hok).mpr hhave), h.direRetPadr_eq hk hp hj]
    have hc := h.child_mem hk hp hj hhave
    rw [phyadrToViradr_ok (h.lay_lt hc), ok_bind]
    by_cases hzero : ∀ j' < 512, st.mem (hwFrame (st.mem p j)) j' = 0
    · rw [if_pos ((st.isAllzero_table _).mpr hzero)]
      obtain ⟨msa₀, hmsa₀, haddr₀⟩ := hc
      obtain ⟨alc, hfree, haddr, hinv, -⟩ := freeDirearr_ok h.inv hmsa₀ "mmu_del_tdirearr err\n"
      rw [← haddr₀] at hzero
      refine .inr (.inr ⟨msa₀, alc, hmsa₀, haddr₀.symm, hzero, haddr, hinv, ?_⟩)
      have hlt : st.addr msa₀ < krnlMapPhyaddressEnd := (h.frame (Mmudsc.mem_tables hmsa₀)).2.2
      simp only [delDirearr, ← haddr₀, viradrToPhyadr_ok hlt, ok_bind, h.find_table hmsa₀ hmsa, hfree,
        if_true, St.wr_table]
      rfl
    · rw [if_neg fun hz => hzero ((st.isAllzero_table _).mp hz)]
      refine .inr (.inl ⟨hc, ?_, rfl⟩)
      by_contra hall
      exact hzero fun j' hj' => by_contra fun hne => hall ⟨j', hj', hne⟩

/-- **One level of an unmapping**: afterwards only the parent may be all zero. -/
theorem untransformDire_spec (h : Owns L st rest e) (he : e = p ∨ e = 0 ∨ e = hwFrame (st.mem p j)) (hk : k < 3)
    (hp : p ∈ st.lay k) (hj : j < bnd k) {msa : Option Nat}
    (hmsa : ∀ m ∈ msa, m ∈ st.mmu.mudDirhead (lvl (k + 1))) :
    ∃ b st', untransformDire (lvl (k + 1)) st (viradr p) msa j = .ok (b, st') ∧
      Owns L st' rest p ∧ Keeps st st' rest k := by
  rcases untransformDire_cases h hk hp hj hmsa with
    ⟨hhave, heq⟩ | ⟨hc, ⟨j', hj', hne⟩, heq⟩ | ⟨msa₀, alc, hmsa₀, hslot, hzero, haddr, hinv, heq⟩
  · refine ⟨true, st, heq, h.setExcept ?_, .refl st rest k⟩
    rcases he with rfl | he
    · exact h.forest
    · obtain rfl : e = 0 := he.elim id fun hc => hc.trans hhave
      exact h.forest.of_zero p
  · refine ⟨true, st, heq, h.setExcept ?_, .refl st rest k⟩
    rcases he with rfl | rfl | rfl
    · exact h.forest
    · exact h.forest.of_zero p
    · exact h.forest.except p (k + 1) j' hc hk hj' hne
  · rw [hslot] at he
    obtain ⟨hown, hkeep⟩ := h.unlink (by tauto) hk hp hj hmsa₀ hslot hzero haddr hinv
    exact ⟨true, _, heq, hown, hkeep⟩

end Spec

end Cosmos.Mmu
