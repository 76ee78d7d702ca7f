import Cosmos.Mmu.Runs

/-!
# The table pages of an address space

After every run of mappings and unmappings each listed table is referred to by exactly one entry one level up, no
listed table is all zero, and the counters are the lengths of the lists. So an address space without mappings has
only its root table, and `hal_mmu_clean` gives every table page back to the page allocator once.
-/

namespace Cosmos.Mmu

open Cosmos.Lib Halt Cosmos.Page Function

variable {A : PageAlloc} {L : Lawful A} {st st' : St A} {rest : List Blk}

/-- The tables below the root, level by level. -/
structure TablesOwned (st : St A) : Prop where
  once : ∀ k < 3, ∀ msa ∈ st.mmu.mudDirhead (lvl (k + 1)), ∃! q : Nat × Nat,
    q.1 ∈ st.mmu.mudDirhead (lvl k) ∧ q.2 < bnd k ∧ direRetPadr (st.mem (st.addr q.1) q.2) = st.addr msa
  listed : ∀ k < 3, ∀ msa ∈ st.mmu.mudDirhead (lvl k), ∀ j < bnd k, st.mem (st.addr msa) j ≠ 0 →
    ∃ c ∈ st.mmu.mudDirhead (lvl (k + 1)), direRetPadr (st.mem (st.addr msa) j) = st.addr c
  nonzero : ∀ k < 3, ∀ msa ∈ st.mmu.mudDirhead (lvl (k + 1)), ∃ j < 512, st.mem (st.addr msa) j ≠ 0
  count : ∀ k < 3, st.mmu.mudDirmsanr (lvl (k + 1)) = (st.mmu.mudDirhead (lvl (k + 1))).length

theorem mem_lay_of_head {k msa : Nat} (h : msa ∈ st.mmu.mudDirhead (lvl k)) : st.addr msa ∈ st.lay k :=
  ⟨msa, h, rfl⟩

theorem Owns.tablesOwned (h : Owns L st rest 0) : TablesOwned st where
  once := by
    intro k hk msa hmsa
    obtain ⟨a, ⟨p, hp, rfl⟩, j, hj, heq⟩ := h.forest.owned k hk _ (mem_lay_of_head hmsa)
    have hpos := h.forest.pos (k + 1) hk _ (mem_lay_of_head hmsa)
    refine ⟨(p, j), ⟨hp, hj, (h.direRetPadr_eq hk (mem_lay_of_head hp) hj).trans heq⟩, ?_⟩
    rintro ⟨p', j'⟩ ⟨hp', hj', heq'⟩
    rw [h.direRetPadr_eq hk (mem_lay_of_head hp') hj'] at heq'
    obtain ⟨haddr, rfl⟩ := h.forest.once k hk _ (mem_lay_of_head hp') j' hj' _ (mem_lay_of_head hp) j hj
      (heq' ▸ hpos) (heq'.trans heq.symm)
    exact Prod.ext (h.addr_inj (Mmudsc.mem_tables hp') (Mmudsc.mem_tables hp) haddr) rfl
  listed := by
    intro k hk msa hmsa j hj hne
    obtain ⟨c, hc, heq⟩ := (h.forest.ref k hk _ (mem_lay_of_head hmsa) j hj).resolve_left hne
    refine ⟨c, hc, ?_⟩
    rw [heq, h.direRetPadr_eq hk (mem_lay_of_head hmsa) hj]
  nonzero := fun k hk msa hmsa =>
    h.forest.nonzero k hk _ (mem_lay_of_head hmsa) (h.forest.pos (k + 1) hk _ (mem_lay_of_head hmsa))
  count := fun k _ => h.count _

/-! ### No mapping, no table -/

def vadrsOf (π : Nat → Nat) : Nat := π 0 * 2 ^ 39 + π 1 * 2 ^ 30 + π 2 * 2 ^ 21 + π 3 * 2 ^ 12

theorem path_vadrsOf {π : Nat → Nat} (h : UserPath π) : ∀ k ≤ 3, path (vadrsOf π) k = π k := by
  have h0 : π 0 < 256 := h 0 (by omega)
  have h1 : π 1 < 512 := h 1 (by omega)
  have h2 : π 2 < 512 := h 2 (by omega)
  have h3 : π 3 < 512 := h 3 le_rfl
  intro k hk
  match k, hk with
  | 0, _ => simp only [path, mmuTdireIndex, vadrsOf]; omega
  | 1, _ => simp only [path, mmuSdireIndex, vadrsOf]; omega
  | 2, _ => simp only [path, mmuIdireIndex, vadrsOf]; omega
  | 3, _ => simp only [path, mmuMdireIndex, vadrsOf]; omega

theorem userHalf_vadrsOf {π : Nat → Nat} (h : UserPath π) : UserHalf (vadrsOf π) := by
  rw [UserHalf, ← path_zero, path_vadrsOf h 0 (by omega)]
  exact h 0 (by omega)

theorem Owns.exists_lookup (h : Owns L st rest 0) {m : Nat} (hm : m ∈ st.lay 3) :
    ∃ v, UserHalf v ∧ lookup st v ≠ 0 := by
  obtain ⟨j, hj, hne⟩ := h.forest.nonzero 2 (by omega) m hm (h.forest.pos 3 le_rfl m hm)
  obtain ⟨root, hroot, π, hπ, hwalk⟩ := h.forest.exists_walk 3 le_rfl m hm
  have hroot' : root = st.root := by
    obtain ⟨msa, hhead, htdir⟩ := h.root
    obtain ⟨msa', hmsa', rfl⟩ := hroot
    have hmem : msa' ∈ st.mmu.mudDirhead .t := hmsa'
    rw [hhead, List.mem_singleton] at hmem
    rw [St.root, htdir, Nat.add_sub_cancel_left, hmem]
  rw [hroot'] at hwalk
  obtain ⟨π', hpath, hagree, hlast⟩ : ∃ π', UserPath π' ∧ (∀ i < 3, π' i = π i) ∧ π' 3 = j := by
    refine ⟨fun i => if i = 3 then j else π i, fun k hk => ?_, fun i hi => if_neg (by omega), if_pos rfl⟩
    by_cases hk3 : k = 3
    · simpa [hk3] using hj
    · simpa [hk3] using hπ k (by omega)
  have heq := path_vadrsOf hpath
  refine ⟨vadrsOf π', userHalf_vadrsOf hpath, ?_⟩
  have hwalk' : Radix.walk hwFrame st.mem (path (vadrsOf π')) 3 0 st.root = m := by
    rw [← hwalk]
    refine Radix.Forest.walk_congr_path 3 0 _ fun i _ hi => ?_
    rw [heq i (by omega), hagree i (by omega)]
  rw [lookup, Radix.Forest.walk_succ 3 0 _ (h.forest.pos 0 (by omega) _ h.root_mem), hwalk',
    if_neg (h.forest.pos 3 le_rfl m hm), heq 3 le_rfl, hlast]
  exact (h.leaf m hm j hj).resolve_left hne

theorem Owns.root_only (h : Owns L st rest 0) (hnone : ∀ v, UserHalf v → lookup st v = 0) :
    ∀ k < 3, st.mmu.mudDirhead (lvl (k + 1)) = [] := by
  -- from the last level up: a table that is not all zero has a table below it
  have hlay : ∀ k, 1 ≤ k → k ≤ 3 → ∀ a, a ∉ st.lay k := by
    have hlast : ∀ a, a ∉ st.lay 3 := by
      intro a ha
      obtain ⟨v, hv, hne⟩ := h.exists_lookup ha
      exact hne (hnone v hv)
    have hup : ∀ k < 2, (∀ a, a ∉ st.lay (k + 2)) → ∀ a, a ∉ st.lay (k + 1) := by
      intro k hk hbelow a ha
      obtain ⟨j, hj, hne⟩ := h.forest.nonzero k (by omega) a ha (h.forest.pos (k + 1) (by omega) a ha)
      exact hbelow _ ((h.forest.ref (k + 1) (by omega) a ha j hj).resolve_left hne)
    intro k hk1 hk3
    match k, hk1, hk3 with
    | 3, _, _ => exact hlast
    | 2, _, _ => exact hup 1 (by omega) hlast
    | 1, _, _ => exact hup 0 (by omega) (hup 1 (by omega) hlast)
  intro k hk
  refine List.eq_nil_iff_forall_not_mem.mpr fun msa hmsa => ?_
  exact hlay (k + 1) (by omega) (by omega) _ (mem_lay_of_head hmsa)

/-! ### `hal_mmu_clean` -/

def GivesBack (A : PageAlloc) (s : A.State) (msa : Nat) (t : A.State) : Prop :=
  A.mmMergePages s msa (A.onfrmsaRetnFpagenr s msa) = .ok (true, t)

def Listed (L : Lawful A) (rest : List Blk) (st : St A) : Prop := L.Inv st.alc (st.mmu.tables.map (·, 1) ++ rest)

/-- What the clean-up of level `lv` did, from the list `msas` of that level. -/
structure Cleaned (L : Lawful A) (rest : List Blk) (lv : Dire) (msas : List Nat) (st st' : St A) : Prop where
  listed : Listed L rest st'
  head : st'.mmu.mudDirhead = update st.mmu.mudDirhead lv []
  gives : Trace (GivesBack A) st.alc msas st'.alc

theorem cleanDirearrmsas_spec (lv : Dire) (msg : String) (msas : List Nat) : ∀ st : St A, Listed L rest st →
    st.mmu.mudDirhead lv = msas →
    ∃ st', cleanDirearrmsas lv msg msas st = .ok st' ∧ Cleaned L rest lv msas st st' := by
  induction msas with
  | nil =>
    intro st hlisted hhead
    refine ⟨st, rfl, hlisted, ?_, .nil _⟩
    rw [← hhead, update_eq_self]
  | cons msa msas ih =>
    intro st hlisted hhead
    obtain ⟨alc, hfree, -, hinv, hmerge⟩ := freeDirearr_ok hlisted (hhead ▸ List.mem_cons_self) msg
    have hdel : (st.mmu.del lv msa).mudDirhead = update st.mmu.mudDirhead lv msas := by
      simp only [Mmudsc.del, hhead, List.erase_cons_head]
    obtain ⟨st', heq, hclean⟩ := ih { st with mmu := st.mmu.del lv msa, alc := alc } hinv
      (by rw [hdel, update_self])
    refine ⟨st', ?_, hclean.listed, ?_, .cons hmerge hclean.gives⟩
    · exact (bind_of_ok hfree _).trans heq
    · rw [hclean.head, hdel, update_idem]

/-- **Cleaning** gives every table back, from the last level up, unless the processor runs on the tables. -/
theorem halMmuClean_spec (h : Listed L rest st) {cr3 : Nat} (hcr3 : direRetPadr cr3 < krnlMapPhyaddressEnd) :
    (krnlMapVirtaddressStart + direRetPadr cr3 = st.mmu.mudTdirearr ∧ halMmuClean cr3 st = .ok (false, st)) ∨
    ∃ st', halMmuClean cr3 st = .ok (true, st') ∧ (∀ lv, st'.mmu.mudDirhead lv = []) ∧ L.Inv st'.alc rest ∧
      Trace (GivesBack A) st.alc (st.mmu.mudDirhead .m ++ st.mmu.mudDirhead .i ++ st.mmu.mudDirhead .s ++
        st.mmu.mudDirhead .t) st'.alc := by
  unfold halMmuClean
  rw [phyadrToViradr_ok hcr3, ok_bind]
  by_cases hrun : krnlMapVirtaddressStart + direRetPadr cr3 = st.mmu.mudTdirearr
  · rw [if_pos hrun]
    exact .inl ⟨hrun, rfl⟩
  rw [if_neg hrun]
  obtain ⟨st₁, heq₁, hm⟩ := cleanDirearrmsas_spec .m "mmu_clean_mdirearrmsas" _ st h rfl
  obtain ⟨st₂, heq₂, hi⟩ := cleanDirearrmsas_spec .i "mmu_clean_idirearrmsas" _ st₁ hm.listed rfl
  obtain ⟨st₃, heq₃, hs⟩ := cleanDirearrmsas_spec .s "mmu_clean_sdirearrmsas" _ st₂ hi.listed rfl
  obtain ⟨st₄, heq₄, ht⟩ := cleanDirearrmsas_spec .t "mmu_clean_tdirearrmsas" _ st₃ hs.listed rfl
  have hhead₂ : st₁.mmu.mudDirhead .i = st.mmu.mudDirhead .i := by rw [hm.head]; rfl
  have hhead₃ : st₂.mmu.mudDirhead .s = st.mmu.mudDirhead .s := by rw [hi.head, hm.head]; rfl
  have hhead₄ : st₃.mmu.mudDirhead .t = st.mmu.mudDirhead .t := by rw [hs.head, hi.head, hm.head]; rfl
  have hempty : ∀ lv, st₄.mmu.mudDirhead lv = [] := by
    intro lv
    rw [ht.head, hs.head, hi.head, hm.head]
    cases lv <;> rfl
  refine .inr ⟨st₄, ?_, hempty, ?_, ?_⟩
  · rw [mmuCleanMdirearrmsas, heq₁, ok_bind, mmuCleanIdirearrmsas, heq₂, ok_bind, mmuCleanSdirearrmsas,
      heq₃, ok_bind, mmuCleanTdirearrmsas, heq₄, ok_bind]
  · have hlisted := ht.listed
    simpa [Listed, Mmudsc.tables, hempty] using hlisted
  · exact ((hm.gives.append (hhead₂ ▸ hi.gives)).append (hhead₃ ▸ hs.gives)).append (hhead₄ ▸ ht.gives)

/-- **Ownership and no leak**: after every run the tables are owned; without mappings only the root table is left;
and a clean-up that returns `TRUE` has given every table page back exactly once. -/
theorem tables_owned_of_run {pml4 : Nat} {st₀ st₁ : St A} (h : Ran L pml4 st₀ st₁ st rest) :
    TablesOwned st ∧
    ((∀ v, UserHalf v → lookup st v = 0) → st.mmu.mudDirhead .s = [] ∧ st.mmu.mudDirhead .i = [] ∧
      st.mmu.mudDirhead .m = []) ∧
    ∀ cr3 st', halMmuClean cr3 st = .ok (true, st') → (∀ lv, st'.mmu.mudDirhead lv = []) ∧ L.Inv st'.alc rest ∧
      ∃ msas, msas.Nodup ∧ msas.Perm st.mmu.tables ∧ Trace (GivesBack A) st.alc msas st'.alc := by
  have hown : Owns L st rest 0 := h.sound.owns
  refine ⟨hown.tablesOwned, fun hnone => ?_, fun cr3 st' hclean => ?_⟩
  · have hroot := hown.root_only hnone
    exact ⟨hroot 0 (by omega), hroot 1 (by omega), hroot 2 (by omega)⟩
  · have hcr3 : direRetPadr cr3 < krnlMapPhyaddressEnd := by
      by_contra hge
      simp [halMmuClean, phyadrToViradr, Nat.le_of_not_lt hge] at hclean
    rcases halMmuClean_spec hown.inv hcr3 with ⟨-, heq⟩ | ⟨st'', heq, hempty, hinv, hgives⟩
    · simp [heq] at hclean
    · obtain rfl : st'' = st' := by simpa [heq] using hclean
      have hperm : (st.mmu.mudDirhead .m ++ st.mmu.mudDirhead .i ++ st.mmu.mudDirhead .s ++
          st.mmu.mudDirhead .t).Perm st.mmu.tables :=
        List.perm_append_comm.trans
          ((List.perm_append_comm.trans (List.perm_append_comm.append_left _)).append_left _)
      exact ⟨hempty, hinv, _, hperm.nodup_iff.mpr hown.tables_nodup, hperm, hgives⟩

/-- The tables of a first mapping. -/
theorem tables_owned_first : ∃ st₁ st : St bump, halMmuInit 0 emptySt = .ok (true, st₁) ∧
    halMmuTransform st₁ 0x1000 0x5000 7 = .ok (true, st) ∧ st.mmu.mudDirhead .m = [3] ∧ TablesOwned st := by
  obtain ⟨st₁, st, hinit, hmap, hhead⟩ : ∃ st₁ st : St bump, halMmuInit 0 emptySt = .ok (true, st₁) ∧
      halMmuTransform st₁ 0x1000 0x5000 7 = .ok (true, st) ∧ st.mmu.mudDirhead .m = [3] := ⟨_, _, rfl, rfl, rfl⟩
  have hran := ran_map hinit (by decide) ⟨by decide, by decide, by decide, by decide, by decide⟩ hmap
  exact ⟨st₁, st, hinit, hmap, hhead, (tables_owned_of_run hran).1⟩

/-- The flags also go into the entries of the upper levels: with the flags `0x1001` the root's entry for the table at
`0x2000` holds the frame `0x3000`, which is not the frame of a listed table of that level. -/
theorem unlisted_of_wide_flags : ∃ st₁ st : St bump, halMmuInit 0 emptySt = .ok (true, st₁) ∧
    halMmuTransform st₁ 0x1000 0x5000 0x1001 = .ok (true, st) ∧ ¬TablesOwned st := by
  obtain ⟨st₁, st, hinit, hmap, hroot, hhead, hslot⟩ : ∃ st₁ st : St bump, halMmuInit 0 emptySt = .ok (true, st₁) ∧
      halMmuTransform st₁ 0x1000 0x5000 0x1001 = .ok (true, st) ∧ st.mmu.mudDirhead .t = [0] ∧
      st.mmu.mudDirhead .s = [1] ∧ st.mem 0x1000 0 = 0x3001 := ⟨_, _, rfl, rfl, rfl, rfl, by decide⟩
  refine ⟨st₁, st, hinit, hmap, fun howned => ?_⟩
  have haddr : ∀ msa, st.addr msa = (msa + 1) * 0x1000 := fun _ => rfl
  have hmem : 0 ∈ st.mmu.mudDirhead (lvl 0) := by
    show 0 ∈ st.mmu.mudDirhead .t
    rw [hroot]
    exact List.mem_singleton_self 0
  have hne : st.mem (st.addr 0) 0 ≠ 0 := by
    rw [haddr, Nat.zero_add, Nat.one_mul, hslot]
    decide
  obtain ⟨c, hc, heq⟩ := howned.listed 0 (by decide) 0 hmem 0 (by decide) hne
  have hc1 : c ∈ st.mmu.mudDirhead .s := hc
  rw [hhead, List.mem_singleton] at hc1
  rw [haddr, haddr, Nat.zero_add, Nat.one_mul, hslot, hc1] at heq
  exact absurd heq (by decide)

end Cosmos.Mmu
