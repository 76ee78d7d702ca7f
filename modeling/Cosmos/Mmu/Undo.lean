import Cosmos.Mmu.Runs

/-!
# A refused mapping is undone

The page allocator may refuse any of the three tables that `hal_mmu_transform` asks for. The labels `untf_mdire`,
`untf_idire` and `untf_sdire` then go back up the way: a table that was made on the way down is all zero again and
is freed, a table that was there is in use and stays. What is left is the state before the call (`Restored`), the
order of the lists included.
-/

namespace Cosmos.Mmu

open Cosmos.Lib Halt Cosmos.Page Function

variable {A : PageAlloc} {L : Lawful A} {st st' st₁ st₂ st₃ : St A} {rest : List Blk}

/-- The descriptor, the pages of the tables and the live blocks are as they were. A page that was written in between
was handed out beside these blocks. -/
structure Restored (L : Lawful A) (rest : List Blk) (st st' : St A) : Prop where
  others : Others L (st, rest) (st', rest)
  pages : ∀ a, st'.mem a ≠ st.mem a → ∃ alc msa, A.msadscRetAddr alc = st.addr ∧
    L.Inv alc ((msa, 1) :: (st.mmu.tables.map (·, 1) ++ rest)) ∧ st.addr msa = a

theorem restored_of_setAlc {alc : A.State} (haddr : A.msadscRetAddr alc = st.addr)
    (hinv : L.Inv alc (st.mmu.tables.map (·, 1) ++ rest)) : Restored L rest st { st with alc := alc } :=
  ⟨⟨rfl, haddr, hinv, fun _ _ => rfl⟩, fun _ hne => absurd rfl hne⟩

theorem Mmudsc.del_add {mmu : Mmudsc} {lv : Dire} {msa : Nat} (h : mmu.mudDirmsanr lv + 1 < 2 ^ 64) :
    (mmu.add lv msa).del lv msa = mmu := by
  have hnr : u64Sub (u64 (mmu.mudDirmsanr lv + 1)) 1 = mmu.mudDirmsanr lv := by
    rw [u64_of_lt h, u64Sub_of_le (by omega) h, Nat.add_sub_cancel]
  simp only [Mmudsc.add, Mmudsc.del, update_self, update_idem, List.erase_cons_head, hnr,
    update_eq_self]

/-! ### One level up -/

section Level

variable {k p j c flags : Nat} {out : Option Nat}

theorem untransformDire_of_empty (lv : Dire) (st : St A) (msa : Option Nat) (h : st.mem p j = 0) :
    untransformDire lv st (viradr p) msa j = .ok (true, st) := by
  unfold untransformDire
  simp only [St.rd_table, h]
  exact if_neg (by decide)

theorem restored_unlink {msa : Nat} {alc alc' : A.State} (h : Owns L st rest p) (hp : p ∈ st.lay k)
    (hempty : st.mem p j = 0) (haddr : A.msadscRetAddr alc = st.addr)
    (hinv : L.Inv alc ((msa, 1) :: (st.mmu.tables.map (·, 1) ++ rest)))
    (hr : Restored L rest (st.link alc k p j msa flags) st₂) (haddr' : A.msadscRetAddr alc' = st₂.addr)
    (hinv' : L.Inv alc' ((st₂.mmu.del (lvl (k + 1)) msa).tables.map (·, 1) ++ rest)) :
    Restored L rest st (st₂.unlink alc' k p j msa) := by
  have hmmu : st₂.mmu = st.mmu.add (lvl (k + 1)) msa := hr.others.mmu
  have haddr₂ : st₂.addr = st.addr := hr.others.addr.trans haddr
  have hdel : st₂.mmu.del (lvl (k + 1)) msa = st.mmu := by
    rw [hmmu]
    refine Mmudsc.del_add ?_
    have hlen := h.length_head_le (lvl (k + 1))
    rw [h.count]
    omega
  rw [hdel] at hinv'
  have hfresh : ∀ msa' ∈ st.mmu.tables, st.addr msa' ≠ st.addr msa := by
    intro msa' hmsa' heq
    have hapart := List.rel_of_pairwise_cons (L.apart hinv) (Owns.mem_blocks hmsa')
    simp only [Apart, haddr] at hapart
    omega
  obtain ⟨pmsa, hpmsa, rfl⟩ := hp
  have hlinked : ∀ a, a ≠ st.addr pmsa → a ≠ st.addr msa →
      (st.link alc k (st.addr pmsa) j msa flags).mem a = st.mem a := by
    intro a hap hac
    simp only [St.link, update_of_ne hap, update_of_ne hac]
  have htables : ∀ msa' ∈ st.mmu.tables, st₂.mem (st.addr msa') =
      (st.link alc k (st.addr pmsa) j msa flags).mem (st.addr msa') := by
    intro msa' hmsa'
    have hmem := hr.others.mem msa' ((st.mmu.add_tables (lvl (k + 1)) msa).mem_iff.mp (List.mem_cons_of_mem _ hmsa'))
    rw [show (st.link alc k (st.addr pmsa) j msa flags).addr = st.addr from haddr] at hmem
    exact hmem
  -- the parent's page: the entry of the new table is cleared again
  have hparent : (st₂.unlink alc' k (st.addr pmsa) j msa).mem (st.addr pmsa) = st.mem (st.addr pmsa) := by
    simp only [St.unlink, update_self]
    rw [htables pmsa (Mmudsc.mem_tables hpmsa)]
    simp only [St.link, update_self, update_idem,
      update_of_ne (hfresh pmsa (Mmudsc.mem_tables hpmsa)), ← hempty, update_eq_self]
  have helse : ∀ a, a ≠ st.addr pmsa → (st₂.unlink alc' k (st.addr pmsa) j msa).mem a = st₂.mem a := fun a hap =>
    update_of_ne hap _ _
  refine ⟨⟨hdel, haddr'.trans haddr₂, hinv', fun msa' hmsa' => ?_⟩, fun a hne => ?_⟩
  · by_cases hap : st.addr msa' = st.addr pmsa
    · rw [hap]
      exact hparent
    · rw [helse _ hap, htables msa' hmsa']
      exact hlinked _ hap (hfresh msa' hmsa')
  · have hap : a ≠ st.addr pmsa := by
      rintro rfl
      exact hne hparent
    rw [helse a hap] at hne
    by_cases hac : a = st.addr msa
    · exact ⟨alc, msa, haddr, hinv, hac.symm⟩
    · rw [← hlinked a hap hac] at hne
      obtain ⟨alc₂, msa₂, haddr₂, hinv₂, heq⟩ := hr.pages a hne
      -- beside the new table's page another page was free: it still is once the first is given back
      have hperm : ((msa₂, 1) :: ((st.mmu.add (lvl (k + 1)) msa).tables.map (·, 1) ++ rest)).Perm
          ((msa, 1) :: (msa₂, 1) :: (st.mmu.tables.map (·, 1) ++ rest)) :=
        ((((st.mmu.add_tables (lvl (k + 1)) msa).symm.map (·, 1)).append_right rest).cons _).trans (.swap _ _ _)
      obtain ⟨alc₃, -, haddr₃, hinv₃⟩ := L.merge (L.perm hinv₂ hperm)
      have hlink : (st.link alc k (st.addr pmsa) j msa flags).addr = st.addr := haddr
      rw [hlink] at haddr₂ heq
      exact ⟨alc₃, msa₂, haddr₃.trans haddr₂, hinv₃, heq⟩

/-- **One level up**: the state before the way down is back, whether the child was there or was made. -/
theorem Climb.undo (h : Owns L st rest p) (hc : Climb L rest k p j flags st c out st₁) (hk : k < 3) (hp : p ∈ st.lay k)
    (hj : j < bnd k) (hflags : flags < 0x1000) (hodd : flags % 2 = 1) (hr : Restored L rest st₁ st₂) :
    ∃ st₃, untransformDire (lvl (k + 1)) st₂ (viradr p) out j = .ok (true, st₃) ∧
      Restored L rest st st₃ := by
  obtain ⟨hown₁, hkeep, hlay, hslot, hout⟩ := hc.spec h hk hp hj hflags hodd
  have hp₁ : p ∈ st₁.lay k := hkeep.mem_lay le_rfl hp
  have hown₂ : Owns L st₂ rest c := hr.others.owns hown₁
  have hpage : st₂.mem p = st₁.mem p := hr.others.mem_lay k hk.le p hp₁
  have hchild : st₂.mem c = st₁.mem c := hr.others.mem_lay (k + 1) hk c hlay
  have hp₂ : p ∈ st₂.lay k := by
    rw [show st₂.lay = st₁.lay from hr.others.lay_eq]
    exact hp₁
  have hout₂ : ∀ m ∈ out, m ∈ st₂.mmu.mudDirhead (lvl (k + 1)) := by
    rw [show st₂.mmu = st₁.mmu from hr.others.mmu]
    exact hout
  rcases untransformDire_cases hown₂ hk hp₂ hj hout₂ with
    ⟨h0, -⟩ | ⟨-, ⟨j', hj', hne⟩, heq⟩ | ⟨msa₀, alc', hmsa₀, hslot₀, hzero, haddr', hinv', heq⟩
  · rw [hpage, hslot] at h0
    exact absurd h0 (hown₁.forest.pos (k + 1) hk c hlay)
  · refine ⟨st₂, heq, ?_⟩
    cases hc with
    | there _ => exact hr
    | made msa alc hempty haddr hinv _ =>
      -- a table just made is all zero
      have hl := linked_link (j := j) hk hp haddr hinv hflags hodd
      rw [hpage, hslot, hchild] at hne
      exact absurd (hl.zero j' hj') hne
  · rw [hpage, hslot] at hslot₀
    refine ⟨_, heq, ?_⟩
    cases hc with
    | there hhave =>
      -- a table that was there is not all zero
      have hne : hwFrame (st.mem p j) ≠ p := by
        intro heq
        rw [heq] at hlay
        have hdepth := h.forest.depth (k + 1) hk k hk.le p hlay hp
        omega
      obtain ⟨j', hj', hne'⟩ := h.forest.nonzero k hk _ hlay hne
      rw [← hslot₀, hchild] at hzero
      exact absurd (hzero j' hj') hne'
    | made msa alc hempty haddr hinv _ =>
      have hmsa : msa₀ = msa := by
        refine hown₂.addr_inj (Mmudsc.mem_tables hmsa₀) (Mmudsc.mem_tables (hout₂ msa rfl)) ?_
        rw [← hslot₀, show st₂.addr = _ from hr.others.addr]
        exact (congrFun haddr msa).symm
      subst hmsa
      exact restored_unlink h hp hempty haddr hinv hr haddr' hinv'

end Level

/-! ### The labels -/

section Labels

variable {v s i flags : Nat} {smsa imsa : Option Nat}

theorem untfSdire_undo (h : Owns L st rest st.root) (hv : UserHalf v)
    (hs : Climb L rest 0 st.root (mmuTdireIndex v) flags st s smsa st₁) (hflags : flags < 0x1000)
    (hodd : flags % 2 = 1) (hr : Restored L rest st₁ st₂) :
    ∃ st₃, untfSdire st₂ (viradr st.root) smsa v = .ok st₃ ∧ Restored L rest st st₃ := by
  obtain ⟨st₃, heq, hr'⟩ := hs.undo h (by omega) h.root_mem (hv.path 0 (by omega)) hflags hodd hr
  exact ⟨st₃, bind_of_ok heq _, hr'⟩

theorem untfIdire_undo (h : Owns L st rest st.root) (hv : UserHalf v)
    (hs : Climb L rest 0 st.root (mmuTdireIndex v) flags st s smsa st₁)
    (hi : Climb L rest 1 s (mmuSdireIndex v) flags st₁ i imsa st₂) (hflags : flags < 0x1000)
    (hodd : flags % 2 = 1) (hr : Restored L rest st₂ st₃) :
    ∃ st₄, untfIdire st₃ (viradr st.root) (viradr s) smsa imsa v = .ok st₄ ∧
      Restored L rest st st₄ := by
  obtain ⟨hown₁, -, hlay, -, -⟩ := hs.spec h (by omega) h.root_mem (hv.path 0 (by omega)) hflags hodd
  obtain ⟨st', heq, hr'⟩ := hi.undo hown₁ (by omega) hlay (hv.path 1 (by omega)) hflags hodd hr
  obtain ⟨st₄, heq', hr''⟩ := untfSdire_undo h hv hs hflags hodd hr'
  exact ⟨st₄, (bind_of_ok heq _).trans heq', hr''⟩

theorem transformMdireOn_undo {p : Nat} (h : Owns L st rest st.root) (hv : UserHalf v)
    (hs : Climb L rest 0 st.root (mmuTdireIndex v) flags st s smsa st₁)
    (hi : Climb L rest 1 s (mmuSdireIndex v) flags st₁ i imsa st₂) (hflags : flags < 0x1000) (hodd : flags % 2 = 1)
    (hret : transformMdireOn st₂ (viradr st.root) (viradr s)
      (viradr i) smsa imsa v p flags = .ok (false, st')) : Restored L rest st st' := by
  obtain ⟨hown₁, -, hlay₁, -, -⟩ := hs.spec h (by omega) h.root_mem (hv.path 0 (by omega)) hflags hodd
  obtain ⟨hown₂, -, hlay₂, -, -⟩ := hi.spec hown₁ (by omega) hlay₁ (hv.path 1 (by omega)) hflags hodd
  rcases transformDire_cases hown₂ (by omega) hlay₂ (hv.path 2 (by omega)) flags with
    ⟨alc, heq, hempty, haddr, hinv⟩ | ⟨m, mmsa, st₃, heq, -⟩
  · have hup := untransformDire_of_empty .m { st₂ with alc := alc } none hempty
    obtain ⟨st₄, heq₄, hr⟩ := untfIdire_undo h hv hs hi hflags hodd (restored_of_setAlc haddr hinv)
    have huntf : untfMdire { st₂ with alc := alc } (viradr st.root) (viradr s)
        (viradr i) smsa imsa none v = .ok st₄ := (bind_of_ok hup _).trans heq₄
    obtain rfl : st₄ = st' := by
      simpa using ((bind_of_ok heq _).trans (bind_of_ok huntf fun st => .ok (false, st))).symm.trans hret
    exact hr
  · have hmsa := (bind_of_ok heq _).symm.trans hret
    simp [transformMsaOn, mmuTransformMsa] at hmsa

theorem transformIdireOn_undo {p : Nat} (h : Owns L st rest st.root) (hv : UserHalf v)
    (hs : Climb L rest 0 st.root (mmuTdireIndex v) flags st s smsa st₁) (hflags : flags < 0x1000) (hodd : flags % 2 = 1)
    (hret : transformIdireOn st₁ (viradr st.root) (viradr s) smsa v p flags =
      .ok (false, st')) : Restored L rest st st' := by
  obtain ⟨hown₁, -, hlay₁, -, -⟩ := hs.spec h (by omega) h.root_mem (hv.path 0 (by omega)) hflags hodd
  rcases transformDire_cases hown₁ (by omega) hlay₁ (hv.path 1 (by omega)) flags with
    ⟨alc, heq, hempty, haddr, hinv⟩ | ⟨i, imsa, st₂, heq, hi⟩
  · have hup := untransformDire_of_empty .i { st₁ with alc := alc } none hempty
    obtain ⟨st₃, heq₃, hr⟩ := untfSdire_undo h hv hs hflags hodd (restored_of_setAlc haddr hinv)
    have huntf : untfIdire { st₁ with alc := alc } (viradr st.root) (viradr s)
        smsa none v = .ok st₃ := (bind_of_ok hup _).trans heq₃
    obtain rfl : st₃ = st' := by
      simpa using ((bind_of_ok heq _).trans (bind_of_ok huntf fun st => .ok (false, st))).symm.trans hret
    exact hr
  · exact transformMdireOn_undo h hv hs hi hflags hodd ((bind_of_ok heq _).symm.trans hret)

end Labels

/-- **A mapping that returns `FALSE` is undone.** -/
theorem halMmuTransform_undo {v p flags : Nat} (h : Owns L st rest 0) (hv : UserHalf v) (hargs : MapArgs p flags)
    (hret : halMmuTransform st v p flags = .ok (false, st')) : Restored L rest st st' := by
  have hroot : Owns L st rest st.root := h.setExcept (h.forest.of_zero st.root)
  rw [halMmuTransform, halMmuTransformCore, if_neg h.tdirearr_ne_zero, h.tdirearr_eq] at hret
  rcases transformDire_cases hroot (by omega) h.root_mem (hv.path 0 (by omega)) flags with
    ⟨alc, heq, hempty, haddr, hinv⟩ | ⟨s, smsa, st₁, heq, hs⟩
  · have hup := untransformDire_of_empty .s { st with alc := alc } none hempty
    have huntf : untfSdire { st with alc := alc } (viradr st.root) none v = .ok { st with alc := alc } :=
      bind_of_ok hup _
    obtain rfl : { st with alc := alc } = st' := by
      simpa using ((bind_of_ok heq _).trans (bind_of_ok huntf fun st => .ok (false, st))).symm.trans hret
    exact restored_of_setAlc haddr hinv
  · exact transformIdireOn_undo hroot hv hs hargs.flags_lt hargs.present ((bind_of_ok heq _).symm.trans hret)

/-- Lists, counters, table entries, translations and the memory of all live blocks are the same. -/
structure Unchanged (rest : List Blk) (st st' : St A) : Prop where
  mmu : st'.mmu = st.mmu
  entries : ∀ msa ∈ st.mmu.tables, st'.mem (st.addr msa) = st.mem (st.addr msa)
  blocks : ∀ blk ∈ rest, ∀ a, st.addr blk.1 ≤ a → a < st.addr blk.1 + blk.2 * 0x1000 → st'.mem a = st.mem a
  lookup_eq : ∀ v, UserHalf v → lookup st' v = lookup st v

theorem Restored.unchanged (hr : Restored L rest st st') (h : Owns L st rest 0) : Unchanged rest st st' := by
  refine ⟨hr.others.mmu, hr.others.mem, fun blk hblk a hlo hhi => ?_, fun v hv => hr.others.lookup_eq h hv⟩
  by_contra hne
  obtain ⟨alc, msa, haddr, hinv, rfl⟩ := hr.pages a hne
  have hmem : blk ∈ st.mmu.tables.map (·, 1) ++ rest := List.mem_append_right _ hblk
  have hapart := L.apart_of_ne hinv List.mem_cons_self (List.mem_cons_of_mem _ hmem) fun heq =>
    (List.nodup_cons.mp (L.nodup hinv)).1 (heq ▸ hmem)
  simp only [Apart, haddr] at hapart
  omega

end Cosmos.Mmu
