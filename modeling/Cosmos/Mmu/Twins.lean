import Cosmos.Mmu.Runs

/-!
# The calls on the tables over two memories

Of the memory, `hal_mmu_transform` and `hal_mmu_untransform` read the tables of their address space and nothing else.
Over a second memory with the same tables (`Twin`) they give the same answers, leave the same descriptor and the same
page allocator, and the tables are the same again; a page on which the two memories agreed is not written differently
(`Follows`). A new table is zeroed first, so what its page held before does not matter.
-/

namespace Cosmos.Mmu

open Cosmos.Lib Halt Cosmos.Page Function

variable {A : PageAlloc} {L : Lawful A} {st st₁ st₂ : St A} {rest : List Blk}
  {mem mem₁ mem₂ : Nat → Nat → Nat} {e : Nat}

def Twin (st : St A) (mem : Nat → Nat → Nat) : Prop := ∀ msa ∈ st.mmu.tables, mem (st.addr msa) = st.mem (st.addr msa)

theorem Twin.mem_lay (h : Twin st mem) {k p : Nat} (hp : p ∈ st.lay k) : mem p = st.mem p := by
  obtain ⟨msa, hmsa, rfl⟩ := hp
  exact h msa (Mmudsc.mem_tables hmsa)

/-- A call leads from `st` to `st₁`, and over the second memory from `mem` to `mem₁`. -/
structure Follows (st st₁ : St A) (mem mem₁ : Nat → Nat → Nat) : Prop where
  twin : Twin st₁ mem₁
  same : ∀ a, mem a = st.mem a → mem₁ a = st₁.mem a

namespace Follows

theorem refl (h : Twin st mem) : Follows st st mem mem := ⟨h, fun _ hsame => hsame⟩

theorem trans (h : Follows st st₁ mem mem₁) (h' : Follows st₁ st₂ mem₁ mem₂) : Follows st st₂ mem mem₂ :=
  ⟨h'.twin, fun a hsame => h'.same a (h.same a hsame)⟩

theorem of_subset (hm : Twin st mem) (haddr : st₁.addr = st.addr) (hsub : ∀ msa ∈ st₁.mmu.tables, msa ∈ st.mmu.tables)
    (hsame : ∀ a, mem a = st.mem a → mem₁ a = st₁.mem a) : Follows st st₁ mem mem₁ := by
  refine ⟨fun msa hmsa => hsame _ ?_, hsame⟩
  rw [haddr]
  exact hm msa (hsub msa hmsa)

end Follows

/-! ### Writes -/

section Writes

variable {p j entry a : Nat}

theorem update_agree (words : Nat → Nat) (h : a ≠ p → mem a = mem₁ a) :
    update mem p words a = update mem₁ p words a := by
  by_cases ha : a = p
  · subst ha
    rw [update_self, update_self]
  · rw [update_of_ne ha, update_of_ne ha, h ha]

theorem slot_agree (hp : mem p = mem₁ p) (ha : mem a = mem₁ a) :
    update mem p (update (mem p) j entry) a =
      update mem₁ p (update (mem₁ p) j entry) a := by
  rw [hp]
  exact update_agree _ fun _ => ha

end Writes

/-! ### One table -/

section Table

variable {lv : Dire} {direarr : Nat} {r msa : Option Nat} {b : Bool}

theorem newDirearr_twin (mem : Nat → Nat → Nat) (heq : newDirearr lv st = .ok (r, st₁)) :
    ∃ mem₁, newDirearr lv { st with mem := mem } = .ok (r, { st₁ with mem := mem₁ }) ∧
      (∀ a, mem a = st.mem a → mem₁ a = st₁.mem a) ∧ ∀ msa ∈ r, mem₁ (st₁.addr msa) = st₁.mem (st₁.addr msa) := by
  unfold newDirearr at heq ⊢
  obtain ⟨⟨r', alc⟩, hdiv, heq⟩ := bind_eq_ok heq
  rw [bind_of_ok hdiv]
  cases r' with
  | none =>
    obtain ⟨rfl, rfl⟩ : none = r ∧ { st with alc := alc } = st₁ := by simpa using heq
    exact ⟨mem, rfl, fun _ hsame => hsame, by simp⟩
  | some blk =>
    obtain ⟨direarr, hv, heq⟩ := bind_eq_ok heq
    obtain ⟨rfl, rfl⟩ := pair_inj heq
    have hadr : direarr - krnlMapVirtaddressStart = A.msadscRetAddr alc blk.1 := by
      unfold PageAlloc.msadscRetVaddr phyadrToViradr at hv
      split_ifs at hv
      rw [← Except.ok.inj hv, Nat.add_sub_cancel_left]
    refine ⟨update mem (direarr - krnlMapVirtaddressStart) fun _ => 0, bind_of_ok hv _, ?_, ?_⟩
    · intro a hsame
      simp only [St.fill]
      exact update_agree _ fun _ => hsame
    · rintro msa ⟨⟩
      simp only [St.fill, St.addr, hadr, update_self]

theorem delDirearr_twin (mem : Nat → Nat → Nat) (heq : delDirearr lv st direarr msa = .ok (b, st₁)) :
    delDirearr lv { st with mem := mem } direarr msa = .ok (b, { st₁ with mem := mem }) ∧ st₁.mem = st.mem := by
  unfold delDirearr at heq ⊢
  obtain ⟨tblphyadr, hadr, heq⟩ := bind_eq_ok heq
  rw [bind_of_ok hadr]
  simp only at heq ⊢
  cases hfind : (msa.filter fun msa => decide (A.msadscRetAddr st.alc msa = tblphyadr)).or
      ((st.mmu.mudDirhead lv).find? fun msa => decide (A.msadscRetAddr st.alc msa = tblphyadr)) with
  | none =>
    rw [hfind] at heq
    obtain ⟨rfl, rfl⟩ := pair_inj heq
    exact ⟨rfl, rfl⟩
  | some m =>
    rw [hfind] at heq
    obtain ⟨st', hfree, heq⟩ := bind_eq_ok heq
    obtain ⟨rfl, rfl⟩ := pair_inj heq
    unfold freeDirearr at hfree
    obtain ⟨⟨rets, alc⟩, hmerge, hfree⟩ := bind_eq_ok hfree
    cases rets with
    | false => cases hfree
    | true =>
      obtain rfl := Except.ok.inj hfree
      refine ⟨?_, rfl⟩
      simp only [freeDirearr]
      rw [bind_of_ok hmerge]
      rfl

end Table

/-! ### One level -/

section Level

variable {k p j flags : Nat} {r out msa : Option Nat} {b : Bool}

theorem transformDire_tables (h : Owns L st rest p) (hk : k < 3) (hp : p ∈ st.lay k) (hj : j < bnd k)
    (heq : transformDire (lvl (k + 1)) st (viradr p) j flags = .ok (r, out, st₁)) :
    st₁.addr = st.addr ∧ ∀ msa ∈ st₁.mmu.tables, msa ∈ st.mmu.tables ∨ out = some msa := by
  rcases transformDire_cases h hk hp hj flags with ⟨alc, heq', -, haddr, -⟩ | ⟨c, out', st', heq', hclimb⟩
  · obtain ⟨-, -, rfl⟩ : none = r ∧ none = out ∧ { st with alc := alc } = st₁ := by simpa using heq'.symm.trans heq
    exact ⟨haddr, fun _ hmem => .inl hmem⟩
  · obtain ⟨-, rfl, rfl⟩ : some (viradr c) = r ∧ out' = out ∧ st' = st₁ := by
      simpa using heq'.symm.trans heq
    cases hclimb with
    | there _ => exact ⟨rfl, fun _ hmem => .inl hmem⟩
    | made new alc _ haddr _ _ =>
      refine ⟨haddr, fun msa hmem => ?_⟩
      rcases List.mem_cons.mp ((st.mmu.add_tables (lvl (k + 1)) new).mem_iff.mpr hmem) with rfl | hold
      · exact .inr rfl
      · exact .inl hold

theorem transformDire_twin (h : Owns L st rest p) (hk : k < 3) (hp : p ∈ st.lay k) (hj : j < bnd k) (hm : Twin st mem)
    (heq : transformDire (lvl (k + 1)) st (viradr p) j flags = .ok (r, out, st₁)) :
    ∃ mem₁, transformDire (lvl (k + 1)) { st with mem := mem } (viradr p) j flags =
      .ok (r, out, { st₁ with mem := mem₁ }) ∧ Follows st st₁ mem mem₁ := by
  obtain ⟨haddr, htables⟩ := transformDire_tables h hk hp hj heq
  have hpage := hm.mem_lay hp
  unfold transformDire at heq ⊢
  simp only [St.rd_table, hpage] at heq ⊢
  by_cases hhave : direIsHave (st.mem p j) = true
  · rw [if_pos hhave] at heq ⊢
    obtain ⟨direarr, hv, heq⟩ := bind_eq_ok heq
    obtain ⟨rfl, rfl, rfl⟩ : some direarr = r ∧ none = out ∧ st = st₁ := by simpa using heq
    exact ⟨mem, bind_of_ok hv _, .refl hm⟩
  · rw [if_neg hhave] at heq ⊢
    obtain ⟨⟨r', st'⟩, hnew, heq⟩ := bind_eq_ok heq
    obtain ⟨mem', hnew', hsame, hpage'⟩ := newDirearr_twin mem hnew
    rw [bind_of_ok hnew']
    cases r' with
    | none =>
      obtain ⟨rfl, rfl, rfl⟩ : none = r ∧ none = out ∧ st' = st₁ := by simpa using heq
      exact ⟨mem', rfl, .of_subset hm haddr (fun msa hmsa => (htables msa hmsa).resolve_right (by simp)) hsame⟩
    | some new =>
      obtain ⟨direarr, hv, heq⟩ := bind_eq_ok heq
      obtain ⟨rfl, rfl, rfl⟩ : some direarr = r ∧ some new = out ∧ st'.wr (viradr p) j
        (A.msadscRetAddr st'.alc new ||| flags) = st₁ := by simpa using heq
      have hslot : ∀ a, mem' a = st'.mem a → update mem' p (update (mem' p) j
          (A.msadscRetAddr st'.alc new ||| flags)) a =
          (st'.wr (viradr p) j (A.msadscRetAddr st'.alc new ||| flags)).mem a := by
        intro a ha
        rw [St.wr_table]
        exact slot_agree (hsame p hpage) ha
      refine ⟨_, (bind_of_ok hv _).trans (by rw [St.wr_table, St.wr_table]), fun msa hmsa => hslot _ ?_,
        fun a ha => hslot a (hsame a ha)⟩
      rcases htables msa hmsa with hold | hnew
      · rw [haddr]
        exact hsame _ (hm msa hold)
      · obtain rfl := Option.some.inj hnew
        exact hpage' _ rfl

theorem untransformDire_tables (h : Owns L st rest e) (hk : k < 3) (hp : p ∈ st.lay k) (hj : j < bnd k)
    (hmsa : ∀ m ∈ msa, m ∈ st.mmu.mudDirhead (lvl (k + 1)))
    (heq : untransformDire (lvl (k + 1)) st (viradr p) msa j = .ok (b, st₁)) :
    st₁.addr = st.addr ∧ ∀ msa ∈ st₁.mmu.tables, msa ∈ st.mmu.tables := by
  rcases untransformDire_cases h hk hp hj hmsa with
    ⟨-, heq'⟩ | ⟨-, -, heq'⟩ | ⟨msa₀, alc, hmsa₀, -, -, haddr, -, heq'⟩
  · obtain ⟨-, rfl⟩ : true = b ∧ st = st₁ := by simpa using heq'.symm.trans heq
    exact ⟨rfl, fun _ hmem => hmem⟩
  · obtain ⟨-, rfl⟩ : true = b ∧ st = st₁ := by simpa using heq'.symm.trans heq
    exact ⟨rfl, fun _ hmem => hmem⟩
  · obtain ⟨-, rfl⟩ : true = b ∧ st.unlink alc k p j msa₀ = st₁ := by simpa using heq'.symm.trans heq
    refine ⟨haddr, fun msa hmem => ?_⟩
    exact (st.mmu.del_tables (lvl (k + 1)) hmsa₀).mem_iff.mpr (List.mem_cons_of_mem _ hmem)

theorem untransformDire_twin (h : Owns L st rest e) (hk : k < 3) (hp : p ∈ st.lay k) (hj : j < bnd k)
    (hmsa : ∀ m ∈ msa, m ∈ st.mmu.mudDirhead (lvl (k + 1))) (hm : Twin st mem)
    (heq : untransformDire (lvl (k + 1)) st (viradr p) msa j = .ok (b, st₁)) :
    ∃ mem₁, untransformDire (lvl (k + 1)) { st with mem := mem } (viradr p) msa j =
      .ok (b, { st₁ with mem := mem₁ }) ∧ Follows st st₁ mem mem₁ := by
  obtain ⟨haddr, htables⟩ := untransformDire_tables h hk hp hj hmsa heq
  have hpage := hm.mem_lay hp
  have hok := h.entryOk k hk.le p hp j hj
  unfold untransformDire at heq ⊢
  simp only [St.rd_table, hpage] at heq ⊢
  by_cases hhave : direIsHave (st.mem p j) = true
  · rw [if_pos hhave] at heq ⊢
    have hc := h.child_mem hk hp hj ((direIsHave_iff hok).mp hhave)
    rw [← h.direRetPadr_eq hk hp hj] at hc
    rw [phyadrToViradr_ok (h.lay_lt hc), ok_bind] at heq ⊢
    -- the child is a table, so it is all zero in both memories or in none
    have hzero : ({ st with mem := mem } : St A).isAllzero (viradr (direRetPadr (st.mem p j))) =
        st.isAllzero (viradr (direRetPadr (st.mem p j))) := by
      simp only [St.isAllzero, St.rd_table, hm.mem_lay hc]
    rw [hzero]
    by_cases hall : st.isAllzero (viradr (direRetPadr (st.mem p j))) = true
    · rw [if_pos hall] at heq ⊢
      obtain ⟨⟨rets, st'⟩, hdel, heq⟩ := bind_eq_ok heq
      obtain ⟨hdel', hmem⟩ := delDirearr_twin mem hdel
      rw [bind_of_ok hdel']
      cases rets with
      | true =>
        obtain ⟨rfl, rfl⟩ := pair_inj heq
        refine ⟨_, by rw [if_pos rfl, St.wr_table, St.wr_table], .of_subset hm haddr htables fun a ha => ?_⟩
        rw [St.wr_table]
        exact slot_agree (hpage.trans (congrFun hmem p).symm) (ha.trans (congrFun hmem a).symm)
      | false =>
        obtain ⟨rfl, rfl⟩ := pair_inj heq
        exact ⟨mem, rfl, .of_subset hm haddr htables fun a ha => by rw [hmem, ha]⟩
    · rw [if_neg hall] at heq ⊢
      obtain ⟨rfl, rfl⟩ := pair_inj heq
      exact ⟨mem, rfl, .refl hm⟩
  · rw [if_neg hhave] at heq ⊢
    obtain ⟨rfl, rfl⟩ := pair_inj heq
    exact ⟨mem, rfl, .refl hm⟩

end Level

/-! ### The labels -/

section Labels

variable {v s i : Nat} {smsa imsa mmsa : Option Nat}

theorem untfSdire_twin (h : Owns L st rest e) (hv : UserHalf v) (hsmsa : ∀ m ∈ smsa, m ∈ st.mmu.mudDirhead .s)
    (hm : Twin st mem) (heq : untfSdire st (viradr st.root) smsa v = .ok st₁) :
    ∃ mem₁, untfSdire { st with mem := mem } (viradr st.root) smsa v =
      .ok { st₁ with mem := mem₁ } ∧ Follows st st₁ mem mem₁ := by
  obtain ⟨⟨b, st'⟩, hup, heq⟩ := bind_eq_ok heq
  obtain rfl := Except.ok.inj heq
  obtain ⟨mem₁, hup', hfollows⟩ := untransformDire_twin h (by omega) h.root_mem hv hsmsa hm hup
  exact ⟨mem₁, bind_of_ok hup' _, hfollows⟩

theorem untfIdire_twin (h : Owns L st rest e) (hv : UserHalf v) (hs1 : s ∈ st.lay 1)
    (he : e = s ∨ e = 0 ∨ e = hwFrame (st.mem s (mmuSdireIndex v))) (hsmsa : ∀ m ∈ smsa, m ∈ st.mmu.mudDirhead .s)
    (himsa : ∀ m ∈ imsa, m ∈ st.mmu.mudDirhead .i) (hm : Twin st mem)
    (heq : untfIdire st (viradr st.root) (viradr s) smsa imsa v = .ok st₁) :
    ∃ mem₁, untfIdire { st with mem := mem } (viradr st.root) (viradr s)
      smsa imsa v = .ok { st₁ with mem := mem₁ } ∧ Follows st st₁ mem mem₁ := by
  obtain ⟨b, st', hup, hown, hkeep⟩ := untransformDire_spec h he (by omega) hs1 (hv.path 1 (by omega)) himsa
  obtain ⟨mem', hup', hfollows⟩ := untransformDire_twin h (by omega) hs1 (hv.path 1 (by omega)) himsa hm hup
  replace heq := (bind_of_ok hup _).symm.trans heq
  rw [← hkeep.root_eq] at heq ⊢
  obtain ⟨mem₁, heq', hfollows'⟩ := untfSdire_twin hown hv
    (hkeep.mem_head le_rfl hsmsa) hfollows.twin heq
  exact ⟨mem₁, (bind_of_ok hup' _).trans heq', hfollows.trans hfollows'⟩

theorem untfMdire_twin (h : Owns L st rest e) (hv : UserHalf v) (hs1 : s ∈ st.lay 1)
    (hi : hwFrame (st.mem s (mmuSdireIndex v)) = i) (hi2 : i ∈ st.lay 2)
    (he : e = i ∨ e = 0 ∨ e = hwFrame (st.mem i (mmuIdireIndex v))) (hsmsa : ∀ m ∈ smsa, m ∈ st.mmu.mudDirhead .s)
    (himsa : ∀ m ∈ imsa, m ∈ st.mmu.mudDirhead .i) (hmmsa : ∀ m ∈ mmsa, m ∈ st.mmu.mudDirhead .m) (hm : Twin st mem)
    (heq : untfMdire st (viradr st.root) (viradr s)
      (viradr i) smsa imsa mmsa v = .ok st₁) :
    ∃ mem₁, untfMdire { st with mem := mem } (viradr st.root) (viradr s)
      (viradr i) smsa imsa mmsa v = .ok { st₁ with mem := mem₁ } ∧ Follows st st₁ mem mem₁ := by
  obtain ⟨b, st', hup, hown, hkeep⟩ := untransformDire_spec h he (by omega) hi2 (hv.path 2 (by omega)) hmmsa
  obtain ⟨mem', hup', hfollows⟩ := untransformDire_twin h (by omega) hi2 (hv.path 2 (by omega)) hmmsa hm hup
  replace heq := (bind_of_ok hup _).symm.trans heq
  have hsmem : st'.mem s = st.mem s := hkeep.above 1 (by omega) s hs1
  rw [← hkeep.root_eq] at heq ⊢
  obtain ⟨mem₁, heq', hfollows'⟩ := untfIdire_twin hown hv
    (hkeep.mem_lay (by omega) hs1) (.inr (.inr (by rw [hsmem, hi])))
    (hkeep.mem_head (show 1 ≤ _ by omega) hsmsa)
    (hkeep.mem_head le_rfl himsa) hfollows.twin heq
  exact ⟨mem₁, (bind_of_ok hup' _).trans heq', hfollows.trans hfollows'⟩

theorem follows_writeLeaf {m j entry : Nat} (hm : Twin st mem) (hm3 : m ∈ st.lay 3) :
    Follows st (st.writeLeaf m j entry) mem (update mem m (update (mem m) j entry)) :=
  .of_subset hm rfl (fun _ hmem => hmem) fun _ ha => slot_agree (hm.mem_lay hm3) ha

end Labels

/-! ### The two calls -/

section Calls

variable {v p flags s i : Nat} {smsa imsa : Option Nat} {rets : Bool}

theorem transformMdireOn_twin (h : Owns L st rest i) (hv : UserHalf v) (hs1 : s ∈ st.lay 1)
    (hi : hwFrame (st.mem s (mmuSdireIndex v)) = i) (hi2 : i ∈ st.lay 2)
    (hsmsa : ∀ m ∈ smsa, m ∈ st.mmu.mudDirhead .s) (himsa : ∀ m ∈ imsa, m ∈ st.mmu.mudDirhead .i)
    (hargs : MapArgs p flags) (hm : Twin st mem)
    (heq : transformMdireOn st (viradr st.root) (viradr s)
      (viradr i) smsa imsa v p flags = .ok (rets, st₁)) :
    ∃ mem₁, transformMdireOn { st with mem := mem } (viradr st.root) (viradr s)
      (viradr i) smsa imsa v p flags = .ok (rets, { st₁ with mem := mem₁ }) ∧
        Follows st st₁ mem mem₁ := by
  unfold transformMdireOn at heq ⊢
  rcases mmuTransformMdire_spec h hi2 hv hargs.flags_lt hargs.present with
    ⟨st', hdown, hown, hkeep⟩ | ⟨m, mmsa, st', hdown, hown, hkeep, hm3, hmdir, hmmsa⟩
  · obtain ⟨mem', hdown', hfollows⟩ := transformDire_twin h (by omega) hi2 (hv.path 2 (by omega)) hm hdown
    rw [bind_of_ok hdown] at heq
    obtain ⟨st'', huntf, heq⟩ := bind_eq_ok heq
    obtain ⟨rfl, rfl⟩ := pair_inj heq
    rw [← hkeep.root_eq] at huntf ⊢
    obtain ⟨mem₁, huntf', hfollows'⟩ := untfMdire_twin hown hv (hkeep.mem_lay (by omega) hs1)
      (by rw [hkeep.above 1 (by omega) s hs1, hi]) (hkeep.mem_lay le_rfl hi2) (.inl rfl)
      (hkeep.mem_head (show 1 ≤ _ by omega) hsmsa)
      (hkeep.mem_head le_rfl himsa) (by simp)
      hfollows.twin huntf
    refine ⟨mem₁, ?_, hfollows.trans hfollows'⟩
    exact (bind_of_ok hdown' _).trans (bind_of_ok huntf' _)
  · obtain ⟨mem', hdown', hfollows⟩ := transformDire_twin h (by omega) hi2 (hv.path 2 (by omega)) hm hdown
    rw [bind_of_ok hdown] at heq
    simp only [transformMsaOn, mmuTransformMsa_eq, if_true] at heq
    obtain ⟨rfl, rfl⟩ := pair_inj heq
    refine ⟨_, (bind_of_ok hdown' _).trans ?_, hfollows.trans (follows_writeLeaf hfollows.twin hm3)⟩
    simp only [transformMsaOn, mmuTransformMsa_eq, if_true]
    rfl

theorem transformIdireOn_twin (h : Owns L st rest s) (hv : UserHalf v) (hs1 : s ∈ st.lay 1)
    (hsmsa : ∀ m ∈ smsa, m ∈ st.mmu.mudDirhead .s) (hargs : MapArgs p flags) (hm : Twin st mem)
    (heq : transformIdireOn st (viradr st.root) (viradr s) smsa v p flags =
      .ok (rets, st₁)) :
    ∃ mem₁, transformIdireOn { st with mem := mem } (viradr st.root) (viradr s)
      smsa v p flags = .ok (rets, { st₁ with mem := mem₁ }) ∧ Follows st st₁ mem mem₁ := by
  unfold transformIdireOn at heq ⊢
  rcases mmuTransformIdire_spec h hs1 hv hargs.flags_lt hargs.present with
    ⟨st', hdown, hown, hkeep⟩ | ⟨i, imsa, st', hdown, hown, hkeep, hi2, hi, himsa⟩
  · obtain ⟨mem', hdown', hfollows⟩ := transformDire_twin h (by omega) hs1 (hv.path 1 (by omega)) hm hdown
    rw [bind_of_ok hdown] at heq
    obtain ⟨st'', huntf, heq⟩ := bind_eq_ok heq
    obtain ⟨rfl, rfl⟩ := pair_inj heq
    rw [← hkeep.root_eq] at huntf ⊢
    obtain ⟨mem₁, huntf', hfollows'⟩ := untfIdire_twin hown hv (hkeep.mem_lay le_rfl hs1)
      (.inl rfl) (hkeep.mem_head le_rfl hsmsa)
      (by simp) hfollows.twin huntf
    refine ⟨mem₁, ?_, hfollows.trans hfollows'⟩
    exact (bind_of_ok hdown' _).trans (bind_of_ok huntf' _)
  · obtain ⟨mem', hdown', hfollows⟩ := transformDire_twin h (by omega) hs1 (hv.path 1 (by omega)) hm hdown
    rw [bind_of_ok hdown] at heq
    rw [← hkeep.root_eq] at heq ⊢
    obtain ⟨mem₁, heq', hfollows'⟩ := transformMdireOn_twin hown hv (hkeep.mem_lay le_rfl hs1)
      hi hi2 (hkeep.mem_head le_rfl hsmsa) himsa hargs
      hfollows.twin heq
    exact ⟨mem₁, (bind_of_ok hdown' _).trans heq', hfollows.trans hfollows'⟩

/-- **Mapping a page** over two memories with the same tables. -/
theorem halMmuTransform_twin (h : Owns L st rest 0) (hv : UserHalf v) (hargs : MapArgs p flags) (hm : Twin st mem)
    (heq : halMmuTransform st v p flags = .ok (rets, st₁)) :
    ∃ mem₁, halMmuTransform { st with mem := mem } v p flags = .ok (rets, { st₁ with mem := mem₁ }) ∧
      Follows st st₁ mem mem₁ := by
  have hroot : Owns L st rest st.root := h.setExcept (h.forest.of_zero st.root)
  unfold halMmuTransform halMmuTransformCore at heq ⊢
  rw [if_neg h.tdirearr_ne_zero, h.tdirearr_eq] at heq ⊢
  rcases mmuTransformSdire_spec hroot hv hargs.flags_lt hargs.present with
    ⟨st', hdown, hown, hkeep⟩ | ⟨s, smsa, st', hdown, hown, hkeep, hs1, -, hsmsa⟩
  · obtain ⟨mem', hdown', hfollows⟩ := transformDire_twin hroot (by omega) h.root_mem hv hm hdown
    rw [bind_of_ok hdown] at heq
    obtain ⟨st'', huntf, heq⟩ := bind_eq_ok heq
    obtain ⟨rfl, rfl⟩ := pair_inj heq
    rw [← hkeep.root_eq] at huntf
    obtain ⟨mem₁, huntf', hfollows'⟩ := untfSdire_twin hown hv (by simp) hfollows.twin huntf
    rw [hkeep.root_eq] at huntf'
    refine ⟨mem₁, ?_, hfollows.trans hfollows'⟩
    exact (bind_of_ok hdown' _).trans (bind_of_ok huntf' _)
  · obtain ⟨mem', hdown', hfollows⟩ := transformDire_twin hroot (by omega) h.root_mem hv hm hdown
    rw [bind_of_ok hdown] at heq
    rw [← hkeep.root_eq] at heq
    obtain ⟨mem₁, heq', hfollows'⟩ := transformIdireOn_twin hown hv hs1 hsmsa hargs
      hfollows.twin heq
    rw [hkeep.root_eq] at heq'
    exact ⟨mem₁, (bind_of_ok hdown' _).trans heq', hfollows.trans hfollows'⟩

theorem Twin.owns (hm : Twin st mem) (h : Owns L st rest e) : Owns L { st with mem := mem } rest e := by
  have hothers : Others L (st, rest) ({ st with mem := mem }, rest) := ⟨rfl, rfl, h.inv, hm⟩
  exact hothers.owns h

theorem untransformMdireOn_twin {r : Nat} (h : Owns L st rest 0) (hv : UserHalf v) (hs1 : s ∈ st.lay 1)
    (hi : hwFrame (st.mem s (mmuSdireIndex v)) = i) (hi2 : i ∈ st.lay 2) (hm : Twin st mem)
    (heq : untransformMdireOn st (viradr st.root) (viradr s)
      (viradr i) v = .ok (r, st₁)) :
    ∃ mem₁, untransformMdireOn { st with mem := mem } (viradr st.root) (viradr s)
      (viradr i) v = .ok (r, { st₁ with mem := mem₁ }) ∧ Follows st st₁ mem mem₁ := by
  have hidx : mmuIdireIndex v < bnd 2 := hv.path 2 (by omega)
  have hfind := findDirearr_eq h (by omega) hi2 hidx
  have hfind' := findDirearr_eq (hm.owns h) (by omega) hi2 hidx
  rw [show ({ st with mem := mem } : St A).mem i = st.mem i from hm.mem_lay hi2] at hfind'
  rw [untransformMdireOn, mmuFindMdirearr, bind_of_ok hfind] at heq
  rw [untransformMdireOn, mmuFindMdirearr, bind_of_ok hfind']
  by_cases hm0 : hwFrame (st.mem i (mmuIdireIndex v)) = 0
  · simp only [if_pos hm0] at heq ⊢
    obtain ⟨st', huntf, heq⟩ := bind_eq_ok heq
    obtain ⟨rfl, rfl⟩ := pair_inj heq
    obtain ⟨mem₁, huntf', hfollows⟩ := untfIdire_twin h hv hs1 (.inr (.inl rfl)) (by simp) (by simp) hm huntf
    exact ⟨mem₁, bind_of_ok huntf' _, hfollows⟩
  · simp only [if_neg hm0] at heq ⊢
    have hm3 := h.child_mem (by omega) hi2 hidx hm0
    obtain ⟨m, hmdir⟩ : ∃ m, hwFrame (st.mem i (mmuIdireIndex v)) = m := ⟨_, rfl⟩
    rw [hmdir] at hm3 heq ⊢
    rw [mmuUntransformMsa_eq h hm3] at heq
    rw [mmuUntransformMsa_eq (hm.owns h) hm3]
    obtain ⟨st', huntf, heq⟩ := bind_eq_ok heq
    obtain ⟨rfl, rfl⟩ := pair_inj heq
    obtain ⟨hown, -⟩ := h.writeLeaf (j := mmuMdireIndex v) (.inr rfl) hm3 (.inl rfl) (.inl rfl)
    have hleaf : Follows st (st.writeLeaf m (mmuMdireIndex v) 0) mem _ := follows_writeLeaf hm hm3
    obtain ⟨mem₁, huntf', hfollows⟩ := untfMdire_twin hown hv hs1
      (by rw [h.writeLeaf_above hm3 (by omega) hs1, hi]) hi2
      (.inr (.inr (by rw [h.writeLeaf_above hm3 (by omega) hi2, hmdir]))) (by simp) (by simp) (by simp) hleaf.twin huntf
    refine ⟨mem₁, (bind_of_ok huntf' _).trans ?_, hleaf.trans hfollows⟩
    rw [show ({ st with mem := mem } : St A).mem m = st.mem m from hm.mem_lay hm3]

theorem untransformIdireOn_twin {r : Nat} (h : Owns L st rest 0) (hv : UserHalf v) (hs1 : s ∈ st.lay 1)
    (hm : Twin st mem)
    (heq : untransformIdireOn st (viradr st.root) (viradr s) v = .ok (r, st₁)) :
    ∃ mem₁, untransformIdireOn { st with mem := mem } (viradr st.root)
      (viradr s) v = .ok (r, { st₁ with mem := mem₁ }) ∧ Follows st st₁ mem mem₁ := by
  have hidx : mmuSdireIndex v < bnd 1 := hv.path 1 (by omega)
  have hfind := findDirearr_eq h (by omega) hs1 hidx
  have hfind' := findDirearr_eq (hm.owns h) (by omega) hs1 hidx
  rw [show ({ st with mem := mem } : St A).mem s = st.mem s from hm.mem_lay hs1] at hfind'
  rw [untransformIdireOn, mmuFindIdirearr, bind_of_ok hfind] at heq
  rw [untransformIdireOn, mmuFindIdirearr, bind_of_ok hfind']
  by_cases hi0 : hwFrame (st.mem s (mmuSdireIndex v)) = 0
  · simp only [if_pos hi0] at heq ⊢
    obtain ⟨st', huntf, heq⟩ := bind_eq_ok heq
    obtain ⟨rfl, rfl⟩ := pair_inj heq
    obtain ⟨mem₁, huntf', hfollows⟩ := untfSdire_twin h hv (by simp) hm huntf
    exact ⟨mem₁, bind_of_ok huntf' _, hfollows⟩
  · simp only [if_neg hi0] at heq ⊢
    exact untransformMdireOn_twin h hv hs1 rfl (h.child_mem (by omega) hs1 hidx hi0) hm heq

/-- **Unmapping a page** over two memories with the same tables. -/
theorem halMmuUntransform_twin {r : Nat} (h : Owns L st rest 0) (hv : UserHalf v) (hm : Twin st mem)
    (heq : halMmuUntransform st v = .ok (r, st₁)) :
    ∃ mem₁, halMmuUntransform { st with mem := mem } v = .ok (r, { st₁ with mem := mem₁ }) ∧
      Follows st st₁ mem mem₁ := by
  have hidx : mmuTdireIndex v < bnd 0 := hv.path 0 (by omega)
  have hne : ¬viradr st.root = 0 := by
    unfold viradr krnlMapVirtaddressStart
    omega
  have hfind := findDirearr_eq h (by omega) h.root_mem hidx
  have hfind' := findDirearr_eq (hm.owns h) (by omega) h.root_mem hidx
  rw [show ({ st with mem := mem } : St A).mem st.root = st.mem st.root from hm.mem_lay h.root_mem] at hfind'
  unfold halMmuUntransform halMmuUntransformCore at heq ⊢
  simp only [h.tdirearr_eq, mmuFindSdirearr, if_neg hne] at heq ⊢
  rw [bind_of_ok hfind] at heq
  rw [bind_of_ok hfind']
  by_cases hs0 : hwFrame (st.mem st.root (mmuTdireIndex v)) = 0
  · simp only [if_pos hs0] at heq ⊢
    obtain ⟨rfl, rfl⟩ := pair_inj heq
    exact ⟨mem, rfl, .refl hm⟩
  · simp only [if_neg hs0] at heq ⊢
    exact untransformIdireOn_twin h hv (h.child_mem (by omega) h.root_mem hidx hs0) hm heq

theorem Twin.lookup_eq (hm : Twin st mem) (h : Owns L st rest 0) (hv : UserHalf v) :
    lookup { st with mem := mem } v = lookup st v := by
  have hothers : Others L (st, rest) ({ st with mem := mem }, rest) := ⟨rfl, rfl, h.inv, hm⟩
  exact hothers.lookup_eq h hv

end Calls

end Cosmos.Mmu
