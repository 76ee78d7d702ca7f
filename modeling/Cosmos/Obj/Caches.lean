import Cosmos.Obj.Runs

/-!
# The caches and the counts of the object allocator

`ol_cahe` is part of the invariant of its class; `ks_msobche` is not read by any call, and only its writes matter for
it. A call either leaves it and unlinks nothing (`Grew`), or writes it together with the `ol_cahe` of the class
(`Stored`), or destroys the `kmsob_t` of a class and clears it if it names that one.
-/

namespace Cosmos.Obj

open Cosmos.Lib Halt Cosmos.Page

variable {A : PageAlloc} {L : Lawful A} {rest : List Blk} {st st' st'' : St A} {live : Nat → List Nat} {i p : Nat}

def CheOk (st : St A) : Prop :=
  ∀ p, st.mgr.ksMsobche = some p → ∃ i < koblstMax, p ∈ (st.mgr.ksMsoblst i).olEmplst

/-- `ks_msobche` is as before, and what was on a list still is. -/
structure Grew (st st' : St A) : Prop where
  msobche : st'.mgr.ksMsobche = st.mgr.ksMsobche
  emplst : ∀ j, (st.mgr.ksMsoblst j).olEmplst ⊆ (st'.mgr.ksMsoblst j).olEmplst

def Stored (st : St A) : Prop :=
  ∃ i < koblstMax, ∃ p, st.mgr.ksMsobche = some p ∧ (st.mgr.ksMsoblst i).olCahe = some p

theorem Grew.of_mgr (h : st'.mgr = st.mgr) : Grew st st' where
  msobche := by rw [h]
  emplst := fun j => by rw [h]; exact fun _ hq => hq

theorem Grew.trans (h : Grew st st') (h' : Grew st' st'') : Grew st st'' where
  msobche := h'.msobche.trans h.msobche
  emplst := fun j _ hq => h'.emplst j (h.emplst j hq)

theorem CheOk.of_grew (h : CheOk st) (hgrew : Grew st st') : CheOk st' := by
  intro p hp
  rw [hgrew.msobche] at hp
  obtain ⟨i, hi, hmem⟩ := h p hp
  exact ⟨i, hi, hgrew.emplst i hmem⟩

theorem stored_updataCache (hi : i < koblstMax) : Stored (kmsobUpdataCache st i p) :=
  ⟨i, hi, p, rfl, by simp [kmsobUpdataCache, St.setKoblst]⟩

/-- The `ol_cahe` of a class is on its list, so a `ks_msobche` written with it is on one. -/
theorem Inv.cheOk (h : Inv L rest st live) (hstored : Stored st) : CheOk st := by
  obtain ⟨i, hi, p, hche, hcahe⟩ := hstored
  intro q hq
  obtain rfl : p = q := Option.some.inj (hche.symm.trans hq)
  rcases h.cls i hi with ⟨hbare, -⟩ | ⟨q, hhas, hcahe', -⟩
  · rw [hbare.cahe] at hcahe
    cases hcahe
  · obtain rfl : q = p := Option.some.inj (hcahe'.symm.trans hcahe)
    refine ⟨i, hi, ?_⟩
    rw [hhas.emplst]
    exact List.mem_singleton_self q

/-! ### Allocating -/

theorem kmsobAddKoblst_grew (kmsp : Nat) : Grew st (kmsobAddKoblst st i kmsp).2 := by
  unfold kmsobAddKoblst
  split_ifs
  · exact .of_mgr rfl
  · refine ⟨rfl, fun j q hq => ?_⟩
    by_cases hj : j = i
    · subst hj
      simp [St.setKoblst, hq]
    · simpa [St.setKoblst, hj] using hq

theorem createKmsob_grew {objsz : Nat} {r : Option Nat} (h : createKmsob st i objsz = .ok (r, st')) : Grew st st' := by
  unfold createKmsob at h
  split_ifs at h
  · cases h
    exact .of_mgr rfl
  obtain ⟨⟨given, alc⟩, -, h⟩ := bind_eq_ok h
  match given with
  | none =>
    cases h
    exact .of_mgr rfl
  | some (msa, relpnr) =>
    simp only at h
    split_ifs at h
    obtain ⟨⟨vadrs, vadre⟩, -, h⟩ := bind_eq_ok h
    simp only at h
    split at h
    · -- the header does not fit and the pages go back
      obtain ⟨⟨rets, alc'⟩, -, h⟩ := bind_eq_ok h
      simp only at h
      split_ifs at h
      cases h
      exact .of_mgr rfl
    · split_ifs at h
      cases h
      have hadd : Grew (({ st with alc := alc } : St A).setKmsob vadrs ‹Kmsob›)
          (kmsobAddKoblst (({ st with alc := alc } : St A).setKmsob vadrs ‹Kmsob›) i vadrs).2 :=
            kmsobAddKoblst_grew vadrs
      exact ⟨hadd.msobche, hadd.emplst⟩

theorem kmsobExtnPages_grew {rets : Bool} (h : kmsobExtnPages st p = .ok (rets, st')) : Grew st st' := by
  unfold kmsobExtnPages at h
  simp only at h
  split_ifs at h
  · cases h
    exact .of_mgr rfl
  obtain ⟨⟨given, alc⟩, -, h⟩ := bind_eq_ok h
  match given with
  | none =>
    cases h
    exact .of_mgr rfl
  | some (msa, relpnr) =>
    simp only at h
    split_ifs at h
    · -- no list takes a run of this length and the pages go back
      obtain ⟨⟨vadrs, vadre⟩, -, h⟩ := bind_eq_ok h
      obtain ⟨⟨rets', alc'⟩, -, h⟩ := bind_eq_ok h
      simp only at h
      split_ifs at h
      cases h
      exact .of_mgr rfl
    · obtain ⟨⟨vadrs, vadre⟩, -, h⟩ := bind_eq_ok h
      cases h
      exact .of_mgr rfl

theorem kmsobNewOpkmsob_grew (msz : Nat) : Grew st (kmsobNewOpkmsob st p msz).2 := by
  unfold kmsobNewOpkmsob
  simp only
  split_ifs
  · exact .of_mgr rfl
  · split
    · exact .of_mgr rfl
    · exact .of_mgr rfl

theorem kmsobNewOnkmsob_grew {msz : Nat} {r : Option Nat} (h : kmsobNewOnkmsob st p msz = .ok (r, st')) :
    Grew st st' := by
  unfold kmsobNewOnkmsob at h
  split_ifs at h
  · cases h
    exact .of_mgr rfl
  obtain ⟨objnr, -, h⟩ := bind_eq_ok h
  simp only at h
  split_ifs at h
  · obtain ⟨⟨rets, mid⟩, hextn, h⟩ := bind_eq_ok h
    have hgrew := kmsobExtnPages_grew hextn
    cases rets with
    | false =>
      cases h
      exact hgrew
    | true =>
      have hop : Grew mid (kmsobNewOpkmsob mid p msz).2 := kmsobNewOpkmsob_grew msz
      rw [Except.ok.inj h] at hop
      exact hgrew.trans hop
  · have hop : Grew st (kmsobNewOpkmsob st p msz).2 := kmsobNewOpkmsob_grew msz
    rw [Except.ok.inj h] at hop
    exact hop

theorem retnOrCreateKmsob_grew {msz : Nat} {r : Option Nat} (h : retnOrCreateKmsob st i msz = .ok (r, st')) :
    Grew st st' := by
  unfold retnOrCreateKmsob at h
  split at h
  · cases h
    exact .of_mgr rfl
  · exact createKmsob_grew h

theorem onmszRetnKoblst_lt {msz : Nat} (h : onmszRetnKoblst st msz = some i) : i < koblstMax := by
  unfold onmszRetnKoblst at h
  split_ifs at h
  exact List.mem_range.mp (List.mem_of_find?_eq_some h)

theorem kmsobNew_caches {msz : Nat} {r : Option Nat} (h : kmsobNew st msz = .ok (r, st')) :
    Grew st st' ∨ Stored st' := by
  unfold kmsobNew kmsobNewCore at h
  split_ifs at h
  · cases h
    exact .inl (.of_mgr rfl)
  split at h
  · cases h
    exact .inl (.of_mgr rfl)
  · next kli hkli =>
    obtain ⟨⟨kmsp, mid⟩, hfound, h⟩ := bind_eq_ok h
    have hgrew := retnOrCreateKmsob_grew hfound
    cases kmsp with
    | none =>
      cases h
      exact .inl hgrew
    | some kmsp =>
      obtain ⟨⟨retptr, mid'⟩, hnew, h⟩ := bind_eq_ok h
      cases retptr with
      | none =>
        cases h
        exact .inl (hgrew.trans (kmsobNewOnkmsob_grew hnew))
      | some retptr =>
        cases h
        exact .inr (stored_updataCache (onmszRetnKoblst_lt hkli))

/-! ### Freeing -/

theorem CheOk.destroyed {alc' : A.State} (h : CheOk st) : CheOk (destroyed st i p alc') := by
  have hche : (Obj.destroyed st i p alc').mgr.ksMsobche =
      if st.mgr.ksMsobche = some p then none else st.mgr.ksMsobche := rfl
  intro q hq
  rw [hche] at hq
  by_cases hsame : st.mgr.ksMsobche = some p
  · rw [if_pos hsame] at hq
    cases hq
  rw [if_neg hsame] at hq
  have hne : q ≠ p := by
    rintro rfl
    exact hsame hq
  obtain ⟨j, hj, hmem⟩ := h q hq
  refine ⟨j, hj, ?_⟩
  by_cases hji : j = i
  · subst hji
    simpa [Obj.destroyed, kmsobUpdataCacheDsy, St.setKoblst] using (List.mem_erase_of_ne hne).mpr hmem
  · simpa [Obj.destroyed, kmsobUpdataCacheDsy, St.setKoblst, hji] using hmem

theorem destroyKmsobCore_cheOk {rets : Bool} (h : destroyKmsobCore st i p = .ok (rets, st')) (hche : CheOk st) :
    CheOk st' := by
  unfold destroyKmsobCore at h
  simp only at h
  by_cases hbad : (st.kmsob p).mcKmobinpnr < 1 ∨ (st.kmsob p).mcKmobinlst = []
  · rw [if_pos hbad] at h
    cases h
    exact hche
  rw [if_neg hbad] at h
  obtain ⟨alc, -, h⟩ := bind_eq_ok h
  obtain ⟨alc', -, h⟩ := bind_eq_ok h
  cases h
  exact hche.destroyed

theorem destroyKmsob_caches {rets : Bool} (hi : i < koblstMax) (h : destroyKmsob st i p = .ok (rets, st'))
    (hche : CheOk st) : CheOk st' ∨ Stored st' := by
  unfold destroyKmsob at h
  split_ifs at h
  · cases h
    exact .inl hche
  split at h
  · cases h
  · cases h
    exact .inr (stored_updataCache hi)
  · exact .inl (destroyKmsobCore_cheOk h hche)

theorem kmsobDelOpkmsob_mgr (fadrs fsz : Nat) : (kmsobDelOpkmsob st p fadrs fsz).2.mgr = st.mgr := by
  unfold kmsobDelOpkmsob
  simp only
  split_ifs <;> rfl

theorem kmsobDelete_caches {fadrs fsz : Nat} {rets : Bool} (h : kmsobDelete st fadrs fsz = .ok (rets, st'))
    (hche : CheOk st) : CheOk st' ∨ Stored st' := by
  unfold kmsobDelete kmsobDeleteCore at h
  split_ifs at h
  · cases h
    exact .inl hche
  split at h
  · cases h
    exact .inl hche
  · next kli hkli =>
    obtain ⟨kmsp, -, h⟩ := bind_eq_ok h
    cases kmsp with
    | none =>
      cases h
      exact .inl hche
    | some kmsp =>
      have hmgr : (kmsobDelOpkmsob st kmsp fadrs fsz).2.mgr = st.mgr := kmsobDelOpkmsob_mgr fadrs fsz
      obtain ⟨done, mid, hop⟩ : ∃ done mid, kmsobDelOpkmsob st kmsp fadrs fsz = (done, mid) := ⟨_, _, rfl⟩
      rw [hop] at hmgr
      simp only [hop] at h
      have hmid := hche.of_grew (.of_mgr hmgr)
      cases done with
      | false =>
        cases h
        exact .inl hmid
      | true => exact destroyKmsob_caches (onmszRetnKoblst_lt hkli) h hmid

/-! ### Runs -/

theorem inv_cheOk_step {c : Call} {x y : St A × (Nat → List Nat)} (h : Inv L rest x.1 x.2 ∧ CheOk x.1)
    (hstep : Step (fun st live a s => ¬ Misfree st live a s) x c y) : Inv L rest y.1 y.2 ∧ CheOk y.1 := by
  have hinv := inv_step h.1 hstep
  refine ⟨hinv, ?_⟩
  obtain ⟨-, heq⟩ := hstep
  cases c with
  | new msz =>
    obtain ⟨r, hnew, heq⟩ := bind_eq_ok heq
    cases heq
    rcases kmsobNew_caches hnew with hgrew | hstored
    · exact h.2.of_grew hgrew
    · exact hinv.cheOk hstored
  | delete fadrs fsz =>
    obtain ⟨r, hdel, heq⟩ := bind_eq_ok heq
    cases heq
    rcases kmsobDelete_caches hdel h.2 with hche | hstored
    · exact hche
    · exact hinv.cheOk hstored

/-- What the caches and the counts say about the lists and about the objects in use. -/
structure Counted (L : Lawful A) (rest : List Blk) (st : St A) (live : Nat → List Nat) : Prop where
  msobche : ∀ p, st.mgr.ksMsobche = some p → ∃ i < koblstMax, p ∈ (st.mgr.ksMsoblst i).olEmplst
  cahe : ∀ i < koblstMax, ∀ p, (st.mgr.ksMsoblst i).olCahe = some p →
    p ∈ (st.mgr.ksMsoblst i).olEmplst ∧ (st.kmsob p).soObjsz = (st.mgr.ksMsoblst i).olSz
  allocated : L.Inv st.alc (total st.blocks ++ rest)
  linked : ∀ i < koblstMax, ∀ p ∈ (st.mgr.ksMsoblst i).olEmplst, ∃ b ∈ total st.blocks, vadr st.addr b.1 = p
  emnr : ∀ i < koblstMax, (st.mgr.ksMsoblst i).olEmnr = (st.mgr.ksMsoblst i).olEmplst.length ∧
    (st.mgr.ksMsoblst i).olEmnr ≤ 1
  msobnr : st.mgr.ksMsobnr = (total fun i => (st.mgr.ksMsoblst i).olEmplst).length
  once : ∀ i < koblstMax, ∀ j < koblstMax, ∀ p ∈ (st.mgr.ksMsoblst i).olEmplst, p ∈ (st.mgr.ksMsoblst j).olEmplst →
    i = j
  fobjnr : ∀ i < koblstMax, ∀ p ∈ (st.mgr.ksMsoblst i).olEmplst, (st.kmsob p).soFobjnr = (st.kmsob p).soFrelst.length
  mobjnr : ∀ i < koblstMax, ∀ p ∈ (st.mgr.ksMsoblst i).olEmplst,
    (st.kmsob p).soMobjnr = (st.kmsob p).soFobjnr + (live i).length ∧ ∀ a ∈ live i, a ∈ (st.kmsob p).objs

theorem Inv.counted (h : Inv L rest st live) (hche : CheOk st) : Counted L rest st live where
  msobche := hche
  cahe := by
    intro i hi p hp
    rcases h.cls i hi with ⟨hbare, -⟩ | ⟨q, hhas, hcahe, -⟩
    · rw [hbare.cahe] at hp
      cases hp
    · obtain rfl : q = p := Option.some.inj (hcahe.symm.trans hp)
      obtain ⟨⟨own, exts, hmade⟩, -⟩ := hhas.ok
      rw [hhas.emplst, hhas.sz]
      exact ⟨List.mem_singleton_self q, hmade.objsz⟩
  allocated := h.alc
  linked := by
    intro i hi p hp
    obtain ⟨b, hb, hadr⟩ := h.exists_block hi hp
    exact ⟨b, (total_perm hi st.blocks).mem_iff.mpr (List.mem_append_left _ hb), hadr⟩
  emnr := by
    intro i hi
    rcases h.cls i hi with ⟨hbare, -⟩ | ⟨p, hhas, -, -⟩
    · rw [hbare.emnr, hbare.emplst]
      exact ⟨rfl, Nat.zero_le 1⟩
    · rw [hhas.emnr, hhas.emplst]
      exact ⟨rfl, le_rfl⟩
  msobnr := h.msobnr
  once := by
    intro i hi j hj p hpi hpj
    by_contra hne
    obtain ⟨b, hb, hadr⟩ := h.exists_block hi hpi
    obtain ⟨c, hc, hadr'⟩ := h.exists_block hj hpj
    have hapart := vadr_ne_of_append (h.split hi) hb
      (List.mem_append_left rest (mem_totalBut hj (Ne.symm hne) hc))
    exact hapart (hadr.trans hadr'.symm)
  fobjnr := fun i hi p hp => (h.worksOf hi hp).has.ok.2.fobjnr
  mobjnr := by
    intro i hi p hp
    obtain ⟨-, hfilled⟩ := (h.worksOf hi hp).has.ok
    have hlen := hfilled.perm.length_eq
    rw [List.length_append] at hlen
    refine ⟨?_, fun a ha => hfilled.perm.mem_iff.mp (List.mem_append_left _ ha)⟩
    rw [hfilled.mobjnr, hfilled.fobjnr]
    omega

/-- **Caches and counts**: in every run that frees objects in use, each cache is `NULL` or names a `kmsob_t` still
linked in a live page run, `ol_cahe` one of its own class, and every count is that of the list it counts. -/
theorem counted_of_run {alc : A.State} {kmsob : Nat → Kmsob} {calls : List Call} {y : St A × (Nat → List Nat)}
    (halc : L.Inv alc rest) (hrun : Trace (Step fun _ live a s => IsLive live a s) (initKmsob alc kmsob) calls y) :
    Counted L rest y.1 y.2 := by
  have hstart : CheOk (initKmsob alc kmsob).1 := fun p hp => by cases hp
  obtain ⟨hinv, hche⟩ := (run_of_live hrun).keeps (J := fun x => Inv L rest x.1 x.2 ∧ CheOk x.1)
    (fun _ _ _ h hstep => inv_cheOk_step h hstep) ⟨inv_initKmsob kmsob halc, hstart⟩
  exact hinv.counted hche

/-- With one of two objects freed both caches name the `kmsob_t` of the class. -/
theorem counted_of_two_news : ∃ y, Trace (Step fun _ live a s => IsLive live a s) bumpBoot
      [.new 32, .new 32, .delete 0xffff800000001fd0 32] y ∧
    y.1.mgr.ksMsobche = some 0xffff800000001000 ∧ Counted bumpLawful [] y.1 y.2 := by
  obtain ⟨y, hrun, hche⟩ := run_of_two_objects (f := fun y => y.1.mgr.ksMsobche) (b := some 0xffff800000001000)
    (by decide +kernel)
  exact ⟨y, hrun, hche, counted_of_run bumpInv_zero hrun⟩

end Cosmos.Obj
