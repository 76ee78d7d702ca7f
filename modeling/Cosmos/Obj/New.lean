import Cosmos.Obj.Invariant
import Cosmos.Page.Division

/-!
# Allocating an object

`kmsob_new` finds the class's `kmsob_t` or makes one, gives it another page run when it has no free object, and hands
out the first free object. What each part does to one class is a lemma over that class and the other live blocks;
`kmsobNew_spec` puts the class back among the others.
-/

namespace Cosmos.Obj

open Cosmos.Lib Halt Cosmos.Page Function

variable {A : PageAlloc} {L : Lawful A} {rest l : List Blk} {st st' st'' : St A} {live : Nat → List Nat} {i p : Nat}
  {objs : List Nat}

/-! ### Classes and cached `kmsob_t` -/

theorem classOf_lt {msz : Nat} (h : msz ≤ 2048) : classOf msz < koblstMax := by
  unfold classOf koblstMax
  omega

theorem le_sizeOf_classOf {msz : Nat} (h : 1 ≤ msz) : msz ≤ sizeOf (classOf msz) := by
  unfold sizeOf classOf
  omega

theorem ClassOk.sz (h : ClassOk st i objs) : (st.mgr.ksMsoblst i).olSz = sizeOf i := by
  rcases h with ⟨hbare, -⟩ | ⟨p, hhas, -, -⟩
  · exact hbare.sz
  · exact hhas.sz

theorem onmszRetnKoblst_eq {msz : Nat} (h : ∀ i < koblstMax, (st.mgr.ksMsoblst i).olSz = sizeOf i) (h1 : 1 ≤ msz)
    (h2 : msz ≤ 2048) : onmszRetnKoblst st msz = some (classOf msz) := by
  have hlt := classOf_lt h2
  unfold onmszRetnKoblst
  rw [if_neg (by omega), List.find?_range_eq_some]
  refine ⟨?_, List.mem_range.mpr hlt, fun j hj => ?_⟩
  · rw [decide_eq_true_iff, h _ hlt]
    exact le_sizeOf_classOf h1
  · rw [Bool.not_eq_true', decide_eq_false_iff_not, h j (by omega)]
    unfold classOf at hj
    unfold sizeOf
    omega

theorem Has.scanNew {msz : Nat} (h : Has st i p objs) (h1 : 1 ≤ msz) (hmsz : msz ≤ sizeOf i) :
    scanNewkmsobIsok st (some p) msz = some p := by
  obtain ⟨⟨msa, exts, hmade⟩, -⟩ := h.ok
  have hle : msz ≤ (st.kmsob p).soObjsz := by
    rw [hmade.objsz]
    exact hmsz
  unfold scanNewkmsobIsok
  simp only
  rw [if_neg (by omega), if_pos hle]

theorem Has.retnNew {msz : Nat} (h : Has st i p objs) (hcahe : (st.mgr.ksMsoblst i).olCahe = some p) (h1 : 1 ≤ msz)
    (hmsz : msz ≤ sizeOf i) : onkoblstRetnNewkmsob st i msz = some p := by
  unfold onkoblstRetnNewkmsob
  simp only
  rw [if_neg (by omega), hcahe, h.scanNew h1 hmsz]

theorem Bare.retnNew {msz : Nat} (h : Bare st i) : onkoblstRetnNewkmsob st i msz = none := by
  unfold onkoblstRetnNewkmsob
  simp [h.cahe, h.emnr, scanNewkmsobIsok]

/-! ### What a call on one class touches -/

/-- Only class `i` and the `kmsob_t` at `p` change. -/
structure Touch (st st' : St A) (i p : Nat) : Prop where
  koblst : ∀ j ≠ i, st'.mgr.ksMsoblst j = st.mgr.ksMsoblst j
  kmsob : ∀ q ≠ p, st'.kmsob q = st.kmsob q
  addr : st'.addr = st.addr
  msobnr : st'.mgr.ksMsobnr + (st.mgr.ksMsoblst i).olEmplst.length =
    st.mgr.ksMsobnr + (st'.mgr.ksMsoblst i).olEmplst.length

theorem Touch.trans (h : Touch st st' i p) (h' : Touch st' st'' i p) : Touch st st'' i p where
  koblst := fun j hj => (h'.koblst j hj).trans (h.koblst j hj)
  kmsob := fun q hq => (h'.kmsob q hq).trans (h.kmsob q hq)
  addr := h'.addr.trans h.addr
  msobnr := by
    have h1 := h.msobnr
    have h2 := h'.msobnr
    omega

theorem Touch.toLocal {s : A.State} {own : List Blk} {b : Blk} (hinv : Inv L rest st live) (h : Touch st st' i p)
    (halc : L.Inv s (own ++ (totalBut i st.blocks ++ rest))) (haddr : A.msadscRetAddr s = st.addr) (hb : b ∈ own)
    (hp : vadr st.addr b.1 = p) : Local st st' i where
  koblst := h.koblst
  kmsob := fun j hj hne q hq => by
    refine h.kmsob q fun heq => ?_
    obtain ⟨c, hc, hadr⟩ := hinv.exists_block hj hq
    have hdiff := vadr_ne_of_append halc hb (List.mem_append_left rest (mem_totalBut hj hne hc))
    rw [haddr, hp, hadr] at hdiff
    exact hdiff heq.symm
  addr := h.addr
  msobnr := h.msobnr

/-! ### Making a `kmsob_t` -/

section Create

variable {addr : Nat → Nat} {msa : Nat}

theorem runVadrs_eq {s : A.State} {b : Blk} (hpos : 0 < b.2)
    (hlow : A.msadscRetAddr s b.1 + b.2 * 0x1000 ≤ krnlMapPhyaddressEnd) :
    runVadrs s b.1 b.2 = .ok (vadr (A.msadscRetAddr s) b.1, vade (A.msadscRetAddr s) b) := by
  have hmul : b.2 * pagesize = b.2 * 0x1000 := rfl
  have hstart : phyadrToViradr (A.msadscRetAddr s b.1) = .ok (vadr (A.msadscRetAddr s) b.1) :=
    phyadrToViradr_ok (by omega)
  have hend : phyadrToViradr (A.msadscRetAddr s b.1 + b.2 * pagesize - 1) = .ok (vade (A.msadscRetAddr s) b) := by
    rw [phyadrToViradr_ok (by omega)]
    refine congrArg Except.ok ?_
    unfold vade vadr
    omega
  unfold runVadrs
  simp only
  rw [bind_of_ok hstart, bind_of_ok hend]

theorem run_size {b : Blk} (hpos : 0 < b.2) (hlow : addr b.1 + b.2 * 0x1000 ≤ krnlMapPhyaddressEnd) :
    u64 (u64Sub (vade addr b) (vadr addr b.1) + 1) = b.2 * pagesize := by
  have hend := vade_eq addr hpos
  have hmul : b.2 * pagesize = b.2 * 0x1000 := rfl
  have hnum : krnlMapVirtaddressStart + krnlMapPhyaddressEnd < 2 ^ 64 := by decide
  have hle : vadr addr b.1 ≤ vade addr b := by
    unfold vadr at *
    omega
  rw [u64Sub_of_le hle (by omega), u64_of_lt (by omega)]
  unfold vadr
  omega

theorem createInitKmsob_spec (hi : i < koblstMax) (hlow : addr msa + pnrOf i * 0x1000 ≤ krnlMapPhyaddressEnd) :
    ∃ k, createInitKmsob (sizeOf i) (vadr addr msa) (vade addr (msa, pnrOf i)) msa (pnrOf i) = some k ∧
      Made addr (vadr addr msa) i k msa [] ∧ Filled k [] ∧ k.soFrelst ≠ [] := by
  have hpos := pnrOf_pos i
  have hsz := sizeOf_pos i
  have hhead := header_add_le hi
  have hsize : u64 (u64Sub (vade addr (msa, pnrOf i)) (vadr addr msa) + 1) = pnrOf i * pagesize :=
    run_size (b := (msa, pnrOf i)) hpos hlow
  have hend := vade_eq (b := (msa, pnrOf i)) addr hpos
  have hvirt : 0 < krnlMapVirtaddressStart := by decide
  have hmul : pnrOf i * pagesize = pnrOf i * 0x1000 := rfl
  have hpage : pagesize = 0x1000 := rfl
  have hkm : sizeofKmsob = 368 := rfl
  have hfre : sizeofFreobjh = 32 := rfl
  have hge : 32 ≤ sizeOf i := by
    unfold sizeOf
    omega
  have hadr : vadr addr msa = krnlMapVirtaddressStart + addr msa := rfl
  simp only at hend
  unfold createInitKmsob
  rw [if_neg (by omega), if_neg (by omega), hsize, if_neg (by omega), if_neg (by omega)]
  simp only [carveLoop_eq hsz _ _ _ _ le_rfl, List.append_nil, Nat.zero_add]
  refine ⟨_, rfl, ⟨rfl, rfl, rfl, rfl, rfl, rfl, rfl, rfl, fun j => ?_⟩, ⟨?_, ?_, ?_⟩, ?_⟩
  · by_cases hj : j = mscidxOf i
    · rw [if_pos hj]
      rfl
    · rw [if_neg hj]
      rfl
  · simp only [Kmsob.objs, Kmsob.runs, allSlots, List.map_nil, List.flatMap_cons, List.flatMap_nil, List.append_nil,
      List.nil_append]
    exact List.reverse_perm _
  · simp [Kmsob.objs, Kmsob.runs, allSlots]
  · simp
  · -- the first object fits behind the header
    intro hnil
    have hnone := List.reverse_eq_nil_iff.mp hnil
    rw [slots_eq_cons hsz (by omega)] at hnone
    cases hnone

end Create

/-- A request for pages that the page allocator refuses changes nothing a class sees. -/
structure Refused (L : Lawful A) (l : List Blk) (st st' : St A) : Prop where
  alc : L.Inv st'.alc l
  addr : st'.addr = st.addr
  same : st' = { st with alc := st'.alc }

/-- A class at work: its `kmsob_t` at `p` and its blocks among the live ones, the others being `l`. -/
structure Works (L : Lawful A) (l : List Blk) (st : St A) (i p : Nat) (objs : List Nat) : Prop where
  has : Has st i p objs
  alc : L.Inv st.alc ((st.kmsob p).blocks ++ l)
  low : ∀ b ∈ (st.kmsob p).blocks, st.addr b.1 + b.2 * 0x1000 ≤ krnlMapPhyaddressEnd

theorem Works.reach (h : Works L l st i p objs) : Reach st.addr (st.kmsob p).blocks := reach_of_inv h.alc h.low

theorem pnrOf_pow (i : Nat) : 2 ^ Nat.clog 2 (pnrOf i) = pnrOf i := by
  rw [← two_pow_mscidxOf, Nat.clog_pow _ _ (by omega)]

theorem division_spec {s : A.State} (i : Nat) (h : L.Inv s l) :
    ∃ s', A.msadscRetAddr s' = A.msadscRetAddr s ∧
      ((A.mmDivisionPages s (pnrOf i) maTypeKrnl dmfReldiv = .ok (none, s') ∧ L.Inv s' l) ∨
        ∃ msa, A.mmDivisionPages s (pnrOf i) maTypeKrnl dmfReldiv = .ok (some (msa, pnrOf i), s') ∧
          A.msadscRetAddr s msa + pnrOf i * 0x1000 ≤ krnlMapPhyaddressEnd ∧ L.Inv s' ((msa, pnrOf i) :: l)) := by
  obtain ⟨r, s', heq, haddr, hgrants⟩ := L.division (pnrOf i) maTypeKrnl h (pnrOf_pos i)
  refine ⟨s', haddr, ?_⟩
  cases r with
  | none => exact .inl ⟨heq, hgrants⟩
  | some b =>
    obtain ⟨msa, n⟩ := b
    obtain ⟨hn, hlow, hinv⟩ := hgrants
    rw [pnrOf_pow] at hn
    simp only at hn
    subst hn
    exact .inr ⟨msa, heq, hlow rfl, hinv⟩

theorem createKmsob_spec (hi : i < koblstMax) (hbare : Bare st i) (halc : L.Inv st.alc l) :
    ∃ r st', createKmsob st i (sizeOf i) = .ok (r, st') ∧
      ((r = none ∧ Refused L l st st') ∨
        ∃ p, r = some p ∧ Works L l st' i p [] ∧ Touch st st' i p ∧ (st'.kmsob p).soFrelst ≠ []) := by
  have hpos := pnrOf_pos i
  have hsz := sizeOf_pos i
  obtain ⟨alc', haddr, ⟨heq, hinv⟩ | ⟨msa, heq, hlow, hinv⟩⟩ := division_spec i halc
  · refine ⟨none, { st with alc := alc' }, ?_, .inl ⟨rfl, hinv, haddr, rfl⟩⟩
    unfold createKmsob
    rw [if_neg (by omega), show pagesFor (sizeOf i) = pnrOf i from rfl, bind_of_ok heq]
  · have hlow' : A.msadscRetAddr alc' msa + pnrOf i * 0x1000 ≤ krnlMapPhyaddressEnd := by rwa [haddr]
    obtain ⟨k, hk, hmade, hfilled, hne⟩ := createInitKmsob_spec hi hlow'
    have hrun := runVadrs_eq (b := (msa, pnrOf i)) hpos hlow'
    simp only at hrun
    generalize hp : vadr (A.msadscRetAddr alc') msa = p at *
    have hcreate : createKmsob st i (sizeOf i) = .ok (some p,
        { alc := alc'
          mgr :=
            { ksMsobnr := st.mgr.ksMsobnr + 1
              ksMsobche := st.mgr.ksMsobche
              ksMsoblst := update st.mgr.ksMsoblst i
                { st.mgr.ksMsoblst i with
                  olEmplst := p :: (st.mgr.ksMsoblst i).olEmplst
                  olEmnr := (st.mgr.ksMsoblst i).olEmnr + 1 } }
          kmsob := update st.kmsob p k }) := by
      unfold createKmsob
      rw [if_neg (by omega), show pagesFor (sizeOf i) = pnrOf i from rfl, bind_of_ok heq]
      simp only
      rw [if_neg (by omega), bind_of_ok hrun]
      have hadd : kmsobAddKoblst (St.setKmsob { st with alc := alc' } p k) i p =
          (true, (St.setKmsob { st with alc := alc' } p k).setKoblst i fun koblp =>
            { koblp with olEmplst := p :: koblp.olEmplst, olEmnr := koblp.olEmnr + 1 }) := by
        refine if_neg ?_
        simp [St.setKmsob, hmade.objsz, hbare.sz]
      rw [← hbare.sz] at hk
      simp only [hk, hadd, if_true]
      rfl
    have hblocks : k.blocks = [(msa, pnrOf i)] := by
      rw [hmade.blocks_eq]
      rfl
    refine ⟨_, _, hcreate, .inr ⟨p, rfl, ⟨⟨?_, ?_, ?_, ?_, ?_⟩, ?_, ?_⟩, ⟨?_, ?_, haddr, ?_⟩, ?_⟩⟩
    · simpa using hbare.sz
    · simp [hbare.emplst]
    · simp [hbare.emnr]
    · exact .inl (by simpa using hbare.cahe)
    · show KmsobOk (A.msadscRetAddr alc') p i (update st.kmsob p k p) []
      rw [update_self]
      exact ⟨⟨msa, [], hmade⟩, hfilled⟩
    · simpa [hblocks] using hinv
    · intro b hb
      simp only [update_self, hblocks, List.mem_singleton] at hb
      subst hb
      exact hlow'
    · intro j hj
      exact update_of_ne hj _ _
    · intro q hq
      exact update_of_ne hq _ _
    · simp [hbare.emplst]
    · simpa using hne

/-! ### Another page run -/

section Extend

variable {addr : Nat → Nat} {k : Kmsob} {msa own : Nat} {exts : List Nat}

theorem Made.addExt (h : Made addr p i k own exts) :
    Made addr p i (addExt k p msa (mscidxOf i) (vadr addr msa) (vade addr (msa, pnrOf i))) own (msa :: exts) where
  objsz := h.objsz
  adr := h.adr
  vstat := h.vstat
  vend := h.vend
  mextlst := by
    simp only [Obj.addExt, h.objsz, carveLoop_eq (sizeOf_pos i) _ _ _ _ le_rfl, Nat.zero_add, h.mextlst, List.map_cons]
    rfl
  mextnr := by
    simp only [Obj.addExt, h.mextnr, List.length_cons]
  own := h.own
  ownnr := h.ownnr
  lst := fun j => by
    by_cases hj : j = mscidxOf i
    · subst hj
      simp [Obj.addExt, h.lst]
    · simp [Obj.addExt, h.lst, hj]

theorem Filled.addExt (h : Filled k objs) (hmade : Made addr p i k own exts) :
    Filled (addExt k p msa (mscidxOf i) (vadr addr msa) (vade addr (msa, pnrOf i))) objs := by
  have hcarve := carveLoop_eq (sizeOf_pos i) _ (vadr addr msa + sizeofKmbext) k.soFrelst 0
    (le_refl (vade addr (msa, pnrOf i) - (vadr addr msa + sizeofKmbext)))
  rw [Nat.zero_add] at hcarve
  generalize hnew : slots (vadr addr msa + sizeofKmbext) (vade addr (msa, pnrOf i)) (sizeOf i) = new at hcarve
  have hobjs : (Obj.addExt k p msa (mscidxOf i) (vadr addr msa) (vade addr (msa, pnrOf i))).objs.Perm
      (new ++ k.objs) := by
    simp only [Obj.addExt, Kmsob.objs, Kmsob.runs, allSlots, hmade.objsz, List.map_cons, List.flatMap_cons, hnew]
    rw [← List.append_assoc, ← List.append_assoc]
    exact List.perm_append_comm.append_right _
  refine ⟨?_, ?_, ?_⟩
  · refine List.Perm.trans ?_ hobjs.symm
    simp only [Obj.addExt, hmade.objsz, hcarve]
    calc objs ++ (new.reverse ++ k.soFrelst)
        _ = objs ++ new.reverse ++ k.soFrelst := (List.append_assoc _ _ _).symm
        List.Perm _ (new.reverse ++ objs ++ k.soFrelst) := List.perm_append_comm.append_right _
        _ = new.reverse ++ (objs ++ k.soFrelst) := List.append_assoc _ _ _
        List.Perm _ (new ++ k.objs) := (List.reverse_perm new).append h.perm
  · rw [hobjs.length_eq, List.length_append]
    simp only [Obj.addExt, hmade.objsz, hcarve, h.mobjnr]
    omega
  · simp only [Obj.addExt, hmade.objsz, hcarve, h.fobjnr, List.length_append, List.length_reverse]
    omega

theorem Made.addExt_frelst (hi : i < koblstMax) (h : Made addr p i k own exts) :
    (Obj.addExt k p msa (mscidxOf i) (vadr addr msa) (vade addr (msa, pnrOf i))).soFrelst ≠ [] := by
  have hhead := header_add_le hi
  have hend := vade_eq (b := (msa, pnrOf i)) addr (pnrOf_pos i)
  have hmul : pnrOf i * pagesize = pnrOf i * 0x1000 := rfl
  have hpage : pagesize = 0x1000 := rfl
  have hkm : sizeofKmsob = 368 := rfl
  have hext : sizeofKmbext = 48 := rfl
  have hadr : vadr addr msa = krnlMapVirtaddressStart + addr msa := rfl
  simp only at hend
  simp only [Obj.addExt, h.objsz, carveLoop_eq (sizeOf_pos i) _ _ _ _ le_rfl]
  rw [slots_eq_cons (sizeOf_pos i) (by omega)]
  simp

end Extend

theorem retnMscidx_pnrOf (i : Nat) : retnMscidx (pnrOf i) = mscidxOf i := by
  unfold retnMscidx
  rw [retnDivoder_eq (pnrOf_pos i), ← two_pow_mscidxOf, Nat.clog_pow _ _ (by omega)]

theorem kmsobExtnPages_spec (hi : i < koblstMax) (h : Works L l st i p objs) :
    ∃ r st', kmsobExtnPages st p = .ok (r, st') ∧
      ((r = false ∧ Refused L ((st.kmsob p).blocks ++ l) st st') ∨
        (r = true ∧ Works L l st' i p objs ∧ Touch st st' i p ∧ st'.mgr = st.mgr ∧ (st'.kmsob p).soFrelst ≠ [])) := by
  have hpos := pnrOf_pos i
  obtain ⟨⟨own, exts, hmade⟩, hfilled⟩ := h.has.ok
  unfold kmsobExtnPages
  simp only [hmade.objsz]
  by_cases hfull : uintMax ≤ (st.kmsob p).soMobjnr ∨ uintMax ≤ (st.kmsob p).soMextnr ∨ uintMax ≤ (st.kmsob p).soFobjnr
  · rw [if_pos hfull]
    exact ⟨false, st, rfl, .inl ⟨rfl, h.alc, rfl, rfl⟩⟩
  rw [if_neg hfull]
  obtain ⟨alc', haddr, ⟨heq, hinv⟩ | ⟨msa, heq, hlow, hinv⟩⟩ := division_spec i h.alc
  · refine ⟨false, { st with alc := alc' }, ?_, .inl ⟨rfl, hinv, haddr, rfl⟩⟩
    exact bind_of_ok heq _
  · have hlow' : A.msadscRetAddr alc' msa + pnrOf i * 0x1000 ≤ krnlMapPhyaddressEnd := by rwa [haddr]
    have hrun := runVadrs_eq (b := (msa, pnrOf i)) hpos hlow'
    simp only at hrun
    have hidx := mscidxOf_lt i
    have hmsc : (msclstMax : Int) = 5 := rfl
    have hmade' : Made (A.msadscRetAddr alc') p i (st.kmsob p) own exts := hmade.congr haddr
    have hblocks : (addExt (st.kmsob p) p msa (mscidxOf i) (vadr (A.msadscRetAddr alc') msa)
        (vade (A.msadscRetAddr alc') (msa, pnrOf i))).blocks = (msa, pnrOf i) :: (st.kmsob p).blocks := by
      rw [hmade'.addExt.blocks_eq, hmade.blocks_eq]
      rfl
    refine ⟨true, St.setKmsob { st with alc := alc' } p (addExt (st.kmsob p) p msa (mscidxOf i)
      (vadr (A.msadscRetAddr alc') msa) (vade (A.msadscRetAddr alc') (msa, pnrOf i))), ?_,
      .inr ⟨rfl, ⟨⟨h.has.sz, h.has.emplst, h.has.emnr, h.has.cahe, ?_⟩, ?_, ?_⟩,
        ⟨fun _ _ => rfl, fun q hq => ?_, haddr, rfl⟩, rfl, ?_⟩⟩
    · rw [show pagesFor (sizeOf i) = pnrOf i from rfl, bind_of_ok heq]
      simp only
      rw [if_neg (by omega), bind_of_ok hrun]
      simp only [retnMscidx_pnrOf]
      rw [if_neg (by omega)]
      rfl
    · simp only [St.setKmsob, update_self]
      exact ⟨⟨own, msa :: exts, hmade'.addExt⟩, hfilled.addExt hmade'⟩
    · simp only [St.setKmsob, update_self, hblocks]
      exact hinv
    · intro b hb
      simp only [St.setKmsob, update_self, hblocks, List.mem_cons] at hb
      rcases hb with rfl | hb
      · exact hlow'
      · show A.msadscRetAddr alc' b.1 + b.2 * 0x1000 ≤ krnlMapPhyaddressEnd
        rw [haddr]
        exact h.low b hb
    · exact update_of_ne hq _ _
    · simp only [St.setKmsob, update_self]
      exact hmade'.addExt_frelst hi

/-! ### Handing an object out -/

theorem Made.of_frelst {addr : Nat → Nat} {k : Kmsob} {msa : Nat} {exts frelst : List Nat} {fobjnr : Nat}
    (h : Made addr p i k msa exts) : Made addr p i { k with soFrelst := frelst, soFobjnr := fobjnr } msa exts :=
  ⟨h.objsz, h.adr, h.vstat, h.vend, h.mextlst, h.mextnr, h.own, h.ownnr, h.lst⟩

theorem kmsobNewOpkmsob_spec {msz : Nat} (hi : i < koblstMax) (h : Works L l st i p objs) (h1 : 1 ≤ msz)
    (hmsz : msz ≤ sizeOf i) (hfree : (st.kmsob p).soFrelst ≠ []) :
    ∃ a st', kmsobNewOpkmsob st p msz = (some a, st') ∧ Works L l st' i p (a :: objs) ∧ Touch st st' i p ∧
      st'.mgr = st.mgr := by
  obtain ⟨⟨own, exts, hmade⟩, hfilled⟩ := h.has.ok
  obtain ⟨a, frelst, hlist⟩ := List.exists_cons_of_ne_nil hfree
  have hhead := header_add_le hi
  have hfobj : 1 ≤ (st.kmsob p).soFobjnr := by
    rw [hfilled.fobjnr, hlist]
    simp
  have hmobj : 1 ≤ (st.kmsob p).soMobjnr := by
    rw [hfilled.mobjnr, ← hfilled.perm.length_eq, hlist, List.length_append, List.length_cons]
    omega
  have hsize : u64 (u64Sub (st.kmsob p).soVend (st.kmsob p).soVstat + 1) = pnrOf i * pagesize := by
    rw [hmade.vend, hmade.vstat, hmade.adr]
    refine run_size (b := (own, pnrOf i)) (pnrOf_pos i) (h.low _ ?_)
    rw [hmade.blocks_eq]
    simp
  have hscan : scanNmszkmsobIsok (st.kmsob p) msz = true := by
    have hkm : sizeofKmsob = 368 := rfl
    have hfre : sizeofFreobjh = 32 := rfl
    have hge : 32 ≤ sizeOf i := by
      unfold sizeOf
      omega
    have hmul : pnrOf i * pagesize = pnrOf i * 0x1000 := rfl
    have hpage : pagesize = 0x1000 := rfl
    have hpos := pnrOf_pos i
    unfold scanNmszkmsobIsok
    rw [if_neg (by omega), if_neg (by omega), hmade.objsz, if_neg (by omega), hsize, if_neg (by omega), if_neg hfree]
  refine ⟨a, st.setKmsob p { st.kmsob p with soFrelst := frelst, soFobjnr := (st.kmsob p).soFobjnr - 1 }, ?_,
    ⟨⟨h.has.sz, h.has.emplst, h.has.emnr, h.has.cahe, ?_⟩, ?_, ?_⟩,
    ⟨fun _ _ => rfl, fun q hq => update_of_ne hq _ _, rfl, rfl⟩, rfl⟩
  · unfold kmsobNewOpkmsob
    simp only [hscan, hlist]
    rfl
  · simp only [St.setKmsob, update_self]
    refine ⟨⟨own, exts, hmade.of_frelst⟩, ⟨?_, hfilled.mobjnr, ?_⟩⟩
    · have hperm := hfilled.perm
      rw [hlist] at hperm
      exact List.perm_middle.symm.trans hperm
    · have hnr := hfilled.fobjnr
      rw [hlist, List.length_cons] at hnr
      simp only
      omega
  · simp only [St.setKmsob, update_self]
    exact h.alc
  · simp only [St.setKmsob, update_self]
    exact h.low

theorem kmsobNewOnkmsob_spec {msz : Nat} (hi : i < koblstMax) (h : Works L l st i p objs) (h1 : 1 ≤ msz)
    (hmsz : msz ≤ sizeOf i) :
    ∃ r st', kmsobNewOnkmsob st p msz = .ok (r, st') ∧
      ((r = none ∧ (st.kmsob p).soFrelst = [] ∧ Refused L ((st.kmsob p).blocks ++ l) st st') ∨
        ∃ a, r = some a ∧ Works L l st' i p (a :: objs) ∧ Touch st st' i p ∧ st'.mgr = st.mgr) := by
  obtain ⟨⟨own, exts, hmade⟩, hfilled⟩ := h.has.ok
  unfold kmsobNewOnkmsob
  rw [if_neg (by omega)]
  have hcount : scanKmsobObjnr (st.kmsob p) = .ok (st.kmsob p).soFrelst.length := by
    unfold scanKmsobObjnr
    rw [hfilled.fobjnr]
    cases hlist : (st.kmsob p).soFrelst with
    | nil => simp
    | cons a frelst => simp
  rw [bind_of_ok hcount]
  by_cases hfree : (st.kmsob p).soFrelst = []
  · rw [if_pos (by simp [hfree])]
    obtain ⟨r, mid, heq, ⟨rfl, href⟩ | ⟨rfl, hworks, htouch, hmgr, hne⟩⟩ := kmsobExtnPages_spec hi h
    · exact ⟨none, mid, bind_of_ok heq _, .inl ⟨rfl, hfree, href⟩⟩
    · obtain ⟨a, st', hnew, hworks', htouch', hmgr'⟩ := kmsobNewOpkmsob_spec hi hworks h1 hmsz hne
      refine ⟨some a, st', ?_, .inr ⟨a, rfl, hworks', htouch.trans htouch', hmgr'.trans hmgr⟩⟩
      rw [bind_of_ok heq]
      simp only [if_true, hnew]
  · have hlen := List.length_pos_iff.mpr hfree
    rw [if_neg (by omega)]
    obtain ⟨a, st', hnew, hworks', htouch', hmgr'⟩ := kmsobNewOpkmsob_spec hi h h1 hmsz hfree
    exact ⟨some a, st', by rw [hnew], .inr ⟨a, rfl, hworks', htouch', hmgr'⟩⟩

/-! ### The whole call -/

theorem Works.blocks (h : Works L l st i p objs) : st.blocks i = (st.kmsob p).blocks := h.has.blocks

theorem Inv.works (h : Inv L rest st live) (hi : i < koblstMax) (hhas : Has st i p objs) :
    Works L (totalBut i st.blocks ++ rest) st i p objs where
  has := hhas
  alc := hhas.blocks ▸ h.split hi
  low := fun b hb => h.low b ((total_perm hi st.blocks).mem_iff.mpr (List.mem_append_left _ (hhas.blocks.symm ▸ hb)))

theorem Has.congr (h : Has st i p objs) (hmgr : st'.mgr = st.mgr) (hkmsob : st'.kmsob = st.kmsob)
    (haddr : st'.addr = st.addr) : Has st' i p objs :=
  ⟨hmgr ▸ h.sz, hmgr ▸ h.emplst, hmgr ▸ h.emnr, hmgr ▸ h.cahe, by rw [hkmsob, haddr]; exact h.ok⟩

theorem Inv.withAlc {alc : A.State} {rest' : List Blk} (h : Inv L rest st live)
    (halc : L.Inv alc (total st.blocks ++ rest')) (haddr : A.msadscRetAddr alc = st.addr) :
    Inv L rest' { st with alc := alc } live where
  cls := fun j hj => by
    rcases h.cls j hj with ⟨hbare, hnil⟩ | ⟨p, hhas, hcahe, hne⟩
    · exact .inl ⟨⟨hbare.sz, hbare.emplst, hbare.emnr, hbare.cahe⟩, hnil⟩
    · exact .inr ⟨p, hhas.congr rfl rfl haddr, hcahe, hne⟩
  msobnr := h.msobnr
  alc := halc
  low := fun b hb => by
    have hlow := h.low b hb
    rw [← haddr] at hlow
    exact hlow

theorem Inv.refused (h : Inv L rest st live) (hi : i < koblstMax)
    (href : Refused L (st.blocks i ++ (totalBut i st.blocks ++ rest)) st st') : Inv L rest st' live := by
  rw [href.same]
  refine h.withAlc (L.perm href.alc ?_) href.addr
  rw [← List.append_assoc]
  exact ((total_perm hi st.blocks).append_right rest).symm

theorem Works.updataCache (h : Works L l st i p objs) :
    Works L l (kmsobUpdataCache st i p) i p objs ∧ Touch st (kmsobUpdataCache st i p) i p ∧
      ((kmsobUpdataCache st i p).mgr.ksMsoblst i).olCahe = some p := by
  refine ⟨⟨⟨?_, ?_, ?_, .inr ?_, h.has.ok⟩, h.alc, h.low⟩, ⟨fun j hj => ?_, fun _ _ => rfl, rfl, ?_⟩, ?_⟩
  · simpa [kmsobUpdataCache, St.setKoblst] using h.has.sz
  · simpa [kmsobUpdataCache, St.setKoblst] using h.has.emplst
  · simpa [kmsobUpdataCache, St.setKoblst] using h.has.emnr
  · simp [kmsobUpdataCache, St.setKoblst]
  · exact update_of_ne hj _ _
  · simp [kmsobUpdataCache, St.setKoblst]
  · simp [kmsobUpdataCache, St.setKoblst]

theorem Inv.of_works (h : Inv L rest st live) (hi : i < koblstMax)
    (hworks : Works L (totalBut i st.blocks ++ rest) st' i p objs) (htouch : Touch st st' i p)
    (hcahe : (st'.mgr.ksMsoblst i).olCahe = some p) (hne : objs ≠ []) :
    Inv L rest st' (Function.update live i objs) := by
  obtain ⟨⟨own, exts, hmade⟩, -⟩ := hworks.has.ok
  have hlocal : Local st st' i := by
    refine htouch.toLocal h hworks.alc htouch.addr (b := (own, pnrOf i)) ?_ ?_
    · rw [hmade.blocks_eq]
      simp
    · rw [← htouch.addr]
      exact hmade.adr.symm
  refine h.update hi hlocal (.inr ⟨p, hworks.has, hcahe, hne⟩) ?_ ?_
  · rw [hworks.blocks]
    exact hworks.alc
  · rw [hworks.blocks]
    exact hworks.low

/-- What a call of `kmsob_new` leaves: nothing handed out and the objects in use as before, or one more in use. -/
def NewSpec (L : Lawful A) (rest : List Blk) (live : Nat → List Nat) (msz : Nat) : Option Nat × St A → Prop
  | (none, st') => Inv L rest st' live
  | (some a, st') => 1 ≤ msz ∧ msz ≤ 2048 ∧
      Inv L rest st' (update live (classOf msz) (a :: live (classOf msz)))

theorem newOn_spec {msz : Nat} {mid : St A} (h : Inv L rest st live) (hi : i < koblstMax) (h1 : 1 ≤ msz)
    (hmsz : msz ≤ sizeOf i) (hworks : Works L (totalBut i st.blocks ++ rest) mid i p objs) (htouch : Touch st mid i p) :
    ∃ r st', kmsobNewOnkmsob mid p msz = .ok (r, st') ∧
      ((r = none ∧ (mid.kmsob p).soFrelst = [] ∧
          Refused L ((mid.kmsob p).blocks ++ (totalBut i st.blocks ++ rest)) mid st') ∨
        ∃ a, r = some a ∧ Inv L rest (kmsobUpdataCache st' i p) (update live i (a :: objs))) := by
  obtain ⟨r, st', heq, hnone | ⟨a, rfl, hworks', htouch', -⟩⟩ := kmsobNewOnkmsob_spec hi hworks h1 hmsz
  · exact ⟨r, st', heq, .inl hnone⟩
  · obtain ⟨hcache, htouchc, hcahe⟩ := hworks'.updataCache
    refine ⟨some a, st', heq, .inr ⟨a, rfl, ?_⟩⟩
    exact h.of_works hi hcache ((htouch.trans htouch').trans htouchc) hcahe (List.cons_ne_nil _ _)

/-- **`kmsob_new`** returns, and hands out nothing or one more object of its class. -/
theorem kmsobNew_spec (h : Inv L rest st live) (msz : Nat) :
    ∃ r st', kmsobNew st msz = .ok (r, st') ∧ NewSpec L rest live msz (r, st') := by
  unfold kmsobNew
  by_cases hbad : msz < 1 ∨ 2048 < msz
  · rw [if_pos hbad]
    exact ⟨none, st, rfl, h⟩
  rw [if_neg hbad]
  have h1 : 1 ≤ msz := by omega
  have h2 : msz ≤ 2048 := by omega
  have hi := classOf_lt h2
  have hle := le_sizeOf_classOf h1
  unfold kmsobNewCore
  rw [onmszRetnKoblst_eq (fun j hj => (h.cls j hj).sz) h1 h2]
  simp only
  generalize hcls : classOf msz = i at *
  unfold retnOrCreateKmsob
  rcases h.cls i hi with ⟨hbare, hnil⟩ | ⟨p, hhas, hcahe, hne⟩
  · -- the class has to make its `kmsob_t`
    have halc : L.Inv st.alc (totalBut i st.blocks ++ rest) := by
      have hsplit := h.split hi
      rwa [hbare.blocks] at hsplit
    obtain ⟨r, mid, heq, ⟨rfl, href⟩ | ⟨p, rfl, hworks, htouch, hfree⟩⟩ := createKmsob_spec hi hbare halc
    · refine ⟨none, mid, ?_, ?_⟩
      · rw [hbare.retnNew]
        simp only [hbare.sz]
        rw [bind_of_ok heq]
      · refine h.refused hi (i := i) ?_
        rw [hbare.blocks]
        exact href
    · obtain ⟨r, st', hnew, ⟨-, hnone, -⟩ | ⟨a, rfl, hinv⟩⟩ := newOn_spec h hi h1 hle hworks htouch
      · exact absurd hnone hfree
      · refine ⟨some a, kmsobUpdataCache st' i p, ?_, h1, h2, ?_⟩
        · rw [hbare.retnNew]
          simp only [hbare.sz]
          rw [bind_of_ok heq]
          simp only
          rw [bind_of_ok hnew]
        · rw [hcls, hnil]
          exact hinv
  · have hworks := h.works hi hhas
    have htouch : Touch st st i p := ⟨fun _ _ => rfl, fun _ _ => rfl, rfl, rfl⟩
    obtain ⟨r, st', hnew, ⟨rfl, -, href⟩ | ⟨a, rfl, hinv⟩⟩ := newOn_spec h hi h1 hle hworks htouch
    · refine ⟨none, st', ?_, ?_⟩
      · rw [hhas.retnNew hcahe h1 hle]
        simp only
        rw [ok_bind]
        simp only
        rw [bind_of_ok hnew]
      · refine h.refused hi (i := i) ?_
        rw [hhas.blocks]
        exact href
    · refine ⟨some a, kmsobUpdataCache st' i p, ?_, h1, h2, ?_⟩
      · rw [hhas.retnNew hcahe h1 hle]
        simp only
        rw [ok_bind]
        simp only
        rw [bind_of_ok hnew]
      · rw [hcls]
        exact hinv

end Cosmos.Obj
