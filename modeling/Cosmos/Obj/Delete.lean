import Cosmos.Obj.New

/-!
# Freeing an object

`kmsob_delete` looks only at addresses: it takes what is the start of a slot of the class's `kmsob_t` for an object
(`Accepts`), whether it is in use or not, as long as some object of the class is. Sums of the address and the size wrap,
so an address in the last bytes of the address space passes the range tests as well. What is not accepted changes
nothing; an object in use is accepted, and with the last one the `kmsob_t` gives its page runs back.
-/

namespace Cosmos.Obj

open Cosmos.Lib Halt Cosmos.Page Function

variable {A : PageAlloc} {L : Lawful A} {rest l : List Blk} {st st' : St A} {live : Nat → List Nat} {i p a s : Nat}
  {objs : List Nat}

/-! ### What the scans accept -/

/-- `a` is a slot of the `kmsob_t` at `p`, or `s` bytes from `a` on wrap around and `a` has the right remainder. -/
def Accepts (k : Kmsob) (p a s : Nat) : Prop :=
  a ∈ k.objs ∨ (2 ^ 64 < a + s ∧ k.soObjsz ∣ a - (p + sizeofKmsob))

def inRuns (k : Kmsob) (a s : Nat) : Bool := k.runs.any fun r => inRun r.fo r.hi k.soObjsz a s

def onRuns (k : Kmsob) (a s : Nat) : Bool :=
  match k.runs.find? fun r => onRun r.lo r.hi a s with
  | some r => scanFadrskmsobIsok r.fo r.hi a k.soObjsz
  | none => false

theorem scanDelExts_eq {objsz : Nat} (exts : List Kmbext) (hexts : ∀ e ∈ exts, e.mtKmsb = p) :
    scanDelExts p objsz a s exts = .ok (exts.any fun e => inRun (e.mtVstat + sizeofKmbext) e.mtVend objsz a s) := by
  induction exts with
  | nil => rfl
  | cons e exts ih =>
    unfold scanDelExts
    rw [if_neg (by simp [hexts e (by simp)]), ih fun e he => hexts e (by simp [he]), List.any_cons]
    by_cases hin : inRun (e.mtVstat + sizeofKmbext) e.mtVend objsz a s = true
    · rw [if_pos hin, hin]
      rfl
    · rw [if_neg hin, Bool.eq_false_iff.mpr hin]
      rfl

section Scans

variable {addr : Nat → Nat} {k : Kmsob} {own : Nat} {exts : List Nat}

theorem Made.mtKmsb (h : Made addr p i k own exts) : ∀ e ∈ k.soMextlst, e.mtKmsb = p := by
  intro e he
  rw [h.mextlst] at he
  obtain ⟨m, -, rfl⟩ := List.mem_map.mp he
  rfl

theorem Made.mextnr_eq (h : Made addr p i k own exts) : k.soMextnr = k.soMextlst.length := by
  rw [h.mextnr, h.mextlst, List.length_map]

theorem scanDelkmsobIsok_eq (h : Made addr p i (st.kmsob p) own exts) (ha : a ≠ 0) (hs : 1 ≤ s) :
    scanDelkmsobIsok st (some p) a s = .ok (if inRuns (st.kmsob p) a s then some p else none) := by
  unfold scanDelkmsobIsok inRuns Kmsob.runs
  simp only
  rw [if_neg (by omega), List.any_cons]
  by_cases hin : inRun ((st.kmsob p).soVstat + sizeofKmsob) (st.kmsob p).soVend (st.kmsob p).soObjsz a s = true
  · rw [if_pos hin, hin]
    rfl
  · rw [if_neg hin, Bool.eq_false_iff.mpr hin, Bool.false_or, List.any_map]
    by_cases hnr : (st.kmsob p).soMextnr < 1
    · rw [if_pos hnr]
      have hnil : (st.kmsob p).soMextlst = [] := by
        rw [h.mextnr_eq] at hnr
        exact List.length_eq_zero_iff.mp (by omega)
      rw [hnil]
      rfl
    · rw [if_neg hnr, bind_of_ok (scanDelExts_eq _ h.mtKmsb)]
      rfl

theorem scanDfszkmsobIsok_eq (h : Made addr p i k own exts) (ha : a ≠ 0) (hs : 1 ≤ s) (hnr : k.soFobjnr < uintMax) :
    scanDfszkmsobIsok k p a s = onRuns k a s := by
  unfold scanDfszkmsobIsok onRuns Kmsob.runs
  rw [if_neg (by omega), if_neg (by omega)]
  by_cases hon : onRun k.soVstat k.soVend a s = true
  · rw [if_pos hon, List.find?_cons_of_pos (p := fun r : Run => onRun r.lo r.hi a s) hon, h.vstat]
  · rw [if_neg hon, List.find?_cons_of_neg (p := fun r : Run => onRun r.lo r.hi a s) hon, List.find?_map]
    by_cases hext : 0 < k.soMextnr
    · rw [if_pos hext]
      simp only [Function.comp_def]
      cases k.soMextlst.find? fun e => onRun e.mtVstat e.mtVend a s with
      | none => rfl
      | some e => rfl
    · rw [if_neg hext]
      have hnil : k.soMextlst = [] := by
        rw [h.mextnr_eq] at hext
        exact List.length_eq_zero_iff.mp (by omega)
      rw [hnil]
      rfl

theorem scanFadrs_iff {fostat vend objsz : Nat} (hsz : 0 < objsz) (hwrap : a + objsz < 2 ^ 64) :
    scanFadrskmsobIsok fostat vend a objsz = true ↔ a ∈ slots fostat vend objsz := by
  unfold scanFadrskmsobIsok
  rw [decide_eq_true_iff, u64_of_lt hwrap, mem_slots hsz, Nat.dvd_iff_mod_eq_zero]

theorem Made.run_virt (h : Made addr p i k own exts) (hreach : Reach addr k.blocks) {r : Run} (hr : r ∈ k.runs) :
    krnlMapVirtaddressStart ≤ r.lo ∧ r.hi < krnlMapVirtaddressEnd := by
  rw [h.blocks_eq] at hreach
  rw [h.runs_eq] at hr
  rcases List.mem_cons.mp hr with rfl | hr
  · exact hreach.run_bounds (b := (own, pnrOf i)) (by simp)
  · obtain ⟨m, hm, rfl⟩ := List.mem_map.mp hr
    exact hreach.run_bounds (b := (m, pnrOf i)) (by simp [hm])

theorem scans_iff_of_lt (hi : i < koblstMax) (h : Made addr p i k own exts) (hreach : Reach addr k.blocks) (hs : 1 ≤ s)
    (hle : s ≤ sizeOf i) (hwrap : a + s < 2 ^ 64) :
    (inRuns k a s = true ∧ onRuns k a s = true) ↔ a ∈ k.objs := by
  have hsz := sizeOf_pos i
  have hmax := sizeOf_le hi
  have hnum : krnlMapVirtaddressEnd + 2048 < 2 ^ 64 := by decide
  have hruns := h.runsOk hreach
  have hin : ∀ r : Run, inRun r.fo r.hi k.soObjsz a s = true ↔ r.fo ≤ a ∧ a + s ≤ r.hi := by
    intro r
    unfold inRun
    rw [decide_eq_true_iff, u64_of_lt hwrap, h.objsz]
    omega
  have hon : ∀ r : Run, onRun r.lo r.hi a s = true ↔ r.lo ≤ a ∧ a + s - 1 ≤ r.hi := by
    intro r
    unfold onRun
    rw [decide_eq_true_iff, u64_of_lt hwrap, u64Sub_of_le (by omega) hwrap]
  have hobj : ∀ r ∈ k.runs, r.lo ≤ a → a ≤ r.hi →
      (scanFadrskmsobIsok r.fo r.hi a k.soObjsz = true ↔ a ∈ k.objs) := by
    intro r hr hlo hhi
    have hvirt := h.run_virt hreach hr
    rw [h.objsz, scanFadrs_iff hsz (by omega)]
    unfold Kmsob.objs
    rw [h.objsz, hruns.mem_allSlots_iff hsz hr hlo hhi]
  unfold onRuns
  constructor
  · rintro ⟨-, hacc⟩
    split at hacc
    · next r hfind =>
      obtain ⟨hlo, hhi⟩ := (hon r).mp (List.find?_some (p := fun r : Run => onRun r.lo r.hi a s) hfind)
      exact (hobj r (List.mem_of_find?_eq_some hfind) hlo (by omega)).mp hacc
    · cases hacc
  · intro hmem
    obtain ⟨r, hr, har⟩ := mem_allSlots.mp hmem
    rw [h.objsz] at har
    obtain ⟨hfo, hend, -⟩ := (mem_slots hsz).mp har
    have hlo := hruns.le r hr
    refine ⟨List.any_eq_true.mpr ⟨r, hr, (hin r).mpr ⟨hfo, by omega⟩⟩, ?_⟩
    have hsome : (k.runs.find? fun r => onRun r.lo r.hi a s).isSome := by
      refine List.find?_isSome.mpr ⟨r, hr, ?_⟩
      exact (hon r).mpr ⟨hlo.trans hfo, by omega⟩
    obtain ⟨r', hfind⟩ := Option.isSome_iff_exists.mp hsome
    rw [hfind]
    obtain ⟨hlo', hhi'⟩ := (hon r').mp (List.find?_some (p := fun r : Run => onRun r.lo r.hi a s) hfind)
    exact (hobj r' (List.mem_of_find?_eq_some hfind) hlo' (by omega)).mpr hmem

theorem scans_iff_of_gt (hi : i < koblstMax) (h : Made addr p i k own exts) (hreach : Reach addr k.blocks)
    (hle : s ≤ sizeOf i) (ha : a < 2 ^ 64) (hwrap : 2 ^ 64 < a + s) :
    (inRuns k a s = true ∧ onRuns k a s = true) ↔ k.soObjsz ∣ a - (p + sizeofKmsob) := by
  have hmax := sizeOf_le hi
  have hnum : krnlMapVirtaddressEnd + 2048 < 2 ^ 64 := by decide
  have hlow : 4096 < krnlMapVirtaddressStart := by decide
  have hrun : (⟨k.soVstat, k.soVstat + sizeofKmsob, k.soVend⟩ : Run) ∈ k.runs := List.mem_cons_self
  obtain ⟨hlo, hhi⟩ := h.run_virt hreach hrun
  have hend : k.soVstat + sizeofKmsob ≤ k.soVend ∧ 2048 ≤ k.soVend := by
    have hhead := header_add_le hi
    have hmul : pnrOf i * pagesize = pnrOf i * 0x1000 := rfl
    have hvade := vade_eq (b := (own, pnrOf i)) addr (pnrOf_pos i)
    have hvadr : vadr addr own = krnlMapVirtaddressStart + addr own := rfl
    rw [h.vstat, h.vend, h.adr]
    simp only at hvade
    omega
  simp only at hlo hhi
  have hsum : u64 (a + s) = a + s - 2 ^ 64 := by
    unfold u64
    omega
  have hobjsum : u64 (a + sizeOf i) = a + sizeOf i - 2 ^ 64 := by
    unfold u64
    omega
  have hin : inRuns k a s = true := by
    refine List.any_eq_true.mpr ⟨_, hrun, ?_⟩
    unfold inRun
    rw [decide_eq_true_iff, hsum, h.objsz]
    simp only
    omega
  have hon : onRun k.soVstat k.soVend a s = true := by
    unfold onRun
    rw [decide_eq_true_iff, hsum, u64Sub_of_le (by omega) (by omega)]
    omega
  have honruns : onRuns k a s = scanFadrskmsobIsok (k.soVstat + sizeofKmsob) k.soVend a k.soObjsz := by
    unfold onRuns Kmsob.runs
    rw [List.find?_cons_of_pos (p := fun r : Run => onRun r.lo r.hi a s) hon]
  rw [honruns, h.vstat]
  unfold scanFadrskmsobIsok
  rw [decide_eq_true_iff, h.objsz, hobjsum, Nat.dvd_iff_mod_eq_zero]
  rw [h.vstat] at hend hlo
  constructor
  · exact fun hacc => hacc.2.2.2
  · exact fun hmod => ⟨hin, by omega, by omega, hmod⟩

theorem scans_iff (hi : i < koblstMax) (h : Made addr p i k own exts) (hreach : Reach addr k.blocks) (hs : 1 ≤ s)
    (hle : s ≤ sizeOf i) (ha : a < 2 ^ 64) :
    (inRuns k a s = true ∧ onRuns k a s = true) ↔ Accepts k p a s := by
  have hmax := sizeOf_le hi
  have hnum : krnlMapVirtaddressEnd + 2048 < 2 ^ 64 := by decide
  unfold Accepts
  rcases Nat.lt_trichotomy (a + s) (2 ^ 64) with hlt | heq | hgt
  · rw [scans_iff_of_lt hi h hreach hs hle hlt]
    constructor
    · exact .inl
    · rintro (hmem | ⟨hwrap, -⟩)
      · exact hmem
      · omega
  · -- the sum is 0, and one less is past every run
    have hsum : u64 (a + s) = 0 := by
      unfold u64
      omega
    have hnone : (k.runs.find? fun r => onRun r.lo r.hi a s) = none := by
      refine List.find?_eq_none.mpr fun r hr => ?_
      have hvirt := h.run_virt hreach hr
      have hsub : u64Sub 0 1 = 2 ^ 64 - 1 := by decide
      unfold onRun
      rw [decide_eq_true_iff, hsum, hsub]
      omega
    have honruns : onRuns k a s = false := by
      unfold onRuns
      rw [hnone]
    constructor
    · rintro ⟨-, hon⟩
      rw [honruns] at hon
      cases hon
    · rintro (hmem | ⟨hwrap, -⟩)
      · have := h.obj_virt hreach hmem
        omega
      · omega
  · rw [scans_iff_of_gt hi h hreach hle ha hgt]
    constructor
    · exact fun hdvd => .inr ⟨hgt, hdvd⟩
    · rintro (hmem | ⟨-, hdvd⟩)
      · have := h.obj_virt hreach hmem
        omega
      · exact hdvd

end Scans

/-! ### What is accepted goes on the list of free objects -/

def freed (st : St A) (p a : Nat) : St A :=
  st.setKmsob p
    { st.kmsob p with soFrelst := a :: (st.kmsob p).soFrelst, soFobjnr := (st.kmsob p).soFobjnr + 1 }

theorem Works.fobjnr_lt (h : Works L l st i p objs) : (st.kmsob p).soFobjnr < uintMax := by
  obtain ⟨⟨own, exts, hmade⟩, hfilled⟩ := h.has.ok
  have hlt := hmade.objs_length_lt h.reach
  have hlen := hfilled.perm.length_eq
  rw [List.length_append] at hlen
  rw [hfilled.fobjnr]
  omega

theorem Works.retnDel (h : Works L l st i p objs) (hcahe : (st.mgr.ksMsoblst i).olCahe = some p) (ha : a ≠ 0)
    (hs : 1 ≤ s) :
    onkoblstRetnDelkmsob st i a s = .ok (if inRuns (st.kmsob p) a s then some p else none) := by
  obtain ⟨⟨own, exts, hmade⟩, -⟩ := h.has.ok
  have hscan := scanDelkmsobIsok_eq hmade ha hs
  unfold onkoblstRetnDelkmsob
  simp only [hcahe, h.has.emnr, h.has.emplst]
  rw [if_neg (by omega), bind_of_ok hscan]
  by_cases hin : inRuns (st.kmsob p) a s = true
  · rw [if_pos hin]
  · rw [if_neg hin] at hscan ⊢
    simp only [Nat.zero_lt_one, if_true]
    unfold scanDelEmplst
    rw [bind_of_ok hscan]
    rfl

theorem Works.delOp (h : Works L l st i p objs) (hne : objs ≠ []) (ha : a ≠ 0) (hs : 1 ≤ s) :
    kmsobDelOpkmsob st p a s = if onRuns (st.kmsob p) a s then (true, freed st p a) else (false, st) := by
  obtain ⟨⟨own, exts, hmade⟩, hfilled⟩ := h.has.ok
  have hlen := hfilled.perm.length_eq
  have hpos := List.length_pos_iff.mpr hne
  rw [List.length_append, ← hfilled.mobjnr, ← hfilled.fobjnr] at hlen
  unfold kmsobDelOpkmsob
  simp only
  rw [if_neg (by omega), if_neg (by omega), scanDfszkmsobIsok_eq hmade ha hs h.fobjnr_lt]
  by_cases hon : onRuns (st.kmsob p) a s = true
  · rw [if_neg (by simp [hon]), if_pos hon]
    rfl
  · rw [if_pos (by simpa using hon), if_neg hon]

theorem kmsobDelete_of_has (h : Inv L rest st live) (hs : 1 ≤ s) (hs2 : s ≤ 2048) (ha : a < 2 ^ 64) (ha0 : a ≠ 0)
    (hhas : Has st (classOf s) p (live (classOf s))) (hcahe : (st.mgr.ksMsoblst (classOf s)).olCahe = some p)
    (hne : live (classOf s) ≠ []) :
    (Accepts (st.kmsob p) p a s → kmsobDelete st a s = destroyKmsob (freed st p a) (classOf s) p) ∧
      (¬ Accepts (st.kmsob p) p a s → kmsobDelete st a s = .ok (false, st)) := by
  have hi := classOf_lt hs2
  have hle := le_sizeOf_classOf hs
  have hworks := h.works hi hhas
  obtain ⟨⟨own, exts, hmade⟩, -⟩ := hhas.ok
  rw [← scans_iff hi hmade hworks.reach hs hle ha]
  unfold kmsobDelete kmsobDeleteCore
  rw [if_neg (by omega), onmszRetnKoblst_eq (fun j hj => (h.cls j hj).sz) hs hs2]
  simp only
  rw [bind_of_ok (hworks.retnDel hcahe ha0 hs)]
  by_cases hin : inRuns (st.kmsob p) a s = true
  · simp only [hin, if_true, hworks.delOp hne ha0 hs, true_and]
    by_cases hon : onRuns (st.kmsob p) a s = true
    · simp [hon]
    · simp [hon]
  · simp [hin]

theorem kmsobDelete_of_bare (h : Inv L rest st live) (hs : 1 ≤ s) (hs2 : s ≤ 2048) (ha0 : a ≠ 0)
    (hbare : Bare st (classOf s)) : kmsobDelete st a s = .ok (false, st) := by
  unfold kmsobDelete kmsobDeleteCore
  rw [if_neg (by omega), onmszRetnKoblst_eq (fun j hj => (h.cls j hj).sz) hs hs2]
  simp only
  have hscan : onkoblstRetnDelkmsob st (classOf s) a s = .ok none := by
    unfold onkoblstRetnDelkmsob
    simp only [hbare.cahe, hbare.emnr, scanDelkmsobIsok]
    rw [if_neg (by omega)]
    rfl
  rw [bind_of_ok hscan]

/-! ### Giving the page runs back -/

theorem mergeMsas_spec {n : Nat} (msas : List Nat) : ∀ {s : A.State}, L.Inv s (msas.map (·, n) ++ l) →
    ∃ s', mergeMsas n msas s = .ok s' ∧ L.Inv s' l ∧ A.msadscRetAddr s' = A.msadscRetAddr s := by
  induction msas with
  | nil => exact fun {s} h => ⟨s, rfl, h, rfl⟩
  | cons msa msas ih =>
    intro s h
    obtain ⟨mid, heq, haddr, hmid⟩ := L.merge (b := (msa, n)) h
    obtain ⟨s', heq', hinv, haddr'⟩ := ih hmid
    refine ⟨s', ?_, hinv, haddr'.trans haddr⟩
    unfold mergeMsas
    rw [bind_of_ok heq]
    exact heq'

theorem mergeMsclsts_spec {mcLst : Nat → Msclst} (hnr : ∀ j, (mcLst j).mlMsanr = (mcLst j).mlList.length)
    (js : List Nat) : ∀ {s : A.State},
    L.Inv s ((js.flatMap fun j => (mcLst j).mlList.map (·, (mcLst j).mlOmpnr)) ++ l) →
    ∃ s', mergeMsclsts mcLst js s = .ok s' ∧ L.Inv s' l ∧ A.msadscRetAddr s' = A.msadscRetAddr s := by
  induction js with
  | nil => exact fun {s} h => ⟨s, rfl, h, rfl⟩
  | cons j js ih =>
    intro s h
    rw [List.flatMap_cons, List.append_assoc] at h
    obtain ⟨mid, heq, hmid, haddr⟩ := mergeMsas_spec (mcLst j).mlList h
    obtain ⟨s', heq', hinv, haddr'⟩ := ih hmid
    refine ⟨s', ?_, hinv, haddr'.trans haddr⟩
    have hskip : (if 0 < (mcLst j).mlMsanr then mergeMsas (mcLst j).mlOmpnr (mcLst j).mlList s else .ok s) =
        .ok mid := by
      by_cases hpos : 0 < (mcLst j).mlMsanr
      · rw [if_pos hpos]
        exact heq
      · rw [if_neg hpos]
        have hnil : (mcLst j).mlList = [] := List.length_eq_zero_iff.mp (by rw [← hnr j]; omega)
        rw [hnil] at heq
        exact heq
    unfold mergeMsclsts
    rw [bind_of_ok hskip]
    exact heq'

def destroyed (st : St A) (i p : Nat) (alc : A.State) : St A :=
  let st := st.setKoblst i fun koblp =>
    { koblp with olEmplst := koblp.olEmplst.erase p, olEmnr := koblp.olEmnr - 1 }
  let st := { st with mgr := { st.mgr with ksMsobnr := st.mgr.ksMsobnr - 1 } }
  { kmsobUpdataCacheDsy st i p with alc := alc }

theorem destroyKmsobCore_spec (h : Works L l st i p objs) :
    ∃ alc', destroyKmsobCore st i p = .ok (true, destroyed st i p alc') ∧ L.Inv alc' l ∧
      A.msadscRetAddr alc' = st.addr := by
  obtain ⟨⟨own, exts, hmade⟩, -⟩ := h.has.ok
  have halc := h.alc
  unfold Kmsob.blocks at halc
  rw [List.append_assoc] at halc
  have hnr : ∀ j, ((st.kmsob p).mcLst j).mlMsanr = ((st.kmsob p).mcLst j).mlList.length := by
    intro j
    rw [hmade.lst j]
    by_cases hj : j = mscidxOf i
    · rw [if_pos hj]
    · rw [if_neg hj]
      rfl
  obtain ⟨mid, heq, hmid, haddr⟩ := mergeMsclsts_spec hnr (List.range msclstMax) halc
  obtain ⟨alc', heq', hinv, haddr'⟩ := mergeMsas_spec (st.kmsob p).mcKmobinlst hmid
  refine ⟨alc', ?_, hinv, haddr'.trans haddr⟩
  have hpos := pnrOf_pos i
  unfold destroyKmsobCore
  simp only
  rw [if_neg (by rw [hmade.ownnr, hmade.own]; simp; omega)]
  refine Eq.trans (bind_of_ok (show mergeMsclsts (st.kmsob p).mcLst (List.range msclstMax) st.alc = .ok mid from heq)
    _) ?_
  rw [bind_of_ok heq']
  rfl

theorem destroyed_bare {alc' : A.State} (h : Has st i p objs) : Bare (destroyed st i p alc') i where
  sz := by simpa [destroyed, kmsobUpdataCacheDsy, St.setKoblst] using h.sz
  emplst := by simp [destroyed, kmsobUpdataCacheDsy, St.setKoblst, h.emplst]
  emnr := by simp [destroyed, kmsobUpdataCacheDsy, St.setKoblst, h.emnr]
  cahe := by
    rcases h.cahe with hcahe | hcahe
    · simp [destroyed, kmsobUpdataCacheDsy, St.setKoblst, hcahe]
    · simp [destroyed, kmsobUpdataCacheDsy, St.setKoblst, hcahe]

theorem destroyed_touch {alc' : A.State} (h : Has st i p objs) (hmsobnr : 1 ≤ st.mgr.ksMsobnr)
    (haddr : A.msadscRetAddr alc' = st.addr) : Touch st (destroyed st i p alc') i p where
  koblst := fun j hj => by simp [destroyed, kmsobUpdataCacheDsy, St.setKoblst, hj]
  kmsob := fun _ _ => rfl
  addr := haddr
  msobnr := by
    rw [(destroyed_bare h).emplst, h.emplst]
    simp only [List.length_singleton, List.length_nil]
    show st.mgr.ksMsobnr - 1 + 1 = st.mgr.ksMsobnr + 0
    omega

/-! ### An object in use -/

theorem Works.freed (h : Works L l st i p objs) (ha : a ∈ objs) :
    Works L l (freed st p a) i p (objs.erase a) ∧ Touch st (freed st p a) i p := by
  obtain ⟨⟨own, exts, hmade⟩, hfilled⟩ := h.has.ok
  refine ⟨⟨⟨h.has.sz, h.has.emplst, h.has.emnr, h.has.cahe, ?_⟩, ?_, ?_⟩,
    ⟨fun _ _ => rfl, fun q hq => update_of_ne hq _ _, rfl, rfl⟩⟩
  · simp only [Obj.freed, St.setKmsob, update_self]
    refine ⟨⟨own, exts, hmade.of_frelst⟩, ⟨?_, hfilled.mobjnr, ?_⟩⟩
    · have hperm : (objs.erase a ++ a :: (st.kmsob p).soFrelst).Perm (objs ++ (st.kmsob p).soFrelst) :=
        List.perm_middle.trans ((List.perm_cons_erase ha).symm.append_right _)
      exact hperm.trans hfilled.perm
    · simp only [List.length_cons, hfilled.fobjnr]
  · simp only [Obj.freed, St.setKmsob, update_self]
    exact h.alc
  · simp only [Obj.freed, St.setKmsob, update_self]
    exact h.low

theorem Inv.of_bare (h : Inv L rest st live) (hi : i < koblstMax) (hhas : Has st i p (live i))
    (htouch : Touch st st' i p)
    (hbare : Bare st' i) (halc : L.Inv st'.alc (totalBut i st.blocks ++ rest)) :
    Inv L rest st' (Function.update live i []) := by
  obtain ⟨⟨own, exts, hmade⟩, -⟩ := hhas.ok
  have hlocal : Local st st' i := by
    refine htouch.toLocal h (h.works hi hhas).alc rfl (b := (own, pnrOf i)) ?_ hmade.adr.symm
    rw [hmade.blocks_eq]
    simp
  refine h.update hi hlocal (.inl ⟨hbare, rfl⟩) ?_ ?_
  · rw [hbare.blocks]
    exact halc
  · rw [hbare.blocks]
    intro b hb
    cases hb

theorem Inv.msobnr_pos (h : Inv L rest st live) (hi : i < koblstMax) (hhas : Has st i p objs) :
    1 ≤ st.mgr.ksMsobnr := by
  rw [h.msobnr, (total_perm hi _).length_eq, List.length_append, hhas.emplst]
  simp

/-- What becomes of an object of class `i` that is freed: it is on the free list, or it was the last one in use and the
class has given its runs back. -/
def Returned (L : Lawful A) (rest : List Blk) (st st' : St A) (i a : Nat) : Prop :=
  (∃ p ∈ (st'.mgr.ksMsoblst i).olEmplst, a ∈ (st'.kmsob p).soFrelst) ∨
    Bare st' i ∧ L.Inv st'.alc (totalBut i st.blocks ++ rest)

theorem kmsobDelete_returned (h : Inv L rest st live) (hs : 1 ≤ s) (hs2 : s ≤ 2048) (ha : a ∈ live (classOf s)) :
    ∃ st', kmsobDelete st a s = .ok (true, st') ∧ Returned L rest st st' (classOf s) a ∧
      Inv L rest st' (update live (classOf s) ((live (classOf s)).erase a)) := by
  have hi := classOf_lt hs2
  rcases h.cls _ hi with ⟨-, hnil⟩ | ⟨p, hhas, hcahe, hne⟩
  · rw [hnil] at ha
    cases ha
  obtain ⟨⟨own, exts, hmade⟩, hfilled⟩ := hhas.ok
  have hworks := h.works hi hhas
  have hobj : a ∈ (st.kmsob p).objs := hfilled.perm.mem_iff.mp (List.mem_append_left _ ha)
  have hvirt := hmade.obj_virt hworks.reach hobj
  have hnum : krnlMapVirtaddressEnd < 2 ^ 64 ∧ 0 < krnlMapVirtaddressStart := by decide
  obtain ⟨hacc, -⟩ := kmsobDelete_of_has (a := a) h hs hs2 (by omega) (by omega) hhas hcahe hne
  rw [hacc (.inl hobj)]
  obtain ⟨hfreed, htouch⟩ := hworks.freed ha
  obtain ⟨-, hfilled'⟩ := hfreed.has.ok
  have hmsobnr : 1 ≤ (freed st p a).mgr.ksMsobnr := h.msobnr_pos hi hhas
  have hlen := hfilled'.perm.length_eq
  rw [List.length_append, ← hfilled'.mobjnr, ← hfilled'.fobjnr] at hlen
  have hemnr := hfreed.has.emnr
  unfold destroyKmsob
  rw [if_neg (by omega)]
  by_cases hlast : (live (classOf s)).erase a = []
  · -- the last object of the class
    have hscan : scanFreekmsobIsok ((freed st p a).kmsob p) = 2 := by
      rw [hlast, List.length_nil] at hlen
      unfold scanFreekmsobIsok
      rw [if_neg (by omega), if_pos (by omega)]
    rw [hscan]
    obtain ⟨alc', heq, hinv, haddr⟩ := destroyKmsobCore_spec hfreed
    refine ⟨_, heq, .inr ⟨destroyed_bare hfreed.has, hinv⟩, ?_⟩
    rw [hlast]
    exact h.of_bare hi hhas (htouch.trans (destroyed_touch hfreed.has hmsobnr haddr)) (destroyed_bare hfreed.has) hinv
  · have hscan : scanFreekmsobIsok ((freed st p a).kmsob p) = 1 := by
      have hpos := List.length_pos_iff.mpr hlast
      unfold scanFreekmsobIsok
      rw [if_neg (by omega), if_neg (by omega)]
    rw [hscan]
    obtain ⟨hcache, htouchc, hcahe'⟩ := hfreed.updataCache
    refine ⟨_, rfl, .inl ⟨p, ?_, ?_⟩, h.of_works hi hcache (htouch.trans htouchc) hcahe' hlast⟩
    · rw [hcache.has.emplst]
      exact List.mem_singleton_self p
    · show a ∈ ((freed st p a).kmsob p).soFrelst
      simp [freed, St.setKmsob]

/-- **`kmsob_delete`** of an object in use returns `TRUE`, and the object is not in use any more. -/
theorem kmsobDelete_live (h : Inv L rest st live) (hs : 1 ≤ s) (hs2 : s ≤ 2048) (ha : a ∈ live (classOf s)) :
    ∃ st', kmsobDelete st a s = .ok (true, st') ∧
      Inv L rest st' (update live (classOf s) ((live (classOf s)).erase a)) := by
  obtain ⟨st', heq, -, hinv⟩ := kmsobDelete_returned h hs hs2 ha
  exact ⟨st', heq, hinv⟩

theorem destroyKmsob_ne_false (h : Inv L rest st live) (hi : i < koblstMax) (hhas : Has st i p objs) (st' : St A) :
    destroyKmsob (freed st p a) i p ≠ .ok (false, st') := by
  obtain ⟨⟨own, exts, hmade⟩, -⟩ := hhas.ok
  have hmsobnr : 1 ≤ (freed st p a).mgr.ksMsobnr := h.msobnr_pos hi hhas
  have hemnr : ((freed st p a).mgr.ksMsoblst i).olEmnr = 1 := hhas.emnr
  have hpos := pnrOf_pos i
  have hself : (freed st p a).kmsob p =
      { st.kmsob p with soFrelst := a :: (st.kmsob p).soFrelst, soFobjnr := (st.kmsob p).soFobjnr + 1 } := by
    simp [Obj.freed, St.setKmsob]
  unfold destroyKmsob
  rw [if_neg (by omega)]
  intro hfalse
  split at hfalse
  · cases hfalse
  · cases hfalse
  · unfold destroyKmsobCore at hfalse
    simp only [hself] at hfalse
    rw [if_neg (by rw [hmade.ownnr, hmade.own]; simp; omega)] at hfalse
    obtain ⟨mid, -, hfalse⟩ := bind_eq_ok hfalse
    obtain ⟨alc', -, hfalse⟩ := bind_eq_ok hfalse
    cases hfalse

end Cosmos.Obj
