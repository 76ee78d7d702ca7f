import Cosmos.Lib.Slots
import Cosmos.Obj.Model

/-!
# The invariant of the object allocator

A class has no `kmsob_t` when none of its objects is in use and exactly one otherwise: the one in the cache takes every
request of its class until it is destroyed. Its page runs all have the size the class takes at a time. The objects of
the class in use and the free ones together are the slots of its runs (`Filled`), and the page runs of all classes are
live blocks of the page allocator (`Inv.alc`).
-/

namespace Cosmos.Obj

open Cosmos.Lib Cosmos.Page

def classOf (msz : Nat) : Nat := (msz - 1) / 32

def sizeOf (i : Nat) : Nat := 32 * (i + 1)

def pnrOf (i : Nat) : Nat := pagesFor (sizeOf i)

def mscidxOf (i : Nat) : Nat := if 512 < sizeOf i then 2 else if 128 < sizeOf i then 1 else 0

theorem two_pow_mscidxOf (i : Nat) : 2 ^ mscidxOf i = pnrOf i := by
  unfold mscidxOf pnrOf pagesFor
  split_ifs <;> rfl

theorem mscidxOf_lt (i : Nat) : mscidxOf i < 3 := by
  unfold mscidxOf
  split_ifs <;> decide

theorem sizeOf_pos (i : Nat) : 0 < sizeOf i := by
  unfold sizeOf
  omega

theorem sizeOf_le {i : Nat} (hi : i < koblstMax) : sizeOf i ≤ 2048 := by
  have hmax : koblstMax = 64 := rfl
  unfold sizeOf
  omega

theorem header_add_le {i : Nat} (hi : i < koblstMax) : sizeofKmsob + sizeOf i < pnrOf i * pagesize := by
  have hmax : koblstMax = 64 := rfl
  unfold pnrOf pagesFor sizeofKmsob pagesize
  split_ifs with h4 h2
  · unfold sizeOf
    omega
  · omega
  · omega

theorem pnrOf_pos (i : Nat) : 0 < pnrOf i := by
  rw [← two_pow_mscidxOf]
  exact Nat.two_pow_pos _

/-! ### Page runs -/

def vadr (addr : Nat → Nat) (msa : Nat) : Nat := krnlMapVirtaddressStart + addr msa

def vade (addr : Nat → Nat) (b : Blk) : Nat := vadr addr b.1 + b.2 * pagesize - 1

def runOf (addr : Nat → Nat) (hdr : Nat) (b : Blk) : Run := ⟨vadr addr b.1, vadr addr b.1 + hdr, vade addr b⟩

def Kmsob.runs (k : Kmsob) : List Run :=
  ⟨k.soVstat, k.soVstat + sizeofKmsob, k.soVend⟩ ::
    k.soMextlst.map fun e => ⟨e.mtVstat, e.mtVstat + sizeofKmbext, e.mtVend⟩

def Kmsob.objs (k : Kmsob) : List Nat := allSlots k.runs k.soObjsz

def Kmsob.blocks (k : Kmsob) : List Blk :=
  ((List.range msclstMax).flatMap fun j => (k.mcLst j).mlList.map (·, (k.mcLst j).mlOmpnr)) ++
    k.mcKmobinlst.map (·, k.mcKmobinpnr)

def extOf (addr : Nat → Nat) (p i msa : Nat) : Kmbext :=
  ⟨vadr addr msa, vade addr (msa, pnrOf i), p, (slots (vadr addr msa + sizeofKmbext) (vade addr (msa, pnrOf i))
    (sizeOf i)).length⟩

/-- The `kmsob_t` of class `i` at `p`, in the run of `msa` and extended by the runs of `exts`. -/
structure Made (addr : Nat → Nat) (p i : Nat) (k : Kmsob) (msa : Nat) (exts : List Nat) : Prop where
  objsz : k.soObjsz = sizeOf i
  adr : p = vadr addr msa
  vstat : k.soVstat = p
  vend : k.soVend = vade addr (msa, pnrOf i)
  mextlst : k.soMextlst = exts.map (extOf addr p i)
  mextnr : k.soMextnr = exts.length
  own : k.mcKmobinlst = [msa]
  ownnr : k.mcKmobinpnr = pnrOf i
  lst : ∀ j, k.mcLst j = if j = mscidxOf i then ⟨exts.length, 2 ^ j, exts⟩ else ⟨0, 2 ^ j, []⟩

/-- The objects in use and the free ones are the slots of the runs. -/
structure Filled (k : Kmsob) (live : List Nat) : Prop where
  perm : (live ++ k.soFrelst).Perm k.objs
  mobjnr : k.soMobjnr = k.objs.length
  fobjnr : k.soFobjnr = k.soFrelst.length

/-- A `kmsob_t` of class `i` at `p` with the objects `live` in use. -/
def KmsobOk (addr : Nat → Nat) (p i : Nat) (k : Kmsob) (live : List Nat) : Prop :=
  (∃ msa exts, Made addr p i k msa exts) ∧ Filled k live

section Made

variable {addr : Nat → Nat} {p i msa : Nat} {k : Kmsob} {exts : List Nat}

theorem Made.blocks_eq (h : Made addr p i k msa exts) : k.blocks = exts.map (·, pnrOf i) ++ [(msa, pnrOf i)] := by
  have hrange : List.range msclstMax = [0, 1, 2, 3, 4] := rfl
  have hlt := mscidxOf_lt i
  have hlists : ((List.range msclstMax).flatMap fun j => (k.mcLst j).mlList.map (·, (k.mcLst j).mlOmpnr)) =
      exts.map (·, pnrOf i) := by
    rw [hrange]
    simp only [List.flatMap_cons, List.flatMap_nil, h.lst, ← two_pow_mscidxOf]
    -- one of the five lists is the class's, the others are empty
    obtain hidx | hidx | hidx : mscidxOf i = 0 ∨ mscidxOf i = 1 ∨ mscidxOf i = 2 := by omega
    all_goals simp [hidx]
  unfold Kmsob.blocks
  rw [hlists, h.own, h.ownnr]
  rfl

theorem Made.runs_eq (h : Made addr p i k msa exts) :
    k.runs = runOf addr sizeofKmsob (msa, pnrOf i) :: exts.map fun m => runOf addr sizeofKmbext (m, pnrOf i) := by
  unfold Kmsob.runs
  rw [h.vstat, h.adr, h.vend, h.mextlst, List.map_map]
  rfl

theorem Made.congr {addr' : Nat → Nat} (h : Made addr p i k msa exts) (haddr : addr' = addr) :
    Made addr' p i k msa exts := haddr ▸ h

end Made

/-! ### What the page allocator says about the runs -/

/-- Blocks the kernel can reach, apart from one another. -/
structure Reach (addr : Nat → Nat) (l : List Blk) : Prop where
  apart : l.Pairwise (Apart addr)
  low : ∀ b ∈ l, 0 < b.2 ∧ addr b.1 + b.2 * 0x1000 ≤ krnlMapPhyaddressEnd

section Reach

variable {addr : Nat → Nat} {l : List Blk} {b : Blk}

theorem vade_eq (addr : Nat → Nat) (hpos : 0 < b.2) :
    vade addr b + 1 = krnlMapVirtaddressStart + (addr b.1 + b.2 * 0x1000) := by
  unfold vade vadr pagesize
  omega

theorem Reach.run_bounds (h : Reach addr l) (hb : b ∈ l) :
    krnlMapVirtaddressStart ≤ vadr addr b.1 ∧ vade addr b < krnlMapVirtaddressEnd := by
  obtain ⟨hpos, hlow⟩ := h.low b hb
  have hend := vade_eq addr hpos
  have hvirt : krnlMapVirtaddressEnd = krnlMapVirtaddressStart + krnlMapPhyaddressEnd := rfl
  refine ⟨Nat.le_add_right _ _, by omega⟩

theorem run_apart {c : Blk} {hdr hdr' : Nat} (hb : 0 < b.2) (hc : 0 < c.2) (h : Apart addr b c) :
    (runOf addr hdr b).hi < (runOf addr hdr' c).lo ∨ (runOf addr hdr' c).hi < (runOf addr hdr b).lo := by
  have hendb := vade_eq addr hb
  have hendc := vade_eq addr hc
  unfold Apart at h
  simp only [runOf]
  unfold vadr at *
  omega

variable {p i msa : Nat} {k : Kmsob} {exts : List Nat}

theorem Made.runsOk (h : Made addr p i k msa exts) (hreach : Reach addr k.blocks) : RunsOk k.runs := by
  rw [h.blocks_eq] at hreach
  have hpos := pnrOf_pos i
  rw [h.runs_eq]
  refine ⟨fun r hr => ?_, List.pairwise_cons.mpr ⟨fun r hr => ?_, ?_⟩⟩
  · rcases List.mem_cons.mp hr with rfl | hr
    · exact Nat.le_add_right _ _
    · obtain ⟨m, -, rfl⟩ := List.mem_map.mp hr
      exact Nat.le_add_right _ _
  · obtain ⟨m, hm, rfl⟩ := List.mem_map.mp hr
    have hap := (List.pairwise_append.mp hreach.apart).2.2 (m, pnrOf i) (List.mem_map_of_mem hm)
      (msa, pnrOf i) (List.mem_singleton_self _)
    exact (run_apart hpos hpos hap).symm
  · have hexts := (List.pairwise_append.mp hreach.apart).1
    rw [List.pairwise_map] at hexts ⊢
    exact hexts.imp fun {m m'} hap => run_apart hpos hpos hap

theorem Made.objs_nodup (h : Made addr p i k msa exts) (hreach : Reach addr k.blocks) : k.objs.Nodup := by
  have hsz := sizeOf_pos i
  rw [← h.objsz] at hsz
  exact (h.runsOk hreach).nodup_allSlots hsz

theorem Made.obj_bounds {a : Nat} (h : Made addr p i k msa exts) (ha : a ∈ k.objs) :
    ∃ b ∈ k.blocks, ∃ hdr, (hdr = sizeofKmsob ∨ hdr = sizeofKmbext) ∧ runOf addr hdr b ∈ k.runs ∧
      vadr addr b.1 + hdr ≤ a ∧ a + sizeOf i ≤ vade addr b := by
  unfold Kmsob.objs at ha
  rw [h.objsz] at ha
  obtain ⟨r, hr, har⟩ := mem_allSlots.mp ha
  obtain ⟨hlo, hhi, -⟩ := (mem_slots (sizeOf_pos i)).mp har
  have hr' := hr
  rw [h.runs_eq] at hr'
  rcases List.mem_cons.mp hr' with rfl | hr'
  · refine ⟨(msa, pnrOf i), ?_, sizeofKmsob, .inl rfl, hr, hlo, hhi⟩
    rw [h.blocks_eq]
    simp
  · obtain ⟨m, hm, rfl⟩ := List.mem_map.mp hr'
    refine ⟨(m, pnrOf i), ?_, sizeofKmbext, .inr rfl, hr, hlo, hhi⟩
    rw [h.blocks_eq]
    simp [hm]

theorem Made.obj_virt {a : Nat} (h : Made addr p i k msa exts) (hreach : Reach addr k.blocks) (ha : a ∈ k.objs) :
    krnlMapVirtaddressStart ≤ a ∧ a + sizeOf i < krnlMapVirtaddressEnd := by
  obtain ⟨b, hb, hdr, -, -, hlo, hhi⟩ := h.obj_bounds ha
  obtain ⟨hstart, hend⟩ := hreach.run_bounds hb
  omega

theorem Made.objs_length_lt (h : Made addr p i k msa exts) (hreach : Reach addr k.blocks) :
    k.objs.length < uintMax := by
  have hle : k.objs.length ≤ krnlMapPhyaddressEnd := by
    have hbounds : ∀ a ∈ k.objs, krnlMapVirtaddressStart ≤ a ∧ a < krnlMapVirtaddressStart + krnlMapPhyaddressEnd := by
      intro a ha
      have hvirt := h.obj_virt hreach ha
      have hend : krnlMapVirtaddressEnd = krnlMapVirtaddressStart + krnlMapPhyaddressEnd := rfl
      omega
    exact length_le_of_nodup (h.objs_nodup hreach) hbounds
  have hnum : krnlMapPhyaddressEnd < uintMax := by decide
  omega

end Reach

/-! ### Cutting a run into objects -/

theorem carveLoop_eq {objsz vend : Nat} (hsz : 0 < objsz) (n : Nat) : ∀ ap frelst nr, vend - ap ≤ n →
    carveLoop objsz vend n ap frelst nr =
      ((slots ap vend objsz).reverse ++ frelst, nr + (slots ap vend objsz).length) := by
  induction n with
  | zero =>
    intro ap frelst nr hn
    rw [slots_eq_nil hsz (by omega)]
    rfl
  | succ n ih =>
    intro ap frelst nr hn
    unfold carveLoop
    split_ifs with hlt hfit
    · rw [ih (ap + objsz) (ap :: frelst) (nr + 1) (by omega), slots_eq_cons hsz hfit]
      simp only [List.reverse_cons, List.append_assoc, List.singleton_append, List.length_cons]
      exact Prod.ext rfl (by simp only; omega)
    · rw [ih (ap + objsz) frelst nr (by omega), slots_eq_nil hsz (by omega), slots_eq_nil hsz (by omega)]
    · rw [slots_eq_nil hsz (by omega)]
      rfl

/-! ### Classes -/

/-- A list of each class put together, and the lists of all classes but one. -/
def total {α : Type} (f : Nat → List α) : List α := (List.range koblstMax).flatMap f

def totalBut {α : Type} (i : Nat) (f : Nat → List α) : List α := ((List.range koblstMax).erase i).flatMap f

theorem total_perm {α : Type} {i : Nat} (hi : i < koblstMax) (f : Nat → List α) :
    (total f).Perm (f i ++ totalBut i f) := by
  have hperm := List.perm_cons_erase (List.mem_range.mpr hi)
  exact hperm.flatMap_right f

theorem totalBut_congr {α : Type} {i : Nat} {f g : Nat → List α} (h : ∀ j < koblstMax, j ≠ i → f j = g j) :
    totalBut i f = totalBut i g := by
  unfold totalBut
  refine List.flatMap_congr fun j hj => ?_
  obtain ⟨hne, hmem⟩ := (List.nodup_range.mem_erase_iff).mp hj
  exact h j (List.mem_range.mp hmem) hne

theorem mem_totalBut {α : Type} {i j : Nat} {f : Nat → List α} {x : α} (hj : j < koblstMax) (hne : j ≠ i)
    (hx : x ∈ f j) : x ∈ totalBut i f :=
  List.mem_flatMap.mpr ⟨j, (List.nodup_range.mem_erase_iff).mpr ⟨hne, List.mem_range.mpr hj⟩, hx⟩

variable {A : PageAlloc}

def St.blocks (st : St A) (i : Nat) : List Blk := (st.mgr.ksMsoblst i).olEmplst.flatMap fun p => (st.kmsob p).blocks

def St.addr (st : St A) : Nat → Nat := A.msadscRetAddr st.alc

/-- The class has the `kmsob_t` at `p`, with the objects `live` in use; none of them may be. -/
structure Has (st : St A) (i p : Nat) (live : List Nat) : Prop where
  sz : (st.mgr.ksMsoblst i).olSz = sizeOf i
  emplst : (st.mgr.ksMsoblst i).olEmplst = [p]
  emnr : (st.mgr.ksMsoblst i).olEmnr = 1
  cahe : (st.mgr.ksMsoblst i).olCahe = none ∨ (st.mgr.ksMsoblst i).olCahe = some p
  ok : KmsobOk st.addr p i (st.kmsob p) live

structure Bare (st : St A) (i : Nat) : Prop where
  sz : (st.mgr.ksMsoblst i).olSz = sizeOf i
  emplst : (st.mgr.ksMsoblst i).olEmplst = []
  emnr : (st.mgr.ksMsoblst i).olEmnr = 0
  cahe : (st.mgr.ksMsoblst i).olCahe = none

/-- Between calls: no `kmsob_t` and no object in use, or one in the cache with an object in use. -/
def ClassOk (st : St A) (i : Nat) (live : List Nat) : Prop :=
  (Bare st i ∧ live = []) ∨
    ∃ p, Has st i p live ∧ (st.mgr.ksMsoblst i).olCahe = some p ∧ live ≠ []

/-- The state between calls: `live i` are the objects of class `i` in use, `rest` the blocks of everybody else. -/
structure Inv (L : Lawful A) (rest : List Blk) (st : St A) (live : Nat → List Nat) : Prop where
  cls : ∀ i < koblstMax, ClassOk st i (live i)
  msobnr : st.mgr.ksMsobnr = (total fun i => (st.mgr.ksMsoblst i).olEmplst).length
  alc : L.Inv st.alc (total st.blocks ++ rest)
  low : ∀ b ∈ total st.blocks, st.addr b.1 + b.2 * 0x1000 ≤ krnlMapPhyaddressEnd

section Inv

variable {L : Lawful A} {rest : List Blk} {st st' : St A} {live : Nat → List Nat} {i p : Nat} {l : List Nat}

theorem Has.blocks (h : Has st i p l) : st.blocks i = (st.kmsob p).blocks := by
  unfold St.blocks
  rw [h.emplst]
  simp

theorem Bare.blocks (h : Bare st i) : st.blocks i = [] := by
  unfold St.blocks
  rw [h.emplst]
  rfl

theorem Inv.split (h : Inv L rest st live) (hi : i < koblstMax) :
    L.Inv st.alc (st.blocks i ++ (totalBut i st.blocks ++ rest)) := by
  refine L.perm h.alc ?_
  rw [← List.append_assoc]
  exact (total_perm hi st.blocks).append_right rest

theorem reach_of_inv {s : A.State} {l l' : List Blk} (h : L.Inv s (l ++ l'))
    (hlow : ∀ b ∈ l, A.msadscRetAddr s b.1 + b.2 * 0x1000 ≤ krnlMapPhyaddressEnd) : Reach (A.msadscRetAddr s) l where
  apart := (List.pairwise_append.mp (L.apart h)).1
  low := fun b hb => ⟨(L.frame h b (List.mem_append_left _ hb)).1, hlow b hb⟩

theorem Inv.reach (h : Inv L rest st live) (hi : i < koblstMax) : Reach st.addr (st.blocks i) :=
  reach_of_inv (h.split hi) fun b hb => h.low b ((total_perm hi st.blocks).mem_iff.mpr (List.mem_append_left _ hb))

theorem vadr_ne_of_append {s : A.State} {l l' : List Blk} {b c : Blk} (h : L.Inv s (l ++ l')) (hb : b ∈ l)
    (hc : c ∈ l') : vadr (A.msadscRetAddr s) b.1 ≠ vadr (A.msadscRetAddr s) c.1 := by
  have hapart := (List.pairwise_append.mp (L.apart h)).2.2 b hb c hc
  have hposb := (L.frame h b (List.mem_append_left _ hb)).1
  have hposc := (L.frame h c (List.mem_append_right _ hc)).1
  unfold Apart at hapart
  unfold vadr
  omega

theorem Inv.exists_block {j q : Nat} (h : Inv L rest st live) (hj : j < koblstMax)
    (hq : q ∈ (st.mgr.ksMsoblst j).olEmplst) : ∃ c ∈ st.blocks j, vadr st.addr c.1 = q := by
  rcases h.cls j hj with ⟨hbare, -⟩ | ⟨p, hhas, -, -⟩
  · rw [hbare.emplst] at hq
    cases hq
  · rw [hhas.emplst, List.mem_singleton] at hq
    subst hq
    obtain ⟨⟨msa, exts, hmade⟩, -⟩ := hhas.ok
    refine ⟨(msa, pnrOf j), ?_, hmade.adr.symm⟩
    rw [hhas.blocks, hmade.blocks_eq]
    simp

/-- A call that works on class `i` only. -/
structure Local (st st' : St A) (i : Nat) : Prop where
  koblst : ∀ j ≠ i, st'.mgr.ksMsoblst j = st.mgr.ksMsoblst j
  kmsob : ∀ j < koblstMax, j ≠ i → ∀ q ∈ (st.mgr.ksMsoblst j).olEmplst, st'.kmsob q = st.kmsob q
  addr : st'.addr = st.addr
  msobnr : st'.mgr.ksMsobnr + (st.mgr.ksMsoblst i).olEmplst.length =
    st.mgr.ksMsobnr + (st'.mgr.ksMsoblst i).olEmplst.length

theorem Local.blocks {j : Nat} (h : Local st st' i) (hj : j < koblstMax) (hne : j ≠ i) :
    st'.blocks j = st.blocks j := by
  unfold St.blocks
  rw [h.koblst j hne]
  refine List.flatMap_congr fun q hq => ?_
  rw [h.kmsob j hj hne q hq]

theorem Local.classOk {j : Nat} (h : Local st st' i) (hj : j < koblstMax) (hne : j ≠ i) (hcls : ClassOk st j l) :
    ClassOk st' j l := by
  have hkob := h.koblst j hne
  rcases hcls with ⟨hbare, hl⟩ | ⟨p, hhas, hcahe, hl⟩
  · exact .inl ⟨⟨hkob ▸ hbare.sz, hkob ▸ hbare.emplst, hkob ▸ hbare.emnr, hkob ▸ hbare.cahe⟩, hl⟩
  · refine .inr ⟨p, ⟨hkob ▸ hhas.sz, hkob ▸ hhas.emplst, hkob ▸ hhas.emnr, hkob ▸ hhas.cahe, ?_⟩, hkob ▸ hcahe, hl⟩
    rw [h.kmsob j hj hne p (by rw [hhas.emplst]; simp), h.addr]
    exact hhas.ok

theorem Inv.update (h : Inv L rest st live) (hi : i < koblstMax) (hlocal : Local st st' i) (hcls : ClassOk st' i l)
    (halc : L.Inv st'.alc (st'.blocks i ++ (totalBut i st.blocks ++ rest)))
    (hlow : ∀ b ∈ st'.blocks i, st'.addr b.1 + b.2 * 0x1000 ≤ krnlMapPhyaddressEnd) :
    Inv L rest st' (Function.update live i l) := by
  have hbut : totalBut i st'.blocks = totalBut i st.blocks := totalBut_congr fun j hj hne => hlocal.blocks hj hne
  refine ⟨fun j hj => ?_, ?_, ?_, fun b hb => ?_⟩
  · by_cases hne : j = i
    · subst hne
      rw [Function.update_self]
      exact hcls
    · rw [Function.update_of_ne hne]
      exact hlocal.classOk hj hne (h.cls j hj)
  · have hold := (total_perm hi fun j => (st.mgr.ksMsoblst j).olEmplst).length_eq
    have hnew := (total_perm hi fun j => (st'.mgr.ksMsoblst j).olEmplst).length_eq
    have hsame : totalBut i (fun j => (st'.mgr.ksMsoblst j).olEmplst) =
        totalBut i fun j => (st.mgr.ksMsoblst j).olEmplst :=
      totalBut_congr fun j _ hne => by rw [hlocal.koblst j hne]
    have hnr := hlocal.msobnr
    have hmsobnr := h.msobnr
    rw [hsame] at hnew
    rw [List.length_append] at hold hnew
    omega
  · refine L.perm halc ?_
    rw [← List.append_assoc, ← hbut]
    exact ((total_perm hi st'.blocks).append_right rest).symm
  · rcases List.mem_append.mp ((total_perm hi st'.blocks).mem_iff.mp hb) with hb | hb
    · exact hlow b hb
    · rw [hbut] at hb
      rw [hlocal.addr]
      exact h.low b ((total_perm hi st.blocks).mem_iff.mpr (List.mem_append_right _ hb))

end Inv

end Cosmos.Obj
