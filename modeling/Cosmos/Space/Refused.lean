import Cosmos.Page.Lawful
import Cosmos.Space.Unmap

/-!
# Out of memory

Whenever the page allocator refuses a page, a mapping and a page fault leave the system as it was: the tables that were
made on the way are gone, the frame that was hung on the page box is off it and given back, and what remains of the
fault is at most a new, empty page box.
-/

namespace Cosmos.Space

open Cosmos.Lib Halt Cosmos.Page Cosmos.Mmu Cosmos.Vma Kmvarsdsc

variable {A : PageAlloc} {L : Lawful A} {image : Nat → UInt8} {s s₁ t : Sys A} {frames : List Nat} {rest : List Blk}
  {i v b : Nat} {newbox : Option Nat} {free : A.State → Nat}

/-- What a page fault without memory leaves: descriptors, translations and the boxes in use are the same, and a box
that is in use now holds no page. -/
structure FaultUndone (s t : Sys A) : Prop where
  mmu : ∀ j, (t.mm j).msdMmu = (s.mm j).msdMmu
  look : ∀ j < s.mmnr, ∀ w < 2 ^ 47, t.look j w = s.look j w
  used : ∀ b ∈ s.mgr.kbmKmbhead, t.box b = s.box b
  fresh : ∀ b ∈ t.mgr.kbmKmbhead, b ∉ s.mgr.kbmKmbhead → t.list b = []

theorem blocks_eq_of_mmu (hnr : t.mmnr = s.mmnr) (hmmu : ∀ j, (t.mm j).msdMmu = (s.mm j).msdMmu) :
    t.blocks frames rest = s.blocks frames rest := by
  have htables : t.tables = s.tables := by
    funext l
    simp only [Sys.tables, hmmu]
  simp only [Sys.blocks, htables, hnr]

theorem Attached.mmu_eq {k : Kmvarsdsc} (ha : Attached s i k b t) (j : Nat) :
    (t.mm j).msdMmu = (s.mm j).msdMmu := by
  cases ha with
  | had => rfl
  | got => exact Sys.mmu_setVma ..

theorem Attached.used {k : Kmvarsdsc} (ha : Attached s i k b t) : ∀ b' ∈ s.mgr.kbmKmbhead, t.box b' = s.box b' := by
  cases ha with
  | had => exact fun _ _ => rfl
  | got mgr _ _ hnodup =>
    intro b' hb'
    refine freshBox_box_of_ne mgr ?_
    rintro rfl
    exact (List.nodup_cons.mp hnodup).1 (List.mem_append_left _ hb')

theorem Attached.fresh {k : Kmvarsdsc} (ha : Attached s i k b t) :
    ∀ b' ∈ t.mgr.kbmKmbhead, b' ∉ s.mgr.kbmKmbhead → t.list b' = [] := by
  cases ha with
  | had => exact fun b' hb' hnot => absurd hb' hnot
  | got mgr _ hhead _ =>
    intro b' hb' hnot
    have hmem : b' ∈ b :: mgr.kbmKmbhead := hb'
    rw [hhead, List.mem_cons] at hmem
    obtain rfl := hmem.resolve_right hnot
    exact congrArg Kvmemcbox.kmbMsalist (freshBox_box_self s b' mgr)

/-- **A page fault without memory** is undone. -/
theorem fault_undone (hfree : L.FreeCount free) (h : Inv L s frames rest) (hi : i < s.mmnr) (hfresh : FreshBox s newbox)
    (hret : vmaMapFairvadrs image s i v newbox = .ok (-enomem, t)) : FaultUndone s t ∧ free t.alc = free s.alc := by
  rcases vmaMapFairvadrs_cases h hi hfresh hret with
    ⟨-, hne, -⟩ | ⟨pre, k, post, b, s₁, -, -, -, -, hattached, -, -, ⟨-, hrefuses⟩ | ⟨hzero, -⟩⟩
  · exact absurd rfl hne
  · have hmmu : ∀ j, (t.mm j).msdMmu = (s.mm j).msdMmu := fun j => (hrefuses.mmu j).trans (hattached.mmu_eq j)
    have hnr : t.mmnr = s.mmnr := hrefuses.quiet.mmnr.trans hattached.mmnr_eq
    have hbox : t.box = s₁.box := hrefuses.box
    refine ⟨⟨hmmu, fun j hj w hw => ?_, fun b' hb' => ?_, fun b' hb' => ?_⟩, ?_⟩
    · rw [hrefuses.look j (by rw [hattached.mmnr_eq]; exact hj) w hw, hattached.look_eq]
    · rw [hbox, hattached.used b' hb']
    · rw [hrefuses.quiet.mgr] at hb'
      rw [Sys.list, hbox]
      exact hattached.fresh b' hb'
    · have hlive := hrefuses.owned.live
      rw [blocks_eq_of_mmu hnr hmmu] at hlive
      exact hfree h.owned.live hlive
  · exact absurd hzero (by decide)

/-- **What is refused is undone.** A mapping that returns `FALSE` after any run of mappings and unmappings leaves
tables, lists, counters, translations and the number of free pages as they were, and so does a page fault that returns
`-ENOMEM` after any run of calls on address spaces, a new and empty page box apart. -/
theorem refused_mapping_undone (hfree : L.FreeCount free) :
    (∀ pml4 st₀ st₁ st st' rest v p flags, Mmu.Ran L pml4 st₀ st₁ st rest → UserHalf v → MapArgs p flags →
      halMmuTransform st v p flags = .ok (false, st') → Unchanged rest st st' ∧ free st'.alc = free st.alc) ∧
    ∀ image cs s t rest i v newbox, Ran L image cs s rest → (∀ c ∈ cs, c.NoWrap) → i < s.mmnr → FreshBox s newbox →
      vmaMapFairvadrs image s i v newbox = .ok (-enomem, t) → FaultUndone s t ∧ free t.alc = free s.alc := by
  refine ⟨fun pml4 st₀ st₁ st st' rest v p flags hran hv hargs hret => ?_,
    fun image cs s t rest i v newbox hran hcs hi hfresh hret => ?_⟩
  · have hown : Owns L st rest 0 := hran.sound.owns
    have hr := halMmuTransform_undo hown hv hargs hret
    exact ⟨hr.unchanged hown, hfree hown.inv hr.others.inv⟩
  · obtain ⟨frames, hinv, -⟩ := inv_of_run hran hcs
    exact fault_undone hfree hinv hi hfresh hret

def shelfSt (free : List Nat) : St shelf := ⟨mmudscTInit, free, fun _ _ => 0⟩

theorem shelf_empty (n : Nat) (hn : n ≤ 0x1000) : (shelfLawful n hn).Inv (List.range n) [] := by
  show ((List.range n).map (·, 1) ++ []).Perm _
  rw [List.append_nil]

/-- With three pages in all, a mapping lacks its last table and a page fault its second one. -/
theorem refused_mapping_undone_shelf :
    (∃ st₁ st' : St shelf, halMmuInit 0 (shelfSt [0, 1, 2]) = .ok (true, st₁) ∧
      halMmuTransform st₁ 0x1000 0x5000 7 = .ok (false, st') ∧ Unchanged [] st₁ st' ∧
      List.length st'.alc = List.length st₁.alc) ∧
    ∃ s t : Sys shelf, runCalls (fun _ => 0) (bootSys (A := shelf) [0, 1, 2])
      [.create 0 (some 1) (some 2) (some 3) none] =
        .ok s ∧ vmaMapFairvadrs (fun _ => 0) s 0 0x1000 (some 9) = .ok (-enomem, t) ∧ FaultUndone s t ∧
      List.length t.alc = List.length s.alc := by
  have hundone := refused_mapping_undone (shelf_freeCount (n := 3) (by decide))
  constructor
  · obtain ⟨st₁, hinit, hmap⟩ := exists_of_map (x := halMmuInit 0 (shelfSt [0, 1, 2]))
      (f := fun r => (r.1, Except.map Prod.fst (halMmuTransform r.2 0x1000 0x5000 7))) (b := (true, .ok false))
      (by decide +kernel)
    obtain ⟨hrets, hmap⟩ := Prod.mk.inj hmap
    obtain ⟨st', hmap, hrets'⟩ := exists_of_map hmap
    have hran : Mmu.Ran (shelfLawful 3 (by decide)) 0 (shelfSt [0, 1, 2]) st₁.2 st₁.2 [] :=
      ⟨rfl, fun _ _ _ => rfl, by rw [hinit, ← hrets], [], [], shelf_empty 3 (by decide), .nil _, by simp⟩
    have hret : halMmuTransform st₁.2 0x1000 0x5000 7 = .ok (false, st'.2) := by rw [hmap, ← hrets']
    obtain ⟨hsame, hcount⟩ := hundone.1 0 _ _ _ _ _ 0x1000 0x5000 7 hran (by decide)
      ⟨by decide, by decide, by decide, by decide, by decide⟩ hret
    exact ⟨st₁.2, st'.2, by rw [hinit, ← hrets], hret, hsame, hcount⟩
  · obtain ⟨s, hrun, hs⟩ := exists_of_map
      (x := runCalls (fun _ => 0) (bootSys (A := shelf) [0, 1, 2]) [.create 0 (some 1) (some 2) (some 3) none])
      (f := fun s => (decide (0 < s.mmnr ∧ FreshBox s (some 9)),
        Except.map Prod.fst (vmaMapFairvadrs (fun _ => 0) s 0 0x1000 (some 9)))) (b := (true, .ok (-enomem)))
      (by decide +kernel)
    obtain ⟨hok, hmap⟩ := Prod.mk.inj hs
    obtain ⟨hi, hfresh⟩ := of_decide_eq_true hok
    obtain ⟨⟨ret, t⟩, hret, rfl⟩ := exists_of_map hmap
    have hran : Ran (shelfLawful 3 (by decide)) (fun _ => 0) [.create 0 (some 1) (some 2) (some 3) none] s [] :=
      ran_of_runCalls (shelf_empty 3 (by decide)) hrun
    have hcs : ∀ c ∈ [Call.create 0 (some 1) (some 2) (some 3) none], c.NoWrap := by
      intro c hc
      obtain rfl := List.mem_singleton.mp hc
      trivial
    obtain ⟨hsame, hcount⟩ := hundone.2 _ _ s t [] 0 0x1000 (some 9) hran hcs hi hfresh hret
    exact ⟨s, t, hrun, hret, hsame, hcount⟩

/-- With the flags `0x1001` the root's entry for the new table at `0x2000` holds the frame `0x3000`: the refused mapping
does not find the table again, and it stays on its list. -/
theorem table_left_of_wide_flags : ∃ st₁ st' : St shelf, halMmuInit 0 (shelfSt [0, 1]) = .ok (true, st₁) ∧
    halMmuTransform st₁ 0x1000 0x5000 0x1001 = .ok (false, st') ∧ st₁.mmu.mudDirhead .s = [] ∧
    st'.mmu.mudDirhead .s = [1] := by
  obtain ⟨⟨rets, st₁⟩, hinit, h⟩ := exists_of_map (x := halMmuInit 0 (shelfSt [0, 1]))
    (f := fun r => (r.1, r.2.mmu.mudDirhead .s,
      Except.map (fun r => (r.1, r.2.mmu.mudDirhead .s)) (halMmuTransform r.2 0x1000 0x5000 0x1001)))
    (b := (true, [], .ok (false, [1]))) (by decide +kernel)
  obtain ⟨rfl, h⟩ := Prod.mk.inj h
  obtain ⟨hhead, hmap⟩ := Prod.mk.inj h
  obtain ⟨⟨rets', st'⟩, hret, h⟩ := exists_of_map hmap
  obtain ⟨rfl, hhead'⟩ := Prod.mk.inj h
  exact ⟨st₁, st', hinit, hret, hhead, hhead'⟩

end Cosmos.Space
