import Mathlib.Algebra.BigOperators.Group.Finset.Basic
import Cosmos.Space.Frames
import Cosmos.Vma.Complete

/-!
# The intervals that use a page box

`kmb_cont` counts the intervals whose `kva_kvmbox` is the box (`refs`): a fault gives an interval without a box a new
one, a split shares the box, and the deletion of a whole interval puts it. A box is in use exactly while an interval
refers to it (`Counts`).
-/

namespace Cosmos.Space

open Cosmos.Lib Cosmos.Page Cosmos.Mmu Cosmos.Vma Kmvarsdsc Function

variable {A : PageAlloc} {L : Lawful A} {s t : Sys A} {frames : List Nat} {rest : List Blk} {i b : Nat}

def uses (b : Nat) (vma : Virmemadrs) : Nat := vma.vsList.countP fun k => decide (k.kvaKvmbox = some b)

def Sys.refs (s : Sys A) (b : Nat) : Nat := ∑ i ∈ Finset.range s.mmnr, uses b (s.vma i)

def one (o : Option Nat) (b : Nat) : Nat := if o = some b then 1 else 0

@[simp] theorem one_none (b : Nat) : one none b = 0 := rfl

theorem one_self (b : Nat) : one (some b) b = 1 := if_pos rfl

theorem one_of_ne {b' : Nat} (h : b' ≠ b) : one (some b) b' = 0 := if_neg fun heq => h (Option.some.inj heq).symm

/-! ### One address space -/

section Uses

variable {vma vma' : Virmemadrs} {pre post : List Kmvarsdsc} {k : Kmvarsdsc} {r n start limits type : Nat}
  {newkmvd : Option Nat} {out : DelOut}

theorem uses_replace (mid : List Kmvarsdsc) (hlist : vma.vsList = pre ++ (mid ++ post)) :
    uses b vma = pre.countP (fun k => decide (k.kvaKvmbox = some b)) +
      (mid.countP (fun k => decide (k.kvaKvmbox = some b)) + post.countP fun k => decide (k.kvaKvmbox = some b)) := by
  rw [uses, hlist, List.countP_append, List.countP_append]

theorem countP_one (k : Kmvarsdsc) (l : List Kmvarsdsc) : (k :: l).countP (fun k => decide (k.kvaKvmbox = some b)) =
    one k.kvaKvmbox b + l.countP fun k => decide (k.kvaKvmbox = some b) := by
  rw [List.countP_cons, one, Nat.add_comm]
  simp only [decide_eq_true_eq]

theorem uses_eq_of_split (hsplit : Nodes.Split kvaAdr vma.vsList pre k post) :
    uses b vma = pre.countP (fun k => decide (k.kvaKvmbox = some b)) +
      (one k.kvaKvmbox b + post.countP fun k => decide (k.kvaKvmbox = some b)) := by
  rw [uses_replace [k] hsplit.eq, countP_one, List.countP_nil, Nat.add_zero]

theorem NewShape.uses_eq (hsplit : Nodes.Split kvaAdr vma.vsList pre k post)
    (h : NewShape vma r n limits type newkmvd pre k post vma') (b : Nat) : uses b vma' = uses b vma := by
  rw [uses_eq_of_split hsplit]
  cases h with
  | extend _ _ _ =>
    rw [uses_replace [{ k with kvaEnd := r + n }] rfl, countP_one, List.countP_nil, Nat.add_zero]
  | insert adr _ =>
    rw [uses_replace [k, newKmvd adr r n limits type] rfl, countP_one, countP_one, List.countP_nil]
    simp only [newKmvd, kmvarsdscTInit, one_none, Nat.add_zero]

theorem DelShape.uses_add (hsplit : Nodes.Split kvaAdr vma.vsList pre k post)
    (h : DelShape vma start n newkmvd pre k post out) (b : Nat) :
    uses b out.vma + one out.put b = uses b vma + one out.count b := by
  rw [uses_eq_of_split hsplit]
  cases h with
  | whole _ _ =>
    rw [uses_replace [] rfl, List.countP_nil]
    simp only [one_none]
    omega
  | trimLeft _ _ =>
    rw [uses_replace [{ k with kvaStart := start + n }] rfl, countP_one, List.countP_nil, Nat.add_zero]
  | trimRight _ _ =>
    rw [uses_replace [{ k with kvaEnd := start }] rfl, countP_one, List.countP_nil, Nat.add_zero]
  | split adr _ _ _ =>
    rw [uses_replace [{ k with kvaEnd := start }, tailKmvd adr (start + n) k] rfl, countP_one, countP_one,
      List.countP_nil]
    simp only [one_none, tailKmvd]
    omega

theorem DelShape.unmap_eq (h : DelShape vma start n newkmvd pre k post out) :
    out.unmap = some (k.kvaKvmbox, start, n) := by
  cases h <;> rfl

theorem DelShape.calls (h : DelShape vma start n newkmvd pre k post out) :
    (∀ b ∈ out.put, k.kvaKvmbox = some b) ∧ (∀ b ∈ out.count, k.kvaKvmbox = some b) ∧
      (out.put = none ∨ out.count = none) := by
  cases h <;> simp

theorem attachBox_vsList (hsplit : Nodes.Split kvaAdr vma.vsList pre k post) (b : Nat) :
    (attachBox vma k.kvaAdr b).vsList = pre ++ ([{ k with kvaKvmbox := some b }] ++ post) := hsplit.modify_eq _

theorem uses_attachBox (hsplit : Nodes.Split kvaAdr vma.vsList pre k post) (hnone : k.kvaKvmbox = none) (b b' : Nat) :
    uses b' (attachBox vma k.kvaAdr b) = uses b' vma + one (some b) b' := by
  rw [uses_replace _ (attachBox_vsList hsplit b), uses_eq_of_split hsplit, countP_one, List.countP_nil, hnone, one_none]
  simp only
  omega

theorem uses_pos {k : Kmvarsdsc} (hk : k ∈ vma.vsList) (hbox : k.kvaKvmbox = some b) : 0 < uses b vma :=
  List.countP_pos_iff.mpr ⟨k, hk, decide_eq_true hbox⟩

theorem Reached.attachBox (h : Reached vma) (hsplit : Nodes.Split kvaAdr vma.vsList pre k post) (b : Nat) :
    Reached (attachBox vma k.kvaAdr b) := by
  obtain ⟨-, -, hpos, -, hpost, -⟩ := (hsplit.eq ▸ h.ordered).split
  have hend := (h.inside k (by rw [hsplit.eq]; simp)).2
  refine ⟨h.toWf.rebound hsplit { k with kvaKvmbox := some b } k.kvaEnd (attachBox_vsList hsplit b) rfl hpos le_rfl
    le_rfl hpost hend rfl (.inl rfl), h.isalcend_eq⟩

end Uses

/-! ### All address spaces -/

theorem Sys.vma_setVma (s : Sys A) (i j : Nat) (vma : Virmemadrs) :
    (s.setVma i vma).vma j = if j = i then vma else s.vma j := by
  by_cases hj : j = i
  · subst hj
    simp only [Sys.vma, setVma, update_self, if_true]
  · simp only [Sys.vma, setVma, update_of_ne hj, if_neg hj]

theorem refs_setVma (hi : i < s.mmnr) (vma : Virmemadrs) (b : Nat) :
    (s.setVma i vma).refs b + uses b (s.vma i) = s.refs b + uses b vma := by
  have hmem : i ∈ Finset.range s.mmnr := Finset.mem_range.mpr hi
  unfold Sys.refs
  rw [show (s.setVma i vma).mmnr = s.mmnr from rfl, ← Finset.add_sum_erase _ (fun j => uses b (s.vma j)) hmem,
    ← Finset.add_sum_erase _ (fun j => uses b ((s.setVma i vma).vma j)) hmem]
  have hother : ∑ j ∈ (Finset.range s.mmnr).erase i, uses b ((s.setVma i vma).vma j) =
      ∑ j ∈ (Finset.range s.mmnr).erase i, uses b (s.vma j) := by
    refine Finset.sum_congr rfl fun j hj => ?_
    rw [Sys.vma_setVma, if_neg (Finset.mem_erase.mp hj).1]
  rw [hother, Sys.vma_setVma, if_pos rfl]
  omega

theorem refs_congr (hnr : t.mmnr = s.mmnr) (hvma : t.vma = s.vma) (b : Nat) : t.refs b = s.refs b := by
  simp only [Sys.refs, hnr, hvma]

theorem uses_le_refs (hi : i < s.mmnr) : uses b (s.vma i) ≤ s.refs b :=
  Finset.single_le_sum (f := fun i => uses b (s.vma i)) (fun _ _ => Nat.zero_le _) (Finset.mem_range.mpr hi)

/-- The counts are the numbers of intervals, and the boxes in use are those an interval refers to. -/
structure Counts (s : Sys A) : Prop where
  nodup : (s.mgr.kbmKmbhead ++ s.mgr.kbmCachehead).Nodup
  cont : ∀ b, (s.box b).kmbCont = s.refs b
  used : ∀ b, b ∈ s.mgr.kbmKmbhead ↔ 0 < s.refs b

theorem Counts.congr (h : Counts s) (hmgr : t.mgr = s.mgr) (hcont : ∀ b, (t.box b).kmbCont = (s.box b).kmbCont)
    (hrefs : ∀ b, t.refs b = s.refs b) : Counts t := by
  refine ⟨hmgr ▸ h.nodup, fun b => ?_, fun b => ?_⟩
  · rw [hcont, hrefs, h.cont]
  · rw [hmgr, hrefs, h.used]

theorem Counts.mem_head (h : Counts s) (hi : i < s.mmnr) {k : Kmvarsdsc} (hk : k ∈ (s.vma i).vsList)
    (hbox : k.kvaKvmbox = some b) : b ∈ s.mgr.kbmKmbhead :=
  (h.used b).mpr (lt_of_lt_of_le (uses_pos hk hbox) (uses_le_refs hi))

/-! ### Counting, putting and getting -/

/-- What counting or putting a box leaves alone. -/
structure OnlyCont (s t : Sys A) : Prop where
  mm : t.mm = s.mm
  mmnr : t.mmnr = s.mmnr
  alc : t.alc = s.alc
  mem : t.mem = s.mem
  list : ∀ b, t.list b = s.list b
  msanr : ∀ b, (t.box b).kmbMsanr = (s.box b).kmbMsanr

def Sys.setCont (s : Sys A) (b : Nat) (n : Int) : Sys A := s.setBox b { s.box b with kmbCont := n }

theorem onlyCont_setCont (s : Sys A) (b : Nat) (n : Int) (mgr : Kvmemcboxmgr) :
    OnlyCont s { s.setCont b n with mgr := mgr } ∧
      ∀ b', ((s.setCont b n).box b').kmbCont = if b' = b then n else (s.box b').kmbCont := by
  refine ⟨⟨rfl, rfl, rfl, rfl, fun b' => ?_, fun b' => ?_⟩, fun b' => ?_⟩ <;> by_cases hb : b' = b
  · subst hb
    simp only [Sys.setCont, Sys.list, Sys.setBox, update_self]
  · simp only [Sys.setCont, Sys.list, Sys.setBox, update_of_ne hb]
  · subst hb
    simp only [Sys.setCont, Sys.setBox, update_self]
  · simp only [Sys.setCont, Sys.setBox, update_of_ne hb]
  · subst hb
    simp only [Sys.setCont, Sys.setBox, update_self, if_true]
  · simp only [Sys.setCont, Sys.setBox, update_of_ne hb, if_neg hb]

theorem knlCountKvmemcbox_spec (s : Sys A) (o : Option Nat) :
    OnlyCont s (knlCountKvmemcbox s o) ∧ (knlCountKvmemcbox s o).mgr = s.mgr ∧
      ∀ b, ((knlCountKvmemcbox s o).box b).kmbCont = (s.box b).kmbCont + one o b := by
  cases o with
  | none => exact ⟨⟨rfl, rfl, rfl, rfl, fun _ => rfl, fun _ => rfl⟩, rfl, fun b => (Int.add_zero _).symm⟩
  | some kmbox =>
    obtain ⟨honly, hcont⟩ := onlyCont_setCont s kmbox ((s.box kmbox).kmbCont + 1) s.mgr
    refine ⟨honly, rfl, fun b => (hcont b).trans ?_⟩
    by_cases hb : b = kmbox
    · subst hb
      rw [if_pos rfl, one_self, Nat.cast_one]
    · rw [if_neg hb, one_of_ne hb, Nat.cast_zero, Int.add_zero]

theorem knlPutKvmemcbox_cases (s : Sys A) (kmbox : Nat) :
    ∃ mgr, knlPutKvmemcbox s (some kmbox) = { s.setCont kmbox ((s.box kmbox).kmbCont - 1) with mgr := mgr } ∧
      (1 ≤ (s.box kmbox).kmbCont - 1 ∧ mgr = s.mgr ∨
        (s.box kmbox).kmbCont - 1 < 1 ∧ mgr.kbmKmbhead = s.mgr.kbmKmbhead.erase kmbox ∧
          (mgr.kbmCachehead = s.mgr.kbmCachehead ∨ mgr.kbmCachehead = kmbox :: s.mgr.kbmCachehead)) := by
  unfold knlPutKvmemcbox
  simp only [Sys.setBox, update_self]
  by_cases hpos : 1 ≤ (s.box kmbox).kmbCont - 1
  · rw [if_pos hpos]
    exact ⟨s.mgr, rfl, .inl ⟨hpos, rfl⟩⟩
  · rw [if_neg hpos]
    by_cases hmax : s.mgr.kbmCachemax ≤ s.mgr.kbmCachenr
    · exact ⟨_, if_pos hmax, .inr ⟨by omega, rfl, .inl rfl⟩⟩
    · exact ⟨_, if_neg hmax, .inr ⟨by omega, rfl, .inr rfl⟩⟩

theorem knlPutKvmemcbox_spec (s : Sys A) (o : Option Nat) (hnodup : (s.mgr.kbmKmbhead ++ s.mgr.kbmCachehead).Nodup)
    (ho : ∀ b ∈ o, b ∈ s.mgr.kbmKmbhead) :
    OnlyCont s (knlPutKvmemcbox s o) ∧
      ((knlPutKvmemcbox s o).mgr.kbmKmbhead ++ (knlPutKvmemcbox s o).mgr.kbmCachehead).Nodup ∧
      (∀ b, ((knlPutKvmemcbox s o).box b).kmbCont = (s.box b).kmbCont - one o b) ∧
      ∀ b, b ∈ (knlPutKvmemcbox s o).mgr.kbmKmbhead ↔
        b ∈ s.mgr.kbmKmbhead ∧ ¬(o = some b ∧ (s.box b).kmbCont - 1 < 1) := by
  cases o with
  | none =>
    refine ⟨⟨rfl, rfl, rfl, rfl, fun _ => rfl, fun _ => rfl⟩, hnodup, fun b => (Int.sub_zero _).symm, fun b => ?_⟩
    exact ⟨fun hb => ⟨hb, fun hand => by cases hand.1⟩, fun hand => hand.1⟩
  | some kmbox =>
    obtain ⟨mgr, heq, hmgr⟩ := knlPutKvmemcbox_cases s kmbox
    obtain ⟨honly, hcont⟩ := onlyCont_setCont s kmbox ((s.box kmbox).kmbCont - 1) mgr
    rw [heq]
    refine ⟨honly, ?_, fun b => (hcont b).trans ?_, fun b => ?_⟩
    · rcases hmgr with ⟨-, rfl⟩ | ⟨-, hhead, hcache | hcache⟩
      · exact hnodup
      · simp only [hhead, hcache]
        exact hnodup.sublist (List.erase_sublist.append_right _)
      · have hperm : (s.mgr.kbmKmbhead.erase kmbox ++ kmbox :: s.mgr.kbmCachehead).Perm
            (s.mgr.kbmKmbhead ++ s.mgr.kbmCachehead) :=
          List.perm_middle.trans ((List.perm_cons_erase (ho kmbox rfl)).symm.append_right _)
        simp only [hhead, hcache]
        exact hperm.nodup_iff.mpr hnodup
    · by_cases hb : b = kmbox
      · subst hb
        rw [if_pos rfl, one_self, Nat.cast_one]
      · rw [if_neg hb, one_of_ne hb, Nat.cast_zero, Int.sub_zero]
    · rcases hmgr with ⟨hpos, rfl⟩ | ⟨hneg, hhead, -⟩
      · refine ⟨fun hb => ⟨hb, fun hand => ?_⟩, fun hand => hand.1⟩
        obtain rfl := Option.some.inj hand.1
        omega
      · simp only [hhead, (List.nodup_append.mp hnodup).1.mem_erase_iff]
        refine ⟨fun hand => ⟨hand.2, fun heq => hand.1 (Option.some.inj heq.1).symm⟩, fun hand => ⟨?_, hand.1⟩⟩
        rintro rfl
        exact hand.2 ⟨rfl, hneg⟩

def FreshBox (s : Sys A) (newkvmemcbox : Option Nat) : Prop :=
  ∀ kmb, newkvmemcbox = some kmb → kmb ∉ s.mgr.kbmKmbhead ++ s.mgr.kbmCachehead

instance (s : Sys A) : (newkvmemcbox : Option Nat) → Decidable (FreshBox s newkvmemcbox)
  | none => isTrue fun _ h => nomatch h
  | some kmb => decidable_of_iff (kmb ∉ s.mgr.kbmKmbhead ++ s.mgr.kbmCachehead)
      ⟨fun h _ heq => Option.some.inj heq ▸ h, fun h => h kmb rfl⟩

theorem knlGetKvmemcbox_spec {o : Option Nat} {kmb : Nat}
    (hnodup : (s.mgr.kbmKmbhead ++ s.mgr.kbmCachehead).Nodup) (hfresh : FreshBox s o)
    (h : knlGetKvmemcbox s o = .ok (kmb, t)) :
    ∃ mgr, t = freshBox s kmb mgr ∧ mgr.kbmKmbhead = s.mgr.kbmKmbhead ∧
      (kmb :: (s.mgr.kbmKmbhead ++ mgr.kbmCachehead)).Nodup := by
  unfold knlGetKvmemcbox at h
  split at h
  · next kmb' cache hcache =>
    obtain ⟨rfl, rfl⟩ : kmb' = kmb ∧ freshBox s kmb' _ = t := by simpa using h
    have hhead : s.mgr.kbmCachehead = kmb' :: cache := by
      split_ifs at hcache
      exact hcache
    refine ⟨_, rfl, rfl, ?_⟩
    rw [hhead] at hnodup
    exact List.perm_middle.nodup_iff.mp hnodup
  · cases o with
    | none => simp at h
    | some kmb' =>
      obtain ⟨rfl, rfl⟩ : kmb' = kmb ∧ freshBox s kmb' s.mgr = t := by simpa using h
      exact ⟨_, rfl, rfl, List.nodup_cons.mpr ⟨hfresh kmb' rfl, hnodup⟩⟩

end Cosmos.Space
