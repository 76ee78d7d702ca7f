import Cosmos.Lib.Yields
import Cosmos.Mmu.Ownership
import Cosmos.Thread.Answers
import Cosmos.Vma.Invariant

/-!
# What making a thread does to the memory

`del_mmadrsdsc` gives back the tables and the descriptor of an address space, but not the descriptors of its intervals.
So `krlnew_user_thread_core` gives everything back if it fails before the new space has its intervals, and loses the
three of them if it fails later. `new_mmadrsdsc` does not look at what `hal_mmu_init` answers: a thread can be made
without a root table.
-/

namespace Cosmos.Thread

open Cosmos.Lib Halt Cosmos.Page Cosmos.Mmu Cosmos.Vma Cosmos.Krlmm Function
open Obj (classOf)

variable {A : PageAlloc} {x y z : Kern A}

/-! ### What is in use -/

structure Same (u v : Uses) : Prop where
  objs : ∀ c, (u.objs c).Perm (v.objs c)
  pgs : u.pgs.Perm v.pgs

section Same

variable {u v w : Uses} {a b s t : Nat} {l l' : List (Nat × Nat)}

theorem Same.refl (u : Uses) : Same u u := ⟨fun _ => .refl _, .refl _⟩

theorem Same.symm (h : Same u v) : Same v u := ⟨fun c => (h.objs c).symm, h.pgs.symm⟩

theorem Same.trans (h : Same u v) (h' : Same v w) : Same u w :=
  ⟨fun c => (h.objs c).trans (h'.objs c), h.pgs.trans h'.pgs⟩

theorem Same.update (h : ∀ c, (u.objs c).Perm (v.objs c)) {c : Nat} {k k' : List Nat} (hk : k.Perm k') (d : Nat) :
    (update u.objs c k d).Perm (update v.objs c k' d) := by
  by_cases hd : d = c
  · subst hd
    rwa [update_self, update_self]
  · rw [update_of_ne hd, update_of_ne hd]
    exact h d

theorem Same.handOut (h : Same u v) (s : Nat) (r : Option Nat) : Same (handOut u s r) (handOut v s r) := by
  cases r with
  | none => exact h
  | some a =>
    unfold Krlmm.handOut
    dsimp only
    split_ifs
    · exact ⟨h.objs, h.pgs.cons _⟩
    · exact ⟨Same.update h.objs ((h.objs _).cons _), h.pgs⟩

theorem Same.takeBack (h : Same u v) (a s : Nat) (r : Bool) : Same (takeBack u a s r) (takeBack v a s r) := by
  cases r with
  | false => exact h
  | true =>
    unfold Krlmm.takeBack
    dsimp only
    split_ifs
    · exact ⟨h.objs, h.pgs.erase _⟩
    · exact ⟨Same.update h.objs ((h.objs _).erase _), h.pgs⟩

theorem takeBack_handOut (u : Uses) (a s : Nat) : takeBack (handOut u s (some a)) a s true = u := by
  unfold takeBack handOut
  dsimp only
  split_ifs
  · rw [List.erase_cons_head]
  · simp only [Obj.handOut, Obj.takeBack, update_self, List.erase_cons_head, update_idem,
      update_eq_self]

theorem handOut_comm (u : Uses) (a b s t : Nat) :
    Same (handOut (handOut u s (some a)) t (some b)) (handOut (handOut u t (some b)) s (some a)) := by
  unfold handOut
  dsimp only
  split_ifs
  · exact ⟨fun _ => .refl _, .swap ..⟩
  · exact .refl _
  · exact .refl _
  · refine ⟨fun c => ?_, .refl _⟩
    simp only [Obj.handOut]
    by_cases hst : classOf (objsAlign t) = classOf (objsAlign s)
    · rw [hst, update_self, update_self, update_idem, update_idem]
      exact Same.update (fun _ => .refl _) (.swap ..) c
    · rw [update_of_ne hst, update_of_ne (Ne.symm hst), update_comm hst]

def withItems (u : Uses) (l : List (Nat × Nat)) : Uses := l.foldr (fun i u => handOut u i.1 (some i.2)) u

theorem withItems_cons (u : Uses) (s a : Nat) (l : List (Nat × Nat)) :
    withItems u ((s, a) :: l) = handOut (withItems u l) s (some a) := rfl

theorem withItems_perm (u : Uses) (h : l.Perm l') : Same (withItems u l) (withItems u l') := by
  induction h with
  | nil => exact .refl _
  | cons i _ ih =>
    rw [withItems_cons, withItems_cons]
    exact ih.handOut _ _
  | swap i j l => exact handOut_comm _ _ _ _ _
  | trans _ _ ih ih' => exact ih.trans ih'

theorem length_le_handOut (u : Uses) (s a c : Nat) :
    (u.objs c).length ≤ ((handOut u s (some a)).objs c).length ∧ u.pgs.length ≤ (handOut u s (some a)).pgs.length := by
  unfold handOut
  dsimp only
  split_ifs
  · exact ⟨Nat.le_refl _, Nat.le_succ _⟩
  · refine ⟨?_, Nat.le_refl _⟩
    simp only [Obj.handOut]
    by_cases hc : c = classOf (objsAlign s)
    · rw [hc, update_self]
      exact Nat.le_succ _
    · rw [update_of_ne hc]

theorem length_le_withItems (u : Uses) (l : List (Nat × Nat)) (c : Nat) :
    (u.objs c).length ≤ ((withItems u l).objs c).length ∧ u.pgs.length ≤ (withItems u l).pgs.length := by
  induction l with
  | nil => exact ⟨Nat.le_refl _, Nat.le_refl _⟩
  | cons i l ih =>
    have hmore := length_le_handOut (withItems u l) i.1 i.2 c
    exact ⟨ih.1.trans hmore.1, ih.2.trans hmore.2⟩

theorem Same.eq_nil (h : Same (withItems u l) u) : l = [] := by
  cases l with
  | nil => rfl
  | cons i l =>
    exfalso
    have hle := length_le_withItems u l (classOf (objsAlign i.1))
    rw [withItems_cons] at h
    have hobjs := (h.objs (classOf (objsAlign i.1))).length_eq
    have hpgs := h.pgs.length_eq
    unfold Krlmm.handOut at hobjs hpgs
    dsimp only at hobjs hpgs
    split_ifs at hobjs hpgs
    · rw [List.length_cons] at hpgs
      omega
    · simp only [Obj.handOut, update_self, List.length_cons] at hobjs
      omega

end Same

/-! ### What came into use -/

/-- What is in use in `y` is what is in use in `x` and the memory `l`. -/
def Gains (x y : Kern A) (l : List (Nat × Nat)) : Prop := Same y.uses (withItems x.uses l)

section Gains

variable {a s : Nat} {l l' : List (Nat × Nat)}

theorem Gains.refl (x : Kern A) : Gains x x [] := Same.refl _

theorem Gains.perm (h : Gains x y l) (hperm : l.Perm l') : Gains x y l' := Same.trans h (withItems_perm _ hperm)

theorem Gains.congr (h : Gains x y l) (heq : z.uses = y.uses) : Gains x z l := by
  unfold Gains
  rwa [heq]

theorem Gains.new (h : Gains x y l) (heq : z.uses = handOut y.uses s (some a)) : Gains x z ((s, a) :: l) := by
  unfold Gains
  rw [heq, withItems_cons]
  exact Same.handOut h s (some a)

theorem Gains.delete (h : Gains x y ((s, a) :: l)) (heq : z.uses = takeBack y.uses a s true) : Gains x z l := by
  have hback := Same.takeBack h a s true
  rw [withItems_cons, takeBack_handOut] at hback
  unfold Gains
  rwa [heq]

theorem Gains.mem (h : Gains x y l) (hmem : (s, a) ∈ l) (hs : s ≤ objsorpage) :
    a ∈ y.uses.objs (classOf (objsAlign s)) := by
  have hperm := h.perm (List.perm_cons_erase hmem)
  refine (Same.objs hperm _).mem_iff.mpr ?_
  rw [withItems_cons]
  unfold handOut
  simp only [if_neg (Nat.not_lt.mpr hs), Obj.handOut, update_self, List.mem_cons, true_or]

end Gains

/-! ### The calls on the memory manager -/

section Calls

variable {L : Lawful A} {addr : Nat → Nat} {rest : List Blk}

/-- The memory manager is in order, with what is in use of it; `rest` are the live page blocks of everybody else. -/
def Good (L : Lawful A) (addr : Nat → Nat) (rest : List Blk) (x : Kern A) : Prop :=
  ∃ held, Krlmm.Inv L addr rest x.krlmm x.uses held

/-- Nothing but the memory manager and what is in use of it has changed. -/
def Only (x y : Kern A) (uses : Uses) : Prop := ∃ krlmm, y = { x with krlmm := krlmm, uses := uses }

theorem Only.uses_eq {u : Uses} (h : Only x y u) : y.uses = u := by
  obtain ⟨krlmm, rfl⟩ := h
  rfl

theorem Only.mm_eq {u : Uses} (h : Only x y u) : y.mm = x.mm := by
  obtain ⟨krlmm, rfl⟩ := h
  rfl

theorem Only.cr3_eq {u : Uses} (h : Only x y u) : y.cr3 = x.cr3 := by
  obtain ⟨krlmm, rfl⟩ := h
  rfl

theorem Only.mem_eq {u : Uses} (h : Only x y u) : y.mem = x.mem := by
  obtain ⟨krlmm, rfl⟩ := h
  rfl

theorem Only.mbPml4padr_eq {u : Uses} (h : Only x y u) : y.mbPml4padr = x.mbPml4padr := by
  obtain ⟨krlmm, rfl⟩ := h
  rfl

theorem Only.sched_eq {u : Uses} (h : Only x y u) : y.sched = x.sched := by
  obtain ⟨krlmm, rfl⟩ := h
  rfl

theorem Only.self {u : Uses} (h : Only x y u) : Only x y y.uses := by
  rwa [h.uses_eq]

theorem Only.trans {u v : Uses} (h : Only x y u) (h' : Only y z v) : Only x z v := by
  obtain ⟨krlmm, rfl⟩ := h
  obtain ⟨krlmm', rfl⟩ := h'
  exact ⟨krlmm', rfl⟩

theorem only_of_bind {α β : Type} {m : Halt α} {f : α → β} {k : α → Krlmm.St A} (u : β → Uses) :
    Yields False (m >>= fun a => .ok (f a, { x with krlmm := k a, uses := u (f a) })) fun r => Only x r.2 (u r.1) := by
  refine ⟨fun r hr => ?_, False.elim⟩
  obtain ⟨a, -, hr⟩ := bind_eq_ok hr
  obtain rfl := Except.ok.inj hr
  exact ⟨_, rfl⟩

theorem only_kmsobNew (x : Kern A) (msz : Nat) :
    Yields False (kmsobNew x msz) fun r => Only x r.2 (handOut x.uses msz r.1) :=
  only_of_bind (handOut x.uses msz)

theorem only_kmsobDelete (x : Kern A) (fadrs fsz : Nat) :
    Yields False (kmsobDelete x fadrs fsz) fun r => Only x r.2 (takeBack x.uses fadrs fsz r.1) :=
  only_of_bind (takeBack x.uses fadrs fsz)

theorem only_krlnew (x : Kern A) (mmsize : Nat) :
    Yields False (krlnew x mmsize) fun r => Only x r.2 (handOut x.uses mmsize r.1) :=
  only_of_bind (handOut x.uses mmsize)

theorem only_krldelete (x : Kern A) (fradr frsz : Nat) :
    Yields False (krldelete x fradr frsz) fun r => Only x r.2 (takeBack x.uses fradr frsz r.1) :=
  only_of_bind (takeBack x.uses fradr frsz)

theorem good_kmsobNew (h : Good L addr rest x) {msz : Nat} (hpos : 1 ≤ msz) (hmsz : msz ≤ objsorpage) :
    Yields False (kmsobNew x msz) fun r => Good L addr rest r.2 ∧ Only x r.2 (handOut x.uses msz r.1) := by
  obtain ⟨held, hinv⟩ := h
  obtain ⟨r, obj, heq, hspec⟩ := Obj.kmsobNew_spec hinv.obj msz
  unfold kmsobNew
  rw [bind_of_ok heq]
  refine .pure ⟨⟨held, ?_⟩, _, rfl⟩
  cases r with
  | none => exact hinv.withObj hspec
  | some a =>
    have hobjs := hspec.2.2
    rw [← classOf_objsAlign hpos hmsz] at hobjs
    unfold handOut
    simp only [if_neg (Nat.not_lt.mpr hmsz)]
    exact hinv.withObj hobjs

theorem good_kmsobDelete (h : Good L addr rest x) {a msz : Nat} (hpos : 1 ≤ msz) (hmsz : msz ≤ objsorpage)
    (ha : a ∈ x.uses.objs (classOf (objsAlign msz))) :
    Yields False (kmsobDelete x a msz) fun r => r.1 = true ∧ Good L addr rest r.2 ∧
      Only x r.2 (takeBack x.uses a msz true) := by
  obtain ⟨held, hinv⟩ := h
  rw [classOf_objsAlign hpos hmsz] at ha
  obtain ⟨obj, heq, hobjs⟩ := Obj.kmsobDelete_live hinv.obj hpos hmsz ha
  unfold kmsobDelete
  rw [bind_of_ok heq]
  refine .pure ⟨rfl, ⟨held, ?_⟩, _, rfl⟩
  rw [← classOf_objsAlign hpos hmsz] at hobjs
  unfold takeBack
  simp only [if_neg (Nat.not_lt.mpr hmsz)]
  exact hinv.withObj hobjs

/-- `y` differs from `x` in the memory manager, in what is in use and in the intervals of the space at `mm`, which are
those that `kvma_inituserspace_virmemadrs` makes of some answers of `new_kmvarsdsc`. -/
def Spaces (mm : Nat) (x y : Kern A) : Prop :=
  ∃ kmvdc heapkmvdc stackkmvdc, ∃ z : Kern A, Only x z z.uses ∧
    y = z.setVma mm (Vma.kvmaInituserspaceVirmemadrs (x.vma mm) kmvdc heapkmvdc stackkmvdc).2

theorem Spaces.of_only {u : Uses} (mm : Nat) (h : Only x y u) : Spaces mm x y := by
  refine ⟨none, none, none, y, h.self, ?_⟩
  obtain ⟨krlmm, rfl⟩ := h
  simp [Kern.setVma, Kern.setMm, Kern.vma, Vma.kvmaInituserspaceVirmemadrs]

theorem Spaces.sched_eq {mm : Nat} (h : Spaces mm x y) : y.sched = x.sched := by
  obtain ⟨-, -, -, z, hz, rfl⟩ := h
  exact hz.sched_eq

theorem spaces_kvmaInituserspaceVirmemadrs (x : Kern A) (mm : Nat) :
    Yields False (kvmaInituserspaceVirmemadrs x mm) fun r => Spaces mm x r.2 := by
  refine (only_kmsobNew x _).bind ?_
  rintro ⟨_ | kmvdc, y⟩ hy
  · exact .pure (.of_only mm hy)
  refine (only_kmsobNew y _).bind ?_
  rintro ⟨_ | heapkmvdc, z⟩ hz
  · exact (only_kmsobDelete z _ _).bind fun r hr => .pure (.of_only mm ((hy.trans hz).trans hr))
  refine (only_kmsobNew z _).bind ?_
  rintro ⟨_ | stackkmvdc, w⟩ hw
  · exact (only_kmsobDelete w _ _).bind fun r hr => (only_kmsobDelete r.2 _ _).bind fun r' hr' =>
      .pure (.of_only mm ((((hy.trans hz).trans hw).trans hr).trans hr'))
  · have honly := (hy.trans hz).trans hw
    have hvma : w.vma mm = x.vma mm := congrArg (fun f => (f mm).msdVirmemadrs) honly.mm_eq
    refine .pure ⟨some kmvdc, some heapkmvdc, some stackkmvdc, w, honly.self, ?_⟩
    rw [hvma]

theorem good_kvmaInituserspaceVirmemadrs {l : List (Nat × Nat)} (h : Good L addr rest y) (hg : Gains x y l) (mm : Nat) :
    Yields False (kvmaInituserspaceVirmemadrs y mm) fun r => Good L addr rest r.2 ∧
      ((Gains x r.2 l ∧ Only y r.2 r.2.uses ∧ ¬ Serves y.krlmm intervalReqs) ∨
        ∃ d₁ d₂ d₃, (∀ qs, Serves y.krlmm (intervalReqs ++ qs) ↔ Serves r.2.krlmm qs) ∧
          Gains x r.2 ((sizeofKmvarsdsc, d₃) :: (sizeofKmvarsdsc, d₂) :: (sizeofKmvarsdsc, d₁) :: l) ∧
          ∃ z, Only y z z.uses ∧
            r.2 = z.setVma mm (Vma.kvmaInituserspaceVirmemadrs (y.vma mm) (some d₁) (some d₂) (some d₃)).2) := by
  have hpos : 1 ≤ sizeofKmvarsdsc := by decide
  have hmax : sizeofKmvarsdsc ≤ objsorpage := by decide
  refine (good_kmsobNew h hpos hmax).self.bind ?_
  rintro ⟨_ | d₁, y₁⟩ ⟨hnew₁, h₁, honly₁⟩
  all_goals have hask₁ := serves_cons true (ask_kmsobNew hnew₁)
  · refine .pure ⟨h₁, .inl ⟨hg.congr honly₁.uses_eq, honly₁.self, ?_⟩⟩
    simp [intervalReqs, hask₁]
  have hg₁ := hg.new honly₁.uses_eq
  refine (good_kmsobNew h₁ hpos hmax).self.bind ?_
  rintro ⟨_ | d₂, y₂⟩ ⟨hnew₂, h₂, honly₂⟩
  all_goals have hask₂ := serves_cons true (ask_kmsobNew hnew₂)
  · have hg₂ := hg₁.congr honly₂.uses_eq
    refine (good_kmsobDelete h₂ hpos hmax (hg₂.mem List.mem_cons_self hmax)).bind ?_
    rintro ⟨rets, y₃⟩ ⟨-, h₃, honly₃⟩
    refine .pure ⟨h₃, .inl ⟨hg₂.delete honly₃.uses_eq, ((honly₁.trans honly₂).trans honly₃).self, ?_⟩⟩
    simp [intervalReqs, hask₁, hask₂]
  have hg₂ := hg₁.new honly₂.uses_eq
  refine (good_kmsobNew h₂ hpos hmax).self.bind ?_
  rintro ⟨_ | d₃, y₃⟩ ⟨hnew₃, h₃, honly₃⟩
  all_goals have hask₃ := serves_cons true (ask_kmsobNew hnew₃)
  · have hg₃ := (hg₂.congr honly₃.uses_eq).perm (.swap ..)
    refine (good_kmsobDelete h₃ hpos hmax (hg₃.mem List.mem_cons_self hmax)).bind ?_
    rintro ⟨rets, y₄⟩ ⟨-, h₄, honly₄⟩
    have hg₄ := hg₃.delete honly₄.uses_eq
    refine (good_kmsobDelete h₄ hpos hmax (hg₄.mem List.mem_cons_self hmax)).bind ?_
    rintro ⟨rets', y₅⟩ ⟨-, h₅, honly₅⟩
    have honly := (((honly₁.trans honly₂).trans honly₃).trans honly₄).trans honly₅
    refine .pure ⟨h₅, .inl ⟨hg₄.delete honly₅.uses_eq, honly.self, ?_⟩⟩
    simp [intervalReqs, hask₁, hask₂, hask₃]
  · have honly := (honly₁.trans honly₂).trans honly₃
    have hvma : y₃.vma mm = y.vma mm := congrArg (fun f => (f mm).msdVirmemadrs) honly.mm_eq
    refine .pure ⟨h₃, .inr ⟨d₁, d₂, d₃, fun qs => ?_, hg₂.new honly₃.uses_eq, y₃, honly.self, ?_⟩⟩
    · simp [intervalReqs, hask₁, hask₂, hask₃, Kern.setVma, Kern.setMm]
    · rw [hvma]

/-! ### A new address space -/

theorem vma_setSt (x : Kern A) (mm : Nat) (st : Mmu.St A) : (x.setSt mm st).vma mm = x.vma mm := by
  simp [Kern.vma, Kern.setSt, Kern.setMm]

theorem msdMmu_setSt (x : Kern A) (mm : Nat) (st : Mmu.St A) : ((x.setSt mm st).mm mm).msdMmu = st.mmu := by
  simp [Kern.setSt, Kern.setMm]

/-- **A new space here is a new space of `Cosmos.Space`**, made with the answers that `new_kmvarsdsc` gave. -/
theorem newMmadrsdsc_space {mm : Nat} (h : newMmadrsdsc x = .ok (some mm, y)) :
    ∃ alc kmvdc heapkmvdc stackkmvdc, ∀ (s : Space.Sys A) (thread : Option (Nat × Nat)), s.alc = alc → s.mem = x.mem →
      ∃ rets t, Space.newMmadrsdsc s x.mbPml4padr kmvdc heapkmvdc stackkmvdc thread = .ok (rets, t) ∧
        t.st s.mmnr = y.st mm ∧ t.vma s.mmnr = y.vma mm := by
  obtain ⟨⟨r, x₁⟩, hnew, h⟩ := bind_eq_ok h
  have h₁ := (only_kmsobNew x _).post _ hnew
  cases r with
  | none => cases (pair_inj h).1
  | some mm' =>
    obtain ⟨⟨rets, x₂⟩, hspace, h⟩ := bind_eq_ok h
    obtain ⟨kmvdc, heapkmvdc, stackkmvdc, z, h₂, hx₂⟩ := (spaces_kvmaInituserspaceVirmemadrs _ mm').post _ hspace
    dsimp only at hx₂
    obtain ⟨⟨rets', st⟩, hinit, h⟩ := bind_eq_ok h
    obtain ⟨hmm, rfl⟩ := pair_inj h
    obtain rfl := Option.some.inj hmm
    -- the tables of the space are fresh, and its intervals are those of the answers
    have hst : x₂.st mm' = ⟨mmudscTInit, x₂.krlmm.obj.alc, x.mem⟩ := by
      have hmem : z.mem = x.mem := h₂.mem_eq.trans h₁.mem_eq
      simp [hx₂, Kern.st, Kern.setVma, Kern.setMm, h₂.mm_eq, hmem, mmadrsdscTInit]
    have hvma : x₂.vma mm' = (Vma.kvmaInituserspaceVirmemadrs virmemadrsTInit kmvdc heapkmvdc stackkmvdc).2 := by
      simp [hx₂, Kern.vma, Kern.setVma, Kern.setMm, mmadrsdscTInit]
    have hpml4 : x₂.mbPml4padr = x.mbPml4padr := by
      rw [hx₂]
      exact h₂.mbPml4padr_eq.trans h₁.mbPml4padr_eq
    rw [hst, hpml4] at hinit
    refine ⟨x₂.krlmm.obj.alc, kmvdc, heapkmvdc, stackkmvdc, fun s thread halc hmem => ?_⟩
    unfold Space.newMmadrsdsc
    rw [halc, hmem, bind_of_ok hinit]
    refine ⟨_, _, rfl, ?_, ?_⟩
    · simp [Space.Sys.st, Kern.st, Kern.setSt, Kern.setMm, Kern.setAlc]
    · rw [vma_setSt, hvma]
      simp [Space.Sys.vma]

theorem Good.setSt {rest' : List Blk} {held : List (Nat × Nat)} (h : Krlmm.Inv L addr rest x.krlmm x.uses held)
    (mm : Nat)
    {st : Mmu.St A} (hinv : L.Inv st.alc (held.map blkOf ++ (Obj.total x.krlmm.obj.blocks ++ rest')))
    (haddr : A.msadscRetAddr st.alc = addr) : Good L addr rest' (x.setSt mm st) :=
  ⟨held, h.withAlc hinv haddr⟩

/-- While the blocks `rest` are live no page is handed out at `p`. -/
def Reserved (L : Lawful A) (addr : Nat → Nat) (rest : List Blk) (p : Nat) : Prop :=
  ∀ s msa l, A.msadscRetAddr s = addr → L.Inv s ((msa, 1) :: l) → rest ⊆ l → addr msa ≠ p

theorem reserved_zero : Reserved L addr rest 0 := by
  intro s msa l haddr hinv _
  have hpos := (L.frame hinv _ List.mem_cons_self).2.1
  rw [haddr] at hpos
  exact Nat.pos_iff_ne_zero.mp hpos

/-- What `new_mmadrsdsc` leaves when it returns the space at `mm`. -/
structure NewSpace (L : Lawful A) (addr : Nat → Nat) (rest : List Blk) (x y : Kern A) (mm : Nat) : Prop where
  good : Good L addr ((y.mm mm).msdMmu.tables.map (·, 1) ++ rest) y
  idle : Reserved L addr rest (direRetPadr x.cr3) →
    krnlMapVirtaddressStart + direRetPadr y.cr3 ≠ (y.mm mm).msdMmu.mudTdirearr
  space : (y.vma mm = virmemadrsTInit ∧ Gains x y [(sizeofMmadrsdsc, mm)] ∧ ¬ Serves x.krlmm spaceReqs) ∨
    ∃ d₁ d₂ d₃, y.vma mm = userspace d₁ d₂ d₃ ∧
      Gains x y [(sizeofKmvarsdsc, d₃), (sizeofKmvarsdsc, d₂), (sizeofKmvarsdsc, d₁), (sizeofMmadrsdsc, mm)] ∧
      Serves x.krlmm spaceReqs ∧ ∀ root qs, Serves x.krlmm (spaceReqs ++ (.page, root) :: qs) ↔
        (root = true → (y.mm mm).msdMmu.mudTdirearr ≠ 0) ∧ Serves y.krlmm qs

theorem newSpace_halMmuInit {mm : Nat} {rets : Bool} {st : Mmu.St A} (h : Good L addr rest y)
    (hmmu : (y.mm mm).msdMmu = mmudscTInit) (hinit : halMmuInit y.mbPml4padr (y.st mm) = .ok (rets, st)) :
    Good L addr (st.mmu.tables.map (·, 1) ++ rest) (y.setSt mm st) ∧
      (Reserved L addr rest (direRetPadr y.cr3) →
        krnlMapVirtaddressStart + direRetPadr y.cr3 ≠ st.mmu.mudTdirearr) ∧
      (rets = true ↔ st.mmu.mudTdirearr ≠ 0) := by
  obtain ⟨held, hinv⟩ := h
  have hvirt : 0 < krnlMapVirtaddressStart := by decide
  have haddr : (y.st mm).addr = addr := hinv.addr_eq
  rcases halMmuInit_cases hmmu hinv.alc hinit with
    ⟨rfl, alc, rfl, hsame, halc⟩ | ⟨rfl, msa, alc, rfl, hsame, halc, -⟩
  · have htables : (y.st mm).mmu.tables = [] := by rw [show (y.st mm).mmu = mmudscTInit from hmmu]; rfl
    have hroot : (y.st mm).mmu.mudTdirearr = 0 := by rw [show (y.st mm).mmu = mmudscTInit from hmmu]; rfl
    refine ⟨?_, fun _ => by rw [hroot]; omega, by simp [hroot]⟩
    rw [htables]
    exact Good.setSt hinv mm halc (hsame.trans haddr)
  · refine ⟨Good.setSt hinv mm (L.perm halc ?_) (hsame.trans haddr), fun hcr3 heq => ?_, ?_⟩
    · show ((msa, 1) :: (held.map blkOf ++ (Obj.total y.krlmm.obj.blocks ++ rest))).Perm
        (held.map blkOf ++ (Obj.total y.krlmm.obj.blocks ++ ((msa, 1) :: rest)))
      rw [← List.append_assoc, ← List.append_assoc]
      exact List.perm_middle.symm
    · have hroot : krnlMapVirtaddressStart + direRetPadr y.cr3 = krnlMapVirtaddressStart + (y.st mm).addr msa := heq
      rw [haddr] at hroot
      refine hcr3 alc msa _ (hsame.trans haddr) halc ?_ (Nat.add_left_cancel hroot).symm
      exact fun b hb => List.mem_append_right _ (List.mem_append_right _ hb)
    · have hroot : ((y.st mm).initRoot alc y.mbPml4padr msa).mmu.mudTdirearr =
        krnlMapVirtaddressStart + (y.st mm).addr msa := rfl
      rw [hroot]
      exact iff_of_true rfl (by omega)

theorem good_newMmadrsdsc (h : Good L addr rest x) :
    Yields False (newMmadrsdsc x) fun r =>
      match r.1 with
      | none => Good L addr rest r.2 ∧ Gains x r.2 [] ∧ ¬ Serves x.krlmm spaceReqs
      | some mm => NewSpace L addr rest x r.2 mm := by
  have hpos : 1 ≤ sizeofMmadrsdsc := by decide
  have hmax : sizeofMmadrsdsc ≤ objsorpage := by decide
  refine (good_kmsobNew h hpos hmax).self.bind ?_
  rintro ⟨_ | mm, y⟩ ⟨hobj, hy, honly⟩
  all_goals have hask := serves_cons true (ask_kmsobNew hobj)
  · refine .pure ⟨hy, (Gains.refl x).congr honly.uses_eq, ?_⟩
    simp [spaceReqs, hask]
  have hg : Gains x (y.setMm mm mmadrsdscTInit) [(sizeofMmadrsdsc, mm)] := (Gains.refl x).new honly.uses_eq
  have hself : (y.setMm mm mmadrsdscTInit).mm mm = mmadrsdscTInit := update_self ..
  refine (good_kvmaInituserspaceVirmemadrs (y := y.setMm mm mmadrsdscTInit) hy hg mm).bind ?_
  rintro ⟨rets, z⟩ ⟨hz, hspace⟩
  dsimp only at hz hspace ⊢
  -- what is known of the space before the root table is made
  have hnew : (z.mm mm).msdMmu = mmudscTInit ∧ z.cr3 = x.cr3 ∧
      ((z.vma mm = virmemadrsTInit ∧ Gains x z [(sizeofMmadrsdsc, mm)] ∧ ¬ Serves x.krlmm spaceReqs) ∨
        ∃ d₁ d₂ d₃, z.vma mm = userspace d₁ d₂ d₃ ∧
          Gains x z [(sizeofKmvarsdsc, d₃), (sizeofKmvarsdsc, d₂), (sizeofKmvarsdsc, d₁), (sizeofMmadrsdsc, mm)] ∧
          ∀ qs, Serves x.krlmm (spaceReqs ++ qs) ↔ Serves z.krlmm qs) := by
    rcases hspace with ⟨hgz, hz, hno⟩ | ⟨d₁, d₂, d₃, hserves, hgz, w, hw, rfl⟩
    · have hmm : z.mm mm = mmadrsdscTInit := (congrFun hz.mm_eq mm).trans hself
      refine ⟨by rw [hmm]; rfl, hz.cr3_eq.trans honly.cr3_eq, .inl ⟨?_, hgz, ?_⟩⟩
      · rw [Kern.vma, hmm]
        rfl
      · rw [spaceReqs, hask]
        exact fun hs => hno hs.2
    · have hmm : w.mm mm = mmadrsdscTInit := (congrFun hw.mm_eq mm).trans hself
      refine ⟨?_, hw.cr3_eq.trans honly.cr3_eq, .inr ⟨d₁, d₂, d₃, ?_, hgz, fun qs => ?_⟩⟩
      · simp only [Kern.setVma, Kern.setMm, update_self, hmm]
        rfl
      · simp only [Kern.vma, Kern.setVma, Kern.setMm, update_self, mmadrsdscTInit]
        rfl
      · rw [spaceReqs, List.cons_append, hask, ← hserves]
        simp [Kern.setMm]
  obtain ⟨hmmu, hcr, hspace⟩ := hnew
  refine ⟨fun r hr => ?_, False.elim⟩
  obtain ⟨⟨rets', st⟩, hinit, hr⟩ := bind_eq_ok hr
  obtain rfl := Except.ok.inj hr
  obtain ⟨hgood, hidle, hroot⟩ := newSpace_halMmuInit hz hmmu hinit
  refine ⟨?_, ?_, ?_⟩
  · rw [msdMmu_setSt]
    exact hgood
  · rw [msdMmu_setSt, ← hcr]
    exact hidle
  · rw [vma_setSt, msdMmu_setSt]
    rcases hspace with hspace | ⟨d₁, d₂, d₃, hvma, hgz, hserves⟩
    · exact .inl hspace
    · refine .inr ⟨d₁, d₂, d₃, hvma, hgz, ?_, fun root qs => ?_⟩
      · simpa using (hserves []).mpr (serves_nil _)
      · rw [hserves, serves_cons root (ask_halMmuInit hinit), hroot]

theorem good_delMmadrsdsc {mm : Nat} {l : List (Nat × Nat)}
    (hgood : Good L addr ((z.mm mm).msdMmu.tables.map (·, 1) ++ rest) z)
    (hidle : krnlMapVirtaddressStart + direRetPadr z.cr3 ≠ (z.mm mm).msdMmu.mudTdirearr)
    (hg : Gains x z ((sizeofMmadrsdsc, mm) :: l)) :
    Yields False (delMmadrsdsc z mm) fun r => Good L addr rest r.2 ∧ Gains x r.2 l := by
  have hmax : sizeofMmadrsdsc ≤ objsorpage := by decide
  obtain ⟨held, hinv⟩ := hgood
  -- the tables first
  have hlisted : Listed (L.pin addr) (held.map blkOf ++ (Obj.total z.krlmm.obj.blocks ++ rest)) (z.st mm) := by
    refine ⟨L.perm hinv.alc ?_, hinv.addr_eq⟩
    exact ((List.perm_append_comm_assoc _ _ _).append_left _).trans (List.perm_append_comm_assoc _ _ _)
  refine ⟨fun r hr => ?_, False.elim⟩
  obtain ⟨⟨rets, st⟩, hclean, hr⟩ := bind_eq_ok hr
  have hlow : direRetPadr z.cr3 < krnlMapPhyaddressEnd := by
    by_contra hge
    simp [halMmuClean, phyadrToViradr, Nat.le_of_not_lt hge] at hclean
  rcases halMmuClean_spec hlisted hlow with ⟨heq, -⟩ | ⟨st', hok, -, hinv', -⟩
  · exact absurd heq hidle
  rw [hok] at hclean
  obtain ⟨rfl, rfl⟩ := pair_inj hclean
  have hgz : Good L addr rest (z.setSt mm st') := Good.setSt hinv mm hinv'.1 hinv'.2
  have hgain : Gains x (z.setSt mm st') ((sizeofMmadrsdsc, mm) :: l) := hg.congr rfl
  obtain ⟨-, hgood, honly⟩ :=
    (good_kmsobDelete hgz (by decide) hmax (hgain.mem List.mem_cons_self hmax)).post r hr
  exact ⟨hgood, hgain.delete honly.uses_eq⟩

end Calls

/-! ### What is lost -/

section Lost

variable {a s : Nat} {l : List (Nat × Nat)}

theorem Gains.takeBack (h : Gains x y ((s, a) :: l)) {r : Bool} (heq : z.uses = takeBack y.uses a s r) :
    Gains x z l ∨ Gains x z ((s, a) :: l) := by
  cases r with
  | true => exact .inl (h.delete heq)
  | false => exact .inr (h.congr heq)

theorem gains_delMmadrsdsc {mm : Nat} (hg : Gains x z ((sizeofMmadrsdsc, mm) :: l)) :
    Yields False (delMmadrsdsc z mm) fun r => Gains x r.2 l ∨ Gains x r.2 ((sizeofMmadrsdsc, mm) :: l) := by
  refine ⟨fun r hr => ?_, False.elim⟩
  obtain ⟨⟨rets, st⟩, -, hr⟩ := bind_eq_ok hr
  dsimp only at hr
  split_ifs at hr
  · obtain rfl := Except.ok.inj hr
    exact .inr (hg.congr rfl)
  · exact (hg.congr rfl : Gains x (z.setSt mm st) _).takeBack ((only_kmsobDelete _ _ _).post r hr).uses_eq

theorem gains_krldelete (hg : Gains x z ((s, a) :: l)) :
    Yields False (krldelete z a s) fun r => Gains x r.2 l ∨ Gains x r.2 ((s, a) :: l) :=
  (only_krldelete z a s).imp fun _ hr => hg.takeBack hr.uses_eq

end Lost

/-! ### A new thread -/

/-- The length of the stack interval of a new process. -/
def usrstkMax : Nat := userVirtualAddressEnd - alignUp (userVirtualAddressEnd - 0x40000000) 0x1000

/-- The thread has an address space with the three intervals of a new process. -/
def HasSpace (y : Kern A) (td mm : Nat) : Prop :=
  (y.td td).tdMmdsc = some mm ∧ ∃ d₁ d₂ d₃, y.vma mm = userspace d₁ d₂ d₃

theorem only_krlnewThreadDsc (x : Kern A) :
    Yields False (krlnewThreadDsc x) fun r => r.2.mm = x.mm ∧ r.2.uses = handOut x.uses sizeofThread r.1 := by
  refine (only_krlnew x sizeofThread).bind ?_
  rintro ⟨_ | rettdp, y⟩ hy
  · exact .pure ⟨hy.mm_eq, hy.uses_eq⟩
  · exact .pure ⟨hy.mm_eq, hy.uses_eq⟩

theorem mm_threadName (x : Kern A) (thread : Nat) (name : Option (List UInt8)) :
    Yields False (threadName x thread name) fun y => y.mm = x.mm := by
  cases name with
  | none => exact .pure rfl
  | some name =>
    unfold threadName
    dsimp only
    split_ifs
    · exact .pure rfl
    · refine (only_krlnew x _).bind ?_
      rintro ⟨_ | a, y⟩ hy
      · exact .pure hy.mm_eq
      · exact .pure hy.mm_eq

section Core

variable {L : Lawful A} {addr : Nat → Nat} {rest : List Blk} {d₁ d₂ d₃ : Nat}

theorem Gains.nodup_intervals {rest' : List Blk} {l : List (Nat × Nat)}
    (h : Gains x y ((sizeofKmvarsdsc, d₃) :: (sizeofKmvarsdsc, d₂) :: (sizeofKmvarsdsc, d₁) :: l))
    (hgood : Good L addr rest' y) : [d₁, d₂, d₃].Nodup := by
  obtain ⟨held, hinv⟩ := hgood
  have hmax : ¬ objsorpage < sizeofKmvarsdsc := by decide
  have hclass : classOf (objsAlign sizeofKmvarsdsc) < Obj.koblstMax := by decide
  have hnodup := (Same.objs h _).nodup_iff.mp (hinv.obj.sound.nodup _ hclass)
  simp only [withItems_cons, handOut, if_neg hmax, Obj.handOut, update_self, List.nodup_cons,
    List.mem_cons, not_or] at hnodup
  obtain ⟨⟨h₃₂, h₃₁, -⟩, ⟨h₂₁, -⟩, -⟩ := hnodup
  simp [Ne.symm h₃₂, Ne.symm h₃₁, Ne.symm h₂₁]

theorem kmvd?_userspace (hd : [d₁, d₂, d₃].Nodup) :
    (userspace d₁ d₂ d₃).kmvd? (userspace d₁ d₂ d₃).vsStackkmvdsc =
      some ⟨d₃, alignUp (userVirtualAddressEnd - 0x40000000) 0x1000, userVirtualAddressEnd, 0, kmvStackType, none⟩ := by
  have h₁ : d₁ ≠ d₃ := fun heq => by simp [heq] at hd
  have h₂ : d₂ ≠ d₃ := fun heq => by simp [heq] at hd
  simp [userspace, Vma.kvmaInituserspaceVirmemadrs, virmemadrsTInit, Virmemadrs.kmvd?, Nodes.get?,
    kmvarsdscTInit, h₁, h₂]

/-- What `krlnew_user_thread_core` leaves: all is given back, or the space got its intervals and something is lost, or
there is a thread. Which of them is settled by what the memory manager grants. -/
def CoreEnds (L : Lawful A) (addr : Nat → Nat) (rest : List Blk) (x : Kern A) (usrstksz krlstksz : Nat)
    (r : Option Nat × Kern A) : Prop :=
  match r.1 with
  | none =>
    (¬ Serves x.krlmm spaceReqs ∧ (Reserved L addr rest (direRetPadr x.cr3) → Good L addr rest r.2 ∧ Gains x r.2 [])) ∨
      (Serves x.krlmm spaceReqs ∧ (∀ root, ¬ (usrstksz ≤ usrstkMax ∧ Serves x.krlmm (threadReqs root krlstksz))) ∧
        ∃ l, l ≠ [] ∧ Gains x r.2 l)
  | some td =>
    usrstksz ≤ usrstkMax ∧ Serves x.krlmm spaceReqs ∧ ∃ mm, HasSpace r.2 td mm ∧
      ∀ root, Serves x.krlmm (threadReqs root krlstksz) ↔ (root = true → (r.2.mm mm).msdMmu.mudTdirearr ≠ 0)

/-- `del_mmadrsdsc` does not give back the descriptors of the intervals. -/
theorem coreEnds_delMmadrsdsc {z : Kern A} {mm usrstksz krlstksz : Nat} {l : List (Nat × Nat)}
    (hspaced : Serves x.krlmm spaceReqs)
    (hnot : ∀ root, ¬ (usrstksz ≤ usrstkMax ∧ Serves x.krlmm (threadReqs root krlstksz)))
    (hz : Gains x z ((sizeofMmadrsdsc, mm) :: l)) (hl : l ≠ []) :
    Yields False (delMmadrsdsc z mm >>= fun r => .ok ((none : Option Nat), r.2))
      (CoreEnds L addr rest x usrstksz krlstksz) := by
  refine (gains_delMmadrsdsc hz).bind fun r hr => .pure (.inr ⟨hspaced, hnot, ?_⟩)
  exact hr.elim (fun hr => ⟨l, hl, hr⟩) fun hr => ⟨_, List.cons_ne_nil _ _, hr⟩

theorem krlnewUserThreadCore_ends (h : Good L addr rest x) (name : Option (List UInt8))
    (prilg prity usrstksz krlstksz : Nat) :
    Yields False (krlnewUserThreadCore x name prilg prity usrstksz krlstksz)
      (CoreEnds L addr rest x usrstksz krlstksz) := by
  refine (good_newMmadrsdsc h).bind ?_
  rintro ⟨_ | mm, y⟩ hy
  · exact .pure (.inl ⟨hy.2.2, fun _ => ⟨hy.1, hy.2.1⟩⟩)
  obtain ⟨hgood, hidle, ⟨hvma, hg, hrefused⟩ | ⟨d₁, d₂, d₃, hvma, hg, hspaced, hserves⟩⟩ := hy
  · have hno : (y.vma mm).kmvd? (y.vma mm).vsStackkmvdsc = none := by rw [hvma]; rfl
    dsimp only
    rw [hno]
    refine ⟨fun r hr => ?_, False.elim⟩
    obtain ⟨r', hdel, hr⟩ := bind_eq_ok hr
    obtain rfl := Except.ok.inj hr
    exact .inl ⟨hrefused, fun hcr3 => (good_delMmadrsdsc hgood (hidle hcr3) hg).post _ hdel⟩
  -- from here on the three descriptors are never given back
  have hg' := hg.perm (List.reverse_perm _).symm
  dsimp only
  rw [hvma, kmvd?_userspace (hg.nodup_intervals hgood)]
  dsimp only
  rw [if_neg (not_not.mpr rfl)]
  split_ifs with hsize
  · exact coreEnds_delMmadrsdsc hspaced (fun _ hs => absurd hs.1 (Nat.not_le.mpr hsize)) hg' (List.cons_ne_nil _ _)
  have husr : usrstksz ≤ usrstkMax := Nat.not_lt.mp hsize
  refine (only_krlnew y krlstksz).self.bind ?_
  rintro ⟨_ | krlstkadr, z⟩ ⟨hstack, hz⟩
  all_goals have hask := serves_cons true (ask_krlnew hstack)
  · refine coreEnds_delMmadrsdsc hspaced (fun root hs => ?_) (hg'.congr hz.uses_eq) (List.cons_ne_nil _ _)
    simp [threadReqs, hserves, hask] at hs
  refine (only_krlnewThreadDsc z).self.bind ?_
  rintro ⟨_ | retTd, w⟩ ⟨hdsc, hwmm, hwuses⟩
  all_goals have hask' := serves_cons true (ask_krlnewThreadDsc hdsc)
  · have hnot : ∀ root, ¬ (usrstksz ≤ usrstkMax ∧ Serves x.krlmm (threadReqs root krlstksz)) := by
      simp [threadReqs, hserves, hask, hask']
    have hgw := (hg'.new hz.uses_eq).congr hwuses
    refine (gains_krldelete hgw).bind fun r hr => ?_
    rcases hr with hr | hr
    · exact coreEnds_delMmadrsdsc hspaced hnot hr (List.cons_ne_nil _ _)
    · exact coreEnds_delMmadrsdsc hspaced hnot (hr.perm (.swap ..)) (List.cons_ne_nil _ _)
  · refine (mm_threadName w retTd name).bind fun v hv => .pure ⟨husr, hspaced, mm, ⟨?_, d₁, d₂, d₃, ?_⟩, fun root => ?_⟩
    all_goals have hmm : v.mm mm = y.mm mm := congrFun (hv.trans (hwmm.trans hz.mm_eq)) mm
    · simp [startThread, fillThread]
    · simp only [startThread, Kern.vma, Kern.setMm, update_self, hmm]
      exact hvma
    · simp only [startThread, Kern.setMm, update_self, hmm]
      simp [threadReqs, hserves, hask, hask', serves_nil]

theorem made_iff (h : Good L addr rest x) {name : Option (List UInt8)} {prilg prity usrstksz krlstksz : Nat}
    {r : Option Nat} (hrun : krlnewUserThreadCore x name prilg prity usrstksz krlstksz = .ok (r, y)) :
    r.isSome ↔ usrstksz ≤ usrstkMax ∧ Serves x.krlmm (threadReqs false krlstksz) := by
  have hends := (krlnewUserThreadCore_ends h name prilg prity usrstksz krlstksz).post _ hrun
  cases r with
  | none =>
    refine iff_of_false (by simp) fun hs => ?_
    obtain ⟨hno, -⟩ | ⟨-, hnot, -⟩ := hends
    · exact hno hs.2.left
    · exact hnot false hs
  | some td =>
    obtain ⟨husr, -, mm, -, hserves⟩ := hends
    exact iff_of_true rfl ⟨husr, (hserves false).mpr (by simp)⟩

/-- All that was obtained for a thread that could not be made is given back, and a thread that was made has its space,
with the three intervals of a new process and a root table. -/
def Clean (L : Lawful A) (addr : Nat → Nat) (rest : List Blk) (x y : Kern A) : Option Nat → Prop
  | none => Same y.uses x.uses ∧ Good L addr rest y
  | some td => ∃ mm, HasSpace y td mm ∧ (y.mm mm).msdMmu.mudTdirearr ≠ 0

/-- **Making a user thread is clean exactly if the memory manager, as it is before the call, refuses the descriptor of
the space or one of its intervals, or serves everything the thread is made of.** -/
theorem thread_clean_iff (h : Good L addr rest x) (hcr3 : Reserved L addr rest (direRetPadr x.cr3))
    {name : Option (List UInt8)} {prilg prity usrstksz krlstksz : Nat} {r : Option Nat}
    (hrun : krlnewUserThreadCore x name prilg prity usrstksz krlstksz = .ok (r, y)) :
    Clean L addr rest x y r ↔
      (Serves x.krlmm spaceReqs → usrstksz ≤ usrstkMax ∧ Serves x.krlmm (threadReqs true krlstksz)) := by
  have hends := (krlnewUserThreadCore_ends h name prilg prity usrstksz krlstksz).post _ hrun
  cases r with
  | none =>
    obtain ⟨hno, hback⟩ | ⟨hspaced, hnot, l, hl, hgains⟩ := hends
    · obtain ⟨hgood, hgains⟩ := hback hcr3
      exact iff_of_true ⟨hgains, hgood⟩ fun hspaced => absurd hspaced hno
    · refine iff_of_false (fun hclean => ?_) fun hcond => hnot true (hcond hspaced)
      exact hl (hgains.symm.trans hclean.1).eq_nil
  | some td =>
    obtain ⟨husr, hspaced, mm, hspace, hserves⟩ := hends
    constructor
    · rintro ⟨mm', hspace', hroot⟩ -
      obtain rfl : mm' = mm := Option.some.inj (hspace'.1.symm.trans hspace.1)
      exact ⟨husr, (hserves true).mpr fun _ => hroot⟩
    · exact fun hcond => ⟨mm, hspace, (hserves true).mp (hcond hspaced).2 rfl⟩

end Core

/-! ### A machine with a few pages -/

def freePages (n : Nat) : Boot :=
  ⟨((List.range n).map (0x3000 + ·)).length, freeArray ((List.range n).map (0x3000 + ·))⟩

theorem freePages_mapped {n : Nat} (hpos : 0 < n) (hn : n < 2 ^ 30) : (freePages n).Mapped := by
  have hlen : ((List.range n).map (0x3000 + ·)).length = n := by simp
  refine freeArray_mapped (by omega) (by omega) (fun p hp => ?_) ?_
  · obtain ⟨i, hi, rfl⟩ := List.mem_map.mp hp
    rw [List.mem_range] at hi
    omega
  · exact List.nodup_range.map fun _ _ heq => Nat.add_left_cancel heq

def booted (s : Memmgrob) : Kern memmgrob where
  krlmm := initKrlmm (A := memmgrob) s fun _ => ⟨0, 0, 0, 0, 0, [], [], 0, Obj.msomdcTInit, [], 0⟩
  uses := .none
  mem := fun _ _ => 0
  mm := fun _ => mmadrsdscTInit
  td := threadTInit
  sched := Sched.initKrlsched (fun _ => threadTInitSched) 1
  mbPml4padr := 0
  cr3 := 0

theorem good_booted {b : Boot} (hb : b.Mapped) {s₀ : Memmgrob} (hboot : boot b = .ok s₀) :
    Good (memmgrobLawful hb (of_boot hb.toWf hboot).1) (memmgrob.msadscRetAddr s₀) [] (booted s₀) := by
  have hrun : runHalt Page.step (s₀, ∅) [] = .ok (s₀, ∅) := rfl
  have hpool := (pool_of_run hb.toWf hboot (by simp) hrun).2
  rw [Finset.toList_empty] at hpool
  exact ⟨[], inv_initKrlmm _ hpool⟩

/-- With sixteen pages there is enough for a thread, and for all it is made of. -/
theorem thread_clean_of_sixteen : ∃ s₀, ∃ hboot : boot (freePages 16) = .ok s₀, ∃ td y,
    krlnewUserThreadCore (booted s₀) (some [97]) prilgUsr Sched.prityMin daftTdusrstksz daftTdkrlstksz =
      .ok (some td, y) ∧
    Clean (memmgrobLawful (freePages_mapped (by decide) (by decide))
      (of_boot (freePages_mapped (by decide) (by decide)).toWf hboot).1) (memmgrob.msadscRetAddr s₀) [] (booted s₀) y
      (some td) := by
  obtain ⟨⟨s₀, served, td, y⟩, hall, hseen⟩ := exists_of_map (b := (true, true))
    (x := do
      let s₀ ← boot (freePages 16)
      let served ← grants (booted s₀).krlmm (threadReqs true daftTdkrlstksz)
      let made ← krlnewUserThreadCore (booted s₀) (some [97]) prilgUsr Sched.prityMin daftTdusrstksz daftTdkrlstksz
      .ok (s₀, served, made))
    (f := fun r => (r.2.1, r.2.2.1.isSome)) (by decide +kernel)
  obtain ⟨_, hboot, hall⟩ := bind_eq_ok hall
  obtain ⟨_, hserved, hall⟩ := bind_eq_ok hall
  obtain ⟨_, hrun, hall⟩ := bind_eq_ok hall
  cases hall
  obtain ⟨rfl, htd⟩ := Prod.mk.inj hseen
  obtain ⟨td, rfl⟩ := Option.isSome_iff_exists.mp htd
  have hcr3 : direRetPadr (booted s₀).cr3 = 0 := (by decide : direRetPadr 0 = 0)
  refine ⟨s₀, hboot, td, y, hrun, (thread_clean_iff (good_booted _ hboot) ?_ hrun).mpr fun _ =>
    ⟨by decide, hserved⟩⟩
  rw [hcr3]
  exact reserved_zero

/-- **Four pages are enough for the address space and not for the kernel stack: the descriptor of the space and its root
table are given back, the descriptors of its intervals are not.** -/
theorem intervals_lost : ∃ s₀ y, boot (freePages 4) = .ok s₀ ∧
    krlnewUserThreadCore (booted s₀) (some [97]) prilgUsr Sched.prityMin daftTdusrstksz daftTdkrlstksz = .ok (none, y) ∧
    (y.uses.objs (classOf sizeofKmvarsdsc)).length = 3 ∧
    ∀ L addr rest, ¬ Clean L addr rest (booted s₀) y none := by
  obtain ⟨⟨s₀, td, y⟩, hall, hseen⟩ := exists_of_map (b := (none, 3))
    (x := do
      let s₀ ← boot (freePages 4)
      let made ← krlnewUserThreadCore (booted s₀) (some [97]) prilgUsr Sched.prityMin daftTdusrstksz daftTdkrlstksz
      .ok (s₀, made))
    (f := fun r => (r.2.1, (r.2.2.uses.objs (classOf sizeofKmvarsdsc)).length)) (by decide +kernel)
  obtain ⟨_, hboot, hall⟩ := bind_eq_ok hall
  obtain ⟨_, hrun, hall⟩ := bind_eq_ok hall
  cases hall
  obtain ⟨rfl, hthree⟩ := Prod.mk.inj hseen
  refine ⟨s₀, y, hboot, hrun, hthree, fun L addr rest hclean => ?_⟩
  have hnil : (y.uses.objs (classOf sizeofKmvarsdsc)).Perm [] := hclean.1.objs _
  exact absurd (hthree.symm.trans hnil.length_eq) (by decide)

end Cosmos.Thread
