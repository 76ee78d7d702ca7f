import Cosmos.Thread.Model

/-!
# What a thread asks the memory manager for

A user thread needs an `mmadrsdsc_t`, three `kmvarsdsc_t`, a page for the root table, a kernel stack and a `thread_t`.
Whether it gets them is settled by the memory manager as it is before the call: `Serves s qs` asks `s` for one after the
other.
-/

namespace Cosmos.Thread

open Cosmos.Lib Halt Cosmos.Page Cosmos.Mmu Cosmos.Vma Cosmos.Krlmm

variable {A : PageAlloc} {x y : Kern A} {s s' : Krlmm.St A}

/-- A request: an object (`kmsob_new`), a page for a table (`mm_division_pages`) or memory (`krlnew`). -/
inductive Req where
  | obj (msz : Nat)
  | page
  | mem (mmsize : Nat)

/-- Whether the request is granted, and the memory manager after it. -/
def Req.ask (s : Krlmm.St A) : Req → Halt (Bool × Krlmm.St A)
  | obj msz => Obj.kmsobNew s.obj msz >>= fun r => .ok (r.1.isSome, { s with obj := r.2 })
  | page =>
    A.mmDivisionPages s.obj.alc 1 maTypeKrnl dmfReldiv >>= fun r =>
      .ok (r.1.isSome, { s with obj := { s.obj with alc := r.2 } })
  | mem mmsize => Krlmm.krlnew s mmsize >>= fun r => .ok (r.1.isSome, r.2)

/-- Ask for one after the other, up to the first needed one that is refused. -/
def grants (s : Krlmm.St A) : List (Req × Bool) → Halt Bool
  | [] => .ok true
  | (q, needed) :: qs => q.ask s >>= fun r => if needed && !r.1 then .ok false else grants r.2 qs

/-- The memory manager grants every request that is marked as needed. -/
def Serves (s : Krlmm.St A) (qs : List (Req × Bool)) : Prop := grants s qs = .ok true

theorem serves_nil (s : Krlmm.St A) : Serves s [] := rfl

theorem serves_cons (needed : Bool) {q : Req} {b : Bool} (h : q.ask s = .ok (b, s')) (qs : List (Req × Bool)) :
    Serves s ((q, needed) :: qs) ↔ (needed = true → b = true) ∧ Serves s' qs := by
  unfold Serves
  rw [grants, bind_of_ok h]
  cases needed <;> cases b <;> simp

theorem Serves.left {qs qs' : List (Req × Bool)} (h : Serves s (qs ++ qs')) : Serves s qs := by
  induction qs generalizing s with
  | nil => rfl
  | cons q qs ih =>
    obtain ⟨q, needed⟩ := q
    obtain ⟨⟨b, t⟩, hask, -⟩ := bind_eq_ok h
    rw [List.cons_append, serves_cons needed hask] at h
    exact (serves_cons needed hask qs).mpr ⟨h.1, ih h.2⟩

def intervalReqs : List (Req × Bool) :=
  [(.obj sizeofKmvarsdsc, true), (.obj sizeofKmvarsdsc, true), (.obj sizeofKmvarsdsc, true)]

def spaceReqs : List (Req × Bool) := (.obj sizeofMmadrsdsc, true) :: intervalReqs

/-- What a thread with a kernel stack of `krlstksz` bytes is made of. The code does not look whether it gets the page of
the root table; `root` says whether that is needed. -/
def threadReqs (root : Bool) (krlstksz : Nat) : List (Req × Bool) :=
  spaceReqs ++ [(.page, root), (.mem krlstksz, true), (.mem sizeofThread, true)]

/-! ### What the calls ask for -/

theorem ask_kmsobNew {msz : Nat} {r : Option Nat} (h : kmsobNew x msz = .ok (r, y)) :
    (Req.obj msz).ask x.krlmm = .ok (r.isSome, y.krlmm) := by
  obtain ⟨r', hr, heq⟩ := bind_eq_ok h
  obtain ⟨rfl, rfl⟩ := pair_inj heq
  exact bind_of_ok hr _

theorem ask_krlnew {mmsize : Nat} {r : Option Nat} (h : krlnew x mmsize = .ok (r, y)) :
    (Req.mem mmsize).ask x.krlmm = .ok (r.isSome, y.krlmm) := by
  obtain ⟨r', hr, heq⟩ := bind_eq_ok h
  obtain ⟨rfl, rfl⟩ := pair_inj heq
  exact bind_of_ok hr _

theorem ask_krlnewThreadDsc {r : Option Nat} (h : krlnewThreadDsc x = .ok (r, y)) :
    (Req.mem sizeofThread).ask x.krlmm = .ok (r.isSome, y.krlmm) := by
  obtain ⟨⟨r', z⟩, hr, heq⟩ := bind_eq_ok h
  have hask := ask_krlnew hr
  cases r' with
  | none =>
    obtain ⟨rfl, rfl⟩ := pair_inj heq
    exact hask
  | some rettdp =>
    obtain ⟨rfl, rfl⟩ := pair_inj heq
    exact hask

theorem ask_halMmuInit {mm : Nat} {rets : Bool} {st : Mmu.St A}
    (h : halMmuInit x.mbPml4padr (x.st mm) = .ok (rets, st)) :
    Req.page.ask x.krlmm = .ok (rets, (x.setSt mm st).krlmm) := by
  obtain ⟨⟨r, st₁⟩, hroot, h⟩ := bind_eq_ok h
  obtain ⟨⟨r', st₂⟩, hnew, hroot⟩ := bind_eq_ok hroot
  obtain ⟨⟨r'', alc⟩, hdiv, hnew⟩ := bind_eq_ok hnew
  unfold Req.ask
  refine (bind_of_ok hdiv _).trans ?_
  cases r'' with
  | none =>
    obtain ⟨rfl, rfl⟩ := pair_inj hnew
    obtain ⟨rfl, rfl⟩ := pair_inj hroot
    obtain ⟨rfl, rfl⟩ := pair_inj h
    rfl
  | some b =>
    obtain ⟨direarr, -, hnew⟩ := bind_eq_ok hnew
    obtain ⟨rfl, rfl⟩ := pair_inj hnew
    obtain ⟨tdirearr, -, hroot⟩ := bind_eq_ok hroot
    obtain ⟨rfl, rfl⟩ := pair_inj hroot
    obtain ⟨vcr3, -, h⟩ := bind_eq_ok h
    obtain ⟨cr3, -, h⟩ := bind_eq_ok h
    obtain ⟨rfl, rfl⟩ := pair_inj h
    rfl

end Cosmos.Thread
