import Cosmos.Mmu.Twins
import Cosmos.Space.Load
import Cosmos.Space.Refused

/-!
# What an address space sees of other memory

Two systems that differ only in pages hidden from an address space, those of other spaces' mappings and those in no
live block (`Alike`), are given the same calls of that space. The calls read its tables and nothing else of the
memory, so both systems run alike (`Follows`), but a page fault maps a frame as it was left by whoever had it before:
only `vma_full_textbin` overwrites it. What the space sees is the same in both systems as long as every page fault is in
an interval of a program (`same_view_of_filled`), and need not be otherwise (`heap_page_shows_old_bytes`).
-/

namespace Cosmos.Space

open Cosmos.Lib Halt Cosmos.Page Cosmos.Mmu Cosmos.Vma Kmvarsdsc

variable {A : PageAlloc} {L : Lawful A} {image : Nat → UInt8} {s s₁ s' t : Sys A} {frames : List Nat} {rest : List Blk}
  {mem mem₁ mem₂ : Nat → Nat → Nat} {i v b start size : Nat} {newkmvd newbox kmbox : Option Nat}

/-! ### Two systems -/

/-- The page at `a` belongs to a mapping of another address space, or lies in no live block. -/
def Hidden (L : Lawful A) (s : Sys A) (i a : Nat) : Prop :=
  (∃ j < s.mmnr, j ≠ i ∧ ∃ v < 2 ^ 47, s.look j v ≠ 0 ∧ s.look j v = a) ∨
    ∀ live, L.Inv s.alc live → ∀ blk ∈ live, ¬(s.addr blk.1 ≤ a ∧ a < s.addr blk.1 + blk.2 * 0x1000)

/-- Space `i` maps the same pages with the same contents. -/
def SameView (i : Nat) (s s' : Sys A) : Prop :=
  ∀ v < 2 ^ 47, s'.look i v = s.look i v ∧ (s.look i v ≠ 0 → s'.mem (s.look i v) = s.mem (s.look i v))

/-- The second memory has the tables of space `i` and the pages it maps. -/
structure Shares (s : Sys A) (i : Nat) (mem : Nat → Nat → Nat) : Prop where
  tables : Twin (s.st i) mem
  pages : ∀ v < 2 ^ 47, s.look i v ≠ 0 → mem (s.look i v) = s.mem (s.look i v)

/-- The systems agree on all kernel data, on every table and on what space `i` maps, and differ in pages hidden from
it only. -/
structure Alike (L : Lawful A) (i : Nat) (s s' : Sys A) : Prop where
  mm : s'.mm = s.mm
  mmnr : s'.mmnr = s.mmnr
  box : s'.box = s.box
  mgr : s'.mgr = s.mgr
  alc : s'.alc = s.alc
  tables : ∀ j < s.mmnr, Twin (s.st j) s'.mem
  pages : ∀ v < 2 ^ 47, s.look i v ≠ 0 → s'.mem (s.look i v) = s.mem (s.look i v)
  hidden : ∀ a, s'.mem a ≠ s.mem a → Hidden L s i a

theorem Alike.eq_withMem (h : Alike L i s s') : s' = { s with mem := s'.mem } := by
  obtain ⟨mm, mmnr, box, mgr, alc, mem⟩ := s'
  obtain ⟨rfl, rfl, rfl, rfl, rfl, -⟩ := h
  rfl

theorem Shares.sameView (h : Shares s i mem) (howned : Owned L s frames rest) (hi : i < s.mmnr) :
    SameView i s { s with mem := mem } := fun v hv =>
  ⟨h.tables.lookup_eq (howned.owns i hi) (userHalf_of_lt hv), h.pages v hv⟩

/-! ### Calls over two memories -/

/-- A call leads from `s` to `t`, and over the second memory from `mem` to `mem₁`. -/
structure Follows (i : Nat) (s t : Sys A) (mem mem₁ : Nat → Nat → Nat) : Prop where
  tables : Twin (t.st i) mem₁
  same : ∀ a, mem a = s.mem a → mem₁ a = t.mem a

theorem Follows.trans (h : Follows i s s₁ mem mem₁) (h' : Follows i s₁ t mem₁ mem₂) : Follows i s t mem mem₂ :=
  ⟨h'.tables, fun a hsame => h'.same a (h.same a hsame)⟩

theorem Follows.of_eq (hm : Twin (s.st i) mem) (hmmu : (t.mm i).msdMmu = (s.mm i).msdMmu) (haddr : t.addr = s.addr)
    (hmem : t.mem = s.mem) : Follows i s t mem mem := by
  refine ⟨fun msa hmsa => ?_, fun a hsame => by rw [hmem, hsame]⟩
  have hmsa' : msa ∈ (s.mm i).msdMmu.tables := hmmu ▸ (show msa ∈ (t.mm i).msdMmu.tables from hmsa)
  show mem (t.addr msa) = t.mem (t.addr msa)
  rw [haddr, hmem]
  exact hm msa hmsa'

theorem Follows.setSt {st' : St A} (h : Mmu.Follows (s.st i) st' mem mem₁) : Follows i s (s.setSt i st') mem mem₁ := by
  refine ⟨?_, h.same⟩
  rw [Sys.st_setSt]
  exact h.twin

theorem Shares.follows (h : Shares s i mem) (hf : Follows i s t mem mem₁)
    (hlook : ∀ w < 2 ^ 47, t.look i w = 0 ∨ t.look i w = s.look i w) : Shares t i mem₁ := by
  refine ⟨hf.tables, fun w hw hne => hf.same _ ?_⟩
  have heq := (hlook w hw).resolve_left hne
  rw [heq] at hne ⊢
  exact h.pages w hw hne

/-! ### User frames -/

theorem vmaDelUsermsa_withMem {msa : Option Nat} {p : Nat} {rets : Bool} (mem : Nat → Nat → Nat)
    (heq : vmaDelUsermsa s b msa p = .ok (rets, t)) :
    vmaDelUsermsa { s with mem := mem } b msa p = .ok (rets, { t with mem := mem }) ∧ t.mm = s.mm ∧ t.mem = s.mem := by
  unfold vmaDelUsermsa at heq ⊢
  by_cases hp : p = 0
  · rw [if_pos hp] at heq ⊢
    obtain ⟨rfl, rfl⟩ := pair_inj heq
    exact ⟨rfl, rfl, rfl⟩
  · rw [if_neg hp] at heq ⊢
    simp only at heq ⊢
    cases hfind : (msa.filter fun m => decide (A.msadscRetAddr s.alc m = p)).or
        ((s.box b).kmbMsalist.find? fun m => decide (A.msadscRetAddr s.alc m = p)) with
    | none =>
      rw [hfind] at heq
      obtain ⟨rfl, rfl⟩ := pair_inj heq
      exact ⟨rfl, rfl, rfl⟩
    | some delmsa =>
      rw [hfind] at heq
      obtain ⟨⟨ok, alc⟩, hmerge, heq⟩ := bind_eq_ok heq
      cases ok with
      | false => cases heq
      | true =>
        obtain ⟨rfl, rfl⟩ := pair_inj heq
        exact ⟨bind_of_ok hmerge _, rfl, rfl⟩

theorem vmaNewUsermsa_withMem {r : Option Nat} (mem : Nat → Nat → Nat) (heq : vmaNewUsermsa s b = .ok (r, t)) :
    vmaNewUsermsa { s with mem := mem } b = .ok (r, { t with mem := mem }) := by
  unfold vmaNewUsermsa at heq ⊢
  obtain ⟨⟨r', alc⟩, hdiv, heq⟩ := bind_eq_ok heq
  refine (bind_of_ok hdiv _).trans ?_
  cases r' with
  | none =>
    obtain ⟨rfl, rfl⟩ := pair_inj heq
    rfl
  | some blk =>
    obtain ⟨rfl, rfl⟩ := pair_inj heq
    rfl

/-! ### Deletion -/

theorem unmapPage_follows (h : Owned L s frames rest) (hl : Lists s frames) (hi : i < s.mmnr) (hv : v < 2 ^ 47)
    (hb : ∀ b ∈ kmbox, b ∈ s.mgr.kbmKmbhead) (hm : Twin (s.st i) mem) (heq : unmapPage s i kmbox v = .ok t) :
    ∃ mem₁, unmapPage { s with mem := mem } i kmbox v = .ok { t with mem := mem₁ } ∧ Follows i s t mem mem₁ := by
  obtain ⟨t', frames', heq', hun⟩ := unmapPage_spec h hl hi hv hb
  obtain rfl : t' = t := Except.ok.inj (heq'.symm.trans heq)
  obtain ⟨st', huntf, -, haddr, -⟩ := h.unmap hi hv
  obtain ⟨mem₁, huntf', hfollows⟩ := halMmuUntransform_twin (h.owns i hi) (userHalf_of_lt hv) hm huntf
  have hset : Follows i s (s.setSt i st') mem mem₁ := .setSt hfollows
  unfold unmapPage at heq ⊢
  rw [bind_of_ok huntf] at heq
  suffices hrest : _ ∧ Follows i (s.setSt i st') t' mem₁ mem₁ from
    ⟨mem₁, (bind_of_ok huntf' _).trans hrest.1, hset.trans hrest.2⟩
  have hstay : Follows i (s.setSt i st') (s.setSt i st') mem₁ mem₁ := .of_eq hset.tables rfl rfl rfl
  cases kmbox with
  | none =>
    obtain rfl := Except.ok.inj heq
    exact ⟨rfl, hstay⟩
  | some kmbox =>
    simp only at heq ⊢
    by_cases hp : bits 40 (s.look i v) = 0
    · rw [if_pos hp] at heq ⊢
      obtain rfl := Except.ok.inj heq
      exact ⟨rfl, hstay⟩
    · rw [if_neg hp] at heq ⊢
      obtain ⟨⟨rets, t₁⟩, hdel, heq⟩ := bind_eq_ok heq
      obtain rfl := Except.ok.inj heq
      obtain ⟨hdel', hmm, hmem⟩ := vmaDelUsermsa_withMem mem₁ hdel
      exact ⟨bind_of_ok hdel' _, .of_eq hset.tables (by rw [hmm]) (hun.quiet.addr.trans haddr.symm) hmem⟩

theorem unmapPages_follows (n : Nat) : ∀ {v s frames mem}, Owned L s frames rest → Lists s frames → i < s.mmnr →
    v + n * 0x1000 ≤ 2 ^ 47 → (∀ b ∈ kmbox, b ∈ s.mgr.kbmKmbhead) → Twin (s.st i) mem →
    unmapPages i kmbox n v s = .ok t →
    ∃ mem₁, unmapPages i kmbox n v { s with mem := mem } = .ok { t with mem := mem₁ } ∧ Follows i s t mem mem₁ := by
  induction n with
  | zero =>
    intro v s frames mem _ _ _ _ _ hm heq
    obtain rfl := Except.ok.inj heq
    exact ⟨mem, rfl, .of_eq hm rfl rfl rfl⟩
  | succ n ih =>
    intro v s frames mem h hl hi hend hb hm heq
    obtain ⟨s₁, frames₁, heq₁, hun⟩ := unmapPage_spec h hl hi (v := v) (by omega) hb
    obtain ⟨mem₁, heq₁', hfollows⟩ := unmapPage_follows h hl hi (by omega) hb hm heq₁
    obtain ⟨mem₂, heq₂, hfollows'⟩ := ih (v := v + 0x1000) hun.owned hun.lists (by rw [hun.quiet.mmnr]; exact hi)
      (by omega) (by rw [hun.quiet.mgr]; exact hb) hfollows.tables ((bind_of_ok heq₁ _).symm.trans heq)
    exact ⟨mem₂, (bind_of_ok heq₁' _).trans heq₂, hfollows.trans hfollows'⟩

theorem knlCountKvmemcbox_withMem (s : Sys A) (o : Option Nat) (mem : Nat → Nat → Nat) :
    knlCountKvmemcbox { s with mem := mem } o = { knlCountKvmemcbox s o with mem := mem } := by
  cases o <;> rfl

theorem knlPutKvmemcbox_withMem (s : Sys A) (o : Option Nat) (mem : Nat → Nat → Nat) :
    knlPutKvmemcbox { s with mem := mem } o = { knlPutKvmemcbox s o with mem := mem } := by
  cases o with
  | none => rfl
  | some kmbox =>
    unfold knlPutKvmemcbox
    refine ((apply_ite (fun s : Sys A => ({ s with mem := mem } : Sys A)) _ _ _).trans ?_).symm
    rw [apply_ite (fun s : Sys A => ({ s with mem := mem } : Sys A))]
    rfl

theorem knlPutKvmemcbox_same (s : Sys A) (o : Option Nat) :
    (knlPutKvmemcbox s o).mm = s.mm ∧ (knlPutKvmemcbox s o).alc = s.alc ∧ (knlPutKvmemcbox s o).mem = s.mem := by
  cases o with
  | none => exact ⟨rfl, rfl, rfl⟩
  | some kmbox =>
    obtain ⟨mgr, heq, -⟩ := knlPutKvmemcbox_cases s kmbox
    rw [heq]
    exact ⟨rfl, rfl, rfl⟩

theorem vmaDelVadrs_follows {rets : Bool} (h : Inv L s frames rest) (hi : i < s.mmnr)
    (hfresh : FreshFor (s.vma i) newkmvd) (hsum : start + vadszAlign size < 2 ^ 64) (hm : Twin (s.st i) mem)
    (hret : vmaDelVadrs s i start size newkmvd = .ok (rets, t)) :
    ∃ mem₁, vmaDelVadrs { s with mem := mem } i start size newkmvd = .ok (rets, { t with mem := mem₁ }) ∧
      Follows i s t mem mem₁ := by
  have hreached := h.reached i hi
  rcases vmaDelVadrs_cases hreached.toWf start size newkmvd hfresh hsum with
    hrefused | ⟨pre, k, post, hsplit, -, -, hend, hshape⟩
  · obtain ⟨rfl, rfl⟩ : false = rets ∧ s = t := by simpa using (vmaDelVadrs_refused hrefused).symm.trans hret
    exact ⟨mem, vmaDelVadrs_refused (s := { s with mem := mem }) hrefused, .of_eq hm rfl rfl rfl⟩
  have hk : k ∈ (s.vma i).vsList := by
    rw [hsplit.eq]
    simp
  have hkend := (hreached.inside k hk).2
  rw [hreached.isalcend_eq] at hkend
  have hn : vadszAlign size % 0x1000 = 0 := Nat.mod_eq_zero_of_dvd (alignUp_dvd size 0x1000)
  unfold vmaDelVadrs at hret ⊢
  rw [show ({ s with mem := mem } : Sys A).vma i = s.vma i from rfl]
  have hunmap := DelShape.unmap_eq hshape
  generalize Vma.vmaDelVadrs (s.vma i) start size newkmvd = out at *
  simp only [hunmap, vmaDelUnmapping, vmaDelUnmappingPhyadrs, rounds_eq hn hsum, knlCountKvmemcbox_withMem] at hret ⊢
  obtain ⟨s₂, hloop, hret⟩ := bind_eq_ok hret
  obtain ⟨rfl, rfl⟩ := pair_inj hret
  obtain ⟨honly, hmgr, -⟩ := knlCountKvmemcbox_spec s out.count
  obtain ⟨howned, hlists⟩ := h.counted out.count
  have hcounted : Follows i s (knlCountKvmemcbox s out.count) mem mem :=
    .of_eq hm (by rw [honly.mm]) honly.addr_eq honly.mem
  obtain ⟨mem₁, hloop', hfollows⟩ := unmapPages_follows _ howned hlists (by rw [honly.mmnr]; exact hi)
    (by unfold userVirtualAddressEnd at hkend; omega) (fun b hb => by rw [hmgr]; exact h.counts.mem_head hi hk hb)
    hcounted.tables hloop
  obtain ⟨hmm, halc, hmem⟩ := knlPutKvmemcbox_same s₂ out.put
  refine ⟨mem₁, ?_, (hcounted.trans hfollows).trans (.of_eq hfollows.tables ?_ ?_ hmem)⟩
  · rw [bind_of_ok hloop', knlPutKvmemcbox_withMem]
    rfl
  · rw [Sys.mmu_setVma, hmm]
  · show A.msadscRetAddr (knlPutKvmemcbox s₂ out.put).alc = s₂.addr
    rw [halc]
    rfl

/-! ### The page fault -/

theorem vmaMapRetnKvmemcbox_withMem {k : Kmvarsdsc} (mem : Nat → Nat → Nat)
    (heq : vmaMapRetnKvmemcbox s i k newbox = .ok (b, t)) :
    vmaMapRetnKvmemcbox { s with mem := mem } i k newbox = .ok (b, { t with mem := mem }) := by
  unfold vmaMapRetnKvmemcbox at heq ⊢
  cases hbox : k.kvaKvmbox with
  | some b' =>
    rw [hbox] at heq
    obtain ⟨rfl, rfl⟩ := pair_inj heq
    rfl
  | none =>
    rw [hbox] at heq
    obtain ⟨⟨b', s'⟩, hget, heq⟩ := bind_eq_ok heq
    obtain ⟨rfl, rfl⟩ := pair_inj heq
    have hget' : knlGetKvmemcbox { s with mem := mem } newbox = .ok (b', { s' with mem := mem }) := by
      unfold knlGetKvmemcbox at hget ⊢
      simp only at hget ⊢
      cases hcache : (if 0 < s.mgr.kbmCachenr then s.mgr.kbmCachehead else []) with
      | cons kmb cache =>
        rw [hcache] at hget
        obtain ⟨rfl, rfl⟩ := pair_inj hget
        rfl
      | nil =>
        rw [hcache] at hget
        cases newbox with
        | none => cases hget
        | some kmb =>
          obtain ⟨rfl, rfl⟩ := pair_inj hget
          rfl
    exact bind_of_ok hget' _

theorem vmaMapMsaFault_follows {p : Nat} (h : Owned L s frames rest) (hl : Lists s frames) (hi : i < s.mmnr)
    (hv : v < 2 ^ 47) (hb : b ∈ s.mgr.kbmKmbhead) (hm : Twin (s.st i) mem)
    (heq : vmaMapMsaFault s i b v (pml4eUs ||| pml4eRw ||| pml4eP) = .ok (p, t)) :
    ∃ mem₁, vmaMapMsaFault { s with mem := mem } i b v (pml4eUs ||| pml4eRw ||| pml4eP) =
      .ok (p, { t with mem := mem₁ }) ∧ Follows i s t mem mem₁ := by
  have haddrt : t.addr = s.addr := by
    rcases vmaMapMsaFault_spec h hl hi hv hb with ⟨t', heq', hr⟩ | ⟨msa, t', heq', -, hr⟩
    · obtain ⟨-, rfl⟩ := pair_inj (heq'.symm.trans heq)
      exact hr.quiet.addr
    · obtain ⟨-, rfl⟩ := pair_inj (heq'.symm.trans heq)
      exact hr.quiet.addr
  unfold vmaMapMsaFault at heq ⊢
  rcases vmaNewUsermsa_spec h hl hb with ⟨alc, hnew, haddr, -⟩ |
    ⟨msa, alc, hnew, haddr, -, -, howned, -⟩
  · rw [bind_of_ok hnew] at heq
    obtain ⟨rfl, rfl⟩ := pair_inj heq
    exact ⟨mem, bind_of_ok (vmaNewUsermsa_withMem mem hnew) _, .of_eq hm rfl haddr rfl⟩
  · have hhung : Follows i s (s.hung alc b msa) mem mem := .of_eq hm rfl haddr rfl
    obtain ⟨rets, st', hmap, -, haddr', -, -⟩ := howned.map hi hv (List.mem_cons_self (a := msa))
    obtain ⟨mem₁, hmap', hfollows⟩ := halMmuTransform_twin (howned.owns i hi) (userHalf_of_lt hv)
      (howned.mapArgs List.mem_cons_self) hhung.tables hmap
    have hset := hhung.trans (.setSt hfollows)
    rw [bind_of_ok hnew] at heq
    rw [bind_of_ok (vmaNewUsermsa_withMem mem hnew)]
    simp only at heq ⊢
    rw [show A.msadscRetAddr (s.hung alc b msa).alc msa = (s.hung alc b msa).addr msa from rfl] at heq ⊢
    rw [bind_of_ok hmap] at heq
    cases rets with
    | true =>
      obtain ⟨rfl, rfl⟩ := pair_inj heq
      exact ⟨mem₁, bind_of_ok hmap' _, hset⟩
    | false =>
      obtain ⟨⟨r, t₁⟩, hdel, heq⟩ := bind_eq_ok heq
      obtain ⟨rfl, rfl⟩ := pair_inj heq
      obtain ⟨hdel', hmm, hmem⟩ := vmaDelUsermsa_withMem mem₁ hdel
      refine ⟨mem₁, (bind_of_ok hmap' _).trans (bind_of_ok hdel' _), hset.trans (.of_eq hset.tables ?_ ?_ hmem)⟩
      · rw [hmm]
      · exact haddrt.trans ((haddr'.trans haddr).symm)

theorem vmaFullTextbin_follows {k : Kmvarsdsc} (h : Owned L s frames rest) (hi : i < s.mmnr) (hv : v < 2 ^ 47)
    (hbin : k.kvaMaptype = kmvBinType) (hm : Twin (s.st i) mem) (heq : vmaFullTextbin image s i k v = .ok t) :
    ∃ mem₁, vmaFullTextbin image { s with mem := mem } i k v = .ok { t with mem := mem₁ } ∧ Follows i s t mem mem₁ ∧
      mem₁ (s.look i v) = t.mem (s.look i v) := by
  have hlook : lookup (({ s with mem := mem } : Sys A).st i) v = s.look i v :=
    hm.lookup_eq (h.owns i hi) (userHalf_of_lt hv)
  unfold vmaFullTextbin at heq ⊢
  simp only [if_neg (show ¬k.kvaMaptype ≠ kmvBinType from fun hne => hne hbin), hlook] at heq ⊢
  cases hthread : (s.mm i).msdThread with
  | none =>
    rw [hthread] at heq
    cases heq
  | some file =>
    rw [hthread] at heq
    simp only at heq ⊢
    by_cases hnull : file.1 = 0 ∨ file.2 = 0
    · rw [if_pos hnull] at heq
      cases heq
    · rw [if_neg hnull] at heq ⊢
      obtain rfl := Except.ok.inj heq
      refine ⟨_, rfl, ⟨fun msa hmsa => ?_, fun a hsame => ?_⟩, ?_⟩
      · exact update_agree _ fun _ => hm msa hmsa
      · exact update_agree _ fun _ => hsame
      · exact update_agree _ fun hne => absurd rfl hne

/-- **A page fault in a program's interval** shows no old contents. -/
theorem vmaMapFairvadrs_shares {ret : Int} (h : Inv L s frames rest) (hi : i < s.mmnr) (hfresh : FreshBox s newbox)
    (hfill : ∀ k ∈ (s.vma i).vsList, k.kvaStart ≤ v → v < k.kvaEnd → k.kvaMaptype = kmvBinType) (hsh : Shares s i mem)
    (hret : vmaMapFairvadrs image s i v newbox = .ok (ret, t)) :
    ∃ mem₁, vmaMapFairvadrs image { s with mem := mem } i v newbox = .ok (ret, { t with mem := mem₁ }) ∧
      Shares t i mem₁ := by
  unfold vmaMapFairvadrs at hret ⊢
  by_cases hrange : v < 0x1000 ∨ userVirtualAddressEnd < v
  · rw [if_pos hrange] at hret ⊢
    obtain ⟨rfl, rfl⟩ := pair_inj hret
    exact ⟨mem, rfl, hsh⟩
  rw [if_neg hrange] at hret ⊢
  have hv : v < 2 ^ 47 := by
    unfold userVirtualAddressEnd at hrange
    omega
  unfold vmaMapFairvadrsCore at hret ⊢
  rw [show ({ s with mem := mem } : Sys A).vma i = s.vma i from rfl]
  cases hfind : vmaMapFindKmvarsdsc (s.vma i) v with
  | none =>
    rw [hfind] at hret
    obtain ⟨rfl, rfl⟩ := pair_inj hret
    exact ⟨mem, rfl, hsh⟩
  | some k =>
    rw [hfind] at hret
    obtain ⟨hk, hlo, hhi⟩ := vmaMapFindKmvarsdsc_spec hfind
    obtain ⟨pre, post, hsplit⟩ := Nodes.exists_split (h.reached i hi).nodup hk
    obtain ⟨⟨b, s₁⟩, hbox, hret⟩ := bind_eq_ok hret
    have ha := vmaMapRetnKvmemcbox_cases h.counts hfresh hbox
    obtain ⟨hinv, hb⟩ := ha.inv h hi hsplit
    have hi₁ : i < s₁.mmnr := ha.mmnr_eq ▸ hi
    have hbox' := vmaMapRetnKvmemcbox_withMem mem hbox
    have hattached : Follows i s s₁ mem mem := .of_eq hsh.tables (ha.mmu_eq i) ha.addr_eq ha.mem_eq
    obtain ⟨⟨p, t₁⟩, hfault, hret⟩ := bind_eq_ok hret
    obtain ⟨mem₁, hfault', hfollows⟩ :=
      vmaMapMsaFault_follows hinv.owned hinv.lists hi₁ hv hb hattached.tables hfault
    have hsame := hattached.trans hfollows
    simp only at hret ⊢
    rw [bind_of_ok hbox']
    simp only
    rw [bind_of_ok hfault']
    simp only
    rcases vmaMapMsaFault_spec hinv.owned hinv.lists hi₁ hv hb with ⟨t₂, heq, hrefuses⟩ | ⟨msa, t₂, heq, hpos, hmaps⟩
    · obtain ⟨rfl, rfl⟩ := pair_inj (heq.symm.trans hfault)
      obtain ⟨rfl, rfl⟩ := pair_inj hret
      refine ⟨mem₁, rfl, hsh.follows hsame fun w hw => .inr ?_⟩
      rw [hrefuses.look i hi₁ w hw, ha.look_eq]
    · obtain ⟨rfl, rfl⟩ := pair_inj (heq.symm.trans hfault)
      rw [if_neg hpos] at hret ⊢
      obtain ⟨t₃, hfull, hret⟩ := bind_eq_ok hret
      obtain ⟨rfl, rfl⟩ := pair_inj hret
      have hi₂ : i < t₂.mmnr := by
        rw [hmaps.quiet.mmnr]
        exact hi₁
      obtain ⟨mem₂, hfull', hfollows', hpage⟩ :=
        vmaFullTextbin_follows hmaps.owned hi₂ hv (hfill k hk hlo hhi) hfollows.tables hfull
      obtain ⟨-, -, -, hlook₁, hlook, -⟩ := hinv.maps hi₁ hv hmaps hfull
      refine ⟨mem₂, bind_of_ok hfull' _, hfollows'.tables, fun w hw hne => ?_⟩
      rw [hlook i hi₁ w hw] at hne ⊢
      by_cases hset : i = i ∧ w / 0x1000 = v / 0x1000
      · rw [if_pos hset, ← hlook₁]
        exact hpage
      · rw [if_neg hset, ha.look_eq] at hne ⊢
        exact (hsame.trans hfollows').same _ (hsh.pages w hw hne)

/-! ### Runs -/

/-- A call of space `i`: `mallocblk`, `mfreeblk` or a page fault. Descriptors and boxes that are handed out are not in
use. -/
def Call.Own (i : Nat) (s : Sys A) : Call → Prop
  | .newVadrs j _ _ _ _ newkmvd | .delVadrs j _ _ newkmvd => j = i ∧ FreshFor (s.vma i) newkmvd
  | .fault j _ newkvmemcbox => j = i ∧ FreshBox s newkvmemcbox
  | _ => False

instance (i : Nat) (s : Sys A) : (c : Call) → Decidable (c.Own i s)
  | .create .. => isFalse id
  | .newVadrs .. => inferInstanceAs (Decidable (_ ∧ _))
  | .delVadrs .. => inferInstanceAs (Decidable (_ ∧ _))
  | .fault .. => inferInstanceAs (Decidable (_ ∧ _))
  | .other => isFalse id

def runOwn (image : Nat → UInt8) (i : Nat) (s : Sys A) (cs : List Call) : Halt (Sys A) :=
  runHalt (fun s c => if c.Own i s then c.run image s else .error "") s cs

def Call.Filled (s : Sys A) : Call → Prop
  | .fault i vadrs _ => ∀ k ∈ (s.vma i).vsList, k.kvaStart ≤ vadrs → vadrs < k.kvaEnd → k.kvaMaptype = kmvBinType
  | _ => True

def Filled (image : Nat → UInt8) : Sys A → List Call → Prop
  | _, [] => True
  | s, c :: cs => c.Filled s ∧ ∀ t, c.run image s = .ok t → Filled image t cs

/-- **One call** over two memories. -/
theorem shares_step {c : Call} (h : Inv L s frames rest) (hi : i < s.mmnr) (hown : c.Own i s) (hc : c.NoWrap)
    (hfill : c.Filled s) (hsh : Shares s i mem) (hrun : c.run image s = .ok t) :
    (∃ frames, Inv L t frames rest) ∧ i < t.mmnr ∧
      ∃ mem₁, c.run image { s with mem := mem } = .ok { t with mem := mem₁ } ∧ Shares t i mem₁ := by
  cases c with
  | create => exact hown.elim
  | other => exact hown.elim
  | newVadrs j start size limits type newkmvd =>
    obtain ⟨rfl, hfresh⟩ := hown
    obtain rfl := Except.ok.inj hrun
    refine ⟨⟨frames, h.newVadrs hi hfresh hc rfl⟩, hi, mem, rfl, ?_⟩
    exact hsh.follows (.of_eq hsh.tables (s.mmu_setVma ..) rfl rfl) fun w _ => .inr (s.look_setVma ..)
  | delVadrs j start size newkmvd =>
    obtain ⟨rfl, hfresh⟩ := hown
    obtain ⟨⟨rets, s₁⟩, hdel, hrun⟩ := bind_eq_ok hrun
    obtain rfl := Except.ok.inj hrun
    obtain ⟨mem₁, hdel', hfollows⟩ := vmaDelVadrs_follows h hi hfresh hc hsh.tables hdel
    have hrun' : (Call.delVadrs j start size newkmvd).run image { s with mem := mem } = .ok { s₁ with mem := mem₁ } :=
      bind_of_ok hdel' _
    rcases h.delVadrs hi hfresh hc hdel with ⟨-, rfl⟩ | ⟨-, -, -, -, frames', hd, -⟩
    · exact ⟨⟨frames, h⟩, hi, mem₁, hrun', hsh.follows hfollows fun w _ => .inr rfl⟩
    · refine ⟨⟨frames', hd.inv⟩, by rw [hd.mmnr]; exact hi, mem₁, hrun', hsh.follows hfollows fun w hw => ?_⟩
      rw [hd.look j hi w hw]
      by_cases hset : j = j ∧ start / 0x1000 ≤ w / 0x1000 ∧
          w / 0x1000 < start / 0x1000 + vadszAlign size / 0x1000
      · exact .inl (if_pos hset)
      · exact .inr (if_neg hset)
  | fault j vadrs newkvmemcbox =>
    obtain ⟨rfl, hfresh⟩ := hown
    obtain ⟨⟨ret, s₁⟩, hmap, hrun⟩ := bind_eq_ok hrun
    obtain rfl := Except.ok.inj hrun
    obtain ⟨mem₁, hmap', hshares⟩ := vmaMapFairvadrs_shares h hi hfresh hfill hsh hmap
    have hrun' : (Call.fault j vadrs newkvmemcbox).run image { s with mem := mem } = .ok { s₁ with mem := mem₁ } :=
      bind_of_ok hmap' _
    rcases vmaMapFairvadrs_cases h hi hfresh hmap with
      ⟨-, -, rfl⟩ | ⟨pre, k, post, b, s₂, hv, -, -, -, ha, hinv, -, ⟨-, hr⟩ | ⟨-, msa, t₁, hm, hfull⟩⟩
    · exact ⟨⟨frames, h⟩, hi, mem₁, hrun', hshares⟩
    · refine ⟨⟨frames, hinv.refuses hr⟩, ?_, mem₁, hrun', hshares⟩
      rw [hr.quiet.mmnr, ha.mmnr_eq]
      exact hi
    · obtain ⟨hinv', hquiet, -⟩ := hinv.maps (ha.mmnr_eq ▸ hi) hv hm hfull
      refine ⟨⟨_, hinv'⟩, ?_, mem₁, hrun', hshares⟩
      rw [hquiet.mmnr, ha.mmnr_eq]
      exact hi

theorem shares_run (ds : List Call) : ∀ {s frames mem}, Inv L s frames rest → i < s.mmnr → Shares s i mem →
    (∀ c ∈ ds, c.NoWrap) → Filled image s ds → runOwn image i s ds = .ok t →
    (∃ frames, Inv L t frames rest) ∧ i < t.mmnr ∧
      ∃ mem₁, runOwn image i { s with mem := mem } ds = .ok { t with mem := mem₁ } ∧ Shares t i mem₁ := by
  induction ds with
  | nil =>
    intro s frames mem h hi hsh _ _ hrun
    obtain rfl := Except.ok.inj hrun
    exact ⟨⟨frames, h⟩, hi, mem, rfl, hsh⟩
  | cons c ds ih =>
    intro s frames mem h hi hsh hds hfill hrun
    obtain ⟨s₁, hstep, hrun⟩ := bind_eq_ok hrun
    simp only at hstep
    split_ifs at hstep with hown
    obtain ⟨⟨frames₁, h₁⟩, hi₁, mem₁, hstep', hsh₁⟩ :=
      shares_step h hi hown (hds c List.mem_cons_self) hfill.1 hsh hstep
    obtain ⟨hinv, hit, mem₂, hrun', hsh₂⟩ :=
      ih h₁ hi₁ hsh₁ (fun c hc => hds c (List.mem_cons_of_mem _ hc)) (hfill.2 s₁ hstep) hrun
    have hown' : c.Own i { s with mem := mem } := by
      cases c <;> exact hown
    exact ⟨hinv, hit, mem₂, (bind_of_ok ((if_pos hown').trans hstep') _).trans hrun', hsh₂⟩

/-- **Nothing hidden shows** as long as every page fault is in an interval of a program. -/
theorem same_view_of_filled {cs ds : List Call} (h : Ran L image cs s rest) (hcs : ∀ c ∈ cs, c.NoWrap)
    (hi : i < s.mmnr) (hal : Alike L i s s') (hds : ∀ c ∈ ds, c.NoWrap) (hfill : Filled image s ds)
    (hrun : runOwn image i s ds = .ok t) : ∃ t', runOwn image i s' ds = .ok t' ∧ SameView i t t' := by
  obtain ⟨frames, hinv, -⟩ := inv_of_run h hcs
  obtain ⟨⟨frames', hinv'⟩, hi', mem, hrun', hsh⟩ :=
    shares_run ds hinv hi ⟨hal.tables i hi, hal.pages⟩ hds hfill hrun
  rw [← hal.eq_withMem] at hrun'
  exact ⟨_, hrun', hsh.sameView hinv'.owned hi'⟩

def Sys.scribble (s : Sys A) (a : Nat) : Sys A := { s with mem := Function.update s.mem a fun _ => 0xdead }

def Sys.handed (s : Sys bump) : Nat := s.alc

theorem alike_scribble {s : Sys bump} {cs : List Call} {a : Nat} (h : Ran bumpLawful image cs s rest)
    (hcs : ∀ c ∈ cs, c.NoWrap) (hi : i < s.mmnr) (ha : (s.handed + 1) * 0x1000 ≤ a) :
    Alike bumpLawful i s (s.scribble a) := by
  obtain ⟨frames, hinv, hfaith⟩ := inv_of_run h hcs
  have hbelow : ∀ {live blk}, bumpLawful.Inv s.alc live → blk ∈ live → s.addr blk.1 + blk.2 * 0x1000 ≤ a := by
    intro live blk hlive hblk
    obtain ⟨hone, hlt⟩ : blk.2 = 1 ∧ blk.1 < s.handed := hlive.2.2 blk hblk
    have haddr : s.addr blk.1 = (blk.1 + 1) * 0x1000 := rfl
    omega
  have hkept : ∀ {msa}, (msa, 1) ∈ s.blocks frames rest → (s.scribble a).mem (s.addr msa) = s.mem (s.addr msa) := by
    intro msa hmsa
    have hend := hbelow hinv.owned.live hmsa
    simp only at hend
    exact Function.update_of_ne (by omega) _ _
  refine ⟨rfl, rfl, rfl, rfl, rfl, fun j hj msa hmsa => hkept ?_, fun v hv hne => ?_,
    fun a' hne => .inr fun live hlive blk hblk hin => ?_⟩
  · exact (s.blocks_perm frames rest hj).mem_iff.mp (List.mem_append_left _ (List.mem_map_of_mem hmsa))
  · obtain ⟨msa, hmsa, haddr⟩ := (hfaith bump_low).mapped i hi v hv hne
    rw [← haddr]
    exact hkept (Sys.mem_blocks_of_frame hmsa)
  · have heq : a' = a := by
      by_contra hne'
      exact hne (Function.update_of_ne hne' _ _)
    have hend := hbelow hlive hblk
    omega

/-- A page of the program is loaded over whatever its frame held. -/
theorem same_view_of_loaded : ∃ s t t' : Sys bump,
    Ran bumpLawful (markedImage 0xffff800000200000) (execvl 0xffff800000200000) s [] ∧
    runOwn (markedImage 0xffff800000200000) 0 s [.fault 0 0x101234 (some 9)] = .ok t ∧
    runOwn (markedImage 0xffff800000200000) 0 (s.scribble 0x2000) [.fault 0 0x101234 (some 9)] = .ok t' ∧
    t.look 0 0x101234 = 0x2000 ∧ SameView 0 t t' := by
  obtain ⟨s, hrun, hs⟩ := exists_of_map
    (x := runCalls (markedImage 0xffff800000200000) (bootSys (A := bump) (0 : Nat)) (execvl 0xffff800000200000))
    (f := fun s => (decide (0 < s.mmnr ∧ (s.handed + 1) * 0x1000 ≤ 0x2000 ∧
        ∀ k ∈ (s.vma 0).vsList, k.kvaStart ≤ 0x101234 → 0x101234 < k.kvaEnd → k.kvaMaptype = kmvBinType),
      Except.map (fun t => t.look 0 0x101234)
        (runOwn (markedImage 0xffff800000200000) 0 s [.fault 0 0x101234 (some 9)])))
    (b := (true, .ok 0x2000)) (by decide +kernel)
  obtain ⟨hok, hfault⟩ := Prod.mk.inj hs
  obtain ⟨hi, hfree, hbin⟩ := of_decide_eq_true hok
  obtain ⟨t, hret, hlook⟩ := exists_of_map hfault
  have hran : Ran bumpLawful (markedImage 0xffff800000200000) (execvl 0xffff800000200000) s [] :=
    ran_of_runCalls bump_empty hrun
  have hfill : Filled (markedImage 0xffff800000200000) s [.fault 0 0x101234 (some 9)] := ⟨hbin, fun _ _ => trivial⟩
  have hcs : ∀ c ∈ execvl 0xffff800000200000, c.NoWrap := by simp +decide [execvl, Call.NoWrap]
  obtain ⟨t', hret', hview⟩ := same_view_of_filled hran hcs hi (alike_scribble hran hcs hi hfree)
    (by simp [Call.NoWrap]) hfill hret
  exact ⟨s, t, t', hran, hret, hret', hlook, hview⟩

/-- The first page of a new heap shows what its frame held. -/
theorem heap_page_shows_old_bytes : ∃ s t t' : Sys bump,
    Ran bumpLawful (fun _ => 0) [.create 0 (some 1) (some 2) (some 3) none] s [] ∧
      Alike bumpLawful 0 s (s.scribble 0x2000) ∧
    runOwn (fun _ => 0) 0 s [.fault 0 0x100000000 (some 9)] = .ok t ∧
    runOwn (fun _ => 0) 0 (s.scribble 0x2000) [.fault 0 0x100000000 (some 9)] = .ok t' ∧ ¬SameView 0 t t' := by
  obtain ⟨s, hrun, hs⟩ := exists_of_map
    (x := runCalls (fun _ => 0) (bootSys (A := bump) (0 : Nat)) [.create 0 (some 1) (some 2) (some 3) none])
    (f := fun s => (decide (0 < s.mmnr ∧ (s.handed + 1) * 0x1000 ≤ 0x2000),
      Except.map (fun t => (t.look 0 0x100000000, t.mem 0x2000 0))
        (runOwn (fun _ => 0) 0 s [.fault 0 0x100000000 (some 9)]),
      Except.map (fun t => t.mem 0x2000 0) (runOwn (fun _ => 0) 0 (s.scribble 0x2000) [.fault 0 0x100000000 (some 9)])))
    (b := (true, .ok (0x2000, 0), .ok 0xdead)) (by decide +kernel)
  obtain ⟨hok, hs⟩ := Prod.mk.inj hs
  obtain ⟨hi, hfree⟩ := of_decide_eq_true hok
  obtain ⟨hfault, hfault'⟩ := Prod.mk.inj hs
  obtain ⟨t, hret, ht⟩ := exists_of_map hfault
  obtain ⟨hlook, hold⟩ := Prod.mk.inj ht
  obtain ⟨t', hret', hold'⟩ := exists_of_map hfault'
  have hran : Ran bumpLawful (fun _ => 0) [.create 0 (some 1) (some 2) (some 3) none] s [] :=
    ran_of_runCalls bump_empty hrun
  refine ⟨s, t, t', hran, alike_scribble hran (by simp [Call.NoWrap]) hi hfree, hret, hret', fun hview => ?_⟩
  have hsame := (hview 0x100000000 (by decide)).2 (by rw [hlook]; decide)
  rw [hlook] at hsame
  have hword := congrFun hsame 0
  rw [hold, hold'] at hword
  cases hword

end Cosmos.Space
