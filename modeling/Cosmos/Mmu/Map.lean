import Cosmos.Mmu.Level

/-!
# Mapping and unmapping refine a finite map

`lookup` reads the tables as a map from user pages to frames. `hal_mmu_transform` sets the page of its address
and nothing else, or, refused by the page allocator, changes nothing; `hal_mmu_untransform` returns the page's
frame and removes exactly that page. The kernel's half of the root and every page that is not a table stay as
they are.
-/

namespace Cosmos.Mmu

open Cosmos.Lib Halt Cosmos.Page Function

variable {A : PageAlloc} {L : Lawful A} {st st' st'' : St A} {rest : List Blk} {e : Nat}

def pageOf (vadrs : Nat) : Nat := vadrs / 0x1000 % 2 ^ 36

theorem pageOf_eq (v : Nat) : pageOf v =
    mmuTdireIndex v * 2 ^ 27 + mmuSdireIndex v * 2 ^ 18 + mmuIdireIndex v * 2 ^ 9 + mmuMdireIndex v := by
  unfold pageOf mmuTdireIndex mmuSdireIndex mmuIdireIndex mmuMdireIndex
  omega

theorem path_eq_iff (v w : Nat) : (∀ k ≤ 3, path w k = path v k) ↔ pageOf w = pageOf v := by
  constructor
  · intro h
    have h0 : mmuTdireIndex w = mmuTdireIndex v := h 0 (by omega)
    have h1 : mmuSdireIndex w = mmuSdireIndex v := h 1 (by omega)
    have h2 : mmuIdireIndex w = mmuIdireIndex v := h 2 (by omega)
    have h3 : mmuMdireIndex w = mmuMdireIndex v := h 3 (by omega)
    rw [pageOf_eq, pageOf_eq, h0, h1, h2, h3]
  · intro h k hk
    unfold pageOf at h
    match k, hk with
    | 0, _ => show w / 2 ^ 39 % 512 = v / 2 ^ 39 % 512; omega
    | 1, _ => show w / 2 ^ 30 % 512 = v / 2 ^ 30 % 512; omega
    | 2, _ => show w / 2 ^ 21 % 512 = v / 2 ^ 21 % 512; omega
    | 3, _ => show w / 2 ^ 12 % 512 = v / 2 ^ 12 % 512; omega

/-! ### Composing levels -/

namespace Outside

theorem root_eq (h : Outside st st' rest) : st'.root = st.root := by
  rw [St.root, h.tdirearr, St.root]

theorem trans (h : Outside st st' rest) (h' : Outside st' st'' rest) : Outside st st'' rest where
  addr := h'.addr.trans h.addr
  tdirearr := h'.tdirearr.trans h.tdirearr
  kernel := fun j hj => by rw [← h.kernel j hj, ← h.root_eq, h'.kernel j hj]
  rest := fun b hb a hlo hhi =>
    (h'.rest b hb a (by rw [h.addr]; exact hlo) (by rw [h.addr]; exact hhi)).trans (h.rest b hb a hlo hhi)

end Outside

namespace Keeps

variable {k : Nat}

theorem lay_eq (h : Keeps st st' rest k) {k' : Nat} (hk' : k' ≤ k) : st'.lay k' = st.lay k' := by
  simp only [St.lay, h.addr, h.head k' hk']

theorem mem_lay (h : Keeps st st' rest k) {k' a : Nat} (hk' : k' ≤ k) (ha : a ∈ st.lay k') : a ∈ st'.lay k' := by
  rw [h.lay_eq hk']
  exact ha

theorem mem_head (h : Keeps st st' rest k) {k' : Nat} (hk' : k' ≤ k) {out : Option Nat}
    (hout : ∀ m ∈ out, m ∈ st.mmu.mudDirhead (lvl k')) : ∀ m ∈ out, m ∈ st'.mmu.mudDirhead (lvl k') := by
  rw [h.head k' hk']
  exact hout

theorem mem_root (h : Keeps st st' rest k) (hk : 0 < k) (hroot : st.root ∈ st.lay 0) :
    st'.mem st'.root = st.mem st.root := by
  rw [h.root_eq, h.above 0 hk _ hroot]

theorem mono (h : Keeps st st' rest k) {k' : Nat} (hk' : k' ≤ k) : Keeps st st' rest k' :=
  { h with
    head := fun i hi => h.head i (by omega)
    above := fun i hi => h.above i (by omega) }

theorem trans (h : Keeps st st' rest k) (h' : Keeps st' st'' rest k) : Keeps st st'' rest k where
  toOutside := h.toOutside.trans h'.toOutside
  head := fun i hi => (h'.head i hi).trans (h.head i hi)
  above := fun i hi a ha => (h'.above i hi a (h.mem_lay hi.le ha)).trans (h.above i hi a ha)
  walk := fun π hπ => by rw [← h.walk π hπ, ← h.root_eq, h'.walk π hπ]

theorem lookup_eq (h : Keeps st st' rest k) {w : Nat} (hw : UserHalf w) : lookup st' w = lookup st w := by
  rw [lookup, h.root_eq, h.walk _ hw.path, lookup]

end Keeps

/-! ### The undo labels -/

section Undo

variable {v : Nat}

theorem untfSdire_spec (h : Owns L st rest e) (hv : UserHalf v)
    (he : e = st.root ∨ e = 0 ∨ e = hwFrame (st.mem st.root (mmuTdireIndex v))) (smsa : Option Nat)
    (hsmsa : ∀ m ∈ smsa, m ∈ st.mmu.mudDirhead .s) :
    ∃ st', untfSdire st (viradr st.root) smsa v = .ok st' ∧ Owns L st' rest 0 ∧
      Keeps st st' rest 0 := by
  obtain ⟨b, st', heq, hown, hkeep⟩ := untransformDire_spec h he (by omega) h.root_mem hv hsmsa
  refine ⟨st', ?_, hown.setExcept (hown.forest.of_root ?_), hkeep⟩
  · exact bind_of_ok heq _
  · exact hkeep.mem_lay le_rfl h.root_mem

theorem untfIdire_spec {s : Nat} (h : Owns L st rest e) (hv : UserHalf v)
    (hs : hwFrame (st.mem st.root (mmuTdireIndex v)) = s) (hs1 : s ∈ st.lay 1)
    (he : e = s ∨ e = 0 ∨ e = hwFrame (st.mem s (mmuSdireIndex v))) (smsa imsa : Option Nat)
    (hsmsa : ∀ m ∈ smsa, m ∈ st.mmu.mudDirhead .s) (himsa : ∀ m ∈ imsa, m ∈ st.mmu.mudDirhead .i) :
    ∃ st', untfIdire st (viradr st.root) (viradr s) smsa imsa v = .ok st' ∧
      Owns L st' rest 0 ∧ Keeps st st' rest 0 := by
  obtain ⟨b, st₁, heq, hown, hkeep⟩ := untransformDire_spec h he (by omega) hs1 (hv.path 1 (by omega)) himsa
  have hroot : st₁.mem st₁.root = st.mem st.root := hkeep.mem_root (by omega) h.root_mem
  obtain ⟨st', heq', hown', hkeep'⟩ := untfSdire_spec hown hv (.inr (.inr (by rw [hroot, hs]))) smsa
    (hkeep.mem_head le_rfl hsmsa)
  rw [hkeep.root_eq] at heq'
  refine ⟨st', ?_, hown', (hkeep.mono (by omega)).trans hkeep'⟩
  exact (bind_of_ok heq _).trans heq'

theorem untfMdire_spec {s i : Nat} (h : Owns L st rest e) (hv : UserHalf v)
    (hs : hwFrame (st.mem st.root (mmuTdireIndex v)) = s) (hs1 : s ∈ st.lay 1)
    (hi : hwFrame (st.mem s (mmuSdireIndex v)) = i) (hi2 : i ∈ st.lay 2)
    (he : e = i ∨ e = 0 ∨ e = hwFrame (st.mem i (mmuIdireIndex v))) (smsa imsa mmsa : Option Nat)
    (hsmsa : ∀ m ∈ smsa, m ∈ st.mmu.mudDirhead .s) (himsa : ∀ m ∈ imsa, m ∈ st.mmu.mudDirhead .i)
    (hmmsa : ∀ m ∈ mmsa, m ∈ st.mmu.mudDirhead .m) :
    ∃ st', untfMdire st (viradr st.root) (viradr s)
        (viradr i) smsa imsa mmsa v = .ok st' ∧
      Owns L st' rest 0 ∧ Keeps st st' rest 0 := by
  obtain ⟨b, st₁, heq, hown, hkeep⟩ := untransformDire_spec h he (by omega) hi2 (hv.path 2 (by omega)) hmmsa
  have hroot : st₁.mem st₁.root = st.mem st.root := hkeep.mem_root (by omega) h.root_mem
  have hsmem : st₁.mem s = st.mem s := hkeep.above 1 (by omega) s hs1
  obtain ⟨st', heq', hown', hkeep'⟩ := untfIdire_spec hown hv (by rw [hroot, hs])
    (hkeep.mem_lay (by omega) hs1) (.inr (.inr (by rw [hsmem, hi]))) smsa imsa
    (hkeep.mem_head (show 1 ≤ _ by omega) hsmsa)
    (hkeep.mem_head le_rfl himsa)
  rw [hkeep.root_eq] at heq'
  refine ⟨st', ?_, hown', (hkeep.mono (by omega)).trans hkeep'⟩
  exact (bind_of_ok heq _).trans heq'

end Undo

/-! ### The last level -/

section Leaf

variable {s i m j entry : Nat}

def St.writeLeaf (st : St A) (m j entry : Nat) : St A :=
  { st with mem := update st.mem m (update (st.mem m) j entry) }

theorem St.writeLeaf_slot (st : St A) {a j' : Nat} (h : a = m → j' ≠ j) :
    (st.writeLeaf m j entry).mem a j' = st.mem a j' := update_slot st.mem m j entry h

theorem Owns.writeLeaf (h : Owns L st rest e) (he : e = m ∨ e = 0) (hm : m ∈ st.lay 3) (hok : EntryOk entry)
    (hentry : entry = 0 ∨ hwFrame entry ≠ 0) :
    Owns L (st.writeLeaf m j entry) rest m ∧ Outside st (st.writeLeaf m j entry) rest := by
  have hslot : ∀ a j', (a = m ∧ j' = j ∧ (st.writeLeaf m j entry).mem a j' = entry) ∨
      (st.writeLeaf m j entry).mem a j' = st.mem a j' := by
    intro a j'
    by_cases heq : a = m ∧ j' = j
    · obtain ⟨rfl, rfl⟩ := heq
      exact .inl ⟨rfl, rfl, update_slot_self st.mem a j' entry⟩
    · exact .inr (st.writeLeaf_slot fun ham hjj => heq ⟨ham, hjj⟩)
  refine ⟨⟨h.inv, h.below, h.root, ?_, ?_, ?_, h.count⟩, ⟨rfl, rfl, ?_, ?_⟩⟩
  · exact h.forest.write he hm fun a j' hne => st.writeLeaf_slot hne
  · intro k hk a ha j' hj'
    rcases hslot a j' with ⟨-, -, heq⟩ | heq
    · rw [heq]
      exact hok
    · rw [heq]
      exact h.entryOk k hk a ha j' hj'
  · intro a ha j' hj'
    rcases hslot a j' with ⟨-, -, heq⟩ | heq
    · rw [heq]
      exact hentry
    · rw [heq]
      exact h.leaf a ha j' hj'
  · intro j' _
    refine st.writeLeaf_slot fun hrm => ?_
    exact absurd (h.forest.depth 0 (by omega) 3 le_rfl st.root h.root_mem (hrm ▸ hm)) (by omega)
  · intro b hb a hlo hhi
    obtain ⟨msa, hmsa, rfl⟩ := hm
    refine update_of_ne ?_ _ _
    rintro rfl
    exact h.not_in_rest (Mmudsc.mem_tables hmsa) hb ⟨hlo, hhi⟩

/-- The three tables on the way to an address. -/
structure Way (st : St A) (v s i m : Nat) : Prop where
  sdir : hwFrame (st.mem st.root (mmuTdireIndex v)) = s
  idir : hwFrame (st.mem s (mmuSdireIndex v)) = i
  mdir : hwFrame (st.mem i (mmuIdireIndex v)) = m
  lay1 : s ∈ st.lay 1
  lay2 : i ∈ st.lay 2
  lay3 : m ∈ st.lay 3

variable {v w : Nat}

theorem Way.walk_eq (h : Way st v s i m) (hown : Owns L st rest e) :
    Radix.walk hwFrame st.mem (path v) 3 0 st.root = m := by
  have hs := hown.forest.pos 1 (by omega) s h.lay1
  have hi := hown.forest.pos 2 (by omega) i h.lay2
  have hm := hown.forest.pos 3 (by omega) m h.lay3
  simp only [Radix.walk, path, h.sdir, h.idir, h.mdir, if_neg hs, if_neg hi, if_neg hm]

theorem Way.lookup_eq (h : Way st v s i m) (hown : Owns L st rest e) :
    lookup st v = hwFrame (st.mem m (mmuMdireIndex v)) := by
  have hr := hown.forest.pos 0 (by omega) _ hown.root_mem
  have hm := hown.forest.pos 3 (by omega) m h.lay3
  rw [lookup, Radix.Forest.walk_succ 3 0 _ hr, h.walk_eq hown, if_neg hm]
  rfl

theorem Owns.writeLeaf_above {k a : Nat} (h : Owns L st rest e) (hm : m ∈ st.lay 3) (hk : k < 3) (ha : a ∈ st.lay k) :
    (st.writeLeaf m j entry).mem a = st.mem a := by
  refine update_of_ne ?_ _ _
  rintro rfl
  exact absurd (h.forest.depth k (by omega) 3 le_rfl a ha hm) (by omega)

theorem Way.lookup_writeLeaf (h : Way st v s i m) (hown : Owns L st rest e) (hv : UserHalf v) (hw : UserHalf w) :
    lookup (st.writeLeaf m (mmuMdireIndex v) entry) w =
      if pageOf w = pageOf v then hwFrame entry else lookup st w := by
  have hwrite := hown.forest.walk_write (v := entry) hwFrame_zero hown.root_mem h.lay3 hv.path (h.walk_eq hown)
    (update_slot_self st.mem m (mmuMdireIndex v) entry) (fun a j' hne => st.writeLeaf_slot hne) hw.path
  simp only [path_eq_iff] at hwrite
  exact hwrite

end Leaf

/-! ### `hal_mmu_transform` -/

section Transform

variable {v p flags : Nat}

theorem mmuTransformMsa_eq (st : St A) (m v p flags : Nat) :
    mmuTransformMsa st (viradr m) v p flags =
      (true, st.writeLeaf m (mmuMdireIndex v) (p ||| flags)) := by
  rw [mmuTransformMsa, St.wr_table]
  rfl

/-- The outcome of one level of a mapping below the table at `p` of depth `k`. -/
def Reached (L : Lawful A) (rest : List Blk) (k p j : Nat) (st : St A)
    (r : Halt (Option Nat × Option Nat × St A)) : Prop :=
  (∃ st', r = .ok (none, none, st') ∧ Owns L st' rest p ∧ Keeps st st' rest k) ∨
  (∃ c out st', r = .ok (some (viradr c), out, st') ∧
    Owns L st' rest c ∧ Keeps st st' rest k ∧ c ∈ st'.lay (k + 1) ∧ hwFrame (st'.mem p j) = c ∧
    ∀ msa ∈ out, msa ∈ st'.mmu.mudDirhead (lvl (k + 1)))

theorem mmuTransformSdire_spec (h : Owns L st rest st.root) (hv : UserHalf v) (hflags : flags < 0x1000)
    (hodd : flags % 2 = 1) : Reached L rest 0 st.root (mmuTdireIndex v) st
      (mmuTransformSdire st (viradr st.root) v flags) :=
  transformDire_spec (k := 0) h (by omega) h.root_mem hv hflags hodd

theorem mmuTransformIdire_spec {s : Nat} (h : Owns L st rest s) (hs : s ∈ st.lay 1) (hv : UserHalf v)
    (hflags : flags < 0x1000) (hodd : flags % 2 = 1) : Reached L rest 1 s (mmuSdireIndex v) st
      (mmuTransformIdire st (viradr s) v flags) :=
  transformDire_spec (k := 1) h (by omega) hs (hv.path 1 (by omega)) hflags hodd

theorem mmuTransformMdire_spec {i : Nat} (h : Owns L st rest i) (hi : i ∈ st.lay 2) (hv : UserHalf v)
    (hflags : flags < 0x1000) (hodd : flags % 2 = 1) : Reached L rest 2 i (mmuIdireIndex v) st
      (mmuTransformMdire st (viradr i) v flags) :=
  transformDire_spec (k := 2) h (by omega) hi (hv.path 2 (by omega)) hflags hodd

/-- A frame and flags the callers pass: a page below `2 ^ 52`, and flags that fit below it with `PML4E_P`. -/
structure MapArgs (p flags : Nat) : Prop where
  aligned : 0x1000 ∣ p
  pos : 0 < p
  lt : p < 2 ^ 52
  flags_lt : flags < 0x1000
  present : flags % 2 = 1

theorem MapArgs.hwFrame_eq (h : MapArgs p flags) : hwFrame (p ||| flags) = p :=
  hwFrame_entry h.aligned h.lt h.flags_lt h.present

/-- What `hal_mmu_transform` did for the page of `v`: the tables are owned, and the page maps to `p` or, on
failure, no page changed. -/
def Mapped (L : Lawful A) (rest : List Blk) (v p : Nat) (st : St A) (r : Halt (Bool × St A)) : Prop :=
  ∃ rets st', r = .ok (rets, st') ∧ Owns L st' rest 0 ∧ Outside st st' rest ∧
    ∀ w, UserHalf w → lookup st' w = if rets = true ∧ pageOf w = pageOf v then p else lookup st w

theorem mapped_of_fail {r : Halt (St A)}
    (h : ∃ st', r = .ok st' ∧ Owns L st' rest 0 ∧ Keeps st st' rest 0) :
    Mapped L rest v p st (r >>= fun st => .ok (false, st)) := by
  obtain ⟨st', heq, hown, hkeep⟩ := h
  refine ⟨false, st', bind_of_ok heq _, hown, hkeep.toOutside, fun w hw => ?_⟩
  rw [if_neg (by simp), hkeep.lookup_eq hw]

theorem Mapped.of_keeps {r : Halt (Bool × St A)} (hkeep : Keeps st st' rest 0) (h : Mapped L rest v p st' r) :
    Mapped L rest v p st r := by
  obtain ⟨rets, st'', heq, hown, hout, hlookup⟩ := h
  refine ⟨rets, st'', heq, hown, hkeep.toOutside.trans hout, fun w hw => ?_⟩
  rw [hlookup w hw, hkeep.lookup_eq hw]

theorem transformMsaOn_spec {s i m : Nat} {smsa imsa mmsa : Option Nat} (h : Owns L st rest m)
    (hway : Way st v s i m) (hv : UserHalf v) (hargs : MapArgs p flags) (tdirearr sdirearr idirearr : Nat) :
    Mapped L rest v p st (transformMsaOn st tdirearr sdirearr idirearr (viradr m)
      smsa imsa mmsa v p flags) := by
  have hne : hwFrame (p ||| flags) ≠ 0 := by
    rw [hargs.hwFrame_eq]
    exact hargs.pos.ne'
  obtain ⟨hown, hout⟩ := h.writeLeaf (j := mmuMdireIndex v) (.inl rfl) hway.lay3
    (.inr (entry_odd hargs.aligned hargs.flags_lt hargs.present)) (.inr hne)
  refine ⟨true, st.writeLeaf m (mmuMdireIndex v) (p ||| flags), ?_, hown.setExcept ?_, hout, fun w hw => ?_⟩
  · simp only [transformMsaOn, mmuTransformMsa_eq, if_true]
  · refine hown.forest.except 0 3 (mmuMdireIndex v) hway.lay3 le_rfl (hv.path 3 le_rfl) fun h0 => hne ?_
    rw [← hwFrame_zero, ← h0]
    exact congrArg hwFrame (update_slot_self st.mem m _ _).symm
  · rw [hway.lookup_writeLeaf h hv hw, hargs.hwFrame_eq]
    simp only [true_and]

theorem transformMdireOn_spec {s i : Nat} {smsa imsa : Option Nat} (h : Owns L st rest i) (hv : UserHalf v)
    (hs : hwFrame (st.mem st.root (mmuTdireIndex v)) = s) (hs1 : s ∈ st.lay 1)
    (hi : hwFrame (st.mem s (mmuSdireIndex v)) = i) (hi2 : i ∈ st.lay 2)
    (hsmsa : ∀ m ∈ smsa, m ∈ st.mmu.mudDirhead .s) (himsa : ∀ m ∈ imsa, m ∈ st.mmu.mudDirhead .i)
    (hargs : MapArgs p flags) :
    Mapped L rest v p st (transformMdireOn st (viradr st.root) (viradr s)
      (viradr i) smsa imsa v p flags) := by
  unfold transformMdireOn
  rcases mmuTransformMdire_spec h hi2 hv hargs.flags_lt hargs.present with
    ⟨st₁, heq, hown, hkeep⟩ | ⟨m, mmsa, st₁, heq, hown, hkeep, hm3, hm, hmmsa⟩
  · rw [bind_of_ok heq]
    refine mapped_of_fail ?_
    obtain ⟨st', heq', hown', hkeep'⟩ := untfMdire_spec hown hv
      (by rw [hkeep.mem_root (by omega) h.root_mem, hs]) (hkeep.mem_lay (by omega) hs1)
      (by rw [hkeep.above 1 (by omega) s hs1, hi]) (hkeep.mem_lay le_rfl hi2) (.inl rfl) smsa imsa none
      (hkeep.mem_head (show 1 ≤ _ by omega) hsmsa)
      (hkeep.mem_head le_rfl himsa) (by simp)
    rw [hkeep.root_eq] at heq'
    exact ⟨st', heq', hown', (hkeep.mono (by omega)).trans hkeep'⟩
  · rw [bind_of_ok heq]
    have hway : Way st₁ v s i m :=
      ⟨by rw [hkeep.mem_root (by omega) h.root_mem, hs], by rw [hkeep.above 1 (by omega) s hs1, hi],
        hm, hkeep.mem_lay (by omega) hs1, hkeep.mem_lay le_rfl hi2, hm3⟩
    exact .of_keeps (hkeep.mono (by omega)) (transformMsaOn_spec hown hway hv hargs _ _ _)

theorem transformIdireOn_spec {s : Nat} {smsa : Option Nat} (h : Owns L st rest s) (hv : UserHalf v)
    (hs : hwFrame (st.mem st.root (mmuTdireIndex v)) = s) (hs1 : s ∈ st.lay 1)
    (hsmsa : ∀ m ∈ smsa, m ∈ st.mmu.mudDirhead .s) (hargs : MapArgs p flags) :
    Mapped L rest v p st (transformIdireOn st (viradr st.root) (viradr s)
      smsa v p flags) := by
  unfold transformIdireOn
  rcases mmuTransformIdire_spec h hs1 hv hargs.flags_lt hargs.present with
    ⟨st₁, heq, hown, hkeep⟩ | ⟨i, imsa, st₁, heq, hown, hkeep, hi2, hi, himsa⟩
  · rw [bind_of_ok heq]
    refine mapped_of_fail ?_
    obtain ⟨st', heq', hown', hkeep'⟩ := untfIdire_spec hown hv
      (by rw [hkeep.mem_root (by omega) h.root_mem, hs]) (hkeep.mem_lay le_rfl hs1)
      (.inl rfl) smsa none
      (hkeep.mem_head le_rfl hsmsa) (by simp)
    rw [hkeep.root_eq] at heq'
    exact ⟨st', heq', hown', (hkeep.mono (by omega)).trans hkeep'⟩
  · rw [bind_of_ok heq]
    have hmapped := transformMdireOn_spec hown hv
      (by rw [hkeep.mem_root (by omega) h.root_mem, hs]) (hkeep.mem_lay le_rfl hs1)
      hi hi2 (hkeep.mem_head le_rfl hsmsa) himsa hargs
    rw [hkeep.root_eq] at hmapped
    exact .of_keeps (hkeep.mono (by omega)) hmapped

/-- **Mapping a page** keeps the tables owned and sets exactly the page of `v`, or fails and changes no page. -/
theorem halMmuTransform_spec (h : Owns L st rest 0) (hv : UserHalf v) (hargs : MapArgs p flags) :
    Mapped L rest v p st (halMmuTransform st v p flags) := by
  rw [halMmuTransform, halMmuTransformCore, if_neg h.tdirearr_ne_zero, h.tdirearr_eq]
  rcases mmuTransformSdire_spec (h.setExcept (h.forest.of_zero st.root)) hv hargs.flags_lt hargs.present with
    ⟨st₁, heq, hown, hkeep⟩ | ⟨s, smsa, st₁, heq, hown, hkeep, hs1, hs, hsmsa⟩
  · rw [bind_of_ok heq]
    refine mapped_of_fail ?_
    obtain ⟨st', heq', hown', hkeep'⟩ := untfSdire_spec hown hv (.inl hkeep.root_eq.symm) none (by simp)
    rw [hkeep.root_eq] at heq'
    exact ⟨st', heq', hown', hkeep.trans hkeep'⟩
  · rw [bind_of_ok heq]
    have hmapped := transformIdireOn_spec hown hv (by rw [hkeep.root_eq, hs]) hs1 hsmsa hargs
    rw [hkeep.root_eq] at hmapped
    exact .of_keeps hkeep hmapped

end Transform

/-! ### `hal_mmu_untransform` -/

section Untransform

variable {v : Nat}

/-- What `hal_mmu_untransform` did: it returned the lower 40 bits of the frame of `v`'s page and removed that page. -/
def Unmapped (L : Lawful A) (rest : List Blk) (v : Nat) (st : St A) (r : Halt (Nat × St A)) : Prop :=
  ∃ st', r = .ok (bits 40 (lookup st v), st') ∧ Owns L st' rest 0 ∧ Outside st st' rest ∧
    ∀ w, UserHalf w → lookup st' w = if pageOf w = pageOf v then 0 else lookup st w

theorem lookup_congr {w : Nat} (h : pageOf w = pageOf v) : lookup st w = lookup st v :=
  Radix.Forest.walk_congr_path 4 0 st.root fun i _ hi => (path_eq_iff v w).mpr h i (by omega)

theorem unmapped_of_zero (h0 : lookup st v = 0) {r : Halt (St A)}
    (h : ∃ st', r = .ok st' ∧ Owns L st' rest 0 ∧ Keeps st st' rest 0) :
    Unmapped L rest v st (r >>= fun st => .ok (0, st)) := by
  obtain ⟨st', heq, hown, hkeep⟩ := h
  refine ⟨st', ?_, hown, hkeep.toOutside, fun w hw => ?_⟩
  · rw [h0]
    exact bind_of_ok heq _
  · rw [hkeep.lookup_eq hw]
    by_cases hpage : pageOf w = pageOf v
    · rw [if_pos hpage, lookup_congr hpage, h0]
    · rw [if_neg hpage]

theorem findDirearr_eq {p j k : Nat} (h : Owns L st rest e) (hk : k < 3) (hp : p ∈ st.lay k) (hj : j < bnd k) :
    findDirearr st (viradr p) j =
      .ok (if hwFrame (st.mem p j) = 0 then none
        else some (viradr (hwFrame (st.mem p j)))) := by
  have hok := h.entryOk k hk.le p hp j hj
  rw [findDirearr, St.rd_table]
  by_cases h0 : hwFrame (st.mem p j) = 0
  · rw [if_neg (not_direIsHave hok h0), if_pos h0]
  · rw [if_pos ((direIsHave_iff hok).mpr h0), if_neg h0, h.direRetPadr_eq hk hp hj,
      phyadrToViradr_ok (h.lay_lt (h.child_mem hk hp hj h0)), ok_bind]

theorem mmuUntransformMsa_eq {m : Nat} (h : Owns L st rest e) (hm : m ∈ st.lay 3) (v : Nat) :
    mmuUntransformMsa st (viradr m) v =
      (bits 40 (hwFrame (st.mem m (mmuMdireIndex v))), st.writeLeaf m (mmuMdireIndex v) 0) := by
  have hlt : mmuMdireIndex v < 512 := Nat.mod_lt _ (by decide)
  have hok := h.entryOk 3 le_rfl m hm _ hlt
  rw [mmuUntransformMsa, St.rd_table]
  by_cases h0 : hwFrame (st.mem m (mmuMdireIndex v)) = 0
  · -- an entry without a frame is already zero
    have hzero := (h.leaf m hm _ hlt).resolve_right fun hne => hne h0
    rw [if_neg (not_direIsHave hok h0), h0]
    refine Prod.ext rfl ?_
    simp only [St.writeLeaf, ← hzero, update_eq_self]
  · rw [if_pos ((direIsHave_iff hok).mpr h0), ← hok.direRetPadr_eq, St.wr_table]
    rfl

theorem untransformMdireOn_spec {s i : Nat} (h : Owns L st rest 0) (hv : UserHalf v)
    (hs : hwFrame (st.mem st.root (mmuTdireIndex v)) = s) (hs1 : s ∈ st.lay 1)
    (hi : hwFrame (st.mem s (mmuSdireIndex v)) = i) (hi2 : i ∈ st.lay 2) :
    Unmapped L rest v st (untransformMdireOn st (viradr st.root) (viradr s)
      (viradr i) v) := by
  have hs0 := h.forest.pos 1 (by omega) s hs1
  have hi0 := h.forest.pos 2 (by omega) i hi2
  have hidx : mmuIdireIndex v < bnd 2 := hv.path 2 (by omega)
  rw [untransformMdireOn, mmuFindMdirearr, bind_of_ok (findDirearr_eq h (by omega) hi2 hidx)]
  by_cases hm0 : hwFrame (st.mem i (mmuIdireIndex v)) = 0
  · simp only [if_pos hm0]
    refine unmapped_of_zero ?_ (untfIdire_spec h hv hs hs1 (.inr (.inl rfl)) none none (by simp) (by simp))
    simp only [lookup, Radix.walk, path, hs, hi, hm0, if_neg hs0, if_neg hi0, if_true]
  · simp only [if_neg hm0]
    have hm3 := h.child_mem (by omega) hi2 hidx hm0
    have hway : Way st v s i (hwFrame (st.mem i (mmuIdireIndex v))) := ⟨hs, hi, rfl, hs1, hi2, hm3⟩
    generalize hwFrame (st.mem i (mmuIdireIndex v)) = m at hm3 hway ⊢
    obtain ⟨hown, hout⟩ := h.writeLeaf (j := mmuMdireIndex v) (.inr rfl) hm3 (.inl rfl) (.inl rfl)
    obtain ⟨st', heq, hown', hkeep⟩ := untfMdire_spec hown hv
      (by rw [hout.root_eq, h.writeLeaf_above hm3 (by omega) h.root_mem, hs]) hs1
      (by rw [h.writeLeaf_above hm3 (by omega) hs1, hi]) hi2
      (.inr (.inr (by rw [h.writeLeaf_above hm3 (by omega) hi2, hway.mdir]))) none none none
      (by simp) (by simp) (by simp)
    rw [mmuUntransformMsa_eq h hm3]
    refine ⟨st', ?_, hown', hout.trans hkeep.toOutside, fun w hw => ?_⟩
    · rw [hway.lookup_eq h]
      exact bind_of_ok heq _
    · rw [hkeep.lookup_eq hw, hway.lookup_writeLeaf h hv hw, hwFrame_zero]

theorem untransformIdireOn_spec {s : Nat} (h : Owns L st rest 0) (hv : UserHalf v)
    (hs : hwFrame (st.mem st.root (mmuTdireIndex v)) = s) (hs1 : s ∈ st.lay 1) :
    Unmapped L rest v st
      (untransformIdireOn st (viradr st.root) (viradr s) v) := by
  have hs0 := h.forest.pos 1 (by omega) s hs1
  have hidx : mmuSdireIndex v < bnd 1 := hv.path 1 (by omega)
  rw [untransformIdireOn, mmuFindIdirearr, bind_of_ok (findDirearr_eq h (by omega) hs1 hidx)]
  by_cases hi0 : hwFrame (st.mem s (mmuSdireIndex v)) = 0
  · simp only [if_pos hi0]
    refine unmapped_of_zero ?_ (untfSdire_spec h hv (.inr (.inl rfl)) none (by simp))
    simp only [lookup, Radix.walk, path, hs, hi0, if_neg hs0, if_true]
  · simp only [if_neg hi0]
    exact untransformMdireOn_spec h hv hs hs1 rfl (h.child_mem (by omega) hs1 hidx hi0)

/-- **Unmapping a page** returns the lower bits of its frame, keeps the tables owned and removes exactly that page. -/
theorem halMmuUntransform_spec (h : Owns L st rest 0) (hv : UserHalf v) :
    Unmapped L rest v st (halMmuUntransform st v) := by
  have hidx : mmuTdireIndex v < bnd 0 := hv.path 0 (by omega)
  have hne : ¬viradr st.root = 0 := by
    unfold viradr krnlMapVirtaddressStart
    omega
  rw [halMmuUntransform, halMmuUntransformCore, h.tdirearr_eq, mmuFindSdirearr, if_neg hne,
    bind_of_ok (findDirearr_eq h (by omega) h.root_mem hidx)]
  by_cases hs0 : hwFrame (st.mem st.root (mmuTdireIndex v)) = 0
  · simp only [if_pos hs0]
    refine unmapped_of_zero ?_ ⟨st, rfl, h, .refl st rest 0⟩
    simp only [lookup, Radix.walk, path, hs0, if_true]
  · simp only [if_neg hs0]
    exact untransformIdireOn_spec h hv rfl (h.child_mem (by omega) h.root_mem hidx hs0)

end Untransform

end Cosmos.Mmu
