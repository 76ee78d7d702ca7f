import Cosmos.Page.Placement

/-!
# The page descriptors of the memory map (`hal/x86/halmm.c`, `hal/x86/msadsc.c`)

`init_one_pmrge` turns each entry of the `e820` array into a `phymmarge_t` with its last address. `ret_msadsc_vadrandsz`
counts the whole pages of the usable entries by their lengths, and `init_msadsc_core` writes a descriptor for each page
it comes to when it walks an entry from its first address on. The walk compares 64-bit addresses, so it does not end
when the address wraps before it reaches the last one (`written_as_counted_iff`), and a descriptor holds the number of
the page its address lies in, not the address (`frames_usable_iff`).

A walk that may not end is run for a number of turns.
-/

namespace Cosmos.Page

open Cosmos.Lib

structure E820map where
  saddr : Nat
  lsize : Nat
  type : Nat
  deriving DecidableEq, Repr

/-- `phymmarge_t`, with the fields that `init_one_pmrge` sets. -/
structure Phymmarge where
  pmrType : Nat
  pmrStype : Nat
  pmrFlgs : Nat
  pmrSaddr : Nat
  pmrLsize : Nat
  pmrEnd : Nat
  deriving DecidableEq, Repr

def pmrTOsapuserram : Nat := 1
def pmrTReservram : Nat := 2
def pmrTHwuserram : Nat := 8
def pmrTBugram : Nat := 0xff
def pmrFX8664 : Nat := 2
def sizeofPhymmarge : Nat := 80
def sizeofMsadsc : Nat := 40

/-- The `switch` of `init_one_pmrge`, `0` for an entry of unknown type. -/
def ptypeOf : Nat → Nat
  | 1 => pmrTOsapuserram
  | 2 => pmrTReservram
  | 3 | 4 => pmrTHwuserram
  | 5 | 6 => pmrTBugram
  | _ => 0

def initOnePmrge (e8p : E820map) : Option Phymmarge :=
  if ptypeOf e8p.type = 0 then none
  else some
    { pmrType := ptypeOf e8p.type
      pmrStype := e8p.type
      pmrFlgs := pmrFX8664
      pmrSaddr := e8p.saddr
      pmrLsize := e8p.lsize
      pmrEnd := u64Sub (u64 (e8p.saddr + e8p.lsize)) 1 }

/-- The entries of the array that `phyadr_to_viradr` gives for `mb_e820expadr`. -/
def Machranges.pmages (mb : Machranges) (pmagep : Nat → Phymmarge) : List Phymmarge :=
  (List.range mb.mbE820exnr).map pmagep

/-! ### Counting the pages -/

/-- The loop of `ret_msadsc_vadrandsz`: `usrmemsz` and `msadnr`. -/
def usrmemLoop : List Phymmarge → Nat → Nat → Nat × Nat
  | [], usrmemsz, msadnr => (usrmemsz, msadnr)
  | p :: ps, usrmemsz, msadnr =>
    if p.pmrType = pmrTOsapuserram then
      usrmemLoop ps (u64 (usrmemsz + p.pmrLsize)) (u64 (msadnr + p.pmrLsize / 0x1000))
    else usrmemLoop ps usrmemsz msadnr

/-- `ret_msadsc_vadrandsz`: the address and the number of the descriptors; `none` is `FALSE`. -/
def retMsadscVadrandsz (mb : Machranges) (pmagep : Nat → Phymmarge) : Halt (Option (Nat × Nat)) :=
  if mb.mbE820exnr < 1 ∨ mb.mbE820expadr = 0 ∨ u64 (mb.mbE820exnr * sizeofPhymmarge) ≠ mb.mbE820exsz then .ok none
  else
    phyadrToViradr mb.mbE820expadr >>= fun _ =>
      let (usrmemsz, msadnr) := usrmemLoop (mb.pmages pmagep) 0 0
      if usrmemsz = 0 ∨ usrmemsz / 0x1000 < 1 ∨ msadnr < 1 then .ok none
      else if initchkadrIsOk mb mb.mbNextwtpadr (u64 (msadnr * sizeofMsadsc)) ≠ 0 then
        .error "ret_msadsc_vadrandsz initchkadr_is_ok err\n"
      else phyadrToViradr mb.mbNextwtpadr >>= fun retmasvp => .ok (some (retmasvp, msadnr))

/-! ### Writing the descriptors -/

/-- `write_one_msadsc`, with `msadsc_t_init`. -/
def writeOneMsadsc (phyadr : Nat) : Msadsc where
  mfOlkty := .init
  mfMocty := .free
  mfMarty := 0
  mfUindx := 0
  pafAlloc := false
  pafPadrs := phyadr / 0x1000 % 2 ^ 52
  mdOdlink := .null

/-- The inner loop of `init_msadsc_core` for at most `c` turns: whether it ended, and the addresses it wrote descriptors
for. -/
def msadscLoop (pmrEnd : Nat) : Nat → Nat → Bool × List Nat
  | 0, _ => (false, [])
  | c + 1, start =>
    if start < pmrEnd then
      let r := msadscLoop pmrEnd c (u64 (start + 0x1000))
      if u64 (start + 0xfff) ≤ pmrEnd then (r.1, start :: r.2) else r
    else (true, [])

def msadscsLoop (c : Nat) : List Phymmarge → Bool × List Nat
  | [] => (true, [])
  | p :: ps =>
    if p.pmrType = pmrTOsapuserram then
      let r := msadscLoop p.pmrEnd c p.pmrSaddr
      if r.1 then
        let rs := msadscsLoop c ps
        (rs.1, r.2 ++ rs.2)
      else r
    else msadscsLoop c ps

/-- `init_msadsc_core`, in at most `c` turns for each entry: the descriptors in the order of the array. -/
def initMsadscCore (c : Nat) (mb : Machranges) (pmagep : Nat → Phymmarge) : Bool × List Msadsc :=
  let r := msadscsLoop c (mb.pmages pmagep)
  (r.1, r.2.map writeOneMsadsc)

/-! ### One entry -/

namespace Phymmarge

/-- An entry that `init_one_pmrge` has made, of any two words. -/
def Converted (p : Phymmarge) : Prop :=
  ∃ e8p : E820map, e8p.saddr < 2 ^ 64 ∧ e8p.lsize < 2 ^ 64 ∧ initOnePmrge e8p = some p

def Usable (p : Phymmarge) : Prop := p.pmrType = pmrTOsapuserram

instance (p : Phymmarge) : Decidable p.Usable := inferInstanceAs (Decidable (_ = _))

def Wraps (p : Phymmarge) : Prop := 2 ^ 64 < p.pmrSaddr + p.pmrLsize

instance (p : Phymmarge) : Decidable p.Wraps := inferInstanceAs (Decidable (_ < _))

/-- The walk comes to an address that is not below the last one of the entry. -/
def Ends (p : Phymmarge) : Prop :=
  p.pmrEnd ≤ p.pmrSaddr ∨ p.pmrEnd ≤ 2 ^ 64 - 0x1000 + p.pmrSaddr % 0x1000

instance (p : Phymmarge) : Decidable p.Ends := inferInstanceAs (Decidable (_ ∨ _))

def starts (p : Phymmarge) : List Nat := List.range' p.pmrSaddr ((p.pmrEnd + 1 - p.pmrSaddr) / 0x1000) 0x1000

end Phymmarge

namespace Phymmarge.Converted

variable {p : Phymmarge}

theorem fields (h : p.Converted) : p.pmrSaddr < 2 ^ 64 ∧ p.pmrLsize < 2 ^ 64 ∧
    p.pmrEnd = u64Sub (u64 (p.pmrSaddr + p.pmrLsize)) 1 := by
  obtain ⟨e8p, hs, hl, heq⟩ := h
  unfold initOnePmrge at heq
  split_ifs at heq
  obtain rfl := Option.some.inj heq
  exact ⟨hs, hl, rfl⟩

theorem saddr (h : p.Converted) : p.pmrSaddr < 2 ^ 64 := h.fields.1

theorem lsize (h : p.Converted) : p.pmrLsize < 2 ^ 64 := h.fields.2.1

theorem end_eq (h : p.Converted) : p.pmrEnd = u64Sub (u64 (p.pmrSaddr + p.pmrLsize)) 1 := h.fields.2.2

theorem end_lt (h : p.Converted) : p.pmrEnd < 2 ^ 64 := by
  rw [h.end_eq]
  exact Nat.mod_lt _ (by norm_num)

end Phymmarge.Converted

section Loop

variable {pmrEnd start c : Nat}

theorem msadscLoop_ends (hend : pmrEnd < 2 ^ 64) (c : Nat) : ∀ start,
    pmrEnd ≤ start ∨ pmrEnd ≤ 2 ^ 64 - 0x1000 + start % 0x1000 → pmrEnd ≤ start + 0x1000 * c →
    msadscLoop pmrEnd (c + 1) start = (true, List.range' start ((pmrEnd + 1 - start) / 0x1000) 0x1000) := by
  induction c with
  | zero =>
    intro start _ hc
    have hnone : (pmrEnd + 1 - start) / 0x1000 = 0 := by omega
    rw [msadscLoop, if_neg (by omega), hnone, List.range'_zero]
  | succ c ih =>
    intro start hends hc
    by_cases hlt : start < pmrEnd
    · -- the next address has the same offset in its page, so it does not wrap
      have hnext : start + 0x1000 < 2 ^ 64 := by omega
      have hrec := ih (start + 0x1000) (.inr (by omega)) (by omega)
      rw [msadscLoop, if_pos hlt, u64_of_lt hnext, u64_of_lt (by omega), hrec]
      by_cases hpage : start + 0xfff ≤ pmrEnd
      · have hmore : (pmrEnd + 1 - start) / 0x1000 = (pmrEnd + 1 - (start + 0x1000)) / 0x1000 + 1 := by omega
        rw [if_pos hpage, hmore, List.range'_succ]
      · have hnone : (pmrEnd + 1 - start) / 0x1000 = 0 := by omega
        have hnone' : (pmrEnd + 1 - (start + 0x1000)) / 0x1000 = 0 := by omega
        rw [if_neg hpage, hnone, hnone', List.range'_zero, List.range'_zero]
    · have hnone : (pmrEnd + 1 - start) / 0x1000 = 0 := by omega
      rw [msadscLoop, if_neg hlt, hnone, List.range'_zero]

theorem msadscLoop_mono {d : Nat} (c : Nat) : ∀ start, (msadscLoop pmrEnd c start).1 = true →
    msadscLoop pmrEnd (c + d) start = msadscLoop pmrEnd c start := by
  induction c with
  | zero => exact fun _ h => absurd h (by simp [msadscLoop])
  | succ c ih =>
    intro start h
    rw [show c + 1 + d = c + d + 1 by omega, msadscLoop, msadscLoop]
    by_cases hlt : start < pmrEnd
    · simp only [msadscLoop, if_pos hlt] at h
      rw [if_pos hlt, if_pos hlt, ih]
      split_ifs at h <;> exact h
    · rw [if_neg hlt, if_neg hlt]

theorem msadscLoop_goes_on (hends : 2 ^ 64 - 0x1000 + start % 0x1000 < pmrEnd) {d : Nat} (c : Nat) : ∀ x < 2 ^ 64,
    x % 0x1000 = start % 0x1000 → msadscLoop pmrEnd (c + d) x =
      ((msadscLoop pmrEnd d (u64 (x + 0x1000 * c))).1,
        (msadscLoop pmrEnd c x).2 ++ (msadscLoop pmrEnd d (u64 (x + 0x1000 * c))).2) := by
  induction c with
  | zero =>
    intro x hx _
    rw [Nat.zero_add, Nat.mul_zero, Nat.add_zero, u64_of_lt hx]
    rfl
  | succ c ih =>
    intro x hx hmod
    have hmod' : u64 (x + 0x1000) % 0x1000 = start % 0x1000 := by
      unfold u64
      omega
    have hjump : u64 (u64 (x + 0x1000) + 0x1000 * c) = u64 (x + 0x1000 * (c + 1)) := by
      unfold u64
      omega
    have hlt : x < pmrEnd := by omega
    rw [show c + 1 + d = c + d + 1 by omega, msadscLoop, msadscLoop, if_pos hlt, if_pos hlt, ih _ (u64_lt _) hmod',
      hjump]
    split_ifs <;> rfl

theorem msadscLoop_never_ends (hends : 2 ^ 64 - 0x1000 + start % 0x1000 < pmrEnd) (hstart : start < 2 ^ 64) (c : Nat) :
    (msadscLoop pmrEnd c start).1 = false := by
  have hsplit := msadscLoop_goes_on hends (d := 0) c start hstart rfl
  rw [Nat.add_zero] at hsplit
  rw [hsplit]
  rfl

theorem exists_mem_msadscLoop (hends : 2 ^ 64 - 0x1000 + start % 0x1000 < pmrEnd) {x : Nat} (hx : x < 2 ^ 64)
    (hmod : x % 0x1000 = start % 0x1000) : ∃ c, start % 0x1000 ∈ (msadscLoop pmrEnd c x).2 := by
  have hjump : u64 (x + 0x1000 * ((2 ^ 64 + start % 0x1000 - x) / 0x1000)) = start % 0x1000 := by
    unfold u64
    omega
  refine ⟨(2 ^ 64 + start % 0x1000 - x) / 0x1000 + 1, ?_⟩
  rw [msadscLoop_goes_on hends _ x hx hmod, hjump]
  have hpage : u64 (start % 0x1000 + 0xfff) ≤ pmrEnd := by
    rw [u64_of_lt (by omega)]
    omega
  simp only [msadscLoop, if_pos (show start % 0x1000 < pmrEnd by omega), if_pos hpage]
  exact List.mem_append_right _ List.mem_cons_self

theorem exists_not_nodup_msadscLoop (hends : 2 ^ 64 - 0x1000 + start % 0x1000 < pmrEnd) (hstart : start < 2 ^ 64) :
    ∃ c₀, ∀ c, c₀ ≤ c → ∃ l₁ l₂, (msadscLoop pmrEnd c start).2 = l₁ ++ l₂ ∧ ∃ x ∈ l₁, x ∈ l₂ := by
  obtain ⟨c₁, h₁⟩ := exists_mem_msadscLoop hends hstart rfl
  have hmod : u64 (start + 0x1000 * c₁) % 0x1000 = start % 0x1000 := by
    unfold u64
    omega
  obtain ⟨c₂, h₂⟩ := exists_mem_msadscLoop hends (u64_lt (start + 0x1000 * c₁)) hmod
  refine ⟨c₁ + c₂, fun c hc => ?_⟩
  obtain ⟨d, rfl⟩ := Nat.exists_eq_add_of_le hc
  refine ⟨_, _, congrArg Prod.snd ((congrArg (msadscLoop pmrEnd · start) (Nat.add_assoc c₁ c₂ d)).trans
    (msadscLoop_goes_on hends c₁ start hstart rfl)), start % 0x1000, h₁, ?_⟩
  rw [msadscLoop_goes_on hends c₂ _ (u64_lt _) hmod]
  exact List.mem_append_left _ h₂

end Loop

/-! ### All entries -/

section Entries

variable {p : Phymmarge} {ps : List Phymmarge} {c : Nat}

def walkTurns : Nat := 2 ^ 52 + 1

theorem Phymmarge.Ends.walk (h : p.Ends) (hconv : p.Converted) {d : Nat} :
    msadscLoop p.pmrEnd (walkTurns + d) p.pmrSaddr = (true, p.starts) := by
  have hlt := hconv.end_lt
  rw [show walkTurns + d = 2 ^ 52 + d + 1 by unfold walkTurns; omega]
  exact msadscLoop_ends hlt _ _ h (by omega)

def usable (ps : List Phymmarge) : List Phymmarge := ps.filter fun p => decide p.Usable

theorem mem_usable : p ∈ usable ps ↔ p ∈ ps ∧ p.Usable := by
  unfold usable
  rw [List.mem_filter, decide_eq_true_iff]

theorem usable_cons (p : Phymmarge) (ps : List Phymmarge) :
    usable (p :: ps) = if p.Usable then p :: usable ps else usable ps := by
  unfold usable
  rw [List.filter_cons]
  simp only [decide_eq_true_eq]

theorem msadscsLoop_cons (c : Nat) (p : Phymmarge) (ps : List Phymmarge) : msadscsLoop c (p :: ps) =
    if p.Usable then
      if (msadscLoop p.pmrEnd c p.pmrSaddr).1 then
        ((msadscsLoop c ps).1, (msadscLoop p.pmrEnd c p.pmrSaddr).2 ++ (msadscsLoop c ps).2)
      else msadscLoop p.pmrEnd c p.pmrSaddr
    else msadscsLoop c ps := rfl

theorem msadscsLoop_append {d : Nat} (hconv : ∀ p ∈ ps, p.Converted) (hends : ∀ p ∈ usable ps, p.Ends)
    (qs : List Phymmarge) : msadscsLoop (walkTurns + d) (ps ++ qs) =
      ((msadscsLoop (walkTurns + d) qs).1,
        (usable ps).flatMap Phymmarge.starts ++ (msadscsLoop (walkTurns + d) qs).2) := by
  induction ps with
  | nil => rfl
  | cons p ps ih =>
    have hrest := ih (fun q hq => hconv q (by simp [hq])) fun q hq => hends q (by
      rw [mem_usable] at hq ⊢
      exact ⟨by simp [hq.1], hq.2⟩)
    rw [List.cons_append, msadscsLoop_cons, usable_cons, hrest]
    by_cases hp : p.Usable
    · have hwalk := (hends p (mem_usable.mpr ⟨by simp, hp⟩)).walk (hconv p (by simp)) (d := d)
      rw [if_pos hp, if_pos hp, hwalk, if_pos rfl, List.flatMap_cons, List.append_assoc]
    · rw [if_neg hp, if_neg hp]

theorem msadscsLoop_ends {d : Nat} (hconv : ∀ p ∈ ps, p.Converted) (hends : ∀ p ∈ usable ps, p.Ends) :
    msadscsLoop (walkTurns + d) ps = (true, (usable ps).flatMap Phymmarge.starts) := by
  have happend := msadscsLoop_append (d := d) hconv hends []
  rw [List.append_nil] at happend
  rw [happend, msadscsLoop, List.append_nil]

theorem Phymmarge.lt_of_not_ends (h : ¬p.Ends) : 2 ^ 64 - 0x1000 + p.pmrSaddr % 0x1000 < p.pmrEnd := by
  unfold Phymmarge.Ends at h
  omega

theorem ends_of_msadscsLoop (hconv : ∀ p ∈ ps, p.Converted) (h : (msadscsLoop c ps).1 = true) :
    ∀ p ∈ usable ps, p.Ends := by
  induction ps with
  | nil => simp [usable]
  | cons p ps ih =>
    rw [msadscsLoop_cons] at h
    rw [usable_cons]
    have hrest := ih fun q hq => hconv q (by simp [hq])
    by_cases hp : p.Usable
    · rw [if_pos hp] at h ⊢
      have hends : p.Ends := by
        by_contra hnot
        have hfalse := msadscLoop_never_ends (p.lt_of_not_ends hnot) (hconv p (by simp)).saddr c
        rw [hfalse, if_neg Bool.false_ne_true, hfalse] at h
        exact Bool.false_ne_true h
      intro q hq
      rcases List.mem_cons.mp hq with rfl | hq
      · exact hends
      · split_ifs at h with hdone
        · exact hrest h q hq
        · exact absurd h hdone
    · rw [if_neg hp] at h ⊢
      exact hrest h

theorem eq_starts_of_msadscsLoop (hconv : ∀ p ∈ ps, p.Converted) (h : (msadscsLoop c ps).1 = true) :
    (msadscsLoop c ps).2 = (usable ps).flatMap Phymmarge.starts := by
  have hmono : msadscsLoop (c + walkTurns) ps = msadscsLoop c ps := by
    induction ps with
    | nil => rfl
    | cons p ps ih =>
      rw [msadscsLoop_cons] at h
      rw [msadscsLoop_cons, msadscsLoop_cons]
      have hrest := ih fun q hq => hconv q (by simp [hq])
      by_cases hp : p.Usable
      · rw [if_pos hp] at h
        split_ifs at h with hdone
        · rw [if_pos hp, if_pos hp, msadscLoop_mono c _ hdone, if_pos hdone, if_pos hdone, hrest h]
        · exact absurd h hdone
      · rw [if_neg hp] at h
        rw [if_neg hp, if_neg hp, hrest h]
  rw [← hmono, Nat.add_comm, msadscsLoop_ends hconv (ends_of_msadscsLoop hconv h)]

end Entries

/-! ### As many descriptors as were counted -/

section Count

variable {mb : Machranges} {pmagep : Nat → Phymmarge} {ps : List Phymmarge} {p : Phymmarge} {retmasvp n : Nat}

theorem converted_pmages (hconv : ∀ i < mb.mbE820exnr, (pmagep i).Converted) :
    ∀ p ∈ mb.pmages pmagep, p.Converted := by
  intro p hp
  obtain ⟨i, hi, rfl⟩ := List.mem_map.mp hp
  exact hconv i (List.mem_range.mp hi)

def pagesIn (ps : List Phymmarge) : Nat := (ps.map fun p => p.pmrLsize / 0x1000).sum

@[simp] theorem pagesIn_cons (p : Phymmarge) (ps : List Phymmarge) :
    pagesIn (p :: ps) = p.pmrLsize / 0x1000 + pagesIn ps := rfl

theorem usrmemLoop_msadnr (ps : List Phymmarge) : ∀ usrmemsz msadnr, msadnr < 2 ^ 64 →
    (usrmemLoop ps usrmemsz msadnr).2 = u64 (msadnr + pagesIn (usable ps)) := by
  induction ps with
  | nil => exact fun _ _ h => (u64_of_lt h).symm
  | cons p ps ih =>
    intro usrmemsz msadnr h
    rw [usable_cons]
    by_cases hp : p.Usable
    · have hloop : usrmemLoop (p :: ps) usrmemsz msadnr =
          usrmemLoop ps (u64 (usrmemsz + p.pmrLsize)) (u64 (msadnr + p.pmrLsize / 0x1000)) := if_pos hp
      rw [if_pos hp, hloop, ih _ _ (u64_lt _), pagesIn_cons]
      unfold u64
      omega
    · have hloop : usrmemLoop (p :: ps) usrmemsz msadnr = usrmemLoop ps usrmemsz msadnr := if_neg hp
      rw [if_neg hp, hloop, ih _ _ h]

theorem pagesIn_split (ps : List Phymmarge) : pagesIn ps =
    pagesIn (ps.filter fun p => decide p.Wraps) + pagesIn (ps.filter fun p => decide ¬p.Wraps) := by
  induction ps with
  | nil => rfl
  | cons p ps ih =>
    rw [List.filter_cons, List.filter_cons, pagesIn_cons, ih]
    by_cases hp : p.Wraps <;> simp [hp] <;> omega

theorem Phymmarge.Ends.length_starts (h : p.Ends) (hconv : p.Converted) :
    p.starts.length = if p.Wraps then 0 else p.pmrLsize / 0x1000 := by
  have hs := hconv.saddr
  have hl := hconv.lsize
  have hend := hconv.end_eq
  unfold Phymmarge.Ends at h
  rw [Phymmarge.starts, List.length_range']
  unfold u64 u64Sub at hend
  by_cases hw : p.Wraps
  · rw [if_pos hw]
    unfold Phymmarge.Wraps at hw
    omega
  · rw [if_neg hw]
    unfold Phymmarge.Wraps at hw
    congr 1
    omega

theorem length_flatMap_starts (hconv : ∀ p ∈ ps, p.Converted) (hends : ∀ p ∈ ps, p.Ends) :
    (ps.flatMap Phymmarge.starts).length = pagesIn (ps.filter fun p => decide ¬p.Wraps) := by
  induction ps with
  | nil => rfl
  | cons p ps ih =>
    rw [List.flatMap_cons, List.length_append,
      ih (fun q hq => hconv q (by simp [hq])) fun q hq => hends q (by simp [hq]),
      (hends p (by simp)).length_starts (hconv p (by simp)), List.filter_cons]
    by_cases hp : p.Wraps <;> simp [hp]

/-- Every descriptor that was counted is written, and none behind the memory that was checked for them. -/
def WrittenAsCounted (mb : Machranges) (pmagep : Nat → Phymmarge) (n : Nat) : Prop :=
  ∃ c ds, initMsadscCore c mb pmagep = (true, ds) ∧ ds.length = n ∧
    ds.length * sizeofMsadsc ≤ u64 (n * sizeofMsadsc)

theorem msadnr_eq (hret : retMsadscVadrandsz mb pmagep = .ok (some (retmasvp, n))) :
    n = u64 (pagesIn (usable (mb.pmages pmagep))) := by
  unfold retMsadscVadrandsz at hret
  split_ifs at hret
  · cases hret
  obtain ⟨_, -, hret⟩ := Halt.bind_eq_ok hret
  simp only at hret
  split_ifs at hret
  · cases hret
  obtain ⟨_, -, hret⟩ := Halt.bind_eq_ok hret
  simp only [Except.ok.injEq, Option.some.injEq, Prod.mk.injEq] at hret
  rw [← hret.2, usrmemLoop_msadnr _ _ _ (by norm_num), Nat.zero_add]

/-- **The descriptors written are those counted** exactly when every walk ends, the usable entries that reach past the
end of the address space have no page in all (or a multiple of `2 ^ 64`), and the descriptors of the others fit. -/
theorem written_as_counted_iff (hconv : ∀ i < mb.mbE820exnr, (pmagep i).Converted)
    (hret : retMsadscVadrandsz mb pmagep = .ok (some (retmasvp, n))) : WrittenAsCounted mb pmagep n ↔
      (∀ p ∈ usable (mb.pmages pmagep), p.Ends) ∧
        pagesIn ((usable (mb.pmages pmagep)).filter fun p => decide p.Wraps) % 2 ^ 64 = 0 ∧
        pagesIn ((usable (mb.pmages pmagep)).filter fun p => decide ¬p.Wraps) * sizeofMsadsc < 2 ^ 64 := by
  have hn := msadnr_eq hret
  have hall := converted_pmages hconv
  have husable : ∀ p ∈ usable (mb.pmages pmagep), p.Converted := fun p hp => hall p (mem_usable.mp hp).1
  have hsplit := pagesIn_split (usable (mb.pmages pmagep))
  unfold WrittenAsCounted initMsadscCore
  generalize mb.pmages pmagep = ps at *
  constructor
  · rintro ⟨c, ds, hrun, hlen, hfit⟩
    obtain ⟨hdone, rfl⟩ := Prod.mk.inj hrun
    have hends := ends_of_msadscsLoop hall hdone
    rw [List.length_map, eq_starts_of_msadscsLoop hall hdone, length_flatMap_starts husable hends] at hlen hfit
    -- what was checked is no less than what is written, so neither of the two products wraps
    have hfits : n * sizeofMsadsc < 2 ^ 64 := by
      rw [hlen] at hfit
      exact lt_of_le_of_lt hfit (u64_lt _)
    rw [hlen]
    refine ⟨hends, ?_, hfits⟩
    unfold sizeofMsadsc at hfits
    unfold u64 at hn
    omega
  · rintro ⟨hends, hlost, hfits⟩
    have hlen := length_flatMap_starts husable hends
    have hn' : n = pagesIn ((usable ps).filter fun p => decide ¬p.Wraps) := by
      unfold sizeofMsadsc at hfits
      unfold u64 at hn
      omega
    refine ⟨walkTurns + 0, ((usable ps).flatMap Phymmarge.starts).map writeOneMsadsc, ?_, ?_, ?_⟩
    · simp only [msadscsLoop_ends hall hends]
    · rw [List.length_map, hlen, hn']
    · rw [List.length_map, hlen, ← hn', u64_of_lt (hn' ▸ hfits)]

def usableEntry (saddr lsize : Nat) : Phymmarge :=
  ⟨pmrTOsapuserram, 1, pmrFX8664, saddr, lsize, u64Sub (u64 (saddr + lsize)) 1⟩

def mapTo (saddr lsize : Nat) : Nat → Phymmarge
  | 0 => usableEntry 0 0x200000
  | _ => usableEntry saddr lsize

def twoRanges : Machranges := { bootRanges with mbE820exnr := 2, mbE820exsz := 160 }

theorem mapTo_converted (saddr lsize : Nat) (hs : saddr < 2 ^ 64) (hl : lsize < 2 ^ 64) (i : Nat) :
    (mapTo saddr lsize i).Converted := by
  have hentry : ∀ x n, x < 2 ^ 64 → n < 2 ^ 64 → (usableEntry x n).Converted :=
    fun x n hx hn => ⟨⟨x, n, 1⟩, hx, hn, rfl⟩
  cases i with
  | zero => exact hentry _ _ (by decide) (by decide)
  | succ i => exact hentry _ _ hs hl

/-- Two entries of 2 MiB have 1024 descriptors. -/
theorem written_as_counted_of_two : retMsadscVadrandsz twoRanges (mapTo 0x400000 0x200000) =
      .ok (some (0xffff800002800000, 1024)) ∧ WrittenAsCounted twoRanges (mapTo 0x400000 0x200000) 1024 := by
  have hret : retMsadscVadrandsz twoRanges (mapTo 0x400000 0x200000) = .ok (some (0xffff800002800000, 1024)) := by
    decide
  have hconv := mapTo_converted 0x400000 0x200000 (by decide) (by decide)
  refine ⟨hret, (written_as_counted_iff (fun i _ => hconv i) hret).mpr ⟨by decide, by decide, by decide⟩⟩

/-- The walk of the last page of the address space does not end. -/
theorem last_page_never_written : retMsadscVadrandsz twoRanges (mapTo 0xfffffffffffff000 0x1000) =
      .ok (some (0xffff800002800000, 513)) ∧ (∀ i, (mapTo 0xfffffffffffff000 0x1000 i).Converted) ∧
    (∀ c, (initMsadscCore c twoRanges (mapTo 0xfffffffffffff000 0x1000)).1 = false) ∧
    ¬WrittenAsCounted twoRanges (mapTo 0xfffffffffffff000 0x1000) 513 := by
  have hconv := mapTo_converted 0xfffffffffffff000 0x1000 (by decide) (by decide)
  have hnever : ∀ c, (initMsadscCore c twoRanges (mapTo 0xfffffffffffff000 0x1000)).1 = false := by
    intro c
    by_contra hdone
    have hends := ends_of_msadscsLoop (c := c) (converted_pmages fun i (_ : i < twoRanges.mbE820exnr) => hconv i)
      (by simpa [initMsadscCore] using hdone)
    exact absurd hends (by decide)
  refine ⟨by decide, hconv, hnever, ?_⟩
  rintro ⟨c, ds, hrun, -⟩
  have hdone := hnever c
  rw [hrun] at hdone
  cases hdone

end Count

/-! ### The frames of the descriptors -/

section Frames

variable {mb : Machranges} {pmagep : Nat → Phymmarge} {ps : List Phymmarge} {p : Phymmarge} {c : Nat}

def Phymmarge.bytes (p : Phymmarge) : Set Nat := Set.Ico p.pmrSaddr (p.pmrSaddr + p.pmrLsize)

def Msadsc.frame (d : Msadsc) : Set Nat := Set.Ico (d.pafPadrs * 0x1000) (d.pafPadrs * 0x1000 + 0x1000)

/-- Every page that is recorded is usable memory, and none is recorded twice, however far the walk gets. -/
structure FramesUsable (mb : Machranges) (pmagep : Nat → Phymmarge) : Prop where
  inside : ∀ c, ∀ d ∈ (initMsadscCore c mb pmagep).2, ∃ p ∈ usable (mb.pmages pmagep), d.frame ⊆ p.bytes
  once : ∀ c, ((initMsadscCore c mb pmagep).2.map Msadsc.pafPadrs).Nodup

theorem prefix_msadscLoop {pmrEnd d : Nat} (c : Nat) : ∀ start,
    (msadscLoop pmrEnd c start).2 <+: (msadscLoop pmrEnd (c + d) start).2 := by
  induction c with
  | zero => exact fun _ => List.nil_prefix
  | succ c ih =>
    intro start
    rw [show c + 1 + d = c + d + 1 by omega, msadscLoop, msadscLoop]
    by_cases hlt : start < pmrEnd
    · rw [if_pos hlt, if_pos hlt]
      split_ifs
      · exact List.cons_prefix_cons.mpr ⟨rfl, ih _⟩
      · exact ih _
    · rw [if_neg hlt, if_neg hlt]

theorem prefix_msadscsLoop (ps : List Phymmarge) {d : Nat} :
    (msadscsLoop c ps).2 <+: (msadscsLoop (c + d) ps).2 := by
  induction ps with
  | nil => exact List.nil_prefix
  | cons p ps ih =>
    rw [msadscsLoop_cons, msadscsLoop_cons]
    by_cases hp : p.Usable
    · rw [if_pos hp, if_pos hp]
      by_cases hdone : (msadscLoop p.pmrEnd c p.pmrSaddr).1 = true
      · rw [if_pos hdone, msadscLoop_mono c _ hdone, if_pos hdone]
        exact (List.prefix_append_right_inj _).mpr ih
      · rw [if_neg hdone]
        have hpre : (msadscLoop p.pmrEnd c p.pmrSaddr).2 <+: (msadscLoop p.pmrEnd (c + d) p.pmrSaddr).2 :=
          prefix_msadscLoop c _
        split_ifs
        · exact hpre.trans (List.prefix_append _ _)
        · exact hpre
    · rw [if_neg hp, if_neg hp]
      exact ih

theorem mem_starts {x : Nat} (hconv : p.Converted) (hlow : p.pmrSaddr + p.pmrLsize < 2 ^ 64) (hends : p.Ends) :
    x ∈ p.starts ↔ ∃ i < p.pmrLsize / 0x1000, x = p.pmrSaddr + 0x1000 * i := by
  have hlen := hends.length_starts hconv
  rw [Phymmarge.starts, List.length_range', if_neg (by unfold Phymmarge.Wraps; omega)] at hlen
  rw [Phymmarge.starts, List.mem_range', hlen]

theorem frame_writeOneMsadsc {x : Nat} (hx : x < 2 ^ 64) :
    (writeOneMsadsc x).frame = Set.Ico (x / 0x1000 * 0x1000) (x / 0x1000 * 0x1000 + 0x1000) := by
  have hpadrs : (writeOneMsadsc x).pafPadrs = x / 0x1000 := Nat.mod_eq_of_lt (by omega)
  rw [Msadsc.frame, hpadrs]

theorem nodup_starts (hconv : ∀ p ∈ ps, p.Converted) (hlow : ∀ p ∈ ps, p.pmrSaddr + p.pmrLsize < 2 ^ 64)
    (hends : ∀ p ∈ ps, p.Ends) (hdisj : ps.Pairwise fun p q => Disjoint p.bytes q.bytes) :
    (ps.flatMap Phymmarge.starts).Nodup := by
  rw [List.nodup_flatMap]
  refine ⟨fun p _ => List.nodup_range' _ (by decide), hdisj.imp_of_mem fun {p q} hp hq hpq x hxp hxq => ?_⟩
  obtain ⟨i, hi, hx⟩ := (mem_starts (hconv p hp) (hlow p hp) (hends p hp)).mp hxp
  obtain ⟨j, hj, hx'⟩ := (mem_starts (hconv q hq) (hlow q hq) (hends q hq)).mp hxq
  have hin : x ∈ p.bytes := ⟨by omega, by omega⟩
  have hin' : x ∈ q.bytes := ⟨by omega, by omega⟩
  exact Set.disjoint_left.mp hpq hin hin'

theorem exists_dup_of_not_ends (hconv : ∀ p ∈ ps, p.Converted) (hbad : ∃ p ∈ usable ps, ¬p.Ends) :
    ∃ c, ¬(msadscsLoop c ps).2.Nodup := by
  obtain ⟨p, hp, hnot⟩ := hbad
  obtain ⟨hmem, husable⟩ := mem_usable.mp hp
  -- the first such walk: the ones before it end
  cases hfind : ps.find? fun p => decide (p.Usable ∧ ¬p.Ends) with
  | none => exact absurd (List.find?_eq_none.mp hfind p hmem) (by simp [husable, hnot])
  | some q =>
    obtain ⟨hq, pre, post, rfl, hpre⟩ := List.find?_eq_some_iff_append.mp hfind
    rw [decide_eq_true_iff] at hq
    have hends : ∀ r ∈ usable pre, r.Ends := by
      intro r hr
      obtain ⟨hr, hru⟩ := mem_usable.mp hr
      have hgood := hpre r hr
      simp only [hru, true_and, Bool.not_eq_eq_eq_not, Bool.not_true, decide_eq_false_iff_not, not_not] at hgood
      exact hgood
    have hstart := (hconv q (by simp)).saddr
    have hlt := q.lt_of_not_ends hq.2
    obtain ⟨c₀, hdup⟩ := exists_not_nodup_msadscLoop hlt hstart
    obtain ⟨l₁, l₂, heq, x, h₁, h₂⟩ := hdup (walkTurns + c₀) (Nat.le_add_left _ _)
    refine ⟨walkTurns + c₀, fun hnodup => ?_⟩
    have hfalse := msadscLoop_never_ends hlt hstart (walkTurns + c₀)
    rw [msadscsLoop_append (fun r hr => hconv r (by simp [hr])) hends, msadscsLoop_cons, if_pos hq.1, hfalse,
      if_neg Bool.false_ne_true, heq] at hnodup
    exact (List.nodup_append.mp (List.nodup_append.mp hnodup).2.1).2.2 x h₁ x h₂ rfl

/-- **Every descriptor names usable memory** exactly when every walk ends and every usable entry with a whole page
starts at a page boundary. -/
theorem frames_usable_iff (hconv : ∀ i < mb.mbE820exnr, (pmagep i).Converted)
    (hdisj : (usable (mb.pmages pmagep)).Pairwise fun p q => Disjoint p.bytes q.bytes)
    (hlow : ∀ p ∈ usable (mb.pmages pmagep), p.pmrSaddr + p.pmrLsize < 2 ^ 64) : FramesUsable mb pmagep ↔
      ∀ p ∈ usable (mb.pmages pmagep), p.Ends ∧ (0x1000 ≤ p.pmrLsize → 0x1000 ∣ p.pmrSaddr) := by
  have hall := converted_pmages hconv
  have husable : ∀ p ∈ usable (mb.pmages pmagep), p.Converted := fun p hp => hall p (mem_usable.mp hp).1
  constructor
  · intro h
    have hends : ∀ p ∈ usable (mb.pmages pmagep), p.Ends := by
      by_contra hbad
      push Not at hbad
      obtain ⟨c, hdup⟩ := exists_dup_of_not_ends hall hbad
      exact hdup (((h.once c).of_map _).of_map _)
    refine fun p hp => ⟨hends p hp, fun hpage => ?_⟩
    by_contra hnot
    have hlt := hlow p hp
    -- the page of the first address starts below the entry, and no other entry has that address
    have hmem : writeOneMsadsc p.pmrSaddr ∈ (initMsadscCore (walkTurns + 0) mb pmagep).2 := by
      simp only [initMsadscCore, msadscsLoop_ends hall hends]
      refine List.mem_map_of_mem (List.mem_flatMap.mpr ⟨p, hp, ?_⟩)
      exact (mem_starts (husable p hp) hlt (hends p hp)).mpr ⟨0, by omega, rfl⟩
    obtain ⟨q, hq, hsub⟩ := h.inside _ _ hmem
    rw [frame_writeOneMsadsc (husable p hp).saddr] at hsub
    have hfirst : p.pmrSaddr / 0x1000 * 0x1000 ∈ q.bytes := hsub ⟨le_rfl, by omega⟩
    have hown : p.pmrSaddr ∈ q.bytes := hsub ⟨by omega, by omega⟩
    by_cases hpq : q = p
    · subst hpq
      exact hnot (by have := hfirst.1; omega)
    · have hsymm : Std.Symm fun p q : Phymmarge => Disjoint p.bytes q.bytes := ⟨fun _ _ h => h.symm⟩
      exact Set.disjoint_left.mp (hdisj.forall hq hp hpq) hown ⟨le_rfl, by omega⟩
  · intro h
    have hends : ∀ p ∈ usable (mb.pmages pmagep), p.Ends := fun p hp => (h p hp).1
    -- the addresses that a run of any length has come to, and their pages
    have hrun : ∀ c, (msadscsLoop c (mb.pmages pmagep)).2 <+: (usable (mb.pmages pmagep)).flatMap Phymmarge.starts := by
      intro c
      have hpre := prefix_msadscsLoop (c := c) (d := walkTurns) (mb.pmages pmagep)
      rwa [Nat.add_comm, msadscsLoop_ends hall hends] at hpre
    have hstart : ∀ x ∈ (usable (mb.pmages pmagep)).flatMap Phymmarge.starts, ∃ p ∈ usable (mb.pmages pmagep),
        0x1000 ∣ x ∧ p.pmrSaddr ≤ x ∧ x + 0x1000 ≤ p.pmrSaddr + p.pmrLsize := by
      intro x hx
      obtain ⟨p, hp, hx⟩ := List.mem_flatMap.mp hx
      obtain ⟨i, hi, rfl⟩ := (mem_starts (husable p hp) (hlow p hp) (hends p hp)).mp hx
      have halign := (h p hp).2 (by omega)
      exact ⟨p, hp, by omega, by omega, by omega⟩
    refine ⟨fun c d hd => ?_, fun c => ?_⟩
    · obtain ⟨x, hx, rfl⟩ := List.mem_map.mp hd
      obtain ⟨p, hp, hdvd, hlo, hhi⟩ := hstart x ((hrun c).subset hx)
      have hlt := hlow p hp
      refine ⟨p, hp, ?_⟩
      rw [frame_writeOneMsadsc (by omega)]
      exact Set.Ico_subset_Ico (by omega) (by omega)
    · have hnodup := (nodup_starts husable hlow hends hdisj).sublist (hrun c).sublist
      simp only [initMsadscCore, List.map_map]
      refine hnodup.map_on fun x hx y hy heq => ?_
      obtain ⟨p, hp, hdvd, -, hhi⟩ := hstart x ((hrun c).subset hx)
      obtain ⟨q, hq, hdvd', -, hhi'⟩ := hstart y ((hrun c).subset hy)
      have hlt := hlow p hp
      have hlt' := hlow q hq
      simp only [Function.comp_apply, writeOneMsadsc] at heq
      omega

/-- Two entries of 2 MiB that start at page boundaries. -/
theorem frames_usable_of_two : FramesUsable twoRanges (mapTo 0x400000 0x200000) := by
  have hconv := mapTo_converted 0x400000 0x200000 (by decide) (by decide)
  refine (frames_usable_iff (fun i _ => hconv i) ?_ (by decide)).mpr (by decide)
  refine List.Pairwise.cons (fun q hq => ?_) (List.pairwise_singleton _ _)
  obtain rfl := List.mem_singleton.mp hq
  exact Set.Ico_disjoint_Ico.mpr (by decide)

/-- The second entry starts in the middle of the page where the first one ends; the descriptor of its first page
records that page. -/
theorem frame_below_entry : (∀ i, (mapTo 0x200800 0x200000 i).Converted) ∧
    (usable (twoRanges.pmages (mapTo 0x200800 0x200000))).Pairwise (fun p q => Disjoint p.bytes q.bytes) ∧
    (∀ p ∈ usable (twoRanges.pmages (mapTo 0x200800 0x200000)), p.pmrSaddr + p.pmrLsize < 2 ^ 64) ∧
    writeOneMsadsc 0x200800 ∈ (initMsadscCore (walkTurns + 0) twoRanges (mapTo 0x200800 0x200000)).2 ∧
    (0x200000 ∈ (writeOneMsadsc 0x200800).frame) ∧
    (∀ p ∈ usable (twoRanges.pmages (mapTo 0x200800 0x200000)), 0x200000 ∉ p.bytes) ∧
    ¬FramesUsable twoRanges (mapTo 0x200800 0x200000) := by
  have hconv := mapTo_converted 0x200800 0x200000 (by decide) (by decide)
  have hlist : usable (twoRanges.pmages (mapTo 0x200800 0x200000)) =
      [mapTo 0x200800 0x200000 0, mapTo 0x200800 0x200000 1] := by decide
  have hmem : writeOneMsadsc 0x200800 ∈
      (initMsadscCore (walkTurns + 0) twoRanges (mapTo 0x200800 0x200000)).2 := by
    have hall := converted_pmages fun i (_ : i < twoRanges.mbE820exnr) => hconv i
    simp only [initMsadscCore, msadscsLoop_ends hall (by decide), hlist]
    refine List.mem_map_of_mem (List.mem_flatMap.mpr ⟨mapTo 0x200800 0x200000 1, by simp, ?_⟩)
    exact (mem_starts (hconv 1) (by decide) (by decide)).mpr ⟨0, by decide, rfl⟩
  have hframe : 0x200000 ∈ (writeOneMsadsc 0x200800).frame := by
    rw [frame_writeOneMsadsc (by decide)]
    exact ⟨by decide, by decide⟩
  have hout : ∀ p ∈ usable (twoRanges.pmages (mapTo 0x200800 0x200000)), 0x200000 ∉ p.bytes := by
    rw [hlist]
    intro p hp hin
    rcases List.mem_pair.mp hp with rfl | rfl
    · exact absurd hin.2 (by decide)
    · exact absurd hin.1 (by decide)
  refine ⟨hconv, ?_, by decide, hmem, hframe, hout, fun h => ?_⟩
  · rw [hlist]
    refine List.Pairwise.cons (fun q hq => ?_) (List.pairwise_singleton _ _)
    obtain rfl := List.mem_singleton.mp hq
    exact Set.Ico_disjoint_Ico.mpr (by decide)
  · obtain ⟨p, hp, hsub⟩ := h.inside _ _ hmem
    exact hout p hp (hsub hframe)

end Frames

end Cosmos.Page
