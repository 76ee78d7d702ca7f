import Cosmos.Page.BootSpec

/-!
# Which descriptors the boot scan looks at (`merlove_mem_onmemarea`)

`merlove_scan_continumsadsc` gives `scan_len_msadsc` the number of all descriptors, not of those from the first of the
run on. A run that starts behind the first descriptor and reaches the last one therefore compares the last descriptor
with the memory behind the array. The functions below list the descriptors that each function of the scan reads or
writes, in its order; `onmemarea_inside_iff` says for which arrays they all are in the array.
-/

namespace Cosmos.Page

open Cosmos.Lib

variable {b : Boot} {s s' : Memmgrob} {a k m n : Nat}

/-! ### The descriptors read and written -/

/-- `scan_len_msadsc`; `continumsadsc_is_ok` reads the second descriptor of a pair only if the first is a free page. -/
def scanLenTouches (msa : Nat → Msadsc) (marty : Nat) : Nat → Nat → List Nat
  | 0, _ => []
  | c + 1, i =>
    (if isFreeMsa marty (msa i) then [i, i + 1] else [i]) ++
      if continumsadscIsOk (msa i) (msa (i + 1)) marty = 2 then scanLenTouches msa marty c (i + 1) else []

def scanContinumsadscTouches (s : Memmgrob) (a fntmsanr : Nat) : List Nat :=
  if s.moMsanr = 0 ∨ s.moMsanr ≤ fntmsanr then []
  else
    match martyOf (s.marea a).maType with
    | none => []
    | some marty =>
      match (List.range' fntmsanr (s.moMsanr - fntmsanr)).find? fun tmidx => isFreeMsa marty (s.msa tmidx) with
      | none => List.range' fntmsanr (s.moMsanr - fntmsanr)
      | some tmidx =>
        List.range' fntmsanr (tmidx + 1 - fntmsanr) ++ scanLenTouches s.msa marty (s.moMsanr - 1) tmidx

/-- The loop of `check_continumsadsc`, over `c` pairs from `ms` on. -/
def checkPairsTouches (msa : Nat → Msadsc) (marty : Nat) : Nat → Nat → List Nat
  | 0, _ => []
  | c + 1, ms =>
    (if (msa ms).mfMarty = marty then [ms, ms + 1] else [ms]) ++
      if checkPairs msa marty 1 ms then checkPairsTouches msa marty c (ms + 1) else []

def checkContinumsadscTouches (s : Memmgrob) (a ms me fmnr : Nat) : List Nat :=
  if fmnr = 0 ∨ me < ms then []
  else
    match martyOf (s.marea a).maType with
    | none => []
    | some marty => if ms = me then [ms] else checkPairsTouches s.msa marty (me - ms) ms

/-- `list_add` links the new descriptor and the one that was first on the list. -/
def listAddTouches (s : Memmgrob) (a k fstat : Nat) : List Nat := fstat :: (s.bafh a k).afFrelst.take 1

def addProcTouches (a k fstat : Nat) : Nat → Memmgrob → List Nat
  | 0, _ => []
  | tmpnr + 1, s =>
    addProcTouches a k fstat tmpnr s ++ listAddTouches (addProcLoop a k fstat tmpnr s) a k (fstat + tmpnr)

/-- `continumsadsc_mareabafh_core`; a refused run is not touched. -/
def mareabafhCoreTouches (s : Memmgrob) (a mstat mend retval : Nat) : List Nat :=
  if retval < 1 then []
  else
    match findContinumsaInbafhlst s a retval with
    | none => []
    | some k =>
      let bafhp := s.bafh a k
      if retval < bafhp.afOderpnr then []
      else if (bafhp.afStus = .divp ∨ bafhp.afStus = .divm) ∧ (s.marea a).maType ≠ maTypeProc then
        let fend := mstat + (bafhp.afOderpnr - 1)
        if (continumsadscAddBafhlst s a k mstat fend bafhp.afOderpnr).1 then fend :: listAddTouches s a k mstat else []
      else if bafhp.afStus = .onem ∧ (s.marea a).maType = maTypeProc then
        if (continumsadscAddProcmareabafh s a k mstat mend retval).1 then addProcTouches a k mstat retval s else []
      else []

def mareabafhTouches (a mend : Nat) : Nat → Nat → Nat → Memmgrob → List Nat
  | _, _, 0, _ => []
  | 0, _, _ + 1, _ => []
  | c + 1, mstat, mnr + 1, s =>
    mareabafhCoreTouches s a mstat mend (mnr + 1) ++
      match continumsadscMareabafhCore s a mstat mend (mnr + 1) with
      | none => []
      | some (mstat, mnr, s) => mareabafhTouches a mend c mstat mnr s

/-- The loop of `merlove_mem_onmemarea`, up to its end or to the first halt. -/
def onmemareaTouches (a : Nat) : Nat → Nat → Memmgrob → List Nat
  | 0, _, _ => []
  | c + 1, fntmnr, s =>
    if fntmnr < s.moMsanr then
      scanContinumsadscTouches s a fntmnr ++
        match merloveScanContinumsadsc s a fntmnr with
        | .ok (some (fntmnr, none)) => onmemareaTouches a c fntmnr s
        | .ok (some (fntmnr, some (retstat, retend, retfindmnr))) =>
          checkContinumsadscTouches s a retstat retend retfindmnr ++
            if checkContinumsadsc s a retstat retend retfindmnr = 0 then []
            else
              mareabafhTouches a retend retfindmnr retstat retfindmnr s ++
                match merloveContinumsadscMareabafh s a retstat retend retfindmnr with
                | .ok s => onmemareaTouches a c fntmnr s
                | .error _ => []
        | _ => []
    else []

def merloveMemOnmemareaTouches (s : Memmgrob) (a : Nat) : List Nat :=
  if s.moMsanr = 0 ∨ (s.marea a).maType = maTypeShar ∨ (s.marea a).maType = maTypeInit then []
  else onmemareaTouches a s.moMsanr 0 s

/-- The state in which `merlove_mem_core` calls `merlove_mem_onmemarea` for area `a`. -/
def CalledWith (b : Boot) (a : Nat) (s : Memmgrob) : Prop :=
  onmemareasLoop a 0 (setflgsLoop memareaMax 0 (bootSt b)).2 = .ok (true, s)

/-! ### The scan of a run -/

theorem RunAt.tail {msa : Nat → Msadsc} {marty c i len : Nat} (h : RunAt msa marty (c + 1) i (len + 1)) :
    RunAt msa marty c (i + 1) len := by
  refine ⟨Nat.le_of_succ_le_succ h.le, fun j hlo hhi => h.free j (by omega) (by omega),
    fun j hlo hhi => h.next j (by omega) (by omega), fun hlt => ?_⟩
  have hstop := h.stop (by omega)
  rwa [show i + (len + 1) = i + 1 + len by omega] at hstop

/-- The scan looks at the run and at one descriptor more, unless it has counted to `c` before. -/
theorem RunAt.mem_touches {msa : Nat → Msadsc} {marty j : Nat} (c : Nat) : ∀ i len, RunAt msa marty c i len →
    (j ∈ scanLenTouches msa marty c i ↔ 0 < c ∧ i ≤ j ∧ j ≤ i + min (len + 1) c) := by
  induction c with
  | zero => simp [scanLenTouches]
  | succ c ih =>
    intro i len hrun
    have hfree := hrun.free i le_rfl (by omega)
    have hle := hrun.le
    have hpair : j ∈ [i, i + 1] ↔ i ≤ j ∧ j ≤ i + 1 := by
      rw [List.mem_pair]
      omega
    rw [scanLenTouches, if_pos hfree, List.mem_append, hpair]
    cases len with
    | zero =>
      have hne : continumsadscIsOk (msa i) (msa (i + 1)) marty ≠ 2 := by
        intro heq
        refine hrun.stop (by omega) ?_
        rw [continumsadscIsOk, if_pos hfree] at heq
        split_ifs at heq with h1 h2
        · exact ⟨h1, h2⟩
        · omega
        · omega
      rw [if_neg hne]
      simp only [List.not_mem_nil, or_false]
      omega
    | succ len =>
      have heq : continumsadscIsOk (msa i) (msa (i + 1)) marty = 2 := by
        rw [continumsadscIsOk, if_pos hfree, if_pos (hrun.free (i + 1) (by omega) (by omega)),
          if_pos (hrun.next i le_rfl (by omega))]
      rw [if_pos heq, ih (i + 1) len hrun.tail]
      omega

/-! ### The check and the lists -/

theorem checkPairsTouches_lt {msa : Nat → Msadsc} {marty j : Nat} (c : Nat) : ∀ ms,
    j ∈ checkPairsTouches msa marty c ms → ms ≤ j ∧ j ≤ ms + c := by
  induction c with
  | zero => simp [checkPairsTouches]
  | succ c ih =>
    intro ms hj
    rw [checkPairsTouches, List.mem_append] at hj
    rcases hj with hj | hj
    · split_ifs at hj
      · rw [List.mem_pair] at hj
        omega
      · rw [List.mem_singleton] at hj
        omega
    · split_ifs at hj
      · have := ih (ms + 1) hj
        omega
      · simp at hj

theorem checkContinumsadscTouches_lt {ms len fmnr j : Nat}
    (hj : j ∈ checkContinumsadscTouches s a ms (ms + len) fmnr) : j ≤ ms + len := by
  unfold checkContinumsadscTouches at hj
  cases hmarty : martyOf (s.marea a).maType with
  | none => simp [hmarty] at hj
  | some marty =>
    simp only [hmarty] at hj
    split_ifs at hj
    · simp at hj
    · rw [List.mem_singleton] at hj
      omega
    · have := checkPairsTouches_lt _ ms hj
      omega

/-- What hanging `n` pages from `m` on touches: these pages and those already on a list. -/
def Near (s : Memmgrob) (a m n i : Nat) : Prop := (m ≤ i ∧ i < m + n) ∨ ∃ k, i ∈ (s.bafh a k).afFrelst

theorem listAddTouches_near {fstat i : Nat} (hlo : m ≤ fstat) (hhi : fstat < m + n)
    (hi : i ∈ listAddTouches s a k fstat) : Near s a m n i := by
  rcases List.mem_cons.mp hi with rfl | hi
  · exact .inl ⟨hlo, hhi⟩
  · exact .inr ⟨k, List.mem_of_mem_take hi⟩

theorem near_addFrelst {t : Memmgrob} {fstat i : Nat} (hlo : m ≤ fstat) (hhi : fstat < m + n)
    (hbafh : t.bafh = s.bafh) (hi : ∃ k', i ∈ ((addFrelst t a k fstat).bafh a k').afFrelst) : Near s a m n i := by
  obtain ⟨k', hi⟩ := hi
  by_cases hk : k' = k
  · subst hk
    rw [addFrelst, setBafh_self] at hi
    rcases List.mem_cons.mp hi with rfl | hi
    · exact .inl ⟨hlo, hhi⟩
    · exact .inr ⟨k', by rwa [← hbafh]⟩
  · rw [addFrelst, setBafh_of_ne _ _ fun heq => hk heq.2, hbafh] at hi
    exact .inr ⟨k', hi⟩

theorem near_addProcLoop {i : Nat} (tmpnr : Nat) :
    tmpnr ≤ n → (∃ k', i ∈ ((addProcLoop a k m tmpnr s).bafh a k').afFrelst) →
    Near s a m n i := by
  induction tmpnr with
  | zero => exact fun _ hi => .inr hi
  | succ tmpnr ih =>
    intro hle hi
    rcases near_addFrelst (s := addProcLoop a k m tmpnr s) (m := m) (n := n) (Nat.le_add_right m tmpnr)
      (by omega) rfl hi
      with hin | hold
    · exact .inl hin
    · exact ih (by omega) hold

theorem addProcTouches_near {i : Nat} (tmpnr : Nat) :
    tmpnr ≤ n → i ∈ addProcTouches a k m tmpnr s → Near s a m n i := by
  induction tmpnr with
  | zero => simp [addProcTouches]
  | succ tmpnr ih =>
    intro hle hi
    rw [addProcTouches, List.mem_append] at hi
    rcases hi with hi | hi
    · exact ih (by omega) hi
    · rcases listAddTouches_near (m := m) (n := n) (Nat.le_add_right m tmpnr) (by omega) hi with hin | hold
      · exact .inl hin
      · exact near_addProcLoop tmpnr (by omega) hold

theorem mareabafhCoreTouches_near {mend i : Nat} (hi : i ∈ mareabafhCoreTouches s a m mend n) : Near s a m n i := by
  unfold mareabafhCoreTouches at hi
  split_ifs at hi with hpos
  · simp at hi
  cases hfind : findContinumsaInbafhlst s a n with
  | none => simp [hfind] at hi
  | some k =>
    simp only [hfind] at hi
    split_ifs at hi with hle _ hadd
    · simp at hi
    · -- the block is not empty, or `continumsadsc_add_bafhlst` refuses it
      have hne : (s.bafh a k).afOderpnr ≠ 0 := by
        rintro hzero
        simp [continumsadscAddBafhlst, hzero] at hadd
      rcases List.mem_cons.mp hi with rfl | hi
      · exact .inl ⟨by omega, by omega⟩
      · exact listAddTouches_near le_rfl (by omega) hi
    · simp at hi
    · exact addProcTouches_near n le_rfl hi
    · simp at hi
    · simp at hi

theorem mareabafhCore_near {mend m' n' : Nat} (heq : continumsadscMareabafhCore s a m mend n = some (m', n', s')) :
    m ≤ m' ∧ m' + n' ≤ m + n ∧ ∀ i, (∃ k, i ∈ (s'.bafh a k).afFrelst) → Near s a m n i := by
  unfold continumsadscMareabafhCore at heq
  split_ifs at heq with hpos
  cases hfind : findContinumsaInbafhlst s a n with
  | none => simp [hfind] at heq
  | some k =>
    simp only [hfind] at heq
    split_ifs at heq with hle _ hadd _ hadd
    · simp only [continumsadscAddBafhlst] at hadd heq
      split_ifs at hadd heq
      simp only [Option.some.injEq, Prod.mk.injEq] at heq
      obtain ⟨rfl, rfl, rfl⟩ := heq
      exact ⟨by omega, by omega, fun i hi => near_addFrelst le_rfl (by omega) rfl hi⟩
    · simp only [continumsadscAddProcmareabafh] at hadd heq
      split_ifs at hadd heq
      simp only [Option.some.injEq, Prod.mk.injEq] at heq
      obtain ⟨rfl, rfl, rfl⟩ := heq
      exact ⟨le_rfl, by omega, fun i hi => near_addProcLoop n le_rfl hi⟩

theorem mareabafhTouches_near {mend i : Nat} (c : Nat) : ∀ n m s, i ∈ mareabafhTouches a mend c m n s →
    Near s a m n i := by
  induction c with
  | zero =>
    intro n m s hi
    cases n <;> simp [mareabafhTouches] at hi
  | succ c ih =>
    intro n m s hi
    cases n with
    | zero => simp [mareabafhTouches] at hi
    | succ n =>
      rw [mareabafhTouches, List.mem_append] at hi
      rcases hi with hi | hi
      · exact mareabafhCoreTouches_near hi
      · cases hcore : continumsadscMareabafhCore s a m mend (n + 1) with
        | none => simp [hcore] at hi
        | some r =>
          obtain ⟨m', n', s'⟩ := r
          rw [hcore] at hi
          obtain ⟨hlo, hhi, hlists⟩ := mareabafhCore_near hcore
          rcases ih n' m' s' hi with hin | hold
          · exact .inl ⟨by omega, by omega⟩
          · exact hlists i hold

/-! ### The scan of an area -/

section Area

variable (hb : b.Arr) (ha : a < 3)

include ha

theorem Found.mem_touches {fnt idx len j : Nat} (h : Hung b s a fnt) (hfound : Found b s a fnt idx len) :
    j ∈ scanContinumsadscTouches s a fnt ↔
      (fnt ≤ j ∧ j ≤ idx) ∨ (1 < b.msanr ∧ idx ≤ j ∧ j ≤ idx + min (len + 1) (b.msanr - 1)) := by
  have hle := hfound.le
  have hlt := hfound.lt
  unfold scanContinumsadscTouches
  rw [h.msanr, if_neg (by omega), h.martyOf_eq ha]
  simp only [hfound.find]
  rw [List.mem_append, List.mem_range'_1, hfound.run.mem_touches]
  omega

include hb

theorem Found.turn {fnt idx len c : Nat} (h : Hung b s a fnt) (hedge : ¬Continues b a fnt)
    (hfound : Found b s a fnt idx len) (hin : idx + len < b.msanr) :
    ∃ s₁, Hung b s₁ a (idx + len + 1) ∧ ¬Continues b a (idx + len + 1) ∧
      onmemareaTouches a (c + 1) fnt s = scanContinumsadscTouches s a fnt ++
        (checkContinumsadscTouches s a idx (idx + len) (len + 1) ++
          (mareabafhTouches a (idx + len) (len + 1) idx (len + 1) s ++ onmemareaTouches a c (idx + len + 1) s₁)) := by
  have hle := hfound.le
  obtain ⟨hmax, hcheck, s₁, hhang, hs₁, -⟩ := hfound.hang hb ha h hedge hin
  refine ⟨s₁, hs₁, hmax.last, ?_⟩
  rw [onmemareaTouches, h.msanr, if_pos (by omega), hfound.scan]
  simp only [if_neg hcheck, hhang]

theorem onmemareaTouches_lt (hcond : ¬FreePage b a (b.msanr - 1) ∨ Whole b a) (c : Nat) : ∀ fnt s, fnt ≤ b.msanr →
    Hung b s a fnt → ¬Continues b a fnt → ∀ i ∈ onmemareaTouches a c fnt s, i < b.msanr := by
  have hends : Ends b a := hcond.imp_left fun hlast h => hlast h.1
  induction c with
  | zero => simp [onmemareaTouches]
  | succ c ih =>
    intro fnt s hle h hedge i hi
    by_cases hlt : fnt < b.msanr
    case neg =>
      rw [onmemareaTouches, h.msanr, if_neg hlt] at hi
      simp at hi
    rcases scan_cases hb h.toOfBoot (h.martyOf_eq ha) hlt with ⟨hfind, hscan, hnone⟩ | ⟨idx, len, hfound⟩
    · rw [onmemareaTouches, h.msanr, if_pos hlt, hscan] at hi
      rcases List.mem_append.mp hi with hi | hi
      · unfold scanContinumsadscTouches at hi
        rw [h.msanr, if_neg (by omega), h.martyOf_eq ha] at hi
        simp only [hfind, List.mem_range'_1] at hi
        omega
      · refine ih b.msanr s le_rfl (h.skip hb hle hnone) (fun hcont => ?_) i hi
        exact absurd hcont.2.2.1.1 (lt_irrefl _)
    · have hfnt := hfound.le
      have hidx := hfound.lt
      have hin := hfound.run.lt hb h.toOfBoot hends hidx (hfound.first hedge)
      obtain ⟨s₁, hs₁, hedge₁, heq⟩ := hfound.turn hb ha (c := c) h hedge hin
      rw [heq, List.mem_append, List.mem_append, List.mem_append] at hi
      rcases hi with hi | hi | hi | hi
      · have hnear := (hfound.mem_touches ha h).mp hi
        -- the run ends before the last descriptor, or it is the whole array
        rcases hcond with hlast | hwhole
        · have hne : idx + len ≠ b.msanr - 1 := by
            intro hend
            refine hlast (hend ▸ (h.toOfBoot.isFreeMsa_iff hb hin).mp (hfound.run.free _ (by omega) le_rfl))
          omega
        · have hzero : idx = 0 := by
            by_contra hne
            refine hfound.first hedge ⟨by omega, (hwhole (idx - 1) (by omega)).1, (hwhole idx hidx).1, ?_⟩
            rw [(hwhole (idx - 1) (by omega)).2, (hwhole idx hidx).2]
            omega
          omega
      · have := checkContinumsadscTouches_lt hi
        omega
      · rcases mareabafhTouches_near _ _ _ _ hi with hin | ⟨k, hk⟩
        · omega
        · have hbelow := h.below k i hk
          have hpos := pnr_pos k
          omega
      · exact ih (idx + len + 1) s₁ (by omega) hs₁ hedge₁ i hi

theorem exists_onmemareaTouches (hlast : FreePage b a (b.msanr - 1)) (hnot : ¬Whole b a) (c : Nat) : ∀ fnt s,
    b.msanr ≤ fnt + c → fnt < b.msanr → Hung b s a fnt → ¬Continues b a fnt →
    ∃ i ∈ onmemareaTouches a c fnt s, b.msanr ≤ i := by
  induction c with
  | zero =>
    intro fnt s hc hlt
    omega
  | succ c ih =>
    intro fnt s hc hlt h hedge
    rcases scan_cases hb h.toOfBoot (h.martyOf_eq ha) hlt with ⟨-, -, hnone⟩ | ⟨idx, len, hfound⟩
    · exact absurd hlast (hnone (b.msanr - 1) (by omega) (by omega))
    have hfnt := hfound.le
    have hidx := hfound.lt
    by_cases hreach : idx + len + 1 < b.msanr
    · obtain ⟨s₁, hs₁, hedge₁, heq⟩ := hfound.turn hb ha (c := c) h hedge (by omega)
      obtain ⟨i, hi, hge⟩ := ih (idx + len + 1) s₁ (by omega) hreach hs₁ hedge₁
      refine ⟨i, ?_, hge⟩
      rw [heq]
      exact List.mem_append_right _ (List.mem_append_right _ (List.mem_append_right _ hi))
    · have hpos : 0 < idx := by
        by_contra hzero
        obtain rfl : idx = 0 := by omega
        have hle := hfound.run.le
        have hrun := hfound.run.freeRun hb h.toOfBoot (by omega)
        refine hnot fun i hi => ⟨(h.toOfBoot.isFreeMsa_iff hb hi).mp (hrun.free i (Nat.zero_le i) (by omega)), ?_⟩
        have hpadrs := hrun.padrs i (Nat.zero_le i) (by omega)
        rwa [h.padrs, h.padrs, Nat.sub_zero] at hpadrs
      refine ⟨b.msanr, ?_, le_rfl⟩
      rw [onmemareaTouches, h.msanr, if_pos hlt]
      exact List.mem_append_left _ ((hfound.mem_touches ha h).mpr (.inr (by omega)))

end Area

theorem Hung.merloveMemOnmemareaTouches_eq (hb : b.Arr) (ha : a < 3) (h : Hung b s a 0) :
    merloveMemOnmemareaTouches s a = onmemareaTouches a b.msanr 0 s := by
  have hpos := hb.pos
  have hareas : a < memareaMax := by
    unfold memareaMax
    omega
  have hno : ¬(b.msanr = 0 ∨ a + 1 = maTypeShar ∨ a + 1 = maTypeInit) := by
    unfold maTypeShar maTypeInit
    omega
  unfold merloveMemOnmemareaTouches
  rw [h.msanr, h.inv.type a hareas, if_neg hno]

/-- **The scan stays in the array** for all areas exactly if the last page is the kernel's or the array is one run of
free pages of one area. -/
theorem onmemarea_inside_iff (b : Boot) (hb : b.Sorted) (hpos : 0 < b.msanr) :
    (∀ a < memareaMax, ∀ s, CalledWith b a s → ∀ i ∈ merloveMemOnmemareaTouches s a, i < b.msanr) ↔
      (b.msa (b.msanr - 1)).mfMocty = .krnl ∨ ∃ a, Whole b a := by
  have harr := hb.arr hpos
  have hset : (setflgsLoop memareaMax 0 (bootSt b)).2 = flagged b 3 := by rw [setflgsLoop_eq harr]
  have hcalled : ∀ a ≤ 3, (∀ a' < a, Ends b a') → ∃ s, CalledWith b a s ∧ Hung b s a 0 := by
    intro a ha hends
    obtain ⟨s, heq, h, -⟩ := onmemareasLoop_spec harr a ha hends
    exact ⟨s, by rwa [CalledWith, hset], h⟩
  constructor
  · intro hin
    by_contra hno
    rw [not_or, not_exists] at hno
    obtain ⟨hkrnl, hwhole⟩ := hno
    -- the area of the last page is the one whose scan goes on
    have hfree : (b.msa (b.msanr - 1)).mfMocty = .free :=
      ((hb.marks _ (by omega)).resolve_left fun h => hkrnl h.1).1
    have hends : ∀ a' < areaOf (b.msa (b.msanr - 1)).pafPadrs, Ends b a' := fun a' ha' =>
      .inl fun h => absurd h.1.2.2 (by omega)
    have ha : areaOf (b.msa (b.msanr - 1)).pafPadrs < 3 := by
      unfold areaOf
      split_ifs <;> omega
    obtain ⟨s, hs, h⟩ := hcalled _ ha.le hends
    obtain ⟨i, hi, hge⟩ := exists_onmemareaTouches harr ha ⟨by omega, hfree, rfl⟩ (hwhole _) b.msanr 0 s
        (by omega) hpos h
      (not_continues_zero b _)
    rw [← h.merloveMemOnmemareaTouches_eq harr ha] at hi
    have hlt := hin _ (lt_trans ha (by decide)) s hs i hi
    omega
  · intro hcond
    have hlast : ∀ a, ¬FreePage b a (b.msanr - 1) ∨ Whole b a := by
      intro a
      rcases hcond with hkrnl | ⟨a₀, hwhole⟩
      · refine .inl fun h => ?_
        have hfree := h.2.1
        rw [hkrnl] at hfree
        cases hfree
      · by_cases haa : a = a₀
        · exact .inr (haa ▸ hwhole)
        · refine .inl fun h => haa ?_
          rw [← h.2.2, (hwhole (b.msanr - 1) (by omega)).1.2.2]
    intro a ha s hs i hi
    obtain ⟨t, ht, h⟩ := hcalled a (Nat.le_of_lt_succ ha) fun a' _ => (hlast a').imp_left fun hno h => hno h.1
    have hst : t = s := by
      rw [CalledWith, hs] at ht
      exact (Halt.pair_inj ht).2.symm
    subst hst
    by_cases ha3 : a < 3
    · rw [h.merloveMemOnmemareaTouches_eq harr ha3] at hi
      exact onmemareaTouches_lt harr ha3 (hlast a) b.msanr 0 t (Nat.zero_le _) h (not_continues_zero b a) i hi
    · -- shared memory is not scanned
      obtain rfl : a = 3 := by
        unfold memareaMax at ha
        omega
      unfold merloveMemOnmemareaTouches at hi
      rw [h.shar, if_pos (.inr (.inl rfl))] at hi
      simp at hi

def twoPages (krnl : Nat) : Boot where
  msanr := 2
  msa := fun i =>
    { mfOlkty := .init
      mfMocty := if i = krnl then .krnl else .free
      mfMarty := 0
      mfUindx := if i = krnl then 1 else 0
      pafAlloc := decide (i = krnl)
      pafPadrs := i
      mdOdlink := .null }

theorem twoPages_sorted (krnl : Nat) : (twoPages krnl).Sorted where
  padrs := fun i hi => lt_trans hi (by norm_num [twoPages])
  sorted := fun _ _ hij _ => hij
  fresh := fun _ _ => ⟨rfl, rfl, rfl⟩
  marks := by
    intro i _
    by_cases hi : i = krnl <;> simp [twoPages, hi]

/-- With the kernel's page last the scan stays in the array. -/
theorem onmemarea_inside_of_krnl : ∃ s, CalledWith (twoPages 1) 0 s ∧ merloveMemOnmemareaTouches s 0 ≠ [] ∧
    ∀ i ∈ merloveMemOnmemareaTouches s 0, i < 2 := by
  have hin := (onmemarea_inside_iff (twoPages 1) (twoPages_sorted 1) (by decide)).mpr (.inl rfl)
  exact ⟨_, rfl, by decide +kernel, hin 0 (by decide) _ rfl⟩

/-- With the kernel's page first it reads the memory behind the second descriptor. -/
theorem onmemarea_reads_behind : ∃ s, CalledWith (twoPages 0) 0 s ∧ 2 ∈ merloveMemOnmemareaTouches s 0 :=
  ⟨_, rfl, by decide +kernel⟩

end Cosmos.Page
