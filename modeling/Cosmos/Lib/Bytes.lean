import Cosmos.Lib.Word
import Mathlib.Tactic

/-!
# Bytes of memory

Little-endian words, copies and zero-terminated strings in a memory of bytes, and what each write leaves as it was.
-/

namespace Cosmos.Lib

variable {m m' src : Nat → UInt8} {o o' n k v i len : Nat}

/-! ### Words -/

/-- The `n` bytes from `o` on as a number, the lowest first. -/
def readLE (m : Nat → UInt8) : Nat → Nat → Nat
  | _, 0 => 0
  | o, n + 1 => (m o).toNat + 256 * readLE m (o + 1) n

def writeLE (m : Nat → UInt8) (o v n : Nat) : Nat → UInt8 :=
  fun i => if o ≤ i ∧ i < o + n then UInt8.ofNat (v / 256 ^ (i - o)) else m i

theorem readLE_congr (n : Nat) : ∀ {o}, (∀ i, o ≤ i → i < o + n → m i = m' i) → readLE m o n = readLE m' o n := by
  induction n with
  | zero =>
    intro o _
    rfl
  | succ n ih =>
    intro o h
    rw [readLE, readLE, h o le_rfl (by omega), ih fun i hlo hhi => h i (by omega) (by omega)]

theorem readLE_of_digits (n : Nat) : ∀ {o v}, v < 256 ^ n →
    (∀ i < n, m (o + i) = UInt8.ofNat (v / 256 ^ i)) → readLE m o n = v := by
  induction n with
  | zero =>
    intro o v hv _
    rw [readLE]
    omega
  | succ n ih =>
    intro o v hv h
    have hfirst := h 0 (by omega)
    rw [Nat.add_zero, Nat.pow_zero, Nat.div_one] at hfirst
    have hrest : readLE m (o + 1) n = v / 256 := by
      apply ih
      · rw [Nat.div_lt_iff_lt_mul (by omega), ← Nat.pow_succ]
        exact hv
      · intro i hi
        rw [show o + 1 + i = o + (i + 1) by omega, h (i + 1) (by omega), Nat.div_div_eq_div_mul, ← Nat.pow_succ']
    rw [readLE, hrest, hfirst, UInt8.toNat_ofNat']
    omega

theorem readLE_writeLE_self (h : v < 256 ^ n) : readLE (writeLE m o v n) o n = v := by
  apply readLE_of_digits n h
  intro i hi
  rw [writeLE, if_pos ⟨by omega, by omega⟩, Nat.add_sub_cancel_left]

theorem readLE_div (n : Nat) : ∀ {o k}, k < n → UInt8.ofNat (readLE m o n / 256 ^ k) = m (o + k) := by
  induction n with
  | zero =>
    intro o k hk
    omega
  | succ n ih =>
    intro o k hk
    have hlt := (m o).toNat_lt
    cases k with
    | zero =>
      rw [readLE, Nat.pow_zero, Nat.div_one, show o + 0 = o from rfl]
      refine UInt8.toNat_inj.mp ?_
      rw [UInt8.toNat_ofNat']
      omega
    | succ k =>
      have hrest : (readLE m o (n + 1)) / 256 = readLE m (o + 1) n := by
        rw [readLE]
        omega
      rw [Nat.pow_succ', ← Nat.div_div_eq_div_mul, hrest, ih (by omega), show o + 1 + k = o + (k + 1) by omega]

def getWord (m : Nat → UInt8) (o : Nat) : Nat := readLE m o 8

theorem getWord_div (hk : k < 8) : UInt8.ofNat (getWord m o / 256 ^ k) = m (o + k) := readLE_div 8 hk

def putWord (m : Nat → UInt8) (o v : Nat) : Nat → UInt8 := writeLE m o v 8

theorem getWord_congr (h : ∀ i, o ≤ i → i < o + 8 → m i = m' i) : getWord m o = getWord m' o :=
  readLE_congr 8 h

theorem getWord_putWord_self (h : v < 2 ^ 64) : getWord (putWord m o v) o = v :=
  readLE_writeLE_self (by norm_num at h ⊢; exact h)

theorem putWord_of_outside (h : i < o ∨ o + 8 ≤ i) : putWord m o v i = m i :=
  if_neg (by omega)

theorem getWord_putWord_of_apart (h : o' + 8 ≤ o ∨ o + 8 ≤ o') : getWord (putWord m o v) o' = getWord m o' :=
  getWord_congr fun i hlo hhi => putWord_of_outside (by omega)

/-! ### Copies -/

/-- `hal_memcpy(src, dst + o, len)`. -/
def blit (src dst : Nat → UInt8) (o len : Nat) : Nat → UInt8 :=
  fun i => if o ≤ i ∧ i < o + len then src (i - o) else dst i

theorem blit_of_outside (h : i < o ∨ o + len ≤ i) : blit src m o len i = m i :=
  if_neg (by omega)

theorem blit_add (h : i < len) : blit src m o len (o + i) = src i := by
  rw [blit, if_pos ⟨by omega, by omega⟩, Nat.add_sub_cancel_left]

theorem getWord_blit_of_apart (h : o' + 8 ≤ o ∨ o + len ≤ o') : getWord (blit src m o len) o' = getWord m o' :=
  getWord_congr fun i hlo hhi => blit_of_outside (by omega)

/-- `n` bytes from `src` to `dst`, one after another and upwards, with addresses modulo `2 ^ 64`. -/
def memcpy (src dst : Nat) : Nat → (Nat → UInt8) → Nat → UInt8
  | 0, m => m
  | n + 1, m => Function.update (memcpy src dst n m) (u64 (dst + n)) (memcpy src dst n m (u64 (src + n)))

theorem memcpy_of_outside {s d a : Nat} (n : Nat) : (∀ k < n, a ≠ u64 (d + k)) → memcpy s d n m a = m a := by
  induction n with
  | zero => exact fun _ => rfl
  | succ n ih =>
    intro h
    rw [memcpy, Function.update_of_ne (h n n.lt_succ_self)]
    exact ih fun k hk => h k (hk.trans n.lt_succ_self)

theorem memcpy_at {s d : Nat} (n : Nat) (hn : n ≤ 2 ^ 64) (hk : k < n) :
    memcpy s d n m (u64 (d + k)) = memcpy s d k m (u64 (s + k)) := by
  induction n with
  | zero => exact absurd hk (Nat.not_lt_zero k)
  | succ n ih =>
    rw [memcpy]
    by_cases heq : k = n
    · rw [heq, Function.update_self]
    · have hne : u64 (d + k) ≠ u64 (d + n) := by
        unfold u64
        omega
      rw [Function.update_of_ne hne]
      exact ih (by omega) (by omega)

theorem readLE_zero (n : Nat) : ∀ {o}, (∀ i, o ≤ i → i < o + n → m i = 0) → readLE m o n = 0 := by
  induction n with
  | zero =>
    intro o _
    rfl
  | succ n ih =>
    intro o h
    rw [readLE, h o le_rfl (by omega), ih fun i hlo hhi => h i (by omega) (by omega)]
    rfl

theorem getWord_zero (h : ∀ i, o ≤ i → i < o + 8 → m i = 0) : getWord m o = 0 := readLE_zero 8 h

/-! ### Strings -/

/-- The string at the start of `m`, cut off after `n` bytes. -/
def cstr : Nat → (Nat → UInt8) → List UInt8
  | 0, _ => []
  | n + 1, m => if m 0 = 0 then [] else m 0 :: cstr n fun i => m (i + 1)

theorem length_cstr_le_of_zero (n : Nat) : ∀ {m k}, m k = 0 → (cstr n m).length ≤ k := by
  induction n with
  | zero => exact fun _ => Nat.zero_le _
  | succ n ih =>
    intro m k hk
    rw [cstr]
    split_ifs with h0
    · exact Nat.zero_le _
    · cases k with
      | zero => exact absurd hk h0
      | succ k => exact Nat.succ_le_succ (ih (m := fun i => m (i + 1)) hk)

theorem cstr_congr (n : Nat) : ∀ {m m'}, (∀ i ≤ (cstr n m).length, i < n → m' i = m i) → cstr n m' = cstr n m := by
  induction n with
  | zero => exact fun _ => rfl
  | succ n ih =>
    intro m m' h
    have h0 := h 0 (Nat.zero_le _) (Nat.succ_pos _)
    rw [cstr, cstr, h0]
    split_ifs with hz
    · rfl
    · refine congrArg _ (ih fun i hi hn => h (i + 1) ?_ (Nat.succ_lt_succ hn))
      rw [cstr, if_neg hz]
      exact Nat.succ_le_succ hi

/-- The memory begins with the string `s` and a terminating zero. -/
def Spells (m : Nat → UInt8) : List UInt8 → Prop
  | [] => m 0 = 0
  | c :: s => (m 0 = c ∧ c ≠ 0) ∧ Spells (fun i => m (i + 1)) s

theorem Spells.cstr_eq {s : List UInt8} : ∀ {m n}, Spells m s → s.length < n → cstr n m = s := by
  induction s with
  | nil =>
    intro m n h hn
    have h0 : m 0 = 0 := h
    obtain ⟨n, rfl⟩ := Nat.exists_eq_add_of_lt hn
    rw [List.length_nil, Nat.zero_add, cstr, if_pos h0]
  | cons c s ih =>
    intro m n h hn
    obtain ⟨⟨rfl, hc⟩, hrest⟩ := h
    obtain ⟨n, rfl⟩ : ∃ k, n = k + 1 := ⟨n - 1, by omega⟩
    rw [cstr, if_neg hc, ih hrest (Nat.lt_of_succ_lt_succ hn)]

theorem Spells.congr {s : List UInt8} : ∀ {m m'}, Spells m s → (∀ i ≤ s.length, m' i = m i) → Spells m' s := by
  induction s with
  | nil => exact fun h heq => (heq 0 le_rfl).trans h
  | cons c s ih =>
    intro m m' h heq
    refine ⟨⟨(heq 0 (Nat.zero_le _)).trans h.1.1, h.1.2⟩, ih h.2 fun i hi => heq (i + 1) (Nat.succ_le_succ hi)⟩

theorem Spells.zero {s : List UInt8} : ∀ {m}, Spells m s → m s.length = 0 := by
  induction s with
  | nil => exact fun h => h
  | cons c s ih => exact fun h => ih h.2

theorem spells_getD {s : List UInt8} (h : ∀ c ∈ s, c ≠ 0) : Spells (fun i => s.getD i 0) s := by
  induction s with
  | nil => rfl
  | cons c s ih => exact ⟨⟨rfl, h c (by simp)⟩, ih fun d hd => h d (by simp [hd])⟩

def Starts (m : Nat → UInt8) : List UInt8 → Prop
  | [] => True
  | c :: s => m 0 = c ∧ Starts (fun i => m (i + 1)) s

theorem Starts.map_range {s : List UInt8} : ∀ {m}, Starts m s → (List.range s.length).map m = s := by
  induction s with
  | nil => exact fun _ => rfl
  | cons c s ih =>
    intro m h
    rw [List.length_cons, List.range_succ_eq_map, List.map_cons, List.map_map, h.1]
    exact congrArg (c :: ·) (ih h.2)

theorem Spells.append {s t : List UInt8} :
    ∀ {m}, Spells m (s ++ t) → Starts m s ∧ Spells (fun i => m (i + s.length)) t := by
  induction s with
  | nil => exact fun h => ⟨trivial, h⟩
  | cons c s ih =>
    intro m h
    obtain ⟨hs, ht⟩ := ih h.2
    refine ⟨⟨h.1.1, hs⟩, ?_⟩
    simpa only [List.length_cons, Nat.add_assoc] using ht

end Cosmos.Lib
