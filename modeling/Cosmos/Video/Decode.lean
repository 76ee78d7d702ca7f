import Cosmos.Lib.Bytes
import Cosmos.Lib.Utf8

/-!
# Text as code points (`hal/x86/bdvideo.c`)

`gstr_write` decodes one sequence after another with `utf8_to_unicode` and draws each code point until it stands on a
zero byte. The decoder inverts the encoding (`utf8ToUnicode_starts`), so text that was encoded is drawn as it was
(`gstrWrite_encode`). On other bytes the loop trusts what the first byte of a sequence announces: nothing, and it stays
where it is for ever, or more bytes than the string has left, and it passes the terminator. It ends inside the string
exactly if the string is cut into whole sequences (`ends_inside_iff`).

`chinx` is an `int`; a sum that leaves its range has no meaning in C.
-/

namespace Cosmos.Video

open Cosmos.Lib Cosmos.Lib.Utf8

/-! ### The decoder -/

/-- `tmpuc <<= 6; tmpuc |= ubyt` with the six bits of the next byte. -/
def addBits (tmpuc : UInt32) (b : UInt8) : UInt32 := (tmpuc <<< 6) ||| (b &&& 0x3f).toUInt32

/-- `utf8_to_unicode`: the code point and the length stored at `retuib`. -/
def utf8ToUnicode (utfp : Nat → UInt8) : UInt32 × Nat :=
  let uhd := utfp 0
  if uhd < 0x80 then ((uhd &&& 0x7f).toUInt32, 1)
  else if 0xc0 ≤ uhd ∧ uhd ≤ 0xdf then (addBits (uhd &&& 0x1f).toUInt32 (utfp 1), 2)
  else if 0xe0 ≤ uhd ∧ uhd ≤ 0xef then (addBits (addBits (uhd &&& 0x0f).toUInt32 (utfp 1)) (utfp 2), 3)
  else if 0xf0 ≤ uhd ∧ uhd ≤ 0xf7 then
    (addBits (addBits (addBits (uhd &&& 0x7).toUInt32 (utfp 1)) (utfp 2)) (utfp 3), 4)
  else if 0xf8 ≤ uhd ∧ uhd ≤ 0xfb then
    (addBits (addBits (addBits (addBits (uhd &&& 0x3).toUInt32 (utfp 1)) (utfp 2)) (utfp 3)) (utfp 4), 5)
  else if 0xfc ≤ uhd ∧ uhd ≤ 0xfd then
    (addBits (addBits (addBits (addBits (addBits (uhd &&& 0x1).toUInt32 (utfp 1)) (utfp 2)) (utfp 3)) (utfp 4))
      (utfp 5), 6)
  else (0, 0)

theorem utf8ToUnicode_len (m : Nat → UInt8) : (utf8ToUnicode m).2 = leadLen (m 0) := by
  -- the two chains of ranges, compared byte by byte
  have hbytes : ∀ n < 256, (if n < 0x80 then 1 else if 0xc0 ≤ n ∧ n ≤ 0xdf then 2 else if 0xe0 ≤ n ∧ n ≤ 0xef then 3
      else if 0xf0 ≤ n ∧ n ≤ 0xf7 then 4 else if 0xf8 ≤ n ∧ n ≤ 0xfb then 5 else if 0xfc ≤ n ∧ n ≤ 0xfd then 6 else 0) =
      if n < 0x80 then 1 else if n < 0xc0 then 0 else if n < 0xe0 then 2 else if n < 0xf0 then 3
      else if n < 0xf8 then 4 else if n < 0xfc then 5 else if n < 0xfe then 6 else 0 := by
    decide +kernel
  unfold utf8ToUnicode leadLen
  simp only [UInt8.lt_iff_toNat_lt, UInt8.le_iff_toNat_le, UInt8.reduceToNat, apply_ite Prod.snd]
  exact hbytes _ (m 0).toNat_lt

theorem toNat_addBits {t : UInt32} (b : UInt8) (ht : t.toNat < 2 ^ 26) :
    (addBits t b).toNat = t.toNat * 64 + b.toNat % 64 := by
  have hmask : b.toNat &&& 63 = b.toNat % 64 := Nat.and_two_pow_sub_one_eq_mod _ 6
  have hshift : t.toNat <<< 6 % 2 ^ 32 = t.toNat <<< 6 := by
    rw [Nat.shiftLeft_eq]
    omega
  have hsum := Nat.shiftLeft_add_eq_or_of_lt (show b.toNat % 64 < 2 ^ 6 by omega) t.toNat
  simp only [addBits, UInt32.toNat_or, UInt32.toNat_shiftLeft, UInt8.toNat_toUInt32, UInt8.toNat_and,
    UInt32.reduceToNat, UInt8.reduceToNat, Nat.reduceMod]
  rw [hmask, hshift, ← hsum, Nat.shiftLeft_eq]

theorem toNat_foldl_addBits (c k : Nat) : ∀ t : UInt32, (t.toNat + 1) * 64 ^ k ≤ 2 ^ 32 →
    ((tails c k).foldl addBits t).toNat = t.toNat * 64 ^ k + c % 64 ^ k := by
  induction k with
  | zero =>
    intro t _
    simp [tails, Nat.mod_one]
  | succ k ih =>
    intro t ht
    have hpos : 0 < 64 ^ k := by positivity
    have hlt : t.toNat < 2 ^ 26 := by
      rw [Nat.pow_succ] at ht
      nlinarith
    have hstep : (addBits t (tail c k)).toNat = t.toNat * 64 + c / 64 ^ k % 64 := by
      rw [toNat_addBits _ hlt, toNat_tail]
      omega
    rw [tails, List.foldl_cons, ih, hstep, Nat.mod_pow_succ]
    · ring
    · rw [hstep]
      have hdigit : c / 64 ^ k % 64 < 64 := Nat.mod_lt _ (by decide)
      calc (t.toNat * 64 + c / 64 ^ k % 64 + 1) * 64 ^ k ≤ (t.toNat + 1) * 64 * 64 ^ k := by gcongr; omega
        _ = (t.toNat + 1) * 64 ^ (k + 1) := by ring
        _ ≤ 2 ^ 32 := ht

theorem foldl_addBits_lead {c k j p : Nat} {w : UInt8} {m : Nat → UInt8} (hc : c ≤ 0x7fffffff) (hk : k ≤ 5)
    (hw : w.toNat = 2 ^ j - 1) (hp : p % 2 ^ j = 0) (hj : c / 64 ^ k < 2 ^ j) (hbyte : p + c / 64 ^ k < 256)
    (h : Starts m (UInt8.ofNat (p + c / 64 ^ k) :: tails c k)) :
    (m 0).toNat = p + c / 64 ^ k ∧
      ((List.range k).map fun i => m (i + 1)).foldl addBits (m 0 &&& w).toUInt32 = UInt32.ofNat c := by
  have hvalue : (m 0).toNat = p + c / 64 ^ k := by rw [h.1, toNat_ofNat hbyte]
  have hlead : (m 0 &&& w).toUInt32.toNat = c / 64 ^ k := by
    rw [UInt8.toNat_toUInt32, UInt8.toNat_and, hw, Nat.and_two_pow_sub_one_eq_mod, hvalue, Nat.add_mod, hp,
      Nat.zero_add, Nat.mod_mod, Nat.mod_eq_of_lt hj]
  have htails : ((List.range k).map fun i => m (i + 1)) = tails c k := by
    have hmap := h.2.map_range
    rwa [length_tails] at hmap
  have hpow : 64 ^ k ≤ 64 ^ 5 := Nat.pow_le_pow_right (by decide) hk
  have hdiv : c / 64 ^ k * 64 ^ k ≤ c := Nat.div_mul_le_self _ _
  refine ⟨hvalue, UInt32.toNat_inj.mp ?_⟩
  rw [htails, toNat_foldl_addBits, hlead, Nat.div_add_mod']
  · simp
    omega
  · rw [hlead, Nat.add_mul, Nat.one_mul]
    omega

/-- **The decoder returns a code point and the length of its encoding, whatever follows.** -/
theorem utf8ToUnicode_starts {c : Nat} (hc : c ≤ 0x7fffffff) {m : Nat → UInt8} (h : Starts m (encode c)) :
    utf8ToUnicode m = (UInt32.ofNat c, (encode c).length) := by
  unfold utf8ToUnicode
  simp only [UInt8.lt_iff_toNat_lt, UInt8.le_iff_toNat_le, UInt8.reduceToNat]
  unfold encode at h ⊢
  by_cases h1 : c < 0x80
  · rw [if_pos h1] at h ⊢
    obtain ⟨hlead, hcode⟩ := foldl_addBits_lead (k := 0) (j := 7) (p := 0) (w := 0x7f) hc (by decide) rfl rfl
      (by omega) (by omega) (by simpa [tails] using h)
    rw [if_pos (by omega), ← hcode]
    rfl
  rw [if_neg h1] at h ⊢
  by_cases h2 : c < 0x800
  · rw [if_pos h2] at h ⊢
    obtain ⟨hlead, hcode⟩ := foldl_addBits_lead (k := 1) (j := 5) (p := 0xc0) (w := 0x1f) hc (by decide) rfl rfl
      (by omega) (by omega) h
    rw [if_neg (by omega), if_pos (by omega), ← hcode]
    rfl
  rw [if_neg h2] at h ⊢
  by_cases h3 : c < 0x10000
  · rw [if_pos h3] at h ⊢
    obtain ⟨hlead, hcode⟩ := foldl_addBits_lead (j := 4) (w := 0x0f) hc (by decide) rfl rfl (by omega) (by omega) h
    rw [if_neg (by omega), if_neg (by omega), if_pos (by omega), ← hcode]
    rfl
  rw [if_neg h3] at h ⊢
  by_cases h4 : c < 0x200000
  · rw [if_pos h4] at h ⊢
    obtain ⟨hlead, hcode⟩ := foldl_addBits_lead (j := 3) (w := 0x7) hc (by decide) rfl rfl (by omega) (by omega) h
    rw [if_neg (by omega), if_neg (by omega), if_neg (by omega), if_pos (by omega), ← hcode]
    rfl
  rw [if_neg h4] at h ⊢
  by_cases h5 : c < 0x4000000
  · rw [if_pos h5] at h ⊢
    obtain ⟨hlead, hcode⟩ := foldl_addBits_lead (j := 2) (w := 0x3) hc (by decide) rfl rfl (by omega) (by omega) h
    rw [if_neg (by omega), if_neg (by omega), if_neg (by omega), if_neg (by omega), if_pos (by omega), ← hcode]
    rfl
  rw [if_neg h5] at h ⊢
  obtain ⟨hlead, hcode⟩ := foldl_addBits_lead (j := 1) (w := 0x1) hc (by decide) rfl rfl (by omega) (by omega) h
  rw [if_neg (by omega), if_neg (by omega), if_neg (by omega), if_neg (by omega), if_neg (by omega), if_pos (by omega),
    ← hcode]
  rfl

/-! ### The loop -/

/-- The loop of `gstr_write` from `chinx`: the code points it draws and how many bytes of the string it has read,
counted from the start; the decoder reads its first byte and those of the sequence. There is no result if the rounds
do not suffice or `chinx` leaves the range of an `int`. -/
def gstrWrite (buf : Nat → UInt8) : Nat → Nat → Option (List UInt32 × Nat)
  | 0, _ => none
  | fuel + 1, chinx =>
    if buf chinx = 0 then some ([], chinx + 1)
    else
      let d := utf8ToUnicode fun i => buf (chinx + i)
      if 2 ^ 31 ≤ chinx + d.2 then none
      else (gstrWrite buf fuel (chinx + d.2)).map fun r => (d.1 :: r.1, max (chinx + max 1 d.2) r.2)

section Loop

variable {buf : Nat → UInt8} {s : List UInt8} {i fuel : Nat} {r : List UInt32 × Nat}

theorem gstrWrite_of_zero (h : buf i = 0) : gstrWrite buf (fuel + 1) i = some ([], i + 1) := by
  rw [gstrWrite, if_pos h]

theorem gstrWrite_of_ne (h : buf i ≠ 0) (hr : gstrWrite buf (fuel + 1) i = some r) :
    i + leadLen (buf i) < 2 ^ 31 ∧ ∃ r', gstrWrite buf fuel (i + leadLen (buf i)) = some r' ∧
      r = ((utf8ToUnicode fun k => buf (i + k)).1 :: r'.1, max (i + max 1 (leadLen (buf i))) r'.2) := by
  rw [gstrWrite, if_neg h] at hr
  simp only [utf8ToUnicode_len, Nat.add_zero] at hr
  split_ifs at hr with hover
  obtain ⟨r', hr', rfl⟩ := Option.map_eq_some_iff.mp hr
  exact ⟨by omega, r', hr', rfl⟩

theorem gstrWrite_step (h : buf i ≠ 0) (hint : i + leadLen (buf i) < 2 ^ 31)
    (hr : gstrWrite buf fuel (i + leadLen (buf i)) = some r) :
    gstrWrite buf (fuel + 1) i =
      some ((utf8ToUnicode fun k => buf (i + k)).1 :: r.1, max (i + max 1 (leadLen (buf i))) r.2) := by
  rw [gstrWrite, if_neg h]
  simp only [utf8ToUnicode_len, Nat.add_zero]
  rw [if_neg (by omega), hr]
  rfl

theorem lt_of_gstrWrite (hr : gstrWrite buf fuel i = some r) : i < r.2 := by
  cases fuel with
  | zero => simp [gstrWrite] at hr
  | succ fuel =>
    by_cases h : buf i = 0
    · rw [gstrWrite_of_zero h] at hr
      cases hr
      exact Nat.lt_succ_self i
    · obtain ⟨-, r', -, rfl⟩ := gstrWrite_of_ne h hr
      exact lt_max_of_lt_left (by omega)

theorem gstrWrite_stuck (h : buf i ≠ 0) (hlead : leadLen (buf i) = 0) : gstrWrite buf fuel i = none := by
  induction fuel with
  | zero => rfl
  | succ fuel ih =>
    by_contra hsome
    obtain ⟨r, hr⟩ := Option.ne_none_iff_exists'.mp hsome
    obtain ⟨-, r', hr', -⟩ := gstrWrite_of_ne h hr
    rw [hlead, Nat.add_zero, ih] at hr'
    cases hr'

theorem spells_shift {t : List UInt8} (h : Spells (fun k => buf (i + k)) (s ++ t)) :
    Starts (fun k => buf (i + k)) s ∧ Spells (fun k => buf (i + s.length + k)) t := by
  obtain ⟨hs, ht⟩ := h.append
  exact ⟨hs, ht.congr fun k _ => by rw [Nat.add_assoc, Nat.add_comm s.length k]⟩

end Loop

/-! ### Where the loop ends -/

section Ends

variable {buf : Nat → UInt8}

theorem whole_of_ends (fuel : Nat) : ∀ {s i r}, i < 2 ^ 31 → Spells (fun k => buf (i + k)) s →
    gstrWrite buf fuel i = some r → r.2 ≤ i + s.length + 1 → Whole s ∧ i + s.length < 2 ^ 31 := by
  induction fuel with
  | zero => exact fun _ _ hr _ => absurd hr (by simp [gstrWrite])
  | succ fuel ih =>
    intro s i r hi hs hr hreach
    cases s with
    | nil => exact ⟨.nil, hi⟩
    | cons b t =>
      have hb : buf i = b := hs.1.1
      have hne : buf i ≠ 0 := hb ▸ hs.1.2
      obtain ⟨hint, r', hr', rfl⟩ := gstrWrite_of_ne hne hr
      have hlead : leadLen b ≠ 0 := by
        intro hzero
        rw [hb, hzero, Nat.add_zero, gstrWrite_stuck hne (hb ▸ hzero)] at hr'
        cases hr'
      -- the next round reads at least the byte behind the sequence, so the sequence ends inside the string
      have hle : r'.2 ≤ i + (t.length + 1) + 1 := (le_max_right _ _).trans hreach
      rw [hb] at hr' hint
      have hlt := lt_of_gstrWrite hr'
      obtain ⟨u, v, rfl, hlen⟩ := exists_cut (t := t) hlead (by omega)
      have hv := (spells_shift (s := b :: u) hs).2
      rw [List.length_cons, ← hlen] at hv
      simp only [List.length_cons, List.length_append] at hle ⊢
      obtain ⟨hwhole, hend⟩ := ih hint hv hr' (by omega)
      exact ⟨.cons hlen hwhole, by omega⟩

theorem ends_of_whole {s : List UInt8} (h : Whole s) : ∀ {i}, Spells (fun k => buf (i + k)) s →
    i + s.length < 2 ^ 31 → ∃ fuel r, gstrWrite buf fuel i = some r ∧ r.2 ≤ i + s.length + 1 := by
  induction h with
  | nil => exact fun h _ => ⟨1, _, gstrWrite_of_zero h, le_rfl⟩
  | @cons b t s hlen _ ih =>
    intro i hs hint
    have hb : buf i = b := hs.1.1
    have hne : buf i ≠ 0 := hb ▸ hs.1.2
    have hrest := (spells_shift hs).2
    rw [List.length_cons, ← hlen] at hrest
    simp only [List.length_append, List.length_cons, ← hlen] at hint ⊢
    obtain ⟨fuel, r, hr, hreach⟩ := ih hrest (by omega)
    refine ⟨fuel + 1, _, gstrWrite_step hne (by rw [hb]; omega) (by rw [hb]; exact hr), ?_⟩
    rw [hb]
    exact max_le (by omega) (by omega)

/-- **`gstr_write` returns, and without reading behind the terminator, exactly if the string is cut into whole sequences
and shorter than `2 ^ 31` bytes.** -/
theorem ends_inside_iff {s : List UInt8} (h : Spells buf s) :
    (∃ fuel r, gstrWrite buf fuel 0 = some r ∧ r.2 ≤ s.length + 1) ↔ Whole s ∧ s.length < 2 ^ 31 := by
  have h0 : Spells (fun k => buf (0 + k)) s := by simpa only [Nat.zero_add] using h
  constructor
  · rintro ⟨fuel, r, hr, hreach⟩
    simpa only [Nat.zero_add] using whole_of_ends fuel (by decide) h0 hr (by rwa [Nat.zero_add])
  · rintro ⟨hwhole, hint⟩
    simpa only [Nat.zero_add] using ends_of_whole hwhole h0 (by rwa [Nat.zero_add])

end Ends

/-- Two characters, the first of two bytes. -/
theorem ends_inside_of_whole :
    ∃ fuel r, gstrWrite (fun i => [0xc3, 0xa9, 0x0a].getD i 0) fuel 0 = some r ∧ r.2 ≤ 4 :=
  (ends_inside_iff (spells_getD (s := [0xc3, 0xa9, 0x0a]) (by simp))).mpr
    ⟨.cons (t := [0xa9]) (by decide) (.cons (t := []) (by decide) .nil), by decide⟩

/-- The byte 0x80 alone keeps the loop for ever; the first byte of a three-byte sequence alone makes it pass the
terminator. -/
theorem ends_outside :
    (Spells (fun i => [0x80].getD i 0) [0x80] ∧ ∀ fuel, gstrWrite (fun i => [0x80].getD i 0) fuel 0 = none) ∧
      Spells (fun i => [0xe4, 0, 0x41].getD i 0) [0xe4] ∧
        (gstrWrite (fun i => [0xe4, 0, 0x41].getD i 0) 2 0).map Prod.snd = some 4 :=
  ⟨⟨spells_getD (by simp), fun _ => gstrWrite_stuck (by decide) (by decide)⟩, ⟨⟨rfl, by decide⟩, rfl⟩, by decide⟩

/-! ### Encoded text -/

section Encoded

variable {buf : Nat → UInt8}

theorem leadLen_of_starts {c i : Nat} (hc : c ≤ 0x7fffffff) (h : Starts (fun k => buf (i + k)) (encode c)) :
    leadLen (buf i) = (encode c).length := by
  have hlen := utf8ToUnicode_len fun k => buf (i + k)
  rw [utf8ToUnicode_starts hc h] at hlen
  exact hlen.symm

theorem spells_encode_cons {c i : Nat} {cs : List Nat} (h0 : c ≠ 0) (hc : c ≤ 0x7fffffff)
    (h : Spells (fun k => buf (i + k)) ((c :: cs).flatMap encode)) :
    buf i ≠ 0 ∧ leadLen (buf i) = (encode c).length ∧ (utf8ToUnicode fun k => buf (i + k)).1 = UInt32.ofNat c ∧
      Spells (fun k => buf (i + leadLen (buf i) + k)) (cs.flatMap encode) := by
  rw [List.flatMap_cons] at h
  obtain ⟨hstarts, hrest⟩ := spells_shift h
  have hlen := leadLen_of_starts hc hstarts
  have hne : buf i ≠ 0 := by
    obtain ⟨b, t, hbt⟩ := List.exists_cons_of_length_pos (length_encode_pos c)
    rw [hbt] at hstarts
    have hb : buf i = b := hstarts.1
    exact hb ▸ encode_ne_zero h0 hc b (by rw [hbt]; simp)
  exact ⟨hne, hlen, congrArg Prod.fst (utf8ToUnicode_starts hc hstarts), hlen ▸ hrest⟩

theorem gstrWrite_encode (cs : List Nat) : ∀ {i}, (∀ c ∈ cs, c ≠ 0 ∧ c ≤ 0x7fffffff) →
    Spells (fun k => buf (i + k)) (cs.flatMap encode) → i + (cs.flatMap encode).length < 2 ^ 31 →
    ∃ n, gstrWrite buf (cs.length + 1) i = some (cs.map UInt32.ofNat, n) := by
  induction cs with
  | nil => exact fun _ h _ => ⟨_, gstrWrite_of_zero h⟩
  | cons c cs ih =>
    intro i hcs h hint
    obtain ⟨h0, hc⟩ := hcs c (by simp)
    obtain ⟨hne, hlen, hcode, hrest⟩ := spells_encode_cons h0 hc h
    rw [List.flatMap_cons, List.length_append, ← hlen] at hint
    obtain ⟨n, hn⟩ := ih (fun d hd => hcs d (by simp [hd])) hrest (by omega)
    have hstep := gstrWrite_step hne (by omega) hn
    rw [hcode] at hstep
    exact ⟨_, hstep⟩

theorem length_lt_of_gstrWrite (cs : List Nat) : ∀ {i fuel r}, i < 2 ^ 31 → (∀ c ∈ cs, c ≠ 0 ∧ c ≤ 0x7fffffff) →
    Spells (fun k => buf (i + k)) (cs.flatMap encode) → gstrWrite buf fuel i = some r →
    i + (cs.flatMap encode).length < 2 ^ 31 := by
  induction cs with
  | nil => exact fun hi _ _ _ => hi
  | cons c cs ih =>
    intro i fuel r _ hcs h hr
    obtain ⟨h0, hc⟩ := hcs c (by simp)
    obtain ⟨hne, hlen, -, hrest⟩ := spells_encode_cons h0 hc h
    cases fuel with
    | zero => cases hr
    | succ fuel =>
      obtain ⟨hint, r', hr', -⟩ := gstrWrite_of_ne hne hr
      have hend := ih hint (fun d hd => hcs d (by simp [hd])) hrest hr'
      rw [List.flatMap_cons, List.length_append, ← hlen]
      omega

/-- **The decoder inverts the encoding, whatever follows it, and `gstr_write` draws the code points of encoded text in
order, exactly if the text is shorter than `2 ^ 31` bytes.** -/
theorem decoding_inverts_encoding :
    (∀ c ≤ 0x7fffffff, ∀ m, Starts m (encode c) →
      (utf8ToUnicode m).1.toNat = c ∧ (utf8ToUnicode m).2 = (encode c).length) ∧
    ∀ cs : List Nat, (∀ c ∈ cs, c ≠ 0 ∧ c ≤ 0x7fffffff) → ∀ buf, Spells buf (cs.flatMap encode) →
      ((∃ fuel r, gstrWrite buf fuel 0 = some r ∧ r.1.map UInt32.toNat = cs) ↔
        (cs.flatMap encode).length < 2 ^ 31) := by
  have htoNat {c : Nat} (hc : c ≤ 0x7fffffff) : (UInt32.ofNat c).toNat = c := by
    simp only [UInt32.toNat_ofNat']
    omega
  refine ⟨fun c hc m h => ?_, fun cs hcs buf h => ?_⟩
  · rw [utf8ToUnicode_starts hc h]
    exact ⟨htoNat hc, rfl⟩
  · have h' : Spells (fun k => buf (0 + k)) (cs.flatMap encode) := by simpa only [Nat.zero_add] using h
    constructor
    · rintro ⟨fuel, r, hr, -⟩
      simpa only [Nat.zero_add] using length_lt_of_gstrWrite cs (by decide) hcs h' hr
    · intro hlen
      obtain ⟨n, hn⟩ := gstrWrite_encode cs hcs h' (by simpa only [Nat.zero_add] using hlen)
      refine ⟨_, _, hn, ?_⟩
      rw [List.map_map]
      exact (List.map_congr_left fun c hc => htoNat (hcs c hc).2).trans (List.map_id cs)

end Encoded

/-- A character of three bytes and a line feed. -/
theorem decoding_inverts_two :
    (utf8ToUnicode fun i => [0xe4, 0xb8, 0xad].getD i 0).1.toNat = 0x4e2d ∧
      ∃ fuel r, gstrWrite (fun i => [0xe4, 0xb8, 0xad, 0x0a].getD i 0) fuel 0 = some r ∧
        r.1.map UInt32.toNat = [0x4e2d, 0x0a] :=
  ⟨(decoding_inverts_encoding.1 0x4e2d (by decide) (fun i => [0xe4, 0xb8, 0xad].getD i 0)
      ⟨rfl, rfl, rfl, trivial⟩).1,
    (decoding_inverts_encoding.2 [0x4e2d, 0x0a] (by decide) _
      (spells_getD (s := [0xe4, 0xb8, 0xad, 0x0a]) (by simp))).mpr (by decide)⟩

/-- `2 ^ 31` letters are not drawn: `chinx` would have to count to `2 ^ 31`. -/
theorem long_text_not_drawn :
    ∃ buf, Spells buf ((List.replicate (2 ^ 31) 0x41).flatMap encode) ∧
      ¬∃ fuel r, gstrWrite buf fuel 0 = some r ∧ r.1.map UInt32.toNat = List.replicate (2 ^ 31) 0x41 := by
  obtain ⟨n, hn⟩ : ∃ n, n = 2 ^ 31 := ⟨_, rfl⟩
  rw [← hn]
  have hcs : ∀ c ∈ List.replicate n 0x41, c ≠ 0 ∧ c ≤ 0x7fffffff := by
    intro c hc
    rw [List.eq_of_mem_replicate hc]
    decide
  have hspells := spells_getD (s := (List.replicate n 0x41).flatMap encode) fun b hb => by
    obtain ⟨c, hc, hb⟩ := List.mem_flatMap.mp hb
    exact encode_ne_zero (hcs c hc).1 (hcs c hc).2 b hb
  refine ⟨_, hspells, ?_⟩
  rintro ⟨fuel, r, hr, -⟩
  have hlen := length_lt_of_gstrWrite (i := 0) _ (by decide) hcs (by simpa only [Nat.zero_add] using hspells) hr
  rw [List.length_flatMap, List.map_replicate, List.sum_replicate] at hlen
  have hone : (encode 0x41).length = 1 := by decide
  rw [hone, smul_eq_mul] at hlen
  omega

end Cosmos.Video
