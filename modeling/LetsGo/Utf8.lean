import LetsGo.GoString

/-!
# UTF-8 as Go's `unicode/utf8` reads and writes it

`utf8.DecodeRune` and `utf8.EncodeRune`, which `encoding/json` applies to every byte of a string
at or above `utf8.RuneSelf`. Runes are natural numbers and a byte is read by its `toNat`; the
library's masks and shifts are written as `%` and `/` by powers of two.

* `decodeRune p`: the first rune of `p` and its size. The leading byte gives the size and the
  range the second byte must lie in (`runeSize` and `acceptRange`, the library's tables `first`
  and `acceptRanges`); a byte that starts no valid sequence gives `(RuneError, 1)`.
* `encodeRune r`: the bytes of `r`; a surrogate or a value above `MaxRune` is written as
  `RuneError`.
* `validUTF8 s`: every rune of `s` decodes (`utf8.ValidString`).

Results:
* `encodeRune_two`, `encodeRune_three`, `encodeRune_four`: encoding a decoded rune gives back
  its bytes.
* `validUTF8_encodeRune_append`: what `EncodeRune` writes is valid UTF-8, for every rune.
* `replaceInvalid_of_valid`: the round trip leaves a valid string unchanged.
-/

namespace LetsGo.Utf8

/-- `utf8.RuneError`, U+FFFD. -/
def RuneError : Nat := 0xFFFD

/-- `first[b] & 7`: the size of the sequence the leading byte `b` starts; 1 for an ASCII byte
and for a byte that starts no sequence. -/
def runeSize (b : UInt8) : Nat :=
  if b.toNat < 0xC2 then 1 else if b.toNat < 0xE0 then 2 else if b.toNat < 0xF0 then 3
  else if b.toNat < 0xF5 then 4 else 1

/-- `acceptRanges[first[b] >> 4]`: the least and the greatest second byte after `b`. -/
def acceptRange (b : UInt8) : Nat × Nat :=
  if b.toNat = 0xE0 then (0xA0, 0xBF) else if b.toNat = 0xED then (0x80, 0x9F)
  else if b.toNat = 0xF0 then (0x90, 0xBF) else if b.toNat = 0xF4 then (0x80, 0x8F)
  else (0x80, 0xBF)

/-- The second byte `b1` lies in the range the leading byte `b0` accepts. -/
def accepts (b0 b1 : UInt8) : Bool :=
  (acceptRange b0).1 ≤ b1.toNat && b1.toNat ≤ (acceptRange b0).2

/-- A continuation byte, `locb ≤ b ≤ hicb`. -/
def isCont (b : UInt8) : Bool := 0x80 ≤ b.toNat && b.toNat ≤ 0xBF

/-- `utf8.DecodeRune(p)`: the first rune of `p` and its size. -/
def decodeRune : GoString → Nat × Nat
  | [] => (RuneError, 0)
  | b0 :: rest =>
    if b0.toNat < 0x80 then (b0.toNat, 1) else
    match runeSize b0, rest with
    | 2, b1 :: _ =>
      if accepts b0 b1 then (b0.toNat % 32 * 64 + b1.toNat % 64, 2) else (RuneError, 1)
    | 3, b1 :: b2 :: _ =>
      if accepts b0 b1 && isCont b2 then
        (b0.toNat % 16 * 4096 + b1.toNat % 64 * 64 + b2.toNat % 64, 3)
      else (RuneError, 1)
    | 4, b1 :: b2 :: b3 :: _ =>
      if accepts b0 b1 && isCont b2 && isCont b3 then
        (b0.toNat % 8 * 262144 + b1.toNat % 64 * 4096 + b2.toNat % 64 * 64 + b3.toNat % 64, 4)
      else (RuneError, 1)
    | _, _ => (RuneError, 1)

/-- `utf8.EncodeRune(p, r)`: the bytes it writes. -/
def encodeRune (r : Nat) : GoString :=
  if r ≤ 0x7F then [UInt8.ofNat r]
  else if r ≤ 0x7FF then [UInt8.ofNat (0xC0 + r / 64), UInt8.ofNat (0x80 + r % 64)]
  else if r > 0x10FFFF ∨ (0xD800 ≤ r ∧ r ≤ 0xDFFF) then [0xEF, 0xBF, 0xBD]
  else if r ≤ 0xFFFF then
    [UInt8.ofNat (0xE0 + r / 4096), UInt8.ofNat (0x80 + r / 64 % 64),
      UInt8.ofNat (0x80 + r % 64)]
  else
    [UInt8.ofNat (0xF0 + r / 262144), UInt8.ofNat (0x80 + r / 4096 % 64),
      UInt8.ofNat (0x80 + r / 64 % 64), UInt8.ofNat (0x80 + r % 64)]

/-- `utf8.ValidString(s)`: no byte of `s` starts an invalid sequence. -/
def validUTF8 : GoString → Bool
  | [] => true
  | b0 :: rest =>
    if b0.toNat < 0x80 then validUTF8 rest else
    match decodeRune (b0 :: rest), rest with
    | (_, 2), _ :: rest => validUTF8 rest
    | (_, 3), _ :: _ :: rest => validUTF8 rest
    | (_, 4), _ :: _ :: _ :: rest => validUTF8 rest
    | _, _ => false

/-- What a round trip through `utf8.DecodeRune` and `utf8.EncodeRune` makes of `s`: every byte
that starts no valid sequence replaced by the bytes of `RuneError`. -/
def replaceInvalid : GoString → GoString
  | [] => []
  | b0 :: rest =>
    if b0.toNat < 0x80 then b0 :: replaceInvalid rest else
    match decodeRune (b0 :: rest), rest with
    | (_, 2), b1 :: rest => b0 :: b1 :: replaceInvalid rest
    | (_, 3), b1 :: b2 :: rest => b0 :: b1 :: b2 :: replaceInvalid rest
    | (_, 4), b1 :: b2 :: b3 :: rest => b0 :: b1 :: b2 :: b3 :: replaceInvalid rest
    | _, rest => 0xEF :: 0xBF :: 0xBD :: replaceInvalid rest

/-! ## Decoding, inverted -/

theorem ofNat_eq {n : Nat} {b : UInt8} (h : n = b.toNat) : UInt8.ofNat n = b := by
  subst h; exact UInt8.toNat.inj (UInt8.toNat_ofNat_of_lt b.toNat_lt_size)

theorem encodeRune_ascii {b : UInt8} (h : b.toNat < 0x80) : encodeRune b.toNat = [b] := by
  rw [encodeRune, if_pos (by omega), ofNat_eq rfl]

theorem decodeRune_cons (b0 : UInt8) (rest : GoString) :
    decodeRune (b0 :: rest) =
      if b0.toNat < 0x80 then (b0.toNat, 1) else
      match runeSize b0, rest with
      | 2, b1 :: _ =>
        if accepts b0 b1 then (b0.toNat % 32 * 64 + b1.toNat % 64, 2) else (RuneError, 1)
      | 3, b1 :: b2 :: _ =>
        if accepts b0 b1 && isCont b2 then
          (b0.toNat % 16 * 4096 + b1.toNat % 64 * 64 + b2.toNat % 64, 3)
        else (RuneError, 1)
      | 4, b1 :: b2 :: b3 :: _ =>
        if accepts b0 b1 && isCont b2 && isCont b3 then
          (b0.toNat % 8 * 262144 + b1.toNat % 64 * 4096 + b2.toNat % 64 * 64 + b3.toNat % 64, 4)
        else (RuneError, 1)
      | _, _ => (RuneError, 1) := rfl

theorem runeSize_two {b : UInt8} : runeSize b = 2 ↔ 0xC2 ≤ b.toNat ∧ b.toNat < 0xE0 := by
  unfold runeSize; split_ifs <;> omega

theorem runeSize_three {b : UInt8} : runeSize b = 3 ↔ 0xE0 ≤ b.toNat ∧ b.toNat < 0xF0 := by
  unfold runeSize; split_ifs <;> omega

theorem runeSize_four {b : UInt8} : runeSize b = 4 ↔ 0xF0 ≤ b.toNat ∧ b.toNat < 0xF5 := by
  unfold runeSize; split_ifs <;> omega

/-- A two-byte rune: its two guards, as `DecodeRune` checks them. -/
theorem decodeRune_eq_two {b0 : UInt8} {rest : GoString} {c : Nat} :
    decodeRune (b0 :: rest) = (c, 2) ↔ ∃ b1 t, rest = b1 :: t ∧ runeSize b0 = 2 ∧
      accepts b0 b1 = true ∧ c = b0.toNat % 32 * 64 + b1.toNat % 64 := by
  constructor
  · intro h
    rw [decodeRune_cons] at h
    split_ifs at h
    · cases h
    split at h
    · rename_i b1 t hs
      split_ifs at h with ha
      · cases h; exact ⟨b1, t, rfl, hs, ha, rfl⟩
      · cases h
    all_goals (try split_ifs at h) <;> cases h
  · rintro ⟨b1, t, rfl, hs, ha, rfl⟩
    rw [decodeRune_cons, if_neg (by have := runeSize_two.mp hs; omega), hs]
    simp only [ha, if_true]

/-- A three-byte rune. -/
theorem decodeRune_eq_three {b0 : UInt8} {rest : GoString} {c : Nat} :
    decodeRune (b0 :: rest) = (c, 3) ↔ ∃ b1 b2 t, rest = b1 :: b2 :: t ∧ runeSize b0 = 3 ∧
      accepts b0 b1 = true ∧ isCont b2 = true ∧
      c = b0.toNat % 16 * 4096 + b1.toNat % 64 * 64 + b2.toNat % 64 := by
  constructor
  · intro h
    rw [decodeRune_cons] at h
    split_ifs at h
    · cases h
    split at h
    · split_ifs at h <;> cases h
    · rename_i b1 b2 t hs
      split_ifs at h with ha
      · cases h
        rw [Bool.and_eq_true] at ha
        exact ⟨b1, b2, t, rfl, hs, ha.1, ha.2, rfl⟩
      · cases h
    all_goals (try split_ifs at h) <;> cases h
  · rintro ⟨b1, b2, t, rfl, hs, ha, hc, rfl⟩
    rw [decodeRune_cons, if_neg (by have := runeSize_three.mp hs; omega), hs]
    simp only [ha, hc, Bool.and_self, if_true]

/-- A four-byte rune. -/
theorem decodeRune_eq_four {b0 : UInt8} {rest : GoString} {c : Nat} :
    decodeRune (b0 :: rest) = (c, 4) ↔ ∃ b1 b2 b3 t, rest = b1 :: b2 :: b3 :: t ∧
      runeSize b0 = 4 ∧ accepts b0 b1 = true ∧ isCont b2 = true ∧ isCont b3 = true ∧
      c = b0.toNat % 8 * 262144 + b1.toNat % 64 * 4096 + b2.toNat % 64 * 64 + b3.toNat % 64 := by
  constructor
  · intro h
    rw [decodeRune_cons] at h
    split_ifs at h
    · cases h
    split at h
    · split_ifs at h <;> cases h
    · split_ifs at h <;> cases h
    · rename_i b1 b2 b3 t hs
      split_ifs at h with ha
      · cases h
        simp only [Bool.and_eq_true] at ha
        exact ⟨b1, b2, b3, t, rfl, hs, ha.1.1, ha.1.2, ha.2, rfl⟩
      · cases h
    cases h
  · rintro ⟨b1, b2, b3, t, rfl, hs, ha, hc2, hc3, rfl⟩
    rw [decodeRune_cons, if_neg (by have := runeSize_four.mp hs; omega), hs]
    simp only [ha, hc2, hc3, Bool.and_self, if_true]

/-! ## Encoding a decoded rune -/

theorem isCont_iff {b : UInt8} : isCont b = true ↔ 0x80 ≤ b.toNat ∧ b.toNat ≤ 0xBF := by
  simp [isCont]

/-- What `accepts` lets through after a leading byte: the ranges of `acceptRanges`. -/
theorem accepts_iff {b0 b1 : UInt8} :
    accepts b0 b1 = true ↔ 0x80 ≤ b1.toNat ∧ b1.toNat ≤ 0xBF ∧
      (b0.toNat = 0xE0 → 0xA0 ≤ b1.toNat) ∧ (b0.toNat = 0xED → b1.toNat ≤ 0x9F) ∧
      (b0.toNat = 0xF0 → 0x90 ≤ b1.toNat) ∧ (b0.toNat = 0xF4 → b1.toNat ≤ 0x8F) := by
  simp only [accepts, acceptRange, Bool.and_eq_true, decide_eq_true_eq]
  split_ifs <;> omega

theorem encodeRune_two {b0 b1 : UInt8} (hs : runeSize b0 = 2) (ha : accepts b0 b1 = true) :
    encodeRune (b0.toNat % 32 * 64 + b1.toNat % 64) = [b0, b1] := by
  have h0 := runeSize_two.mp hs
  have h1 := accepts_iff.mp ha
  rw [encodeRune, if_neg (by omega), if_pos (by omega)]
  simp only [List.cons.injEq, and_true]
  refine ⟨ofNat_eq ?_, ofNat_eq ?_⟩ <;> omega

theorem encodeRune_three {b0 b1 b2 : UInt8} (hs : runeSize b0 = 3) (ha : accepts b0 b1 = true)
    (hc : isCont b2 = true) :
    encodeRune (b0.toNat % 16 * 4096 + b1.toNat % 64 * 64 + b2.toNat % 64) = [b0, b1, b2] := by
  have h0 := runeSize_three.mp hs
  have h1 := accepts_iff.mp ha
  have h2 := isCont_iff.mp hc
  rw [encodeRune, if_neg (by omega), if_neg (by omega), if_neg (by omega), if_pos (by omega)]
  simp only [List.cons.injEq, and_true]
  refine ⟨ofNat_eq ?_, ofNat_eq ?_, ofNat_eq ?_⟩ <;> omega

theorem encodeRune_four {b0 b1 b2 b3 : UInt8} (hs : runeSize b0 = 4) (ha : accepts b0 b1 = true)
    (hc2 : isCont b2 = true) (hc3 : isCont b3 = true) :
    encodeRune (b0.toNat % 8 * 262144 + b1.toNat % 64 * 4096 + b2.toNat % 64 * 64 +
      b3.toNat % 64) = [b0, b1, b2, b3] := by
  have h0 := runeSize_four.mp hs
  have h1 := accepts_iff.mp ha
  have h2 := isCont_iff.mp hc2
  have h3 := isCont_iff.mp hc3
  rw [encodeRune, if_neg (by omega), if_neg (by omega), if_neg (by omega), if_neg (by omega)]
  simp only [List.cons.injEq, and_true]
  refine ⟨ofNat_eq ?_, ofNat_eq ?_, ofNat_eq ?_, ofNat_eq ?_⟩ <;> omega

/-! ## Valid strings -/

/-- `ValidString` past an ASCII byte. -/
theorem validUTF8_ascii {b : UInt8} (hb : b.toNat < 0x80) (t : GoString) :
    validUTF8 (b :: t) = validUTF8 t := by
  conv_lhs => unfold validUTF8
  rw [if_pos hb]

/-- `ValidString` past a two-byte rune. -/
theorem validUTF8_two {b0 b1 : UInt8} (hs : runeSize b0 = 2) (ha : accepts b0 b1 = true)
    (t : GoString) : validUTF8 (b0 :: b1 :: t) = validUTF8 t := by
  conv_lhs => unfold validUTF8
  simp only [if_neg (show ¬b0.toNat < 0x80 by have := runeSize_two.mp hs; omega),
    decodeRune_eq_two.mpr ⟨b1, t, rfl, hs, ha, rfl⟩]

/-- `ValidString` past a three-byte rune. -/
theorem validUTF8_three {b0 b1 b2 : UInt8} (hs : runeSize b0 = 3) (ha : accepts b0 b1 = true)
    (hc : isCont b2 = true) (t : GoString) : validUTF8 (b0 :: b1 :: b2 :: t) = validUTF8 t := by
  conv_lhs => unfold validUTF8
  simp only [if_neg (show ¬b0.toNat < 0x80 by have := runeSize_three.mp hs; omega),
    decodeRune_eq_three.mpr ⟨b1, b2, t, rfl, hs, ha, hc, rfl⟩]

/-- `ValidString` past a four-byte rune. -/
theorem validUTF8_four {b0 b1 b2 b3 : UInt8} (hs : runeSize b0 = 4)
    (ha : accepts b0 b1 = true) (hc2 : isCont b2 = true) (hc3 : isCont b3 = true)
    (t : GoString) : validUTF8 (b0 :: b1 :: b2 :: b3 :: t) = validUTF8 t := by
  conv_lhs => unfold validUTF8
  simp only [if_neg (show ¬b0.toNat < 0x80 by have := runeSize_four.mp hs; omega),
    decodeRune_eq_four.mpr ⟨b1, b2, b3, t, rfl, hs, ha, hc2, hc3, rfl⟩]

/-- **What `EncodeRune` writes is valid UTF-8**, for every rune: a surrogate or a value above
`MaxRune` becomes the bytes of `RuneError`, and every other rune the bytes of its own size,
whose leading byte and second byte lie in the ranges `DecodeRune` accepts. -/
theorem validUTF8_encodeRune_append (r : Nat) (t : GoString) :
    validUTF8 (encodeRune r ++ t) = validUTF8 t := by
  have hb : ∀ {n : Nat}, n < 0x100 → (UInt8.ofNat n).toNat = n := UInt8.toNat_ofNat_of_lt
  unfold encodeRune
  split_ifs with h1 h2 h3 h4 <;> simp only [List.cons_append, List.nil_append]
  · -- one byte
    exact validUTF8_ascii (by rw [hb (by omega)]; omega) t
  · -- two bytes
    have e0 := hb (show 0xC0 + r / 64 < 0x100 by omega)
    have e1 := hb (show 0x80 + r % 64 < 0x100 by omega)
    refine validUTF8_two (runeSize_two.mpr ?_) (accepts_iff.mpr ?_) t <;> simp only [e0, e1] <;>
      omega
  · -- a surrogate or a value above `MaxRune`: the bytes of `RuneError`
    exact validUTF8_three (by decide) (by decide) (by decide) t
  · -- three bytes
    have e0 := hb (show 0xE0 + r / 4096 < 0x100 by omega)
    have e1 := hb (show 0x80 + r / 64 % 64 < 0x100 by omega)
    have e2 := hb (show 0x80 + r % 64 < 0x100 by omega)
    refine validUTF8_three (runeSize_three.mpr ?_) (accepts_iff.mpr ?_) (isCont_iff.mpr ?_) t <;>
      simp only [e0, e1, e2] <;> omega
  · -- four bytes
    have e0 := hb (show 0xF0 + r / 262144 < 0x100 by omega)
    have e1 := hb (show 0x80 + r / 4096 % 64 < 0x100 by omega)
    have e2 := hb (show 0x80 + r / 64 % 64 < 0x100 by omega)
    have e3 := hb (show 0x80 + r % 64 < 0x100 by omega)
    refine validUTF8_four (runeSize_four.mpr ?_) (accepts_iff.mpr ?_) (isCont_iff.mpr ?_)
      (isCont_iff.mpr ?_) t <;> simp only [e0, e1, e2, e3] <;> omega

/-- **A valid string comes back unchanged.** -/
theorem replaceInvalid_of_valid {s : GoString} (h : validUTF8 s = true) : replaceInvalid s = s := by
  induction s using validUTF8.induct with
  | case1 => rfl
  | case2 b0 rest hb ih =>
    unfold validUTF8 at h
    unfold replaceInvalid
    simp only [if_pos hb] at h ⊢
    rw [ih h]
  | case3 b0 hb _ _ _ hd ih | case4 b0 hb _ _ _ _ hd ih | case5 b0 hb _ _ _ _ _ hd ih =>
    unfold validUTF8 at h
    unfold replaceInvalid
    simp only [if_neg hb, hd] at h ⊢
    rw [ih h]
  | case6 b0 _ _ _ _ _ =>
    unfold validUTF8 at h
    simp only [if_neg ‹¬b0.toNat < 128›] at h
    cases h

end LetsGo.Utf8
