import LetsGo.Utf8

/-!
# Go strings through `encoding/json`

What `json.Encoder.Encode` writes for a Go string, and what `json.Decoder.Decode` reads back
from it: the two halves of the library that `writeToLocalFile` and `readFromLocalFile`
(`src/unnamed/part_001`, lines 222-259) put between a map task and a reduce task.

* `encodeBody s` is `encodeState.string(s, escapeHTML)` without its quotes, with the HTML
  escaping `json.NewEncoder` turns on: an ASCII byte outside `htmlSafeSet` is escaped (`\\`,
  `\"`, `\n`, `\r`, `\t`, else `\u00XX`, the escapes of Go up to 1.21), a byte that starts no
  valid UTF-8 sequence is written as the escape of U+FFFD, and U+2028 and U+2029 as escapes, and
  every other rune as its bytes. The library tests `c == RuneError && size == 1`; on a byte
  at or above `RuneSelf` that is the only result of `DecodeRune` of size 1, so the model
  matches on the size.
* `readString s` reads a string literal after its opening quote, as the scanner checks it and
  `unquoteBytes` decodes it: it ends at the first unescaped `"` and returns the bytes and what
  follows the quote; a control byte or an unknown escape is a syntax error (`none`). Every
  rune is decoded with `DecodeRune` and written back with `EncodeRune`, so each byte that
  starts no valid sequence becomes `RuneError`. (`unquoteBytes` returns a valid input
  unchanged without that loop, which gives the same bytes; and the library decodes a rune of
  the literal alone, where `readString` sees the bytes after the quote too, which changes
  nothing: a continuation byte is at least `0x80` and the quote is `0x22`.)

Results:
* `readString_encodeBody`: reading back what was written gives `Utf8.replaceInvalid s` and
  stops right after the closing quote; on a valid string that is `s` itself.
* `readString_valid`: whatever bytes a literal holds, the string the decoder reads from it is
  valid UTF-8.
-/

namespace LetsGo.Json

open Utf8

/-! ## Bytes and escapes -/

/-- `htmlSafeSet[b]` for an ASCII byte: printable, and none of `"`, `\`, `<`, `>`, `&`. -/
def htmlSafe (b : UInt8) : Bool :=
  0x20 ≤ b.toNat && !(b = 34 || b = 92 || b = 60 || b = 62 || b = 38)

/-- `hex[n]`, the digits `0123456789abcdef`. -/
def hexDigit (n : Nat) : UInt8 :=
  if n < 10 then UInt8.ofNat (48 + n) else UInt8.ofNat (87 + n)

/-- The escape `encodeState.string` writes for an ASCII byte outside `htmlSafeSet`. -/
def escapeByte (b : UInt8) : GoString :=
  if b = 92 ∨ b = 34 then [92, b]
  else if b = 10 then GoString.ofString "\\n"
  else if b = 13 then GoString.ofString "\\r"
  else if b = 9 then GoString.ofString "\\t"
  else GoString.ofString "\\u00" ++ [hexDigit (b.toNat / 16), hexDigit (b.toNat % 16)]

/-- `encodeState.string(s, true)` between its quotes. -/
def encodeBody : GoString → GoString
  | [] => []
  | b :: rest =>
    if b.toNat < 0x80 then (if htmlSafe b then [b] else escapeByte b) ++ encodeBody rest else
    match decodeRune (b :: rest), rest with
    | (_, 2), b1 :: rest => b :: b1 :: encodeBody rest
    | (c, 3), b1 :: b2 :: rest =>
      (if c = 0x2028 ∨ c = 0x2029 then GoString.ofString "\\u202" ++ [hexDigit (c % 16)]
        else [b, b1, b2]) ++ encodeBody rest
    | (_, 4), b1 :: b2 :: b3 :: rest => b :: b1 :: b2 :: b3 :: encodeBody rest
    | _, rest => GoString.ofString "\\ufffd" ++ encodeBody rest

/-- The value of a hex digit, as `getu4` reads it. -/
def hexVal (c : UInt8) : Option Nat :=
  if 48 ≤ c.toNat ∧ c.toNat ≤ 57 then some (c.toNat - 48)
  else if 97 ≤ c.toNat ∧ c.toNat ≤ 102 then some (c.toNat - 97 + 10)
  else if 65 ≤ c.toNat ∧ c.toNat ≤ 70 then some (c.toNat - 65 + 10)
  else none

/-- `getu4(s)`: the value of the `\uXXXX` escape `s` starts with. -/
def getu4 : GoString → Option Nat
  | b0 :: b1 :: h1 :: h2 :: h3 :: h4 :: _ =>
    if b0 = 92 ∧ b1 = 117 then
      match hexVal h1, hexVal h2, hexVal h3, hexVal h4 with
      | some a, some b, some c, some d => some (((a * 16 + b) * 16 + c) * 16 + d)
      | _, _, _, _ => none
    else none
  | _ => none

/-- `utf16.IsSurrogate(r)`. -/
def isSurrogate (r : Nat) : Bool := 0xD800 ≤ r && r < 0xE000

/-- `utf16.DecodeRune(r1, r2)`; `none` where it returns `unicode.ReplacementChar`. -/
def decodeSurrogates (r1 : Nat) : Option Nat → Option Nat
  | some r2 =>
    if 0xD800 ≤ r1 ∧ r1 < 0xDC00 ∧ 0xDC00 ≤ r2 ∧ r2 < 0xE000 then
      some ((r1 - 0xD800) * 1024 + (r2 - 0xDC00) + 0x10000)
    else none
  | none => none

/-- The byte of the escape `\c`, for `c` other than `u`. -/
def unescape (c : UInt8) : Option UInt8 :=
  if c = 34 ∨ c = 92 ∨ c = 47 then some c
  else if c = 98 then some 8 else if c = 102 then some 12 else if c = 110 then some 10
  else if c = 114 then some 13 else if c = 116 then some 9 else none

/-- One turn of the loop of `unquoteBytes` (with the scanner's checks) at the bytes `s` left:
the literal ends at a quote, or the turn writes `out` and goes on at `rest`, or the literal is
malformed. -/
inductive Turn where
  | close (rest : GoString)
  | emit (out rest : GoString)
  | error
  deriving DecidableEq, Repr

/-- The turn at `s`. -/
def unquoteTurn : GoString → Turn
  | [] => .error
  | b :: rest =>
    if b = 34 then .close rest
    else if b = 92 then
      match rest with
      | [] => .error
      | c :: rest' =>
        if c = 117 then
          match getu4 (b :: rest) with
          | none => .error
          | some r =>
            if isSurrogate r then
              match decodeSurrogates r (getu4 (rest'.drop 4)) with
              | some d => .emit (encodeRune d) (rest'.drop 10)
              | none => .emit (encodeRune RuneError) (rest'.drop 4)
            else .emit (encodeRune r) (rest'.drop 4)
        else
          match unescape c with
          | some e => .emit [e] rest'
          | none => .error
    else if b.toNat < 0x20 then .error
    else if b.toNat < 0x80 then .emit [b] rest
    else .emit (encodeRune (decodeRune (b :: rest)).1) (rest.drop ((decodeRune (b :: rest)).2 - 1))

/-- Put `p` before the bytes of a read. -/
def prependOut (p : GoString) : Option (GoString × GoString) → Option (GoString × GoString) :=
  Option.map fun r => (p ++ r.1, r.2)

/-- A string literal after its opening quote, in at most `fuel` turns: its bytes, and what
follows its closing quote. Every turn takes a byte at least, so the decoder gives the length of
its input as fuel. -/
def readString : Nat → GoString → Option (GoString × GoString)
  | 0, _ => none
  | fuel + 1, s =>
    match unquoteTurn s with
    | .close rest => some ([], rest)
    | .emit out rest => prependOut out (readString fuel rest)
    | .error => none

/-! ## One turn per written piece -/

theorem hexVal_hexDigit {n : Nat} (h : n < 16) : hexVal (hexDigit n) = some n := by
  have key : ∀ n : Fin 16, hexVal (hexDigit n) = some n := by decide
  exact key ⟨n, h⟩

theorem ne_quote {b : UInt8} (h : 0x80 ≤ b.toNat) : b ≠ 34 := by
  rintro rfl; exact absurd h (by decide)

theorem ne_backslash {b : UInt8} (h : 0x80 ≤ b.toNat) : b ≠ 92 := by
  rintro rfl; exact absurd h (by decide)

/-- An ASCII byte, written as itself or escaped, is read back in one turn. -/
theorem unquoteTurn_ascii {b : UInt8} (hb : b.toNat < 0x80) (X : GoString) :
    unquoteTurn ((if htmlSafe b then [b] else escapeByte b) ++ X) = .emit [b] X := by
  split_ifs with hs
  · simp only [htmlSafe, Bool.and_eq_true, decide_eq_true_eq, Bool.not_eq_true',
      Bool.or_eq_false_iff] at hs
    obtain ⟨h20, ⟨⟨⟨h34, h92⟩, -⟩, -⟩, -⟩ := hs
    simp only [decide_eq_false_iff_not] at h34 h92
    simp only [List.singleton_append, unquoteTurn, if_neg h34, if_neg h92,
      if_neg (show ¬b.toNat < 0x20 by omega), if_pos hb]
  · unfold escapeByte
    split_ifs with h1 h2 h3 h4
    · rcases h1 with rfl | rfl <;> rfl
    · subst h2; rfl
    · subst h3; rfl
    · subst h4; rfl
    · have hhi := hexVal_hexDigit (show b.toNat / 16 < 16 by omega)
      have hlo := hexVal_hexDigit (show b.toNat % 16 < 16 by omega)
      have hg : getu4 (92 :: 117 :: 48 :: 48 :: hexDigit (b.toNat / 16) ::
          hexDigit (b.toNat % 16) :: X) = some b.toNat := by
        simp only [getu4, hhi, hlo, true_and, if_true]
        rw [show hexVal 48 = some 0 by decide]
        simp only [Option.some.injEq]
        omega
      show unquoteTurn (92 :: 117 :: 48 :: 48 :: hexDigit (b.toNat / 16) ::
        hexDigit (b.toNat % 16) :: X) = _
      simp only [unquoteTurn, hg, if_true, List.drop_succ_cons, List.drop_zero,
        show isSurrogate b.toNat = false by simp [isSurrogate]; omega, encodeRune_ascii hb]
      rfl

/-- A rune of two bytes or more is read back in one turn. -/
theorem unquoteTurn_rune {b : UInt8} {rest : GoString} {c n : Nat} (hb : 0x80 ≤ b.toNat)
    (hd : decodeRune (b :: rest) = (c, n)) :
    unquoteTurn (b :: rest) = .emit (encodeRune c) (rest.drop (n - 1)) := by
  simp only [unquoteTurn, if_neg (ne_quote hb), if_neg (ne_backslash hb),
    if_neg (show ¬b.toNat < 0x20 by omega), if_neg (show ¬b.toNat < 0x80 by omega), hd]

/-- U+2028 and U+2029, written as escapes, are read back in one turn. -/
theorem unquoteTurn_u202 {c : Nat} (hc : c = 0x2028 ∨ c = 0x2029) (X : GoString) :
    unquoteTurn (GoString.ofString "\\u202" ++ [hexDigit (c % 16)] ++ X) =
      .emit (encodeRune c) X := by
  rcases hc with rfl | rfl <;> rfl

theorem unquoteTurn_ufffd (X : GoString) :
    unquoteTurn (GoString.ofString "\\ufffd" ++ X) = .emit [0xEF, 0xBF, 0xBD] X := rfl

/-! ## The round trip -/

theorem readString_emit {s out rest : GoString} (h : unquoteTurn s = .emit out rest) (fuel : Nat) :
    readString (fuel + 1) s = prependOut out (readString fuel rest) := by
  rw [readString, h]

theorem escapeByte_ne_nil (b : UInt8) : escapeByte b ≠ [] := by
  unfold escapeByte; split_ifs <;> simp <;> decide

theorem length_le_encodeBody (s : GoString) : s.length ≤ (encodeBody s).length := by
  induction s using replaceInvalid.induct with
  | case1 => rfl
  | case2 b rest hb ih =>
    have : (if htmlSafe b then [b] else escapeByte b) ≠ [] := by
      split_ifs
      · simp
      · exact escapeByte_ne_nil b
    unfold encodeBody
    simp only [if_pos hb, List.length_append, List.length_cons]
    have := List.length_pos.mpr this
    omega
  | case3 b hb _ _ _ hd ih | case5 b hb _ _ _ _ _ hd ih =>
    unfold encodeBody
    simp only [if_neg hb, hd, List.length_cons]
    omega
  | case4 b hb c b1 b2 rest hd ih =>
    unfold encodeBody
    simp only [if_neg hb, hd, List.length_append, List.length_cons]
    split_ifs <;> simp only [List.length_append, List.length_cons, List.length_nil,
      show (GoString.ofString "\\u202").length = 5 from rfl] <;> omega
  | case6 b _ _ _ _ _ ih =>
    unfold encodeBody
    simp only [if_neg ‹¬b.toNat < 128›, List.length_append, List.length_cons,
      show (GoString.ofString "\\ufffd").length = 6 from rfl]
    omega

/-- One written piece read back in one turn, then the rest of the string, from fuel enough for
the rest after that turn. -/
theorem readString_piece {p o rest t : GoString} {fuel : Nat}
    (hturn : ∀ X, unquoteTurn (p ++ X) = .emit o X)
    (ih : ∀ {f}, rest.length < f →
      readString f (encodeBody rest ++ 34 :: t) = some (replaceInvalid rest, t))
    (hf : rest.length + 1 < fuel) :
    readString fuel (p ++ (encodeBody rest ++ 34 :: t)) = some (o ++ replaceInvalid rest, t) := by
  obtain ⟨f, rfl⟩ : ∃ f, fuel = f + 1 := ⟨fuel - 1, by omega⟩
  rw [readString_emit (hturn _), ih (by omega)]
  rfl

/-- **Reading back what the encoder wrote.** With fuel enough for one turn per byte of `s` and
one for the quote, the decoder returns `replaceInvalid s` and stops after the closing quote. -/
theorem readString_encodeBody (s t : GoString) {fuel : Nat} (hf : s.length < fuel) :
    readString fuel (encodeBody s ++ 34 :: t) = some (replaceInvalid s, t) := by
  induction s using replaceInvalid.induct generalizing fuel with
  | case1 => cases fuel <;> first | omega | rfl
  | case2 b rest hb ih =>
    unfold encodeBody replaceInvalid
    simp only [if_pos hb, List.append_assoc]
    exact readString_piece (unquoteTurn_ascii hb) ih (by simpa using hf)
  | case3 b hb c b1 rest hd ih =>
    obtain ⟨b1, t', he, hs, ha, hc⟩ := decodeRune_eq_two.mp hd
    cases he
    unfold encodeBody replaceInvalid
    simp only [if_neg hb, hd]
    refine readString_piece (p := [b, b1]) (o := [b, b1]) (fun X => ?_) ih
      (by simp at hf; omega)
    have h := unquoteTurn_rune (by omega) (decodeRune_eq_two.mpr ⟨b1, X, rfl, hs, ha, hc⟩)
    rwa [hc, encodeRune_two hs ha] at h
  | case4 b hb c b1 b2 rest hd ih =>
    obtain ⟨b1, b2, t', he, hs, ha, hb2, hc⟩ := decodeRune_eq_three.mp hd
    cases he
    unfold encodeBody replaceInvalid
    simp only [if_neg hb, hd, List.append_assoc]
    refine readString_piece (o := [b, b1, b2]) (fun X => ?_) ih (by simp at hf; omega)
    conv_rhs => rw [← encodeRune_three hs ha hb2, ← hc]
    split_ifs with h2028
    · exact unquoteTurn_u202 h2028 X
    · exact unquoteTurn_rune (by omega) (decodeRune_eq_three.mpr ⟨b1, b2, X, rfl, hs, ha, hb2, hc⟩)
  | case5 b hb c b1 b2 b3 rest hd ih =>
    obtain ⟨b1, b2, b3, t', he, hs, ha, hb2, hb3, hc⟩ := decodeRune_eq_four.mp hd
    cases he
    unfold encodeBody replaceInvalid
    simp only [if_neg hb, hd]
    refine readString_piece (p := [b, b1, b2, b3]) (o := [b, b1, b2, b3]) (fun X => ?_) ih
      (by simp at hf; omega)
    have h := unquoteTurn_rune (by omega)
      (decodeRune_eq_four.mpr ⟨b1, b2, b3, X, rfl, hs, ha, hb2, hb3, hc⟩)
    rwa [hc, encodeRune_four hs ha hb2 hb3] at h
  | case6 b _ _ _ _ _ ih =>
    unfold encodeBody replaceInvalid
    simp only [if_neg ‹¬b.toNat < 128›, List.append_assoc]
    exact readString_piece unquoteTurn_ufffd ih (by simpa using hf)

/-! ## What the decoder accepts -/

/-- The byte an escape `\c` stands for is ASCII. -/
theorem unescape_ascii {c e : UInt8} (h : unescape c = some e) : e.toNat < 0x80 := by
  unfold unescape at h
  split_ifs at h with h1 <;> cases h
  · rcases h1 with rfl | rfl | rfl <;> decide
  all_goals decide

/-- What one turn writes: the bytes `EncodeRune` writes for some rune (a `\uXXXX` escape, a
surrogate pair, a lone surrogate as `RuneError`, or a rune of the literal decoded), or one ASCII
byte (an escape such as `\n`, or the byte itself). -/
theorem unquoteTurn_emit {s out rest : GoString} (h : unquoteTurn s = .emit out rest) :
    (∃ r, out = encodeRune r) ∨ ∃ b : UInt8, b.toNat < 0x80 ∧ out = [b] := by
  unfold unquoteTurn at h
  repeat' split at h
  all_goals cases h
  all_goals first
    | exact .inl ⟨_, rfl⟩
    | exact .inr ⟨_, unescape_ascii ‹_›, rfl⟩
    | exact .inr ⟨_, ‹_›, rfl⟩

/-- What one turn writes, before valid UTF-8, is valid UTF-8. -/
theorem validUTF8_emit_append {s out rest : GoString} (h : unquoteTurn s = .emit out rest)
    (t : GoString) : validUTF8 (out ++ t) = validUTF8 t := by
  rcases unquoteTurn_emit h with ⟨r, rfl⟩ | ⟨b, hb, rfl⟩
  · exact validUTF8_encodeRune_append r t
  · exact validUTF8_ascii hb t

/-- **Every string the decoder reads is valid UTF-8**, whatever bytes the literal holds. -/
theorem readString_valid : ∀ {fuel : Nat} {s out rest : GoString},
    readString fuel s = some (out, rest) → validUTF8 out = true
  | 0, _, _, _, h => nomatch h
  | fuel + 1, s, out, rest, h => by
    cases ht : unquoteTurn s with
    | close r =>
      rw [readString, ht] at h
      cases h
      rfl
    | emit o r =>
      rw [readString_emit ht, prependOut, Option.map_eq_some'] at h
      obtain ⟨⟨o', r'⟩, hr, he⟩ := h
      cases he
      rw [validUTF8_emit_append ht]
      exact readString_valid hr
    | error =>
      rw [readString, ht] at h
      cases h

/-- What the round trip makes of any string is valid UTF-8: it is what the decoder reads. -/
theorem validUTF8_replaceInvalid (s : GoString) : validUTF8 (replaceInvalid s) = true :=
  readString_valid (readString_encodeBody s [] (Nat.lt_succ_self _))

end LetsGo.Json
