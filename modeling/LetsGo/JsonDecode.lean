import LetsGo.Json

/-!
# JSON values as `json.Decoder` reads them

`readFromLocalFile` (`src/unnamed/part_001`, lines 240-258) calls `dec.Decode(&kv)` until the
first error. `Decode` runs the scanner of `encoding/json` (`scanner.go`) over the stream up to
the end of one whole value (`Decoder.readValue`) and only then stores it (`decodeState`). This
file models the library pieces that such a store rests on, for every text and not only for the
text `json.Encoder` writes. String literals are `Json.readString`.

* `skipSpace` drops the bytes `isSpace` accepts, as `scanSkipSpace` does before and between
  tokens.
* `scanNumber` reads a number from its first byte, as `stateNeg`, `state0`, `state1`, `stateDot`,
  `stateDot0`, `stateE`, `stateESign` and `stateE0` do. It takes the longest text of the number
  grammar there, and it is a syntax error where the text stops after a `-`, a `.` or an exponent
  mark. `scanLiteral` reads `true`, `false` or `null`.
* `skipValue` reads a value of any type (`decodeState.skip`, as the scanner checks it).
  `skipMember` reads the members of an object and `skipElements` the elements of an array, each
  with its closing bracket. `depth` counts the containers open around a value; opening one more
  than `maxNestingDepth` is the scanner's "exceeded max depth" error.
* Fuel: every call starts further into the text than its caller, so one more than the length of
  the text is fuel enough.
* `foldName` is `foldName` of `fold.go`: ASCII letters are upper-cased, and every other rune is
  replaced by the least rune of its case orbit (`foldRune`). Of the runes outside ASCII, only
  the Kelvin sign U+212A and the long s U+017F fold to ASCII letters (`K` and `S`). Every other
  rune outside ASCII folds to a rune outside ASCII, which the model keeps as it is. So
  `foldName key = foldName name` for an ASCII `name` is Go's comparison, and that is the only
  use the decoder makes of it.

-/

namespace LetsGo.Json

open Utf8

/-! ## Tokens -/

/-- `isSpace(c)`: JSON whitespace, which the scanner skips before and between tokens. -/
def isSpace (b : UInt8) : Bool := b = 32 || b = 9 || b = 10 || b = 13

/-- The text after the whitespace at the start of `s`. -/
def skipSpace (s : GoString) : GoString := s.dropWhile isSpace

/-- `some rest` when `s` is `lit ++ rest`. -/
def expect (lit s : GoString) : Option GoString :=
  if lit.isPrefixOf s then some (s.drop lit.length) else none

/-- `maxNestingDepth`: the most containers the scanner holds open at once. -/
def maxNestingDepth : Nat := 10000

/-- A decimal digit. -/
def isDigit (b : UInt8) : Bool := 48 ≤ b.toNat && b.toNat ≤ 57

/-- One digit or more, as `stateDot` and `stateESign` require, then what follows them. -/
def digits1 : GoString → Option GoString
  | b :: rest => if isDigit b then some (rest.dropWhile isDigit) else none
  | [] => none

/-- After the fraction of a number: an exponent if `e` or `E` follows (`stateE`, `stateESign`,
`stateE0`), then what follows the number. -/
def scanExponent : GoString → Option GoString
  | b :: rest =>
    if b = 101 ∨ b = 69 then
      if rest.head? = some 43 ∨ rest.head? = some 45 then digits1 rest.tail else digits1 rest
    else some (b :: rest)
  | [] => some []

/-- After the integer part of a number (`state0`): a fraction if `.` follows (`stateDot`,
`stateDot0`), then the exponent. -/
def scanFraction : GoString → Option GoString
  | b :: rest => if b = 46 then (digits1 rest).bind scanExponent else scanExponent (b :: rest)
  | [] => some []

/-- A number from its first byte, `-` (`stateNeg`) or a digit: what follows it. After `0` the
integer part ends (`state0`); after `1` to `9` it takes every digit (`state1`). -/
def scanNumber (s : GoString) : Option GoString :=
  match if s.head? = some 45 then s.tail else s with
  | b :: rest =>
    if b = 48 then scanFraction rest
    else if isDigit b then scanFraction (rest.dropWhile isDigit)
    else none
  | [] => none

/-- `true`, `false` or `null` (`stateT` to `stateNul`): what follows it. -/
def scanLiteral (s : GoString) : Option GoString :=
  (expect (GoString.ofString "true") s).orElse fun _ =>
    (expect (GoString.ofString "false") s).orElse fun _ => expect (GoString.ofString "null") s

/-- After a value in an object (`close` is `}`) or an array (`]`), `stateEndValue`:
`some (true, rest)` after a comma, `some (false, rest)` after the closing bracket. -/
def endValue (close : UInt8) (s : GoString) : Option (Bool × GoString) :=
  match skipSpace s with
  | b :: rest => if b = 44 then some (true, rest) else if b = close then some (false, rest) else none
  | [] => none

/-! ## Values -/

mutual

/-- `d.skip()` over one value, from the spaces before it, inside `depth` open containers: what
follows the value. -/
def skipValue : Nat → Nat → GoString → Option GoString
  | 0, _, _ => none
  | fuel + 1, depth, s =>
    match skipSpace s with
    | [] => none
    | b :: rest =>
      if b = 34 then (readString rest.length rest).map Prod.snd
      else if b = 123 ∨ b = 91 then
        if maxNestingDepth < depth + 1 then none
        else if b = 123 then
          -- `stateBeginStringOrEmpty`
          if (skipSpace rest).head? = some 125 then some (skipSpace rest).tail
          else skipMember fuel (depth + 1) rest
        else
          -- `stateBeginValueOrEmpty`
          if (skipSpace rest).head? = some 93 then some (skipSpace rest).tail
          else (skipValue fuel (depth + 1) rest).bind (skipElements fuel (depth + 1))
      else if b = 45 ∨ isDigit b then scanNumber (b :: rest)
      else scanLiteral (b :: rest)

/-- The members of an object from the spaces before a key (`stateBeginString`), and its `}`:
what follows the object. -/
def skipMember : Nat → Nat → GoString → Option GoString
  | 0, _, _ => none
  | fuel + 1, depth, s =>
    match skipSpace s with
    | b :: rest =>
      if b = 34 then do
        let (_, rest) ← readString rest.length rest
        let rest ← expect [58] (skipSpace rest)
        let rest ← skipValue fuel depth rest
        let (more, rest) ← endValue 125 rest
        if more then skipMember fuel depth rest else some rest
      else none
    | [] => none

/-- The elements of an array after one of them, and its `]`: what follows the array. -/
def skipElements : Nat → Nat → GoString → Option GoString
  | 0, _, _ => none
  | fuel + 1, depth, s => do
    let (more, rest) ← endValue 93 s
    if more then (skipValue fuel depth rest).bind (skipElements fuel depth) else some rest

end

/-! ## Field names -/

/-- `foldRune(r)` where it matters: the Kelvin sign folds to `K` and the long s to `S`; every
other rune outside ASCII folds to one outside ASCII, kept here as the rune itself. -/
def foldRune (r : Nat) : Nat := if r = 0x212A then 0x4B else if r = 0x17F then 0x53 else r

/-- `foldName(in)` (`appendFoldedName`): each ASCII byte with `a`-`z` upper-cased, each other
rune decoded with `DecodeRune` and written back folded. -/
def foldName : GoString → GoString
  | [] => []
  | b0 :: rest =>
    if b0.toNat < 0x80 then
      (if 97 ≤ b0.toNat ∧ b0.toNat ≤ 122 then b0 - 32 else b0) :: foldName rest
    else
      match decodeRune (b0 :: rest), rest with
      | (r, 2), _ :: rest => encodeRune (foldRune r) ++ foldName rest
      | (r, 3), _ :: _ :: rest => encodeRune (foldRune r) ++ foldName rest
      | (r, 4), _ :: _ :: _ :: rest => encodeRune (foldRune r) ++ foldName rest
      | (r, _), rest => encodeRune (foldRune r) ++ foldName rest

/-! ## Steps over written text -/

@[simp] theorem skipSpace_cons (b : UInt8) (rest : GoString) :
    skipSpace (b :: rest) = if isSpace b then skipSpace rest else b :: rest := by
  simp only [skipSpace, List.dropWhile_cons]

@[simp] theorem expect_singleton (b : UInt8) (rest : GoString) : expect [b] (b :: rest) = some rest := by
  simp [expect]

theorem endValue_comma (close : UInt8) (rest : GoString) :
    endValue close (44 :: rest) = some (true, rest) := rfl

theorem endValue_brace (rest : GoString) : endValue 125 (125 :: rest) = some (false, rest) := rfl

end LetsGo.Json
