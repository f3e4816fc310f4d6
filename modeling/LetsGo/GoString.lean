import Mathlib.Data.List.Lex
import Mathlib.Data.List.Infix

/-!
# Go strings

A Go `string` is a sequence of bytes, and the packages this repository uses read it so:
`strings.Split`, `strings.Join` and `strings.HasPrefix` work on bytes, `s[0]` is a byte, and
`<` compares bytewise (`ByKey.Less`). `GoString` is that sequence, and this file gives the three
`strings` functions for the one-byte separators the code passes them.
-/

namespace LetsGo

/-- A Go `string`: its bytes. -/
abbrev GoString := List UInt8

/-- Bytes in numeric order, the order of Go's string comparison. -/
instance linearOrderUInt8 : LinearOrder UInt8 where
  le_refl a := Nat.le_refl a.toNat
  le_trans _ _ _ := Nat.le_trans
  le_antisymm _ _ h₁ h₂ := UInt8.toNat.inj (Nat.le_antisymm h₁ h₂)
  le_total a b := Nat.le_total a.toNat b.toNat
  lt_iff_le_not_le _ _ := Nat.lt_iff_le_not_le
  decidableLE := inferInstance

/-- The bytes of a Go string literal. -/
def GoString.ofString (s : String) : GoString := s.toUTF8.data.toList

/-- `strings.Split(s, sep)` for a one-byte `sep`. -/
def split (s : GoString) (sep : UInt8) : List GoString := s.splitOn sep

/-- `strings.Join(elems, sep)` for a one-byte `sep`. -/
def join (elems : List GoString) (sep : UInt8) : GoString := [sep].intercalate elems

/-- `strings.HasPrefix(s, prefix)`. -/
def hasPrefix (s pre : GoString) : Bool := pre.isPrefixOf s

@[simp] theorem hasPrefix_iff (s pre : GoString) : hasPrefix s pre = true ↔ pre <+: s :=
  List.isPrefixOf_iff_prefix

end LetsGo
