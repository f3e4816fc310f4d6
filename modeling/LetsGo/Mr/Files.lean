import LetsGo.JsonDecode
import LetsGo.Mr.Reducer

/-!
# Intermediate files

`writeToLocalFile` and `readFromLocalFile` (`src/unnamed/part_001`, lines 222-259): a map task
writes each bucket with one `enc.Encode(&kv)` per pair, and a reduce task reads its files in
turn with `dec.Decode(&kv)` into a fresh `kv` until the first error.

* `encodeKeyValue kv` is what `Encode` writes for a `KeyValue`: the object of its two fields in
  declaration order, each string by `Json.encodeBody`, and a newline.
* `decodeKeyValue s` is one `Decode`, on any text: it skips whitespace and reads one value. An
  object's members come in any order, with whitespace between the tokens. Each key is matched
  to a field by its exact name, else by `foldName` (`fieldOf`). A string value is stored, a
  `null` value leaves the field as it is, and a value under a key that names no field is
  skipped whatever its type. A top-level `null` gives the zero pair. Any other value, and a
  value of another type in a field, is an `UnmarshalTypeError`. That error, a syntax error and
  `io.EOF` each end the loop, so each is `none`.
* `decodeAll` is the loop. Every value it reads takes a byte at least, so the length of the file
  is fuel enough.

Results:
* `decodeAll_writeToLocalFile`: reading a file gives back the pairs written to it, each string
  through `Utf8.replaceInvalid`; the pairs themselves when all their strings are valid UTF-8.
* `readFromLocalFile_writeToLocalFile`: so `readFromLocalFile` of a file `writeToLocalFile`
  wrote is its pairs through `replaceInvalid`, and the pairs themselves exactly when all their
  strings are valid UTF-8; `invalid_key_read_back`: the key `"\xff"` comes back as U+FFFD.
* `readFromLocalFile_valid`: whatever bytes the files hold, every pair a reduce task reads has
  a valid UTF-8 key and value.
-/

namespace LetsGo.Mr

open Json Utf8

/-! ## Writing one pair -/

/-- `encodeState.string(s, true)`: the string between quotes. -/
def quoted (s : GoString) : GoString := 34 :: (encodeBody s ++ [34])

/-- The text `Encode` writes before the key's string. -/
def keyField : GoString := GoString.ofString "\x7b\"Key\":"

/-- The text between the key's string and the value's. -/
def valueField : GoString := GoString.ofString ",\"Value\":"

/-- `enc.Encode(&kv)`: the object, then a newline. -/
def encodeKeyValue (kv : KeyValue) : GoString :=
  keyField ++ quoted kv.Key ++ valueField ++ quoted kv.Value ++ GoString.ofString "\x7d\n"

/-! ## Reading one pair -/

/-- The fields of `KeyValue`. -/
inductive Field where
  | Key
  | Value
  deriving DecidableEq, Repr

/-- `subv.SetString(s)`, where `subv` is the field `f` of `kv`. -/
def KeyValue.set (kv : KeyValue) : Field → GoString → KeyValue
  | .Key, s => { kv with Key := s }
  | .Value, s => { kv with Value := s }

/-- The field a member's key names, as `d.object` looks it up in `cachedTypeFields(KeyValue)`:
by exact name (`byExactName`), else by folded name (`byFoldedName`). -/
def fieldOf (key : GoString) : Option Field :=
  if key = GoString.ofString "Key" then some .Key
  else if key = GoString.ofString "Value" then some .Value
  else if foldName key = foldName (GoString.ofString "Key") then some .Key
  else if foldName key = foldName (GoString.ofString "Value") then some .Value
  else none

/-- A member's value, from the spaces after its colon, into the field `f` (`none`: the key names
no field): a string is stored (`literalStore`), `null` leaves the field as it is, and another
value is skipped where there is no field and is an `UnmarshalTypeError` where there is one. -/
def memberValue (fuel : Nat) (kv : KeyValue) : Option Field → GoString → Option (KeyValue × GoString)
  | none, s => (skipValue fuel 1 s).map fun rest => (kv, rest)
  | some f, s =>
    match skipSpace s with
    | b :: rest =>
      if b = 34 then (readString rest.length rest).map fun r => (kv.set f r.1, r.2)
      else (expect (GoString.ofString "null") (b :: rest)).map fun rest => (kv, rest)
    | [] => none

/-- The members of the top-level object into `kv` (`d.object`), from the spaces before a key:
the pair and what follows the closing brace. -/
def decodeMembers : Nat → KeyValue → GoString → Option (KeyValue × GoString)
  | 0, _, _ => none
  | fuel + 1, kv, s =>
    match skipSpace s with
    | b :: rest =>
      if b = 34 then do
        let (key, rest) ← readString rest.length rest
        let rest ← expect [58] (skipSpace rest)
        let (kv, rest) ← memberValue fuel kv (fieldOf key) rest
        let (more, rest) ← endValue 125 rest
        if more then decodeMembers fuel kv rest else some (kv, rest)
      else none
    | [] => none

/-- One `dec.Decode(&kv)` into a zero `kv`: the pair and what follows the value, or `none` where
`Decode` returns an error. -/
def decodeKeyValue (s : GoString) : Option (KeyValue × GoString) :=
  match skipSpace s with
  | b :: rest =>
    if b = 123 then
      if (skipSpace rest).head? = some 125 then some (⟨[], []⟩, (skipSpace rest).tail)
      else decodeMembers (rest.length + 1) ⟨[], []⟩ rest
    else (expect (GoString.ofString "null") (b :: rest)).map fun rest => (⟨[], []⟩, rest)
  | [] => none

/-! ## The file -/

/-- `writeToLocalFile(MapId, reduceId, kvs)`: the content of `mr-MapId-reduceId`. -/
def writeToLocalFile (kvs : List KeyValue) : GoString := kvs.flatMap encodeKeyValue

/-- The loop of `readFromLocalFile` over one file, for at most `fuel` values: `Decode` until
it fails. -/
def decodeAll : Nat → GoString → List KeyValue
  | 0, _ => []
  | fuel + 1, s =>
    match decodeKeyValue s with
    | some (kv, rest) => kv :: decodeAll fuel rest
    | none => []

/-- `readFromLocalFile(files)`: the pairs of each file in turn. -/
def readFromLocalFile (files : List GoString) : List KeyValue :=
  files.flatMap fun f => decodeAll f.length f

/-- A pair as it comes back: both strings through `replaceInvalid`. -/
def KeyValue.replaceInvalid (kv : KeyValue) : KeyValue :=
  ⟨Utf8.replaceInvalid kv.Key, Utf8.replaceInvalid kv.Value⟩

/-! ## Reading back -/

/-- The bytes of a written pair, with the two strings' bodies in view. -/
theorem encodeKeyValue_append (kv : KeyValue) (rest : GoString) :
    encodeKeyValue kv ++ rest = 123 :: 34 :: (GoString.ofString "Key" ++ 34 :: 58 :: 34 ::
      (encodeBody kv.Key ++ 34 :: 44 :: 34 :: (GoString.ofString "Value" ++ 34 :: 58 :: 34 ::
        (encodeBody kv.Value ++ 34 :: 125 :: 10 :: rest)))) := by
  simp only [encodeKeyValue, quoted, List.append_assoc, List.cons_append, List.singleton_append]
  rfl

/-- A member as `Encode` writes it, `"name":"s"` with a name that is its own encoding, is read
into the field the name names, and the object goes on as the bytes after it say. -/
theorem decodeMembers_member {name : GoString} {f : Field} (hname : encodeBody name = name)
    (hrep : replaceInvalid name = name) (hf : fieldOf name = some f) (kv : KeyValue)
    (s t : GoString) {more : Bool} {rest : GoString} (he : endValue 125 t = some (more, rest))
    (fuel : Nat) :
    decodeMembers (fuel + 1) kv (34 :: (name ++ 34 :: 58 :: 34 :: (encodeBody s ++ 34 :: t))) =
      if more then decodeMembers fuel (kv.set f (replaceInvalid s)) rest
      else some (kv.set f (replaceInvalid s), rest) := by
  have hkey := readString_encodeBody name (58 :: 34 :: (encodeBody s ++ 34 :: t))
    (show name.length < (name ++ 34 :: 58 :: 34 :: (encodeBody s ++ 34 :: t)).length by simp)
  rw [hname, hrep] at hkey
  have hval := readString_encodeBody s t (show s.length < (encodeBody s ++ 34 :: t).length by
    have := length_le_encodeBody s; simp; omega)
  simp only [decodeMembers, skipSpace_cons, show isSpace 34 = false from rfl,
    show isSpace 58 = false from rfl, Bool.false_eq_true, if_false, eq_self_iff_true, if_true,
    hkey, Option.bind_eq_bind, Option.some_bind, expect_singleton, hf, memberValue, hval,
    Option.map_some', he]

/-- One `Decode` after at most a newline reads back the next pair written. -/
theorem decodeKeyValue_encodeKeyValue (kv : KeyValue) (rest : GoString) {p : GoString}
    (hp : p = [] ∨ p = [10]) :
    decodeKeyValue (p ++ (encodeKeyValue kv ++ rest)) = some (kv.replaceInvalid, 10 :: rest) := by
  have hskip : skipSpace (p ++ (encodeKeyValue kv ++ rest)) = encodeKeyValue kv ++ rest := by
    rcases hp with rfl | rfl <;> rfl
  rw [decodeKeyValue, hskip, encodeKeyValue_append]
  simp only [skipSpace_cons, show isSpace 123 = false from rfl, show isSpace 34 = false from rfl,
    Bool.false_eq_true, if_false, eq_self_iff_true, if_true, List.head?_cons, Option.some.injEq,
    show ¬(34 : UInt8) = 125 by decide, List.length_cons]
  rw [decodeMembers_member rfl rfl (show fieldOf (GoString.ofString "Key") = some .Key from rfl)
      _ _ _ (endValue_comma _ _), if_pos rfl,
    decodeMembers_member rfl rfl (show fieldOf (GoString.ofString "Value") = some .Value from rfl)
      _ _ _ (endValue_brace _), if_neg Bool.false_ne_true]
  rfl

theorem encodeKeyValue_ne_nil (kv : KeyValue) : encodeKeyValue kv ≠ [] := by
  simp only [encodeKeyValue, List.append_assoc]
  exact List.append_ne_nil_of_left_ne_nil (by decide) _

/-- **Reading a file gives back what was written to it**, from any fuel of one turn per pair. -/
theorem decodeAll_writeToLocalFile (kvs : List KeyValue) {p : GoString}
    (hp : p = [] ∨ p = [10]) {fuel : Nat} (hf : kvs.length ≤ fuel) :
    decodeAll fuel (p ++ writeToLocalFile kvs) = kvs.map KeyValue.replaceInvalid := by
  induction kvs generalizing p fuel with
  | nil =>
    cases fuel with
    | zero => rfl
    | succ f => rcases hp with rfl | rfl <;> rfl
  | cons kv kvs ih =>
    obtain ⟨f, rfl⟩ : ∃ f, fuel = f + 1 := ⟨fuel - 1, by simp at hf; omega⟩
    rw [writeToLocalFile, List.flatMap_cons, decodeAll, decodeKeyValue_encodeKeyValue kv _ hp]
    simp only [List.map_cons]
    exact congrArg _ (ih (p := [10]) (Or.inr rfl) (by simp at hf; omega))

theorem length_le_writeToLocalFile (kvs : List KeyValue) :
    kvs.length ≤ (writeToLocalFile kvs).length := by
  induction kvs with
  | nil => rfl
  | cons kv kvs ih =>
    have := List.length_pos.mpr (encodeKeyValue_ne_nil kv)
    simp only [writeToLocalFile, List.flatMap_cons, List.length_append, List.length_cons] at ih ⊢
    omega

/-- `readFromLocalFile` on files that `writeToLocalFile` wrote. -/
theorem readFromLocalFile_write (buckets : List (List KeyValue)) :
    readFromLocalFile (buckets.map writeToLocalFile) =
      buckets.flatMap fun kvs => kvs.map KeyValue.replaceInvalid := by
  simp only [readFromLocalFile, List.flatMap_map]
  congr 1
  funext kvs
  exact decodeAll_writeToLocalFile kvs (p := []) (Or.inl rfl) (length_le_writeToLocalFile kvs)

/-- A pair comes back as itself exactly when both its strings are valid UTF-8. -/
theorem KeyValue.replaceInvalid_eq_self_iff (kv : KeyValue) :
    kv.replaceInvalid = kv ↔ validUTF8 kv.Key = true ∧ validUTF8 kv.Value = true := by
  constructor
  · intro h
    rw [← h]
    exact ⟨validUTF8_replaceInvalid kv.Key, validUTF8_replaceInvalid kv.Value⟩
  · rintro ⟨hk, hv⟩
    rw [KeyValue.replaceInvalid, replaceInvalid_of_valid hk, replaceInvalid_of_valid hv]

/-- **A file that `writeToLocalFile` wrote reads back as its pairs, each string through
`replaceInvalid`**: `readFromLocalFile` reads every pair and stops at the end of the file. It
gives back the pairs themselves exactly when all their strings are valid UTF-8. -/
theorem readFromLocalFile_writeToLocalFile (kvs : List KeyValue) :
    readFromLocalFile [writeToLocalFile kvs] = kvs.map KeyValue.replaceInvalid ∧
      (readFromLocalFile [writeToLocalFile kvs] = kvs ↔
        ∀ kv ∈ kvs, validUTF8 kv.Key = true ∧ validUTF8 kv.Value = true) := by
  have hread : readFromLocalFile [writeToLocalFile kvs] = kvs.map KeyValue.replaceInvalid := by
    simpa using readFromLocalFile_write [kvs]
  refine ⟨hread, ?_⟩
  rw [hread]
  calc kvs.map KeyValue.replaceInvalid = kvs
      ↔ kvs.map KeyValue.replaceInvalid = kvs.map fun kv => kv := by rw [List.map_id']
    _ ↔ _ := List.map_inj_left.trans (forall₂_congr fun kv _ => kv.replaceInvalid_eq_self_iff)

/-- The one-byte key `0xFF`, written and read back, comes back as the bytes of U+FFFD. -/
theorem invalid_key_read_back :
    readFromLocalFile [writeToLocalFile [⟨[0xFF], [49]⟩]] = [⟨[0xEF, 0xBF, 0xBD], [49]⟩] ∧
      readFromLocalFile [writeToLocalFile [⟨[0xFF], [49]⟩]] ≠ [⟨[0xFF], [49]⟩] := by
  decide

/-! ## Whatever the files hold -/

/-- Both strings of a pair are valid UTF-8. -/
def KeyValue.Valid (kv : KeyValue) : Prop := validUTF8 kv.Key = true ∧ validUTF8 kv.Value = true

theorem KeyValue.Valid.set {kv : KeyValue} (hkv : kv.Valid) (f : Field) {s : GoString}
    (hs : validUTF8 s = true) : (kv.set f s).Valid := by
  cases f
  · exact ⟨hs, hkv.2⟩
  · exact ⟨hkv.1, hs⟩

/-- A member's value keeps a pair valid: what it stores is a string the decoder read. -/
theorem memberValue_valid {fuel : Nat} {kv kv' : KeyValue} {f : Option Field} {s rest : GoString}
    (h : memberValue fuel kv f s = some (kv', rest)) (hkv : kv.Valid) : kv'.Valid := by
  cases f with
  | none =>
    obtain ⟨_, -, he⟩ := Option.map_eq_some'.1 h
    cases he
    exact hkv
  | some f =>
    simp only [memberValue] at h
    split at h
    · split_ifs at h
      · obtain ⟨⟨v, r⟩, hv, he⟩ := Option.map_eq_some'.1 h
        cases he
        exact hkv.set f (readString_valid hv)
      · obtain ⟨_, -, he⟩ := Option.map_eq_some'.1 h
        cases he
        exact hkv
    · cases h

/-- The members of an object keep a pair valid. -/
theorem decodeMembers_valid : ∀ {fuel : Nat} {kv kv' : KeyValue} {s rest : GoString},
    decodeMembers fuel kv s = some (kv', rest) → kv.Valid → kv'.Valid
  | 0, _, _, _, _, h, _ => nomatch h
  | fuel + 1, kv, kv', s, rest, h, hkv => by
    simp only [decodeMembers] at h
    split at h
    · split_ifs at h
      simp only [Option.bind_eq_bind, Option.bind_eq_some] at h
      obtain ⟨⟨key, r₁⟩, -, r₂, -, ⟨kv₁, r₃⟩, hm, ⟨more, r₄⟩, -, hrest⟩ := h
      have hkv₁ := memberValue_valid hm hkv
      split at hrest
      · exact decodeMembers_valid hrest hkv₁
      · cases hrest
        exact hkv₁
    · cases h

/-- A pair one `Decode` reads has valid UTF-8 strings. -/
theorem decodeKeyValue_valid {s rest : GoString} {kv : KeyValue}
    (h : decodeKeyValue s = some (kv, rest)) : kv.Valid := by
  have h₀ : KeyValue.Valid ⟨[], []⟩ := ⟨rfl, rfl⟩
  simp only [decodeKeyValue] at h
  split at h
  · split_ifs at h
    · cases h
      exact h₀
    · exact decodeMembers_valid h h₀
    · obtain ⟨_, -, he⟩ := Option.map_eq_some'.1 h
      cases he
      exact h₀
  · cases h

theorem decodeAll_valid : ∀ {fuel : Nat} {s : GoString}, ∀ kv ∈ decodeAll fuel s, kv.Valid
  | 0, _, _, h => nomatch h
  | fuel + 1, s, kv, h => by
    rw [decodeAll] at h
    split at h
    · rcases List.mem_cons.1 h with rfl | h
      · exact decodeKeyValue_valid ‹_›
      · exact decodeAll_valid kv h
    · nomatch h

/-- **Every pair a reduce task reads is valid UTF-8**, whatever bytes its files hold: where a
string of a file is not, each byte that starts no valid sequence comes back as `RuneError`. -/
theorem readFromLocalFile_valid (files : List GoString) :
    ∀ kv ∈ readFromLocalFile files, validUTF8 kv.Key = true ∧ validUTF8 kv.Value = true := by
  intro kv hkv
  obtain ⟨f, -, hf⟩ := List.mem_flatMap.1 hkv
  exact decodeAll_valid kv hf

/-- A file `Encode` did not write: spaces between the tokens, a key in lower case, a key with
the Kelvin sign for its `K`, a member that names no field, a top-level `null`, and then a number
in the `Key` field, where the loop stops. -/
example : readFromLocalFile [GoString.ofString ("\x7b \"value\" : \"b\", \"extra\": " ++
    "[1.5e3, \x7b\"x\": null\x7d], \"\u212Aey\": \"a\" \x7d\nnull \x7b\"Key\": 1\x7d \x7b\"Key\":\"c\"\x7d")] =
    [⟨GoString.ofString "a", GoString.ofString "b"⟩, ⟨[], []⟩] := by
  decide

/-- `readFromLocalFile_valid` on a file whose key holds the byte `0xFF`. -/
theorem readFromLocalFile_valid_ff :
    (⟨[0xEF, 0xBF, 0xBD], [49]⟩ : KeyValue) ∈ readFromLocalFile
        [keyField ++ [34, 0xFF, 34] ++ valueField ++ [34, 49, 34] ++ GoString.ofString "\x7d\n"] ∧
      validUTF8 [0xEF, 0xBF, 0xBD] = true ∧ validUTF8 [49] = true :=
  have h : (⟨[0xEF, 0xBF, 0xBD], [49]⟩ : KeyValue) ∈ readFromLocalFile
      [keyField ++ [34, 0xFF, 34] ++ valueField ++ [34, 49, 34] ++ GoString.ofString "\x7d\n"] := by
    decide
  ⟨h, readFromLocalFile_valid _ _ h⟩

end LetsGo.Mr
