import Mathlib
import LetsGo.GoString

/-!
# Go's `path.Clean` and `path.Join`

`Static` (`src/unnamed/part_002`, lines 150-155) and `createStaticHandler` (lines 120-137) build
the paths they register and strip with `path.Join`, which joins its arguments with slashes and
hands the result to `path.Clean`. This file models both as the Go library writes them
(`path/path.go`):

* `Clean` reads `path` once, left to right, and writes its result into a `lazybuf`, which only
  copies the input once the output first differs from it (`lazybuf.append`). An `..` element
  moves the write index back to the previous slash (`lazybuf.retreat`), never below `dotdot`:
  the leading slash, or the leading `../..` of an unrooted path.
* The read index `r` is the rest of the input, `path[r:]`, on which `cleanLoop` recurses; the
  inner loop that copies an element is `copyElem`.
* An index out of range panics in Go. `lazybuf.index` reads it as 0 and `lazybuf.append` writes
  nothing there; `Clean?` is the same code with those panics, as `none`.

The abstract model says what `Clean` is for. A path is the list of its elements, the texts
between its slashes. `Clean` drops the empty ones and `.`, lets each `..` remove the name before
it, keeps an `..` with nothing to remove only in an unrooted path, and writes what is left with
single slashes. A `Stack` is what is left so far, `push` takes one more element, `render` writes
a stack, and `cleanSpec` is the whole.

Results:
* `Clean_eq_spec`: `Clean` never panics (`Clean?` returns its result) and computes `cleanSpec`,
  for every path. `cleanLoop_sim` is its loop invariant: after each element the lazy buffer
  holds, as a plain buffer would, the rendering of the stack so far, and what is left to read
  leaves room for what is left to write, so every write stays below `len(s)`.
* `Clean_Clean`: cleaning is idempotent.
* `Clean_shape`: a cleaned path is never empty, starts with a slash exactly when the input does,
  has no empty, `.` or (when rooted) `..` element, and ends in a slash only when it is `/`.
* `Clean_Clean_append`: cleaning a non-empty first part before appending more changes nothing.
-/

namespace LetsGo.Path

/-- The byte `'/'`. -/
def slash : UInt8 := 47

/-- The byte `'.'`. -/
def dot : UInt8 := 46

/-! ## The code -/

/-- `lazybuf`: the input `s`, the copy `buf` made at the first byte where the output differs
from `s` (`nil` until then), and the write index `w`. -/
structure lazybuf where
  s : GoString
  buf : Option (List UInt8)
  w : Nat
  deriving DecidableEq, Repr

/-- `b.index(i)`. -/
def lazybuf.index (b : lazybuf) (i : Nat) : UInt8 :=
  match b.buf with
  | some buf => buf.getD i 0
  | none => b.s.getD i 0

/-- `b.append(c)`: while the output agrees with `s`, only `w` moves; at the first difference
`buf` becomes `make([]byte, len(b.s))` holding `s[:w]`. -/
def lazybuf.append (b : lazybuf) (c : UInt8) : lazybuf :=
  match b.buf with
  | none =>
    if b.s[b.w]? = some c then { b with w := b.w + 1 }
    else
      { b with
        buf := some ((b.s.take b.w ++ List.replicate (b.s.length - b.w) 0).set b.w c)
        w := b.w + 1 }
  | some buf => { b with buf := some (buf.set b.w c), w := b.w + 1 }

/-- `b.string()`. -/
def lazybuf.string (b : lazybuf) : GoString :=
  match b.buf with
  | none => b.s.take b.w
  | some buf => buf.take b.w

/-- `for out.w > dotdot && out.index(out.w) != '/' { out.w-- }`, from `out.w = w`. -/
def lazybuf.retreat (b : lazybuf) (dotdot : Nat) : Nat → Nat
  | 0 => 0
  | w + 1 => if dotdot < w + 1 ∧ b.index (w + 1) ≠ slash then b.retreat dotdot w else w + 1

/-- `r+1 == n || path[r+1] == '/'`, read on `path[r+1:]`: an element ends there. -/
def endsElem (rest : GoString) : Bool := rest.isEmpty || rest.head? == some slash

@[simp] theorem endsElem_nil : endsElem [] = true := rfl

@[simp] theorem endsElem_cons (c : UInt8) (rest : GoString) :
    endsElem (c :: rest) = decide (c = slash) := rfl

/-- The inner loop of the default case, `for ; r < n && path[r] != '/'; r++ { out.append(path[r]) }`:
the rest of the path after the element, and the buffer. -/
def copyElem : GoString → lazybuf → GoString × lazybuf
  | [], out => ([], out)
  | c :: rest, out => if c = slash then (c :: rest, out) else copyElem rest (out.append c)

theorem copyElem_length_le : ∀ (rest : GoString) (out : lazybuf),
    (copyElem rest out).1.length ≤ rest.length
  | [], _ => Nat.le_refl _
  | c :: rest, out => by
    rw [copyElem]
    split
    · exact Nat.le_refl _
    · exact Nat.le_succ_of_le (copyElem_length_le rest _)

theorem copyElem_length_lt {c : UInt8} (hc : c ≠ slash) (rest : GoString) (out : lazybuf) :
    (copyElem (c :: rest) out).1.length < (c :: rest).length := by
  rw [copyElem, if_neg hc]
  exact Nat.lt_succ_of_le (copyElem_length_le rest _)

theorem dropWhile_length_lt {c : UInt8} (hc : c ≠ slash) (rest : GoString) :
    ((c :: rest).dropWhile (· ≠ slash)).length < (c :: rest).length := by
  simpa [List.dropWhile_cons, hc] using Nat.lt_succ_of_le (List.dropWhile_suffix _).length_le

/-- The `..` case of the loop: back up to the last slash, or, in an unrooted path that cannot
back up, append `..` and move `dotdot` past it. -/
def dotDot (rooted : Bool) (out : lazybuf) (dotdot : Nat) : lazybuf × Nat :=
  if dotdot < out.w then ({ out with w := out.retreat dotdot (out.w - 1) }, dotdot)
  else if !rooted then
    let out := ((if 0 < out.w then out.append slash else out).append dot).append dot
    (out, out.w)
  else (out, dotdot)

/-- The loop of `Clean`, from `path[r:]`. -/
def cleanLoop (rooted : Bool) : GoString → lazybuf → Nat → lazybuf
  | [], out, _ => out
  | c :: rest, out, dotdot =>
    if c = slash then
      -- empty path element
      cleanLoop rooted rest out dotdot
    else if c = dot ∧ endsElem rest then
      -- . element
      cleanLoop rooted rest out dotdot
    else if c = dot ∧ rest.head? = some dot ∧ endsElem rest.tail then
      -- .. element: remove to last /
      let r := dotDot rooted out dotdot
      cleanLoop rooted rest.tail r.1 r.2
    else
      -- real path element: add slash if needed, then copy it
      let out := if out.w ≠ (if rooted then 1 else 0) then out.append slash else out
      let r := copyElem (c :: rest) out
      cleanLoop rooted r.1 r.2 dotdot
termination_by rest => rest.length
decreasing_by
  all_goals simp_wf
  all_goals first
    | omega
    | exact copyElem_length_lt ‹¬c = slash› rest _

/-- `path.Clean(path)`. -/
def Clean (path : GoString) : GoString :=
  if path.isEmpty then [dot]
  else
    let rooted : Bool := path.head? = some slash
    let out : lazybuf := { s := path, buf := none, w := 0 }
    let start : lazybuf × GoString × Nat :=
      if rooted then (out.append slash, path.drop 1, 1) else (out, path, 0)
    let out := cleanLoop rooted start.2.1 start.1 start.2.2
    -- Turn empty string into "."
    if out.w = 0 then [dot] else out.string

/-- `path.Join(elem...)`: `""` when every argument is empty; otherwise the arguments from the
first non-empty one on, joined with slashes, and cleaned. -/
def Join (elem : List GoString) : GoString :=
  if (elem.map List.length).sum = 0 then []
  else
    Clean (elem.foldl (fun buf e =>
      if 0 < buf.length ∨ e ≠ [] then (if 0 < buf.length then buf ++ [slash] else buf) ++ e
      else buf) [])

/-! ## Where Go panics

`b.append(c)` writes `b.buf[b.w]`, after slicing `b.s[:b.w]` into a new `buf` as long as `b.s`
when there is none yet, and `b.index(i)` reads `b.buf[i]` or `b.s[i]`: out of range, each panics.
`b.string()` slices `b.buf[:b.w]` or `b.s[:b.w]`, which panics where `w` is beyond it.
`lazybuf.append`, `lazybuf.index` and `lazybuf.string` above read such a case as writing nothing,
reading 0 and taking what there is. The functions below are `Clean` with its panics, as `none`. -/

/-- `b.append(c)`, `none` where it panics: `w` not below the length of `buf`, or of `s` while
there is no `buf`. -/
def lazybuf.append? (b : lazybuf) (c : UInt8) : Option lazybuf :=
  if b.w < (b.buf.getD b.s).length then some (b.append c) else none

/-- `b.string()`, `none` where its slice panics: `w` beyond the length of `buf`, or of `s` while
there is no `buf`. -/
def lazybuf.string? (b : lazybuf) : Option GoString :=
  if b.w ≤ (b.buf.getD b.s).length then some b.string else none

/-- `b.index(i)`, `none` where it panics. -/
def lazybuf.index? (b : lazybuf) (i : Nat) : Option UInt8 :=
  if i < (b.buf.getD b.s).length then some (b.index i) else none

/-- `for out.w > dotdot && out.index(out.w) != '/' { out.w-- }`, with `index`'s panic. -/
def lazybuf.retreat? (b : lazybuf) (dotdot : Nat) : Nat → Option Nat
  | 0 => some 0
  | w + 1 =>
    if dotdot < w + 1 then
      (b.index? (w + 1)).bind fun c => if c ≠ slash then b.retreat? dotdot w else some (w + 1)
    else some (w + 1)

/-- The `..` case with its panics; the unrooted case appends its bytes one by one. -/
def dotDot? (rooted : Bool) (out : lazybuf) (dotdot : Nat) : Option (lazybuf × Nat) :=
  if dotdot < out.w then
    (out.retreat? dotdot (out.w - 1)).map fun w => ({ out with w := w }, dotdot)
  else if !rooted then
    (((if 0 < out.w then [slash] else []) ++ [dot, dot]).foldlM lazybuf.append? out).map
      fun out => (out, out.w)
  else some (out, dotdot)

/-- The loop of `Clean` with its panics; the default case appends the slash, if one is needed,
and then the element's bytes, one by one. -/
def cleanLoop? (rooted : Bool) : GoString → lazybuf → Nat → Option lazybuf
  | [], out, _ => some out
  | c :: rest, out, dotdot =>
    if c = slash then cleanLoop? rooted rest out dotdot
    else if c = dot ∧ endsElem rest then cleanLoop? rooted rest out dotdot
    else if c = dot ∧ rest.head? = some dot ∧ endsElem rest.tail then
      (dotDot? rooted out dotdot).bind fun r => cleanLoop? rooted rest.tail r.1 r.2
    else
      let sep : GoString := if out.w ≠ (if rooted then 1 else 0) then [slash] else []
      ((sep ++ (c :: rest).takeWhile (· ≠ slash)).foldlM lazybuf.append? out).bind
        fun out => cleanLoop? rooted ((c :: rest).dropWhile (· ≠ slash)) out dotdot
termination_by rest => rest.length
decreasing_by
  all_goals simp_wf
  all_goals first
    | omega
    | simpa using dropWhile_length_lt ‹¬c = slash› rest

/-- `path.Clean(path)` with its panics. -/
def Clean? (path : GoString) : Option GoString :=
  if path.isEmpty then some [dot]
  else
    let rooted : Bool := path.head? = some slash
    let out : lazybuf := { s := path, buf := none, w := 0 }
    let start : Option (lazybuf × GoString × Nat) :=
      if rooted then (out.append? slash).map fun out => (out, path.drop 1, 1)
      else some (out, path, 0)
    (start.bind fun start => cleanLoop? rooted start.2.1 start.1 start.2.2).bind fun out =>
      if out.w = 0 then some [dot] else out.string?

/-! ## What `Clean` is for -/

/-- The elements of a path: the texts between its slashes, without the empty ones. -/
def elems (p : GoString) : List GoString := (split p slash).filter (· ≠ [])

/-- The element `..`. -/
def parent : GoString := [dot, dot]

/-- The elements `Clean` has kept: `ups` leading `..`, then `names`, the last one first. -/
structure Stack where
  names : List GoString
  ups : Nat
  deriving DecidableEq, Repr

/-- The elements of a stack, in the order of the path. -/
def Stack.toList (st : Stack) : List GoString := List.replicate st.ups parent ++ st.names.reverse

/-- One more element: `.` is dropped; `..` removes the last name, and where there is none it is
dropped from a rooted path and kept in an unrooted one; any other element is a name. -/
def push (rooted : Bool) (st : Stack) (e : GoString) : Stack :=
  if e = [dot] then st
  else if e = parent then
    match st.names with
    | _ :: names => { st with names := names }
    | [] => if rooted then st else { st with ups := st.ups + 1 }
  else { st with names := e :: st.names }

/-- The path a stack writes: a leading slash if rooted, then its elements with single slashes. -/
def render (rooted : Bool) (st : Stack) : GoString :=
  (if rooted then [slash] else []) ++ join st.toList slash

/-- Whether a path is rooted: it starts with a slash. -/
def rootedOf (path : GoString) : Bool := path.head? = some slash

/-- The stack the elements of a path reduce to. -/
def cleanStack (path : GoString) : Stack := (elems path).foldl (push (rootedOf path)) ⟨[], 0⟩

/-- What `Clean` computes: the stack of the path's elements, written back; `.` for nothing. -/
def cleanSpec (path : GoString) : GoString :=
  let out := render (rootedOf path) (cleanStack path)
  if out = [] then [dot] else out

/-- A name: an element that is neither empty, `.` nor `..`, and has no slash. -/
def IsName (e : GoString) : Prop := e ≠ [] ∧ slash ∉ e ∧ e ≠ [dot] ∧ e ≠ parent

/-- A stack `Clean` can reach: its names are names, and a rooted path keeps no `..`. -/
structure Stack.Wf (rooted : Bool) (st : Stack) : Prop where
  names : ∀ e ∈ st.names, IsName e
  ups : rooted = true → st.ups = 0

/-! ## The lazy buffer is a buffer -/

/-- The buffer as `Clean` keeps it: `w` within `s`, and `buf`, once made, as long as `s`. -/
structure lazybuf.Wf (b : lazybuf) : Prop where
  w_le : b.w ≤ b.s.length
  buf_length : ∀ buf, b.buf = some buf → buf.length = b.s.length

@[simp] theorem lazybuf.append_w (b : lazybuf) (c : UInt8) : (b.append c).w = b.w + 1 := by
  unfold lazybuf.append; split <;> (try split) <;> rfl

@[simp] theorem lazybuf.append_s (b : lazybuf) (c : UInt8) : (b.append c).s = b.s := by
  unfold lazybuf.append; split <;> (try split) <;> rfl

theorem take_succ_set : ∀ {l : List UInt8} {i : Nat}, i < l.length → ∀ c : UInt8,
    (l.set i c).take (i + 1) = l.take i ++ [c]
  | _ :: _, 0, _, _ => rfl
  | a :: l, i + 1, h, c => by
    simp [take_succ_set (Nat.lt_of_succ_lt_succ h) c]

theorem lazybuf.Wf.length_string {b : lazybuf} (hb : b.Wf) : b.string.length = b.w := by
  unfold lazybuf.string
  split
  · simp [hb.w_le]
  · rename_i buf h
    simp [hb.buf_length buf h, hb.w_le]

/-- Appending within `s` appends to the buffer's string, whichever way `append` goes. -/
theorem lazybuf.Wf.append {b : lazybuf} (hb : b.Wf) (hw : b.w < b.s.length) (c : UInt8) :
    (b.append c).Wf ∧ (b.append c).string = b.string ++ [c] := by
  unfold lazybuf.append lazybuf.string
  split
  · rename_i hbuf
    split
    · rename_i hs
      refine ⟨⟨by simp; omega, fun buf h => by simp [hbuf] at h⟩, ?_⟩
      simp [hbuf, List.take_succ, hs]
    · have hlen : (b.s.take b.w ++ List.replicate (b.s.length - b.w) 0).length = b.s.length := by
        simp; omega
      refine ⟨⟨by simp; omega, fun buf h => by cases h; simpa using hlen⟩, ?_⟩
      simp only [hbuf]
      rw [take_succ_set (by omega)]
      simp [hb.w_le]
  · rename_i buf hbuf
    have hlen := hb.buf_length buf hbuf
    refine ⟨⟨by simp; omega, fun buf' h => by cases h; simpa using hlen⟩, ?_⟩
    simp only [hbuf]
    rw [take_succ_set (by omega)]

/-- Below `w`, `index` reads the buffer's string. -/
theorem lazybuf.Wf.getElem?_string {b : lazybuf} (hb : b.Wf) {i : Nat} (hi : i < b.w) :
    b.string[i]? = some (b.index i) := by
  have hs : i < b.s.length := Nat.lt_of_lt_of_le hi hb.w_le
  cases hbuf : b.buf with
  | none =>
    simp [lazybuf.string, lazybuf.index, hbuf, List.getElem?_take_of_lt hi,
      List.getD_eq_getElem?_getD, hs]
  | some buf =>
    have : i < buf.length := by rw [hb.buf_length buf hbuf]; exact hs
    simp [lazybuf.string, lazybuf.index, hbuf, List.getElem?_take_of_lt hi,
      List.getD_eq_getElem?_getD, this]

/-- Moving `w` back keeps the start of the string. -/
theorem lazybuf.string_setW (b : lazybuf) {w : Nat} (h : w ≤ b.w) :
    { b with w := w }.string = b.string.take w := by
  cases hbuf : b.buf <;> simp [lazybuf.string, hbuf, List.take_take, Nat.min_eq_left h]

@[simp] theorem lazybuf.foldl_append_w : ∀ (l : GoString) (b : lazybuf),
    (l.foldl lazybuf.append b).w = b.w + l.length
  | [], _ => rfl
  | c :: l, b => by simp [lazybuf.foldl_append_w l]; omega

@[simp] theorem lazybuf.foldl_append_s : ∀ (l : GoString) (b : lazybuf),
    (l.foldl lazybuf.append b).s = b.s
  | [], _ => rfl
  | c :: l, b => by simp [lazybuf.foldl_append_s l]

theorem lazybuf.Wf.foldl_append : ∀ (l : GoString) {b : lazybuf}, b.Wf →
    b.w + l.length ≤ b.s.length →
      (l.foldl lazybuf.append b).Wf ∧ (l.foldl lazybuf.append b).string = b.string ++ l
  | [], _, hb, _ => ⟨hb, (List.append_nil _).symm⟩
  | c :: l, b, hb, hroom => by
    obtain ⟨hb', hs⟩ := hb.append (by simp at hroom; omega) c
    obtain ⟨hb'', hs'⟩ := lazybuf.Wf.foldl_append l hb' (by simp at hroom ⊢; omega)
    exact ⟨hb'', by rw [List.foldl_cons, hs', hs, List.append_assoc, List.singleton_append]⟩

theorem copyElem_eq : ∀ (rest : GoString) (out : lazybuf),
    copyElem rest out =
      (rest.dropWhile (· ≠ slash), (rest.takeWhile (· ≠ slash)).foldl lazybuf.append out)
  | [], _ => rfl
  | c :: rest, out => by
    rw [copyElem]
    by_cases hc : c = slash
    · simp [hc]
    · simp [hc, copyElem_eq rest]

/-- The backing-up loop stops at `base` when the bytes after it, up to where it starts, are not
slashes, and `base` is `dotdot` or holds a slash. -/
theorem lazybuf.retreat_eq (b : lazybuf) {dotdot base : Nat} (hle : dotdot ≤ base)
    (hbase : base = dotdot ∨ b.index base = slash) :
    ∀ j, (∀ i, base < i → i ≤ base + j → b.index i ≠ slash) → b.retreat dotdot (base + j) = base
  | 0, _ => by
    cases base with
    | zero => rfl
    | succ k =>
      rw [Nat.add_zero, lazybuf.retreat, if_neg]
      rintro ⟨hlt, hne⟩
      rcases hbase with h | h
      · omega
      · exact hne h
  | j + 1, h => by
    rw [← Nat.add_assoc, lazybuf.retreat, if_pos ⟨by omega, h _ (by omega) (Nat.le_refl _)⟩]
    exact lazybuf.retreat_eq b hle hbase j fun i h₁ h₂ => h i h₁ (by omega)

/-! ### Within `s`, nothing panics -/

theorem lazybuf.Wf.length_getD {b : lazybuf} (hb : b.Wf) : (b.buf.getD b.s).length = b.s.length := by
  cases h : b.buf with
  | none => rfl
  | some buf => exact hb.buf_length buf h

theorem lazybuf.Wf.append?_eq {b : lazybuf} (hb : b.Wf) (hw : b.w < b.s.length) (c : UInt8) :
    b.append? c = some (b.append c) := by
  rw [lazybuf.append?, if_pos (hb.length_getD ▸ hw)]

theorem lazybuf.Wf.string?_eq {b : lazybuf} (hb : b.Wf) : b.string? = some b.string := by
  rw [lazybuf.string?, if_pos (hb.length_getD ▸ hb.w_le)]

theorem lazybuf.Wf.foldlM_append?_eq : ∀ (l : GoString) {b : lazybuf}, b.Wf →
    b.w + l.length ≤ b.s.length → l.foldlM lazybuf.append? b = some (l.foldl lazybuf.append b)
  | [], _, _, _ => rfl
  | c :: l, b, hb, hroom => by
    simp only [List.length_cons] at hroom
    rw [List.foldlM_cons, hb.append?_eq (by omega) c]
    exact (hb.append (by omega) c).1.foldlM_append?_eq l (by simp; omega)

/-- The backing-up loop reads only below where it starts. -/
theorem lazybuf.Wf.retreat?_eq {b : lazybuf} (hb : b.Wf) (dotdot : Nat) :
    ∀ w, w < b.s.length → b.retreat? dotdot w = some (b.retreat dotdot w)
  | 0, _ => rfl
  | w + 1, hw => by
    have hi : b.index? (w + 1) = some (b.index (w + 1)) := by
      rw [lazybuf.index?, if_pos (hb.length_getD ▸ hw)]
    rw [lazybuf.retreat?, lazybuf.retreat]
    by_cases hlt : dotdot < w + 1
    · by_cases hc : b.index (w + 1) = slash
      · simp [hlt, hi, hc]
      · simpa [hlt, hi, hc] using hb.retreat?_eq dotdot w (by omega)
    · simp [hlt]

/-! ## Stacks and their rendering -/

@[simp] theorem join_nil : join [] slash = [] := rfl

theorem join_cons_cons (a b : GoString) (l : List GoString) :
    join (a :: b :: l) slash = a ++ slash :: join (b :: l) slash := by
  simp [join, List.intercalate]

theorem join_snoc (e : GoString) : ∀ l : List GoString,
    join (l ++ [e]) slash = join l slash ++ (if l = [] then [] else [slash]) ++ e
  | [] => by simp [join, List.intercalate]
  | [a] => by simp [join, List.intercalate]
  | a :: b :: l => by
    show join (a :: b :: (l ++ [e])) slash = _
    rw [join_cons_cons, ← List.cons_append, join_snoc e (b :: l), join_cons_cons]
    simp

theorem join_append : ∀ {xs : List GoString}, xs ≠ [] → ∀ {ys : List GoString}, ys ≠ [] →
    join (xs ++ ys) slash = join xs slash ++ slash :: join ys slash
  | [a], _, b :: l, _ => by simp [join, List.intercalate]
  | a :: b :: l, _, ys, hy => by
    rw [List.cons_append, List.cons_append, join_cons_cons, ← List.cons_append,
      join_append (List.cons_ne_nil b l) hy, join_cons_cons]
    simp

/-- Text written right before a joined list belongs to its first element. -/
theorem append_join_cons (a b : GoString) (l : List GoString) :
    a ++ join (b :: l) slash = join ((a ++ b) :: l) slash := by
  cases l with
  | nil => simp [join, List.intercalate]
  | cons c l => rw [join_cons_cons, join_cons_cons, List.append_assoc]

/-- Two joined lists written with nothing between them: the last element of the first is
glued to the first element of the second. -/
theorem join_snoc_append (qs : List GoString) (pn r : GoString) (rs : List GoString) :
    join (qs ++ [pn]) slash ++ join (r :: rs) slash = join (qs ++ (pn ++ r) :: rs) slash := by
  rcases eq_or_ne qs [] with rfl | hq
  · rw [List.nil_append, List.nil_append, ← append_join_cons]
    simp [join, List.intercalate]
  · rw [join_append hq (List.cons_ne_nil _ _), join_append hq (List.cons_ne_nil _ _),
      ← append_join_cons]
    simp [join, List.intercalate]

theorem toList_names_cons (e : GoString) (names : List GoString) (ups : Nat) :
    (⟨e :: names, ups⟩ : Stack).toList = (⟨names, ups⟩ : Stack).toList ++ [e] := by
  simp [Stack.toList]

theorem toList_ups_succ (ups : Nat) :
    (⟨[], ups + 1⟩ : Stack).toList = (⟨[], ups⟩ : Stack).toList ++ [parent] := by
  simp [Stack.toList, List.replicate_succ']

theorem toList_eq_nil {st : Stack} : st.toList = [] ↔ st.names = [] ∧ st.ups = 0 := by
  simp [Stack.toList, and_comm]

/-- A stack with one more element renders as the stack, a slash unless it is empty, and the
element. -/
theorem render_snoc (rooted : Bool) {st st' : Stack} {e : GoString}
    (h : st'.toList = st.toList ++ [e]) :
    render rooted st' = render rooted st ++ (if st.toList = [] then [] else [slash]) ++ e := by
  simp only [render, h, join_snoc, List.append_assoc]

theorem length_render_ups (rooted : Bool) : ∀ ups : Nat,
    (render rooted ⟨[], ups⟩).length =
      (if rooted then 1 else 0) + (if ups = 0 then 0 else 3 * ups - 1)
  | 0 => by cases rooted <;> rfl
  | ups + 1 => by
    rw [render_snoc rooted (toList_ups_succ ups)]
    have := length_render_ups rooted ups
    by_cases h : ups = 0
    · subst h; simp_all [toList_eq_nil, parent]
    · simp only [List.length_append, toList_eq_nil, h, Nat.add_one_ne_zero, and_false, if_false,
        parent] at this ⊢
      simp only [List.length_singleton, List.length_cons, List.length_nil]
      omega

/-- Each name lengthens the rendering. -/
theorem length_render_names (rooted : Bool) (ups : Nat) : ∀ names : List GoString,
    (∀ e ∈ names, e ≠ []) →
      (render rooted ⟨[], ups⟩).length + names.length ≤ (render rooted ⟨names, ups⟩).length
  | [], _ => Nat.le_refl _
  | e :: names, h => by
    rw [render_snoc rooted (toList_names_cons e names ups)]
    have := length_render_names rooted ups names fun x hx => h x (List.mem_cons_of_mem _ hx)
    have he : 0 < e.length := List.length_pos.2 (h e (List.mem_cons_self _ _))
    simp only [List.length_append, List.length_cons]
    omega

theorem IsName.ne_nil {e : GoString} (h : IsName e) : e ≠ [] := h.1

/-- The rendering of a reachable stack is as long as the bare root exactly when the stack is
empty. -/
theorem Stack.Wf.length_render_eq_base {rooted : Bool} {st : Stack} (hst : st.Wf rooted) :
    (render rooted st).length = (if rooted then 1 else 0) ↔ st.toList = [] := by
  obtain ⟨names, ups⟩ := st
  have h₁ := length_render_names rooted ups names fun e he => (hst.names e he).ne_nil
  have h₂ := length_render_ups rooted ups
  rw [toList_eq_nil]
  dsimp only at h₁ h₂ ⊢
  generalize (if rooted = true then 1 else 0) = base at h₂ ⊢
  constructor
  · intro h
    refine ⟨List.length_eq_zero.1 (by omega), Decidable.by_contra fun hu => ?_⟩
    rw [if_neg hu] at h₂
    omega
  · rintro ⟨rfl, rfl⟩
    simpa using h₂

theorem Stack.Wf.step {rooted : Bool} {st : Stack} (hst : st.Wf rooted) {e : GoString}
    (he : e ≠ [] ∧ slash ∉ e) : (push rooted st e).Wf rooted := by
  obtain ⟨names, ups⟩ := st
  unfold LetsGo.Path.push
  by_cases h₁ : e = [dot]
  · rw [if_pos h₁]; exact hst
  rw [if_neg h₁]
  by_cases h₂ : e = parent
  · rw [if_pos h₂]
    cases names with
    | cons _ names => exact ⟨fun x hx => hst.names x (List.mem_cons_of_mem _ hx), hst.ups⟩
    | nil =>
      cases rooted
      · exact ⟨hst.names, fun h => by cases h⟩
      · exact hst
  · rw [if_neg h₂]
    refine ⟨fun x hx => ?_, hst.ups⟩
    rcases List.mem_cons.1 hx with rfl | hx
    · exact ⟨he.1, he.2, h₁, h₂⟩
    · exact hst.names x hx

/-! ## The elements of a path -/

theorem split_slash_cons (r : GoString) : split (slash :: r) slash = [] :: split r slash := by
  simp [split, List.splitOn]

@[simp] theorem elems_nil : elems [] = [] := rfl

theorem elems_slash_cons (r : GoString) : elems (slash :: r) = elems r := by
  simp [elems, split_slash_cons]

/-- A name followed by the end of the path or a slash is the first element. -/
theorem elems_append {t : GoString} (ht : t ≠ []) (hs : slash ∉ t) {d : GoString}
    (hd : endsElem d = true) : elems (t ++ d) = t :: elems d := by
  have hnt : ∀ x ∈ t, ¬(x == slash) = true := fun x hx h => hs (by rwa [beq_iff_eq.1 h] at hx)
  match d, hd with
  | [], _ =>
    simp [elems, split, List.splitOn, List.splitOnP_eq_single _ _ hnt, ht]
  | c :: d, hd =>
    obtain rfl : c = slash := by simpa using hd
    simp [elems, split, List.splitOn, List.splitOnP_first _ _ hnt slash (by simp), ht]

theorem endsElem_dropWhile : ∀ r : GoString, endsElem (r.dropWhile (· ≠ slash)) = true
  | [] => rfl
  | c :: r => by
    by_cases hc : c = slash
    · simp [hc]
    · rw [List.dropWhile_cons_of_pos (by simpa using hc)]
      exact endsElem_dropWhile r

theorem endsElem_of_takeWhile_eq_nil : ∀ {r : GoString}, r.takeWhile (· ≠ slash) = [] →
    endsElem r = true
  | [], _ => rfl
  | c :: _, h => by
    by_cases hc : c = slash
    · simp [hc]
    · simp [hc] at h

/-- In the default case of the loop, the element it copies is a name. -/
theorem isName_takeWhile {c : UInt8} {r : GoString} (hc : c ≠ slash)
    (h₁ : ¬(c = dot ∧ endsElem r = true))
    (h₂ : ¬(c = dot ∧ r.head? = some dot ∧ endsElem r.tail = true)) :
    IsName ((c :: r).takeWhile (· ≠ slash)) := by
  rw [List.takeWhile_cons_of_pos (by simpa using hc)]
  refine ⟨List.cons_ne_nil _ _, fun hm => ?_, fun he => ?_, fun he => ?_⟩
  · rcases List.mem_cons.1 hm with h | h
    · exact hc h.symm
    · simpa using List.mem_takeWhile_imp h
  · obtain ⟨rfl, ht⟩ := List.cons_eq_cons.1 he
    exact h₁ ⟨rfl, endsElem_of_takeWhile_eq_nil ht⟩
  · obtain ⟨rfl, ht⟩ := List.cons_eq_cons.1 he
    match r, ht with
    | d :: r, ht =>
      have hd : d ≠ slash := fun h => by simp [h] at ht
      rw [List.takeWhile_cons_of_pos (by simpa using hd)] at ht
      obtain ⟨rfl, ht'⟩ := List.cons_eq_cons.1 ht
      exact h₂ ⟨rfl, rfl, endsElem_of_takeWhile_eq_nil ht'⟩

/-! ## The loop writes the rendering of the stack -/

/-- The invariant of the loop at `path[r:] = rest`, with the stack `st` of the elements read:
the buffer holds the stack's rendering, `dotdot` is the length of its leading `..`s, and what is
left to read leaves room for what is left to write, the slash before a next name included. -/
structure LoopInv (rooted : Bool) (rest : GoString) (out : lazybuf) (dotdot : Nat) (st : Stack) :
    Prop where
  wf : out.Wf
  stack : st.Wf rooted
  string : out.string = render rooted st
  dotdot : dotdot = (render rooted ⟨[], st.ups⟩).length
  room : out.w + rest.length +
    (if out.w ≠ (if rooted then 1 else 0) ∧ endsElem rest = false then 1 else 0) ≤ out.s.length

section LoopInv

variable {rooted : Bool} {rest : GoString} {out : lazybuf} {dotdot : Nat} {st : Stack}

theorem LoopInv.w_eq (h : LoopInv rooted rest out dotdot st) :
    out.w = (render rooted st).length := by
  rw [← h.string, h.wf.length_string]

/-- Reading bytes that write nothing: a slash, or a `.` element. -/
theorem LoopInv.skip (h : LoopInv rooted rest out dotdot st) {r : GoString}
    (hr : r.length + 1 ≤ rest.length) : LoopInv rooted r out dotdot st :=
  { h with room := by have := h.room; split_ifs at this ⊢ <;> omega }

/-- Before a name, the room left: its bytes, and a slash if the stack is not empty. -/
theorem LoopInv.room_cons {c : UInt8} (h : LoopInv rooted (c :: rest) out dotdot st)
    (hc : c ≠ slash) :
    out.w + rest.length + 1 ≤ out.s.length ∧
      (out.w ≠ (if rooted then 1 else 0) → out.w + rest.length + 2 ≤ out.s.length) := by
  have := h.room
  simp only [endsElem_cons, hc, decide_False, and_true, List.length_cons] at this
  constructor
  · split_ifs at this <;> omega
  · intro hne; rw [if_pos hne] at this; omega

theorem dot_ne_slash : dot ≠ slash := by decide

/-- The `..` case, when there is a name to remove. -/
theorem LoopInv.dotDot_pop {r e : GoString} {names : List GoString} {ups : Nat}
    (h : LoopInv rooted (dot :: dot :: r) out dotdot ⟨e :: names, ups⟩) (hr : endsElem r = true) :
    LoopInv rooted r (dotDot rooted out dotdot).1 (dotDot rooted out dotdot).2 ⟨names, ups⟩ := by
  have he : IsName e := h.stack.names e (List.mem_cons_self _ _)
  have hroom := (h.room_cons dot_ne_slash).1
  simp only [List.length_cons] at hroom
  have hdd := h.dotdot
  have hw := h.w_eq
  have hstr := h.string
  have hlen := length_render_names rooted ups names fun x hx =>
    (h.stack.names x (List.mem_cons_of_mem _ hx)).ne_nil
  dsimp only at hdd
  rw [render_snoc rooted (toList_names_cons e names ups)] at hstr hw
  generalize hR : render rooted ⟨names, ups⟩ = R at hstr hw hlen
  generalize hsep : (if (⟨names, ups⟩ : Stack).toList = [] then [] else [slash]) = sep at hstr hw
  have hsep₁ : sep.length ≤ 1 := by rw [← hsep]; split <;> simp
  have he₀ : 0 < e.length := List.length_pos.2 he.ne_nil
  simp only [List.length_append] at hw
  -- the bytes after the last slash are `e`'s, and the loop stops at that slash
  have hnot : ∀ i, R.length < i → i ≤ R.length + (sep.length + e.length - 1) →
      out.index i ≠ slash := by
    intro i h₁ h₂ hi
    have hget := h.wf.getElem?_string (i := i) (by omega)
    rw [hstr, hi, List.append_assoc, ← List.append_assoc,
      List.getElem?_append_right (by simp; omega)] at hget
    exact he.2.1 (List.getElem?_mem hget)
  have hbase : R.length = dotdot ∨ out.index R.length = slash := by
    by_cases hnil : (⟨names, ups⟩ : Stack).toList = []
    · obtain ⟨rfl, rfl⟩ := toList_eq_nil.1 hnil
      exact Or.inl (by rw [hdd, ← hR])
    · right
      rw [if_neg hnil] at hsep
      subst hsep
      have hget := h.wf.getElem?_string (i := R.length) (by simp at hw; omega)
      rw [hstr, List.append_assoc, List.getElem?_append_right (Nat.le_refl _)] at hget
      simpa using hget.symm
  have hret : out.retreat dotdot (out.w - 1) = R.length := by
    rw [show out.w - 1 = R.length + (sep.length + e.length - 1) by omega]
    exact out.retreat_eq (by omega) hbase _ hnot
  simp only [LetsGo.Path.dotDot, if_pos (show dotdot < out.w by omega), hret]
  refine ⟨⟨by simp [hret]; omega, h.wf.buf_length⟩,
    ⟨fun x hx => h.stack.names x (List.mem_cons_of_mem _ hx), h.stack.ups⟩, ?_, hdd, ?_⟩
  · rw [lazybuf.string_setW _ (by omega), hstr, ← hR, List.append_assoc, List.take_left]
  · simp [hr, hret]; omega

/-- The `..` case, when there is no name to remove. -/
theorem LoopInv.dotDot_up {r : GoString} {ups : Nat}
    (h : LoopInv rooted (dot :: dot :: r) out dotdot ⟨[], ups⟩) (hr : endsElem r = true) :
    LoopInv rooted r (dotDot rooted out dotdot).1 (dotDot rooted out dotdot).2
      (push rooted ⟨[], ups⟩ parent) := by
  have hroom := h.room_cons dot_ne_slash
  simp only [List.length_cons] at hroom
  have hdd := h.dotdot
  have hw := h.w_eq
  dsimp only at hdd
  cases rooted with
  | true =>
    obtain rfl : ups = 0 := h.stack.ups rfl
    have hpush : push true ⟨[], 0⟩ parent = ⟨[], 0⟩ := by simp [push, parent]
    simp only [LetsGo.Path.dotDot, if_neg (show ¬dotdot < out.w by omega), hpush]
    exact h.skip (by simp)
  | false =>
    have hpush : push false ⟨[], ups⟩ parent = ⟨[], ups + 1⟩ := by simp [push, parent]
    have hups := length_render_ups false ups
    simp only [Bool.false_eq_true, if_false, Nat.zero_add] at hups hroom
    have hstr : render false ⟨[], ups + 1⟩ =
        out.string ++ (if ups = 0 then [] else [slash]) ++ [dot, dot] := by
      rw [render_snoc false (toList_ups_succ ups), h.string]
      simp [toList_eq_nil, parent]
    have hwf' : (⟨[], ups + 1⟩ : Stack).Wf false := ⟨fun _ hx => by simp at hx, fun h => by cases h⟩
    simp only [LetsGo.Path.dotDot, if_neg (show ¬dotdot < out.w by omega), hpush,
      Bool.not_false, if_true]
    by_cases hw₀ : 0 < out.w
    · have hu : ups ≠ 0 := fun hu => by subst hu; rw [if_pos rfl] at hups; omega
      rw [if_neg hu] at hstr
      have := hroom.2 (by omega)
      obtain ⟨hwf, hs⟩ := h.wf.foldl_append [slash, dot, dot] (by simp; omega)
      simp only [List.foldl_cons, List.foldl_nil] at hwf hs
      simp only [if_pos hw₀]
      refine ⟨hwf, hwf', by rw [hs, hstr]; simp, by rw [← hwf.length_string, hs, hstr]; simp, ?_⟩
      simp [hr]; omega
    · have hu : ups = 0 := by by_contra hu; simp [hu] at hups; omega
      rw [if_pos hu] at hstr
      obtain ⟨hwf, hs⟩ := h.wf.foldl_append [dot, dot] (by simp; omega)
      simp only [List.foldl_cons, List.foldl_nil] at hwf hs
      simp only [if_neg hw₀]
      refine ⟨hwf, hwf', by rw [hs, hstr]; simp, by rw [← hwf.length_string, hs, hstr]; simp, ?_⟩
      simp [hr]; omega

/-- The `..` case. -/
theorem LoopInv.dotDot {r : GoString} (h : LoopInv rooted (dot :: dot :: r) out dotdot st)
    (hr : endsElem r = true) :
    LoopInv rooted r (dotDot rooted out dotdot).1 (dotDot rooted out dotdot).2
      (push rooted st parent) := by
  obtain ⟨names, ups⟩ := st
  cases names with
  | cons e names =>
    have hpush : push rooted ⟨e :: names, ups⟩ parent = ⟨names, ups⟩ := by simp [push, parent]
    rw [hpush]
    exact h.dotDot_pop hr
  | nil => exact h.dotDot_up hr

/-- The `..` case does not panic: it backs up from below `w`, and appends `/..` only where the
room left holds it. -/
theorem LoopInv.dotDot?_eq {r : GoString} (h : LoopInv rooted (dot :: dot :: r) out dotdot st) :
    dotDot? rooted out dotdot = some (Path.dotDot rooted out dotdot) := by
  have hroom := h.room_cons dot_ne_slash
  have hle := h.wf.w_le
  simp only [List.length_cons] at hroom
  unfold dotDot? Path.dotDot
  by_cases hlt : dotdot < out.w
  · rw [if_pos hlt, if_pos hlt, h.wf.retreat?_eq dotdot _ (by omega)]
    rfl
  · rw [if_neg hlt, if_neg hlt]
    cases rooted with
    | true => rfl
    | false =>
      rw [Bool.not_false, if_pos rfl, if_pos rfl]
      by_cases hw₀ : 0 < out.w
      · have := hroom.2 (by simp; omega)
        rw [if_pos hw₀, if_pos hw₀, h.wf.foldlM_append?_eq _ (by simp; omega)]
        rfl
      · rw [if_neg hw₀, if_neg hw₀, h.wf.foldlM_append?_eq _ (by simp; omega)]
        rfl

/-- The default case does not panic: the room left holds the slash and the name. -/
theorem LoopInv.copy?_eq {c : UInt8} {r : GoString} (h : LoopInv rooted (c :: r) out dotdot st)
    (hc : c ≠ slash) :
    ((if out.w ≠ (if rooted then 1 else 0) then [slash] else []) ++
        (c :: r).takeWhile (· ≠ slash)).foldlM lazybuf.append? out =
      some (copyElem (c :: r)
        (if out.w ≠ (if rooted then 1 else 0) then out.append slash else out)).2 := by
  have hroom := h.room_cons hc
  have ht : ((c :: r).takeWhile (· ≠ slash)).length ≤ r.length + 1 :=
    (List.takeWhile_prefix _).length_le
  rw [copyElem_eq, h.wf.foldlM_append?_eq, List.foldl_append]
  · split_ifs <;> rfl
  · rw [List.length_append]
    by_cases hne : out.w ≠ (if rooted then 1 else 0)
    · rw [if_pos hne, List.length_singleton]
      have := hroom.2 hne
      omega
    · rw [if_neg hne, List.length_nil]
      omega

/-- The slash the default case writes before a name, unless the stack is empty. -/
theorem LoopInv.sep {c : UInt8} {r : GoString} (h : LoopInv rooted (c :: r) out dotdot st)
    (hc : c ≠ slash) {out' : lazybuf}
    (hout : out' = if out.w ≠ (if rooted then 1 else 0) then out.append slash else out) :
    out'.Wf ∧ out'.string = render rooted st ++ (if st.toList = [] then [] else [slash]) ∧
      out'.w + r.length + 1 ≤ out'.s.length := by
  have hroom := h.room_cons hc
  have hbase := h.stack.length_render_eq_base
  rw [← h.w_eq] at hbase
  by_cases hnil : st.toList = []
  · rw [hout, if_neg (not_not.2 (hbase.2 hnil)), if_pos hnil, List.append_nil, h.string]
    exact ⟨h.wf, rfl, hroom.1⟩
  · have hne : out.w ≠ (if rooted then 1 else 0) := fun he => hnil (hbase.1 he)
    obtain ⟨hwf, hs⟩ := h.wf.append (by omega) slash
    rw [hout, if_pos hne, if_neg hnil, hs, h.string]
    have := hroom.2 hne
    exact ⟨hwf, rfl, by simp; omega⟩

/-- The default case: a name, after a slash unless the stack is empty. -/
theorem LoopInv.name {c : UInt8} {r : GoString} (h : LoopInv rooted (c :: r) out dotdot st)
    (hc : c ≠ slash) (hname : IsName ((c :: r).takeWhile (· ≠ slash))) {out' : lazybuf}
    (hout : out' = if out.w ≠ (if rooted then 1 else 0) then out.append slash else out) :
    LoopInv rooted (copyElem (c :: r) out').1 (copyElem (c :: r) out').2 dotdot
      (push rooted st ((c :: r).takeWhile (· ≠ slash))) := by
  obtain ⟨hwf', hs', hroom'⟩ := h.sep hc hout
  have hlen := congrArg List.length (List.takeWhile_append_dropWhile (· ≠ slash) (c :: r))
  have hd := endsElem_dropWhile (c :: r)
  rw [copyElem_eq]
  generalize (c :: r).takeWhile (· ≠ slash) = t at hname hlen ⊢
  generalize (c :: r).dropWhile (· ≠ slash) = d at hd hlen ⊢
  simp only [List.length_append, List.length_cons] at hlen
  obtain ⟨hwf, hs⟩ := hwf'.foldl_append t (by omega)
  obtain ⟨names, ups⟩ := st
  have hpush : push rooted ⟨names, ups⟩ t = ⟨t :: names, ups⟩ := by
    simp [push, hname.2.2.1, hname.2.2.2]
  rw [hpush]
  refine ⟨hwf, hpush ▸ h.stack.step ⟨hname.1, hname.2.1⟩, ?_, h.dotdot, ?_⟩
  · rw [hs, hs', render_snoc rooted (toList_names_cons t names ups)]
  · simp only [lazybuf.foldl_append_w, lazybuf.foldl_append_s, hd, Bool.true_eq_false, and_false,
      if_false, Nat.add_zero]
    omega

/-- **The loop writes the rendering of the stack**: from a state satisfying the invariant, the
buffer the loop ends with is well formed and holds the rendering of the stack after every
element of the rest of the path, and the loop gets there without a panic. -/
theorem cleanLoop_sim (rooted : Bool) (rest : GoString) (out : lazybuf) (dotdot : Nat)
    (st : Stack) (h : LoopInv rooted rest out dotdot st) :
    (cleanLoop rooted rest out dotdot).Wf ∧
      (cleanLoop rooted rest out dotdot).string =
        render rooted ((elems rest).foldl (push rooted) st) ∧
      cleanLoop? rooted rest out dotdot = some (cleanLoop rooted rest out dotdot) := by
  induction rest, out, dotdot using cleanLoop.induct rooted generalizing st with
  | case1 out _ =>
    rw [cleanLoop, cleanLoop?]
    exact ⟨h.wf, h.string, rfl⟩
  | case2 rest out dotdot ih =>
    rw [cleanLoop, cleanLoop?, if_pos rfl, if_pos rfl, elems_slash_cons]
    exact ih st (h.skip (by simp))
  | case3 c rest out dotdot hc hdot ih =>
    obtain ⟨rfl, hend⟩ := hdot
    have hpush : push rooted st [dot] = st := by simp [push]
    rw [cleanLoop, cleanLoop?, if_neg hc, if_neg hc, if_pos ⟨rfl, hend⟩, if_pos ⟨rfl, hend⟩,
      ← List.singleton_append, elems_append (by simp) (by simp [dot_ne_slash.symm]) hend,
      List.foldl_cons, hpush]
    exact ih st (h.skip (by simp))
  | case4 c rest out dotdot hc hdot hdd _ ih =>
    obtain ⟨rfl, hhead, hend⟩ := hdd
    obtain ⟨d, r, rfl⟩ : ∃ d r, rest = d :: r := by
      cases rest with
      | nil => cases hhead
      | cons d r => exact ⟨d, r, rfl⟩
    obtain rfl : d = dot := by simpa using hhead
    simp only [List.tail_cons] at hend ih
    rw [cleanLoop, cleanLoop?, if_neg hc, if_neg hc, if_neg hdot, if_neg hdot,
      if_pos ⟨rfl, hhead, hend⟩, if_pos ⟨rfl, hhead, hend⟩, h.dotDot?_eq, Option.some_bind]
    rw [show dot :: dot :: r = parent ++ r from rfl,
      elems_append (t := parent) (by simp [parent]) (by simp [parent, dot_ne_slash.symm]) hend,
      List.foldl_cons]
    exact ih (push rooted st parent) (h.dotDot hend)
  | case5 c rest out dotdot hc hdot hdd _ _ ih =>
    have hname := isName_takeWhile hc hdot hdd
    have helems : elems (c :: rest) = (c :: rest).takeWhile (· ≠ slash) ::
        elems ((c :: rest).dropWhile (· ≠ slash)) := by
      conv_lhs => rw [← List.takeWhile_append_dropWhile (· ≠ slash) (c :: rest)]
      exact elems_append hname.1 hname.2.1 (endsElem_dropWhile _)
    rw [cleanLoop, cleanLoop?, if_neg hc, if_neg hc, if_neg hdot, if_neg hdot, if_neg hdd,
      if_neg hdd, helems, List.foldl_cons]
    simp only [dite_eq_ite] at ih ⊢
    have hfst : (c :: rest).dropWhile (· ≠ slash) = (copyElem (c :: rest)
        (if out.w ≠ (if rooted then 1 else 0) then out.append slash else out)).1 := by
      rw [copyElem_eq]
    rw [h.copy?_eq hc, Option.some_bind, hfst]
    exact ih _ (h.name hc hname rfl)

end LoopInv

/-! ## `Clean` meets its specification -/

/-- Where the loop starts: after the leading slash of a rooted path, at the start of another. -/
theorem loopInv_start (c : UInt8) (rest : GoString) :
    LoopInv (decide (c = slash)) (if c = slash then rest else c :: rest)
      (if c = slash then ⟨c :: rest, none, 1⟩ else ⟨c :: rest, none, 0⟩)
      (if c = slash then 1 else 0) ⟨[], 0⟩ := by
  by_cases hc : c = slash
  · subst hc
    refine ⟨⟨by simp, by simp⟩, ⟨by simp, fun _ => rfl⟩, ?_, rfl, by simp; omega⟩
    simp [lazybuf.string, render, Stack.toList, join, List.intercalate]
  · simp only [hc, decide_False, if_false]
    refine ⟨⟨by simp, by simp⟩, ⟨by simp, fun h => by cases h⟩, ?_, rfl, by simp⟩
    simp [lazybuf.string, render, Stack.toList, join, List.intercalate]

/-- A rooted path's leading slash is already in place. -/
theorem start_append_slash (rest : GoString) :
    (⟨slash :: rest, none, 0⟩ : lazybuf).append slash = ⟨slash :: rest, none, 1⟩ := by
  simp [lazybuf.append]

/-- `Clean` writes the rendering of the stack its path's elements reduce to, or `.`. -/
theorem Clean_eq_render (path : GoString) :
    Clean path = if render (rootedOf path) (cleanStack path) = [] then [dot]
      else render (rootedOf path) (cleanStack path) := by
  cases path with
  | nil => rfl
  | cons c rest =>
    obtain ⟨hwf, hs, -⟩ := cleanLoop_sim _ _ _ _ _ (loopInv_start c rest)
    have hw := hwf.length_string
    rw [hs] at hw
    by_cases hc : c = slash
    · subst hc
      simp only [if_true, decide_True] at hs hw
      have hne : render true ((elems rest).foldl (push true) ⟨[], 0⟩) ≠ [] := by simp [render]
      simp only [Clean, List.isEmpty_cons, Bool.false_eq_true, if_false, cleanStack, rootedOf,
        decide_True, if_true, start_append_slash, List.head?_cons, List.drop_one, List.tail_cons, elems_slash_cons]
      rw [if_neg (by rw [← hw]; exact fun h => hne (List.length_eq_zero.1 h)), hs, if_neg hne]
    · simp only [hc, if_false, decide_False] at hs hw
      simp only [Clean, List.isEmpty_cons, cleanStack, rootedOf, hc, decide_False,
        Bool.false_eq_true, if_false, List.head?_cons, Option.some.injEq]
      rw [hs, ← hw]
      by_cases hnil : render false ((elems (c :: rest)).foldl (push false) ⟨[], 0⟩) = []
      · rw [if_pos (by rw [hnil]; rfl), if_pos hnil]
      · rw [if_neg (fun h => hnil (List.length_eq_zero.1 h)), if_neg hnil]

/-- The code with its panics returns what `Clean` computes: the loop starts within the path and
keeps its invariant. -/
theorem Clean?_eq (path : GoString) : Clean? path = some (Clean path) := by
  cases path with
  | nil => rfl
  | cons c rest =>
    obtain ⟨hwf, -, hloop⟩ := cleanLoop_sim _ _ _ _ _ (loopInv_start c rest)
    by_cases hc : c = slash
    · subst hc
      have happ : (⟨slash :: rest, none, 0⟩ : lazybuf).append? slash =
          some ⟨slash :: rest, none, 1⟩ := by
        simp [lazybuf.append?, start_append_slash]
      simp only [if_true, decide_True] at hwf hloop
      simp [Clean?, Clean, happ, start_append_slash, hloop, hwf.string?_eq, apply_ite some]
    · simp only [hc, if_false, decide_False] at hwf hloop
      simp [Clean?, Clean, hc, hloop, hwf.string?_eq, apply_ite some]

/-- **`Clean` never panics and computes its specification**, for every path: every `append` of
the loop writes below `len(s)`, every `index` reads below it and the final slice ends within it,
so the code with its panics returns, what it returns is `Clean`'s result, and the lazy byte loop
writes what the element stack says. -/
theorem Clean_eq_spec (path : GoString) :
    Clean? path = some (Clean path) ∧ Clean path = cleanSpec path :=
  ⟨Clean?_eq path, Clean_eq_render path⟩

/-! ## What follows from the specification -/

theorem not_mem_of_mem_split : ∀ (p : GoString), ∀ e ∈ split p slash, slash ∉ e
  | [], e, he => by simp [split] at he; simp [he]
  | c :: p, e, he => by
    have ih := not_mem_of_mem_split p
    simp only [split, List.splitOn, List.splitOnP_cons] at he ih
    split at he
    · rcases List.mem_cons.1 he with rfl | he
      · simp
      · exact ih e he
    · rename_i hc
      obtain ⟨x, xs, hx⟩ := List.exists_cons_of_ne_nil (List.splitOnP_ne_nil (· == slash) p)
      rw [hx] at he ih
      rcases List.mem_cons.1 he with rfl | he
      · rintro (_ | ⟨_, hm⟩)
        · simp at hc
        · exact ih x (List.mem_cons_self _ _) hm
      · exact ih e (List.mem_cons_of_mem _ he)

theorem mem_elems {p e : GoString} (he : e ∈ elems p) : e ≠ [] ∧ slash ∉ e := by
  obtain ⟨hm, hne⟩ := List.mem_filter.1 he
  exact ⟨by simpa using hne, not_mem_of_mem_split p e hm⟩

theorem Stack.Wf.foldl_push {rooted : Bool} : ∀ {es : List GoString} {st : Stack}, st.Wf rooted →
    (∀ e ∈ es, e ≠ [] ∧ slash ∉ e) → (es.foldl (push rooted) st).Wf rooted
  | [], _, hst, _ => hst
  | e :: es, _, hst, he =>
    @Stack.Wf.foldl_push rooted es _ (hst.step (he e (List.mem_cons_self _ _)))
      fun x hx => he x (List.mem_cons_of_mem _ hx)

/-- The stack of every path is one `Clean` can reach. -/
theorem cleanStack_wf (p : GoString) : (cleanStack p).Wf (rootedOf p) :=
  Stack.Wf.foldl_push ⟨by simp, fun _ => rfl⟩ fun _ => mem_elems

theorem Stack.Wf.mem_toList {rooted : Bool} {st : Stack} (hst : st.Wf rooted) :
    ∀ e ∈ st.toList, e ≠ [] ∧ slash ∉ e := by
  intro e he
  rcases List.mem_append.1 he with he | he
  · rw [(List.mem_replicate.1 he).2]
    exact ⟨by simp [parent], by simp [parent, dot_ne_slash.symm]⟩
  · exact ⟨(hst.names e (List.mem_reverse.1 he)).1, (hst.names e (List.mem_reverse.1 he)).2.1⟩

/-- Reading back the elements of a rendering gives the stack's elements. -/
theorem Stack.Wf.elems_render {rooted : Bool} {st : Stack} (hst : st.Wf rooted) :
    elems (render rooted st) = st.toList := by
  have hjoin : elems (join st.toList slash) = st.toList := by
    by_cases hnil : st.toList = []
    · rw [hnil]; rfl
    · rw [elems, split, join,
        List.splitOn_intercalate _ _ (fun l hl => (hst.mem_toList l hl).2) hnil]
      exact List.filter_eq_self.2 fun l hl => by simpa using (hst.mem_toList l hl).1
  cases rooted
  · simpa [render] using hjoin
  · simpa [render, elems_slash_cons] using hjoin

theorem foldl_push_ups (k : Nat) : ∀ ups : Nat,
    (List.replicate ups parent).foldl (push false) ⟨[], k⟩ = ⟨[], k + ups⟩
  | 0 => rfl
  | ups + 1 => by
    rw [List.replicate_succ, List.foldl_cons,
      show push false ⟨[], k⟩ parent = ⟨[], k + 1⟩ by simp [push, parent],
      foldl_push_ups (k + 1) ups, Nat.add_right_comm, Nat.add_assoc]

theorem foldl_push_names (rooted : Bool) (ups : Nat) : ∀ (names ns : List GoString),
    (∀ e ∈ names, IsName e) → names.reverse.foldl (push rooted) ⟨ns, ups⟩ = ⟨names ++ ns, ups⟩
  | [], _, _ => rfl
  | e :: names, ns, h => by
    have he := h e (List.mem_cons_self _ _)
    rw [List.reverse_cons, List.foldl_append,
      foldl_push_names rooted ups names ns fun x hx => h x (List.mem_cons_of_mem _ hx)]
    simp [push, he.2.2.1, he.2.2.2]

/-- Pushing a stack's own elements onto the empty stack rebuilds it. -/
theorem Stack.Wf.foldl_toList {rooted : Bool} {st : Stack} (hst : st.Wf rooted) :
    st.toList.foldl (push rooted) ⟨[], 0⟩ = st := by
  obtain ⟨names, ups⟩ := st
  have hups : (List.replicate ups parent).foldl (push rooted) ⟨[], 0⟩ = ⟨[], ups⟩ := by
    cases rooted
    · simpa using foldl_push_ups 0 ups
    · obtain rfl : ups = 0 := hst.ups rfl
      rfl
  rw [Stack.toList, List.foldl_append, hups, foldl_push_names rooted ups names [] hst.names,
    List.append_nil]

theorem Stack.Wf.head?_render {rooted : Bool} {st : Stack} (hst : st.Wf rooted)
    (hne : render rooted st ≠ []) : (render rooted st).head? = some slash ↔ rooted = true := by
  cases rooted with
  | true => simp [render]
  | false =>
    simp only [render, Bool.false_eq_true, if_false, List.nil_append] at hne ⊢
    obtain ⟨a, l, hl⟩ := List.exists_cons_of_ne_nil (l := st.toList) fun h => hne (by rw [h]; rfl)
    have ha := hst.mem_toList a (hl ▸ List.mem_cons_self _ _)
    obtain ⟨c, a', rfl⟩ := List.exists_cons_of_ne_nil ha.1
    have hjoin : join st.toList slash = c :: (a' ++ if l = [] then [] else slash :: join l slash) := by
      rw [hl]
      cases l with
      | nil => simp [join, List.intercalate]
      | cons b l => rw [join_cons_cons]; simp
    rw [hjoin]
    simp only [List.head?_cons, Option.some.injEq, Bool.false_eq_true, iff_false]
    exact fun h => ha.2 (h ▸ List.mem_cons_self _ _)

theorem Clean_ne_nil (p : GoString) : Clean p ≠ [] := by
  rw [Clean_eq_render]
  split
  · exact List.cons_ne_nil _ _
  · assumption

/-- `Clean` of a path depends only on whether it is rooted and on its stack. -/
theorem Clean_congr {p q : GoString} (h₁ : rootedOf p = rootedOf q)
    (h₂ : cleanStack p = cleanStack q) : Clean p = Clean q := by
  rw [Clean_eq_render, Clean_eq_render, h₁, h₂]

theorem Stack.Wf.render_eq_nil {rooted : Bool} {st : Stack} (hst : st.Wf rooted)
    (h : render rooted st = []) : rooted = false ∧ st.toList = [] := by
  cases rooted with
  | true => simp [render] at h
  | false => exact ⟨rfl, hst.length_render_eq_base.1 (by simp [h])⟩

theorem rootedOf_Clean (p : GoString) : rootedOf (Clean p) = rootedOf p := by
  have hst := cleanStack_wf p
  rw [Clean_eq_render]
  split
  · rename_i hnil
    rw [(hst.render_eq_nil hnil).1]
    rfl
  · rename_i hne
    have := hst.head?_render hne
    cases h : rootedOf p <;> simp_all [rootedOf]

/-- A reachable stack with elements renders without a trailing slash. -/
theorem Stack.Wf.getLast?_render {rooted : Bool} {st : Stack} (hst : st.Wf rooted)
    (h : st.toList ≠ []) : (render rooted st).getLast? ≠ some slash := by
  have hlast := hst.mem_toList _ (List.getLast_mem h)
  rw [render, ← List.dropLast_append_getLast h, join_snoc, ← List.append_assoc,
    List.getLast?_append_of_ne_nil _ hlast.1, List.getLast?_eq_getLast _ hlast.1]
  exact fun he => hlast.2 (Option.some.inj he ▸ List.getLast_mem _)

/-- **The shape of a cleaned path**: it is never empty, starts with a slash exactly when the path
does, and ends with one only when it is `/`; it is `.`, or its elements are some `..`s (none
when rooted) followed by names, written with single slashes. -/
theorem Clean_shape (p : GoString) :
    Clean p ≠ [] ∧ ((Clean p).head? = some slash ↔ p.head? = some slash) ∧
      ((Clean p).getLast? = some slash → Clean p = [slash]) ∧
      (Clean p = [dot] ∨ ∃ k names, elems (Clean p) = List.replicate k parent ++ names ∧
        (∀ e ∈ names, IsName e) ∧ (p.head? = some slash → k = 0) ∧
        Clean p = (if p.head? = some slash then [slash] else []) ++ join (elems (Clean p)) slash) := by
  have hroot := rootedOf_Clean p
  simp only [rootedOf, decide_eq_decide] at hroot
  refine ⟨Clean_ne_nil p, hroot, ?_, ?_⟩
  all_goals
    have hst := cleanStack_wf p
    rw [Clean_eq_render]
    split
  · simp [dot_ne_slash]
  · rename_i hne
    intro hl
    by_cases ht : (cleanStack p).toList = []
    · cases hr : rootedOf p
      · exact absurd (by simp [render, hr, ht]) hne
      · simp [render, hr, ht]
    · exact absurd hl (hst.getLast?_render ht)
  · exact Or.inl rfl
  · rename_i hne
    refine Or.inr ⟨(cleanStack p).ups, (cleanStack p).names.reverse, hst.elems_render, ?_, ?_, ?_⟩
    · exact fun e he => hst.names e (List.mem_reverse.1 he)
    · exact fun h => hst.ups (by simp [rootedOf, h])
    · rw [hst.elems_render, render]
      simp [rootedOf]

theorem split_append_slash : ∀ (x b : GoString),
    split (x ++ slash :: b) slash = split x slash ++ split b slash
  | [], b => by rw [List.nil_append, split_slash_cons]; rfl
  | c :: x, b => by
    have ih := split_append_slash x b
    simp only [split, List.splitOn, List.cons_append, List.splitOnP_cons] at ih ⊢
    split
    · rw [ih]; rfl
    · obtain ⟨y, ys, hy⟩ := List.exists_cons_of_ne_nil (List.splitOnP_ne_nil (· == slash) x)
      rw [ih, hy]
      rfl

/-- The elements of two paths joined by a slash are those of the first, then the second's. -/
theorem elems_append_slash (x b : GoString) : elems (x ++ slash :: b) = elems x ++ elems b := by
  simp only [elems, split_append_slash, List.filter_append]

theorem rootedOf_append_slash {x : GoString} (hx : x ≠ []) (b : GoString) :
    rootedOf (x ++ slash :: b) = rootedOf x := by
  simp only [rootedOf, List.head?_append_of_ne_nil _ hx]

/-- Reading back the elements of `Clean p` rebuilds the stack of `p`. -/
theorem foldl_elems_Clean (p : GoString) :
    (elems (Clean p)).foldl (push (rootedOf p)) ⟨[], 0⟩ = cleanStack p := by
  have hst := cleanStack_wf p
  rw [Clean_eq_render]
  split
  · rename_i hnil
    obtain ⟨hr, ht⟩ := hst.render_eq_nil hnil
    obtain ⟨hn, hu⟩ := toList_eq_nil.1 ht
    rw [hr]
    have : cleanStack p = ⟨[], 0⟩ := by rw [← hn, ← hu]
    rw [this]
    decide
  · rw [hst.elems_render, hst.foldl_toList]

/-- **Cleaning a first part first changes nothing**: for a non-empty `a`, the clean path of
`a`, a slash and `b` is that of `Clean a`, a slash and `b`. -/
theorem Clean_Clean_append {a : GoString} (ha : a ≠ []) (b : GoString) :
    Clean (Clean a ++ slash :: b) = Clean (a ++ slash :: b) := by
  have hr : rootedOf (Clean a ++ slash :: b) = rootedOf (a ++ slash :: b) := by
    rw [rootedOf_append_slash (Clean_ne_nil a), rootedOf_append_slash ha, rootedOf_Clean]
  refine Clean_congr hr ?_
  rw [cleanStack, cleanStack, hr, rootedOf_append_slash ha, elems_append_slash, elems_append_slash,
    List.foldl_append, List.foldl_append, foldl_elems_Clean]
  rfl

/-- `Clean_Clean_append` at `a/..` and `b`. -/
theorem Clean_Clean_append_dotdot :
    GoString.ofString "a/.." ≠ [] ∧
      Clean (Clean (GoString.ofString "a/..") ++ slash :: GoString.ofString "b") =
        Clean (GoString.ofString "a/.." ++ slash :: GoString.ofString "b") :=
  ⟨by decide, Clean_Clean_append (by decide) _⟩

/-- `path.Join(a, b)` for a non-empty `b`. -/
theorem Join_pair (a : GoString) {b : GoString} (hb : b ≠ []) :
    Join [a, b] = Clean (if a = [] then b else a ++ slash :: b) := by
  have hlen : b.length ≠ 0 := fun h => hb (List.length_eq_zero.1 h)
  by_cases ha : a = []
  · subst ha
    simp [Join, hlen, hb]
  · have ha' : a.length ≠ 0 := fun h => ha (List.length_eq_zero.1 h)
    simp [Join, ha, hb, hlen, ha', List.length_pos.2 ha]

/-- The stack of a path whose elements are all names is its names. -/
theorem cleanStack_of_names {p : GoString} (h : ∀ e ∈ elems p, IsName e) :
    cleanStack p = ⟨(elems p).reverse, 0⟩ := by
  have := foldl_push_names (rootedOf p) 0 (elems p).reverse [] (fun e he => h e (List.mem_reverse.1 he))
  rwa [List.reverse_reverse, List.append_nil] at this

/-- Cleaning a non-empty path whose elements are names keeps its elements. -/
theorem elems_Clean_of_names {p : GoString} (h : ∀ e ∈ elems p, IsName e) (hp : p ≠ []) :
    elems (Clean p) = elems p := by
  have hst := cleanStack_wf p
  have htl : (cleanStack p).toList = elems p := by
    rw [cleanStack_of_names h]; simp [Stack.toList]
  rw [Clean_eq_render]
  split
  · rename_i hnil
    obtain ⟨hr, ht⟩ := hst.render_eq_nil hnil
    rw [htl] at ht
    obtain ⟨c, p', rfl⟩ := List.exists_cons_of_ne_nil hp
    have hc : decide (c ≠ slash) = true := by
      simpa using fun hc : c = slash => by simp [rootedOf, hc] at hr
    have := elems_append (t := (c :: p').takeWhile (· ≠ slash))
      (by rw [List.takeWhile_cons_of_pos (p := fun x => decide (x ≠ slash)) hc]
          exact List.cons_ne_nil _ _)
      (fun hm => by simpa using List.mem_takeWhile_imp hm) (endsElem_dropWhile (c :: p'))
    rw [List.takeWhile_append_dropWhile, ht] at this
    exact absurd this (List.cons_ne_nil _ _).symm
  · rw [hst.elems_render, htl]

/-- Cleaning a path keeps its stack. -/
theorem cleanStack_Clean (p : GoString) : cleanStack (Clean p) = cleanStack p := by
  rw [cleanStack, rootedOf_Clean, foldl_elems_Clean]

/-- **Cleaning is idempotent.** -/
theorem Clean_Clean (p : GoString) : Clean (Clean p) = Clean p :=
  Clean_congr (rootedOf_Clean p) (cleanStack_Clean p)

/-- A leading slash changes nothing in a rooted path. -/
theorem Clean_slash_cons {p : GoString} (hp : rootedOf p = true) : Clean (slash :: p) = Clean p :=
  Clean_congr (by rw [hp]; rfl) (by rw [cleanStack, cleanStack, elems_slash_cons, hp]; rfl)

/-- The elements of a cleaned rooted path are names: none is `..`. -/
theorem isName_of_mem_elems_Clean {p : GoString} (hp : rootedOf p = true) :
    ∀ x ∈ elems (Clean p), IsName x := by
  have hst := cleanStack_wf p
  rw [hp] at hst
  rw [Clean_eq_render, hp, if_neg (by simp [render]), hst.elems_render]
  intro x hx
  rw [Stack.toList, hst.ups rfl, List.replicate_zero, List.nil_append] at hx
  exact hst.names x (List.mem_reverse.1 hx)

/-- A rooted path whose elements are names cleans to them, with single slashes. -/
theorem Clean_of_names_rooted {p : GoString} (h : ∀ e ∈ elems p, IsName e)
    (hp : rootedOf p = true) : Clean p = slash :: join (elems p) slash := by
  rw [Clean_eq_render, hp, cleanStack_of_names h, if_neg (by simp [render])]
  simp [render, Stack.toList]

theorem join_ne_nil {e : GoString} (he : e ≠ []) (es : List GoString) : join (e :: es) slash ≠ [] := by
  cases es with
  | nil => simpa [join, List.intercalate] using he
  | cons b l => rw [join_cons_cons]; simp

theorem head?_join {e : GoString} (he : e ≠ []) (es : List GoString) :
    (join (e :: es) slash).head? = e.head? := by
  cases es with
  | nil => simp [join, List.intercalate]
  | cons b l => rw [join_cons_cons, List.head?_append_of_ne_nil _ he]

/-- Two names written together are a name. -/
theorem IsName.append {a b : GoString} (ha : IsName a) (hb : IsName b) : IsName (a ++ b) := by
  obtain ⟨x, a', rfl⟩ := List.exists_cons_of_ne_nil ha.1
  obtain ⟨y, b', rfl⟩ := List.exists_cons_of_ne_nil hb.1
  refine ⟨by simp, fun h => ?_, by simp, fun h => ?_⟩
  · rcases List.mem_append.1 h with h | h
    exacts [ha.2.1 h, hb.2.1 h]
  · have hl := congrArg List.length h
    simp only [parent, List.length_append, List.length_cons, List.length_nil] at hl
    obtain rfl : a' = [] := List.length_eq_zero.1 (by omega)
    obtain rfl : b' = [] := List.length_eq_zero.1 (by omega)
    simp only [parent, List.singleton_append, List.cons.injEq] at h
    exact ha.2.2.1 (by rw [h.1])

/-- `Clean` of a path with at least one element, all of them names: the elements joined, after
a slash if the path is rooted. -/
theorem Clean_of_names {p : GoString} (h : ∀ e ∈ elems p, IsName e) (hne : elems p ≠ []) :
    Clean p = (if rootedOf p then [slash] else []) ++ join (elems p) slash := by
  have hr : render (rootedOf p) (cleanStack p) =
      (if rootedOf p then [slash] else []) ++ join (elems p) slash := by
    simp [render, cleanStack_of_names h, Stack.toList]
  obtain ⟨e, es, he⟩ := List.exists_cons_of_ne_nil hne
  have hj : join (elems p) slash ≠ [] := by
    rw [he]; exact join_ne_nil (mem_elems (he ▸ List.mem_cons_self e es)).1 es
  rw [Clean_eq_render, hr, if_neg (by simp [hj])]

/-- Names written with single slashes are the elements of what is written. -/
theorem elems_join {ps : List GoString} (h : ∀ e ∈ ps, e ≠ [] ∧ slash ∉ e) :
    elems (join ps slash) = ps := by
  by_cases hnil : ps = []
  · rw [hnil]; rfl
  · rw [elems, split, join, List.splitOn_intercalate _ _ (fun l hl => (h l hl).2) hnil]
    exact List.filter_eq_self.2 fun l hl => by simpa using (h l hl).1

/-- Writing a path's elements with single slashes keeps them. -/
theorem elems_join_elems (p : GoString) : elems (join (elems p) slash) = elems p :=
  elems_join fun _ he => mem_elems he

end LetsGo.Path
