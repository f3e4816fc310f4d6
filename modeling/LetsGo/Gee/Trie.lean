import LetsGo.GoString

/-!
# The routing trie of `gee`

Model of `Node` (`src/Geektutu/Gee/main.go`, lines 71-135): `matchChild`, `matchChildren`,
`insert` and `search`, and of `parsePattern` (`src/unnamed/part_000`, lines 290-302), which
cuts both patterns and request paths into parts.

* `insert` changes a node in place through its `*Node`; here it returns the changed node, and a
  parent stores the changed child back in its `children`, at the index `matchChild` found.
* `insert(pattern, parts, height)` reads only `parts[height:]`, so `Node.insert` recurses on that
  suffix: `n.insert(pattern, parts, height)` is `n.insert pattern (parts.drop height)`.
* `search`'s loop over `n.matchChildren(part)` is `searchChildren`, which walks `n.children`
  and skips the children `matchChildren` would leave out (`searchChildren_eq`).
* `part[0]` of an empty part would panic; `parsePattern` never returns an empty part, and
  `isWildPart` reads an empty part as static.
-/

namespace LetsGo.Gee

/-- `Node`. -/
structure Node where
  pattern : GoString
  part : GoString
  children : List Node
  isWild : Bool
  deriving Repr

/-- The byte `'/'`. -/
def slash : UInt8 := 47

/-- The byte `':'`. -/
def colon : UInt8 := 58

/-- The byte `'*'`. -/
def star : UInt8 := 42

/-- `part[0] == ':' || part[0] == '*'`. -/
def isWildPart (part : GoString) : Bool :=
  part.head? = some colon || part.head? = some star

/-- The loop of `parsePattern` over the items of `strings.Split(pattern, "/")`: keep the
non-empty items, up to and including the first that starts with `'*'`. -/
def parseItems : List GoString → List GoString
  | [] => []
  | item :: rest =>
    if item.length > 0 then
      if item.head? = some star then [item] else item :: parseItems rest
    else parseItems rest

/-- `parsePattern`. -/
def parsePattern (pattern : GoString) : List GoString :=
  parseItems (split pattern slash)

/-- The empty node, `&Node{}`. -/
def Node.empty : Node := { pattern := [], part := [], children := [], isWild := false }

/-- `n.matchChild(part)`: the index of the first child whose part is `part`, or that is wild. -/
def Node.matchChild (n : Node) (part : GoString) : Option Nat :=
  n.children.findIdx? fun child => child.part = part || child.isWild

/-- `n.matchChildren(part)`. -/
def Node.matchChildren (n : Node) (part : GoString) : List Node :=
  n.children.filter fun child => child.part = part || child.isWild

/-- `n.insert(pattern, parts, height)`, by recursion on `parts[height:]`. -/
def Node.insert (n : Node) (pattern : GoString) : List GoString → Node
  | [] => { n with pattern := pattern }
  | part :: rest =>
    match n.matchChild part with
    | some i => { n with children := n.children.modify (·.insert pattern rest) i }
    | none =>
      { n with children := n.children ++
          [({ pattern := [], part := part, children := [], isWild := isWildPart part } :
              Node).insert pattern rest] }

mutual
/-- `n.search(parts, height)`. -/
def Node.search : Node → List GoString → Nat → Option Node
  | ⟨pattern, part, children, isWild⟩, parts, height =>
    if height = parts.length ∨ part.head? = some star then
      if pattern = [] then none else some ⟨pattern, part, children, isWild⟩
    else
      match parts[height]? with
      | some p => searchChildren children p parts height
      | none => none

/-- The loop of `search` over the children that match `part`, in order. -/
def searchChildren : List Node → GoString → List GoString → Nat → Option Node
  | [], _, _, _ => none
  | c :: cs, part, parts, height =>
    if c.part = part ∨ c.isWild = true then
      match c.search parts (height + 1) with
      | some res => some res
      | none => searchChildren cs part parts height
    else searchChildren cs part parts height
end

theorem searchChildren_eq (cs : List Node) (part : GoString) (parts : List GoString)
    (height : Nat) :
    searchChildren cs part parts height =
      (cs.filter fun child => child.part = part || child.isWild).findSome?
        (·.search parts (height + 1)) := by
  induction cs with
  | nil => simp [searchChildren]
  | cons c cs ih =>
    by_cases h : c.part = part ∨ c.isWild = true
    · have h' : (decide (c.part = part) || c.isWild) = true := by simpa using h
      rw [searchChildren, if_pos h]
      simp only [List.filter_cons, h', ite_true, List.findSome?_cons, ih]
      cases c.search parts (height + 1) <;> rfl
    · have h' : ¬ (decide (c.part = part) || c.isWild) = true := by simpa using h
      rw [searchChildren, if_neg h]
      simp only [List.filter_cons, h', ih]; rfl

/-- `search` loops over `n.matchChildren(part)`. -/
theorem Node.search_eq (n : Node) (parts : List GoString) (height : Nat) :
    n.search parts height =
      if height = parts.length ∨ n.part.head? = some star then
        if n.pattern = [] then none else some n
      else
        match parts[height]? with
        | some p => (n.matchChildren p).findSome? (·.search parts (height + 1))
        | none => none := by
  obtain ⟨pattern, part, children, isWild⟩ := n
  rw [Node.search]
  split_ifs <;> try rfl
  cases parts[height]? <;> simp [searchChildren_eq, Node.matchChildren]

@[simp] theorem Node.insert_part (n : Node) (pattern : GoString) (rest : List GoString) :
    (n.insert pattern rest).part = n.part := by
  cases rest with
  | nil => rfl
  | cons part rest => simp only [Node.insert]; split <;> rfl

@[simp] theorem Node.insert_isWild (n : Node) (pattern : GoString) (rest : List GoString) :
    (n.insert pattern rest).isWild = n.isWild := by
  cases rest with
  | nil => rfl
  | cons part rest => simp only [Node.insert]; split <;> rfl

/-- A property of every element of `l.modify f i`: of the untouched ones, and of `f` of the
one at `i`. -/
theorem forall_mem_modify {α : Type} {Q : α → Prop} {f : α → α} {i : Nat} {l : List α}
    (hold : ∀ j c, l[j]? = some c → j ≠ i → Q c) (hnew : ∀ c, l[i]? = some c → Q (f c)) :
    ∀ c ∈ l.modify f i, Q c := by
  intro c hc
  obtain ⟨j, hj⟩ := List.mem_iff_getElem?.1 hc
  rw [List.getElem?_modify] at hj
  by_cases hij : i = j
  · subst hij
    cases h : l[i]? <;> simp only [h, Option.map_eq_map, Option.map_none', Option.map_some',
      if_true, Option.some.injEq, reduceCtorEq] at hj
    exact hj ▸ hnew _ h
  · cases h : l[j]? <;> simp only [h, Option.map_eq_map, Option.map_none', Option.map_some',
      if_neg hij, Option.some.injEq, reduceCtorEq] at hj
    exact hj ▸ hold j _ h (Ne.symm hij)

/-- `modify` with a function that keeps `g` keeps the list's `g`s. -/
theorem map_modify {α β : Type} {g : α → β} {f : α → α} (hf : ∀ a, g (f a) = g a) (i : Nat)
    (l : List α) : (l.modify f i).map g = l.map g := by
  apply List.ext_getElem?
  intro j
  simp only [List.getElem?_map, List.getElem?_modify]
  cases l[j]? <;> simp only [Option.map_eq_map, Option.map_none', Option.map_some']
  split <;> simp [hf]

/-! ## The depth of a pattern

`getRoute` reads `searchParts[index]` for the parts of the pattern `search` found; those reads stay
in range because a node at depth `d` only ever receives a pattern of `d` parts. -/

/-- Below a node at depth `d`, every node that holds a pattern holds one of as many parts as its
depth. -/
inductive Node.Depth : Nat → Node → Prop
  | mk {d : Nat} {n : Node} (pattern : n.pattern ≠ [] → (parsePattern n.pattern).length = d)
      (children : ∀ c ∈ n.children, Node.Depth (d + 1) c) : Node.Depth d n

theorem Node.Depth.empty (d : Nat) (part : GoString) (isWild : Bool) :
    Node.Depth d { pattern := [], part := part, children := [], isWild := isWild } :=
  ⟨fun h => absurd rfl h, fun _ h => nomatch h⟩

/-- `insert` keeps the depths: it sets `pattern` as many levels down as it has parts. -/
theorem Node.Depth.insert {pattern : GoString} : ∀ {rest : List GoString} {d : Nat} {n : Node},
    n.Depth d → (parsePattern pattern).length = d + rest.length → (n.insert pattern rest).Depth d
  | [], _, _, ⟨_, hc⟩, hl => ⟨fun _ => by simpa using hl, hc⟩
  | part :: rest, d, n, ⟨hp, hc⟩, hl => by
    have hl' : (parsePattern pattern).length = d + 1 + rest.length := by
      simp only [List.length_cons] at hl; omega
    rw [Node.insert]
    split
    · exact ⟨hp, forall_mem_modify (fun _ c h _ => hc c (List.getElem?_mem h))
        fun c h => (hc c (List.getElem?_mem h)).insert hl'⟩
    · refine ⟨hp, fun c hm => ?_⟩
      rcases List.mem_append.1 hm with hm | hm
      · exact hc c hm
      · rw [List.mem_singleton.1 hm]
        exact (Node.Depth.empty _ _ _).insert hl'

/-- What `search` finds below a node at depth `height ≤ parts.length` holds a pattern of at most
`parts.length` parts. -/
theorem Node.Depth.search {parts : List GoString} {m : Node} {height : Nat} {n : Node}
    (hn : n.Depth height) (hh : height ≤ parts.length) (hs : n.search parts height = some m) :
    m.pattern ≠ [] ∧ (parsePattern m.pattern).length ≤ parts.length := by
  induction hn with
  | @mk d n hp hc ih =>
    rw [Node.search_eq] at hs
    split_ifs at hs with h₁ h₂
    · cases hs
      exact ⟨h₂, (hp h₂).symm ▸ hh⟩
    · split at hs
      · rename_i p hp'
        obtain ⟨c, hm, hc'⟩ := List.exists_of_findSome?_eq_some hs
        have hlt : d < parts.length := (List.getElem?_eq_some_iff.1 hp').1
        exact ih c (List.mem_filter.1 hm).1 hlt hc'
      · cases hs

end LetsGo.Gee
