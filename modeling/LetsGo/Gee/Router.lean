import LetsGo.Gee.Trie

/-!
# The router of `gee`

Model of `router` (`src/unnamed/part_000`, lines 278-365): `newRouter`, `addRoute`, `getRoute`
and `handle`, with the part of `Context` they read and write.

* `roots` and `handlers` are Go maps, here functions to `Option`; `addRoute` writes them with
  `Function.update`. `roots[method]` is a `*Node` that `insert` changes in place: here the new
  root is stored back under `method`.
* `params` is the `map[string]string` `getRoute` fills (`Params`). The loop over the parts of
  `n.pattern` is `bindParams`; where Go would index `searchParts` out of range and panic, it
  returns `none`, and `getRoute` returns `RouteResult.outOfRange`.
* A handler is an element of an arbitrary type `H`. `HandleFunc H` adds the two values `handle`
  can append besides a registered handler: its not-found closure, and `nil`, the zero value of
  a missing map entry.
* `handle` ends with `c.Next()`, which runs the chain; what the handlers do is left out, and
  `handle` returns the context whose chain `c.Next()` would run (`none` for a panic).

Results:
* `router.Depth.addRoute`: every registration keeps the depth invariant of the trie.
* `router.getRoute_ne_outOfRange`: under it, `getRoute` never indexes out of range, so `handle`
  always returns a context (`router.handle_isSome`).
-/

namespace LetsGo.Gee

/-- A `map[string]string`. -/
abbrev Params := GoString → Option GoString

/-- `router`, for handlers of type `H`. -/
structure router (H : Type) where
  roots : GoString → Option Node
  handlers : GoString → Option H

variable {H : Type}

/-- `newRouter()`. -/
def newRouter : router H := { roots := fun _ => none, handlers := fun _ => none }

/-- The byte `'-'`. -/
def dash : UInt8 := 45

/-- The key `method + "-" + pattern` of `router.handlers`. -/
def routeKey (method pattern : GoString) : GoString := method ++ [dash] ++ pattern

/-- `r.addRoute(method, pattern, handler)`. -/
def router.addRoute (r : router H) (method pattern : GoString) (handler : H) : router H :=
  let root := (r.roots method).getD Node.empty
  { roots := Function.update r.roots method (some (root.insert pattern (parsePattern pattern)))
    handlers := Function.update r.handlers (routeKey method pattern) (some handler) }

/-- The loop of `getRoute` over the parts of `n.pattern`, from `index` on; `none` where
`searchParts[index]` or `searchParts[index:]` would be out of range. -/
def bindParams (searchParts : List GoString) : List GoString → Nat → Params → Option Params
  | [], _, params => some params
  | part :: rest, index, params =>
    if part.head? = some colon then
      match searchParts[index]? with
      | some s => bindParams searchParts rest (index + 1) (Function.update params (part.drop 1) s)
      | none => none
    else if part.head? = some star ∧ part.length > 1 then
      if index ≤ searchParts.length then
        some (Function.update params (part.drop 1) (join (searchParts.drop index) slash))
      else none
    else bindParams searchParts rest (index + 1) params

/-- What `getRoute` returns: `(n, params)`, `(nil, nil)`, or a panic on an index out of range. -/
inductive RouteResult
  | found (n : Node) (params : Params)
  | notFound
  | outOfRange

/-- The node of a `getRoute` result; `none` where it returns `nil`. -/
def RouteResult.node? : RouteResult → Option Node
  | .found n _ => some n
  | _ => none

/-- `r.getRoute(method, path)`. -/
def router.getRoute (r : router H) (method path : GoString) : RouteResult :=
  let searchParts := parsePattern path
  match r.roots method with
  | none => .notFound
  | some root =>
    match root.search searchParts 0 with
    | none => .notFound
    | some n =>
      match bindParams searchParts (parsePattern n.pattern) 0 (fun _ => none) with
      | some params => .found n params
      | none => .outOfRange

/-- A `HandleFunc` value in a chain: a handler of the program, the not-found closure `handle`
builds, or `nil`. -/
inductive HandleFunc (H : Type)
  | fn (h : H)
  | notFound
  | nil
  deriving DecidableEq, Repr

/-- The fields of `Context` the router reads and writes. -/
structure Context (H : Type) where
  Method : GoString
  Path : GoString
  Params : Params
  handlers : List (HandleFunc H)

/-- `r.handle(c)`, up to its final `c.Next()`: the context whose chain that call runs, or `none`
where `getRoute` panics. -/
def router.handle (r : router H) (c : Context H) : Option (Context H) :=
  match r.getRoute c.Method c.Path with
  | .found n params =>
    some { c with
      Params := params
      handlers := c.handlers ++ [(r.handlers (routeKey c.Method n.pattern)).elim .nil .fn] }
  | .notFound => some { c with handlers := c.handlers ++ [.notFound] }
  | .outOfRange => none

/-- `handle` appends one handler to the chain. -/
theorem router.handle_handlers {r : router H} {c c' : Context H} (h : r.handle c = some c') :
    ∃ last, c'.handlers = c.handlers ++ [last] := by
  unfold router.handle at h
  split at h <;> cases h
  · exact ⟨_, rfl⟩
  · exact ⟨_, rfl⟩

/-! ## No index out of range -/

/-- Every root of the router satisfies the depth invariant. -/
def router.Depth (r : router H) : Prop := ∀ method root, r.roots method = some root → root.Depth 0

theorem newRouter_depth : (newRouter : router H).Depth := fun _ _ h => nomatch h

theorem router.Depth.addRoute {r : router H} (hr : r.Depth) (method pattern : GoString)
    (handler : H) : (r.addRoute method pattern handler).Depth := by
  intro m root h
  simp only [router.addRoute, Function.update_apply] at h
  split_ifs at h with hm
  · cases h
    have hroot : ((r.roots method).getD Node.empty).Depth 0 := by
      cases hr' : r.roots method with
      | none => exact Node.Depth.empty 0 [] false
      | some root => exact hr method root hr'
    exact hroot.insert (by simp)
  · exact hr m root h

/-- With `parts` no longer than what is left of `searchParts` after `index`, the loop of
`getRoute` stays in range. -/
theorem bindParams_isSome (searchParts : List GoString) :
    ∀ (parts : List GoString) (index : Nat) (params : Params),
      index + parts.length ≤ searchParts.length →
        (bindParams searchParts parts index params).isSome
  | [], _, _, _ => rfl
  | part :: rest, index, params, h => by
    simp only [List.length_cons] at h
    have hlt : index < searchParts.length := by omega
    rw [bindParams]
    split_ifs with h₁ h₂ h₃
    · rw [List.getElem?_eq_getElem hlt]
      exact bindParams_isSome searchParts rest _ _ (by omega)
    · rfl
    · omega
    · exact bindParams_isSome searchParts rest _ _ (by omega)

theorem router.getRoute_ne_outOfRange {r : router H} (hr : r.Depth) (method path : GoString) :
    r.getRoute method path ≠ .outOfRange := by
  unfold router.getRoute
  split
  · nofun
  · rename_i root hroot
    dsimp only
    split
    · nofun
    · rename_i n hn
      have hlen := ((hr method root hroot).search (Nat.zero_le _) hn).2
      obtain ⟨params, hp⟩ := Option.isSome_iff_exists.1
        (bindParams_isSome (parsePattern path) (parsePattern n.pattern) 0 (fun _ => none)
          (by omega))
      rw [hp]
      nofun

theorem router.handle_isSome {r : router H} (hr : r.Depth) (c : Context H) :
    (r.handle c).isSome := by
  unfold router.handle
  have := r.getRoute_ne_outOfRange hr c.Method c.Path
  split
  · rfl
  · rfl
  · contradiction

end LetsGo.Gee
