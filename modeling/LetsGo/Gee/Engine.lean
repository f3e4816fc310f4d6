import LetsGo.Gee.Router

/-!
# The engine of `gee`

Model of `Engine` and `RouterGroup` (`src/unnamed/part_002`, lines 12-117 and 171-185): `New`,
`Group`, `Use`, `addRoute`, `GET`, `POST` and `ServeHTTP`.

* A `*RouterGroup` is its index in `Engine.groups`: `New` puts `engine.RouterGroup` at index 0,
  and `Group` appends the new group, whose index is the length before. `parent` is the parent's
  index. A method called on an index that is no group of the engine would dereference a nil
  pointer; it returns `none`. The field `prefix` is `prefix_` (`prefix` is a keyword of Lean).
* `RouterGroup.engine` is the engine itself. `htmlTemplates`, `funcMap`, `Static` and the
  template functions are left out: no modelled function reads them.
* `newContext` is not in the sources; the context `ServeHTTP` builds starts with the request's
  method and path, no params and no handlers, as `ServeHTTP` and `router.handle` use it.
  `ServeHTTP` returns the context `router.handle` runs with `c.Next()`.
* `Call` is one call of the engine's API, and `Built` the engines a program builds from `New()`.

Results:
* `Built.wf`: in every engine the API builds, a parent comes before its child and a child's
  prefix extends its parent's (`Engine.WF`), and the trie satisfies the depth invariant.
* `chain_middlewares_sublist`: for a request whose path starts with a group's prefix, the chain
  holds the middlewares of the group and of its ancestors, the root first, before the handler.
* `double_slash_skips_middleware`: a path that reaches a group's route without starting with
  the group's prefix gets none of the group's middlewares.
-/

namespace LetsGo.Gee

variable {H : Type}

/-- `RouterGroup`: its `prefix`, its middlewares, and the index of its parent. -/
structure RouterGroup (H : Type) where
  prefix_ : GoString
  middlewares : List H
  parent : Option Nat
  deriving DecidableEq, Repr

/-- `Engine`: its router and its groups, `groups[0]` being `engine.RouterGroup`. -/
structure Engine (H : Type) where
  router : router H
  groups : List (RouterGroup H)

/-- `New()`. -/
def New : Engine H :=
  { router := newRouter, groups := [{ prefix_ := [], middlewares := [], parent := none }] }

/-- `g.Group(prefix)`: the engine with the new group appended, and the new group's index. -/
def Engine.Group (e : Engine H) (g : Nat) (pre : GoString) : Option (Engine H × Nat) :=
  e.groups[g]?.map fun group =>
    let newGroup : RouterGroup H :=
      { prefix_ := group.prefix_ ++ pre, middlewares := [], parent := some g }
    ({ e with groups := e.groups ++ [newGroup] }, e.groups.length)

/-- `g.Use(middlewares...)`. -/
def Engine.Use (e : Engine H) (g : Nat) (middlewares : List H) : Option (Engine H) :=
  e.groups[g]?.map fun group =>
    { e with
      groups := e.groups.set g { group with middlewares := group.middlewares ++ middlewares } }

/-- `g.addRoute(method, comp, handler)`. -/
def Engine.addRoute (e : Engine H) (g : Nat) (method comp : GoString) (handler : H) :
    Option (Engine H) :=
  e.groups[g]?.map fun group =>
    { e with router := e.router.addRoute method (group.prefix_ ++ comp) handler }

/-- `g.GET(pattern, handler)`. -/
def Engine.GET (e : Engine H) (g : Nat) (pattern : GoString) (handler : H) : Option (Engine H) :=
  e.addRoute g (GoString.ofString "GET") pattern handler

/-- `g.POST(pattern, handler)`. -/
def Engine.POST (e : Engine H) (g : Nat) (pattern : GoString) (handler : H) : Option (Engine H) :=
  e.addRoute g (GoString.ofString "POST") pattern handler

/-- The middlewares of the groups whose prefix starts `path`, in the order of `groups`. -/
def groupMiddlewares (groups : List (RouterGroup H)) (path : GoString) : List H :=
  groups.flatMap fun group => if hasPrefix path group.prefix_ then group.middlewares else []

/-- `e.ServeHTTP(w, req)` for a request with this method and path, up to `c.Next()`. -/
def Engine.ServeHTTP (e : Engine H) (method path : GoString) : Option (Context H) :=
  let c : Context H := { Method := method, Path := path, Params := fun _ => none, handlers := [] }
  e.router.handle { c with handlers := c.handlers ++ (groupMiddlewares e.groups path).map .fn }

/-! ## The engines a program builds -/

/-- One call of the engine's API, on the group at an index. -/
inductive Call (H : Type)
  | Group (g : Nat) (pre : GoString)
  | Use (g : Nat) (middlewares : List H)
  | GET (g : Nat) (pattern : GoString) (handler : H)
  | POST (g : Nat) (pattern : GoString) (handler : H)

/-- The engine after a call. -/
def Engine.call (e : Engine H) : Call H → Option (Engine H)
  | .Group g pre => (e.Group g pre).map Prod.fst
  | .Use g middlewares => e.Use g middlewares
  | .GET g pattern handler => e.GET g pattern handler
  | .POST g pattern handler => e.POST g pattern handler

/-- The engine after a program's calls, in order. -/
def Engine.run (e : Engine H) (calls : List (Call H)) : Option (Engine H) :=
  calls.foldlM Engine.call e

/-- The engines a program builds from `New()`. -/
inductive Built : Engine H → Prop
  | new : Built New
  | call {e e' : Engine H} (c : Call H) : Built e → e.call c = some e' → Built e'

theorem Built.run {e e' : Engine H} (he : Built e) :
    ∀ {calls : List (Call H)}, e.run calls = some e' → Built e'
  | [], h => by cases h; exact he
  | c :: calls, h => by
    simp only [Engine.run, List.foldlM_cons, Option.bind_eq_bind, Option.bind_eq_some] at h
    obtain ⟨e₁, h₁, h₂⟩ := h
    exact (he.call c h₁).run h₂

/-! ## Groups form a tree of prefixes -/

/-- What the invariant reads of a group: its prefix and its parent. -/
def RouterGroup.shape (group : RouterGroup H) : GoString × Option Nat :=
  (group.prefix_, group.parent)

/-- Each group's parent is an earlier group, whose prefix starts the child's. -/
abbrev ShapesWF (shapes : List (GoString × Option Nat)) : Prop :=
  ∀ (i : Nat) (s : GoString × Option Nat), shapes[i]? = some s → ∀ p, s.2 = some p →
    p < i ∧ ∃ ps : GoString × Option Nat, shapes[p]? = some ps ∧ ps.1 <+: s.1

/-- The invariant of a built engine. -/
structure Engine.WF (e : Engine H) : Prop where
  groups : ShapesWF (e.groups.map RouterGroup.shape)
  depth : e.router.Depth

theorem New_wf : (New : Engine H).WF where
  groups
    | 0, _, h, _, hp => by cases h; cases hp
  depth := newRouter_depth

/-- Appending a group whose parent is an earlier group with a prefix of its own. -/
theorem ShapesWF.append {shapes : List (GoString × Option Nat)} (hs : ShapesWF shapes)
    {s : GoString × Option Nat}
    (hp : ∀ p, s.2 = some p →
      p < shapes.length ∧ ∃ ps : GoString × Option Nat, shapes[p]? = some ps ∧ ps.1 <+: s.1) :
    ShapesWF (shapes ++ [s]) := by
  intro i t hi p hpt
  rcases Nat.lt_or_ge i shapes.length with hlt | hge
  · rw [List.getElem?_append_left hlt] at hi
    obtain ⟨hpi, ps, hps, hpre⟩ := hs i t hi p hpt
    exact ⟨hpi, ps, by rw [List.getElem?_append_left (by omega), hps], hpre⟩
  · rw [List.getElem?_append_right hge] at hi
    obtain ⟨hi₀, rfl⟩ := List.getElem?_eq_some_iff.1 hi
    rw [List.getElem_singleton] at hpt ⊢
    obtain ⟨hpl, ps, hps, hpre⟩ := hp p hpt
    exact ⟨by omega, ps, by rw [List.getElem?_append_left hpl, hps], hpre⟩

theorem Engine.WF.Group {e : Engine H} (he : e.WF) {g : Nat} {pre : GoString}
    {r : Engine H × Nat} (h : e.Group g pre = some r) : r.1.WF := by
  simp only [Engine.Group, Option.map_eq_some'] at h
  obtain ⟨group, hg, rfl⟩ := h
  refine ⟨?_, he.depth⟩
  rw [List.map_append, List.map_singleton]
  refine he.groups.append fun p hp => ?_
  cases hp
  have hlt : g < e.groups.length := (List.getElem?_eq_some_iff.1 hg).1
  exact ⟨by simpa using hlt, group.shape, by simp [hg], List.prefix_append _ _⟩

/-- `Use` changes the middlewares of a group and nothing else. -/
theorem map_shape_set {groups : List (RouterGroup H)} {g : Nat} {group : RouterGroup H}
    (hg : groups[g]? = some group) (middlewares : List H) :
    (groups.set g { group with middlewares := middlewares }).map RouterGroup.shape =
      groups.map RouterGroup.shape := by
  apply List.ext_getElem?
  intro i
  simp only [List.getElem?_map, List.getElem?_set]
  split_ifs with hgi hlt
  · subst hgi; rw [hg]; rfl
  · exact absurd (List.getElem?_eq_some_iff.1 hg).1 (hgi ▸ hlt)
  · rfl

theorem Engine.WF.Use {e e' : Engine H} (he : e.WF) {g : Nat} {middlewares : List H}
    (h : e.Use g middlewares = some e') : e'.WF := by
  simp only [Engine.Use, Option.map_eq_some'] at h
  obtain ⟨group, hg, rfl⟩ := h
  exact ⟨(map_shape_set hg _).symm ▸ he.groups, he.depth⟩

theorem Engine.WF.addRoute {e e' : Engine H} (he : e.WF) {g : Nat} {method comp : GoString}
    {handler : H} (h : e.addRoute g method comp handler = some e') : e'.WF := by
  simp only [Engine.addRoute, Option.map_eq_some'] at h
  obtain ⟨group, -, rfl⟩ := h
  exact ⟨he.groups, he.depth.addRoute _ _ _⟩

theorem Engine.WF.call {e e' : Engine H} (he : e.WF) :
    ∀ {c : Call H}, e.call c = some e' → e'.WF
  | .Group _ _, h => by
    obtain ⟨r, hr, rfl⟩ := Option.map_eq_some'.1 h
    exact he.Group hr
  | .Use _ _, h => he.Use h
  | .GET _ _ _, h => he.addRoute h
  | .POST _ _ _, h => he.addRoute h

/-- **Every built engine satisfies the invariant.** -/
theorem Built.wf {e : Engine H} (he : Built e) : e.WF := by
  induction he with
  | new => exact New_wf
  | call c _ hc ih => exact ih.call hc

/-! ## The middlewares of a group and its ancestors -/

/-- The groups from the root down to `groups[g]`, through `parent`. The test `p < g`, true in
every built engine, makes the recursion end. -/
def chain (groups : List (RouterGroup H)) (g : Nat) : List (RouterGroup H) :=
  match groups[g]? with
  | none => []
  | some group =>
    match group.parent with
    | none => [group]
    | some p => if p < g then chain groups p ++ [group] else [group]
termination_by g

theorem chain_sublist_take (groups : List (RouterGroup H)) (g : Nat) :
    List.Sublist (chain groups g) (groups.take (g + 1)) := by
  induction g using Nat.strong_induction_on with
  | _ g ih =>
    rw [chain]
    split
    · exact List.nil_sublist _
    · rename_i group hg
      have hlt : g < groups.length := (List.getElem?_eq_some_iff.1 hg).1
      have htake : groups.take (g + 1) = groups.take g ++ [group] := by
        rw [List.take_succ, hg]; rfl
      have hlast : List.Sublist [group] (groups.take (g + 1)) :=
        htake ▸ List.sublist_append_right _ _
      split
      · exact hlast
      · split
        · rename_i p _ hp
          rw [htake]
          exact ((ih p hp).trans (List.take_sublist_take_left groups (by omega))).append
            (List.Sublist.refl _)
        · exact hlast

/-- In a built engine every group of `g`'s chain has a prefix that starts `g`'s. -/
theorem Engine.WF.chain_prefix {e : Engine H} (he : e.WF) (g : Nat) (group : RouterGroup H)
    (hg : e.groups[g]? = some group) : ∀ a ∈ chain e.groups g, a.prefix_ <+: group.prefix_ := by
  induction g using Nat.strong_induction_on generalizing group with
  | _ g ih =>
    intro a ha
    rw [chain, hg] at ha
    dsimp only at ha
    split at ha
    · obtain rfl := List.mem_singleton.1 ha
      exact List.prefix_refl _
    · rename_i p hpar
      obtain ⟨hlt, ps, hps, hpre⟩ := he.groups g group.shape (by simp [hg]) p hpar
      rw [List.getElem?_map, Option.map_eq_some'] at hps
      obtain ⟨pg, hpg, rfl⟩ := hps
      rw [if_pos hlt] at ha
      rcases List.mem_append.1 ha with ha | ha
      · exact (ih p hlt pg hpg a ha).trans hpre
      · obtain rfl := List.mem_singleton.1 ha
        exact List.prefix_refl _

/-- The middlewares of a sublist of the groups whose prefixes all start `path`. -/
theorem flatMap_middlewares_sublist {path : GoString} :
    ∀ {as groups : List (RouterGroup H)}, List.Sublist as groups →
      (∀ a ∈ as, hasPrefix path a.prefix_ = true) →
        List.Sublist (as.flatMap (·.middlewares)) (groupMiddlewares groups path)
  | _, _, .slnil, _ => List.Sublist.slnil
  | _, _, .cons g hs, ha =>
    (flatMap_middlewares_sublist hs ha).trans (List.sublist_append_right _ _)
  | _, _, .cons₂ g hs, ha => by
    have hg : hasPrefix path g.prefix_ = true := ha g (List.mem_cons_self _ _)
    simp only [groupMiddlewares, List.flatMap_cons, hg, if_true] at *
    exact (flatMap_middlewares_sublist hs fun a h => ha a (List.mem_cons_of_mem _ h)).append_left _

/-- **The chain runs a group's middlewares and its ancestors', the root first, before the
handler**, for every request whose path starts with the group's prefix. -/
theorem chain_middlewares_sublist {e : Engine H} (he : Built e) {g : Nat}
    {group : RouterGroup H} (hg : e.groups[g]? = some group) (method path : GoString)
    (hp : hasPrefix path group.prefix_ = true) :
    ∃ c mids last, e.ServeHTTP method path = some c ∧ c.handlers = mids.map .fn ++ [last] ∧
      List.Sublist ((chain e.groups g).flatMap (·.middlewares)) mids := by
  have hwf := he.wf
  obtain ⟨c, hc⟩ := Option.isSome_iff_exists.1 (router.handle_isSome hwf.depth
    { Method := method, Path := path, Params := fun _ => none,
      handlers := (groupMiddlewares e.groups path).map .fn })
  obtain ⟨last, hlast⟩ := router.handle_handlers hc
  refine ⟨c, groupMiddlewares e.groups path, last, hc, hlast, ?_⟩
  refine flatMap_middlewares_sublist ((chain_sublist_take _ _).trans (List.take_sublist _ _))
    fun a ha => ?_
  rw [hasPrefix_iff] at hp ⊢
  exact (hwf.chain_prefix g group hg a ha).trans hp

/-- A program that installs middleware `0` on a group `/v2` and routes `GET /v2/hello` to
handler `1` through it. -/
def v2Program : List (Call Nat) :=
  [.Group 0 (GoString.ofString "/v2"), .Use 1 [0], .GET 1 (GoString.ofString "/hello") 1]

/-- The engine `v2Program` builds. -/
def v2Engine : Engine Nat := (New.run v2Program).getD New

theorem v2Engine_built : Built v2Engine :=
  Built.new.run (show New.run v2Program = some v2Engine from rfl)

theorem chain_middlewares_v2 :
    ∃ c mids last,
      v2Engine.ServeHTTP (GoString.ofString "GET") (GoString.ofString "/v2/hello") = some c ∧
      c.handlers = mids.map .fn ++ [last] ∧
      List.Sublist ((chain v2Engine.groups 1).flatMap (·.middlewares)) mids :=
  chain_middlewares_sublist v2Engine_built rfl _ _ (by decide)

/-- `//v2/hello` is routed to the handler of `/v2/hello`, but it does not start with `/v2`: its
chain is that handler alone, without the group's middleware. -/
theorem double_slash_skips_middleware :
    v2Engine.groups[1]? =
        some { prefix_ := GoString.ofString "/v2", middlewares := [0], parent := some 0 } ∧
      (v2Engine.ServeHTTP (GoString.ofString "GET") (GoString.ofString "//v2/hello")).map
        (·.handlers) = some [.fn 1] := by
  decide

end LetsGo.Gee
