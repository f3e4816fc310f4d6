import LetsGo.Gee.Engine
import LetsGo.Gee.Routing
import LetsGo.Path

/-!
# Static files

Model of `createStaticHandler` and `Static` (`src/unnamed/part_002`, lines 119-155), with what
they use of `net/http`: `http.Dir(root).Open`, `http.StripPrefix` and `http.FileServer`.

* The disk is what each directory holds, by clean rooted name (`Disk`). `http.Dir(root).Open(name)`
  opens `path.Clean("/" + name)` below `root` (`Dir.Open`); the operating system beyond that is
  left out.
* The closure `createStaticHandler` returns is what it captures, `absolutePath` and the
  directory (`StaticHandler`); `StaticHandler.serve` is what it does with a request's context.
* `http.StripPrefix(prefix, h)` hands `h` the path without `prefix`, and answers `NotFound`
  where the path does not start with it; `RawPath`, which only escaped paths have, is left out.
* `http.FileServer(fs)` serves the file `fs.Open` gives for `path.Clean(upath)`
  (`StaticResult.serveFile`); what it writes (directory listings, `index.html`, redirects,
  headers) is left out.
* `Engine.Static` takes the way a `StaticHandler` is one of the program's handlers `H`.

Results:
* `Static_route`: for a relative path that starts with a slash, where the group's prefix and the
  relative path have only plain names as elements, `Static` registers a `GET` route whose parts
  are those of the absolute path followed by `*filepath`, with the static handler, and keeps
  the engine's invariant.
* `static_serves_file`: whenever routing picks such a route for a path below its absolute path,
  the handler serves the rest of the path, cleaned, if that file exists, and answers 404
  otherwise; the file it checks is the file the file server opens, and it is never outside the
  directory.
* `static_unrooted_serves_nothing`: for a relative path that does not start with a slash, on the
  engine's own group or under a clean prefix such as `/v1`, the route and the prefix the handler
  strips disagree (`/v1assets/*filepath` against `/v1/assets`), and the handler serves no file
  on any request path the route matches.
-/

namespace LetsGo.Gee

open LetsGo.Path (Clean Join elems IsName)

variable {H : Type}

/-- The parameter name `filepath`. -/
def filepathName : GoString := GoString.ofString "filepath"

/-- The files below each directory, by clean rooted name. -/
abbrev Disk := GoString → GoString → Bool

/-- `http.Dir(root).Open(name)` succeeds. -/
def Dir.Open (disk : Disk) (root name : GoString) : Bool :=
  disk root (Clean (Path.slash :: name))

/-- The closure `createStaticHandler` returns: the absolute path and the directory it captures. -/
structure StaticHandler where
  absolutePath : GoString
  root : GoString
  deriving DecidableEq, Repr

/-- `g.createStaticHandler(relativePath, http.Dir(root))`, for a group with prefix `prefix_`. -/
def createStaticHandler (prefix_ relativePath root : GoString) : StaticHandler :=
  { absolutePath := Join [prefix_, relativePath], root := root }

/-- `http.StripPrefix(prefix, h)` on a request's path: the path `h` sees, or `none` where it
answers `NotFound`. -/
def StripPrefix (pre path : GoString) : Option GoString :=
  if pre = [] then some path
  else if hasPrefix path pre then some (path.drop pre.length) else none

/-- `http.FileServer(fs)` on the path it sees: the name it opens, `path.Clean(upath)`. -/
def fileServerName (p : GoString) : GoString :=
  Clean (if hasPrefix p [Path.slash] then p else Path.slash :: p)

/-- What the static handler answers. -/
inductive StaticResult
  /-- `c.Status(http.StatusNotFound)`: `fs.Open(file)` failed. -/
  | notFound
  /-- `http.StripPrefix` answers `NotFound`: the path does not start with `absolutePath`. -/
  | stripNotFound
  /-- `http.FileServer` serves the file `fs.Open(name)` opens. -/
  | serveFile (name : GoString)
  deriving DecidableEq, Repr

/-- The static handler on a request's context. -/
def StaticHandler.serve (h : StaticHandler) (disk : Disk) (c : Context H) : StaticResult :=
  let file := (c.Params filepathName).getD []
  if !Dir.Open disk h.root file then .notFound
  else
    match StripPrefix h.absolutePath c.Path with
    | none => .stripNotFound
    | some p => .serveFile (fileServerName p)

/-- `g.Static(relativePath, root)`, where `static` makes the closure one of the handlers. -/
def Engine.Static (e : Engine H) (g : Nat) (relativePath root : GoString)
    (static : StaticHandler → H) : Option (Engine H) :=
  e.groups[g]?.bind fun group =>
    let handler := static (createStaticHandler group.prefix_ relativePath root)
    let urlPattern := Join [relativePath, GoString.ofString "/*filepath"]
    e.GET g urlPattern handler

/-! ## The parts of the paths `Static` builds -/

theorem parseItems_append {xs : List GoString}
    (h : ∀ x ∈ xs, x ≠ [] → x.head? ≠ some star) (ys : List GoString) :
    parseItems (xs ++ ys) = parseItems xs ++ parseItems ys := by
  induction xs with
  | nil => rfl
  | cons x xs ih =>
    have ih := ih fun y hy => h y (List.mem_cons_of_mem _ hy)
    simp only [List.cons_append, parseItems]
    split_ifs with h₁ h₂
    · exact absurd h₂ (h x (List.mem_cons_self _ _) (List.ne_nil_of_length_pos h₁))
    · exact congrArg (x :: ·) ih
    · exact ih

theorem parseItems_eq_filter {xs : List GoString}
    (h : ∀ x ∈ xs, x ≠ [] → x.head? ≠ some star) : parseItems xs = xs.filter (· ≠ []) := by
  induction xs with
  | nil => rfl
  | cons x xs ih =>
    have ih := ih fun y hy => h y (List.mem_cons_of_mem _ hy)
    by_cases hx : x = []
    · subst hx; simp [parseItems, ih]
    · have hs := h x (List.mem_cons_self _ _) hx
      simp [parseItems, List.length_pos.2 hx, hs, hx, ih]

/-- The parts of a path none of whose elements starts with `'*'` are its elements. -/
theorem parsePattern_eq_elems {p : GoString} (h : ∀ e ∈ elems p, e.head? ≠ some star) :
    parsePattern p = elems p := by
  show parseItems (split p Path.slash) = _
  rw [parseItems_eq_filter fun x hx hne => h x (List.mem_filter.2 ⟨hx, by simpa using hne⟩)]
  rfl

/-- The parts of a path below another, none of whose elements starts with `'*'`. -/
theorem parsePattern_append_slash {A : GoString} (hA : ∀ e ∈ elems A, e.head? ≠ some star)
    (F : GoString) : parsePattern (A ++ Path.slash :: F) = elems A ++ parsePattern F := by
  rw [parsePattern, show slash = Path.slash from rfl, Path.split_append_slash,
    parseItems_append fun x hx hne => hA x (List.mem_filter.2 ⟨hx, by simpa using hne⟩),
    ← parsePattern_eq_elems hA]
  rfl

theorem filepath_eq : GoString.ofString "/*filepath" = Path.slash :: star :: filepathName := rfl

theorem isName_filepath : IsName (star :: filepathName) := by
  unfold IsName; decide

theorem parseItems_nil_cons (items : List GoString) : parseItems ([] :: items) = parseItems items :=
  rfl

theorem parseItems_snoc {M : List GoString} (hM : ∀ x ∈ M, x ≠ [] → x.head? ≠ some star)
    {z : GoString} (hz : z ≠ []) : parseItems (M ++ [z]) = parseItems M ++ [z] := by
  rw [parseItems_append hM]
  simp [parseItems, List.length_pos.2 hz]

/-- A leading slash adds no part. -/
theorem parsePattern_root (rooted : Bool) (p : GoString) :
    parsePattern ((if rooted then [Path.slash] else []) ++ p) = parsePattern p := by
  cases rooted
  · rfl
  · show parseItems (split (Path.slash :: p) Path.slash) = parseItems (split p Path.slash)
    rw [Path.split_slash_cons, parseItems_nil_cons]

/-- The parts of names written with single slashes, of which only the last may start with
`'*'`, are the names. -/
theorem parsePattern_join {M : List GoString} {z : GoString}
    (hM : ∀ x ∈ M, IsName x ∧ x.head? ≠ some star) (hz : IsName z) :
    parsePattern (join (M ++ [z]) Path.slash) = M ++ [z] := by
  have hsplit : split (join (M ++ [z]) Path.slash) Path.slash = M ++ [z] := by
    refine List.splitOn_intercalate _ _ (fun l hl => ?_) (by simp)
    rcases List.mem_append.1 hl with hl | hl
    · exact (hM l hl).1.2.1
    · rw [List.mem_singleton.1 hl]; exact hz.2.1
  show parseItems (split _ Path.slash) = _
  rw [hsplit, parseItems_snoc (fun x hx _ => (hM x hx).2) hz.1,
    parseItems_eq_filter fun x hx _ => (hM x hx).2,
    List.filter_eq_self.2 fun x hx => by simpa using (hM x hx).1.1]

/-- The elements of names written with single slashes, after a slash or not. -/
theorem elems_root_join (rooted : Bool) {ps : List GoString} (h : ∀ e ∈ ps, IsName e) :
    elems ((if rooted then [Path.slash] else []) ++ join ps Path.slash) = ps := by
  have hj := Path.elems_join fun e he => ⟨(h e he).1, (h e he).2.1⟩
  cases rooted
  · exact hj
  · rw [if_pos rfl, List.singleton_append, Path.elems_slash_cons, hj]

/-- `path.Join(relativePath, "/*filepath")` for a relative path of names: its names and
`*filepath` written with single slashes, after a slash if it starts with one. -/
theorem Join_filepath {R : GoString} (hR : ∀ e ∈ elems R, IsName e) (hR₀ : R ≠ []) :
    Join [R, GoString.ofString "/*filepath"] = (if Path.rootedOf R then [Path.slash] else []) ++
      join (elems R ++ [star :: filepathName]) Path.slash := by
  have hX : elems (R ++ Path.slash :: Path.slash :: star :: filepathName) =
      elems R ++ [star :: filepathName] := by
    rw [Path.elems_append_slash, Path.elems_slash_cons]; rfl
  have hXn : ∀ e ∈ elems R ++ [star :: filepathName], IsName e := by
    intro e he
    rcases List.mem_append.1 he with he | he
    · exact hR e he
    · rw [List.mem_singleton.1 he]; exact isName_filepath
  rw [Path.Join_pair _ (by simp [filepath_eq]), if_neg hR₀, filepath_eq,
    Path.Clean_of_names (hX ▸ hXn) (by simp [hX]), Path.rootedOf_append_slash hR₀, hX]

/-- `path.Join(prefix, relativePath)` for a non-empty prefix and a relative path of names: their
names written with single slashes, after a slash if the prefix starts with one. -/
theorem Join_pair_names {P R : GoString} (hP : ∀ e ∈ elems P, IsName e)
    (hR : ∀ e ∈ elems R, IsName e) (hP₀ : P ≠ []) (hRe : elems R ≠ []) :
    Join [P, R] = (if Path.rootedOf P then [Path.slash] else []) ++
      join (elems P ++ elems R) Path.slash := by
  have hR₀ : R ≠ [] := by rintro rfl; exact hRe rfl
  have hPR : ∀ e ∈ elems (P ++ Path.slash :: R), IsName e := by
    intro e he
    rw [Path.elems_append_slash] at he
    rcases List.mem_append.1 he with he | he
    exacts [hP e he, hR e he]
  rw [Path.Join_pair _ hR₀, if_neg hP₀,
    Path.Clean_of_names hPR (by simp [Path.elems_append_slash, hRe]),
    Path.rootedOf_append_slash hP₀, Path.elems_append_slash]

/-- The parts of the pattern `Static` registers: the prefix's names, the relative path's, then
`*filepath`, for a relative path that starts with a slash. -/
theorem parsePattern_filepath {P R : GoString} (hP : ∀ e ∈ elems P, e.head? ≠ some star)
    (hR : ∀ e ∈ elems R, IsName e ∧ e.head? ≠ some star) (hRr : Path.rootedOf R = true) :
    parsePattern (P ++ Join [R, GoString.ofString "/*filepath"]) =
      elems P ++ elems R ++ [star :: filepathName] := by
  have hR₀ : R ≠ [] := by rintro rfl; cases hRr
  rw [Join_filepath (fun e he => (hR e he).1) hR₀, hRr, if_pos rfl, List.singleton_append,
    parsePattern_append_slash hP, parsePattern_join hR isName_filepath, List.append_assoc]

/-- The parts of the absolute path `path.Join(prefix, relativePath)`: the prefix's names, then
the relative path's. -/
theorem parsePattern_Join_pair {P R : GoString}
    (hP : ∀ e ∈ elems P, IsName e ∧ e.head? ≠ some star)
    (hR : ∀ e ∈ elems R, IsName e ∧ e.head? ≠ some star) (hR₀ : R ≠ []) :
    parsePattern (Join [P, R]) = elems P ++ elems R := by
  have hY : ∀ e ∈ elems (if P = [] then R else P ++ Path.slash :: R),
      IsName e ∧ e.head? ≠ some star := by
    split
    · exact hR
    · intro e he
      rw [Path.elems_append_slash] at he
      rcases List.mem_append.1 he with he | he
      · exact hP e he
      · exact hR e he
  have hY₀ : (if P = [] then R else P ++ Path.slash :: R) ≠ [] := by split <;> simp [hR₀]
  have helems := Path.elems_Clean_of_names (fun e he => (hY e he).1) hY₀
  rw [Path.Join_pair _ hR₀, parsePattern_eq_elems (by rw [helems]; exact fun e he => (hY e he).2),
    helems]
  split
  · subst P; rfl
  · exact Path.elems_append_slash _ _

/-- **The route `Static` registers**: its parts are those of the absolute path and
`*filepath`, for a relative path that starts with a slash, where the prefix and the relative
path have only names, none starting with `'*'`, as elements. -/
theorem parsePattern_static {P R : GoString}
    (hP : ∀ e ∈ elems P, IsName e ∧ e.head? ≠ some star)
    (hR : ∀ e ∈ elems R, IsName e ∧ e.head? ≠ some star) (hRr : Path.rootedOf R = true) :
    parsePattern (P ++ Join [R, GoString.ofString "/*filepath"]) =
      parsePattern (Join [P, R]) ++ [star :: filepathName] := by
  have hR₀ : R ≠ [] := by rintro rfl; cases hRr
  rw [parsePattern_filepath (fun e he => (hP e he).2) hR hRr, parsePattern_Join_pair hP hR hR₀]

/-! ## What `Static` registers -/

/-- `Static` on a group registers one `GET` route, with the static handler. -/
theorem Engine.Static_eq (e : Engine H) {g : Nat} {group : RouterGroup H}
    (hg : e.groups[g]? = some group) (R root : GoString) (static : StaticHandler → H) :
    e.Static g R root static = some { e with
      router := e.router.addRoute (GoString.ofString "GET")
        (group.prefix_ ++ Join [R, GoString.ofString "/*filepath"])
        (static (createStaticHandler group.prefix_ R root)) } := by
  simp [Engine.Static, Engine.GET, Engine.addRoute, hg]

/-- `Static` keeps the invariant of the engine. -/
theorem Engine.WF.Static {e e' : Engine H} (he : e.WF) {g : Nat} {R root : GoString}
    {static : StaticHandler → H} (h : e.Static g R root static = some e') : e'.WF := by
  obtain ⟨group, hg, h⟩ := Option.bind_eq_some.1 h
  exact he.addRoute h

/-- **What `Static` registers**: on a group of an engine satisfying the invariant, for a relative
path that starts with a slash, where the group's prefix and the relative path have only names
that do not start with `'*'` as elements, `Static` adds one `GET` route, whose parts are those
of the absolute path followed by `*filepath` and whose handler is the static handler of that
absolute path; the engine keeps its invariant. -/
theorem Static_route {e : Engine H} (he : e.WF) {g : Nat} {group : RouterGroup H}
    (hg : e.groups[g]? = some group) {R : GoString} (root : GoString) (static : StaticHandler → H)
    (hP : ∀ x ∈ elems group.prefix_, IsName x ∧ x.head? ≠ some star)
    (hR : ∀ x ∈ elems R, IsName x ∧ x.head? ≠ some star) (hRr : R.head? = some Path.slash) :
    ∃ e', e.Static g R root static = some e' ∧ e'.WF ∧
      e'.router = e.router.addRoute (GoString.ofString "GET")
        (group.prefix_ ++ Join [R, GoString.ofString "/*filepath"])
        (static ⟨Join [group.prefix_, R], root⟩) ∧
      parsePattern (group.prefix_ ++ Join [R, GoString.ofString "/*filepath"]) =
        parsePattern (Join [group.prefix_, R]) ++ [star :: filepathName] := by
  have hs := e.Static_eq hg R root static
  exact ⟨_, hs, he.Static hs, rfl, parsePattern_static hP hR (by simp [Path.rootedOf, hRr])⟩

/-- `Static("/assets", "public")` on a new engine's own group. -/
theorem Static_route_assets :
    ∃ e', (New : Engine StaticHandler).Static 0 (GoString.ofString "/assets")
        (GoString.ofString "public") id = some e' ∧ e'.WF ∧
      e'.router = (New : Engine StaticHandler).router.addRoute (GoString.ofString "GET")
        ([] ++ Join [GoString.ofString "/assets", GoString.ofString "/*filepath"])
        ⟨Join [[], GoString.ofString "/assets"], GoString.ofString "public"⟩ ∧
      parsePattern ([] ++ Join [GoString.ofString "/assets", GoString.ofString "/*filepath"]) =
        parsePattern (Join [[], GoString.ofString "/assets"]) ++ [star :: filepathName] :=
  @Static_route StaticHandler New New_wf 0 ⟨[], [], none⟩ rfl (GoString.ofString "/assets") _ id
    (fun x hx => absurd hx (List.not_mem_nil x)) (by unfold IsName; decide) rfl

/-! ## What the static handler serves -/

/-- Where `getRoute` finds a route, its parameters are what the loop over the route's parts
binds. -/
theorem router.getRoute_found {r : router H} {method path : GoString} {n : Node} {params : Params}
    (h : r.getRoute method path = .found n params) :
    bindParams (parsePattern path) (parsePattern n.pattern) 0 (fun _ => none) = some params := by
  unfold router.getRoute at h
  dsimp only at h
  split at h
  · cases h
  · split at h
    · cases h
    · split at h
      · rename_i n' hs params' hb
        cases h
        exact hb
      · cases h

/-- The loop over a pattern's parts followed by a final `*name` binds `name` to the path's parts
after the pattern's others, joined by slashes. -/
theorem bindParams_append_star (segs : List GoString) {name : GoString} (hname : name ≠ []) :
    ∀ (ps : List GoString) (idx : Nat) (acc : Params), (∀ p ∈ ps, p.head? ≠ some star) →
      idx + ps.length ≤ segs.length →
      ∃ params, bindParams segs (ps ++ [star :: name]) idx acc = some params ∧
        params name = some (join (segs.drop (idx + ps.length)) slash)
  | [], idx, acc, _, hlen => by
    have hlen' : 1 < (star :: name).length := by
      cases name with
      | nil => exact absurd rfl hname
      | cons _ _ => simp
    refine ⟨Function.update acc name (some (join (segs.drop idx) slash)), ?_, by simp⟩
    simp only [List.nil_append, bindParams, List.head?_cons, Option.some.injEq,
      star_ne_colon, if_false, true_and, if_pos hlen', if_pos (show idx ≤ segs.length by simpa using hlen)]
    rfl
  | p :: ps, idx, acc, hs, hlen => by
    have ih := bindParams_append_star segs hname ps (idx + 1)
    have hp := hs p (List.mem_cons_self _ _)
    have hps : ∀ q ∈ ps, q.head? ≠ some star := fun q hq => hs q (List.mem_cons_of_mem _ hq)
    simp only [List.length_cons] at hlen
    have hidx : idx + 1 + ps.length = idx + (p :: ps).length := by simp only [List.length_cons]; omega
    rw [List.cons_append, bindParams, ← hidx]
    by_cases h₁ : p.head? = some colon
    · rw [if_pos h₁, List.getElem?_eq_getElem (by omega)]
      exact ih _ hps (by omega)
    · rw [if_neg h₁, if_neg fun h => hp h.1]
      exact ih acc hps (by omega)

theorem StripPrefix_append (A p : GoString) : StripPrefix A (A ++ p) = some p := by
  unfold StripPrefix
  split
  · subst A; rfl
  · rw [if_pos (by simp [hasPrefix_iff])]
    simp

/-- **The static handler serves the file asked for**: whenever routing picks, for a path below
`A`, a route whose parts are those of `A` and `*filepath`, the handler of `A` serves the rest of
the path, cleaned, if that file exists in its directory, and answers 404 otherwise. The file it
checks is the one the file server opens, and none of its elements is `..`: no request reaches a
file outside the directory. -/
theorem static_serves_file (r : router H) (method A F root : GoString) (disk : Disk)
    (hA : ∀ x ∈ elems A, x.head? ≠ some star) (hF : ∀ x ∈ elems F, x.head? ≠ some star)
    {n : Node} {params : Params}
    (hpat : parsePattern n.pattern = parsePattern A ++ [star :: filepathName])
    (hroute : r.getRoute method (A ++ Path.slash :: F) = .found n params)
    (c : Context H) (hpath : c.Path = A ++ Path.slash :: F) (hparams : c.Params = params) :
    (StaticHandler.mk A root).serve disk c =
        (if disk root (Clean (Path.slash :: F)) then .serveFile (Clean (Path.slash :: F))
          else .notFound) ∧
      Dir.Open disk root (Clean (Path.slash :: F)) = disk root (Clean (Path.slash :: F)) ∧
      ∀ x ∈ elems (Clean (Path.slash :: F)), IsName x := by
  have hb := router.getRoute_found hroute
  rw [parsePattern_append_slash hA, parsePattern_eq_elems hF, hpat, parsePattern_eq_elems hA] at hb
  obtain ⟨params', hb', hv⟩ := @bindParams_append_star (elems A ++ elems F) filepathName
    (by decide) (elems A) 0 (fun _ => none) hA (by simp)
  rw [hb] at hb'
  cases hb'
  rw [Nat.zero_add, List.drop_left] at hv
  -- the file checked is the rest of the path
  have hfile : Clean (Path.slash :: join (elems F) slash) = Clean (Path.slash :: F) :=
    Path.Clean_congr rfl (by
      rw [Path.cleanStack, Path.cleanStack, Path.elems_slash_cons, Path.elems_slash_cons]
      exact congrArg _ (Path.elems_join_elems F))
  -- the file served is the rest of the path
  have hserved : fileServerName (Path.slash :: F) = Clean (Path.slash :: F) := by
    simp [fileServerName, hasPrefix]
  have hclean : Clean (Path.slash :: Clean (Path.slash :: F)) = Clean (Path.slash :: F) := by
    rw [Path.Clean_slash_cons (by rw [Path.rootedOf_Clean]; rfl)]
    exact Path.Clean_congr (Path.rootedOf_Clean _) (Path.cleanStack_Clean _)
  refine ⟨?_, by rw [Dir.Open, hclean], Path.isName_of_mem_elems_Clean rfl⟩
  simp only [StaticHandler.serve, hparams, hv, Option.getD_some, Dir.Open, hfile, hpath,
    StripPrefix_append, hserved]
  cases disk root (Clean (Path.slash :: F)) <;> rfl

/-- The router of `Static("/assets", ...)` alone. -/
def assetsRouter : router StaticHandler :=
  routerOf [(GoString.ofString "GET", GoString.ofString "/assets/*filepath",
    ⟨GoString.ofString "/assets", GoString.ofString "public"⟩)]

/-- A request for `/assets/css/a.css`, on a disk where every file exists, is served
`/css/a.css` of the directory. -/
theorem static_serves_css :
    ∃ (n : Node) (params : Params),
      assetsRouter.getRoute (GoString.ofString "GET")
          (GoString.ofString "/assets" ++ Path.slash :: GoString.ofString "css/a.css") =
        .found n params ∧
      (StaticHandler.mk (GoString.ofString "/assets") (GoString.ofString "public")).serve
          (fun _ _ => true)
          ({ Method := GoString.ofString "GET",
             Path := GoString.ofString "/assets" ++ Path.slash :: GoString.ofString "css/a.css",
             Params := params, handlers := [] } : Context StaticHandler) =
        .serveFile (Clean (Path.slash :: GoString.ofString "css/a.css")) := by
  refine ⟨_, _, rfl, ?_⟩
  exact (static_serves_file assetsRouter (GoString.ofString "GET") (GoString.ofString "/assets")
    (GoString.ofString "css/a.css") (GoString.ofString "public") (fun _ _ => true) (by decide)
    (by decide) (by decide) rfl _ rfl rfl).1

/-! ## A relative path without its leading slash

`Static` registers `group.prefix + path.Join(relativePath, "/*filepath")` and strips
`path.Join(group.prefix, relativePath)`. Where `relativePath` does not start with a slash the
two disagree: on a group `/v1`, `Static("assets", root)` registers `/v1assets/*filepath` and
strips `/v1/assets`; on the engine's own group it strips `assets`, which no request path
starts with. -/

/-- Matching fails at the first static part of the pattern that differs from the path's. -/
theorem partsMatch_append_ne {xs : List GoString} (hxs : ∀ x ∈ xs, x.head? ≠ some star)
    {a b : GoString} (ha : isWildPart a = false) (hab : a ≠ b) (ys zs : List GoString) :
    partsMatch (xs ++ a :: ys) (xs ++ b :: zs) = false := by
  induction xs with
  | nil =>
    simp only [isWildPart, Bool.or_eq_false_iff, decide_eq_false_iff_not] at ha
    simp [partsMatch, ha.1, ha.2, hab]
  | cons x xs ih =>
    have hx := hxs x (List.mem_cons_self _ _)
    simp [partsMatch, hx, ih fun y hy => hxs y (List.mem_cons_of_mem _ hy)]

/-- **The route and the stripped prefix disagree** where the relative path does not start with
a slash: no rooted path that the route of `Static` matches starts with the handler's absolute
path, on the engine's own group or under a clean prefix of static names such as `/v1`. -/
theorem not_hasPrefix_Join {P R path : GoString} (hPc : P = [] ∨ (Clean P = P ∧ elems P ≠ []))
    (hP : ∀ e ∈ elems P, IsName e ∧ isWildPart e = false)
    (hR : ∀ e ∈ elems R, IsName e ∧ e.head? ≠ some star) (hRu : R.head? ≠ some Path.slash)
    (hRe : elems R ≠ []) (hroot : path.head? = some Path.slash)
    (hmatch : partsMatch (parsePattern (P ++ Join [R, GoString.ofString "/*filepath"]))
      (parsePattern path) = true) :
    hasPrefix path (Join [P, R]) = false := by
  have hRn : ∀ e ∈ elems R, IsName e := fun e he => (hR e he).1
  have hR₀ : R ≠ [] := by rintro rfl; exact hRe rfl
  have hRr : Path.rootedOf R = false := by simpa [Path.rootedOf] using hRu
  obtain ⟨r₁, rs, hrs⟩ := List.exists_cons_of_ne_nil hRe
  have hr₁ : IsName r₁ := hRn r₁ (hrs ▸ List.mem_cons_self _ _)
  have hstatic : ∀ {x : GoString}, isWildPart x = false → x.head? ≠ some star := fun hx h => by
    simp [isWildPart, h] at hx
  rw [Bool.eq_false_iff, Ne, hasPrefix_iff]
  rintro ⟨t, rfl⟩
  rcases hPc with rfl | ⟨hPc, hPe⟩
  · -- the absolute path is the relative path cleaned: it starts with `r₁`, not with a slash
    rw [Path.Join_pair _ hR₀, if_pos rfl, Path.Clean_of_names hRn hRe, hRr, hrs,
      if_neg Bool.false_ne_true, List.nil_append,
      List.head?_append_of_ne_nil _ (Path.join_ne_nil hr₁.1 rs), Path.head?_join hr₁.1] at hroot
    exact hr₁.2.1 (List.mem_of_mem_head? hroot)
  · have hP₀ : P ≠ [] := by rintro rfl; exact hPe rfl
    have hPn : ∀ e ∈ elems P, IsName e := fun e he => (hP e he).1
    obtain ⟨qs, pn, hps⟩ := (List.eq_nil_or_concat (elems P)).resolve_left hPe
    rw [List.concat_eq_append] at hps
    have hq : ∀ x ∈ qs, IsName x ∧ isWildPart x = false := fun x hx => hP x (by simp [hps, hx])
    have hpn : IsName pn ∧ isWildPart pn = false := hP pn (by simp [hps])
    -- the path's parts: the prefix's names, then what follows the slash after them
    have hpath : parsePattern (Join [P, R] ++ t) =
        qs ++ pn :: parsePattern (join (elems R) Path.slash ++ t) := by
      rw [Join_pair_names hPn hRn hP₀ hRe, Path.join_append hPe hRe]
      simp only [List.append_assoc, List.cons_append]
      rw [← List.append_assoc, parsePattern_append_slash (by
          rw [elems_root_join _ hPn]; exact fun e he => hstatic (hP e he).2),
        elems_root_join _ hPn, hps, List.append_assoc, List.singleton_append]
    -- the route's parts: the prefix's last name glued to `r₁`
    have hM : ∀ x ∈ qs ++ (pn ++ r₁) :: rs, IsName x ∧ x.head? ≠ some star := by
      intro x hx
      simp only [List.mem_append, List.mem_cons] at hx
      rcases hx with hx | rfl | hx
      · exact ⟨(hq x hx).1, hstatic (hq x hx).2⟩
      · refine ⟨hpn.1.append hr₁, ?_⟩
        rw [List.head?_append_of_ne_nil _ hpn.1.1]
        exact hstatic hpn.2
      · exact hR x (by rw [hrs]; exact List.mem_cons_of_mem _ hx)
    have hroute : parsePattern (P ++ Join [R, GoString.ofString "/*filepath"]) =
        (qs ++ (pn ++ r₁) :: rs) ++ [star :: filepathName] := by
      have hPj : P = (if Path.rootedOf P then [Path.slash] else []) ++
          join (elems P) Path.slash := hPc.symm.trans (Path.Clean_of_names hPn hPe)
      rw [Join_filepath hRn hR₀, hRr, if_neg Bool.false_ne_true, List.nil_append]
      conv_lhs => rw [hPj]
      rw [List.append_assoc, parsePattern_root, hps, hrs, List.cons_append,
        Path.join_snoc_append, ← parsePattern_join hM isName_filepath]
      simp only [List.append_assoc, List.cons_append]
    have hwild : isWildPart (pn ++ r₁) = false := by
      simpa only [isWildPart, List.head?_append_of_ne_nil _ hpn.1.1] using hpn.2
    have hne : pn ++ r₁ ≠ pn := fun h => hr₁.1 (List.length_eq_zero.1 (by
      simpa using congrArg List.length h))
    rw [hroute, hpath, List.append_assoc, List.cons_append,
      partsMatch_append_ne (fun x hx => hstatic (hq x hx).2) hwild hne] at hmatch
    exact Bool.false_ne_true hmatch

/-- The handler serves a file only where `StripPrefix` keeps the request's path. -/
theorem StaticHandler.serve_serveFile {h : StaticHandler} {disk : Disk} {c : Context H}
    {name : GoString} (hs : h.serve disk c = .serveFile name) :
    ∃ p, StripPrefix h.absolutePath c.Path = some p := by
  cases hp : StripPrefix h.absolutePath c.Path with
  | some p => exact ⟨p, rfl⟩
  | none =>
    simp only [StaticHandler.serve, hp] at hs
    split_ifs at hs

theorem StripPrefix_some {pre path p : GoString} (hpre : pre ≠ [])
    (h : StripPrefix pre path = some p) : hasPrefix path pre = true := by
  unfold StripPrefix at h
  rw [if_neg hpre] at h
  split_ifs at h with hp
  exact hp

/-- **A relative path without its leading slash serves nothing**: for `Static` on the engine's
own group or under a clean prefix of static names such as `/v1`, with a relative path of names
that does not start with a slash, the handler `createStaticHandler` makes serves no file on any
rooted request path that the registered route matches, whatever the disk holds. -/
theorem static_unrooted_serves_nothing {P R : GoString}
    (hPc : P = [] ∨ (Clean P = P ∧ elems P ≠ []))
    (hP : ∀ e ∈ elems P, IsName e ∧ isWildPart e = false)
    (hR : ∀ e ∈ elems R, IsName e ∧ e.head? ≠ some star) (hRu : R.head? ≠ some Path.slash)
    (hRe : elems R ≠ []) (root : GoString) (disk : Disk) (c : Context H)
    (hroot : c.Path.head? = some Path.slash)
    (hmatch : partsMatch (parsePattern (P ++ Join [R, GoString.ofString "/*filepath"]))
      (parsePattern c.Path) = true) (name : GoString) :
    (createStaticHandler P R root).serve disk c ≠ .serveFile name := by
  intro hs
  obtain ⟨p, hp⟩ := StaticHandler.serve_serveFile hs
  have hne : Join [P, R] ≠ [] := by
    rw [Path.Join_pair _ (by rintro rfl; exact hRe rfl)]
    exact Path.Clean_ne_nil _
  have hpre := StripPrefix_some hne hp
  rw [not_hasPrefix_Join hPc hP hR hRu hRe hroot hmatch] at hpre
  exact Bool.false_ne_true hpre

/-- `Static("assets", "static")` on the group `/v1`: the route is `/v1assets/*filepath`, and the
request `/v1assets/x.css` it matches is served no file, whatever the disk holds. -/
theorem static_unrooted_v1 :
    partsMatch (parsePattern (GoString.ofString "/v1" ++
        Join [GoString.ofString "assets", GoString.ofString "/*filepath"]))
      (parsePattern (GoString.ofString "/v1assets/x.css")) = true ∧
    ∀ disk name, (createStaticHandler (GoString.ofString "/v1") (GoString.ofString "assets")
        (GoString.ofString "static")).serve disk
      ({ Method := GoString.ofString "GET", Path := GoString.ofString "/v1assets/x.css",
         Params := fun _ => none, handlers := [] } : Context Unit) ≠ .serveFile name := by
  have hJ : Join [GoString.ofString "assets", GoString.ofString "/*filepath"] =
      GoString.ofString "assets/*filepath" := by
    rw [Path.Join_pair _ (by decide), if_neg (by decide),
      Path.Clean_of_names (by unfold IsName; decide) (by decide)]
    decide
  have hmatch : partsMatch (parsePattern (GoString.ofString "/v1" ++
      Join [GoString.ofString "assets", GoString.ofString "/*filepath"]))
      (parsePattern (GoString.ofString "/v1assets/x.css")) = true := by
    rw [hJ]; decide
  have hclean : Clean (GoString.ofString "/v1") = GoString.ofString "/v1" :=
    (@Path.Clean_of_names_rooted (GoString.ofString "/v1") (by unfold IsName; decide) rfl).trans
      (by decide)
  exact ⟨hmatch, fun disk name => static_unrooted_serves_nothing (.inr ⟨hclean, by decide⟩)
    (by unfold IsName; decide) (by unfold IsName; decide) (by decide) (by decide) _ disk _
    (by decide) hmatch name⟩

end LetsGo.Gee
