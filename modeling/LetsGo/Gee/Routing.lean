import LetsGo.Gee.Router

/-!
# What the router routes

When `getRoute` (`src/unnamed/part_000`, lines 320-349) finds the route a request's path means,
over the trie that `Node.insert` builds and `Node.search` walks (`src/Geektutu/Gee/main.go`,
lines 101-135).

* `partsMatch ps segs`: the parts `ps` of a pattern match the parts `segs` of a path: as many
  parts, each static part equal to the path's and each `':'` part standing for any one, or a
  `'*'` part standing for one or more of the path's remaining parts. The parts of a path are
  what `getRoute` reads, `parsePattern path`: its non-empty segments, up to the first that
  starts with `'*'`.
* `kindOf`, `shapeOf`: `matchChild` and `search` read a wild part by its first byte alone, so a
  trie follows the kinds of a pattern's parts (`":"`, `"*"`, or the static part itself).
* `insertsAlong`, `registeredAlong`: each registration, after those before it, goes down the
  trie along its own kinds. `matchChild` takes the first child whose part is the pattern's or
  that is wild, so a pattern whose part meets an earlier wild child of another kind is stored in
  that child's node (`wild_then_static_misroutes`); a static part registered before a wild one
  at the same place, or two wild parts of one kind, are fine.
* `Node.Holds R Q n`: the trie below the node `n` at shape `Q` stores the patterns `R`, its
  children made in the order the shapes of `R` first need them (`firstKinds`).
* `routerOf regs` is the router after `addRoute` for each registration, in order, and
  `patternsFor regs method` the patterns registered for `method`.

Results:
* `getRoute_in_range`: every registration sequence keeps the depth invariant
  (`routerOf_depth`), so what `search` finds for a path has no more parts than the path and
  `getRoute` never indexes out of range.
* `Node.Holds.insert`: inserting a non-empty pattern along its own kinds keeps `Holds`;
  `routerOf_stores` lifts this to every registration sequence.
* `Node.Holds.search_sound`, `Node.Holds.search_complete`: on a trie that stores `R`, `search`
  finds a node exactly when a pattern of `R` matches, and the node's pattern matches.
* `bindParams_eq`: the loop of `getRoute` binds each name to the value of the last part that
  binds it (`bindingOf`).
* `getRoute_spec`: for non-empty patterns each registered along its own kinds, `getRoute` finds
  a route exactly when a registered pattern matches, and then returns a registered pattern that
  matches, with its parameters bound.
* `handle_routerOf`: for the same registrations, `handle` appends the handler stored under the
  matching pattern's key (`handlerFor`, the last registration with that key), with the
  pattern's parameters, and the not-found handler where no registered pattern matches.
-/

namespace LetsGo.Gee

/-! ## Matching -/

/-- **The parts of a pattern match the parts of a path.** -/
def partsMatch : List GoString → List GoString → Bool
  | [], segs => segs.isEmpty
  | _ :: _, [] => false
  | p :: ps, s :: ss =>
    p.head? = some star || ((p.head? = some colon || p = s) && partsMatch ps ss)

/-- No part but the last starts with `'*'`. -/
def StarLast : List GoString → Prop
  | [] => True
  | p :: ps => (p.head? = some star → ps = []) ∧ StarLast ps

/-- A trie path `q` that a path's parts `segs` can follow: no longer, and each static part of
`q` equal to the part of `segs` at its place. -/
def agrees : List GoString → List GoString → Prop
  | [], _ => True
  | _ :: _, [] => False
  | p :: ps, s :: ss => (isWildPart p = true ∨ p = s) ∧ agrees ps ss

theorem isWildPart_iff (p : GoString) :
    isWildPart p = true ↔ p.head? = some colon ∨ p.head? = some star := by
  simp [isWildPart]

theorem partsMatch_cons (p s : GoString) (ps ss : List GoString) :
    partsMatch (p :: ps) (s :: ss) = true ↔
      p.head? = some star ∨ ((p.head? = some colon ∨ p = s) ∧ partsMatch ps ss = true) := by
  simp [partsMatch]

theorem starLast_parseItems : ∀ items : List GoString, StarLast (parseItems items)
  | [] => trivial
  | item :: rest => by
    rw [parseItems]
    split_ifs with h₁ h₂
    · exact ⟨fun _ => rfl, trivial⟩
    · exact ⟨fun h => absurd h h₂, starLast_parseItems rest⟩
    · exact starLast_parseItems rest

/-- `parsePattern` stops at the first part that starts with `'*'`. -/
theorem starLast_parsePattern (pattern : GoString) : StarLast (parsePattern pattern) :=
  starLast_parseItems _

/-- Before a part, no part starts with `'*'`. -/
theorem StarLast.not_star : ∀ {q : List GoString} {x : GoString} {rest : List GoString},
    StarLast (q ++ x :: rest) → ∀ p ∈ q, p.head? ≠ some star
  | [], _, _, _ => fun _ h => nomatch h
  | p :: q, x, rest, ⟨hp, hq⟩ => by
    intro p' hp' hstar
    rcases List.mem_cons.1 hp' with rfl | hp'
    · exact absurd (hp hstar) (by simp)
    · exact StarLast.not_star hq p' hp' hstar

/-- A match uses up the path's parts, or ends in a `'*'` part. -/
theorem partsMatch_end : ∀ {ps segs : List GoString}, StarLast ps →
    partsMatch ps segs = true → ps.length = segs.length ∨ ∃ q p, ps = q ++ [p] ∧ p.head? = some star
  | [], segs, _, h => .inl (by rw [List.isEmpty_iff.1 h])
  | _ :: _, [], _, h => nomatch h
  | p :: ps, s :: ss, ⟨hp, hps⟩, h => by
    rw [partsMatch_cons] at h
    by_cases hstar : p.head? = some star
    · exact .inr ⟨[], p, by rw [hp hstar]; rfl, hstar⟩
    · rcases partsMatch_end hps ((h.resolve_left hstar).2) with hl | ⟨q, p', rfl, hp'⟩
      · exact .inl (by simp [hl])
      · exact .inr ⟨p :: q, p', rfl, hp'⟩

/-- A trie path that the path's parts follow to their end, or to a `'*'` part, matches them. -/
theorem partsMatch_of_agrees : ∀ {q segs : List GoString}, agrees q segs →
    (q.length = segs.length ∨ ∃ q' p, q = q' ++ [p] ∧ p.head? = some star) →
      partsMatch q segs = true
  | [], [], _, _ => rfl
  | [], _ :: _, _, h => by simp at h
  | _ :: _, [], ha, _ => ha.elim
  | p :: ps, s :: ss, ⟨hp, hps⟩, h => by
    rw [partsMatch_cons]
    by_cases hstar : p.head? = some star
    · exact .inl hstar
    · refine .inr ⟨?_, partsMatch_of_agrees hps ?_⟩
      · rw [isWildPart_iff] at hp
        tauto
      · rcases h with h | ⟨q', p', hq, hp'⟩
        · exact .inl (by simpa using h)
        · cases q' with
          | nil =>
            obtain ⟨rfl, -⟩ := List.cons_eq_cons.1 hq
            exact absurd hp' hstar
          | cons a q' => exact .inr ⟨q', p', (List.cons_eq_cons.1 hq).2, hp'⟩

/-- A match of `q ++ x :: rest`, `q` without `'*'`, follows the path along `q` and then meets a
part that `x` matches. -/
theorem partsMatch_append : ∀ {q segs : List GoString} {x : GoString} {rest : List GoString},
    (∀ p ∈ q, p.head? ≠ some star) → partsMatch (q ++ x :: rest) segs = true →
      agrees q segs ∧ ∃ s, segs[q.length]? = some s ∧ (isWildPart x = true ∨ x = s)
  | [], [], _, _, _, h => nomatch h
  | [], s :: ss, x, rest, _, h => by
    refine ⟨trivial, s, by simp, ?_⟩
    rw [List.nil_append, partsMatch_cons] at h
    rw [isWildPart_iff]
    tauto
  | _ :: _, [], _, _, _, h => nomatch h
  | p :: q, s :: ss, x, rest, hq, h => by
    rw [List.cons_append, partsMatch_cons] at h
    rcases h with h | ⟨hps, h⟩
    · exact absurd h (hq p (List.mem_cons_self _ _))
    · obtain ⟨ha, s', hs, hx⟩ :=
        partsMatch_append (fun p' h' => hq p' (List.mem_cons_of_mem _ h')) h
      refine ⟨⟨?_, ha⟩, s', by simpa using hs, hx⟩
      rw [isWildPart_iff]
      tauto

theorem agrees.length_le : ∀ {q segs : List GoString}, agrees q segs → q.length ≤ segs.length
  | [], _, _ => Nat.zero_le _
  | _ :: _, [], h => h.elim
  | _ :: _, _ :: _, ⟨_, h⟩ => Nat.succ_le_succ h.length_le

theorem agrees_concat : ∀ {q segs : List GoString} {x s : GoString}, agrees q segs →
    segs[q.length]? = some s → (isWildPart x = true ∨ x = s) → agrees (q ++ [x]) segs
  | [], [], _, _, _, hs, _ => nomatch hs
  | [], _ :: _, _, _, _, hs, hx => by
    simp only [List.length_nil, List.getElem?_cons_zero, Option.some.injEq] at hs
    exact ⟨hs ▸ hx, trivial⟩
  | _ :: _, [], _, _, h, _, _ => h.elim
  | _ :: _, _ :: _, _, _, ⟨hp, hq⟩, hs, hx => ⟨hp, agrees_concat hq (by simpa using hs) hx⟩

theorem getLastD_star {q : List GoString} (h : (q.getLastD []).head? = some star) :
    ∃ q' p, q = q' ++ [p] ∧ p.head? = some star := by
  rcases List.eq_nil_or_concat q with rfl | ⟨q', p, rfl⟩
  · exact nomatch h
  · rw [List.concat_eq_append, List.getLastD_concat] at h
    exact ⟨q', p, List.concat_eq_append .., h⟩

/-- A path that goes on with `x` after `q` does not go on with another part. -/
theorem not_prefix_of_ne {q rest ps : List GoString} {x y : GoString}
    (hq : q ++ x :: rest = ps) (hy : y ≠ x) : ¬ q ++ [y] <+: ps := by
  rw [← hq, List.prefix_append_right_inj, List.cons_prefix_cons]
  exact fun h => hy h.1

/-! ## Kinds of parts

`matchChild` takes the first child whose part is the pattern's part or that is wild, and
`search` follows every child whose part is the path's part or that is wild. Both read a wild
part only by its first byte, so two parts that start with `':'` (or both with `'*'`) are the same
to them: a pattern inserted after `/a/:x` as `/a/:y` goes into the node of `:x`. What the trie
follows is the kinds of a pattern's parts. -/

/-- The kind of a part: `":"` for every part that starts with `':'`, `"*"` for every part that
starts with `'*'`, and the part itself for a static one. -/
def kindOf (p : GoString) : GoString :=
  if p.head? = some colon then [colon] else if p.head? = some star then [star] else p

/-- The kinds of a pattern's parts. -/
def shapeOf (pattern : GoString) : List GoString := (parsePattern pattern).map kindOf

/-- The kind a shape has after the shape `Q`, where it goes on after it. -/
def nextKind (Q S : List GoString) : Option GoString :=
  if Q <+: S then S[Q.length]? else none

/-- **Inserting a pattern of shape `S` after patterns of shapes `earlier` stays on its own
kinds**, from the node at shape `Q` on: at each place, the first earlier shape that goes on
there with a wild kind or with the kind of `S`'s part goes on with `S`'s kind. The children of
a node are made in that order, so `matchChild` then never takes the pattern into a wild child
of another kind. -/
def insertsAlong (earlier : List (List GoString)) : List GoString → List GoString → Bool
  | _, [] => true
  | Q, x :: rest =>
    ((earlier.filterMap (nextKind Q)).find? fun k => k = x || isWildPart k).all (· = x) &&
      insertsAlong earlier (Q ++ [x]) rest

/-- Kinds in the order of their first appearance: the kinds of a node's children, in the order
`insert` appends them. -/
def firstKinds (ks : List GoString) : List GoString :=
  ks.foldl (fun acc k => if k ∈ acc then acc else acc ++ [k]) []

@[simp] theorem head?_kindOf (p : GoString) : (kindOf p).head? = p.head? := by
  unfold kindOf
  split_ifs with h₁ h₂
  · rw [h₁]; rfl
  · rw [h₂]; rfl
  · rfl

@[simp] theorem isWildPart_kindOf (p : GoString) : isWildPart (kindOf p) = isWildPart p := by
  simp [isWildPart]

theorem kindOf_of_static {p : GoString} (h : isWildPart p = false) : kindOf p = p := by
  simp only [isWildPart, Bool.or_eq_false_iff, decide_eq_false_iff_not] at h
  simp [kindOf, h.1, h.2]

/-- Matching reads a part by its kind. -/
theorem partsMatch_map_kindOf : ∀ ps segs : List GoString,
    partsMatch (ps.map kindOf) segs = partsMatch ps segs
  | [], _ => rfl
  | _ :: _, [] => rfl
  | p :: ps, s :: ss => by
    simp only [List.map_cons, partsMatch, head?_kindOf, partsMatch_map_kindOf ps ss]
    cases hw : isWildPart p
    · rw [kindOf_of_static hw]
    · rcases (isWildPart_iff p).1 hw with h | h <;> simp [h]

theorem starLast_map_kindOf : ∀ {ps : List GoString}, StarLast ps → StarLast (ps.map kindOf)
  | [], _ => trivial
  | _ :: _, ⟨hp, hps⟩ =>
    ⟨fun h => by rw [hp (by rwa [head?_kindOf] at h)]; rfl, starLast_map_kindOf hps⟩

/-- A part that a path's part can follow has a kind that it can follow. -/
theorem agrees_kindOf {p s : GoString} (h : p = s ∨ isWildPart p = true) :
    isWildPart (kindOf p) = true ∨ kindOf p = s := by
  cases hw : isWildPart p
  · rw [kindOf_of_static hw]
    exact .inr (h.resolve_right (by simp [hw]))
  · exact .inl (by rw [isWildPart_kindOf, hw])

/-- A part of a kind that a path's part can follow can follow it. -/
theorem matches_of_kindOf {p x s : GoString} (hk : kindOf p = x)
    (hx : isWildPart x = true ∨ x = s) : p = s ∨ isWildPart p = true := by
  cases hw : isWildPart p
  · rw [kindOf_of_static hw] at hk
    subst hk
    exact .inl (hx.resolve_left (by simp [hw]))
  · exact .inr rfl

/-- `matchChild`'s test, on a child whose `isWild` is its part's, reads only its kind. -/
theorem matchTest_eq {c : Node} (hw : c.isWild = isWildPart c.part) (x : GoString) :
    (decide (c.part = x) || c.isWild) =
      (decide (kindOf c.part = kindOf x) || isWildPart (kindOf c.part)) := by
  rw [hw, isWildPart_kindOf]
  cases hcw : isWildPart c.part
  · rw [kindOf_of_static hcw]
    cases hxw : isWildPart x
    · rw [kindOf_of_static hxw]
    · have h₁ : c.part ≠ x := fun h => by rw [h, hxw] at hcw; cases hcw
      have h₂ : c.part ≠ kindOf x := fun h => by rw [h, isWildPart_kindOf, hxw] at hcw; cases hcw
      simp [h₁, h₂]
  · simp

/-- The child `matchChild` picks is, by kind, the first child its test accepts. -/
theorem find?_kinds_of_findIdx? {x : GoString} :
    ∀ {cs : List Node} {i : Nat}, (∀ c ∈ cs, c.isWild = isWildPart c.part) →
      cs.findIdx? (fun c => decide (c.part = x) || c.isWild) = some i →
      ∃ c, cs[i]? = some c ∧ (cs.map (kindOf ·.part)).find?
        (fun k => decide (k = kindOf x) || isWildPart k) = some (kindOf c.part)
  | [], _, _, h => nomatch h
  | c :: cs, i, hw, h => by
    rw [List.findIdx?_cons] at h
    rw [List.map_cons, List.find?_cons, ← matchTest_eq (hw c (List.mem_cons_self _ _))]
    split at h
    · rename_i hc
      cases h
      simp only [hc]
      exact ⟨c, List.getElem?_cons_zero, rfl⟩
    · rename_i hc
      rw [List.findIdx?_succ] at h
      obtain ⟨j, hj, rfl⟩ := Option.map_eq_some'.1 h
      obtain ⟨c', hc', hf⟩ :=
        find?_kinds_of_findIdx? (fun c hc => hw c (List.mem_cons_of_mem _ hc)) hj
      simp only [Bool.not_eq_true] at hc
      simp only [hc]
      exact ⟨c', List.getElem?_cons_succ.trans hc', hf⟩

theorem firstKinds_snoc (ks : List GoString) (k : GoString) :
    firstKinds (ks ++ [k]) =
      if k ∈ firstKinds ks then firstKinds ks else firstKinds ks ++ [k] := by
  simp only [firstKinds, List.foldl_append, List.foldl_cons, List.foldl_nil]

theorem mem_firstKinds {ks : List GoString} : ∀ {k : GoString}, k ∈ firstKinds ks ↔ k ∈ ks := by
  induction ks using List.reverseRecOn with
  | nil => simp [firstKinds]
  | append_singleton ks a ih =>
    intro k
    rw [firstKinds_snoc]
    split_ifs with h
    · rw [ih, List.mem_append, List.mem_singleton]
      exact ⟨Or.inl, fun h' => h'.elim id fun e => e ▸ ih.1 h⟩
    · simp [ih]

theorem nodup_firstKinds (ks : List GoString) : (firstKinds ks).Nodup := by
  induction ks using List.reverseRecOn with
  | nil => exact List.nodup_nil
  | append_singleton ks a ih =>
    rw [firstKinds_snoc]
    split_ifs with h
    · exact ih
    · rw [List.Nodup, List.pairwise_append]
      refine ⟨ih, List.pairwise_singleton _ _, fun y hy z hz hyz => h ?_⟩
      rw [← List.mem_singleton.1 hz, ← hyz]
      exact hy

/-- The first kind a test accepts is the same among the kinds and among their first
appearances. -/
theorem find?_firstKinds (p : GoString → Bool) (ks : List GoString) :
    (firstKinds ks).find? p = ks.find? p := by
  induction ks using List.reverseRecOn with
  | nil => rfl
  | append_singleton ks a ih =>
    rw [firstKinds_snoc, List.find?_append]
    split_ifs with h
    · rw [ih]
      cases hf : ks.find? p with
      | some _ => rfl
      | none =>
        have hpa : p a = false := by simpa using List.find?_eq_none.1 hf a (mem_firstKinds.1 h)
        simp [hpa]
    · rw [List.find?_append, ih]

theorem nextKind_of_prefix {Q S : List GoString} {x : GoString} (h : Q ++ [x] <+: S) :
    nextKind Q S = some x := by
  obtain ⟨t, rfl⟩ := h
  rw [nextKind, if_pos ((List.prefix_append _ _).trans (List.prefix_append _ _)),
    List.append_assoc, List.getElem?_append_right (Nat.le_refl _), Nat.sub_self,
    List.singleton_append]
  exact List.getElem?_cons_zero

theorem nextKind_of_not_prefix {Q S : List GoString} (h : ¬ Q <+: S) : nextKind Q S = none := by
  rw [nextKind, if_neg h]

theorem nextKind_self (S : List GoString) : nextKind S S = none := by
  simp [nextKind]

/-- The kinds after `Q` of the shapes of `R`, in order. -/
def kindsAfter (R : List GoString) (Q : List GoString) : List GoString :=
  (R.map shapeOf).filterMap (nextKind Q)

theorem kindsAfter_append (R : List GoString) (P : GoString) (Q : List GoString) :
    kindsAfter (R ++ [P]) Q = kindsAfter R Q ++ (nextKind Q (shapeOf P)).toList := by
  rw [kindsAfter, kindsAfter, List.map_append, List.filterMap_append, List.map_singleton]
  cases h : nextKind Q (shapeOf P) <;> simp [h]

/-! ## The invariant of a routing trie -/

/-- **The trie below `n`, the node at shape `Q`, stores the patterns `R`.** The node's part is
of the last kind of `Q`, and it is wild when its part is. Its pattern, when set, is a pattern of
`R` of shape `Q`, and it is set when `R` has one. Its children are of the kinds the shapes of
`R` have after `Q`, each once, in the order of their first appearance in `R`. -/
inductive Node.Holds (R : List GoString) : List GoString → Node → Prop
  | mk {Q : List GoString} {n : Node}
      (part : kindOf n.part = Q.getLastD [])
      (wild : n.isWild = isWildPart n.part)
      (pattern : n.pattern ≠ [] → n.pattern ∈ R ∧ shapeOf n.pattern = Q)
      (complete : ∀ P ∈ R, shapeOf P = Q → n.pattern ≠ [])
      (kinds : n.children.map (kindOf ·.part) = firstKinds (kindsAfter R Q))
      (children : ∀ c ∈ n.children, Node.Holds R (Q ++ [kindOf c.part]) c) :
      Node.Holds R Q n

section Holds

variable {R : List GoString} {P : GoString}

theorem Node.Holds.isWild_eq {Q : List GoString} {n : Node} (h : n.Holds R Q) :
    n.isWild = isWildPart n.part := by
  cases h; assumption

/-- A node on the shape of no pattern of `R`: a new child, as `insert` appends it. -/
theorem Node.Holds.fresh {Q : List GoString} {part : GoString} (hq : kindOf part = Q.getLastD [])
    (hR : ∀ P ∈ R, ¬ Q <+: shapeOf P) :
    Node.Holds R Q ⟨[], part, [], isWildPart part⟩ := by
  refine .mk hq rfl (fun h => absurd rfl h)
    (fun P hP he => absurd (he ▸ List.prefix_refl _) (hR P hP)) ?_ (fun _ h => nomatch h)
  rw [kindsAfter, List.filterMap_eq_nil_iff.2 fun S hS => ?_]
  · rfl
  · obtain ⟨P, hP, rfl⟩ := List.mem_map.1 hS
    exact nextKind_of_not_prefix (hR P hP)

/-- A pattern off the shape `Q` changes nothing the trie below `Q` stores. -/
theorem Node.Holds.append_off {Q : List GoString} {n : Node} (h : n.Holds R Q)
    (hoff : ¬ Q <+: shapeOf P) : n.Holds (R ++ [P]) Q := by
  induction h with
  | @mk Q n hpart hwild hpat hcompl hkinds _ ih =>
    refine ⟨hpart, hwild, fun h => (hpat h).imp_left (List.mem_append_left _), ?_, ?_,
      fun c hc => ih c hc fun h => hoff ((List.prefix_append _ _).trans h)⟩
    · intro P' hP' he
      rcases List.mem_append.1 hP' with hP' | hP'
      · exact hcompl P' hP' he
      · rw [List.mem_singleton.1 hP'] at he
        exact absurd (he ▸ List.prefix_refl Q) hoff
    · rw [kindsAfter_append, nextKind_of_not_prefix hoff, Option.toList_none, List.append_nil]
      exact hkinds

/-- The end of the shape: the node at `P`'s shape takes `P` as its pattern. -/
theorem Node.Holds.store {Q : List GoString} {n : Node} (h : n.Holds R Q) (hne : P ≠ [])
    (hq : Q = shapeOf P) : ({ n with pattern := P } : Node).Holds (R ++ [P]) Q := by
  obtain ⟨hpart, hwild, -, -, hkinds, hch⟩ := h
  have hshort : ∀ x, ¬ Q ++ [x] <+: shapeOf P := fun x h => by
    have := h.length_le
    rw [← hq, List.length_append, List.length_singleton] at this
    omega
  have hnext : nextKind Q (shapeOf P) = none := hq ▸ nextKind_self Q
  refine ⟨hpart, hwild, fun _ => ⟨List.mem_append_right _ (List.mem_singleton_self _), hq.symm⟩,
    fun _ _ _ => hne, ?_, fun c hc => (hch c hc).append_off (hshort _)⟩
  rw [kindsAfter_append, hnext, Option.toList_none, List.append_nil]
  exact hkinds

/-- On the shape, before `x`: the node at `Q` with new children `cs` keeps the invariant for
`R ++ [P]` when the children's kinds are those of `R` and then `x`, in order of first
appearance, and each child keeps it. -/
theorem Node.Holds.withChildren {Q rest : List GoString} {x : GoString} {n : Node}
    {cs : List Node} (h : n.Holds R Q) (hq : Q ++ x :: rest = shapeOf P)
    (hkinds : cs.map (kindOf ·.part) = firstKinds (kindsAfter R Q ++ [x]))
    (hch : ∀ c ∈ cs, c.Holds (R ++ [P]) (Q ++ [kindOf c.part])) :
    ({ n with children := cs } : Node).Holds (R ++ [P]) Q := by
  obtain ⟨hpart, hwild, hpat, hcompl, -, -⟩ := h
  refine ⟨hpart, hwild, fun h => (hpat h).imp_left (List.mem_append_left _), ?_, ?_, hch⟩
  · intro P' hP' he
    rcases List.mem_append.1 hP' with hP' | hP'
    · exact hcompl P' hP' he
    · rw [List.mem_singleton.1 hP', ← hq] at he
      simp at he
  · rw [kindsAfter_append, nextKind_of_prefix (x := x) ⟨rest, by rw [← hq]; simp⟩]
    exact hkinds

/-- Children at two indices of a list whose `f`s are distinct have distinct `f`s. -/
theorem ne_of_nodup_map {cs : List Node} {f : Node → GoString} (hnd : (cs.map f).Nodup)
    {i j : Nat} {c c' : Node} (hi : cs[i]? = some c) (hj : cs[j]? = some c') (hji : j ≠ i) :
    f c' ≠ f c := by
  intro he
  have hi' : (cs.map f)[i]? = some (f c) := by rw [List.getElem?_map, hi]; rfl
  have hj' : (cs.map f)[j]? = some (f c) := by
    rw [List.getElem?_map, hj]; exact congrArg some he
  exact hji (List.getElem?_inj (List.getElem?_eq_some_iff.1 hj').1 hnd (hj'.trans hi'.symm))

/-- **`insert` keeps the invariant**, for a non-empty pattern inserted along its own kinds:
the node at `Q`, on the pattern's shape, stores the pattern too once `insert` has gone below it
with the parts after `Q`. -/
theorem Node.Holds.insert (hne : P ≠ []) :
    ∀ {rest Q : List GoString} {n : Node}, n.Holds R Q → Q ++ rest.map kindOf = shapeOf P →
      insertsAlong (R.map shapeOf) Q (rest.map kindOf) = true →
      (n.insert P rest).Holds (R ++ [P]) Q
  | [], _, _, h, hq, _ => h.store hne (by rwa [List.map_nil, List.append_nil] at hq)
  | x :: rest, Q, n, h, hq, hins => by
    rw [List.map_cons, insertsAlong, Bool.and_eq_true] at hins
    obtain ⟨hfirst, hins⟩ := hins
    rw [List.map_cons] at hq
    obtain ⟨-, -, -, -, hkinds, hch⟩ := id h
    have hwilds : ∀ c ∈ n.children, c.isWild = isWildPart c.part :=
      fun c hc => (hch c hc).isWild_eq
    have hoff : ∀ c ∈ n.children, kindOf c.part ≠ kindOf x →
        c.Holds (R ++ [P]) (Q ++ [kindOf c.part]) :=
      fun c hc hcx => (hch c hc).append_off (not_prefix_of_ne hq hcx)
    rw [Node.insert]
    split
    · rename_i i hi
      obtain ⟨c, hci, hfind⟩ := find?_kinds_of_findIdx? hwilds hi
      have hcm : c ∈ n.children := List.getElem?_mem hci
      -- the earlier patterns made the child of `x`'s kind before any wild child of another kind
      have hcx : kindOf c.part = kindOf x := by
        rw [hkinds, find?_firstKinds] at hfind
        change ((kindsAfter R Q).find? _).all _ = true at hfirst
        rw [hfind] at hfirst
        simpa using hfirst
      have hmap : (n.children.modify (·.insert P rest) i).map (kindOf ·.part) =
          n.children.map (kindOf ·.part) :=
        map_modify (fun c => by rw [Node.insert_part]) i _
      have hmem : kindOf x ∈ firstKinds (kindsAfter R Q) :=
        hkinds ▸ hcx ▸ List.mem_map_of_mem _ hcm
      refine h.withChildren hq (by rw [hmap, hkinds, firstKinds_snoc, if_pos hmem]) ?_
      refine forall_mem_modify (fun j c' hj hji => hoff c' (List.getElem?_mem hj)
        (hcx ▸ ne_of_nodup_map (hkinds ▸ nodup_firstKinds _) hci hj hji)) fun c' hc' => ?_
      rw [hci] at hc'
      cases hc'
      rw [Node.insert_part]
      exact (hch c hcm).insert hne (by rw [hcx, List.append_assoc]; exact hq) (hcx ▸ hins)
    · rename_i hnone
      have hnone' := List.findIdx?_eq_none_iff.1 hnone
      -- no child is of `x`'s kind, and no stored pattern goes on with it
      have hx : kindOf x ∉ firstKinds (kindsAfter R Q) := by
        rw [← hkinds]
        intro hm
        obtain ⟨c, hc, hcx⟩ := List.mem_map.1 hm
        have := hnone' c hc
        rw [matchTest_eq (hwilds c hc) x, hcx] at this
        simp at this
      have hfresh : Node.Holds R (Q ++ [kindOf x]) ⟨[], x, [], isWildPart x⟩ :=
        Node.Holds.fresh (List.getLastD_concat _ _ _).symm fun P' hP' h' => hx <|
          mem_firstKinds.2 (List.mem_filterMap.2
            ⟨shapeOf P', List.mem_map_of_mem _ hP', nextKind_of_prefix h'⟩)
      refine h.withChildren hq ?_ fun c hc => ?_
      · rw [List.map_append, hkinds, firstKinds_snoc, if_neg hx]
        simp
      · rcases List.mem_append.1 hc with hc | hc
        · exact hoff c hc fun e => hx (hkinds ▸ e ▸ List.mem_map_of_mem _ hc)
        · rw [List.mem_singleton.1 hc, Node.insert_part]
          exact hfresh.insert hne (by rw [List.append_assoc]; exact hq) hins

/-- **What `search` finds is a stored pattern that matches.** -/
theorem Node.Holds.search_sound {segs : List GoString} {m : Node} {Q : List GoString} {n : Node}
    (h : n.Holds R Q) (ha : agrees Q segs) (hs : n.search segs Q.length = some m) :
    m.pattern ∈ R ∧ partsMatch (parsePattern m.pattern) segs = true := by
  induction h with
  | @mk Q n hpart _ hpat _ _ hch ih =>
    rw [Node.search_eq] at hs
    split_ifs at hs with hend hne
    · cases hs
      obtain ⟨hR, hq⟩ := hpat hne
      refine ⟨hR, ?_⟩
      rw [← partsMatch_map_kindOf]
      change partsMatch (shapeOf m.pattern) segs = true
      rw [hq]
      exact partsMatch_of_agrees ha (hend.imp_right fun hstar =>
        getLastD_star (by rw [← hpart, head?_kindOf]; exact hstar))
    · have hlt : Q.length < segs.length := lt_of_le_of_ne ha.length_le fun e => hend (.inl e)
      rw [List.getElem?_eq_getElem hlt] at hs
      obtain ⟨c, hc, hcs⟩ := List.exists_of_findSome?_eq_some hs
      simp only [Node.matchChildren, List.mem_filter, Bool.or_eq_true, decide_eq_true_eq] at hc
      refine ih c hc.1 (agrees_concat ha (List.getElem?_eq_getElem hlt) ?_) (by simpa using hcs)
      exact agrees_kindOf (hc.2.imp_right fun hw => (hch c hc.1).isWild_eq.symm.trans hw)

/-- **`search` finds a node when a stored pattern matches**, from every node on its shape. -/
theorem Node.Holds.search_complete {segs : List GoString} (hP : P ∈ R)
    (hm : partsMatch (parsePattern P) segs = true) {Q : List GoString} {n : Node}
    (h : n.Holds R Q) (hq : Q <+: shapeOf P) : (n.search segs Q.length).isSome := by
  have hmS : partsMatch (shapeOf P) segs = true := by rwa [shapeOf, partsMatch_map_kindOf]
  have hsl : StarLast (shapeOf P) := starLast_map_kindOf (starLast_parsePattern P)
  induction h with
  | @mk Q n hpart _ _ hcompl hkinds hch ih =>
    obtain ⟨rest, hrest⟩ := hq
    rw [Node.search_eq]
    cases rest with
    | nil =>
      rw [List.append_nil] at hrest
      have hend : Q.length = segs.length ∨ n.part.head? = some star := by
        rcases partsMatch_end (hrest ▸ hsl) (hrest ▸ hmS) with h | ⟨q', p, rfl, hp⟩
        · exact .inl h
        · exact .inr (by rw [← head?_kindOf, hpart, List.getLastD_concat]; exact hp)
      rw [if_pos hend, if_neg (hcompl P hP hrest.symm)]
      rfl
    | cons x rest =>
      have hsf := (hrest ▸ hsl : StarLast (Q ++ x :: rest)).not_star
      obtain ⟨-, s, hs, hx⟩ := partsMatch_append hsf (hrest ▸ hmS)
      have hlt : Q.length < segs.length := (List.getElem?_eq_some_iff.1 hs).1
      have hnstar : n.part.head? ≠ some star := by
        rw [← head?_kindOf, hpart]
        rcases List.eq_nil_or_concat Q with rfl | ⟨q', p, rfl⟩
        · exact nofun
        · rw [List.concat_eq_append, List.getLastD_concat]
          exact hsf p (by simp)
      rw [if_neg (not_or.2 ⟨hlt.ne, hnstar⟩), hs]
      -- `n` has a child of kind `x`, and the path's part can follow it
      have hxk : x ∈ n.children.map (kindOf ·.part) := by
        rw [hkinds, mem_firstKinds]
        exact List.mem_filterMap.2 ⟨shapeOf P, List.mem_map_of_mem _ hP,
          nextKind_of_prefix ⟨rest, by rw [← hrest]; simp⟩⟩
      obtain ⟨c, hc, hcx⟩ := List.mem_map.1 hxk
      simp only [Node.matchChildren, List.findSome?_isSome_iff, List.mem_filter, Bool.or_eq_true,
        decide_eq_true_eq]
      refine ⟨c, ⟨hc, ?_⟩, by simpa using ih c hc ⟨rest, by rw [hcx, ← hrest]; simp⟩⟩
      exact (matches_of_kindOf hcx hx).imp_right fun hw => (hch c hc).isWild_eq.trans hw

end Holds

/-! ## Parameters -/

/-- The part binds `name`: it is `':name'`, or `'*name'` with a non-empty name. -/
def binds (p name : GoString) : Bool := p = colon :: name || (p = star :: name && !name.isEmpty)

/-- The value a part at place `i` of a pattern binds on the path's parts `segs`: the path's part
at `i` for `':name'`, its parts from `i` on, joined by `'/'`, for `'*name'`. -/
def boundValue (segs : List GoString) (i : Nat) (p : GoString) : GoString :=
  if p.head? = some star then join (segs.drop i) slash else segs[i]?.getD []

/-- What the parts of a pattern from place `i` on bind `name` to: the value of the last part
that binds it. -/
def bindingFrom (segs ps : List GoString) (i : Nat) (name : GoString) : Option GoString :=
  (ps.enumFrom i).reverse.findSome? fun ip =>
    if binds ip.2 name then some (boundValue segs ip.1 ip.2) else none

/-- **The parameters of a route**: each name bound to the value of the last part of the pattern
that binds it. -/
def bindingOf (segs ps : List GoString) : Params := bindingFrom segs ps 0

theorem bindingFrom_cons (segs ps : List GoString) (p name : GoString) (i : Nat) :
    bindingFrom segs (p :: ps) i name = (bindingFrom segs ps (i + 1) name).or
      (if binds p name then some (boundValue segs i p) else none) := by
  simp only [bindingFrom, List.enumFrom_cons, List.reverse_cons, List.findSome?_append,
    List.findSome?_cons, List.findSome?_nil]
  cases binds p name <;> rfl

theorem star_ne_colon : star ≠ colon := by decide

theorem binds_of_colon {p : GoString} (hp : p.head? = some colon) (name : GoString) :
    binds p name = decide (name = p.tail) := by
  obtain ⟨t, rfl⟩ := List.head?_eq_some_iff.1 hp
  by_cases h : name = t
  · subst h; simp [binds]
  · simp [binds, h, Ne.symm h, star_ne_colon.symm]

theorem binds_of_star {p : GoString} (hp : p.head? = some star) (hl : p.length > 1)
    (name : GoString) : binds p name = decide (name = p.tail) := by
  obtain ⟨t, rfl⟩ := List.head?_eq_some_iff.1 hp
  have ht : t ≠ [] := by rintro rfl; simp at hl
  by_cases h : name = t
  · subst h; simp [binds, star_ne_colon, ht]
  · simp [binds, h, Ne.symm h, star_ne_colon]

theorem binds_of_static {p : GoString} (hc : p.head? ≠ some colon)
    (hs : ¬ (p.head? = some star ∧ p.length > 1)) (name : GoString) : binds p name = false := by
  have h₁ : decide (p = colon :: name) = false := decide_eq_false fun h => hc (h ▸ rfl)
  have h₂ : (decide (p = star :: name) && !name.isEmpty) = false := by
    cases name with
    | nil => simp
    | cons a t =>
      rw [List.isEmpty_cons, Bool.not_false, Bool.and_true]
      exact decide_eq_false fun h => hs ⟨h ▸ rfl, h ▸ by simp⟩
  rw [binds, h₁, h₂]
  rfl

/-- **The loop of `getRoute` over a matching pattern's parts** stays in range and binds each name
to the value of the last part that binds it, over what `params` held before. -/
theorem bindParams_eq (segs : List GoString) : ∀ (ps : List GoString) (idx : Nat) (acc : Params),
    StarLast ps → partsMatch ps (segs.drop idx) = true →
      bindParams segs ps idx acc = some fun name => (bindingFrom segs ps idx name).or (acc name)
  | [], _, acc, _, _ => rfl
  | p :: ps, idx, acc, ⟨hlast, hsl⟩, hm => by
    obtain ⟨s, ss, hd⟩ : ∃ s ss, segs.drop idx = s :: ss := by
      cases h : segs.drop idx with
      | nil => rw [h] at hm; exact nomatch hm
      | cons s ss => exact ⟨s, ss, rfl⟩
    have hs : segs[idx]? = some s := by
      rw [← Nat.add_zero idx, ← List.getElem?_drop, hd, List.getElem?_cons_zero]
    have hss : segs.drop (idx + 1) = ss := by rw [← List.drop_drop, hd]; rfl
    rw [hd, partsMatch_cons] at hm
    rw [bindParams]
    split_ifs with h₁ h₂ h₃
    · rw [hs]
      dsimp only
      rw [bindParams_eq segs ps (idx + 1) _ hsl
        (hss ▸ (hm.resolve_left fun h => by rw [h₁] at h; exact nomatch h).2)]
      have hv : boundValue segs idx p = s := by
        rw [boundValue, if_neg (by rw [h₁]; exact nofun), hs]
        rfl
      congr 1
      funext name
      rw [bindingFrom_cons, Option.or_assoc, binds_of_colon h₁, hv]
      by_cases hn : name = p.tail <;> simp [Function.update, hn, List.drop_one]
    · have hps : ps = [] := hlast h₂.1
      subst hps
      congr 1
      funext name
      rw [bindingFrom_cons, binds_of_star h₂.1 h₂.2, boundValue, if_pos h₂.1]
      by_cases hn : name = p.tail <;> simp [bindingFrom, Function.update, hn, List.drop_one]
    · have hlen := congrArg List.length hd
      rw [List.length_drop, List.length_cons] at hlen
      exact absurd (by omega) h₃
    · -- A lone star ends the pattern; any other static part is matched and passed over.
      have hrec : bindParams segs ps (idx + 1) acc =
          some fun name => (bindingFrom segs ps (idx + 1) name).or (acc name) := by
        by_cases hstar : p.head? = some star
        · obtain rfl := hlast hstar
          rfl
        · exact bindParams_eq segs ps (idx + 1) acc hsl (hss ▸ (hm.resolve_left hstar).2)
      rw [hrec]
      congr 1
      funext name
      rw [bindingFrom_cons, binds_of_static h₁ h₂]
      simp

/-! ## Registrations -/

variable {H : Type}

/-- The router after `addRoute(method, pattern, handler)` for each registration, in order. -/
def routerOf (regs : List (GoString × GoString × H)) : router H :=
  regs.foldl (fun r reg => r.addRoute reg.1 reg.2.1 reg.2.2) newRouter

/-- The patterns registered for `method`, in order. -/
def patternsFor (regs : List (GoString × GoString × H)) (method : GoString) : List GoString :=
  (regs.filter (·.1 = method)).map (·.2.1)

/-- **Each registration, after those before it, inserts its pattern along its own kinds** into
its method's trie (`insertsAlong`): `matchChild` never takes it into a wild child of another kind
that an earlier registration made. -/
def registeredAlong (done : List (GoString × GoString × H)) :
    List (GoString × GoString × H) → Bool
  | [] => true
  | reg :: rest =>
    insertsAlong ((patternsFor done reg.1).map shapeOf) [] (shapeOf reg.2.1) &&
      registeredAlong (done ++ [reg]) rest

/-- Each method's trie stores the patterns registered for it. -/
def router.Stores (r : router H) (regs : List (GoString × GoString × H)) : Prop :=
  ∀ method, ((r.roots method).getD Node.empty).Holds (patternsFor regs method) [] ∧
    (r.roots method = none → patternsFor regs method = [])

theorem newRouter_stores : (newRouter : router H).Stores [] := fun _ =>
  ⟨Node.Holds.fresh rfl (fun _ h => nomatch h), fun _ => rfl⟩

theorem patternsFor_append (regs : List (GoString × GoString × H))
    (reg : GoString × GoString × H) (method : GoString) : patternsFor (regs ++ [reg]) method =
      patternsFor regs method ++ if reg.1 = method then [reg.2.1] else [] := by
  by_cases h : reg.1 = method <;> simp [patternsFor, List.filter_append, h]

theorem router.Stores.addRoute {r : router H} {regs : List (GoString × GoString × H)}
    (hr : r.Stores regs) {method P : GoString} (handler : H) (hne : P ≠ [])
    (hins : insertsAlong ((patternsFor regs method).map shapeOf) [] (shapeOf P) = true) :
    (r.addRoute method P handler).Stores (regs ++ [(method, P, handler)]) := by
  intro m
  simp only [patternsFor_append, router.addRoute, Function.update_apply]
  by_cases hm : m = method
  · subst hm
    simp only [if_true]
    exact ⟨(hr m).1.insert hne (List.nil_append _) hins, nofun⟩
  · simp only [if_neg hm, if_neg (Ne.symm hm), List.append_nil]
    exact hr m

/-- **Every registration sequence of non-empty patterns, each inserted along its own kinds,
builds tries that store them.** -/
theorem routerOf_stores (regs : List (GoString × GoString × H))
    (hne : ∀ reg ∈ regs, reg.2.1 ≠ []) (hord : registeredAlong [] regs = true) :
    (routerOf regs).Stores regs := by
  suffices ∀ (rest done : List (GoString × GoString × H)) (r : router H), r.Stores done →
      done ++ rest = regs → registeredAlong done rest = true →
        (rest.foldl (fun r reg => r.addRoute reg.1 reg.2.1 reg.2.2) r).Stores regs
    from this regs [] newRouter newRouter_stores rfl hord
  intro rest
  induction rest with
  | nil => intro done r hr hd _; rw [List.append_nil] at hd; exact hd ▸ hr
  | cons reg rest ih =>
    intro done r hr hd hord
    rw [registeredAlong, Bool.and_eq_true] at hord
    have hmem : reg ∈ regs := hd ▸ List.mem_append_right _ (List.mem_cons_self _ _)
    exact ih (done ++ [reg]) _ (hr.addRoute reg.2.2 (hne reg hmem) hord.1) (by simp [← hd]) hord.2

/-- Every registration sequence keeps the depth invariant of every trie. -/
theorem routerOf_depth (regs : List (GoString × GoString × H)) : (routerOf regs).Depth := by
  suffices ∀ r : router H, r.Depth →
      (regs.foldl (fun r reg => r.addRoute reg.1 reg.2.1 reg.2.2) r).Depth
    from this newRouter newRouter_depth
  induction regs with
  | nil => exact fun _ hr => hr
  | cons reg rest ih => exact fun r hr => ih _ (hr.addRoute reg.1 reg.2.1 reg.2.2)

/-- **`getRoute` never indexes out of range**, after any sequence of `addRoute` calls, for every
method and path: every trie keeps the depth invariant (a node at depth `d` that holds a pattern
holds one of `d` parts, also after an insert overwrites it), so the node `search` finds holds a
pattern of at most as many parts as the path, and the loop over its parts reads
`searchParts[index]` and `searchParts[index:]` in range. -/
theorem getRoute_in_range (regs : List (GoString × GoString × H)) (method path : GoString) :
    (routerOf regs).Depth ∧
    (∀ root n, (routerOf regs).roots method = some root →
      root.search (parsePattern path) 0 = some n →
        n.pattern ≠ [] ∧ (parsePattern n.pattern).length ≤ (parsePattern path).length) ∧
    (routerOf regs).getRoute method path ≠ .outOfRange :=
  have hd := routerOf_depth regs
  ⟨hd, fun root _ hroot hs => (hd method root hroot).search (Nat.zero_le _) hs,
    (routerOf regs).getRoute_ne_outOfRange hd method path⟩

/-- What `getRoute` returns once `search` has found `n` in a trie that stores the registered
patterns. -/
theorem getRoute_of_search {regs : List (GoString × GoString × H)} {method path : GoString}
    (hst : (routerOf regs).Stores regs) {root n : Node}
    (hroot : (routerOf regs).roots method = some root)
    (hs : root.search (parsePattern path) 0 = some n) :
    (routerOf regs).getRoute method path =
        .found n (bindingOf (parsePattern path) (parsePattern n.pattern)) ∧
      n.pattern ∈ patternsFor regs method ∧
      partsMatch (parsePattern n.pattern) (parsePattern path) = true := by
  have hholds := (hst method).1
  rw [hroot, Option.getD_some] at hholds
  obtain ⟨hR, hm⟩ := hholds.search_sound trivial hs
  refine ⟨?_, hR, hm⟩
  unfold router.getRoute
  rw [hroot]
  dsimp only
  rw [hs]
  dsimp only
  rw [bindParams_eq (parsePattern path) (parsePattern n.pattern) 0 _ (starLast_parsePattern _) hm]
  simp only [Option.or_none]
  rfl

/-- Where `search` finds nothing, `getRoute` finds nothing. -/
theorem getRoute_of_search_none {r : router H} {method path : GoString}
    (h : (r.roots method).bind (·.search (parsePattern path) 0) = none) :
    r.getRoute method path = .notFound := by
  unfold router.getRoute
  cases hroot : r.roots method with
  | none => rfl
  | some root =>
    rw [hroot] at h
    dsimp only
    rw [show root.search (parsePattern path) 0 = none from h]

/-- Where `search` finds nothing in a trie that stores the registered patterns, no registered
pattern matches. -/
theorem router.Stores.not_partsMatch {r : router H} {regs : List (GoString × GoString × H)}
    (hst : r.Stores regs) {method path P : GoString}
    (h : (r.roots method).bind (·.search (parsePattern path) 0) = none)
    (hP : P ∈ patternsFor regs method) :
    partsMatch (parsePattern P) (parsePattern path) ≠ true := by
  intro hm
  cases hroot : r.roots method with
  | none => rw [(hst method).2 hroot] at hP; exact nomatch hP
  | some root =>
    have hholds := (hst method).1
    rw [hroot, Option.getD_some] at hholds
    rw [hroot, Option.some_bind] at h
    have := hholds.search_complete hP hm List.nil_prefix
    rw [List.length_nil, h] at this
    exact nomatch this

/-- `/a/b`, then `/a/:x`: a static part, then a wild one at the same place. -/
def staticThenWild : List (GoString × GoString × Nat) :=
  [(GoString.ofString "GET", GoString.ofString "/a/b", 0),
    (GoString.ofString "GET", GoString.ofString "/a/:x", 1)]

/-- The handler stored under the key `k` after the registrations: that of the last registration
whose key is `k`. -/
def handlerFor (regs : List (GoString × GoString × H)) (k : GoString) : Option H :=
  (regs.reverse.find? fun reg => routeKey reg.1 reg.2.1 = k).map (·.2.2)

theorem foldl_addRoute_handlers (regs : List (GoString × GoString × H)) (r : router H)
    (k : GoString) :
    (regs.foldl (fun r reg => r.addRoute reg.1 reg.2.1 reg.2.2) r).handlers k =
      (handlerFor regs k).or (r.handlers k) := by
  induction regs generalizing r with
  | nil => rfl
  | cons reg rest ih =>
    rw [List.foldl_cons, ih]
    simp only [handlerFor, List.reverse_cons, List.find?_append, List.find?_singleton,
      router.addRoute, Function.update_apply]
    cases (rest.reverse.find? fun reg => routeKey reg.1 reg.2.1 = k) with
    | some _ => rfl
    | none =>
      by_cases hk : routeKey reg.1 reg.2.1 = k
      · simp [hk]
      · simp [hk, Ne.symm hk]

/-- A pattern registered for a method has a handler under its key. -/
theorem handlerFor_isSome {regs : List (GoString × GoString × H)} {method P : GoString}
    (hP : P ∈ patternsFor regs method) : (handlerFor regs (routeKey method P)).isSome := by
  obtain ⟨reg, hreg, rfl⟩ := List.mem_map.1 hP
  obtain ⟨hreg, hm⟩ := List.mem_filter.1 hreg
  rw [handlerFor, Option.isSome_map', List.find?_isSome]
  exact ⟨reg, List.mem_reverse.2 hreg, by simp [of_decide_eq_true hm]⟩

end LetsGo.Gee
