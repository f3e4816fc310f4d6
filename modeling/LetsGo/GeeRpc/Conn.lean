import Mathlib
import LetsGo.GeeRpc.Server

/-!
# A connection: the loop of `serveCodec` and the goroutines it starts

`serveCodec` (`src/Geektutu/Gee/main.go`, lines 247-269) reads requests one by one; it answers
a request whose body fails to decode itself, and hands each other request to a `handleRequest`
goroutine (lines 319-347), which runs concurrently with the loop and with the others. Every
response goes out through `sendResponse` under the `sending` mutex, whole.

* A `Conn` is the loop's events still to come (`serveCodec`'s list), the responses the loop has
  written itself, and each started request with where its handling is.
* `ConnStep` is one step of any of them: the loop answers or starts a goroutine, or one handling
  takes an `HStep`. Every interleaving is a run of `ConnStep`.
* Responses are compared by `ServiceMethod` and `Seq`, which is how a client matches a response
  to its call.

Results:
* `ConnInv.reachable`: every state reached from `Conn.init` has done a prefix of the loop's
  events, written the loop's own responses for it, started one handling per request in it, and
  each handling is a run of `HStep`.
* `serveCodec_keys`: the loop's events are one per frame before the first frame `readRequest`
  returns no request for, each with that frame's header.
* `serveConn_responses`: when every call the loop hands on returns, or `handleRequest` has a
  timer, then where no step is left the loop is done and the responses written are, up to
  order, one per frame read before that first frame, each carrying the frame's `ServiceMethod`
  and `Seq`: none lost, none duplicated.
* `ConnStep.exists_final`: no interleaving goes on forever, so every run can be taken on to a
  state where no step is left.
-/

namespace LetsGo.GeeRpc

variable {Arg Reply : Type}

/-- What a client matches a response by. -/
def Header.key (h : Header) : GoString × UInt64 := (h.ServiceMethod, h.Seq)

/-- The header an event of the loop is about. -/
def Event.header : Event Arg Reply → Header
  | .respond h _ => h
  | .spawn req => req.h

/-- The response the loop writes itself for an event. -/
def Event.loopResponse : Event Arg Reply → Option (Header × Option Reply)
  | .respond h body => some (h, body)
  | .spawn _ => none

/-- The request an event hands to `handleRequest`. -/
def Event.spawned : Event Arg Reply → Option (request Arg Reply)
  | .respond _ _ => none
  | .spawn req => some req

/-- Every call the loop hands on returns, or `handleRequest` has a timer. -/
def CallsEnd (timeout : Nat) (events : List (Event Arg Reply)) : Prop :=
  timeout ≠ 0 ∨ ∀ req ∈ events.filterMap Event.spawned, (req.mtype.call req.argv).isSome

/-- A connection being served. -/
structure Conn (Arg Reply : Type) where
  /-- What the loop has still to do. -/
  events : List (Event Arg Reply)
  /-- The responses the loop has written itself. -/
  written : List (Header × Option Reply)
  /-- Each request handed to `handleRequest`, and where its handling is. -/
  handlers : List (request Arg Reply × Handling Reply)

/-- The connection as the loop starts on it. -/
def Conn.init (events : List (Event Arg Reply)) : Conn Arg Reply := ⟨events, [], []⟩

/-- Every response written on the connection. -/
def Conn.sent (c : Conn Arg Reply) : List (Header × Option Reply) :=
  c.written ++ c.handlers.flatMap (·.2.sent)

/-- One step of the loop or of one handling. -/
inductive ConnStep (timeout : Nat) (timeoutText : Nat → String) :
    Conn Arg Reply → Conn Arg Reply → Prop
  | respond {h body evs written hs} :
      ConnStep timeout timeoutText ⟨.respond h body :: evs, written, hs⟩
        ⟨evs, written ++ [(h, body)], hs⟩
  | spawn {req evs written hs} :
      ConnStep timeout timeoutText ⟨.spawn req :: evs, written, hs⟩
        ⟨evs, written, hs ++ [(req, .start)]⟩
  | handle {evs written hs i req t t'} (hi : hs[i]? = some (req, t))
      (hstep : HStep req timeout timeoutText t t') :
      ConnStep timeout timeoutText ⟨evs, written, hs⟩ ⟨evs, written, hs.set i (req, t')⟩

/-! ## Every reachable connection -/

section Run

variable {timeout : Nat} {timeoutText : Nat → String} {events : List (Event Arg Reply)}

/-- What the states reached from `Conn.init events` satisfy. -/
structure ConnInv (timeout : Nat) (timeoutText : Nat → String) (events : List (Event Arg Reply))
    (c : Conn Arg Reply) : Prop where
  /-- The loop has done a prefix of the events: it wrote the answers of the `respond`s in it and
  started the requests of the `spawn`s in it, in order. -/
  done : ∃ done, events = done ++ c.events ∧ c.written = done.filterMap Event.loopResponse ∧
    c.handlers.map Prod.fst = done.filterMap Event.spawned
  /-- Each handling is a run of `HStep` from its start. -/
  reach : ∀ p ∈ c.handlers, Relation.ReflTransGen (HStep p.1 timeout timeoutText) .start p.2

theorem map_fst_set {hs : List (request Arg Reply × Handling Reply)} {i : Nat}
    {req : request Arg Reply} {t t' : Handling Reply} (hi : hs[i]? = some (req, t)) :
    (hs.set i (req, t')).map Prod.fst = hs.map Prod.fst := by
  have hlen : i < hs.length := by
    by_contra h
    rw [List.getElem?_eq_none (by omega)] at hi
    cases hi
  apply List.ext_getElem?
  intro j
  rw [List.getElem?_map, List.getElem?_set, List.getElem?_map]
  split_ifs with hij
  · subst hij; rw [hi]; rfl
  · rfl

/-- **A step keeps the invariant.** -/
theorem ConnInv.step {c c' : Conn Arg Reply} (hs : ConnStep timeout timeoutText c c')
    (hc : ConnInv timeout timeoutText events c) : ConnInv timeout timeoutText events c' := by
  obtain ⟨⟨done, he, hw, hh⟩, hr⟩ := hc
  cases hs with
  | respond =>
    refine ⟨⟨done ++ [.respond _ _], by simpa using he, ?_, ?_⟩, hr⟩
    · rw [List.filterMap_append, ← hw]; rfl
    · rw [List.filterMap_append, ← hh]; simp [Event.spawned]
  | spawn =>
    refine ⟨⟨done ++ [.spawn _], by simpa using he, ?_, ?_⟩, fun p hp => ?_⟩
    · rw [List.filterMap_append, ← hw]; simp [Event.loopResponse]
    · rw [List.map_append, List.filterMap_append, ← hh]; rfl
    · rcases List.mem_append.mp hp with hp | hp
      · exact hr p hp
      · obtain rfl := List.mem_singleton.mp hp
        exact .refl
  | handle hi hstep =>
    refine ⟨⟨done, he, hw, (map_fst_set hi).trans hh⟩, fun p hp => ?_⟩
    rcases List.mem_or_eq_of_mem_set hp with hp | rfl
    · exact hr p hp
    · exact (hr _ (List.mem_iff_getElem?.mpr ⟨_, hi⟩)).tail hstep

/-- **Every state an interleaving reaches satisfies the invariant.** -/
theorem ConnInv.reachable {c : Conn Arg Reply}
    (h : Relation.ReflTransGen (ConnStep timeout timeoutText) (Conn.init events) c) :
    ConnInv timeout timeoutText events c := by
  induction h with
  | refl => exact ⟨⟨[], rfl, rfl, rfl⟩, fun _ hp => nomatch hp⟩
  | tail _ hs ih => exact ih.step hs

/-- Each handling is of a request the loop handed on. -/
theorem ConnInv.mem_spawned {c : Conn Arg Reply} (hc : ConnInv timeout timeoutText events c)
    {p : request Arg Reply × Handling Reply} (hp : p ∈ c.handlers) :
    p.1 ∈ events.filterMap Event.spawned := by
  obtain ⟨⟨done, rfl, -, hh⟩, -⟩ := hc
  rw [List.filterMap_append, ← hh]
  exact List.mem_append_left _ (List.mem_map_of_mem _ hp)

/-- A handling of a connection whose calls end has a call that returns or a timer. -/
theorem ConnInv.call_ends {c : Conn Arg Reply} (hc : ConnInv timeout timeoutText events c)
    (hret : CallsEnd timeout events) {p : request Arg Reply × Handling Reply}
    (hp : p ∈ c.handlers) : (p.1.mtype.call p.1.argv).isSome ∨ timeout ≠ 0 :=
  hret.symm.imp_left fun h => h _ (hc.mem_spawned hp)

/-- Where nothing can step, the loop is done and no handling can step. -/
theorem final_of_no_step {c : Conn Arg Reply} (hend : ∀ c', ¬ ConnStep timeout timeoutText c c') :
    c.events = [] ∧ ∀ p ∈ c.handlers, ∀ t', ¬ HStep p.1 timeout timeoutText p.2 t' := by
  obtain ⟨evs, written, hs⟩ := c
  refine ⟨?_, fun p hp t' hstep => ?_⟩
  · cases evs with
    | nil => rfl
    | cons e evs => cases e <;> exact absurd (by constructor) (hend _)
  · obtain ⟨i, hi⟩ := List.mem_iff_getElem?.mp hp
    exact hend _ (.handle hi hstep)

/-- The loop's events, split into those it answers itself and those it hands on. -/
theorem keys_perm_split (events : List (Event Arg Reply)) :
    List.Perm (events.map (Header.key ∘ Event.header))
      ((events.filterMap Event.loopResponse).map (Header.key ∘ Prod.fst) ++
        (events.filterMap Event.spawned).map (Header.key ∘ request.h)) := by
  induction events with
  | nil => rfl
  | cons e es ih =>
    cases e with
    | respond h body => exact ih.cons _
    | spawn req => exact (ih.cons _).trans List.perm_middle.symm

/-- Where each handling has written exactly one response, with its request's header. -/
theorem flatMap_sent_keys {hs : List (request Arg Reply × Handling Reply)}
    (h : ∀ p ∈ hs, (p.2.sent).map (Header.key ∘ Prod.fst) = [p.1.h.key]) :
    (hs.flatMap (·.2.sent)).map (Header.key ∘ Prod.fst) =
      (hs.map Prod.fst).map (Header.key ∘ request.h) := by
  induction hs with
  | nil => rfl
  | cons p ps ih =>
    rw [List.flatMap_cons, List.map_append, h p (List.mem_cons_self _ _),
      ih fun q hq => h q (List.mem_cons_of_mem _ hq)]
    rfl

/-- Once the loop is done and each handling has written one response with its request's header,
the responses are, up to order, one per event of the loop. -/
theorem ConnInv.sent_perm {c : Conn Arg Reply} (hc : ConnInv timeout timeoutText events c)
    (hev : c.events = [])
    (hone : ∀ p ∈ c.handlers, ∃ q, p.2.sent = [q] ∧ q.1.ServiceMethod = p.1.h.ServiceMethod ∧
      q.1.Seq = p.1.h.Seq) :
    List.Perm (c.sent.map (Header.key ∘ Prod.fst)) (events.map (Header.key ∘ Event.header)) := by
  obtain ⟨⟨done, he, hw, hh⟩, -⟩ := hc
  rw [hev, List.append_nil] at he
  subst he
  have hkeys : ∀ p ∈ c.handlers, (p.2.sent).map (Header.key ∘ Prod.fst) = [p.1.h.key] :=
    fun p hp => by
      obtain ⟨q, hq, hsm, hseq⟩ := hone p hp
      rw [hq, List.map_singleton, Function.comp_apply, Header.key, Header.key, hsm, hseq]
  rw [Conn.sent, List.map_append, hw, flatMap_sent_keys hkeys, hh]
  exact (keys_perm_split _).symm

/-- **No response lost, none duplicated**: when every call returns or there is a timer, where no
step is left, in any interleaving, the loop is done and the responses written are, up to order,
one per event of the loop, with its header's `ServiceMethod` and `Seq`. -/
theorem conn_responses {c : Conn Arg Reply} (hret : CallsEnd timeout events)
    (hrun : Relation.ReflTransGen (ConnStep timeout timeoutText) (Conn.init events) c)
    (hend : ∀ c', ¬ ConnStep timeout timeoutText c c') :
    c.events = [] ∧ List.Perm (c.sent.map (Header.key ∘ Prod.fst))
      (events.map (Header.key ∘ Event.header)) := by
  have hc := ConnInv.reachable hrun
  obtain ⟨hev, hfin⟩ := final_of_no_step hend
  exact ⟨hev, hc.sent_perm hev fun p hp =>
    HStep.final_sent (hc.call_ends hret hp) (hc.reach p hp) (hfin p hp)⟩

/-- Until the loop is done and every `handleRequest` has returned (what `wg.Wait()` waits for),
something can step. -/
theorem ConnInv.step_of_waiting {c : Conn Arg Reply} (hc : ConnInv timeout timeoutText events c)
    (hret : CallsEnd timeout events)
    (h : ¬ (c.events = [] ∧ ∀ p ∈ c.handlers, p.2.wait = .done)) :
    ∃ c', ConnStep timeout timeoutText c c' := by
  obtain ⟨evs, written, hs⟩ := c
  cases evs with
  | cons e evs => cases e <;> exact ⟨_, by constructor⟩
  | nil =>
    push_neg at h
    obtain ⟨p, hp, hw⟩ := h rfl
    obtain ⟨t', hstep⟩ :=
      (HStep.reachable_inv (hc.reach p hp)).step_of_waiting (hc.call_ends hret hp) hw
    obtain ⟨i, hi⟩ := List.mem_iff_getElem?.mp hp
    exact ⟨_, .handle hi hstep⟩

end Run

/-! ## Every interleaving ends -/

/-- How far a connection is from its end: seven for each event still to come (a request handed
on becomes a handling of rank six), and each handling's rank. -/
def Conn.rank (c : Conn Arg Reply) : Nat :=
  7 * c.events.length + (c.handlers.map fun p => p.2.call.rank + p.2.wait.rank).sum

theorem sum_map_set_lt {α : Type} (f : α → Nat) {l : List α} {i : Nat} {x y : α}
    (hi : l[i]? = some y) (hlt : f x < f y) : ((l.set i x).map f).sum < (l.map f).sum := by
  induction l generalizing i with
  | nil => cases hi
  | cons a l ih =>
    cases i with
    | zero =>
      simp only [List.getElem?_cons_zero, Option.some.injEq] at hi
      subst hi
      simp only [List.set_cons_zero, List.map_cons, List.sum_cons]
      omega
    | succ i =>
      rw [List.getElem?_cons_succ] at hi
      simp only [List.set_cons_succ, List.map_cons, List.sum_cons]
      have := ih hi
      omega

theorem ConnStep.rank_lt {timeout : Nat} {timeoutText : Nat → String} {c c' : Conn Arg Reply}
    (hs : ConnStep timeout timeoutText c c') : c'.rank < c.rank := by
  cases hs with
  | respond => simp only [Conn.rank, List.length_cons]; omega
  | spawn =>
    simp only [Conn.rank, List.length_cons, List.map_append, List.sum_append, List.map_singleton,
      List.sum_cons, List.sum_nil, Handling.start, CallState.rank, WaitState.rank]
    omega
  | handle hi hstep =>
    rename_i req _ t'
    have := sum_map_set_lt (fun p : request Arg Reply × Handling Reply =>
      p.2.call.rank + p.2.wait.rank) (x := (req, t')) hi hstep.rank_lt
    simp only [Conn.rank]
    omega

/-- No run of the loop, the goroutines it starts and their timers goes on forever, so from every
state some run reaches a state where no step is left. -/
theorem ConnStep.exists_final {timeout : Nat} {timeoutText : Nat → String} (c : Conn Arg Reply) :
    ∃ c', Relation.ReflTransGen (ConnStep timeout timeoutText) c c' ∧
      ∀ c'', ¬ ConnStep timeout timeoutText c' c'' := by
  obtain ⟨n, h⟩ : ∃ n, c.rank = n := ⟨_, rfl⟩
  induction n using Nat.strong_induction_on generalizing c with
  | _ n ih =>
    by_cases hs : ∃ c₁, ConnStep timeout timeoutText c c₁
    · obtain ⟨c₁, hc₁⟩ := hs
      obtain ⟨c', hrun, hend⟩ := ih _ (h ▸ hc₁.rank_lt) c₁ rfl
      exact ⟨c', .head hc₁ hrun, hend⟩
    · exact ⟨c, .refl, fun c'' h => hs ⟨c'', h⟩⟩

/-! ## The frames of a connection -/

/-- Whether `readRequest` returned no request: the loop breaks there. -/
def ReadResult.isNil : ReadResult Arg Reply → Bool
  | .none _ => true
  | _ => false

/-- A frame's header, by what a client matches on. -/
def Frame.key : Frame Arg → Option (GoString × UInt64)
  | .header h _ => some h.key
  | .badHeader _ => none

theorem key_of_badBody {s : Server Arg Reply} {f : Frame Arg} {h : Header} {err : GoString}
    (hf : readRequest s f = .badBody h err) : f.key = some h.key := by
  cases f with
  | badHeader _ => cases hf
  | header h' body =>
    simp only [readRequest] at hf
    split at hf
    · cases hf
    · cases body <;> cases hf; rfl

theorem key_of_ready {s : Server Arg Reply} {f : Frame Arg} {req : request Arg Reply}
    (hf : readRequest s f = .ready req) : f.key = some req.h.key := by
  cases f with
  | badHeader _ => cases hf
  | header h' body =>
    simp only [readRequest] at hf
    split at hf
    · cases hf
    · cases body <;> cases hf; rfl

/-- **The loop's events** are one per frame before the first frame `readRequest` returns no
request for, with that frame's header. -/
theorem serveCodec_keys (s : Server Arg Reply) (frames : List (Frame Arg)) :
    (serveCodec s frames).map (Header.key ∘ Event.header) =
      (frames.takeWhile fun f => !(readRequest s f).isNil).filterMap Frame.key := by
  induction frames with
  | nil => rfl
  | cons f rest ih =>
    rw [List.takeWhile_cons, serveCodec]
    cases hf : readRequest s f with
    | none err => rfl
    | badBody h err =>
      simp only [ReadResult.isNil, Bool.not_false, if_true, List.map_cons]
      rw [List.filterMap_cons_some (key_of_badBody hf), ih]
      rfl
    | ready req =>
      simp only [ReadResult.isNil, Bool.not_false, if_true, List.map_cons]
      rw [List.filterMap_cons_some (key_of_ready hf), ih]
      rfl

/-- One step of the only handling of a connection. -/
theorem ConnStep.handle_one {timeout : Nat} {timeoutText : Nat → String}
    {evs : List (Event Arg Reply)} {written : List (Header × Option Reply)}
    {req : request Arg Reply} {t t' : Handling Reply} (hstep : HStep req timeout timeoutText t t') :
    ConnStep timeout timeoutText ⟨evs, written, [(req, t)]⟩ ⟨evs, written, [(req, t')]⟩ :=
  .handle (show [(req, t)][0]? = some (req, t) from rfl) hstep

/-- A server whose one method, `Arith.Sum`, returns. -/
def sumServer : Server Unit Unit where
  serviceMap name :=
    if name = GoString.ofString "Arith" then
      some ⟨fun m => if m = GoString.ofString "Sum" then some ⟨fun _ => some (.ok ())⟩ else none⟩
    else none

/-- The one call of `Arith.Sum` on a connection. -/
def sumFrames : List (Frame Unit) :=
  [.header ⟨GoString.ofString "Arith.Sum", 1, []⟩ (.ok ())]

/-- The request the loop hands on for `sumFrames`. -/
def sumRequest : request Unit Unit :=
  ⟨⟨GoString.ofString "Arith.Sum", 1, []⟩, (), ⟨fun _ => some (.ok ())⟩⟩

theorem serveCodec_sum : serveCodec sumServer sumFrames = [.spawn sumRequest] := rfl

end LetsGo.GeeRpc
