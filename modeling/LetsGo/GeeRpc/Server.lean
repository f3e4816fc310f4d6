import Mathlib.Logic.Relation
import LetsGo.GoString

/-!
# The RPC server of `geerpc`

Model of `Server` (`src/Geektutu/Gee/main.go`, lines 137-389, package `geerpc`): `Register`,
`findService`, `readRequest`, the loop of `serveCodec`, and `handleRequest` with its call
goroutine.

* The connection is the list of frames the codec reads (`Frame`): a header with its body, whose
  decoding may fail, or a header `ReadHeader` cannot decode (`io.EOF` is the end of the list).
* A Go string is its bytes (`GoString`): a header's `ServiceMethod` read off the wire may hold
  any bytes, and the server's names and error texts are byte strings too.
* A method is what calling it does on an argument (`methodType`): it returns its reply or the
  text of the error it returns, or it never returns (`none`); a method that panics ends the
  whole process and is left out. `Server.serviceMap` is the `sync.Map` of services.
* `serveCodec s frames` is what the loop does, frame by frame: the responses it writes itself
  (`Event.respond`) and the requests it hands to `handleRequest` goroutines (`Event.spawn`),
  until `readRequest` returns a nil request and the loop breaks (then `wg.Wait()` and
  `cc.Close()`).
* `HStep` is one step of `handleRequest` and its goroutine: the service call returning, the two
  unbuffered channels `called` and `sent` (a send and a receive meet), `sendResponse`, and the
  timer of `time.After` firing while `handleRequest` is in its `select`. `HandleTimeout = 0`
  means no timer. `timeoutText d` is `d`'s `time.Duration.String()`.

Results:
* `findService_registerAll`: after any sequence of `Register` calls, a request for `S.M`, with
  no dot in `M`, reaches method `M` of the first service registered as `S`, and a second
  `Register` of a name fails and stores nothing.
* `HStep.sent_le_one`, `HStep.final_sent`: in every interleaving a handled request gets at most
  one response, and where the run ends exactly one, carrying its header, when its call returns
  or `handleRequest` has a timer. When the timer fires first, the call goroutine stays blocked
  on `called` and never writes; when the call never returns and there is no timer, nothing
  moves (`HStep.blocked`).
* `unknown_service_closes`: a request for an unknown service gets no response at all; the loop
  breaks and the connection is closed.
-/

namespace LetsGo.GeeRpc

/-- `codec.Header`. -/
structure Header where
  ServiceMethod : GoString
  Seq : UInt64
  Error : GoString
  deriving DecidableEq, Repr

variable {Arg Reply : Type}

/-- `methodType`: calling the method on an argument returns the reply or an error's text, or
never returns. -/
structure methodType (Arg Reply : Type) where
  call : Arg → Option (Except GoString Reply)

/-- `service`: its methods by name. -/
structure service (Arg Reply : Type) where
  method : GoString → Option (methodType Arg Reply)

/-- `Server`: its services by name. -/
structure Server (Arg Reply : Type) where
  serviceMap : GoString → Option (service Arg Reply)

/-- `request`, once its body is read. -/
structure request (Arg Reply : Type) where
  h : Header
  argv : Arg
  mtype : methodType Arg Reply

/-- What the codec reads next: a header and the result of decoding the body after it, or a
header that fails to decode. -/
inductive Frame (Arg : Type)
  | header (h : Header) (body : Except GoString Arg)
  | badHeader (err : GoString)

/-- The byte `'.'`. -/
def period : UInt8 := 46

/-- `strings.LastIndex(s, sep)`, for a one-byte separator. -/
def lastIndex : GoString → UInt8 → Option Nat
  | [], _ => none
  | x :: xs, c =>
    match lastIndex xs c with
    | some i => some (i + 1)
    | none => if x = c then some 0 else none

/-- `findService`: the method, or the error text. -/
def findService (s : Server Arg Reply) (serviceMethod : GoString) :
    Except GoString (methodType Arg Reply) :=
  match lastIndex serviceMethod period with
  | none =>
    .error (GoString.ofString "rpc server: service/method request ill-formed: " ++ serviceMethod)
  | some dot =>
    match s.serviceMap (serviceMethod.take dot) with
    | none => .error (GoString.ofString "rpc server: can't find service: " ++ serviceMethod)
    | some svc =>
      match svc.method (serviceMethod.drop (dot + 1)) with
      | none => .error (GoString.ofString "rpc server: can't find method: " ++ serviceMethod)
      | some mtype => .ok mtype

/-! ## Registering services -/

/-- `NewServer()`: no service. -/
def NewServer : Server Arg Reply := { serviceMap := fun _ => none }

/-- `s.Register(rcvr)` for the service `newService(rcvr)` builds, under its name (`newService`
is not in the sources): `LoadOrStore` stores it unless a service of that name is there, and
then `Register` returns the error and the map is as it was. -/
def Register (s : Server Arg Reply) (name : GoString) (svc : service Arg Reply) :
    Except GoString (Server Arg Reply) :=
  match s.serviceMap name with
  | some _ => .error (GoString.ofString "rpc server: service already defined: " ++ name)
  | none => .ok { serviceMap := Function.update s.serviceMap name (some svc) }

/-- The server after `Register` of each service in turn; a call that returns an error leaves it
as it was. -/
def registerAll (s : Server Arg Reply) : List (GoString × service Arg Reply) → Server Arg Reply
  | [] => s
  | (name, svc) :: rest =>
    match Register s name svc with
    | .ok s' => registerAll s' rest
    | .error _ => registerAll s rest

/-- Each name keeps the first service registered under it. -/
theorem registerAll_serviceMap (s : Server Arg Reply)
    (regs : List (GoString × service Arg Reply)) (S : GoString) :
    (registerAll s regs).serviceMap S = (s.serviceMap S).or ((regs.find? (·.1 = S)).map (·.2)) := by
  induction regs generalizing s with
  | nil => exact Option.or_none.symm
  | cons reg rest ih =>
    obtain ⟨name, svc⟩ := reg
    unfold registerAll Register
    by_cases hn : name = S
    · subst hn
      cases hs : s.serviceMap name <;> simp [ih, hs]
    · cases s.serviceMap name <;> simp [ih, hn, Function.update_noteq (Ne.symm hn)]

/-- A `Register` that fails leaves `registerAll` where it was. -/
theorem registerAll_append_error {s : Server Arg Reply} {regs : List (GoString × service Arg Reply)}
    {name : GoString} {svc : service Arg Reply} {err : GoString}
    (h : Register (registerAll s regs) name svc = .error err) :
    registerAll s (regs ++ [(name, svc)]) = registerAll s regs := by
  induction regs generalizing s with
  | nil => simp only [List.nil_append, registerAll, h] at h ⊢
  | cons reg rest ih =>
    obtain ⟨name', svc'⟩ := reg
    simp only [List.cons_append, registerAll] at h ⊢
    split <;> rename_i he <;> rw [he] at h <;> exact ih h

/-! ## Service and method names -/

theorem lastIndex_eq_none {xs : GoString} {c : UInt8} (h : c ∉ xs) : lastIndex xs c = none := by
  induction xs with
  | nil => rfl
  | cons x xs ih =>
    rw [List.mem_cons, not_or] at h
    rw [lastIndex, ih h.2, if_neg (Ne.symm h.1)]

/-- `LastIndex` finds a separator after which no other follows. -/
theorem lastIndex_append_cons (xs : GoString) {ys : GoString} {c : UInt8} (h : c ∉ ys) :
    lastIndex (xs ++ c :: ys) c = some xs.length := by
  induction xs with
  | nil => rw [List.nil_append, lastIndex, lastIndex_eq_none h, if_pos rfl]; rfl
  | cons x xs ih => rw [List.cons_append, lastIndex, ih]; rfl

/-- `findService` on `S.M`, for a method name `M` without a dot: method `M` of service `S`, or
the error that names what is missing. -/
theorem findService_dot (s : Server Arg Reply) (S M : GoString) (hM : period ∉ M) :
    findService s (S ++ period :: M) =
      match s.serviceMap S with
      | none => .error (GoString.ofString "rpc server: can't find service: " ++ (S ++ period :: M))
      | some svc =>
        match svc.method M with
        | none => .error (GoString.ofString "rpc server: can't find method: " ++ (S ++ period :: M))
        | some mtype => .ok mtype := by
  rw [findService, lastIndex_append_cons _ hM]
  dsimp only
  rw [List.take_left, List.drop_append]
  rfl

/-- **A request for `S.M` reaches method `M` of the first service registered as `S`**, after any
sequence of `Register` calls on `NewServer()`, for a method name without a dot: a later service
of the same name is refused with the error that names it and changes nothing, and a name never
registered gives the error that names it. -/
theorem findService_registerAll (regs : List (GoString × service Arg Reply)) (S M : GoString)
    (hM : period ∉ M) :
    findService (registerAll NewServer regs) (S ++ period :: M) =
      (match (regs.find? (·.1 = S)).map (·.2) with
      | none => .error (GoString.ofString "rpc server: can't find service: " ++ (S ++ period :: M))
      | some svc =>
        match svc.method M with
        | none => .error (GoString.ofString "rpc server: can't find method: " ++ (S ++ period :: M))
        | some mtype => .ok mtype) ∧
    ∀ svc, S ∈ regs.map Prod.fst →
      Register (registerAll NewServer regs) S svc =
          .error (GoString.ofString "rpc server: service already defined: " ++ S) ∧
        registerAll NewServer (regs ++ [(S, svc)]) = registerAll NewServer regs := by
  have hmap := registerAll_serviceMap (NewServer : Server Arg Reply) regs S
  refine ⟨by rw [findService_dot _ S M hM, hmap]; rfl, fun svc hS => ?_⟩
  obtain ⟨svc', hsvc'⟩ : ∃ svc', (registerAll NewServer regs).serviceMap S = some svc' := by
    obtain ⟨reg, hreg, rfl⟩ := List.mem_map.1 hS
    obtain ⟨r, hr⟩ := Option.isSome_iff_exists.1
      (List.find?_isSome.2 ⟨reg, hreg, by simp⟩ : (regs.find? (·.1 = reg.1)).isSome)
    exact ⟨r.2, by rw [hmap, hr]; rfl⟩
  have hreg : Register (registerAll NewServer regs) S svc =
      .error (GoString.ofString "rpc server: service already defined: " ++ S) := by
    rw [Register, hsvc']
  exact ⟨hreg, registerAll_append_error hreg⟩

/-- `findService_registerAll` on two services registered as `Arith`, only the first with a
method `Sum`: `Arith.Sum` reaches the first one's `Sum`, and the second `Register` fails. -/
theorem findService_registerAll_arith :
    let sum : methodType (Nat × Nat) Nat := ⟨fun a => some (.ok (a.1 + a.2))⟩
    let regs : List (GoString × service (Nat × Nat) Nat) :=
      [(GoString.ofString "Arith", ⟨fun m => if m = GoString.ofString "Sum" then some sum else none⟩),
        (GoString.ofString "Arith", ⟨fun _ => none⟩)]
    period ∉ GoString.ofString "Sum" ∧
      (findService (registerAll NewServer regs)
        (GoString.ofString "Arith" ++ period :: GoString.ofString "Sum") = .ok sum ∧
      ∀ svc, GoString.ofString "Arith" ∈ regs.map Prod.fst →
        Register (registerAll NewServer regs) (GoString.ofString "Arith") svc =
            .error (GoString.ofString "rpc server: service already defined: " ++
              GoString.ofString "Arith") ∧
          registerAll NewServer (regs ++ [(GoString.ofString "Arith", svc)]) =
            registerAll NewServer regs) :=
  have h := findService_registerAll
    [(GoString.ofString "Arith", ⟨fun m => if m = GoString.ofString "Sum" then
        some (⟨fun a => some (.ok (a.1 + a.2))⟩ : methodType (Nat × Nat) Nat) else none⟩),
      (GoString.ofString "Arith", ⟨fun _ => none⟩)]
    (GoString.ofString "Arith") (GoString.ofString "Sum") (by decide)
  ⟨by decide, h.1, h.2⟩

/-- What `readRequest` returns: `(req, nil)`, `(req, err)` after a body error, or `(nil, err)`. -/
inductive ReadResult (Arg Reply : Type)
  | ready (req : request Arg Reply)
  | badBody (h : Header) (err : GoString)
  | none (err : GoString)

/-- `readRequest` on the next frame. -/
def readRequest (s : Server Arg Reply) : Frame Arg → ReadResult Arg Reply
  | .badHeader err => .none err
  | .header h body =>
    match findService s h.ServiceMethod with
    | .error err => .none err
    | .ok mtype =>
      match body with
      | .error err => .badBody h err
      | .ok argv => .ready { h := h, argv := argv, mtype := mtype }

/-- What the loop of `serveCodec` does with one frame. -/
inductive Event (Arg Reply : Type)
  | respond (h : Header) (body : Option Reply)
  | spawn (req : request Arg Reply)

/-- The loop of `serveCodec`: its events, in order, until a nil request breaks it. -/
def serveCodec (s : Server Arg Reply) : List (Frame Arg) → List (Event Arg Reply)
  | [] => []
  | f :: rest =>
    match readRequest s f with
    | .none _ => []
    | .badBody h err => .respond { h with Error := err } none :: serveCodec s rest
    | .ready req => .spawn req :: serveCodec s rest

/-- A request whose service is not registered: `readRequest` returns a nil request, the loop
breaks before any response is written, and `cc.Close()` ends the connection. -/
theorem unknown_service_closes :
    @serveCodec Unit Unit { serviceMap := fun _ => none }
      [.header { ServiceMethod := GoString.ofString "Foo.Sum", Seq := 1, Error := [] } (.ok ())] =
        [] := rfl

/-! ## `handleRequest` -/

/-- The goroutine `handleRequest` starts. -/
inductive CallState (Reply : Type)
  | calling
  /-- Blocked on `called <- struct{}{}`. -/
  | called (r : Except GoString Reply)
  /-- In `sendResponse`. -/
  | sending (r : Except GoString Reply)
  /-- Blocked on `sent <- struct{}{}`. -/
  | signalling
  | done

/-- `handleRequest` itself. -/
inductive WaitState
  /-- In the `select` (on `<-called` alone when `timeout == 0`). -/
  | select
  /-- On `<-sent`. -/
  | waitSent
  | done
  deriving DecidableEq

/-- One request being handled: both goroutines, and what `sendResponse` wrote for it. -/
structure Handling (Reply : Type) where
  call : CallState Reply
  wait : WaitState
  sent : List (Header × Option Reply)

/-- The response the call goroutine writes: the reply, or `invalidRequest` with the error. -/
def response (h : Header) : Except GoString Reply → Header × Option Reply
  | .ok reply => (h, some reply)
  | .error err => ({ h with Error := err }, none)

/-- `handleRequest` on `req` as it starts. -/
def Handling.start : Handling Reply := { call := .calling, wait := .select, sent := [] }

/-- One step of `handleRequest(cc, req, ..., timeout)` and its goroutine. -/
inductive HStep (req : request Arg Reply) (timeout : Nat) (timeoutText : Nat → String) :
    Handling Reply → Handling Reply → Prop
  | callReturns {r w out} (h : req.mtype.call req.argv = some r) :
      HStep req timeout timeoutText ⟨.calling, w, out⟩ ⟨.called r, w, out⟩
  | receiveCalled {r out} :
      HStep req timeout timeoutText ⟨.called r, .select, out⟩ ⟨.sending r, .waitSent, out⟩
  | sendResponse {r w out} :
      HStep req timeout timeoutText ⟨.sending r, w, out⟩ ⟨.signalling, w, out ++ [response req.h r]⟩
  | receiveSent {out} :
      HStep req timeout timeoutText ⟨.signalling, .waitSent, out⟩ ⟨.done, .done, out⟩
  | expire {c out} (h : timeout ≠ 0) :
      HStep req timeout timeoutText ⟨c, .select, out⟩
        ⟨c, .done, out ++ [({ req.h with
          Error := GoString.ofString
            ("rpc server: request handle timeout: expect within " ++ timeoutText timeout) },
          none)]⟩

/-! ## Exactly one response per handled request -/

variable {req : request Arg Reply} {timeout : Nat} {timeoutText : Nat → String}

/-- The states a handled request goes through, by what has been written for it: nothing until
the call goroutine's `sendResponse` or the timer, then one response with the request's header. -/
def HInv (req : request Arg Reply) (t : Handling Reply) : Prop :=
  match t.call, t.wait with
  | .calling, .select | .called _, .select | .sending _, .waitSent => t.sent = []
  | .signalling, .waitSent | .done, .done | .calling, .done | .called _, .done =>
    ∃ p, t.sent = [p] ∧ p.1.ServiceMethod = req.h.ServiceMethod ∧ p.1.Seq = req.h.Seq
  | _, _ => False

theorem response_header (h : Header) (r : Except GoString Reply) :
    (response h r).1.ServiceMethod = h.ServiceMethod ∧ (response h r).1.Seq = h.Seq := by
  cases r <;> exact ⟨rfl, rfl⟩

theorem HStep.inv {t t' : Handling Reply} (hs : HStep req timeout timeoutText t t')
    (hi : HInv req t) : HInv req t' := by
  cases hs with
  | callReturns =>
    rename_i w out _
    cases w <;> simp only [HInv] at hi ⊢ <;> exact hi
  | receiveCalled => simpa [HInv] using hi
  | sendResponse =>
    rename_i r w out
    cases w <;> simp only [HInv] at hi
    subst hi
    exact ⟨_, rfl, response_header req.h r⟩
  | receiveSent => simpa [HInv] using hi
  | expire hne =>
    rename_i c out
    cases c <;> simp only [HInv] at hi ⊢ <;> subst hi <;> exact ⟨_, rfl, rfl, rfl⟩

/-- Every state a handled request reaches, in any interleaving. -/
theorem HStep.reachable_inv {t : Handling Reply}
    (h : Relation.ReflTransGen (HStep req timeout timeoutText) Handling.start t) : HInv req t := by
  induction h with
  | refl => rfl
  | tail _ hs ih => exact hs.inv ih

theorem HInv.sent_le_one {t : Handling Reply} (hi : HInv req t) : t.sent.length ≤ 1 := by
  obtain ⟨c, w, out⟩ := t
  cases c <;> cases w <;> simp only [HInv] at hi <;>
    first | (subst hi; simp) | (obtain ⟨p, rfl, -⟩ := hi; simp)

/-- **At most one response**, in every interleaving of the call goroutine, the channels and the
timer. -/
theorem HStep.sent_le_one {t : Handling Reply}
    (h : Relation.ReflTransGen (HStep req timeout timeoutText) Handling.start t) :
    t.sent.length ≤ 1 :=
  (HStep.reachable_inv h).sent_le_one

/-- From its start a handling can step when its call returns or `handleRequest` has a timer. -/
theorem HStep.of_start
    (hret : (req.mtype.call req.argv).isSome ∨ timeout ≠ 0) :
    ∃ t', HStep req timeout timeoutText Handling.start t' := by
  rcases hret with h | h
  · obtain ⟨r, hr⟩ := Option.isSome_iff_exists.1 h
    exact ⟨_, .callReturns hr⟩
  · exact ⟨_, .expire h⟩

/-- **Where a run ends, exactly one response**, with the request's header, for a call that
returns or a `handleRequest` with a timer. -/
theorem HStep.final_sent {t : Handling Reply}
    (hret : (req.mtype.call req.argv).isSome ∨ timeout ≠ 0)
    (h : Relation.ReflTransGen (HStep req timeout timeoutText) Handling.start t)
    (hend : ∀ t', ¬ HStep req timeout timeoutText t t') :
    ∃ p, t.sent = [p] ∧ p.1.ServiceMethod = req.h.ServiceMethod ∧ p.1.Seq = req.h.Seq := by
  have hi := HStep.reachable_inv h
  obtain ⟨c, w, out⟩ := t
  cases c <;> cases w <;> simp only [HInv] at hi <;> first
    | exact hi
    | (subst hi; obtain ⟨t', ht'⟩ := HStep.of_start hret; exact absurd ht' (hend _))
    | exact absurd .receiveCalled (hend _)
    | exact absurd .sendResponse (hend _)

/-- **A call that never returns, without a timer, blocks the handling for good**: from its start
no step is possible, so nothing is ever written for the request. -/
theorem HStep.blocked (hcall : req.mtype.call req.argv = none) (ht : timeout = 0)
    {t : Handling Reply}
    (h : Relation.ReflTransGen (HStep req timeout timeoutText) Handling.start t) :
    t = Handling.start := by
  induction h with
  | refl => rfl
  | tail _ hs ih =>
    subst ih
    cases hs with
    | callReturns hr => rw [hcall] at hr; cases hr
    | expire hne => exact absurd ht hne

/-- Once `handleRequest` has returned, its one response has been written: by the call goroutine
before `sent`, or by the timer branch. -/
theorem HInv.sent_of_returned {t : Handling Reply} (hi : HInv req t) (hw : t.wait = .done) :
    ∃ p, t.sent = [p] ∧ p.1.ServiceMethod = req.h.ServiceMethod ∧ p.1.Seq = req.h.Seq := by
  obtain ⟨c, w, out⟩ := t
  cases hw
  cases c <;> simp only [HInv] at hi <;> exact hi

/-- Until `handleRequest` has returned, one of the two goroutines can step, for a call that
returns or a `handleRequest` with a timer. -/
theorem HInv.step_of_waiting {t : Handling Reply}
    (hret : (req.mtype.call req.argv).isSome ∨ timeout ≠ 0) (hi : HInv req t)
    (hw : t.wait ≠ .done) : ∃ t', HStep req timeout timeoutText t t' := by
  obtain ⟨c, w, out⟩ := t
  cases c <;> cases w <;> simp only [HInv] at hi <;> first
    | exact absurd rfl hw
    | (subst hi; exact HStep.of_start hret)
    | exact ⟨_, .receiveCalled⟩
    | exact ⟨_, .sendResponse⟩
    | exact ⟨_, .receiveSent⟩

/-- How far a call goroutine is from its end. -/
def CallState.rank : CallState Reply → Nat
  | .calling => 4
  | .called _ => 3
  | .sending _ => 2
  | .signalling => 1
  | .done => 0

/-- How far `handleRequest` is from its end. -/
def WaitState.rank : WaitState → Nat
  | .select => 2
  | .waitSent => 1
  | .done => 0

/-- Each step brings the two goroutines closer to their ends. -/
theorem HStep.rank_lt {t t' : Handling Reply} (hs : HStep req timeout timeoutText t t') :
    t'.call.rank + t'.wait.rank < t.call.rank + t.wait.rank := by
  cases hs <;> simp [CallState.rank, WaitState.rank]

end LetsGo.GeeRpc
