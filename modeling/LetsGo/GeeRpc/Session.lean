import Mathlib.Logic.Relation
import LetsGo.GeeRpc.Conn

/-!
# `ServeConn`: a connection from its option to its close

`ServeConn` (`src/Geektutu/Gee/main.go`, lines 208-237) reads the `Option` a client sends first
(lines 154-172), checks its magic number and looks its codec type up in `codec.NewCodecFuncMap`
(`src/unnamed/part_001`, lines 24-43); then it runs `serveCodec` with the codec and the option,
whose `HandleTimeout` every `handleRequest` gets. Its deferred `conn.Close()` ends the connection.

* The option's JSON decoding is an input: `decoded` is what `json.Decoder.Decode` gave, the
  option or the error's text. Durations are counts of nanoseconds, and a `codec.Type` is a Go
  string, its bytes.
* `NewCodecFuncMap` is the map as `init` leaves it: `GobType` to `NewGobCodec`, no entry for
  `JsonType`. The codec reads the connection as the frames `serveCodec` reads.
* `Session` and `SessionStep` put `ServeConn` around the connection system of `Conn`: the
  handshake, every step of the loop and of the goroutines it starts, and the close, which comes
  after `wg.Wait()`, once the loop has broken and every `handleRequest` has returned.

Results:
* `session_responses`: when every call returns or the option's `HandleTimeout` is set, wherever
  a run stops the connection is closed, having had nothing written on it for a refused option
  and, for a served one, one response per frame `serveCodec` reads, up to order.
* `session_hangs`: without a timer, as with `DefaultOption`, a call that never returns leaves
  the connection open for good, its request unanswered.
-/

namespace LetsGo.GeeRpc

/-! ## The option and the codec map -/

/-- `MagicNumber` marks a geerpc connection. -/
def MagicNumber : Int := 0x3bef5c

/-- `codec.Type`, the name of a codec. -/
abbrev Type_ := GoString

/-- `codec.GobType`. -/
def GobType : Type_ := GoString.ofString "application/gob"

/-- `codec.JsonType`, declared and not implemented. -/
def JsonType : Type_ := GoString.ofString "application/json"

/-- `Option`, the first thing a client writes on a connection, JSON-encoded. -/
structure Option_ where
  MagicNumber : Int
  CodecType : Type_
  /-- `0` means no limit. -/
  ConnectTimeout : Nat
  HandleTimeout : Nat
  deriving DecidableEq, Repr

/-- `DefaultOption`: `HandleTimeout` is left zero, no limit. -/
def DefaultOption : Option_ where
  MagicNumber := MagicNumber
  CodecType := GobType
  ConnectTimeout := 10 * 1000000000
  HandleTimeout := 0

/-- The constructors a `NewCodecFunc` of the map can be. -/
inductive NewCodecFunc
  | NewGobCodec
  deriving DecidableEq, Repr

/-- `codec.NewCodecFuncMap` as `init` leaves it. -/
def NewCodecFuncMap (t : Type_) : Option NewCodecFunc :=
  if t = GobType then some .NewGobCodec else none

/-! ## `ServeConn` -/

/-- Where `ServeConn` goes: one of its three `return`s, or `serveCodec` with the codec function
and the option. -/
inductive ServeConnResult
  | optionError (err : GoString)
  | invalidMagicNumber (n : Int)
  | invalidCodecType (t : Type_)
  | serve (f : NewCodecFunc) (opt : Option_)
  deriving DecidableEq, Repr

/-- `ServeConn`'s checks on the decoded option. -/
def ServeConn (decoded : Except GoString Option_) : ServeConnResult :=
  match decoded with
  | .error err => .optionError err
  | .ok opt =>
    if opt.MagicNumber ≠ MagicNumber then .invalidMagicNumber opt.MagicNumber
    else match NewCodecFuncMap opt.CodecType with
      | none => .invalidCodecType opt.CodecType
      | some f => .serve f opt

/-- Whether `ServeConn` goes on to `serveCodec`. -/
def ServeConnResult.isServe : ServeConnResult → Bool
  | .serve _ _ => true
  | _ => false

/-- `%x` of an `int`: lower-case hex digits, after a minus sign for a negative number. -/
def hexOf (n : Int) : String :=
  (if n < 0 then "-" else "") ++ String.mk (Nat.toDigits 16 n.natAbs)

/-- The line `ServeConn` logs before a `return`. -/
def ServeConnResult.log : ServeConnResult → Option GoString
  | .optionError err => some (GoString.ofString "rpc server: option error: " ++ err)
  | .invalidMagicNumber n => some (GoString.ofString ("rpc server: invalid magic number " ++ hexOf n))
  | .invalidCodecType t => some (GoString.ofString "rpc server: invalid codec type " ++ t)
  | .serve _ _ => none

example : ServeConn (.ok DefaultOption) = .serve .NewGobCodec DefaultOption := by decide

example : (ServeConn (.ok { DefaultOption with CodecType := JsonType })).log =
    some (GoString.ofString "rpc server: invalid codec type application/json") := by decide

example : (ServeConn (.ok { DefaultOption with MagicNumber := 0x3bef5d })).log =
    some (GoString.ofString "rpc server: invalid magic number 3bef5d") := by decide

/-- Whether `ServeConn` serves, from the option alone. -/
theorem ServeConn_isServe (decoded : Except GoString Option_) :
    (ServeConn decoded).isServe = true ↔ ∃ f opt, ServeConn decoded = .serve f opt := by
  cases ServeConn decoded with
  | serve f opt => exact ⟨fun _ => ⟨f, opt, rfl⟩, fun _ => rfl⟩
  | _ => simp [ServeConnResult.isServe]

/-! ## A connection from first byte to close -/

/-- `ServeConn` on one connection. -/
inductive Session (Arg Reply : Type)
  /-- Reading and checking the option. -/
  | handshake
  /-- In `serveCodec`, with the option it was given. -/
  | serving (opt : Option_) (c : Conn Arg Reply)
  /-- `conn.Close()` has run: what was written on the connection. -/
  | closed (sent : List (Header × Option Reply))

variable {Arg Reply : Type}

/-- One step of `ServeConn` on a connection whose option decodes to `decoded` and whose codec
reads `frames`. -/
inductive SessionStep (s : Server Arg Reply) (decoded : Except GoString Option_)
    (frames : List (Frame Arg)) (timeoutText : Nat → String) :
    Session Arg Reply → Session Arg Reply → Prop
  /-- One of the three `return`s: the deferred `conn.Close()` runs, nothing written. -/
  | refuse (h : (ServeConn decoded).isServe = false) :
      SessionStep s decoded frames timeoutText .handshake (.closed [])
  | serve {f opt} (h : ServeConn decoded = .serve f opt) :
      SessionStep s decoded frames timeoutText .handshake
        (.serving opt (Conn.init (serveCodec s frames)))
  /-- A step of the loop or of a goroutine; each `handleRequest` gets `opt.HandleTimeout`. -/
  | step {opt c c'} (h : ConnStep opt.HandleTimeout timeoutText c c') :
      SessionStep s decoded frames timeoutText (.serving opt c) (.serving opt c')
  /-- `wg.Wait()` returns once the loop has broken and every `handleRequest` has returned; then
  `cc.Close()` and the deferred `conn.Close()`. A call goroutine whose request timed out stays
  blocked on `called` and writes nothing more. -/
  | close {opt c} (hloop : c.events = []) (hwait : ∀ p ∈ c.handlers, p.2.wait = .done) :
      SessionStep s decoded frames timeoutText (.serving opt c) (.closed c.sent)

section Run

variable {s : Server Arg Reply} {decoded : Except GoString Option_} {frames : List (Frame Arg)}
  {timeoutText : Nat → String}

/-- The responses a connection owes: one per frame the loop reads if the option is served. -/
def owed (s : Server Arg Reply) (decoded : Except GoString Option_) (frames : List (Frame Arg)) :
    List (GoString × UInt64) :=
  if (ServeConn decoded).isServe then
    (frames.takeWhile fun f => !(readRequest s f).isNil).filterMap Frame.key
  else []

/-- What the states of a run satisfy: a served connection runs the connection system from its
start, with the option `ServeConn` accepted, and a closed one has written what it owed. -/
def SessionInv (s : Server Arg Reply) (decoded : Except GoString Option_)
    (frames : List (Frame Arg)) (timeoutText : Nat → String) : Session Arg Reply → Prop
  | .handshake => True
  | .serving opt c => (∃ f, ServeConn decoded = .serve f opt) ∧
      ConnInv opt.HandleTimeout timeoutText (serveCodec s frames) c
  | .closed sent => List.Perm (sent.map (Header.key ∘ Prod.fst)) (owed s decoded frames)

theorem SessionInv.step {st st' : Session Arg Reply}
    (hs : SessionStep s decoded frames timeoutText st st')
    (hi : SessionInv s decoded frames timeoutText st) :
    SessionInv s decoded frames timeoutText st' := by
  cases hs with
  | refuse h => simp only [SessionInv, owed, h]; rfl
  | serve h => exact ⟨⟨_, h⟩, ConnInv.reachable .refl⟩
  | step h => exact ⟨hi.1, hi.2.step h⟩
  | close hloop hwait =>
    obtain ⟨⟨f, hf⟩, hc⟩ := hi
    have hserve : (ServeConn decoded).isServe = true := by rw [hf]; rfl
    simp only [SessionInv, owed, hserve, if_true]
    rw [← serveCodec_keys]
    exact hc.sent_perm hloop fun p hp =>
      (HStep.reachable_inv (hc.reach p hp)).sent_of_returned (hwait p hp)

theorem SessionInv.reachable {st : Session Arg Reply}
    (h : Relation.ReflTransGen (SessionStep s decoded frames timeoutText) .handshake st) :
    SessionInv s decoded frames timeoutText st := by
  induction h with
  | refl => trivial
  | tail _ hs ih => exact ih.step hs

/-- Only a closed connection has no step left, when every call returns or there is a timer. -/
theorem SessionInv.closed_of_no_step {st : Session Arg Reply}
    (hret : ∀ f opt, ServeConn decoded = .serve f opt →
      CallsEnd opt.HandleTimeout (serveCodec s frames))
    (hi : SessionInv s decoded frames timeoutText st)
    (hend : ∀ st', ¬ SessionStep s decoded frames timeoutText st st') :
    ∃ sent, st = .closed sent := by
  cases st with
  | handshake =>
    cases hserve : (ServeConn decoded).isServe
    · exact absurd (.refuse hserve) (hend _)
    · obtain ⟨f, opt, h⟩ := (ServeConn_isServe decoded).mp hserve
      exact absurd (.serve h) (hend _)
  | serving opt c =>
    by_cases hdone : c.events = [] ∧ ∀ p ∈ c.handlers, p.2.wait = .done
    · exact absurd (.close hdone.1 hdone.2) (hend _)
    · obtain ⟨c', hc'⟩ := hi.2.step_of_waiting (hret _ _ hi.1.choose_spec) hdone
      exact absurd (.step hc') (hend _)
  | closed sent => exact ⟨sent, rfl⟩

/-- **A connection ends closed, having answered what it read**: when every call the loop hands
on returns or the option's `HandleTimeout` is set, wherever a run of `ServeConn` stops, in any
interleaving, the connection is closed; nothing was written on it if the option was refused,
and if it was served the responses are, up to order, one per frame before the first one
`readRequest` returns no request for, with that frame's `ServiceMethod` and `Seq`. -/
theorem session_responses {st : Session Arg Reply}
    (hret : ∀ f opt, ServeConn decoded = .serve f opt →
      CallsEnd opt.HandleTimeout (serveCodec s frames))
    (hrun : Relation.ReflTransGen (SessionStep s decoded frames timeoutText) .handshake st)
    (hend : ∀ st', ¬ SessionStep s decoded frames timeoutText st st') :
    ∃ sent, st = .closed sent ∧
      List.Perm (sent.map (Header.key ∘ Prod.fst)) (owed s decoded frames) := by
  have hi := SessionInv.reachable hrun
  obtain ⟨sent, rfl⟩ := hi.closed_of_no_step hret hend
  exact ⟨sent, rfl, hi⟩

/-- `session_responses` on a connection with `DefaultOption` carrying one call of `Arith.Sum`:
the handshake, the five steps of the connection, and the close. -/
theorem session_responses_sum :
    let final : Conn Unit Unit :=
      ⟨[], [], [(sumRequest, ⟨.done, .done, [] ++ [response sumRequest.h (.ok ())]⟩)]⟩
    ∃ sent, (Session.closed final.sent : Session Unit Unit) = .closed sent ∧
      List.Perm (sent.map (Header.key ∘ Prod.fst)) (owed sumServer (.ok DefaultOption) sumFrames) := by
  intro final
  have hrun : Relation.ReflTransGen (SessionStep sumServer (.ok DefaultOption) sumFrames fun _ => "")
      .handshake (.closed final.sent) :=
    ((((((Relation.ReflTransGen.single
      (.serve (show ServeConn (.ok DefaultOption) = .serve .NewGobCodec DefaultOption by decide))).tail
      (.step (show ConnStep 0 _ (Conn.init (serveCodec sumServer sumFrames))
        ⟨[], [], [(sumRequest, .start)]⟩ from serveCodec_sum ▸ .spawn))).tail
      (.step (ConnStep.handle_one (.callReturns rfl)))).tail
      (.step (ConnStep.handle_one .receiveCalled))).tail
      (.step (ConnStep.handle_one .sendResponse))).tail (.step (ConnStep.handle_one .receiveSent))).tail
      (.close rfl fun p hp => by rw [List.mem_singleton.mp hp])
  exact session_responses
    (fun _ _ _ => .inr (serveCodec_sum ▸ fun req hreq => by rw [List.mem_singleton.1 hreq]; rfl))
    hrun fun st' h => nomatch h

/-- **A call that never returns hangs the connection** when `handleRequest` has no timer, as
with `DefaultOption`: some run stops in `serveCodec`'s `wg.Wait()`, with the connection still
open and nothing written for that request. -/
theorem session_hangs {f : NewCodecFunc} {opt : Option_} (hopt : ServeConn decoded = .serve f opt)
    (ht : opt.HandleTimeout = 0) {req : request Arg Reply}
    (hreq : req ∈ (serveCodec s frames).filterMap Event.spawned)
    (hcall : req.mtype.call req.argv = none) :
    ∃ c, Relation.ReflTransGen (SessionStep s decoded frames timeoutText) .handshake
        (.serving opt c) ∧
      (∀ st', ¬ SessionStep s decoded frames timeoutText (.serving opt c) st') ∧
      ∃ p ∈ c.handlers, p.1 = req ∧ p.2.sent = [] := by
  obtain ⟨c, hrun, hend⟩ := @ConnStep.exists_final _ _ opt.HandleTimeout timeoutText
    (Conn.init (serveCodec s frames))
  have hc := ConnInv.reachable hrun
  -- the loop is done, so it has handed `req` on
  obtain ⟨p, hp, rfl⟩ : ∃ p ∈ c.handlers, p.1 = req := by
    obtain ⟨⟨done, he, -, hh⟩, -⟩ := hc
    rw [(final_of_no_step hend).1, List.append_nil] at he
    rw [he, ← hh] at hreq
    exact List.mem_map.1 hreq
  have hstart : p.2 = Handling.start := HStep.blocked hcall ht (hc.reach p hp)
  refine ⟨c, .head (.serve hopt) (hrun.lift _ fun _ _ h => .step h), fun st' h => ?_, p, hp, rfl,
    by rw [hstart]; rfl⟩
  cases h with
  | step h => exact hend _ h
  | close _ hwait => exact nomatch hstart ▸ hwait p hp

end Run

/-- A server whose one method, `Arith.Sum`, never returns. -/
def hangServer : Server Unit Unit where
  serviceMap name :=
    if name = GoString.ofString "Arith" then
      some ⟨fun m => if m = GoString.ofString "Sum" then some ⟨fun _ => none⟩ else none⟩
    else none

/-- The request the loop hands on for `sumFrames` on `hangServer`. -/
def hangRequest : request Unit Unit :=
  ⟨⟨GoString.ofString "Arith.Sum", 1, []⟩, (), ⟨fun _ => none⟩⟩

/-- `session_hangs` on a call of `Arith.Sum` that never returns, with `DefaultOption`. -/
theorem session_hangs_sum :
    ∃ c, Relation.ReflTransGen (SessionStep hangServer (.ok DefaultOption) sumFrames fun _ => "")
        .handshake (.serving DefaultOption c) ∧
      (∀ st', ¬ SessionStep hangServer (.ok DefaultOption) sumFrames (fun _ => "")
        (.serving DefaultOption c) st') ∧
      ∃ p ∈ c.handlers, p.1 = hangRequest ∧ p.2.sent = [] :=
  session_hangs (f := .NewGobCodec) (by decide) rfl
    ((show (serveCodec hangServer sumFrames).filterMap Event.spawned = [hangRequest] from rfl) ▸
      List.mem_singleton_self _) rfl

end LetsGo.GeeRpc
