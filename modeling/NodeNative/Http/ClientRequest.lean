import NodeNative.Http.Connection
import NodeNative.Http.BodyFragments

/-!
# Client requests

`ClientRequest::end` from the sending of the request on: what is read from the socket goes to the
`ClientResponse`, and the read callback settles the future, stops reading and closes the socket. A
step of the system (`ClientLabel`) is the end of the sending or one call of the read callback.

A response is parsed by `http_parser` in its mode `HTTP_RESPONSE` (`ResponseParser`), whose result
depends on what `on_headers_complete` returns; that is a function of the status code, which the
parser has, and so part of the parameter.
-/

namespace NodeNative.Http

/-- `http_parser_execute` after `http_parser_init` with `HTTP_RESPONSE`, and the name of the error
that a parser stopped with. -/
structure ResponseParser (P : HttpParser) where
  init : P.State
  execute : P.State → Str → P.State × List MessageCallback × Nat
  errorName : P.State → String

section
variable {P : HttpParser} (R : ResponseParser P)

/-- Source: `IncomingMessage.cpp:133` `IncomingMessage::parse` of a response, with the number of
bytes parsed. -/
def Message.parse (m : Message P) (buf : Str) : Except (Exn × Message P) (Nat × Message P) :=
  let (parser, callbacks, parsed) := R.execute (m.incoming.parser.getD R.init) buf
  match m.deliver callbacks with
  | .error e => .error e
  | .ok m => .ok (parsed, { m with incoming := { m.incoming with parser := some parser } })

/-- Source: `IncomingMessage.cpp:129` `IncomingMessage::getErrorName`. -/
def Message.getErrorName (m : Message P) : String :=
  R.errorName (m.incoming.parser.getD R.init)

/-- Source: `ClientRequest.hpp:16`. `kept` says that `_instance` is set, `reading` and `closing`
where the socket stands, `future` what the returned future is settled with, and `crashed` why the
process ended, if it did. `dangling` says that the read callback has read its capture `instanceWeak`
behind the `readStop` that destroyed the closure; what follows is undefined, and the model goes on as
if the memory still held the capture. -/
structure ClientRequest (P : HttpParser) where
  kept : Bool
  response : Option (Message P)
  reading : Bool
  closing : Bool
  future : Option (Except FutureError (Message P))
  crashed : Option Crash
  dangling : Bool := false

/-- The end of the sending, with the error of the connection if there is one, and a call of the
read callback. -/
inductive ClientLabel
  | sent
  | notSent (e : FutureError)
  | read (buf : Str)
  | readError (e : ReadError)
deriving Repr

namespace ClientRequest

/-- Source: `ClientRequest.cpp:68-74`. `uninit` is the memory that the constructor of the response
leaves as it is. -/
def start (uninit : Bool) : ClientRequest P where
  kept := true
  response := some (.new false uninit)
  reading := false
  closing := false
  future := none
  crashed := none

/-- The promise is settled, and the socket stops reading and is closed. -/
def finish (s : ClientRequest P) (result : Except FutureError (Message P)) : ClientRequest P :=
  { s with kept := false, reading := false, closing := true, future := some result }

/-- The read callback on data. Source: `ClientRequest.cpp:105-126`. -/
def onRead (s : ClientRequest P) (buf : Str) : ClientRequest P :=
  match s.response with
  | none => { s with crashed := some .nullResponse }
  | some response =>
    match response.parse R buf with
    | .error (e, response) => { s with response := some response, crashed := some (.read e) }
    | .ok (parsed, response) =>
      let s := { s with response := some response }
      if !response.incoming.upgrade && parsed != buf.length then
        -- invalid request, close connection: the line behind `readStop` reads the capture again
        { s.finish (.error ⟨response.getErrorName R⟩) with dangling := true }
      else if response.incoming.upgrade || response.incoming.messageComplete then
        { s.finish (.ok response) with response := none }
      else s

/-- The read callback on an error. Source: `ClientRequest.cpp:86-103`. -/
def onReadError (s : ClientRequest P) (e : ReadError) : ClientRequest P :=
  match s.response with
  | none => if e = .eof then { s with crashed := some .nullResponse }
    else s.finish (.error ⟨"No response from socket"⟩)
  | some response =>
    if e = .eof ∧ response.incoming.messageComplete = false then s.finish (.ok response)
    else s.finish (.error ⟨"No response from socket"⟩)

/-- The assertion that the request still keeps itself, in front of a call of the read callback.
Source: `ClientRequest.cpp:84`. -/
def whenKept (s : ClientRequest P) (s' : ClientRequest P) : ClientRequest P :=
  if s.kept then s' else { s with crashed := some (.read (assertionFailed "instance->_instance")) }

end ClientRequest

/-- A step of a client request; `none` when the label cannot happen. -/
def clientStep (s : ClientRequest P) : ClientLabel → Option (ClientRequest P)
  | .sent =>
    if !s.reading && !s.closing && s.future.isNone then some { s with reading := true } else none
  | .notSent e =>
    if !s.reading && !s.closing && s.future.isNone then some { s with future := some (.error e) }
    else none
  | .read buf =>
    if s.reading && s.crashed.isNone then some (s.whenKept (s.onRead R buf)) else none
  | .readError e =>
    if s.reading && s.crashed.isNone then some (s.whenKept (s.onReadError e)) else none

/-- What a step can do. -/
inductive ClientCase (s : ClientRequest P) : ClientLabel → ClientRequest P → Prop
  | sent : s.reading = false → s.future = none → ClientCase s .sent { s with reading := true }
  | notSent (e : FutureError) : s.reading = false → s.future = none →
      ClientCase s (.notSent e) { s with future := some (.error e) }
  | read (buf : Str) : s.reading = true → s.crashed = none →
      ClientCase s (.read buf) (s.whenKept (s.onRead R buf))
  | readError (e : ReadError) : s.reading = true → s.crashed = none →
      ClientCase s (.readError e) (s.whenKept (s.onReadError e))

variable {R}

/-- Every step is one of `ClientCase`. -/
theorem clientStep_cases {s s' : ClientRequest P} {l : ClientLabel}
    (h : clientStep R s l = some s') : ClientCase R s l s' := by
  cases l <;> simp only [clientStep, Option.ite_none_right_eq_some, Bool.and_eq_true,
    Bool.not_eq_true', Option.isNone_iff_eq_none] at h <;> obtain ⟨hguard, hs'⟩ := h <;> cases hs'
  case sent => exact .sent hguard.1.1 hguard.2
  case notSent e => exact .notSent e hguard.1.1 hguard.2
  case read buf => exact .read buf hguard.1 hguard.2
  case readError e => exact .readError e hguard.1 hguard.2

/-- A request that keeps itself passes the assertion. -/
theorem ClientRequest.whenKept_eq {s : ClientRequest P} (h : s.kept = true) (s' : ClientRequest P) :
    s.whenKept s' = s' := if_pos h

end

end NodeNative.Http
