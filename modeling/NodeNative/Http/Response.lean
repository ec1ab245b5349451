import NodeNative.Http.Incoming

/-!
# Responses

`ServerResponse` with the members of `OutgoingMessage` that it uses. A response reaches its handler
through `end` only: `writeData` and `endData` are protected. What `sendData` gets is a `Packet`, the
header block when there is one and the text after it.
-/

namespace NodeNative.Http

/-- What `getMessageHeaderRaw` writes: the first line and the headers. Source:
`OutgoingMessage.cpp:24`, `ServerResponse.cpp:17`. -/
structure HeaderBlock where
  httpMajor : Nat
  httpMinor : Nat
  statusCode : Nat
  headers : Headers
deriving DecidableEq, Repr

/-- The argument of `sendData`. -/
structure Packet where
  header : Option HeaderBlock
  data : Str
deriving DecidableEq, Repr

/-- Source: `OutgoingMessage.hpp:18`, `ServerResponse.hpp:19`. -/
structure ServerResponse where
  httpMajor : Nat
  httpMinor : Nat
  headers : Headers
  headerSent : Bool
  closed : Bool
  sent : Bool
  last : Bool
  chunkedEncoding : Bool
  shouldKeepAlive : Bool
  statusCode : Nat
deriving DecidableEq, Repr

/-- Source: `ServerResponse.cpp:10`, `OutgoingMessage.cpp:15`, `MessageBase.cpp:11`: only the
version is taken from the request. -/
def ServerResponse.new {P : HttpParser} (incomming : IncomingMessage P) : ServerResponse where
  httpMajor := incomming.httpMajor
  httpMinor := incomming.httpMinor
  headers := Headers.set [] "Content-Type".toList "text/html".toList
  headerSent := false
  closed := false
  sent := false
  last := false
  chunkedEncoding := false
  shouldKeepAlive := true
  statusCode := 200

/-- Source: `ServerResponse.cpp:21` `ServerResponse::setStatus`. -/
def ServerResponse.setStatus (r : ServerResponse) (statusCode : Nat) : ServerResponse :=
  { r with statusCode }

/-- Source: `OutgoingMessage.cpp:93` `OutgoingMessage::setHeader`. -/
def ServerResponse.setHeader (r : ServerResponse) (key value : Str) : ServerResponse :=
  { r with headers := r.headers.set key value }

/-- The part of `OutgoingMessage::writeData` in front of the first data: the headers that describe
the body, and the header block. Source: `OutgoingMessage.cpp:42-75`. -/
def ServerResponse.sendHeader (r : ServerResponse) (str : Str) : ServerResponse × HeaderBlock :=
  let r := if r.last then { r with chunkedEncoding := false } else r
  let r := if !r.chunkedEncoding && (r.headers.getHeader "Content-Length".toList).isNone then
      { r with
        headers := r.headers.set "Content-Length".toList (toString str.length).toList
        closed := true
        sent := true }
    else r
  let r := r.setHeader "Connection".toList
    (if r.shouldKeepAlive then "keep-alive".toList else "close".toList)
  let r := if r.chunkedEncoding then
      r.setHeader "Transfer-Encoding".toList "chunked".toList
    else r
  let r := { r with headerSent := true }
  (r, ⟨r.httpMajor, r.httpMinor, r.statusCode, r.headers⟩)

/-- Source: `OutgoingMessage.cpp:38` `OutgoingMessage::writeData`, with what it gives to `sendData`. -/
def ServerResponse.writeMessage (r : ServerResponse) (str : Str) :
    Except Exn (ServerResponse × Packet) :=
  if r.closed then .error (assertionFailed "!_closed")
  else if !r.headerSent then
    let (r, header) := r.sendHeader str
    .ok (r, ⟨some header, str⟩)
  else .ok (r, ⟨none, str⟩)

/-- Source: `ServerResponse.cpp:25` `ServerResponse::writeData`. -/
def ServerResponse.writeData (r : ServerResponse) (data : Str) :
    Except Exn (ServerResponse × Packet) :=
  let r := if !r.headerSent && (r.statusCode = 204 || r.statusCode = 304) then
      { r with shouldKeepAlive := false }
    else r
  r.writeMessage data

/-- Source: `OutgoingMessage.cpp:81` `OutgoingMessage::endData`. -/
def ServerResponse.endData (r : ServerResponse) (str : Str) :
    Except Exn (ServerResponse × Packet) :=
  if r.closed then .error (assertionFailed "!_closed")
  else if r.last then .error (assertionFailed "!_last")
  else
    match { r with last := true }.writeData str with
    | .error e => .error e
    | .ok (r, packet) => .ok ({ r with closed := true, sent := true }, packet)

/-- Nothing of the response has been handed to the socket. -/
structure ServerResponse.Unsent (r : ServerResponse) : Prop where
  headerSent : r.headerSent = false
  closed : r.closed = false
  sent : r.sent = false
  last : r.last = false

/-- The response has been ended. -/
structure ServerResponse.Ended (r : ServerResponse) : Prop where
  closed : r.closed = true
  sent : r.sent = true

/-- A new response is unsent, -/
theorem ServerResponse.unsent_new {P : HttpParser} (m : IncomingMessage P) :
    (ServerResponse.new m).Unsent := ⟨rfl, rfl, rfl, rfl⟩

/-- a status leaves it so, -/
theorem ServerResponse.Unsent.setStatus {r : ServerResponse} (h : r.Unsent) (statusCode : Nat) :
    (r.setStatus statusCode).Unsent := ⟨h.headerSent, h.closed, h.sent, h.last⟩

/-- and so does a header. -/
theorem ServerResponse.Unsent.setHeader {r : ServerResponse} (h : r.Unsent) (key value : Str) :
    (r.setHeader key value).Unsent := ⟨h.headerSent, h.closed, h.sent, h.last⟩

/-- The first data of a response takes its header block along. -/
theorem ServerResponse.writeData_first {r : ServerResponse} (hclosed : r.closed = false)
    (hheader : r.headerSent = false) (str : Str) :
    ∃ r' header, r.writeData str = .ok (r', ⟨some header, str⟩) := by
  simp only [writeData, hheader, Bool.not_false, Bool.true_and]
  split <;> simp [writeMessage, hclosed, hheader]

/-- Ending an unsent response sends its header block and leaves it ended. -/
theorem ServerResponse.Unsent.endData {r : ServerResponse} (h : r.Unsent) (str : Str) :
    ∃ r' header, r.endData str = .ok (r', ⟨some header, str⟩) ∧ r'.Ended := by
  obtain ⟨r', header, hw⟩ :=
    ServerResponse.writeData_first (r := { r with last := true }) h.closed h.headerSent str
  refine ⟨{ r' with closed := true, sent := true }, header, ?_, ⟨rfl, rfl⟩⟩
  rw [ServerResponse.endData, if_neg (by simp [h.closed]), if_neg (by simp [h.last]), hw]

/-- An ended response cannot be ended again. -/
theorem ServerResponse.Ended.endData {r : ServerResponse} (h : r.Ended) (str : Str) :
    r.endData str = .error (assertionFailed "!_closed") := by
  simp [ServerResponse.endData, h.closed]

end NodeNative.Http
