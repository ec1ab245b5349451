import NodeNative.Http.Response
import NodeNative.Lib.Cut

/-!
# Outgoing messages

`OutgoingMessage` is the class that `ClientRequest` and `ServerResponse` are built on: it keeps the
headers, sends the header block with the first data, and decides there how the body is framed. A message
of either kind is an `OutgoingMessage` with what its first line is made of; `ServerResponse` is the case of
a response (`ServerResponse.writeData_toMessage`). What `sendData` gets is an `OutgoingPacket`, the head of
the message when there is one and the text after it.
-/

namespace NodeNative.Http

/-! ### The first line -/

/-- Source: `MessageBase.hpp:16` `HTTP_STATUS_CODES`. -/
def statusCodes : List (Int × String) :=
  [(100, "Continue"), (101, "Switching Protocols"), (102, "Processing"), (200, "OK"),
    (201, "Created"), (202, "Accepted"), (203, "Non-Authoritative Information"),
    (204, "No Content"), (205, "Reset Content"), (206, "Partial Content"), (207, "Multi-Status"),
    (208, "Already Reported"), (226, "IM Used"), (300, "Multiple Choices"),
    (301, "Moved Permanently"), (302, "Found"), (303, "See Other"), (304, "Not Modified"),
    (305, "Use Proxy"), (306, "(reserved)"), (307, "Temporary Redirect"),
    (308, "Permanent Redirect"), (400, "Bad Request"), (401, "Unauthorized"),
    (402, "Payment Required"), (403, "Forbidden"), (404, "Not Found"),
    (405, "Method Not Allowed"), (406, "Not Acceptable"), (407, "Proxy Authentication Required"),
    (408, "Request Timeout"), (409, "Conflict"), (410, "Gone"), (411, "Length Required"),
    (412, "Precondition Failed"), (413, "Request Entity Too Large"),
    (414, "Request-URI Too Long"), (415, "Unsupported Media Type"),
    (416, "Requested Range Not Satisfiable"), (417, "Expectation Faiiled"), (418, "I'm a teapot"),
    (421, "Misdirected Request"), (422, "Unprocessable Entity"), (423, "Locked"),
    (424, "Failed Dependency"), (425, "Unordered Collection"), (426, "Upgrade Required"),
    (428, "Precondition Required"), (429, "Too Many Requests"),
    (431, "Request Header Fields Too Large"), (451, "Unavailable For Legal Reasons"),
    (500, "Internal Server Error"), (501, "Not Implemented"), (502, "Bad Gateway"),
    (503, "Service Unavailable"), (504, "Gateway Time-out"), (505, "HTTP Version Not Supported"),
    (506, "Variant Also Negotiates"), (507, "Insufficient Storage"), (508, "Loop Detected"),
    (509, "Bandwidth Limit Exceeded"), (510, "Not Extended"),
    (511, "Network Authentication Required")]

/-- Source: `MessageBase.cpp:43` `MessageBase::GetStatusText`. -/
def getStatusText (status : Int) : Str := ((statusCodes.lookup status).getD "Unknown").toList

/-- What the first line is made of: the members `_method` and `_path` of a `ClientRequest`, or
`_statusCode` of a `ServerResponse`. -/
inductive FirstLine
  | request (method path : Str)
  | response (statusCode : Int)
deriving DecidableEq, Repr

def FirstLine.isRequest : FirstLine → Bool
  | .request _ _ => true
  | .response _ => false

/-- What `getMessageHeaderRaw` writes: the first line and the headers. -/
structure MessageHead where
  line : FirstLine
  httpMajor : Nat
  httpMinor : Nat
  headers : Headers
deriving DecidableEq, Repr

namespace MessageHead

/-- Source: `MessageBase.cpp:13` `MessageBase::getHttpVersionString`. -/
def getHttpVersionString (h : MessageHead) : Str :=
  "HTTP/".toList ++ (toString h.httpMajor).toList ++
    -- only version 1.X has a subversion
    if h.httpMajor = 1 then '.' :: (toString h.httpMinor).toList else []

/-- The line that `setHeaderFirstLine` writes, without its end. Source: `ClientRequest.cpp:52`,
`ServerResponse.cpp:17`. -/
def firstLine (h : MessageHead) : Str :=
  match h.line with
  | .request method path => method ++ " ".toList ++ path ++ " ".toList ++ h.getHttpVersionString
  | .response statusCode =>
    h.getHttpVersionString ++ " ".toList ++ (toString statusCode).toList ++ " ".toList ++
      getStatusText statusCode

/-- The end of a line. -/
def crlf : Str := ['\r', '\n']

/-- The line of a header, with its end. Source: `OutgoingMessage.cpp:31`. -/
def headerLine (e : Str × Str) : Str := e.1 ++ ": ".toList ++ e.2 ++ crlf

/-- Source: `OutgoingMessage.cpp:24` `OutgoingMessage::getMessageHeaderRaw`. -/
def getMessageHeaderRaw (h : MessageHead) : Str :=
  h.firstLine ++ crlf ++ h.headers.flatMap headerLine ++ crlf

end MessageHead

/-! ### The message -/

/-- The argument of `sendData`. -/
structure OutgoingPacket where
  head : Option MessageHead
  data : Str
deriving DecidableEq, Repr

/-- The bytes of the argument of `sendData`. -/
def OutgoingPacket.bytes (p : OutgoingPacket) : Str :=
  p.head.elim [] MessageHead.getMessageHeaderRaw ++ p.data

/-- Source: `OutgoingMessage.hpp:18`, with the members that the code reads. -/
structure OutgoingMessage where
  line : FirstLine
  httpMajor : Nat
  httpMinor : Nat
  headers : Headers
  headerSent : Bool
  closed : Bool
  sent : Bool
  last : Bool
  chunkedEncoding : Bool
  shouldKeepAlive : Bool
deriving DecidableEq, Repr

namespace OutgoingMessage

/-- The constructors, which differ in `_chunkedEncoding`. Source: `OutgoingMessage.cpp:8-20`. -/
def new (line : FirstLine) (httpMajor httpMinor : Nat) : OutgoingMessage where
  line := line
  httpMajor := httpMajor
  httpMinor := httpMinor
  headers := Headers.set [] "Content-Type".toList "text/html".toList
  headerSent := false
  closed := false
  sent := false
  last := false
  chunkedEncoding := line.isRequest
  shouldKeepAlive := true

/-- Source: `ClientRequest.cpp:7` `ClientRequest::ClientRequest`, `MessageBase.cpp:9`. -/
def ofRequest (method path : Str) : OutgoingMessage :=
  new (.request method (if path.isEmpty then "/".toList else path)) 1 1

/-- Source: `ServerResponse.cpp:10` `ServerResponse::ServerResponse`, `MessageBase.cpp:11`. -/
def ofResponse {P : HttpParser} (incomming : IncomingMessage P) : OutgoingMessage :=
  new (.response 200) incomming.httpMajor incomming.httpMinor

/-- Source: `OutgoingMessage.cpp:93` `OutgoingMessage::setHeader`. Every key and value is taken. -/
def setHeader (m : OutgoingMessage) (key value : Str) : OutgoingMessage :=
  { m with headers := m.headers.set key value }

/-- The calls of `setHeader` in order. -/
def setHeaders (m : OutgoingMessage) (es : List (Str × Str)) : OutgoingMessage :=
  es.foldl (fun m e => m.setHeader e.1 e.2) m

/-- The head of the message as it is now. -/
def head (m : OutgoingMessage) : MessageHead := ⟨m.line, m.httpMajor, m.httpMinor, m.headers⟩

/-- The part of `OutgoingMessage::writeData` in front of the first data. Source:
`OutgoingMessage.cpp:42-71`. -/
def sendHeader (m : OutgoingMessage) (str : Str) : OutgoingMessage :=
  -- if the body is sent in one go, there is no chunked encoding
  let m := if m.last then { m with chunkedEncoding := false } else m
  let m := if !m.chunkedEncoding && (m.headers.getHeader "Content-Length".toList).isNone then
      { m.setHeader "Content-Length".toList (toString str.length).toList with
        closed := true
        sent := true }
    else m
  let m := m.setHeader "Connection".toList
    (if m.shouldKeepAlive then "keep-alive".toList else "close".toList)
  let m := if m.chunkedEncoding then
      m.setHeader "Transfer-Encoding".toList "chunked".toList
    else m
  { m with headerSent := true }

/-- Source: `OutgoingMessage.cpp:38` `OutgoingMessage::writeData`, with what it gives to `sendData`. -/
def writeMessage (m : OutgoingMessage) (str : Str) :
    Except Exn (OutgoingMessage × OutgoingPacket) :=
  if m.closed then .error (assertionFailed "!_closed")
  else if !m.headerSent then
    let m := m.sendHeader str
    .ok (m, ⟨some m.head, str⟩)
  else .ok (m, ⟨none, str⟩)

/-- The virtual `writeData`: that of a response closes the connection behind a status without a body.
Source: `ServerResponse.cpp:25` `ServerResponse::writeData`. -/
def writeData (m : OutgoingMessage) (str : Str) : Except Exn (OutgoingMessage × OutgoingPacket) :=
  match m.line with
  | .request _ _ => m.writeMessage str
  | .response statusCode =>
    let m := if !m.headerSent && (statusCode = 204 || statusCode = 304) then
        { m with shouldKeepAlive := false }
      else m
    m.writeMessage str

/-- Source: `OutgoingMessage.cpp:79` `OutgoingMessage::endData`. -/
def endData (m : OutgoingMessage) (str : Str) : Except Exn (OutgoingMessage × OutgoingPacket) :=
  if m.closed then .error (assertionFailed "!_closed")
  else if m.last then .error (assertionFailed "!_last")
  else
    match { m with last := true }.writeData str with
    | .error e => .error e
    | .ok (m, packet) => .ok ({ m with closed := true, sent := true }, packet)

/-- The packets of some calls of `writeData` and one of `endData`. -/
def sendAll (m : OutgoingMessage) : List Str → Str → Except Exn (List OutgoingPacket)
  | [], s => do
    let (_, packet) ← m.endData s
    pure [packet]
  | w :: writes, s => do
    let (m, packet) ← m.writeData w
    let packets ← m.sendAll writes s
    pure (packet :: packets)

end OutgoingMessage

/-! ### Server responses -/

namespace ServerResponse

/-- A response as an outgoing message. -/
def toMessage (r : ServerResponse) : OutgoingMessage where
  line := .response r.statusCode
  httpMajor := r.httpMajor
  httpMinor := r.httpMinor
  headers := r.headers
  headerSent := r.headerSent
  closed := r.closed
  sent := r.sent
  last := r.last
  chunkedEncoding := r.chunkedEncoding
  shouldKeepAlive := r.shouldKeepAlive

end ServerResponse

/-- A packet of a response as one of an outgoing message. -/
def Packet.toOutgoing (p : Packet) : OutgoingPacket where
  head := p.header.map fun h => ⟨.response h.statusCode, h.httpMajor, h.httpMinor, h.headers⟩
  data := p.data

namespace ServerResponse

/-- A response is a message with its request's version, -/
theorem toMessage_new {P : HttpParser} (incomming : IncomingMessage P) :
    (ServerResponse.new incomming).toMessage = .ofResponse incomming := rfl

/-- its headers are those of the message, -/
theorem toMessage_setHeader (r : ServerResponse) (key value : Str) :
    (r.setHeader key value).toMessage = r.toMessage.setHeader key value := rfl

/-- and its status is in the first line. -/
theorem toMessage_setStatus (r : ServerResponse) (statusCode : Nat) :
    (r.setStatus statusCode).toMessage = { r.toMessage with line := .response statusCode } := rfl

/-- The head of a message is sent the same way. -/
theorem toMessage_sendHeader (r : ServerResponse) (str : Str) :
    (r.sendHeader str).1.toMessage = r.toMessage.sendHeader str := by
  obtain ⟨httpMajor, httpMinor, headers, headerSent, closed, sent, last, chunked, keepAlive, code⟩ := r
  cases hlength : (headers.getHeader "Content-Length".toList).isNone <;> cases last <;>
    cases chunked <;> simp only [sendHeader, OutgoingMessage.sendHeader, toMessage, setHeader,
      OutgoingMessage.setHeader, hlength, Bool.false_eq_true, if_true, if_false, Bool.not_true,
      Bool.not_false, Bool.true_and, Bool.false_and]

/-- Writing to a response is writing to the message that it is. -/
theorem writeMessage_toMessage (r : ServerResponse) (str : Str) :
    r.toMessage.writeMessage str =
      (r.writeMessage str).map fun result => (result.1.toMessage, result.2.toOutgoing) := by
  unfold OutgoingMessage.writeMessage writeMessage
  rw [← toMessage_sendHeader]
  show (if r.closed then _ else if !r.headerSent then _ else _) = _
  split
  · rfl
  · split <;> rfl

/-- Writing to a response is writing to the message that it is. -/
theorem writeData_toMessage (r : ServerResponse) (str : Str) :
    r.toMessage.writeData str =
      (r.writeData str).map fun result => (result.1.toMessage, result.2.toOutgoing) := by
  have hcode (code : Nat) : decide ((r.statusCode : Int) = code) = decide (r.statusCode = code) :=
    decide_eq_decide.2 Int.natCast_inj
  unfold OutgoingMessage.writeData writeData
  show (if !r.headerSent && (decide ((r.statusCode : Int) = (204 : Nat)) ||
    decide ((r.statusCode : Int) = (304 : Nat))) then _ else _ : OutgoingMessage).writeMessage str = _
  rw [hcode, hcode, ← writeMessage_toMessage]
  split <;> rfl

/-- Ending a response is ending the message that it is. -/
theorem endData_toMessage (r : ServerResponse) (str : Str) :
    r.toMessage.endData str =
      (r.endData str).map fun result => (result.1.toMessage, result.2.toOutgoing) := by
  have hlast : ({ r.toMessage with last := true } : OutgoingMessage) =
      toMessage { r with last := true } := rfl
  unfold OutgoingMessage.endData endData
  rw [hlast, writeData_toMessage]
  show (if r.closed then _ else if r.last then _ else _) = _
  split
  · rfl
  · split
    · rfl
    · cases writeData { r with last := true } str with
      | error e => rfl
      | ok result => rfl

end ServerResponse

end NodeNative.Http
