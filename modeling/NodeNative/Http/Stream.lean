import Mathlib.Data.Nat.Digits.Defs
import NodeNative.Http.Incoming
import NodeNative.Lib.Fragments

/-!
# Requests on the wire

A `Request` is an HTTP request and `Request.marks` its bytes, each marked with what the parser makes
of it: the part it belongs to and the callbacks due before or after it. `HttpParser.ConformsOn` is
what the connection relies on: a parser that starts at a request of the stream consumes every
buffer, calls back in order, hands over the run of a part in a buffer at once, and reports the end
of a request at its last byte.
-/

namespace NodeNative.Http

open Fragments

/-- The parts of a message that are handed over as data. -/
inductive Part
  | url | headerField | headerValue | body
deriving DecidableEq, Repr

/-- A byte of a message. -/
abbrev MessageMark := Mark Char Part Callback

/-- The callback of an event. -/
def toCallback : Event Char Part Callback → Callback
  | .data .url text => .url text
  | .data .headerField text => .headerField text
  | .data .headerValue text => .headerValue text
  | .data .body text => .body text
  | .note c => c

/-- A header field of a request, or a trailer field of its body. -/
structure Header where
  field : Str
  value : Str
  field_ne : field ≠ []

/-- The body of a request: none, a number of bytes that a header announces, or chunks, which may be
followed by trailer fields. -/
inductive Body
  | none
  | identity (content : Str) (ne : content ≠ [])
  | chunked (chunks : List { c : Str // c ≠ [] }) (trailers : List Header)

/-- An HTTP request: the words of its request line, its headers and its body, with what the parser
makes of the line and of the headers (`info`). -/
structure Request where
  method : Str
  url : Str
  version : Str
  info : ParserInfo
  headers : List Header
  body : Body
  url_ne : url ≠ []

/-! ### The layout of a request -/

def crlf : Str := ['\r', '\n']

/-- A header line is followed by its value's callback when there is no text to hand over: the parser
makes it when it sees that the next line is not a continuation. -/
def Header.emptyValue (h : Header) : List Callback :=
  if h.value = [] then [.headerValue []] else []

/-- Header lines in front of the end of the section. -/
def headerLines : List Header → List MessageMark → List MessageMark
  | [], tail => tail
  | h :: hs, tail =>
    text .headerField h.field ++ (plain [':', ' '] ++ (text .headerValue h.value ++
      (plain crlf ++ addBefore h.emptyValue (headerLines hs tail))))

/-- The request line up to the url. -/
def Request.start (r : Request) : List MessageMark :=
  addBefore [.messageBegin] (plain (r.method ++ [' ']))

/-- The callbacks at the end of the header section. -/
def Request.endOfHeaders (r : Request) : List Callback :=
  match r.body with
  | .none => [.headersComplete r.info, .messageComplete]
  | _ => [.headersComplete r.info]

/-- From the url to the end of the header section. -/
def Request.headSection (r : Request) : List MessageMark :=
  plain (' ' :: r.version ++ crlf) ++ headerLines r.headers (addAfter r.endOfHeaders (plain crlf))

/-- The size of a chunk in hexadecimal digits. -/
def chunkSize (n : Nat) : Str := (Nat.digits 16 n).reverse.map Nat.digitChar

/-- The body as it is sent. -/
def Body.marks : Body → List MessageMark
  | .none => []
  | .identity content _ => addAfter [.messageComplete] (text .body content)
  | .chunked chunks trailers =>
    chunks.flatMap (fun c => plain (chunkSize c.1.length ++ crlf) ++ (text .body c.1 ++ plain crlf)) ++
      (plain ('0' :: crlf) ++ headerLines trailers (addAfter [.messageComplete] (plain crlf)))

/-- What follows the url. -/
def Request.afterUrl (r : Request) : List MessageMark := r.headSection ++ r.body.marks

/-- The bytes of a request. -/
def Request.marks (r : Request) : List MessageMark :=
  r.start ++ (text .url r.url ++ r.afterUrl)

/-- The bytes of a sequence of requests. -/
def marksOf (rs : List Request) : List MessageMark := rs.flatMap Request.marks

/-! ### What the parser does on a stream -/

/-- The state of a parser that was given these buffers. -/
def HttpParser.feed (P : HttpParser) (bufs : List Str) : P.State :=
  bufs.foldl (fun σ buf => (P.execute σ buf).1) P.init

/-- The parser reads this sequence of requests as it documents: from any request on, however the
bytes are cut into buffers, it consumes each buffer and makes the callbacks of its bytes in order. -/
def HttpParser.ConformsOn (P : HttpParser) (rs : List Request) : Prop :=
  ∀ (j : Nat) (bufs : List Str) (buf : Str), (∀ b ∈ bufs, b ≠ []) → buf ≠ [] →
    bufs.flatten ++ buf <+: bytes (marksOf (rs.drop j)) →
    (P.execute (P.feed bufs) buf).2 =
      ((events (((marksOf (rs.drop j)).drop bufs.flatten.length).take buf.length)).map toCallback,
        buf.length)

/-- The callbacks of a piece of the stream, when it is read as one buffer. -/
def IncomingMessage.absorb {P : HttpParser} (m : IncomingMessage P) (ms : List MessageMark) :
    Except (Exn × IncomingMessage P) (IncomingMessage P) :=
  ((events ms).map toCallback).foldlM IncomingMessage.onCallback m

end NodeNative.Http
