import Mathlib.Data.List.Lex
import Mathlib.Data.Char
import NodeNative.Async.Basic
import NodeNative.Lib.OrderedMap

/-!
# Incoming messages

`IncomingMessage` collects what `http_parser` reports about a message: the callbacks of
`http_parser_settings` write the url, the headers and the body into the object. The parser itself
is not part of the repository and is a parameter (`HttpParser`): a state, and what one call of
`http_parser_execute` on a buffer does.

Only the request side is modelled here: the constructor argument `iIsRequest` is `true`, so there
is no status line and every callback returns 0, which lets the parser go on.
-/

namespace NodeNative.Http

/-- A `std::string`. -/
abbrev Str := List Char

/-! ### Headers -/

/-- Source: `text.hpp:9`, lexicographic order of the texts in lower case. -/
def ciLess : Str → Str → Prop := Function.onFun (· < ·) (List.map Char.toLower)

instance : DecidableRel ciLess := fun a b =>
  inferInstanceAs (Decidable (a.map Char.toLower < b.map Char.toLower))

/-- Texts are the same key when they are equal in lower case. -/
theorem ciLess_equiv {a b : Str} :
    OrderedMap.Equiv ciLess a b ↔ a.map Char.toLower = b.map Char.toLower := by
  simp only [OrderedMap.Equiv, ciLess, Function.onFun, not_lt]
  exact ⟨fun h => le_antisymm h.2 h.1, fun h => ⟨h.ge, h.le⟩⟩

instance : IsStrictWeakOrder Str ciLess where
  irrefl _ := lt_irrefl _
  trans _ _ _ := lt_trans
  incomp_trans _ _ _ hab hbc := ciLess_equiv.2 ((ciLess_equiv.1 hab).trans (ciLess_equiv.1 hbc))

/-- Source: `MessageBase::_headers`, a `std::map` ordered by `ci_less`. -/
abbrev Headers := List (Str × Str)

/-- Source: `MessageBase.cpp:33` `MessageBase::getHeader(key, value)`: `none` for `false`. -/
def Headers.getHeader (headers : Headers) (key : Str) : Option Str :=
  OrderedMap.find? ciLess key headers

/-- Source: `_headers[key] = value`. -/
def Headers.set (headers : Headers) (key value : Str) : Headers :=
  OrderedMap.insert ciLess key value headers

/-! ### The parser -/

/-- The components of a URL that `http_parser_parse_url` delimits. -/
inductive UrlField
  | schema | host | port | path | query | fragment | userinfo
deriving DecidableEq, Repr

/-- The members of `http_parser_url`: which components there are, and where. -/
structure HttpParserUrl where
  fieldSet : UrlField → Bool
  off : UrlField → Nat
  len : UrlField → Nat
  port : Nat

/-- The members of the parser that `on_headers_complete` reads. -/
structure ParserInfo where
  upgrade : Bool
  httpMajor : Nat
  httpMinor : Nat
  method : Nat
deriving DecidableEq, Repr

/-- The callbacks of `http_parser_settings` that `IncomingMessage::initParser` installs. -/
inductive Callback
  | messageBegin
  | url (text : Str)
  | headerField (text : Str)
  | headerValue (text : Str)
  | headersComplete (info : ParserInfo)
  | body (text : Str)
  | messageComplete
deriving DecidableEq, Repr

/-- The parser library: `execute` is `http_parser_execute` on a buffer, with the callbacks it makes
in order and the number of bytes it parsed; `parseUrl` is `http_parser_parse_url` with its result
and the updated `http_parser_url`; `methodStr` is `HTTP_METHOD_MAP`. -/
structure HttpParser where
  State : Type
  init : State
  execute : State → Str → State × List Callback × Nat
  parseUrl : Str → Bool → HttpParserUrl → Int × HttpParserUrl
  methodStr : Nat → Str

/-! ### The url -/

/-- Source: `UrlObject.hpp:9`. -/
structure UrlObject where
  handle : HttpParserUrl
  buf : Str

/-- Source: `UrlObject.cpp:7`. -/
def UrlObject.new : UrlObject := ⟨⟨fun _ => false, fun _ => 0, fun _ => 0, 0⟩, []⟩

/-- Source: `UrlObject.cpp:48` `UrlObject::path`. -/
def UrlObject.path (u : UrlObject) : Str :=
  if u.handle.fieldSet .path then (u.buf.drop (u.handle.off .path)).take (u.handle.len .path)
  else ['/']

/-- Source: `HttpUtils.cpp:6`, the exception that `UrlObject::parse` throws. -/
def UrlParseException : Exn := .exception "Failed to parse URL."

/-- Source: `UrlObject.cpp:66` `UrlObject::parse`. The buffer is replaced also when the parser
rejects it, so the object is returned next to the exception. -/
def UrlObject.parse (P : HttpParser) (u : UrlObject) (buf : Str) (isConnect : Bool) :
    Option Exn × UrlObject :=
  let (res, handle) := P.parseUrl buf isConnect u.handle
  let u' : UrlObject := { handle, buf }
  if res ≠ 0 then (some UrlParseException, u') else (none, u')

/-! ### The message -/

/-- Source: `IncomingMessage.hpp:16`, with the members of `MessageBase` that it fills in. `parser`
is `none` until `initParser` has run (`_initiated`). -/
structure IncomingMessage (P : HttpParser) where
  httpMajor : Nat
  httpMinor : Nat
  headers : Headers
  upgrade : Bool
  method : Nat
  url : UrlObject
  body : Str
  parser : Option P.State
  wasHeaderValue : Bool
  lastHeaderField : Str
  lastHeaderValue : Str
  headerComplete : Bool
  messageComplete : Bool

section
variable {P : HttpParser}

/-- Source: `IncomingMessage.cpp:6`. The constructor leaves `_upgrade` unset, so its first value is
whatever was there. -/
def IncomingMessage.new (upgrade : Bool) : IncomingMessage P where
  httpMajor := 1
  httpMinor := 1
  headers := []
  upgrade := upgrade
  method := 0
  url := UrlObject.new
  body := []
  parser := none
  wasHeaderValue := true
  lastHeaderField := []
  lastHeaderValue := []
  headerComplete := false
  messageComplete := false

/-- Source: `IncomingMessage.cpp:55`, the callback `on_header_field`. -/
def IncomingMessage.onHeaderField (m : IncomingMessage P) (text : Str) : IncomingMessage P :=
  if m.wasHeaderValue then
    -- new field started
    let m := if m.lastHeaderField.isEmpty then m else
      { m with headers := m.headers.set m.lastHeaderField m.lastHeaderValue, lastHeaderValue := [] }
    { m with lastHeaderField := text, wasHeaderValue := false }
  else
    { m with lastHeaderField := m.lastHeaderField ++ text }

/-- Source: `IncomingMessage.cpp:74`, the callback `on_header_value`. -/
def IncomingMessage.onHeaderValue (m : IncomingMessage P) (text : Str) : IncomingMessage P :=
  let m := { m with headerComplete := true }
  if !m.wasHeaderValue then { m with lastHeaderValue := text, wasHeaderValue := true }
  else { m with lastHeaderValue := m.lastHeaderValue ++ text }

/-- Source: `IncomingMessage.cpp:88`, the callback `on_headers_complete`. -/
def IncomingMessage.onHeadersComplete (m : IncomingMessage P) (info : ParserInfo) :
    IncomingMessage P :=
  let m := if m.lastHeaderField.isEmpty then m else
    { m with headers := m.headers.set m.lastHeaderField m.lastHeaderValue }
  { m with
    upgrade := info.upgrade
    httpMajor := info.httpMajor
    httpMinor := info.httpMinor
    method := info.method }

/-- The callbacks of a message. An exception leaves the callback, and with it
`http_parser_execute`, with the message as it is then. Source: `IncomingMessage.cpp:22`
`IncomingMessage::initParser`. -/
def IncomingMessage.onCallback (m : IncomingMessage P) :
    Callback → Except (Exn × IncomingMessage P) (IncomingMessage P)
  | .messageBegin => .ok m
  | .url text =>
    match m.url.parse P text false with
    | (some e, url) => .error (e, { m with url })
    | (none, url) => .ok { m with url }
  | .headerField text => .ok (m.onHeaderField text)
  | .headerValue text => .ok (m.onHeaderValue text)
  | .headersComplete info => .ok (m.onHeadersComplete info)
  | .body text => .ok { m with body := text }
  | .messageComplete => .ok { m with messageComplete := true }

/-- Source: `IncomingMessage.cpp:133` `IncomingMessage::parse`, with the number of bytes parsed. -/
def IncomingMessage.parse (m : IncomingMessage P) (buf : Str) :
    Except (Exn × IncomingMessage P) (Nat × IncomingMessage P) :=
  let (parser, callbacks, parsed) := P.execute (m.parser.getD P.init) buf
  match callbacks.foldlM IncomingMessage.onCallback m with
  | .error e => .error e
  | .ok m => .ok (parsed, { m with parser := some parser })

/-- The headers with the entry that is still being collected. -/
def IncomingMessage.collected (m : IncomingMessage P) : Headers :=
  if m.lastHeaderField.isEmpty then m.headers else m.headers.set m.lastHeaderField m.lastHeaderValue

/-- A header field that follows a value is the start of a new entry: the one before joins the
headers. -/
theorem IncomingMessage.onHeaderField_of_value {m : IncomingMessage P} (h : m.wasHeaderValue = true)
    (text : Str) : ∃ v, m.onHeaderField text =
      { m with headers := m.collected, lastHeaderField := text, lastHeaderValue := v,
               wasHeaderValue := false } := by
  by_cases hf : m.lastHeaderField.isEmpty = true
  · exact ⟨m.lastHeaderValue, by simp [onHeaderField, collected, h, hf]⟩
  · exact ⟨[], by simp [onHeaderField, collected, h, hf]⟩

/-- A header field in two fragments. -/
theorem IncomingMessage.onHeaderField_append (m : IncomingMessage P) (a b : Str) :
    m.onHeaderField (a ++ b) = (m.onHeaderField a).onHeaderField b := by
  by_cases hv : m.wasHeaderValue = true
  · obtain ⟨v, hab⟩ := onHeaderField_of_value hv (a ++ b)
    by_cases hf : m.lastHeaderField.isEmpty = true <;> simp [onHeaderField, hv, hf]
  · simp [onHeaderField, hv]

/-- A header value in two fragments. -/
theorem IncomingMessage.onHeaderValue_append (m : IncomingMessage P) (a b : Str) :
    m.onHeaderValue (a ++ b) = (m.onHeaderValue a).onHeaderValue b := by
  cases hv : m.wasHeaderValue <;> simp [onHeaderValue, hv]

/-- The last entry joins the headers when they are complete. -/
theorem IncomingMessage.onHeadersComplete_eq (m : IncomingMessage P) (info : ParserInfo) :
    m.onHeadersComplete info =
      { m with headers := m.collected, upgrade := info.upgrade, httpMajor := info.httpMajor,
               httpMinor := info.httpMinor, method := info.method } := by
  by_cases hf : m.lastHeaderField.isEmpty = true <;>
    simp [onHeadersComplete, collected, hf]

end

end NodeNative.Http
