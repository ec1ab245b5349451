import Mathlib.Data.List.Induction
import NodeNative.Http.Framing
import NodeNative.Http.Reading

/-!
# A request on its way to the server

What a client sends with `end` is a header block and the data (`Unframed.endData_packet`), which are
the bytes of a request (`bytes_clientRequest`). A connection that gets them in any number of pieces,
none of which ends inside the path or the data, processes one request, with the path, the headers and
the data of the client (`request_arrives`).
-/

namespace NodeNative.Http

open Fragments Transition

/-! ### Header maps and bodies on the wire -/

/-- The lines of a header map. -/
def Headers.lines (headers : Headers) (hkeys : ∀ e ∈ headers, e.1 ≠ []) : List Header :=
  headers.pmap (fun e he => ⟨e.1, e.2, he⟩) hkeys

/-- The lines of a map of headers are its entries. -/
theorem Headers.entry_lines (headers : Headers) (hkeys : ∀ e ∈ headers, e.1 ≠ []) :
    (headers.lines hkeys).map Header.entry = headers := by
  rw [lines, List.map_pmap]
  exact (List.pmap_eq_map hkeys).trans (List.map_id headers)

/-- Header lines have the bytes that the code writes for them. -/
theorem bytes_headerLines (hs : List Header) {tail : List MessageMark} :
    bytes (headerLines hs tail) =
      (hs.map Header.entry).flatMap MessageHead.headerLine ++ bytes tail := by
  induction hs with
  | nil => rfl
  | cons h hs ih =>
    rw [headerLines, bytes_append, bytes_append, bytes_append, bytes_append, bytes_addBefore, bytes_text,
      bytes_text, bytes_plain, bytes_plain, ih]
    simp [MessageHead.headerLine, MessageHead.crlf, crlf, Header.entry]

/-- Data whose length is announced. -/
def Body.ofData (data : Str) : Body :=
  if h : data = [] then .none else .identity data h

/-- A body has the bytes of its text, -/
theorem Body.bytes_ofData (data : Str) : bytes (Body.ofData data).marks = data := by
  by_cases h : data = []
  · rw [ofData, dif_pos h, h]
    rfl
  · rw [ofData, dif_neg h, marks, bytes_addAfter, bytes_text]

/-- the text is its content, -/
theorem Body.content_ofData (data : Str) : (Body.ofData data).content = data := by
  by_cases h : data = []
  · rw [ofData, dif_pos h, h]
    rfl
  · rw [ofData, dif_neg h]
    rfl

/-- and it comes in one piece. -/
theorem Body.inOnePiece_ofData (data : Str) : (Body.ofData data).InOnePiece := by
  by_cases h : data = []
  · rw [ofData, dif_pos h]
    trivial
  · rw [ofData, dif_neg h]
    trivial

/-! ### What the client sends -/

namespace OutgoingMessage

/-- The headers that are sent with data of a known length. -/
def framed (headers : Headers) (data : Str) (keepAlive : Bool) : Headers :=
  (headers.set "Content-Length".toList (toString data.length).toList).set "Connection".toList
    (if keepAlive then "keep-alive".toList else "close".toList)

/-- A status without a body closes the connection. -/
def FirstLine.keepsAlive : FirstLine → Bool
  | .request _ _ => true
  | .response statusCode => !(statusCode = 204 || statusCode = 304)

/-- The header block of a message that is sent as a whole. -/
theorem sendHeader_whole {m : OutgoingMessage} (hlast : m.last = true)
    (hlength : m.headers.getHeader "Content-Length".toList = none) (data : Str) :
    (m.sendHeader data).head = { m.head with headers := framed m.headers data m.shouldKeepAlive } := by
  have hnone : (m.headers.getHeader "Content-Length".toList).isNone = true := by
    rw [hlength]
    rfl
  simp only [sendHeader, setHeader, hlast, hnone, if_true, Bool.not_false, Bool.true_and,
    Bool.false_eq_true, if_false]
  rfl

/-- The first data of a message, with whether the connection is kept. -/
theorem writeData_kept {m : OutgoingMessage} (hsent : m.headerSent = false)
    (hclosed : m.closed = false) (data : Str) :
    ∃ m₁ : OutgoingMessage,
      m.writeData data = .ok (m₁.sendHeader data, ⟨some (m₁.sendHeader data).head, data⟩) ∧
      m₁.head = m.head ∧ m₁.last = m.last ∧
      m₁.shouldKeepAlive = (m.shouldKeepAlive && FirstLine.keepsAlive m.line) := by
  have hwrite {m : OutgoingMessage} (hsent : m.headerSent = false) (hclosed : m.closed = false) :
      m.writeMessage data = .ok (m.sendHeader data, ⟨some (m.sendHeader data).head, data⟩) := by
    simp [writeMessage, hsent, hclosed]
  unfold writeData
  split
  · rename_i hline
    exact ⟨m, hwrite hsent hclosed, rfl, rfl, by rw [hline, FirstLine.keepsAlive, Bool.and_true]⟩
  · rename_i statusCode hline
    rw [hsent, Bool.not_false, Bool.true_and, hline, FirstLine.keepsAlive]
    cases hcode : (statusCode = 204 || statusCode = 304 : Bool) with
    | true =>
      rw [if_pos rfl]
      exact ⟨_, hwrite rfl hclosed, by rw [head, head, hline], rfl, (Bool.and_false _).symm⟩
    | false =>
      rw [if_neg Bool.false_ne_true]
      exact ⟨m, hwrite hsent hclosed, rfl, rfl, (Bool.and_true _).symm⟩

/-- A message that is sent as a whole: its header block, then the data. -/
theorem Unframed.endData_packet {m : OutgoingMessage} (h : m.Unframed)
    (hkeep : m.shouldKeepAlive = true) (data : Str) :
    ∃ m', m.endData data = .ok (m', ⟨some { m.head with
      headers := framed m.headers data (FirstLine.keepsAlive m.line) }, data⟩) := by
  obtain ⟨m₁, hwrite, hhead, hlast, hkept⟩ :=
    writeData_kept (m := { m with last := true }) h.headerSent h.closed data
  have hheaders : m₁.headers = m.headers := congrArg MessageHead.headers hhead
  rw [sendHeader_whole hlast (hheaders ▸ h.contentLength), hhead, hkept, hheaders] at hwrite
  refine ⟨{ m₁.sendHeader data with closed := true, sent := true }, ?_⟩
  rw [endData_eq h.closed h.last hwrite, hkeep, Bool.true_and]
  rfl

end OutgoingMessage

/-- No key is empty. -/
theorem Headers.ne_nil_set {headers : Headers} (h : ∀ e ∈ headers, e.1 ≠ []) {key : Str}
    (hkey : key ≠ []) (value : Str) : ∀ e ∈ headers.set key value, e.1 ≠ [] := by
  intro e he hnil
  rcases OrderedMap.equiv_or_mem_of_mem_insert he with hequiv | he
  · have hlower := ciLess_equiv.mp hequiv
    rw [hnil] at hlower
    exact hkey (List.map_eq_nil_iff.mp hlower)
  · exact h e he hnil

/-- Headers that are set have names when both sides have. -/
theorem Headers.ne_nil_insertAll {headers es : Headers} (h : ∀ e ∈ headers, e.1 ≠ [])
    (hes : ∀ e ∈ es, e.1 ≠ []) : ∀ e ∈ OrderedMap.insertAll ciLess headers es, e.1 ≠ [] := by
  induction es generalizing headers with
  | nil => exact h
  | cons e es ih =>
    obtain ⟨he, hes⟩ := List.forall_mem_cons.mp hes
    exact ih (ne_nil_set h he e.2) hes

/-! ### The request -/

/-- The request that a header block and the data behind it are. -/
def MessageHead.request (head : MessageHead) (method path : Str) (hpath : path ≠ [])
    (hkeys : ∀ e ∈ head.headers, e.1 ≠ []) (info : ParserInfo) (data : Str) : Request where
  method := method
  url := path
  version := head.getHttpVersionString
  info := info
  headers := head.headers.lines hkeys
  body := Body.ofData data
  url_ne := hpath

section
variable {head : MessageHead} {method path : Str} {hpath : path ≠ []}
  {hkeys : ∀ e ∈ head.headers, e.1 ≠ []} {info : ParserInfo} {data : Str}

/-- A request has the bytes that the code writes. -/
theorem MessageHead.bytes_request (hline : head.line = .request method path) :
    bytes (head.request method path hpath hkeys info data).marks =
      head.getMessageHeaderRaw ++ data := by
  rw [Request.marks, Request.start, Request.afterUrl, Request.headSection, bytes_append, bytes_append,
    bytes_append, bytes_append, bytes_addBefore, bytes_plain, bytes_plain, bytes_text, bytes_headerLines,
    bytes_addAfter, bytes_plain, getMessageHeaderRaw, firstLine, hline]
  dsimp only [request]
  rw [Headers.entry_lines, Body.bytes_ofData]
  simp [Http.crlf, MessageHead.crlf]

/-- What a handler sees of it is what was sent. -/
theorem MessageHead.view_request (hsorted : OrderedMap.Sorted ciLess head.headers) :
    (head.request method path hpath hkeys info data).view =
      ⟨path, head.headers.getHeader, data, info.method, info.httpMajor, info.httpMinor⟩ := by
  rw [Request.view]
  dsimp only [request]
  rw [Headers.entry_lines, OrderedMap.Sorted.insertAll_append hsorted, Body.content_ofData]
  rfl

end

/-! ### Reading it -/

section
variable {P : HttpParser} {env : Env} {r : Request} {bufs pre post : List Str} {buf : Str}
  {m : IncomingMessage P}

/-- The message of a connection that has read these pieces of the request, but not all. -/
structure IncomingMessage.Partial (r : Request) (pre : List Str) (m : IncomingMessage P) : Prop where
  readsFrom : m.ReadsFrom [r] pre.flatten
  filled : m.Filled [r] 0 pre.flatten.length
  messageComplete : m.messageComplete = false
  upgrade : m.upgrade = false
  clean : pre = [] → m.CleanFor r

/-- A new message has read nothing of a request. -/
theorem IncomingMessage.partial_new : (IncomingMessage.new false : IncomingMessage P).Partial r [] where
  readsFrom := ⟨0, [], by simp, rfl, rfl⟩
  filled := ⟨fun _ => rfl, fun h => absurd rfl h⟩
  messageComplete := rfl
  upgrade := rfl
  clean _ := ⟨fun key hkey => (Bool.false_ne_true hkey).elim, fun _ => rfl⟩

/-- One request is its own bytes. -/
theorem marksOf_singleton (r : Request) : marksOf [r] = r.marks :=
  (marksOf_cons r []).trans (List.append_nil _)

/-- The next piece. The last one completes the request. -/
theorem IncomingMessage.Partial.parse (hP : P.ConformsOn [r]) (hurl : P.Accepts r.url)
    (hbody : r.body.InOnePiece) (hupgrade : r.info.upgrade = false)
    (hpieces : Pieces Part.appended r.marks (pre ++ buf :: post)) (h : m.Partial r pre) :
    ∃ m', m.parse buf = .ok (buf.length, m') ∧
      if post = [] then m'.messageComplete = true ∧ m'.view = r.view
      else m'.Partial r (pre ++ [buf]) := by
  have hbuf : buf ≠ [] := hpieces.ne_nil buf (by simp)
  have hflatten : (pre ++ [buf]).flatten = pre.flatten ++ buf := by simp
  have hle : pre.flatten.length + buf.length ≤ r.size := hpieces.length_le
  have hpos : Position [r] pre.flatten.length 0 pre.flatten.length :=
    ⟨Nat.zero_le _, by simp [marksOf], fun r' hr' => by
      cases hr'
      have := List.length_pos_iff.mpr hbuf
      omega, fun hnone => by cases hnone⟩
  have hpre : pre.flatten.length = 0 → pre = [] := fun hzero => by
    cases pre with
    | nil => rfl
    | cons b pre =>
      have hb := List.length_pos_iff.mpr (hpieces.ne_nil b (by simp))
      rw [List.flatten_cons, List.length_append] at hzero
      omega
  have hok : ReadOk m r pre.flatten.length buf := by
    refine ⟨hle, ?_, hurl, hbody, fun hzero => h.clean (hpre hzero), fun _ => ⟨fun _ =>
      h.messageComplete, ?_⟩⟩
    · have hcut := hpieces.cut (pre ++ [buf]) post (by simp)
      rw [hflatten, List.length_append] at hcut
      exact hcut
    · split
      · exact hupgrade
      · exact h.upgrade
  obtain ⟨m', habsorb, hcase⟩ := h.filled.read rfl hbuf hok
  have hnext : pre.flatten ++ buf <+: bytes (marksOf [r]) := by
    rw [marksOf_singleton]
    exact hpieces.delivered
  obtain ⟨σ, hparse, hfrom⟩ := parse_stream hP h.readsFrom hbuf hnext hpos rfl hle habsorb
  refine ⟨_, hparse, ?_⟩
  rcases hcase with ⟨hlt, hcomplete, hup, hfilled⟩ | ⟨heq, hcomplete, -, hview⟩
  · rw [if_neg fun hpost => Nat.ne_of_lt hlt (hpieces.length_eq_iff.mpr hpost)]
    refine ⟨hflatten ▸ hfrom, ?_, hcomplete, hup, fun hnil => by simp at hnil⟩
    rw [hflatten, List.length_append]
    refine ⟨fun hzero => absurd hzero ?_, fun hne => ?_⟩
    · have := List.length_pos_iff.mpr hbuf
      omega
    · obtain ⟨r', m₀, hr', hv, hclean, hc₀, hcut, habs₀⟩ := hfilled.inside hne
      exact ⟨r', { m₀ with parser := some σ }, hr', hv, hclean, hc₀, hcut, absorb_setParser habs₀ _⟩
  · rw [if_pos (hpieces.length_eq_iff.mp heq)]
    exact ⟨hcomplete, hview⟩

/-- A connection that has read a part of its first request. -/
def Connection.reading (env : Env) (m : IncomingMessage P) (received : Str) : Connection P :=
  { (Connection.start env : Connection P) with request := some m, received := received }

/-- What a read does that the message takes without an error. -/
theorem step_reading {received : Str} {m' : IncomingMessage P}
    (hparse : m.parse buf = .ok (buf.length, m')) :
    step env (Connection.reading env m received) (.read buf) =
      some (if m'.upgrade || m'.messageComplete then
        (Connection.reading env m' (received ++ buf)).processRequest env
      else Connection.reading env m' (received ++ buf)) := by
  show some ((Connection.reading env m received).onRead env buf) = _
  have hcurrent : (Connection.reading env m received).currentRequest env = m := rfl
  simp only [Connection.onRead, hcurrent, hparse, bne_self_eq_false, Bool.and_false,
    Bool.false_eq_true, if_false]
  rfl

/-- Pieces of a request in front of its last one are read without a dispatch. -/
theorem reads_partial (hP : P.ConformsOn [r]) (hurl : P.Accepts r.url) (hbody : r.body.InOnePiece)
    (hupgrade : r.info.upgrade = false) (hinit : env.uninit 0 = false)
    (hpieces : Pieces Part.appended r.marks (pre ++ buf :: post)) :
    ∃ m : IncomingMessage P, m.Partial r pre ∧ run (step env) (.start env) (pre.map .read) =
      some (.reading env m pre.flatten) := by
  induction pre using List.reverseRecOn generalizing buf post with
  | nil =>
    refine ⟨.new false, IncomingMessage.partial_new, ?_⟩
    rw [← hinit]
    rfl
  | append_singleton pre b ih =>
    rw [List.append_assoc, List.singleton_append] at hpieces
    obtain ⟨m, hm, hrun⟩ := ih hpieces
    obtain ⟨m', hparse, hnext⟩ := hm.parse hP hurl hbody hupgrade hpieces
    rw [if_neg (List.cons_ne_nil _ _)] at hnext
    refine ⟨m', hnext, ?_⟩
    rw [List.map_append, run_append, hrun, Option.bind_some, List.map_singleton, run_cons,
      step_reading hparse, hnext.upgrade, hnext.messageComplete]
    simp

/-- A connection that gets a request in pieces, none of which ends inside the url or the body, has read
it as it was sent when the last one comes. -/
theorem reads_whole (hP : P.ConformsOn [r]) (hurl : P.Accepts r.url) (hbody : r.body.InOnePiece)
    (hupgrade : r.info.upgrade = false) (hinit : env.uninit 0 = false)
    (hpieces : Pieces Part.appended r.marks bufs) :
    ∃ m : IncomingMessage P, m.view = r.view ∧ run (step env) (.start env) (bufs.map .read) =
      some ((Connection.reading env m (bytes r.marks)).processRequest env) := by
  have hne : bufs ≠ [] := by
    rintro rfl
    have hlength := congrArg List.length hpieces.flatten
    have hsize := r.size_eq
    have hurl := List.length_pos_iff.mpr r.url_ne
    rw [List.flatten_nil, List.length_nil, length_bytes] at hlength
    rw [Request.size, ← hlength, Request.headSize] at hsize
    omega
  obtain ⟨pre, buf, rfl⟩ : ∃ pre buf, bufs = pre ++ [buf] :=
    ⟨bufs.dropLast, bufs.getLast hne, (List.dropLast_append_getLast hne).symm⟩
  obtain ⟨m, hm, hrun⟩ := reads_partial hP hurl hbody hupgrade hinit hpieces
  obtain ⟨m', hparse, hcomplete, hview⟩ := hm.parse hP hurl hbody hupgrade hpieces
  have hreceived : pre.flatten ++ buf = bytes r.marks := by
    rw [← hpieces.flatten]
    simp
  refine ⟨m', hview, ?_⟩
  rw [List.map_append, run_append, hrun, Option.bind_some, List.map_singleton, run_cons,
    step_reading hparse, hcomplete, Bool.or_true, if_pos rfl, Option.bind_some, run_nil, hreceived]

/-- It processes the request once, and stays open. -/
theorem reads_request (hP : P.ConformsOn [r]) (hurl : P.Accepts r.url) (hbody : r.body.InOnePiece)
    (hupgrade : r.info.upgrade = false) (hinit : env.uninit 0 = false)
    (hpieces : Pieces Part.appended r.marks bufs) :
    ∃ s : Connection P, run (step env) (.start env) (bufs.map .read) = some s ∧
      s.processed = [r.view] ∧ s.closed = false ∧ s.crashed = none ∧ s.chains.length = 1 := by
  obtain ⟨m, hview, hrun⟩ := reads_whole hP hurl hbody hupgrade hinit hpieces
  exact ⟨_, hrun, congrArg (fun v => [v]) hview, rfl, rfl, rfl⟩

/-! ### The client's request -/

/-- The headers of a message that is sent with data of a known length. -/
def sentHeaders (es : List (Str × Str)) (data : Str) (keepAlive : Bool) : Headers :=
  OutgoingMessage.framed (OrderedMap.insertAll ciLess
    (Headers.set [] "Content-Type".toList "text/html".toList) es) data keepAlive

/-- The headers that are sent have names, -/
theorem sentHeaders_ne_nil {es : List (Str × Str)} (hkeys : ∀ e ∈ es, e.1 ≠ []) (data : Str)
    (keepAlive : Bool) : ∀ e ∈ sentHeaders es data keepAlive, e.1 ≠ [] := by
  have hfirst : ∀ e ∈ Headers.set [] "Content-Type".toList "text/html".toList, e.1 ≠ [] :=
    Headers.ne_nil_set (by simp) (by decide) _
  exact Headers.ne_nil_set (Headers.ne_nil_set (Headers.ne_nil_insertAll hfirst hkeys) (by decide) _)
    (by decide) _

/-- and they are in the order of the map. -/
theorem sentHeaders_sorted (es : List (Str × Str)) (data : Str) (keepAlive : Bool) :
    OrderedMap.Sorted ciLess (sentHeaders es data keepAlive) := by
  have hfirst : OrderedMap.Sorted ciLess (Headers.set [] "Content-Type".toList "text/html".toList) :=
    OrderedMap.Sorted.insert .nil _ _
  exact ((hfirst.insertAll es).insert _ _).insert _ _

/-- What the other side finds under a key: what frames the data, or what the sender set last. -/
theorem getHeader_sentHeaders (es : List (Str × Str)) (data : Str) (keepAlive : Bool) (key : Str) :
    (sentHeaders es data keepAlive).getHeader key =
      if OrderedMap.Equiv ciLess "Connection".toList key then
        some (if keepAlive then "keep-alive".toList else "close".toList)
      else if OrderedMap.Equiv ciLess "Content-Length".toList key then
        some (toString data.length).toList
      else (OrderedMap.last? ciLess key es).or
        (Headers.getHeader [("Content-Type".toList, "text/html".toList)] key) := by
  rw [sentHeaders, OutgoingMessage.framed, OutgoingMessage.getHeader_set,
    OutgoingMessage.getHeader_set, Headers.getHeader, OrderedMap.find?_insertAll]
  rfl

/-- The path of the request line. -/
def clientPath (path : Str) : Str := if path.isEmpty then "/".toList else path

/-- The path of a client request is not empty. -/
theorem clientPath_ne_nil (path : Str) : clientPath path ≠ [] := by
  cases path with
  | nil => decide
  | cons c path => exact List.cons_ne_nil _ _

/-- The request that a client sends, with what a parser makes of its line and its headers. -/
def clientRequest (method path : Str) {es : List (Str × Str)} (hkeys : ∀ e ∈ es, e.1 ≠ []) (data : Str)
    (info : ParserInfo) : Request :=
  MessageHead.request ⟨.request method (clientPath path), 1, 1, sentHeaders es data true⟩ method
    (clientPath path) (clientPath_ne_nil path) (sentHeaders_ne_nil hkeys data true) info data

/-- What `end` writes of a client request are the bytes of that request. -/
theorem endData_clientRequest {method path : Str} {es : List (Str × Str)}
    (hes : OutgoingMessage.SetsNoFraming es) (hkeys : ∀ e ∈ es, e.1 ≠ []) (data : Str)
    (info : ParserInfo) : ∃ m' packet,
      ((OutgoingMessage.ofRequest method path).setHeaders es).endData data = .ok (m', packet) ∧
        packet.bytes = bytes (clientRequest method path hkeys data info).marks := by
  have hunframed := OutgoingMessage.unframed_setHeaders (.request method (clientPath path)) 1 1 hes
  have heq := OutgoingMessage.setHeaders_eq (.new (.request method (clientPath path)) 1 1) es
  obtain ⟨m', hm'⟩ := hunframed.endData_packet (by rw [heq]; rfl) data
  refine ⟨m', _, hm', ?_⟩
  rw [clientRequest, MessageHead.bytes_request rfl, heq]
  rfl

/-- A client sends a request with its `end`. The server's connection, which gets it in pieces of any
sizes but does not find the end of one inside the path or the data, processes one request: the path,
the headers and the data are those of the client. -/
theorem request_arrives {method path : Str} {es : List (Str × Str)}
    (hes : OutgoingMessage.SetsNoFraming es) (hkeys : ∀ e ∈ es, e.1 ≠ []) {data : Str}
    {info : ParserInfo} (hP : P.ConformsOn [clientRequest method path hkeys data info])
    (hurl : P.Accepts (clientPath path)) (hupgrade : info.upgrade = false)
    (hinit : env.uninit 0 = false)
    (hpieces : Pieces Part.appended (clientRequest method path hkeys data info).marks bufs) :
    ∃ m' packet, ((OutgoingMessage.ofRequest method path).setHeaders es).endData data =
        .ok (m', packet) ∧ packet.bytes = bufs.flatten ∧
      ∃ s : Connection P, run (step env) (.start env) (bufs.map .read) = some s ∧
        s.closed = false ∧ s.crashed = none ∧ s.chains.length = 1 ∧
        s.processed = [{
          url := clientPath path
          headers := fun key =>
            if OrderedMap.Equiv ciLess "Connection".toList key then some "keep-alive".toList
            else if OrderedMap.Equiv ciLess "Content-Length".toList key then
              some (toString data.length).toList
            else (OrderedMap.last? ciLess key es).or
              (Headers.getHeader [("Content-Type".toList, "text/html".toList)] key)
          body := data
          method := info.method
          httpMajor := info.httpMajor
          httpMinor := info.httpMinor }] := by
  obtain ⟨m', packet, hsend, hbytes⟩ := endData_clientRequest hes hkeys data info
  obtain ⟨s, hrun, hprocessed, hclosed, hcrashed, hchains⟩ :=
    reads_request hP hurl (Body.inOnePiece_ofData data) hupgrade hinit hpieces
  refine ⟨m', packet, hsend, hbytes.trans hpieces.flatten.symm, s, hrun, hclosed, hcrashed, hchains, ?_⟩
  rw [hprocessed, clientRequest, MessageHead.view_request (sentHeaders_sorted es data true),
    funext (getHeader_sentHeaders es data true)]
  rfl

end

/-! ### A post -/

def postInfo : ParserInfo := ⟨false, 1, 1, 3⟩

def postRequest : Request :=
  clientRequest "POST".toList "/a?b=1".toList (List.forall_mem_nil _) "hello".toList postInfo

def postParser : HttpParser := scriptParser postRequest.marks

/-- The parser of the request reads it. -/
theorem postParser_conformsOn : postParser.ConformsOn [postRequest] := by
  refine scriptParser_conformsOn fun j => ?_
  cases j with
  | zero => exact (marksOf_singleton postRequest) ▸ List.prefix_rfl
  | succ j => simp [marksOf]

/-- A request with a body arrives at the server. -/
theorem request_arrives_post : ∃ s : Connection postParser,
    run (step noHandlers) (.start noHandlers) [.read (bytes postRequest.marks)] = some s ∧
      s.processed.map View.body = ["hello".toList] := by
  have hone : Pieces Part.appended postRequest.marks [bytes postRequest.marks] := .one (by decide)
  obtain ⟨-, -, -, -, s, hrun, -, -, -, hprocessed⟩ := request_arrives (List.forall_mem_nil _)
    (List.forall_mem_nil _) postParser_conformsOn (fun _ => rfl) rfl
    (show noHandlers.uninit 0 = false from rfl) hone
  exact ⟨s, hrun, by rw [hprocessed]; rfl⟩

end NodeNative.Http
