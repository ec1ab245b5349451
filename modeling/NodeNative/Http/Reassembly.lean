import NodeNative.Http.Connection
import NodeNative.Http.Stream

/-!
# Reading a request

What an `IncomingMessage` holds after the callbacks of a piece of a request. Header fields and
values may fall apart in fragments wherever the stream is cut (`absorb_append`); the url and the
body may not. `absorb_marks` is the state after a whole request, whatever the message held before
it, and `absorb_take` what is known after a part of it.
-/

namespace NodeNative.Http

open Fragments

section
variable {P : HttpParser}

/-! ### Cuts -/

/-- The bytes do what their callbacks do. -/
theorem IncomingMessage.absorb_eq (m : IncomingMessage P) (ms : List MessageMark) :
    m.absorb ms = (events ms).foldlM (fun m e => m.onCallback (toCallback e)) m := by
  rw [absorb, List.foldlM_map]

/-- The parts whose fragments are appended. -/
def Part.appended : Part → Prop
  | .headerField | .headerValue => True
  | .url | .body => False

/-- A cut between two buffers falls apart appended parts only. -/
def CutOk (a b : List MessageMark) : Prop :=
  ∀ p, openPart a = some p → continues p b = true → p.appended

/-- Reading in two buffers that are not cut inside the url or the body is reading in one. -/
theorem IncomingMessage.absorb_append {a b : List MessageMark} (h : CutOk a b)
    (m : IncomingMessage P) : m.absorb (a ++ b) = m.absorb a >>= (·.absorb b) := by
  have hf : ∀ p, openPart a = some p → continues p b = true → ∀ (m : IncomingMessage P) d₁ d₂,
      m.onCallback (toCallback (.data p (d₁ ++ d₂))) =
        m.onCallback (toCallback (.data p d₁)) >>= (·.onCallback (toCallback (.data p d₂))) := by
    intro p ho hc m d₁ d₂
    have hp := h p ho hc
    cases p with
    | url => exact hp.elim
    | body => exact hp.elim
    | headerField => simp [toCallback, onCallback, onHeaderField_append, bind, Except.bind]
    | headerValue => simp [toCallback, onCallback, onHeaderValue_append, bind, Except.bind]
  simp only [absorb_eq]
  exact foldlM_events_append hf m

/-! ### The parser's own state -/

/-- The callbacks do not look at the state of the parser. -/
theorem IncomingMessage.onCallback_setParser {m m' : IncomingMessage P} {c : Callback}
    (h : m.onCallback c = .ok m') (σ : Option P.State) :
    { m with parser := σ }.onCallback c = .ok { m' with parser := σ } := by
  cases c with
  | url text =>
    simp only [onCallback] at h ⊢
    split at h
    · cases h
    · cases h; rfl
  | headerField text =>
    cases h
    simp only [onCallback, onHeaderField]
    split
    · split <;> rfl
    · rfl
  | headerValue text =>
    cases h
    simp only [onCallback, onHeaderValue]
    split <;> rfl
  | headersComplete info =>
    cases h
    simp only [onCallback, onHeadersComplete]
    split <;> rfl
  | messageBegin => cases h; rfl
  | body text => cases h; rfl
  | messageComplete => cases h; rfl

/-- The state of the parser has no part in it. -/
theorem IncomingMessage.absorb_setParser {m m' : IncomingMessage P} {ms : List MessageMark}
    (h : m.absorb ms = .ok m') (σ : Option P.State) :
    { m with parser := σ }.absorb ms = .ok { m' with parser := σ } := by
  simp only [absorb] at h ⊢
  generalize (events ms).map toCallback = cs at h ⊢
  induction cs generalizing m with
  | nil => cases h; rfl
  | cons c cs ih =>
    simp only [List.foldlM_cons] at h ⊢
    cases hc : m.onCallback c with
    | error e => rw [hc] at h; cases h
    | ok m₁ =>
      rw [hc] at h
      rw [onCallback_setParser hc]
      exact ih h

/-! ### Header lines -/

/-- The message after a header line. -/
def IncomingMessage.addHeader (m : IncomingMessage P) (h : Header) : IncomingMessage P :=
  { m with
    headers := m.collected
    lastHeaderField := h.field
    lastHeaderValue := h.value
    wasHeaderValue := true
    headerComplete := true }

/-- The entry of a header line. -/
def Header.entry (h : Header) : Str × Str := (h.field, h.value)

@[simp] theorem IncomingMessage.collected_addHeader (m : IncomingMessage P) (h : Header) :
    (m.addHeader h).collected = m.collected.set h.field h.value := by
  have hne := h.field_ne
  simp [collected, addHeader, hne]

/-- A field and its value, after the value of the line before. -/
theorem IncomingMessage.onHeaderField_onHeaderValue {m : IncomingMessage P}
    (hv : m.wasHeaderValue = true) (h : Header) :
    (m.onHeaderField h.field).onHeaderValue h.value = m.addHeader h := by
  obtain ⟨v, hm⟩ := onHeaderField_of_value hv h.field
  simp [hm, onHeaderValue, addHeader]

/-- The bytes behind the headers are among the bytes of the lines. -/
theorem headerLines_ne_nil {hs : List Header} {tail : List MessageMark} (ht : tail ≠ []) :
    headerLines hs tail ≠ [] := by
  cases hs with
  | nil => exact ht
  | cons h hs =>
    have hne := h.field_ne
    simp [headerLines, text, hne]

/-- The callbacks of header lines, in front of those of the end of the section. -/
theorem IncomingMessage.absorb_headerLines {hs : List Header} {tail : List MessageMark}
    (ht : tail ≠ []) {m : IncomingMessage P} (hv : m.wasHeaderValue = true) :
    m.absorb (headerLines hs tail) = (hs.foldl addHeader m).absorb tail := by
  induction hs generalizing m with
  | nil => rfl
  | cons h hs ih =>
    have hrest := ih (m := m.addHeader h) rfl
    have hne : headerLines hs tail ≠ [] := headerLines_ne_nil ht
    rw [List.foldl_cons, ← hrest]
    have hfield : events (headerLines (h :: hs) tail) = .data .headerField h.field ::
        events (text .headerValue h.value ++
          (plain crlf ++ addBefore h.emptyValue (headerLines hs tail))) := by
      rw [headerLines, events_text_append h.field_ne (by simp [plain, continues]),
        events_plain_append]
    rw [absorb, hfield, ← onHeaderField_onHeaderValue hv]
    by_cases hval : h.value = []
    · rw [hval, show (text Part.headerValue [] : List MessageMark) = [] from rfl, List.nil_append,
        events_plain_append, events_addBefore _ hne]
      simp [Header.emptyValue, hval, toCallback, onCallback, absorb, bind, Except.bind]
    · rw [events_text_append hval (by simp [plain, crlf, continues]), events_plain_append,
        events_addBefore _ hne]
      simp [Header.emptyValue, hval, toCallback, onCallback, absorb, bind, Except.bind]

/-- Header lines leave the rest of the message as it is. -/
theorem IncomingMessage.foldl_addHeader (hs : List Header) (m : IncomingMessage P) :
    ∃ headers field value headerComplete, hs.foldl addHeader m =
      { m with
        headers
        lastHeaderField := field
        lastHeaderValue := value
        headerComplete
        wasHeaderValue := m.wasHeaderValue || !hs.isEmpty } := by
  induction hs generalizing m with
  | nil => exact ⟨m.headers, m.lastHeaderField, m.lastHeaderValue, m.headerComplete, by simp⟩
  | cons h hs ih =>
    obtain ⟨headers, field, value, headerComplete, hm⟩ := ih (m.addHeader h)
    refine ⟨headers, field, value, headerComplete, ?_⟩
    rw [List.foldl_cons, hm]
    simp [addHeader]

/-- Header lines assign to the headers in order. -/
theorem IncomingMessage.collected_foldl_addHeader (hs : List Header) (m : IncomingMessage P) :
    (hs.foldl addHeader m).collected =
      OrderedMap.insertAll ciLess m.collected (hs.map Header.entry) := by
  induction hs generalizing m with
  | nil => rfl
  | cons h hs ih =>
    rw [List.foldl_cons, ih, collected_addHeader]
    rfl

/-! ### The sections of a request -/

/-- More bytes behind the lines. -/
theorem headerLines_append {hs : List Header} {tail : List MessageMark} (ht : tail ≠ [])
    (ms : List MessageMark) : headerLines hs (tail ++ ms) = headerLines hs tail ++ ms := by
  induction hs with
  | nil => rfl
  | cons h hs ih =>
    simp only [headerLines, ih, addBefore_append _ (headerLines_ne_nil ht), List.append_assoc]

/-- The url is one that `http_parser_parse_url` takes for a request that is not a CONNECT. -/
def HttpParser.Accepts (P : HttpParser) (url : Str) : Prop :=
  ∀ handle, (P.parseUrl url false handle).1 = 0

/-- The request line, when what follows the url does not continue it. -/
theorem IncomingMessage.absorb_start {r : Request} (hurl : P.Accepts r.url) (m : IncomingMessage P)
    {ms : List MessageMark} (hms : continues .url ms = false) :
    ∃ (url : UrlObject) (m' : IncomingMessage P), url.buf = r.url ∧ m' = { m with url } ∧
      m.absorb (r.start ++ (text .url r.url ++ ms)) = m'.absorb ms := by
  refine ⟨⟨(P.parseUrl r.url false m.url.handle).2, r.url⟩, _, rfl, rfl, ?_⟩
  have hne : (plain (r.method ++ [' ']) : List MessageMark) ≠ [] := by simp [plain]
  have hstart : events (r.start ++ (text .url r.url ++ ms)) =
      .note .messageBegin :: .data .url r.url :: events ms := by
    rw [Request.start, ← addBefore_append _ hne, events_addBefore _ (by simp [plain]),
      events_plain_append, events_text_append r.url_ne hms]
    rfl
  have hcb : m.onCallback (.url r.url) =
      .ok { m with url := ⟨(P.parseUrl r.url false m.url.handle).2, r.url⟩ } := by
    simp [onCallback, UrlObject.parse, hurl m.url.handle]
  simp only [absorb, hstart, List.map_cons, toCallback, List.foldlM_cons]
  show m.onCallback (.url r.url) >>= _ = _
  rw [hcb]
  rfl

/-- The message after the header section. -/
def IncomingMessage.afterHeaders (m : IncomingMessage P) (r : Request) : IncomingMessage P :=
  (r.headers.foldl addHeader m).onHeadersComplete r.info

section
variable (m : IncomingMessage P) (r : Request)

/-- The headers of the request are in the map. -/
theorem IncomingMessage.afterHeaders_eq : ∃ field value headerComplete, m.afterHeaders r =
    { m with
      headers := OrderedMap.insertAll ciLess m.collected (r.headers.map Header.entry)
      lastHeaderField := field
      lastHeaderValue := value
      headerComplete
      wasHeaderValue := m.wasHeaderValue || !r.headers.isEmpty
      upgrade := r.info.upgrade
      httpMajor := r.info.httpMajor
      httpMinor := r.info.httpMinor
      method := r.info.method } := by
  obtain ⟨headers, field, value, headerComplete, hm⟩ := foldl_addHeader r.headers m
  refine ⟨field, value, headerComplete, ?_⟩
  rw [afterHeaders, onHeadersComplete_eq, collected_foldl_addHeader, hm]

@[simp] theorem IncomingMessage.afterHeaders_headers : (m.afterHeaders r).headers =
    OrderedMap.insertAll ciLess m.collected (r.headers.map Header.entry) := by
  obtain ⟨_, _, _, hm⟩ := afterHeaders_eq m r
  rw [hm]

@[simp] theorem IncomingMessage.afterHeaders_url : (m.afterHeaders r).url = m.url := by
  obtain ⟨_, _, _, hm⟩ := afterHeaders_eq m r
  rw [hm]

@[simp] theorem IncomingMessage.afterHeaders_body : (m.afterHeaders r).body = m.body := by
  obtain ⟨_, _, _, hm⟩ := afterHeaders_eq m r
  rw [hm]

@[simp] theorem IncomingMessage.afterHeaders_upgrade :
    (m.afterHeaders r).upgrade = r.info.upgrade := rfl

@[simp] theorem IncomingMessage.afterHeaders_method :
    (m.afterHeaders r).method = r.info.method := rfl

@[simp] theorem IncomingMessage.afterHeaders_httpMajor :
    (m.afterHeaders r).httpMajor = r.info.httpMajor := rfl

@[simp] theorem IncomingMessage.afterHeaders_httpMinor :
    (m.afterHeaders r).httpMinor = r.info.httpMinor := rfl

@[simp] theorem IncomingMessage.afterHeaders_messageComplete :
    (m.afterHeaders r).messageComplete = m.messageComplete := by
  obtain ⟨_, _, _, hm⟩ := afterHeaders_eq m r
  rw [hm]

/-- The last part of the headers is a value. -/
theorem IncomingMessage.afterHeaders_wasHeaderValue (hv : m.wasHeaderValue = true) :
    (m.afterHeaders r).wasHeaderValue = true := by
  obtain ⟨_, _, _, hm⟩ := afterHeaders_eq m r
  simp [hm, hv]

end

/-- Once the headers are complete, the entry that is still held is one of them. -/
theorem IncomingMessage.getHeader_collected_afterHeaders (m : IncomingMessage P) (r : Request)
    (key : Str) : (m.afterHeaders r).collected.getHeader key = (m.afterHeaders r).headers.getHeader key := by
  rw [afterHeaders, onHeadersComplete_eq]
  generalize r.headers.foldl addHeader m = m₁
  by_cases hf : m₁.lastHeaderField.isEmpty = true
  · simp [collected, hf]
  · simp only [collected, hf, Headers.getHeader, Headers.set]
    simp only [Bool.false_eq_true, if_false, OrderedMap.find?_insert]
    split <;> rfl

/-- The callbacks of the header section. -/
theorem IncomingMessage.absorb_headSection (r : Request) {m : IncomingMessage P}
    (hv : m.wasHeaderValue = true) (ms : List MessageMark) :
    m.absorb (r.headSection ++ ms) =
      (match r.body with
        | .none => { m.afterHeaders r with messageComplete := true }
        | _ => m.afterHeaders r).absorb ms := by
  have htail : (addAfter r.endOfHeaders (plain crlf) : List MessageMark) ≠ [] := by
    simp [plain, crlf, addAfter]
  have hplain : ∀ ms' : List MessageMark, m.absorb (plain (' ' :: r.version ++ crlf) ++ ms') =
      m.absorb ms' := by
    intro ms'
    rw [absorb, events_plain_append, absorb]
  rw [Request.headSection, List.append_assoc, hplain, ← headerLines_append htail,
    absorb_headerLines (by simp [plain, crlf, addAfter]) hv, absorb,
    events_addAfter_plain_append (by simp [crlf])]
  cases hbody : r.body <;>
    simp [Request.endOfHeaders, hbody, toCallback, absorb, onCallback, afterHeaders, bind,
      Except.bind]

/-- The text of a body. -/
def Body.content : Body → Str
  | .none => []
  | .identity content _ => content
  | .chunked chunks _ => (chunks.map Subtype.val).flatten

/-- The body comes in one piece, and no more than one trailer field comes with it. -/
def Body.InOnePiece : Body → Prop
  | .none | .identity _ _ => True
  | .chunked chunks trailers => chunks.length ≤ 1 ∧ trailers.length ≤ 1

/-- The callbacks of a body that comes in one piece: its text replaces the body, and a trailer field
moves the held entry into the headers. -/
theorem IncomingMessage.absorb_body {b : Body} (hb : b.InOnePiece) (hne : b ≠ .none)
    {m : IncomingMessage P} (hv : m.wasHeaderValue = true) :
    ∃ m', m.absorb b.marks = .ok m' ∧ m'.messageComplete = true ∧ m'.wasHeaderValue = true ∧
      m'.url = m.url ∧ (m'.headers = m.headers ∨ m'.headers = m.collected) ∧
      m'.body = (if b.content = [] then m.body else b.content) ∧ m'.upgrade = m.upgrade ∧
      m'.method = m.method ∧ m'.httpMajor = m.httpMajor ∧ m'.httpMinor = m.httpMinor := by
  cases b with
  | none => exact absurd rfl hne
  | identity content hc =>
    refine ⟨{ m with body := content, messageComplete := true }, ?_, rfl, hv, rfl, .inl rfl,
      by simp [Body.content, hc], rfl, rfl, rfl, rfl⟩
    have hev := events_addAfter_text_append (p := Part.body) hc
      (show [Callback.messageComplete] ≠ [] by simp) []
    simp only [List.append_nil] at hev
    simp [absorb, Body.marks, hev, toCallback, onCallback, bind, Except.bind, pure, Except.pure]
  | chunked chunks trailers =>
    obtain ⟨hlen, htr⟩ := hb
    -- the chunk, if there is one
    have hchunk : ∀ ms, ∃ m₁ : IncomingMessage P,
        m₁ = { m with body := if (Body.chunked chunks trailers).content = [] then m.body
          else (Body.chunked chunks trailers).content } ∧
        m.absorb (chunks.flatMap (fun c =>
          plain (chunkSize c.1.length ++ crlf) ++ (text .body c.1 ++ plain crlf)) ++ ms) =
          m₁.absorb ms := by
      intro ms
      refine ⟨_, rfl, ?_⟩
      rcases chunks with _ | ⟨c, _ | ⟨c', cs⟩⟩
      · simp [Body.content]
      · simp only [List.flatMap_cons, List.flatMap_nil, List.append_nil, List.append_assoc]
        rw [absorb, events_plain_append, events_text_append c.2 (by simp [plain, crlf, continues]),
          events_plain_append]
        simp [toCallback, onCallback, Body.content, c.2, absorb, bind, Except.bind]
      · simp at hlen
    obtain ⟨m₁, hm₁, habs⟩ := hchunk
      (plain ('0' :: crlf) ++ headerLines trailers (addAfter [.messageComplete] (plain crlf)))
    have hv₁ : m₁.wasHeaderValue = true := by rw [hm₁]; exact hv
    have hplain : ∀ ms' : List MessageMark, m₁.absorb (plain ('0' :: crlf) ++ ms') =
        m₁.absorb ms' := by
      intro ms'
      rw [absorb, events_plain_append, absorb]
    have hend : ∀ m₂ : IncomingMessage P,
        m₂.absorb (addAfter [.messageComplete] (plain crlf)) =
          .ok { m₂ with messageComplete := true } := by
      intro m₂
      have hev := events_addAfter_plain_append (P := Part) (show crlf ≠ [] by simp [crlf])
        [Callback.messageComplete] []
      simp only [List.append_nil] at hev
      simp [absorb, hev, toCallback, onCallback, bind, Except.bind, pure, Except.pure]
    refine ⟨{ trailers.foldl addHeader m₁ with messageComplete := true }, ?_, rfl, ?_⟩
    · rw [Body.marks, habs, hplain,
        absorb_headerLines (by simp [plain, crlf, addAfter]) hv₁, hend]
    · rcases trailers with _ | ⟨t, _ | ⟨t', ts⟩⟩
      · subst hm₁
        exact ⟨hv, rfl, .inl rfl, rfl, rfl, rfl, rfl, rfl⟩
      · subst hm₁
        exact ⟨rfl, rfl, .inr rfl, rfl, rfl, rfl, rfl, rfl⟩
      · simp at htr

/-! ### A whole request -/

/-- The number of bytes of a request. -/
def Request.size (r : Request) : Nat := r.marks.length

/-- The number of bytes up to the end of the header section. -/
def Request.headSize (r : Request) : Nat :=
  r.start.length + r.url.length + r.headSection.length

/-- What a handler is to see of a request. -/
def Request.view (r : Request) : View where
  url := r.url
  headers := Headers.getHeader (OrderedMap.insertAll ciLess [] (r.headers.map Header.entry))
  body := r.body.content
  method := r.info.method
  httpMajor := r.info.httpMajor
  httpMinor := r.info.httpMinor

/-- Nothing that the message holds shows through once it has read the request: every header that it
holds is one that the request sets, and there is no body that the request does not replace. -/
def IncomingMessage.CleanFor (m : IncomingMessage P) (r : Request) : Prop :=
  (∀ key, (m.collected.getHeader key).isSome →
    ∃ h ∈ r.headers, OrderedMap.Equiv ciLess h.field key) ∧
  (r.body.content = [] → m.body = [])

/-- The headers of a clean message are those of the request. -/
theorem IncomingMessage.CleanFor.getHeader {m : IncomingMessage P} {r : Request}
    (h : m.CleanFor r) (key : Str) :
    Headers.getHeader (OrderedMap.insertAll ciLess m.collected (r.headers.map Header.entry)) key =
      Headers.getHeader (OrderedMap.insertAll ciLess [] (r.headers.map Header.entry)) key := by
  by_cases hk : ∃ h ∈ r.headers, OrderedMap.Equiv ciLess h.field key
  · obtain ⟨e, he, heq⟩ := hk
    exact OrderedMap.find?_insertAll_of_mem _ _ ⟨e.entry, List.mem_map_of_mem he, heq⟩
  · have hnone : m.collected.getHeader key = none := by
      rw [← Option.not_isSome_iff_eq_none]
      exact fun hsome => hk (h.1 key hsome)
    exact OrderedMap.find?_insertAll_congr _ hnone

/-- The URL ends at its last byte. -/
theorem continues_afterUrl (r : Request) (ms : List MessageMark) :
    continues .url (r.afterUrl ++ ms) = false := by
  simp [Request.afterUrl, Request.headSection, plain, continues]

/-- A message that has read a whole request shows that request. -/
theorem IncomingMessage.absorb_marks {r : Request} (hurl : P.Accepts r.url)
    (hbody : r.body.InOnePiece) {m : IncomingMessage P} (hv : m.wasHeaderValue = true)
    (hclean : m.CleanFor r) :
    ∃ m', m.absorb r.marks = .ok m' ∧ m'.messageComplete = true ∧ m'.wasHeaderValue = true ∧
      m'.view = r.view := by
  obtain ⟨url, m₀, hbuf, hm₀, hstart⟩ :=
    absorb_start hurl m (by simpa using continues_afterUrl r [])
  have hurl₀ : m₀.url.buf = r.url := by rw [hm₀]; exact hbuf
  have hbody₀ : m₀.body = m.body := by rw [hm₀]
  have hv₀ : m₀.wasHeaderValue = true := by rw [hm₀]; exact hv
  have hcollected : m₀.collected = m.collected := by rw [hm₀]; rfl
  have hkeys : (m₀.afterHeaders r).headers.getHeader = r.view.headers := by
    funext key
    rw [afterHeaders_headers, hcollected]
    exact hclean.getHeader key
  rw [Request.marks, hstart, Request.afterUrl, absorb_headSection r hv₀]
  by_cases hnone : r.body = .none
  · refine ⟨{ m₀.afterHeaders r with messageComplete := true }, ?_, rfl,
      afterHeaders_wasHeaderValue m₀ r hv₀, ?_⟩
    · simp [hnone, Body.marks, absorb, pure, Except.pure]
    · rw [view, Request.view, View.mk.injEq]
      refine ⟨by simp [hurl₀], hkeys, ?_, rfl, rfl, rfl⟩
      have hcontent : r.body.content = [] := by rw [hnone, Body.content]
      simp [hbody₀, hclean.2 hcontent, hcontent]
  · obtain ⟨m', habs, hcomplete, hv', hurl', hheaders, hb, -, hmethod, hmajor, hminor⟩ :=
      absorb_body hbody hnone (afterHeaders_wasHeaderValue m₀ r hv₀)
    refine ⟨m', ?_, hcomplete, hv', ?_⟩
    · rw [← habs]
      split
      · exact absurd ‹_› hnone
      · rfl
    · have hkeys' : m'.headers.getHeader = r.view.headers := by
        rcases hheaders with hh | hh
        · rw [hh, hkeys]
        · rw [hh, ← hkeys]
          funext key
          exact getHeader_collected_afterHeaders _ r key
      rw [view, Request.view, View.mk.injEq]
      refine ⟨by simp [hurl', hurl₀], hkeys', ?_, hmethod, hmajor, hminor⟩
      rw [hb]
      split
      · rename_i hc
        simp [hbody₀, hclean.2 hc, hc]
      · rfl

/-! ### A part of a request -/

/-- Bytes whose callbacks neither replace the url nor report the end of the headers or of the
message. -/
def Silent (ms : List MessageMark) : Prop :=
  ∀ m ∈ ms, m.part ≠ some .url ∧
    ∀ c, c ∈ m.before ∨ c ∈ m.after → c = .messageBegin ∨ c = .headerValue []

/-- Silent bytes in a row are silent, -/
theorem Silent.append {a b : List MessageMark} (ha : Silent a) (hb : Silent b) :
    Silent (a ++ b) := by
  intro m hm
  exact (List.mem_append.1 hm).elim (ha m) (hb m)

/-- and so are the first of them. -/
theorem Silent.take {ms : List MessageMark} (h : Silent ms) (n : Nat) : Silent (ms.take n) :=
  fun m hm => h m (List.mem_of_mem_take hm)

/-- Bytes without a callback are silent, -/
theorem silent_plain (bs : Str) : Silent (plain bs) := by
  intro m hm
  obtain ⟨b, -, rfl⟩ := List.mem_map.1 hm
  simp

/-- and so are those of a part that is not the URL, -/
theorem silent_text {p : Part} (hp : p ≠ .url) (bs : Str) : Silent (text p bs) := by
  intro m hm
  obtain ⟨b, -, rfl⟩ := List.mem_map.1 hm
  simp [hp]

/-- silent ones with the begin of the message or an empty value in front, -/
theorem Silent.addBefore {ms : List MessageMark} (h : Silent ms) {ns : List Callback}
    (hns : ∀ c ∈ ns, c = .messageBegin ∨ c = .headerValue []) :
    Silent (Fragments.addBefore ns ms) := by
  intro m hm
  cases ms with
  | nil => cases hm
  | cons m₀ ms =>
    obtain ⟨hpart, hnotes⟩ := h m₀ (.head _)
    rcases List.mem_cons.1 hm with rfl | hm
    · refine ⟨hpart, fun c hc => ?_⟩
      rcases hc with hc | hc
      · rcases List.mem_append.1 hc with hc | hc
        · exact hns c hc
        · exact hnotes c (.inl hc)
      · exact hnotes c (.inr hc)
    · exact h m (.tail _ hm)

/-- the header lines, -/
theorem Silent.headerLines {tail : List MessageMark} (h : Silent tail) (hs : List Header) :
    Silent (headerLines hs tail) := by
  induction hs with
  | nil => exact h
  | cons e hs ih =>
    have hempty : ∀ c ∈ e.emptyValue, c = .messageBegin ∨ c = .headerValue [] := by
      intro c hc
      simp only [Header.emptyValue] at hc
      split at hc
      · exact .inr (by simpa using hc)
      · cases hc
    exact (silent_text (by simp) _).append <| (silent_plain _).append <|
      (silent_text (by simp) _).append <| (silent_plain _).append (ih.addBefore hempty)

/-- The bytes of the line that ends a header section, and its last byte. -/
theorem addAfter_crlf (ns : List Callback) :
    (addAfter ns (plain crlf) : List MessageMark) = plain ['\r'] ++ [⟨[], '\n', none, ns⟩] := by
  simp [plain, crlf, addAfter]

/-- and the start of a request. -/
theorem Request.silent_start (r : Request) : Silent r.start :=
  (silent_plain _).addBefore (by simp)

/-- The header section is silent up to its last byte. -/
theorem Request.headSection_eq (r : Request) :
    ∃ front m, Silent front ∧ r.headSection = front ++ [m] := by
  refine ⟨plain (' ' :: r.version ++ crlf) ++ headerLines r.headers (plain ['\r']),
    ⟨[], '\n', none, r.endOfHeaders⟩, ?_, ?_⟩
  · exact (silent_plain _).append ((silent_plain _).headerLines _)
  · rw [headSection, addAfter_crlf, headerLines_append (by simp [plain]), ← List.append_assoc]

/-- A body is silent up to its last byte. -/
theorem Body.marks_eq {b : Body} (hne : b ≠ .none) :
    ∃ front m, Silent front ∧ b.marks = front ++ [m] := by
  cases b with
  | none => exact absurd rfl hne
  | identity content hc =>
    refine ⟨text .body content.dropLast, ⟨[], content.getLast hc, some .body, [.messageComplete]⟩,
      silent_text (by simp) _, ?_⟩
    have hsplit : (text .body content : List MessageMark) =
        text .body content.dropLast ++ [⟨[], content.getLast hc, some .body, []⟩] := by
      conv => lhs; rw [← List.dropLast_concat_getLast hc]
      simp [text]
    rw [marks, hsplit, addAfter_concat]
    rfl
  | chunked chunks trailers =>
    refine ⟨chunks.flatMap (fun c => plain (chunkSize c.1.length ++ crlf) ++
      (text .body c.1 ++ plain crlf)) ++ plain ('0' :: crlf) ++ headerLines trailers (plain ['\r']),
      ⟨[], '\n', .none, [.messageComplete]⟩, ?_, ?_⟩
    · refine Silent.append (Silent.append ?_ (silent_plain _)) ((silent_plain _).headerLines _)
      intro m hm
      obtain ⟨c, -, hm⟩ := List.mem_flatMap.1 hm
      exact (silent_plain _).append ((silent_text (by simp) _).append (silent_plain _)) m hm
    · rw [marks, addAfter_crlf, headerLines_append (by simp [plain])]
      simp only [List.append_assoc]

/-- The callbacks of silent bytes. -/
theorem IncomingMessage.absorb_silent {ms : List MessageMark} (h : Silent ms)
    (m : IncomingMessage P) :
    ∃ m', m.absorb ms = .ok m' ∧ m'.messageComplete = m.messageComplete ∧
      m'.upgrade = m.upgrade := by
  have hcs : ∀ c ∈ (events ms).map toCallback, (∀ t, c ≠ .url t) ∧ (∀ i, c ≠ .headersComplete i) ∧
      c ≠ .messageComplete := by
    intro c hc
    obtain ⟨e, he, rfl⟩ := List.mem_map.1 hc
    cases e with
    | note n =>
      obtain ⟨mark, hmark, hn⟩ := exists_mark_of_note he
      rcases (h mark hmark).2 n hn with rfl | rfl <;> simp [toCallback]
    | data p d =>
      obtain ⟨mark, hmark, hp⟩ := exists_mark_of_data he
      have hne : p ≠ .url := fun hpu => (h mark hmark).1 (by rw [hp, hpu])
      cases p <;> simp_all [toCallback]
  rw [absorb]
  generalize (events ms).map toCallback = cs at hcs
  induction cs generalizing m with
  | nil => exact ⟨m, rfl, rfl, rfl⟩
  | cons c cs ih =>
    have hstep : ∃ m₁, m.onCallback c = .ok m₁ ∧ m₁.messageComplete = m.messageComplete ∧
        m₁.upgrade = m.upgrade := by
      obtain ⟨h1, h2, h3⟩ := hcs c (.head _)
      cases c with
      | url t => exact absurd rfl (h1 t)
      | headersComplete i => exact absurd rfl (h2 i)
      | messageComplete => exact absurd rfl h3
      | messageBegin => exact ⟨_, rfl, rfl, rfl⟩
      | body t => exact ⟨_, rfl, rfl, rfl⟩
      | headerField t =>
        refine ⟨_, rfl, ?_, ?_⟩ <;>
          (simp only [onHeaderField]; split <;> (try split) <;> rfl)
      | headerValue t =>
        refine ⟨_, rfl, ?_, ?_⟩ <;> (simp only [onHeaderValue]; split <;> rfl)
    obtain ⟨m₁, hm₁, hc₁, hu₁⟩ := hstep
    obtain ⟨m', hm', hc', hu'⟩ := ih m₁ fun c hc => hcs c (.tail _ hc)
    refine ⟨m', ?_, hc'.trans hc₁, hu'.trans hu₁⟩
    rw [List.foldlM_cons, hm₁]
    exact hm'

/-- A cut strictly inside the url is a cut of the url. -/
theorem Request.not_cutOk_url (r : Request) {o : Nat} (h1 : r.start.length < o)
    (h2 : o < r.start.length + r.url.length) : ¬ CutOk (r.marks.take o) (r.marks.drop o) := by
  intro h
  obtain ⟨n, rfl⟩ : ∃ n, o = r.start.length + (n + 1) := ⟨o - r.start.length - 1, by omega⟩
  have hn : n + 1 < r.url.length := by omega
  have htake : r.marks.take (r.start.length + (n + 1)) =
      r.start ++ text .url (r.url.take (n + 1)) := by
    rw [marks, List.take_length_add_append, List.take_append_of_le_length (by simp; omega)]
    simp [text, List.map_take]
  have hdrop : r.marks.drop (r.start.length + (n + 1)) =
      text .url (r.url.drop (n + 1)) ++ r.afterUrl := by
    rw [marks, List.drop_length_add_append, List.drop_append_of_le_length (by simp; omega)]
    simp [text, List.map_drop]
  have hne : r.url.take (n + 1) ≠ [] := by
    have hlen : (r.url.take (n + 1)).length = n + 1 := by rw [List.length_take]; omega
    exact List.ne_nil_of_length_eq_add_one hlen
  have hne' : r.url.drop (n + 1) ≠ [] := by
    have hlen : (r.url.drop (n + 1)).length ≠ 0 := by rw [List.length_drop]; omega
    exact fun h => hlen (by rw [h]; rfl)
  have hopen := openPart_append_text (p := Part.url) hne r.start
  have hcont := continues_text_append (p := Part.url) hne' r.afterUrl
  rw [← htake] at hopen
  rw [← hdrop] at hcont
  exact h .url hopen hcont

/-- A request has the bytes of its head and of its body. -/
theorem Request.size_eq (r : Request) : r.size = r.headSize + r.body.marks.length := by
  simp only [size, headSize, marks, afterUrl, List.length_append, length_text]
  omega

/-- Reading a part of the header section after the url. -/
theorem IncomingMessage.absorb_headSection_take (r : Request) (m : IncomingMessage P) {n : Nat}
    (hn : n < r.headSection.length) :
    ∃ m', m.absorb (r.headSection.take n) = .ok m' ∧ m'.messageComplete = m.messageComplete ∧
      m'.upgrade = m.upgrade := by
  obtain ⟨front, last, hsilent, heq⟩ := r.headSection_eq
  rw [heq, List.length_append, List.length_singleton] at hn
  rw [heq, List.take_append_of_le_length (by omega)]
  exact absorb_silent (hsilent.take n) m

/-- Reading a part of the body. -/
theorem IncomingMessage.absorb_body_take {b : Body} (m : IncomingMessage P) {n : Nat}
    (hn : n < b.marks.length) :
    ∃ m', m.absorb (b.marks.take n) = .ok m' ∧ m'.messageComplete = m.messageComplete ∧
      m'.upgrade = m.upgrade := by
  have hne : b ≠ .none := by
    rintro rfl
    simp [Body.marks] at hn
  obtain ⟨front, last, hsilent, heq⟩ := Body.marks_eq hne
  rw [heq, List.length_append, List.length_singleton] at hn
  rw [heq, List.take_append_of_le_length (by omega)]
  exact absorb_silent (hsilent.take n) m

/-- A message that has read a part of a request is not complete by it, and it holds the request's
`upgrade` once the header section has been read. -/
theorem IncomingMessage.absorb_take {r : Request} (hurl : P.Accepts r.url) {m : IncomingMessage P}
    (hv : m.wasHeaderValue = true) {o : Nat} (ho : o < r.size)
    (hcut : CutOk (r.marks.take o) (r.marks.drop o)) :
    ∃ m', m.absorb (r.marks.take o) = .ok m' ∧ m'.messageComplete = m.messageComplete ∧
      m'.upgrade = if r.headSize ≤ o then r.info.upgrade else m.upgrade := by
  by_cases h1 : o ≤ r.start.length
  · -- nothing of the url yet
    have hurlpos : 0 < r.url.length := List.length_pos_of_ne_nil r.url_ne
    have hhead : ¬ r.headSize ≤ o := by
      simp only [Request.headSize]
      omega
    rw [Request.marks, List.take_append_of_le_length h1, if_neg hhead]
    exact absorb_silent (r.silent_start.take o) m
  · have h2 : r.start.length + r.url.length ≤ o := by
      by_contra hlt
      exact r.not_cutOk_url (by omega) (by omega) hcut
    obtain ⟨n, rfl⟩ := Nat.exists_eq_add_of_le h2
    have htake : r.marks.take (r.start.length + r.url.length + n) =
        r.start ++ (text .url r.url ++ r.afterUrl.take n) := by
      have hlen : (text .url r.url : List MessageMark).length = r.url.length := length_text _ _
      rw [Request.marks, Nat.add_assoc, List.take_length_add_append, ← hlen,
        List.take_length_add_append]
    have hcont : continues .url (r.afterUrl.take n) = false := by
      cases n with
      | zero => rfl
      | succ n => simp [Request.afterUrl, Request.headSection, plain, continues]
    obtain ⟨url, m₀, -, hm₀, hstart⟩ := absorb_start hurl m hcont
    have hc₀ : m₀.messageComplete = m.messageComplete := by rw [hm₀]
    have hu₀ : m₀.upgrade = m.upgrade := by rw [hm₀]
    have hv₀ : m₀.wasHeaderValue = true := by rw [hm₀]; exact hv
    rw [htake, hstart, Request.afterUrl]
    by_cases h3 : n < r.headSection.length
    · -- the header section is not complete
      obtain ⟨m', habs, hc, hu⟩ := absorb_headSection_take r m₀ h3
      have hhead : ¬ r.headSize ≤ r.start.length + r.url.length + n := by
        simp only [Request.headSize]
        omega
      refine ⟨m', ?_, hc.trans hc₀, ?_⟩
      · rw [List.take_append_of_le_length (by omega), habs]
      · rw [if_neg hhead, hu, hu₀]
    · -- the header section has been read, and a part of the body
      obtain ⟨k, rfl⟩ := Nat.exists_eq_add_of_le (Nat.le_of_not_lt h3)
      have hk : k < r.body.marks.length := by
        have := r.size_eq
        simp only [Request.headSize] at this
        omega
      have hne : r.body ≠ .none := by
        intro hnone
        simp [hnone, Body.marks] at hk
      have hhead : r.headSize ≤ r.start.length + r.url.length + (r.headSection.length + k) := by
        simp only [Request.headSize]
        omega
      obtain ⟨m', habs, hc, hu⟩ := absorb_body_take (m₀.afterHeaders r) hk
      refine ⟨m', ?_, ?_, ?_⟩
      · rw [List.take_length_add_append, absorb_headSection r hv₀, ← habs]
        split
        · exact absurd ‹_› hne
        · rfl
      · rw [hc, afterHeaders_messageComplete, hc₀]
      · rw [if_pos hhead, hu, afterHeaders_upgrade]

end

end NodeNative.Http
