import NodeNative.Http.Answers
import NodeNative.Http.ClientSuccess
import NodeNative.Http.SentRequest

/-!
# A response on its way to the client

What a server sends with `end` is a status line, the headers and the data, which are the bytes of a
`Response`. A client that gets them in any number of pieces, none of which ends inside the status text
or the data, resolves the future of its request with a message that has the status, the headers and the
data of the server (`response_arrives`). With the way of the request this makes one exchange
(`exchange_completes`).
-/

namespace NodeNative.Http

open Fragments Transition

/-! ### Responses on the wire -/

/-- A byte of a response. The text of the status is one more part. -/
abbrev ResponseMark := Mark Char (Option Part) Callback

/-- The callback of an event, with the member `status_code` of the parser. -/
def toMessageCallback (statusCode : Nat) : Event Char (Option Part) Callback → MessageCallback
  | .data none text => .status text
  | .data (some p) text => .shared (toCallback (.data p text)) statusCode
  | .note c => .shared c statusCode

/-- The parts whose fragments are appended. -/
def StatusOrPart.appended : Option Part → Prop
  | none => False
  | some p => p.appended

/-- The callback `on_headers_complete` tells the parser that no body follows. -/
def SkipsBody (statusCode : Nat) : Prop :=
  statusCode / 100 = 1 ∨ statusCode = 204 ∨ statusCode = 304

/-- An HTTP response: the words of its status line, its headers and its body, with what the parser makes
of the headers (`info`). -/
structure Response where
  version : Str
  statusCode : Nat
  reason : Str
  info : ParserInfo
  headers : List Header
  body : Body
  reason_ne : reason ≠ []
  body_none : SkipsBody statusCode → body = .none

namespace Response

/-- The callbacks at the end of the header section. -/
def endOfHeaders (r : Response) : List Callback :=
  match r.body with
  | .none => [.headersComplete r.info, .messageComplete]
  | _ => [.headersComplete r.info]

def start (r : Response) : List ResponseMark :=
  addBefore [.messageBegin] (plain (r.version ++ [' '] ++ (toString r.statusCode).toList ++ [' ']))

/-- What follows the text of the status. -/
def afterStatus (r : Response) : List MessageMark :=
  plain crlf ++ (headerLines r.headers (addAfter r.endOfHeaders (plain crlf)) ++ r.body.marks)

/-- The bytes of a response. -/
def marks (r : Response) : List ResponseMark :=
  r.start ++ (text none r.reason ++ r.afterStatus.map (Mark.mapPart some))

end Response

section
variable {P : HttpParser}

/-- The state of a parser that was given these buffers. -/
def ResponseParser.feed (R : ResponseParser P) (bufs : List Str) : P.State :=
  bufs.foldl (fun σ buf => (R.execute σ buf).1) R.init

/-- The parser reads the response as it documents: however the bytes are cut into buffers, it consumes
each buffer and makes the callbacks of its bytes in order. -/
def ResponseParser.ConformsOn (R : ResponseParser P) (r : Response) : Prop :=
  ∀ (bufs : List Str) (buf : Str), (∀ b ∈ bufs, b ≠ []) → buf ≠ [] →
    bufs.flatten ++ buf <+: bytes r.marks →
    (R.execute (R.feed bufs) buf).2 =
      ((events ((r.marks.drop bufs.flatten.length).take buf.length)).map
        (toMessageCallback r.statusCode), buf.length)

/-! ### The callbacks of a response -/

/-- What a message makes of one event. -/
def Message.onEvent (statusCode : Nat) (m : Message P) (e : Event Char (Option Part) Callback) :
    Except (Exn × Message P) (Message P) :=
  Prod.snd <$> m.onCallback (toMessageCallback statusCode e)

/-- The callbacks of a response one after the other. -/
theorem Message.deliver_events (m : Message P) (statusCode : Nat) (ms : List ResponseMark) :
    m.deliver ((events ms).map (toMessageCallback statusCode)) =
      (events ms).foldlM (onEvent statusCode) m := by
  rw [deliver, List.foldlM_map]
  rfl

/-- Header names and values are appended. -/
theorem Message.onEvent_append (statusCode : Nat) {p : Option Part} (hp : StatusOrPart.appended p)
    (m : Message P) (d₁ d₂ : Str) : m.onEvent statusCode (.data p (d₁ ++ d₂)) =
      m.onEvent statusCode (.data p d₁) >>= (·.onEvent statusCode (.data p d₂)) := by
  cases p with
  | none => exact hp.elim
  | some p =>
    cases p with
    | url => exact hp.elim
    | body => exact hp.elim
    | headerField =>
      simp [onEvent, toMessageCallback, toCallback, onCallback, IncomingMessage.onCallback,
        IncomingMessage.onHeaderField_append, bind, Except.bind, Functor.map, Except.map]
    | headerValue =>
      simp [onEvent, toMessageCallback, toCallback, onCallback, IncomingMessage.onCallback,
        IncomingMessage.onHeaderValue_append, bind, Except.bind, Functor.map, Except.map]

/-- The member that holds the parser. -/
def Message.setParser (m : Message P) (σ : Option P.State) : Message P :=
  { m with incoming := { m.incoming with parser := σ } }

/-- Both kinds of messages make the same of a callback other than the end of the headers. -/
theorem Message.onCallback_shared (m : Message P) {c : Callback} (hc : ∀ info, c ≠ .headersComplete info)
    {incoming : IncomingMessage P} (h : m.incoming.onCallback c = .ok incoming) (code : Nat) :
    m.onCallback (.shared c code) = .ok (0, { m with incoming }) := by
  cases c with
  | headersComplete info => exact absurd rfl (hc info)
  | _ => simp [onCallback, h]

/-- The callbacks do not look at the state of the parser. -/
theorem Message.onCallback_setParser {m m' : Message P} {c : MessageCallback} {result : Int}
    (h : m.onCallback c = .ok (result, m')) (σ : Option P.State) :
    (m.setParser σ).onCallback c = .ok (result, m'.setParser σ) := by
  cases c with
  | status text =>
    cases h
    obtain ⟨isRequest, incoming, statusCode, responseStatusString⟩ := m
    cases isRequest <;> rfl
  | shared c code =>
    cases hm : m.incoming.onCallback c with
    | error e =>
      have hne : ∀ info, c ≠ .headersComplete info := fun info heq => by
        subst heq
        cases hm
      have hmatch : m.onCallback (.shared c code) = .error (e.1, { m with incoming := e.2 }) := by
        cases c with
        | headersComplete info => exact absurd rfl (hne info)
        | _ => simp [onCallback, hm]
      rw [hmatch] at h
      cases h
    | ok incoming =>
      have hσ := IncomingMessage.onCallback_setParser hm σ
      by_cases hheaders : ∃ info, c = .headersComplete info
      · obtain ⟨info, rfl⟩ := hheaders
        obtain rfl : m.incoming.onHeadersComplete info = incoming := Except.ok.inj hm
        have hm' : m.onHeadersComplete info code = (result, m') := Except.ok.inj h
        have hcomplete : (m.setParser σ).incoming.onHeadersComplete info = _ := Except.ok.inj hσ
        show Except.ok ((m.setParser σ).onHeadersComplete info code) = _
        unfold onHeadersComplete at hm' ⊢
        rw [hcomplete]
        obtain ⟨isRequest, incoming, statusCode, responseStatusString⟩ := m
        cases isRequest <;> cases hm' <;> rfl
      · have hne : ∀ info, c ≠ .headersComplete info := fun info heq => hheaders ⟨info, heq⟩
        rw [m.onCallback_shared hne hm] at h
        cases h
        exact (m.setParser σ).onCallback_shared hne hσ code

/-- The state of the parser has no part in what the callbacks do. -/
theorem Message.deliver_setParser {m m' : Message P} {cs : List MessageCallback}
    (h : m.deliver cs = .ok m') (σ : Option P.State) :
    (m.setParser σ).deliver cs = .ok (m'.setParser σ) := by
  induction cs generalizing m with
  | nil =>
    cases h
    rfl
  | cons c cs ih =>
    unfold deliver at h ⊢
    rw [List.foldlM_cons] at h ⊢
    cases hc : m.onCallback c with
    | error e =>
      rw [hc] at h
      cases h
    | ok result =>
      rw [hc] at h
      rw [onCallback_setParser hc σ]
      exact ih h

/-! ### The message of a response -/

/-- The callbacks look at the method of a message only to write it. -/
theorem IncomingMessage.onCallback_setMethod {m m' : IncomingMessage P} {c : Callback}
    (h : m.onCallback c = .ok m') (method : Nat) :
    ∃ method', { m with method }.onCallback c = .ok { m' with method := method' } := by
  cases c with
  | url text =>
    simp only [onCallback] at h ⊢
    split at h
    · cases h
    · cases h
      exact ⟨method, rfl⟩
  | headerField text =>
    cases h
    refine ⟨method, ?_⟩
    simp only [onCallback, onHeaderField]
    split
    · split <;> rfl
    · rfl
  | headerValue text =>
    cases h
    refine ⟨method, ?_⟩
    simp only [onCallback, onHeaderValue]
    split <;> rfl
  | headersComplete info =>
    cases h
    refine ⟨info.method, ?_⟩
    simp only [onCallback, onHeadersComplete]
    split <;> rfl
  | messageBegin => cases h; exact ⟨method, rfl⟩
  | body text => cases h; exact ⟨method, rfl⟩
  | messageComplete => cases h; exact ⟨method, rfl⟩

/-- A response holds what a message without a status line does; only its method is its own. -/
structure Message.Holds (m : Message P) (incoming : IncomingMessage P) : Prop where
  isRequest : m.isRequest = false
  incoming : ∃ method, m.incoming = { incoming with method }

/-- The end of the headers is among the events. -/
def EndsHeaders (es : List (Event Char Part Callback)) : Prop :=
  ∃ info, .note (.headersComplete info) ∈ es

/-- A callback that is not that of the status. The end of the headers hands over the status code. -/
theorem Message.Holds.onEvent {m : Message P} {incoming incoming' : IncomingMessage P}
    (hm : m.Holds incoming) {e : Event Char Part Callback}
    (h : incoming.onCallback (toCallback e) = .ok incoming') (statusCode : Nat) :
    ∃ m', m.onEvent statusCode (e.mapPart some) = .ok m' ∧ m'.Holds incoming' ∧
      m'.responseStatusString = m.responseStatusString ∧
      (m.statusCode = statusCode ∨ EndsHeaders [e] → m'.statusCode = statusCode) := by
  obtain ⟨hkind, method, hincoming⟩ := hm
  obtain ⟨method', hset⟩ := IncomingMessage.onCallback_setMethod h method
  rw [← hincoming] at hset
  have hevent : toMessageCallback statusCode (e.mapPart some) = .shared (toCallback e) statusCode := by
    cases e with
    | data p text => rfl
    | note c => rfl
  unfold Message.onEvent
  rw [hevent]
  by_cases hheaders : ∃ info, toCallback e = .headersComplete info
  · obtain ⟨info, hc⟩ := hheaders
    rw [hc] at hset ⊢
    have hcomplete : m.incoming.onHeadersComplete info = _ := Except.ok.inj hset
    refine ⟨(m.onHeadersComplete info statusCode).2, rfl, ⟨?_, ?_⟩, ?_, ?_⟩ <;>
      simp only [onHeadersComplete, hkind, Bool.false_eq_true, if_false]
    · exact ⟨_, by rw [hcomplete]⟩
    · exact fun _ => trivial
  · have hne : ∀ info, toCallback e ≠ .headersComplete info := fun info heq => hheaders ⟨info, heq⟩
    rw [m.onCallback_shared hne hset]
    refine ⟨_, rfl, ⟨hkind, method', rfl⟩, rfl, ?_⟩
    rintro (hcode | ⟨info, hmem⟩)
    · exact hcode
    · rw [List.mem_singleton] at hmem
      exact absurd (hmem ▸ rfl) (hne info)

/-- The callbacks that both kinds of message have do the same to a response. -/
theorem Message.Holds.foldlM {es : List (Event Char Part Callback)} {m : Message P}
    {incoming incoming' : IncomingMessage P} (hm : m.Holds incoming)
    (h : es.foldlM (fun i e => i.onCallback (toCallback e)) incoming = .ok incoming')
    (statusCode : Nat) :
    ∃ m', (es.map (Event.mapPart some)).foldlM (Message.onEvent statusCode) m = .ok m' ∧
      m'.Holds incoming' ∧ m'.responseStatusString = m.responseStatusString ∧
      (m.statusCode = statusCode ∨ EndsHeaders es → m'.statusCode = statusCode) := by
  induction es generalizing m incoming with
  | nil =>
    cases h
    refine ⟨m, rfl, hm, rfl, ?_⟩
    rintro (hcode | ⟨info, hmem⟩)
    · exact hcode
    · cases hmem
  | cons e es ih =>
    rw [List.foldlM_cons] at h
    cases he : incoming.onCallback (toCallback e) with
    | error err =>
      rw [he] at h
      cases h
    | ok incoming₁ =>
      rw [he] at h
      obtain ⟨m₁, hm₁, hholds₁, hreason₁, hcode₁⟩ := hm.onEvent he statusCode
      obtain ⟨m', hm', hholds, hreason, hcode⟩ := ih hholds₁ h
      refine ⟨m', ?_, hholds, hreason.trans hreason₁, ?_⟩
      · rw [List.map_cons, List.foldlM_cons, hm₁]
        exact hm'
      · rintro (heq | ⟨info, hmem⟩)
        · exact hcode (.inl (hcode₁ (.inl heq)))
        · rcases List.mem_cons.1 hmem with rfl | hmem
          · exact hcode (.inl (hcode₁ (.inr ⟨info, List.mem_singleton_self _⟩)))
          · exact hcode (.inr ⟨info, hmem⟩)

/-- What follows the text of the status is what follows the url of a request. -/
def Response.asRequest (r : Response) : Request where
  method := []
  url := r.reason
  version := r.version
  info := r.info
  headers := r.headers
  body := r.body
  url_ne := r.reason_ne

/-- Behind the status line a response has the callbacks of a request. -/
theorem Response.events_afterStatus (r : Response) :
    events r.afterStatus = events r.asRequest.afterUrl := by
  rw [afterStatus, events_plain_append, Request.afterUrl, Request.headSection, List.append_assoc,
    events_plain_append]
  rfl

/-- They leave its headers and its body. -/
theorem Response.absorb_afterStatus {r : Response} (hbody : r.body.InOnePiece) :
    ∃ incoming : IncomingMessage P, (IncomingMessage.new false).absorb r.afterStatus = .ok incoming ∧
      incoming.messageComplete = true ∧
      incoming.headers.getHeader =
        Headers.getHeader (OrderedMap.insertAll ciLess [] (r.headers.map Header.entry)) ∧
      incoming.body = r.body.content := by
  have hv : (IncomingMessage.new false : IncomingMessage P).wasHeaderValue = true := rfl
  have hheaders := IncomingMessage.afterHeaders_headers (IncomingMessage.new false : IncomingMessage P)
    r.asRequest
  rw [IncomingMessage.absorb, r.events_afterStatus, ← IncomingMessage.absorb, Request.afterUrl,
    IncomingMessage.absorb_headSection r.asRequest hv]
  by_cases hnone : r.body = .none
  · refine ⟨{ (IncomingMessage.new false).afterHeaders r.asRequest with messageComplete := true }, ?_, rfl,
      congrArg Headers.getHeader hheaders, ?_⟩
    · rw [show r.asRequest.body = .none from hnone]
      rfl
    · rw [hnone]
      exact IncomingMessage.afterHeaders_body _ _
  · obtain ⟨incoming, habsorb, hcomplete, -, -, hkeys, hb, -⟩ := IncomingMessage.absorb_body hbody hnone
      (IncomingMessage.afterHeaders_wasHeaderValue _ r.asRequest hv)
    refine ⟨incoming, ?_, hcomplete, ?_, ?_⟩
    · rw [← habsorb]
      split
      · exact absurd ‹_› hnone
      · rfl
    · rcases hkeys with hkeys | hkeys
      · rw [hkeys, hheaders]
        rfl
      · funext key
        rw [hkeys, IncomingMessage.getHeader_collected_afterHeaders, hheaders]
        rfl
    · rw [hb, IncomingMessage.afterHeaders_body]
      split
      · rename_i hcontent
        exact hcontent.symm
      · rfl

/-- The last byte of the header section, and what is in front of it. -/
theorem Response.afterStatus_eq (r : Response) : ∃ front, Silent front ∧
    r.afterStatus = front ++ ⟨[], '\n', none, r.endOfHeaders⟩ :: r.body.marks := by
  refine ⟨plain crlf ++ headerLines r.headers (plain ['\r']),
    (silent_plain _).append ((silent_plain _).headerLines _), ?_⟩
  rw [afterStatus, addAfter_crlf, headerLines_append (by simp [plain])]
  simp only [List.append_assoc, List.singleton_append]

/-- Its headers come to their end. -/
theorem Response.endsHeaders_afterStatus (r : Response) : EndsHeaders (events r.afterStatus) := by
  obtain ⟨front, -, heq⟩ := r.afterStatus_eq
  refine ⟨r.info, ?_⟩
  rw [heq]
  refine note_mem_events (List.mem_append_right _ (.head _)) (.inr ?_)
  unfold endOfHeaders
  split
  · exact .head _
  · exact .head _

/-- The callbacks of a response: its begin, its reason, and those behind the status line. -/
theorem Response.events_marks (r : Response) : events r.marks =
    .note .messageBegin :: .data none r.reason :: (events r.afterStatus).map (Event.mapPart some) := by
  have hne : (plain (r.version ++ [' '] ++ (toString r.statusCode).toList ++ [' ']) :
      List ResponseMark) ≠ [] := by simp [plain]
  have hclosed : continues none (r.afterStatus.map (Mark.mapPart some)) = false := rfl
  rw [marks, start, ← addBefore_append _ hne, events_addBefore _ (by simp [plain]), events_plain_append,
    events_text_append r.reason_ne hclosed, events_mapPart (Option.some_injective _)]
  rfl

/-- A message that has read a whole response shows it. -/
theorem Response.foldlM_marks {r : Response} (hbody : r.body.InOnePiece) :
    ∃ m : Message P, (events r.marks).foldlM (Message.onEvent r.statusCode) (.new false false) = .ok m ∧
      m.incoming.messageComplete = true ∧ m.statusCode = r.statusCode ∧
      m.responseStatusString = r.reason ∧
      m.incoming.headers.getHeader =
        Headers.getHeader (OrderedMap.insertAll ciLess [] (r.headers.map Header.entry)) ∧
      m.getBody = r.body.content := by
  obtain ⟨incoming, habsorb, hcomplete, hheaders, hcontent⟩ := absorb_afterStatus (P := P) hbody
  rw [IncomingMessage.absorb_eq] at habsorb
  have hstatus : ({ Message.new false false with responseStatusString := r.reason } : Message P).Holds
      (.new false) := ⟨rfl, 0, rfl⟩
  obtain ⟨m, hm, ⟨-, method, hincoming⟩, hreason, hcode⟩ := hstatus.foldlM habsorb r.statusCode
  refine ⟨m, ?_, ?_, hcode (.inr r.endsHeaders_afterStatus), hreason, ?_, ?_⟩
  · rw [r.events_marks, List.foldlM_cons, ← hm]
    rfl
  · rw [hincoming]
    exact hcomplete
  · rw [hincoming]
    exact hheaders
  · rw [Message.getBody, hincoming]
    exact hcontent

/-! ### A part of a response -/

/-- Bytes of a response in front of its last one. -/
def Response.Unfinished (r : Response) (ms : List ResponseMark) : Prop :=
  ∀ m ∈ ms, ∀ c, c ∈ m.before ∨ c ∈ m.after →
    c = .messageBegin ∨ c = .headerValue [] ∨ c = .headersComplete r.info

/-- Bytes in a row that end neither the headers nor the message do not end them, -/
theorem Response.Unfinished.append {r : Response} {a b : List ResponseMark} (ha : r.Unfinished a)
    (hb : r.Unfinished b) : r.Unfinished (a ++ b) := by
  intro m hm
  exact (List.mem_append.1 hm).elim (ha m) (hb m)

/-- silent bytes do not, -/
theorem Silent.unfinished {ms : List MessageMark} (h : Silent ms) (r : Response) :
    r.Unfinished (ms.map (Mark.mapPart some)) := by
  intro m hm c hc
  obtain ⟨m', hm', rfl⟩ := List.mem_map.1 hm
  exact ((h m' hm').2 c hc).imp_right .inl

/-- and neither does the status line. -/
theorem Response.unfinished_start (r : Response) : r.Unfinished (r.start ++ text none r.reason) := by
  refine Unfinished.append ?_ fun m hm c hc => ?_
  · obtain ⟨b, bs, heq⟩ := List.exists_cons_of_ne_nil
      (show r.version ++ [' '] ++ (toString r.statusCode).toList ++ [' '] ≠ [] by simp)
    intro m hm c hc
    rw [start, heq] at hm
    rcases List.mem_cons.1 hm with rfl | hm
    · exact .inl (by simpa using hc)
    · obtain ⟨b, -, rfl⟩ := List.mem_map.1 hm
      simp at hc
  · obtain ⟨b, -, rfl⟩ := List.mem_map.1 hm
    simp at hc

/-- The end of a response comes with its last byte. -/
theorem Response.marks_eq (r : Response) :
    ∃ front last, r.marks = front ++ [last] ∧ r.Unfinished front := by
  obtain ⟨front, hsilent, heq⟩ := r.afterStatus_eq
  have hfront := r.unfinished_start.append (hsilent.unfinished r)
  by_cases hnone : r.body = .none
  · refine ⟨_, ⟨[], '\n', none, r.endOfHeaders⟩, ?_, hfront⟩
    rw [marks, heq, hnone]
    simp [Body.marks, Mark.mapPart]
  · obtain ⟨front', last, hsilent', heq'⟩ := Body.marks_eq hnone
    have hend : r.Unfinished [⟨[], '\n', none, r.endOfHeaders⟩] := by
      intro m hm c hc
      cases List.mem_singleton.1 hm
      rw [endOfHeaders] at hc
      split at hc
      · exact absurd ‹_› hnone
      · exact .inr (.inr (by simpa using hc))
    refine ⟨_, last.mapPart some, ?_, (hfront.append hend).append (hsilent'.unfinished r)⟩
    rw [marks, heq, heq']
    simp [Mark.mapPart]

/-- Headers without an upgrade set no flag. -/
theorem upgradeAfter_eq_false {cs : List Callback}
    (h : ∀ info, .headersComplete info ∈ cs → info.upgrade = false) :
    upgradeAfter false cs = false := by
  induction cs with
  | nil => rfl
  | cons c cs ih =>
    have hrest := ih fun info hinfo => h info (.tail _ hinfo)
    cases c with
    | headersComplete info =>
      have hinfo := h info (.head _)
      show upgradeAfter info.upgrade cs = false
      rw [hinfo, hrest]
    | _ => exact hrest

/-- Before its last byte a response is neither complete nor an upgrade. -/
theorem Response.foldlM_take {r : Response} (hupgrade : r.info.upgrade = false) {n : Nat}
    (hn : n < r.marks.length) {m : Message P}
    (h : (events (r.marks.take n)).foldlM (Message.onEvent r.statusCode) (.new false false) = .ok m) :
    m.incoming.upgrade = false ∧ m.incoming.messageComplete = false := by
  obtain ⟨front, last, heq, hfront⟩ := r.marks_eq
  have htake : ∀ m ∈ r.marks.take n, m ∈ front := by
    intro m hm
    rw [heq, List.length_append, List.length_singleton] at hn
    rw [heq, List.take_append_of_le_length (by omega)] at hm
    exact List.mem_of_mem_take hm
  rw [← Message.deliver_events] at h
  obtain ⟨hup, hcomplete⟩ := Message.deliver_flags h
  have hnote : ∀ c ∈ ((events (r.marks.take n)).map (toMessageCallback r.statusCode)).filterMap
      MessageCallback.callback?, c ≠ .messageComplete ∧
        ∀ info, c = .headersComplete info → info.upgrade = false := by
    intro c hc
    obtain ⟨c', hc', hcallback⟩ := List.mem_filterMap.1 hc
    obtain ⟨e, he, rfl⟩ := List.mem_map.1 hc'
    match e with
    | .note c' =>
      cases hcallback
      obtain ⟨mark, hmark, hdue⟩ := exists_mark_of_note he
      rcases hfront mark (htake mark hmark) c hdue with rfl | rfl | rfl
      · exact ⟨by simp, by simp⟩
      · exact ⟨by simp, by simp⟩
      · refine ⟨by simp, ?_⟩
        rintro info ⟨⟩
        exact hupgrade
    | .data none text => cases hcallback
    | .data (some p) text =>
      cases hcallback
      cases p <;> simp [toCallback]
  constructor
  · rw [hup]
    exact upgradeAfter_eq_false fun info hinfo => (hnote _ hinfo).2 info rfl
  · rw [hcomplete, completeAfter]
    refine Bool.or_eq_false_iff.2 ⟨rfl, ?_⟩
    rw [← Bool.not_eq_true, List.contains_iff_mem]
    exact fun hmem => (hnote _ hmem).1 rfl

/-! ### Reading it -/

variable {R : ResponseParser P} {r : Response} {bufs pre post : List Str} {buf : Str} {m : Message P}

/-- The message of a client request that has got these pieces of the response. -/
structure Message.Partial (R : ResponseParser P) (r : Response) (pre : List Str) (m : Message P) : Prop where
  parser : m.incoming.parser.getD R.init = R.feed pre
  told : ∃ m₀, (events (r.marks.take pre.flatten.length)).foldlM (onEvent r.statusCode)
    (.new false false) = .ok m₀ ∧ m = m₀.setParser m.incoming.parser

/-- A new message has read nothing of a response. -/
theorem Message.partial_new : (Message.new false false : Message P).Partial R r [] where
  parser := rfl
  told := ⟨.new false false, rfl, rfl⟩

/-- The next piece. -/
theorem Message.Partial.parse (hR : R.ConformsOn r) (hbody : r.body.InOnePiece)
    (hpieces : Pieces StatusOrPart.appended r.marks (pre ++ buf :: post)) (h : m.Partial R r pre) :
    ∃ m', m.parse R buf = .ok (buf.length, m') ∧ m'.Partial R r (pre ++ [buf]) := by
  obtain ⟨m₀, hm₀, hm⟩ := h.told
  have happend : ∀ p, StatusOrPart.appended p → ∀ (m : Message P) (d₁ d₂ : Str),
      m.onEvent r.statusCode (.data p (d₁ ++ d₂)) =
        m.onEvent r.statusCode (.data p d₁) >>= (·.onEvent r.statusCode (.data p d₂)) :=
    fun p hp => Message.onEvent_append r.statusCode hp
  have hsplit : Pieces StatusOrPart.appended r.marks ((pre ++ [buf]) ++ post) := by simpa using hpieces
  have hlength : (pre ++ [buf]).flatten.length = pre.flatten.length + buf.length := by simp
  -- the whole response is read without an exception, and so is this part of it
  obtain ⟨mw, hwhole, -⟩ := Response.foldlM_marks (P := P) hbody
  rw [hsplit.foldlM_take_drop happend, hlength, hpieces.foldlM_events happend, hm₀] at hwhole
  cases hnext : (events ((r.marks.drop pre.flatten.length).take buf.length)).foldlM
      (onEvent r.statusCode) m₀ with
  | error e =>
    rw [show ((Except.ok m₀ : Except _ _) >>= (events ((r.marks.drop pre.flatten.length).take
      buf.length)).foldlM (onEvent r.statusCode)) = _ from hnext] at hwhole
    cases hwhole
  | ok m₁ =>
    have hexec := hR pre buf (fun b hb => hpieces.ne_nil b (by simp [hb]))
      (hpieces.ne_nil buf (by simp)) hpieces.delivered
    have hdeliver := hnext
    rw [← deliver_events] at hdeliver
    have hσ := deliver_setParser hdeliver m.incoming.parser
    rw [← hm] at hσ
    refine ⟨m₁.setParser (some (R.execute (R.feed pre) buf).1), ?_, ?_, m₁, ?_, rfl⟩
    · unfold Message.parse
      rw [h.parser]
      generalize hresult : R.execute (R.feed pre) buf = result at hexec ⊢
      obtain ⟨σ, callbacks, parsed⟩ := result
      cases hexec
      dsimp only
      rw [hσ]
      rfl
    · show (R.execute (R.feed pre) buf).1 = R.feed (pre ++ [buf])
      rw [ResponseParser.feed, ResponseParser.feed, List.foldl_append]
      rfl
    · rw [hlength, hpieces.foldlM_events happend, hm₀]
      exact hnext

/-- A client request that waits for the rest of its response. -/
def ClientRequest.receiving (m : Message P) : ClientRequest P :=
  { (ClientRequest.start false : ClientRequest P) with reading := true, response := some m }

/-- What a read does that the message takes without an error. -/
theorem clientStep_receiving {m' : Message P} (hparse : m.parse R buf = .ok (buf.length, m')) :
    clientStep R (.receiving m) (.read buf) =
      some (if m'.incoming.upgrade || m'.incoming.messageComplete then
        { (ClientRequest.receiving m').finish (.ok m') with response := none }
      else .receiving m') := by
  show some ((ClientRequest.receiving m).whenKept ((ClientRequest.receiving m).onRead R buf)) = _
  rw [ClientRequest.whenKept_eq rfl]
  simp only [ClientRequest.onRead, ClientRequest.receiving, hparse, bne_self_eq_false, Bool.and_false,
    Bool.false_eq_true, if_false]

/-- Pieces of a response in front of its last one leave the request waiting. -/
theorem receives_partial (hR : R.ConformsOn r) (hbody : r.body.InOnePiece)
    (hupgrade : r.info.upgrade = false)
    (hpieces : Pieces StatusOrPart.appended r.marks (pre ++ buf :: post)) :
    ∃ m, m.Partial R r pre ∧ run (clientStep R) (.start false) (.sent :: pre.map .read) =
      some (.receiving m) := by
  induction pre using List.reverseRecOn generalizing buf post with
  | nil => exact ⟨.new false false, Message.partial_new, rfl⟩
  | append_singleton pre b ih =>
    rw [List.append_assoc, List.singleton_append] at hpieces
    obtain ⟨m, hm, hrun⟩ := ih hpieces
    obtain ⟨m', hparse, hnext⟩ := hm.parse hR hbody hpieces
    have hlt : (pre ++ [b]).flatten.length < r.marks.length := by
      have hle := hpieces.length_le
      have hne := mt hpieces.length_eq_iff.mp (List.cons_ne_nil _ _)
      simp only [List.flatten_append, List.flatten_singleton, List.length_append]
      omega
    obtain ⟨m₀, hm₀, heq⟩ := hnext.told
    obtain ⟨hup, hcomplete⟩ := Response.foldlM_take hupgrade hlt hm₀
    have hflags : (m'.incoming.upgrade || m'.incoming.messageComplete) = false := by
      rw [heq]
      exact Bool.or_eq_false_iff.2 ⟨hup, hcomplete⟩
    refine ⟨m', hnext, ?_⟩
    rw [List.map_append, ← List.cons_append, run_append, hrun, Option.bind_some, List.map_singleton,
      run_cons, clientStep_receiving hparse, hflags]
    rfl

/-- A client request that gets its response in pieces, none of which ends inside the text of the status
or the body, resolves its future with the response and closes the connection. -/
theorem receives_response (hR : R.ConformsOn r) (hbody : r.body.InOnePiece)
    (hupgrade : r.info.upgrade = false) (hpieces : Pieces StatusOrPart.appended r.marks bufs) :
    ∃ m : Message P, run (clientStep R) (.start false) (.sent :: bufs.map .read) =
        some { (ClientRequest.receiving m).finish (.ok m) with response := none } ∧
      m.statusCode = r.statusCode ∧ m.responseStatusString = r.reason ∧
      m.incoming.headers.getHeader =
        Headers.getHeader (OrderedMap.insertAll ciLess [] (r.headers.map Header.entry)) ∧
      m.getBody = r.body.content := by
  have hne : bufs ≠ [] := by
    rintro rfl
    obtain ⟨front, last, heq, -⟩ := r.marks_eq
    have hlength := congrArg List.length hpieces.flatten
    rw [heq] at hlength
    simp at hlength
  obtain ⟨pre, buf, rfl⟩ : ∃ pre buf, bufs = pre ++ [buf] :=
    ⟨bufs.dropLast, bufs.getLast hne, (List.dropLast_append_getLast hne).symm⟩
  obtain ⟨m, hm, hrun⟩ := receives_partial hR hbody hupgrade hpieces
  obtain ⟨m', hparse, hnext⟩ := hm.parse hR hbody hpieces
  obtain ⟨m₀, hm₀, heq⟩ := hnext.told
  have hall : r.marks.take (pre ++ [buf]).flatten.length = r.marks := by
    rw [hpieces.flatten, length_bytes, List.take_length]
  obtain ⟨mw, hwhole, hcomplete, hcode, hreason, hheaders, hcontent⟩ :=
    Response.foldlM_marks (P := P) hbody
  rw [hall, hwhole] at hm₀
  obtain rfl : mw = m₀ := Except.ok.inj hm₀
  have hflags : (m'.incoming.upgrade || m'.incoming.messageComplete) = true := by
    rw [heq]
    exact Bool.or_eq_true_iff.2 (.inr hcomplete)
  refine ⟨m', ?_, ?_⟩
  · rw [List.map_append, ← List.cons_append, run_append, hrun, Option.bind_some, List.map_singleton,
      run_cons, clientStep_receiving hparse, hflags]
    rfl
  · rw [heq]
    exact ⟨hcode, hreason, hheaders, hcontent⟩

/-! ### The server's response -/

/-- Every status has a text. -/
theorem getStatusText_ne_nil (status : Int) : getStatusText status ≠ [] := by
  have htable : ∀ entry ∈ statusCodes, entry.2.toList ≠ [] := by decide +kernel
  unfold getStatusText
  cases hlookup : statusCodes.lookup status with
  | none => decide
  | some text =>
    obtain ⟨l, r, heq, -⟩ := List.lookup_eq_some_iff.1 hlookup
    exact htable (status, text) (heq ▸ List.mem_append_right l (.head r))

/-- The response that a header block and the data behind it are. -/
def MessageHead.toResponse (head : MessageHead) (statusCode : Nat)
    (hkeys : ∀ e ∈ head.headers, e.1 ≠ []) (info : ParserInfo) (data : Str)
    (hskip : SkipsBody statusCode → data = []) : Response where
  version := head.getHttpVersionString
  statusCode := statusCode
  reason := getStatusText statusCode
  info := info
  headers := head.headers.lines hkeys
  body := Body.ofData data
  reason_ne := getStatusText_ne_nil statusCode
  body_none h := dif_pos (hskip h)

/-- A response has the bytes that the code writes. -/
theorem MessageHead.bytes_toResponse {head : MessageHead} {statusCode : Nat}
    {hkeys : ∀ e ∈ head.headers, e.1 ≠ []} {info : ParserInfo} {data : Str}
    {hskip : SkipsBody statusCode → data = []} (hline : head.line = .response statusCode) :
    bytes (head.toResponse statusCode hkeys info data hskip).marks =
      head.getMessageHeaderRaw ++ data := by
  have hcode : toString (statusCode : Int) = toString statusCode := rfl
  rw [Response.marks, Response.start, Response.afterStatus, bytes_append, bytes_append, bytes_mapPart,
    bytes_append, bytes_append, bytes_addBefore, bytes_plain, bytes_plain, bytes_text, bytes_headerLines,
    bytes_addAfter, bytes_plain, getMessageHeaderRaw, firstLine, hline]
  dsimp only [toResponse]
  rw [Headers.entry_lines, Body.bytes_ofData, hcode]
  simp [Http.crlf, MessageHead.crlf]

/-- The status of the response that a reply makes. -/
def Reply.status (reply : Reply) : Nat := reply.statusCode.getD 200

/-- A response that a handler has set up, as an outgoing message. -/
theorem Reply.toMessage_prepare (reply : Reply) (incomming : IncomingMessage P) :
    (reply.prepare (.new incomming)).toMessage =
      (OutgoingMessage.new (.response reply.status) incomming.httpMajor incomming.httpMinor).setHeaders
        reply.headers := by
  have hheaders (es : List (Str × Str)) (res : ServerResponse) :
      (es.foldl (fun r e => r.setHeader e.1 e.2) res).toMessage = res.toMessage.setHeaders es := by
    induction es generalizing res with
    | nil => rfl
    | cons e es ih => exact ih (res.setHeader e.1 e.2)
  rw [prepare, hheaders, status]
  cases reply.statusCode with
  | none => rfl
  | some statusCode => rfl

/-- The response that a server sends, with what a parser makes of its line and its headers. -/
def serverResponse (httpMajor httpMinor : Nat) (reply : Reply) (hkeys : ∀ e ∈ reply.headers, e.1 ≠ [])
    (hskip : SkipsBody reply.status → reply.data = []) (info : ParserInfo) : Response :=
  MessageHead.toResponse
    ⟨.response reply.status, httpMajor, httpMinor, sentHeaders reply.headers reply.data
      (OutgoingMessage.FirstLine.keepsAlive (.response reply.status))⟩
    reply.status (sentHeaders_ne_nil hkeys _ _) info reply.data hskip

/-- What `end` writes of a handler's reply are the bytes of that response. -/
theorem endData_serverResponse {reply : Reply} (hes : OutgoingMessage.SetsNoFraming reply.headers)
    (hkeys : ∀ e ∈ reply.headers, e.1 ≠ []) (hskip : SkipsBody reply.status → reply.data = [])
    (incomming : IncomingMessage P) (info : ParserInfo) :
    ∃ res packet, (reply.prepare (.new incomming)).endData reply.data = .ok (res, packet) ∧
      packet.toOutgoing.bytes = bytes (serverResponse incomming.httpMajor incomming.httpMinor reply hkeys
        hskip info).marks := by
  have hunframed := OutgoingMessage.unframed_setHeaders (.response reply.status) incomming.httpMajor
    incomming.httpMinor hes
  have heq := OutgoingMessage.setHeaders_eq
    (.new (.response reply.status) incomming.httpMajor incomming.httpMinor) reply.headers
  obtain ⟨m', hm'⟩ := hunframed.endData_packet (by rw [heq]; rfl) reply.data
  rw [← Reply.toMessage_prepare, ServerResponse.endData_toMessage] at hm'
  cases hend : (reply.prepare (.new incomming)).endData reply.data with
  | error e =>
    rw [hend] at hm'
    cases hm'
  | ok result =>
    obtain ⟨res, packet⟩ := result
    rw [hend] at hm'
    refine ⟨res, packet, rfl, ?_⟩
    have hpacket := congrArg Prod.snd (Except.ok.inj hm')
    dsimp only at hpacket
    rw [hpacket, serverResponse, MessageHead.bytes_toResponse rfl, Reply.toMessage_prepare, heq]
    rfl

/-- What the client finds under a key. -/
theorem getHeader_serverResponse (httpMajor httpMinor : Nat) (reply : Reply)
    (hkeys : ∀ e ∈ reply.headers, e.1 ≠ []) (hskip : SkipsBody reply.status → reply.data = [])
    (info : ParserInfo) (key : Str) :
    Headers.getHeader (OrderedMap.insertAll ciLess []
        ((serverResponse httpMajor httpMinor reply hkeys hskip info).headers.map Header.entry)) key =
      if OrderedMap.Equiv ciLess "Connection".toList key then
        some (if reply.status = 204 ∨ reply.status = 304 then "close".toList else "keep-alive".toList)
      else if OrderedMap.Equiv ciLess "Content-Length".toList key then
        some (toString reply.data.length).toList
      else (OrderedMap.last? ciLess key reply.headers).or
        (Headers.getHeader [("Content-Type".toList, "text/html".toList)] key) := by
  have hsorted := sentHeaders_sorted reply.headers reply.data
    (OutgoingMessage.FirstLine.keepsAlive (.response reply.status))
  have hconnection : (if OutgoingMessage.FirstLine.keepsAlive (.response reply.status) then
      "keep-alive".toList else "close".toList) =
      if reply.status = 204 ∨ reply.status = 304 then "close".toList else "keep-alive".toList := by
    rw [OutgoingMessage.FirstLine.keepsAlive]
    by_cases h : reply.status = 204 ∨ reply.status = 304
    · rw [if_pos h, if_neg]
      simp only [Bool.not_eq_true', Bool.or_eq_false_iff, decide_eq_false_iff_not]
      omega
    · rw [if_neg h, if_pos]
      simp only [Bool.not_eq_true', Bool.or_eq_false_iff, decide_eq_false_iff_not]
      omega
  rw [serverResponse, MessageHead.toResponse]
  dsimp only
  rw [Headers.entry_lines, OrderedMap.Sorted.insertAll_append hsorted, List.nil_append,
    getHeader_sentHeaders, hconnection]

/-- A handler ends a response. The future of the client request that gets it, in pieces of any sizes
none of which ends inside the text of the status or the data, resolves with the status, the headers and
the data of the handler, and its connection is closed. -/
theorem response_arrives {reply : Reply} (hes : OutgoingMessage.SetsNoFraming reply.headers)
    (hkeys : ∀ e ∈ reply.headers, e.1 ≠ []) (hskip : SkipsBody reply.status → reply.data = [])
    (incomming : IncomingMessage P) {info : ParserInfo} (hupgrade : info.upgrade = false)
    (hR : R.ConformsOn (serverResponse incomming.httpMajor incomming.httpMinor reply hkeys hskip info))
    (hpieces : Pieces StatusOrPart.appended
      (serverResponse incomming.httpMajor incomming.httpMinor reply hkeys hskip info).marks bufs) :
    ∃ res packet, (reply.prepare (.new incomming)).endData reply.data = .ok (res, packet) ∧
      packet.toOutgoing.bytes = bufs.flatten ∧
      ∃ s m, run (clientStep R) (.start false) (.sent :: bufs.map .read) = some s ∧
        s.future = some (.ok m) ∧ s.crashed = none ∧ s.kept = false ∧ s.reading = false ∧
        s.closing = true ∧ m.statusCode = reply.status ∧
        m.responseStatusString = getStatusText reply.status ∧ m.getBody = reply.data ∧
        ∀ key, m.incoming.headers.getHeader key =
          if OrderedMap.Equiv ciLess "Connection".toList key then
            some (if reply.status = 204 ∨ reply.status = 304 then "close".toList
              else "keep-alive".toList)
          else if OrderedMap.Equiv ciLess "Content-Length".toList key then
            some (toString reply.data.length).toList
          else (OrderedMap.last? ciLess key reply.headers).or
            (Headers.getHeader [("Content-Type".toList, "text/html".toList)] key) := by
  obtain ⟨res, packet, hend, hbytes⟩ := endData_serverResponse hes hkeys hskip incomming info
  obtain ⟨m, hrun, hcode, hreason, hheaders, hcontent⟩ :=
    receives_response hR (Body.inOnePiece_ofData reply.data) hupgrade hpieces
  refine ⟨res, packet, hend, hbytes.trans hpieces.flatten.symm, _, m, hrun, rfl, rfl, rfl, rfl, rfl,
    hcode, hreason, hcontent.trans (Body.content_ofData reply.data), fun key => ?_⟩
  rw [hheaders, getHeader_serverResponse]

/-! ### An exchange -/

/-- Steps in front of the answer: handlers return, what they wait for is settled, and the next one is
called. -/
def Handling {Q : HttpParser} (s : Connection Q) : Label → Prop
  | .handlerReturn _ _ | .settle _ _ | .settleEnd _ _ => True
  | .next c => ∃ chain, s.chains[c]? = some chain ∧ chain.todo ≠ []
  | _ => False

/-- A connection whose request is not answered yet. -/
structure Connection.Unanswered {Q : HttpParser} (env : Env) (m : IncomingMessage Q) (s : Connection Q) :
    Prop where
  request : s.request = some m
  response : s.currentResponse env = .new m
  wire : s.wire = []

/-- A request that was just read is not answered, -/
theorem Connection.unanswered_read {Q : HttpParser} (env : Env) (m : IncomingMessage Q) (received : Str) :
    ((Connection.reading env m received).processRequest env).Unanswered env m := ⟨rfl, rfl, rfl⟩

/-- nor does the place of its chain answer it, -/
theorem Connection.Unanswered.setChain {Q : HttpParser} {env : Env} {m : IncomingMessage Q}
    {s : Connection Q} (h : s.Unanswered env m) (c : Nat) (chain : Chain) :
    (s.setChain c chain).Unanswered env m := ⟨h.request, h.response, h.wire⟩

/-- nor a step of its handler. -/
theorem Connection.Unanswered.step {Q : HttpParser} {env : Env} {m : IncomingMessage Q}
    {s s' : Connection Q} {l : Label} (hl : Handling s l) (h : s.Unanswered env m)
    (hstep : step env s l = some s') : s'.Unanswered env m := by
  cases step_cases env hstep with
  | read | readError | reply | error | written | writeFailed => exact hl.elim
  | returns _ hchain => exact h.setChain _ _
  | throws e => exact ⟨h.request, h.response, h.wire⟩
  | settle e _ hchain => exact h.setChain _ _
  | settleEnd e _ hchain => exact h.setChain _ _
  | @next c chain _ hchain =>
    obtain ⟨chain', hchain', htodo⟩ := hl
    obtain rfl : chain = chain' := Option.some.inj (hchain.symm.trans hchain')
    have hget : (s.getResponse env).Unanswered env m := by
      unfold Connection.getResponse
      cases hresponse : s.response with
      | some res => exact h
      | none =>
        refine ⟨?_, ?_, ?_⟩
        · simp [Connection.getRequest, h.request]
        · simp [Connection.currentResponse, Connection.currentRequest, hresponse, h.request]
        · simp [Connection.getRequest, h.request, h.wire]
    unfold Connection.onNext
    split
    · exact absurd ‹_› htodo
    · dsimp only
      split
      · exact hget.setChain _ _
      · exact hget.setChain _ _

/-- What a handler ends first is given to the socket as one packet. -/
theorem Connection.Unanswered.reply {Q : HttpParser} {env : Env} {m : IncomingMessage Q}
    {s s' : Connection Q} (h : s.Unanswered env m) {reply : Reply}
    (hes : OutgoingMessage.SetsNoFraming reply.headers) (hkeys : ∀ e ∈ reply.headers, e.1 ≠ [])
    (hskip : SkipsBody reply.status → reply.data = []) (info : ParserInfo) {c i : Nat}
    (hstep : NodeNative.Http.step env s (.reply c i reply) = some s') :
    s'.crashed = none ∧ ∃ packet, s'.wire = [(some c, packet)] ∧ packet.toOutgoing.bytes =
      bytes (serverResponse m.httpMajor m.httpMinor reply hkeys hskip info).marks := by
  obtain ⟨res, packet, hend, hbytes⟩ := endData_serverResponse hes hkeys hskip m info
  cases step_cases env hstep with
  | reply _ hchain hact hcall =>
    have hlive : s.crashed = none := by
      simp only [Connection.canAct, Bool.and_eq_true, Option.isNone_iff_eq_none] at hact
      exact hact.1
    rw [Connection.sendEnd, h.response, hend]
    refine ⟨?_, packet, ?_, hbytes⟩
    · show (s.getResponse env).crashed = none
      rw [Connection.getResponse_crashed, hlive]
    · show (s.getResponse env).wire ++ [(some c, packet)] = _
      rw [Connection.getResponse_wire, h.wire]
      rfl

/-- A client sends a request and a handler of the server answers it, at once or later. When neither side
finds the end of a piece inside the path, the text of the status or the data, the handler sees the path
and the data of the client, and the future of the client resolves with the status and the data of the
handler. -/
theorem exchange_completes {Q : HttpParser} {env : Env} {method path : Str} {es : List (Str × Str)}
    (hes : OutgoingMessage.SetsNoFraming es) (hkeys : ∀ e ∈ es, e.1 ≠ []) {data : Str}
    {info : ParserInfo} (hQ : Q.ConformsOn [clientRequest method path hkeys data info])
    (hurl : Q.Accepts (clientPath path)) (hupgrade : info.upgrade = false)
    (hinit : env.uninit 0 = false) {sent : List Str}
    (hsent : Pieces Part.appended (clientRequest method path hkeys data info).marks sent)
    {reply : Reply} (hes' : OutgoingMessage.SetsNoFraming reply.headers)
    (hkeys' : ∀ e ∈ reply.headers, e.1 ≠ []) (hskip : SkipsBody reply.status → reply.data = [])
    {info' : ParserInfo} (hupgrade' : info'.upgrade = false)
    (hR : R.ConformsOn (serverResponse info.httpMajor info.httpMinor reply hkeys' hskip info'))
    (hbufs : Pieces StatusOrPart.appended
      (serverResponse info.httpMajor info.httpMinor reply hkeys' hskip info').marks bufs) :
    ∃ m' packet, ((OutgoingMessage.ofRequest method path).setHeaders es).endData data =
        .ok (m', packet) ∧ packet.bytes = sent.flatten ∧
      ∃ s : Connection Q, run (step env) (.start env) (sent.map .read) = some s ∧
        s.processed.map (fun view => (view.url, view.body)) = [(clientPath path, data)] ∧
        ∀ ls i s', Along (step env) Handling s ls →
          run (step env) s (ls ++ [.reply 0 i reply]) = some s' → s'.crashed = none ∧
          ∃ answer, s'.wire = [(some 0, answer)] ∧ answer.toOutgoing.bytes = bufs.flatten ∧
            ∃ t m, run (clientStep R) (.start false) (.sent :: bufs.map .read) = some t ∧
              t.future = some (.ok m) ∧ m.statusCode = reply.status ∧ m.getBody = reply.data := by
  obtain ⟨m', packet, hsend, hbytes⟩ := endData_clientRequest hes hkeys data info
  obtain ⟨m, hview, hrun⟩ :=
    reads_whole hQ hurl (Body.inOnePiece_ofData data) hupgrade hinit hsent
  rw [clientRequest, MessageHead.view_request (sentHeaders_sorted es data true)] at hview
  refine ⟨m', packet, hsend, hbytes.trans hsent.flatten.symm, _, hrun, ?_, fun ls i s' hok hrun' => ?_⟩
  · exact congrArg (fun view : View => [(view.url, view.body)]) hview
  · obtain ⟨s₁, hrun₁, hlast⟩ := run_append_some hrun'
    rw [run_cons, Option.bind_eq_some_iff] at hlast
    obtain ⟨s₂, hstep, hlast⟩ := hlast
    obtain rfl : s₂ = s' := Option.some.inj hlast
    have hwaits := run_invariant_along (fun _ _ _ hl h hstep => h.step hl hstep) hok
      (Connection.unanswered_read env m _) hrun₁
    obtain ⟨hcrashed, answer, hwire, hanswer⟩ := hwaits.reply hes' hkeys' hskip info' hstep
    have hmajor : m.httpMajor = info.httpMajor := congrArg View.httpMajor hview
    have hminor : m.httpMinor = info.httpMinor := congrArg View.httpMinor hview
    rw [hmajor, hminor] at hanswer
    obtain ⟨received, hreceive, hcode, -, -, hcontent⟩ :=
      receives_response hR (Body.inOnePiece_ofData reply.data) hupgrade' hbufs
    exact ⟨hcrashed, answer, hwire, hanswer.trans hbufs.flatten.symm, _, received, hreceive, rfl, hcode,
      hcontent.trans (Body.content_ofData reply.data)⟩

end

/-! ### An answer to a post -/

/-- A parser that counts the bytes it is given. -/
def countingParser : HttpParser where
  State := Nat
  init := 0
  execute n buf := (n + buf.length, [], buf.length)
  parseUrl _ _ handle := (0, handle)
  methodStr _ := "GET".toList

/-- A parser that knows its response. -/
def scriptResponseParser (r : Response) : ResponseParser countingParser where
  init := (0 : Nat)
  execute n buf := (Nat.add n buf.length,
    (events ((r.marks.drop n).take buf.length)).map (toMessageCallback r.statusCode), buf.length)
  errorName _ := "HPE_OK"

/-- The parser of a response reads it. -/
theorem scriptResponseParser_conformsOn (r : Response) : (scriptResponseParser r).ConformsOn r := by
  intro bufs buf _ _ _
  have hfeed : (scriptResponseParser r).feed bufs = bufs.flatten.length := by
    have hcount (bufs : List Str) (n : Nat) :
        bufs.foldl (fun n buf => Nat.add n buf.length) n = n + bufs.flatten.length := by
      induction bufs generalizing n with
      | nil => rfl
      | cons b bufs ih =>
        rw [List.foldl_cons, ih, List.flatten_cons, List.length_append, ← Nat.add_assoc]
        rfl
    exact (hcount bufs 0).trans (Nat.zero_add _)
  rw [hfeed]
  rfl

def createdReply : Reply := ⟨some 201, [("X-Id".toList, "7".toList)], "done".toList⟩

/-- The headers of the reply have names and frame no body, -/
theorem createdReply_headers : (∀ e ∈ createdReply.headers, e.1 ≠ []) ∧
    OutgoingMessage.SetsNoFraming createdReply.headers := by
  constructor
  · decide
  · intro e he
    cases List.mem_singleton.1 he
    decide

/-- and its status allows one. -/
theorem not_skipsBody_createdReply (h : SkipsBody createdReply.status) : createdReply.data = [] := by
  rcases h with h | h | h <;> cases h

def createdResponse : Response :=
  serverResponse 1 1 createdReply createdReply_headers.1 not_skipsBody_createdReply ⟨false, 1, 1, 0⟩

/-- A response with status 201 arrives at the client. -/
theorem response_arrives_created :
    ∃ s m, run (clientStep (scriptResponseParser createdResponse)) (.start false)
        [.sent, .read (bytes createdResponse.marks)] = some s ∧
      s.future = some (.ok m) ∧ m.statusCode = 201 ∧ m.responseStatusString = "Created".toList ∧
      m.getBody = "done".toList := by
  have hone : Pieces StatusOrPart.appended createdResponse.marks [bytes createdResponse.marks] :=
    .one (by decide)
  obtain ⟨-, -, -, -, s, m, hrun, hfuture, -, -, -, -, hcode, hreason, hbody, -⟩ :=
    response_arrives createdReply_headers.2 createdReply_headers.1 not_skipsBody_createdReply
      (.new false : IncomingMessage countingParser) rfl
      (scriptResponseParser_conformsOn createdResponse) hone
  exact ⟨s, m, hrun, hfuture, hcode, hreason, hbody⟩

/-- A request is answered with it, and both sides get what was sent. -/
theorem exchange_completes_created :
    ∃ s : Connection postParser, run (step oneHandler) (.start oneHandler)
        [.read (bytes postRequest.marks), .handlerReturn 0 .pending, .reply 0 0 createdReply] = some s ∧
      (∃ answer, s.wire = [(some 0, answer)] ∧
        answer.toOutgoing.bytes = bytes createdResponse.marks) ∧
      ∃ t m, run (clientStep (scriptResponseParser createdResponse)) (.start false)
          [.sent, .read (bytes createdResponse.marks)] = some t ∧
        t.future = some (.ok m) ∧ m.statusCode = 201 ∧ m.getBody = "done".toList := by
  have hsent : Pieces Part.appended postRequest.marks [bytes postRequest.marks] := .one (by decide)
  have hone : Pieces StatusOrPart.appended createdResponse.marks [bytes createdResponse.marks] :=
    .one (by decide)
  obtain ⟨-, -, -, -, s, hrun, -, hanswer⟩ := exchange_completes (List.forall_mem_nil _)
    (List.forall_mem_nil _) postParser_conformsOn (fun _ => rfl) rfl
    (show oneHandler.uninit 0 = false from rfl) hsent createdReply_headers.2 createdReply_headers.1
    not_skipsBody_createdReply rfl (scriptResponseParser_conformsOn createdResponse) hone
  have hsome : (run (step oneHandler) (.start oneHandler : Connection postParser)
      ([.read (bytes postRequest.marks)] ++
        ([.handlerReturn 0 .pending] ++ [.reply 0 0 createdReply]))).isSome = true := by decide +kernel
  have hall := (Option.some_get hsome).symm
  obtain ⟨s₁, hread, hrest⟩ := run_append_some hall
  obtain rfl : s = s₁ := Option.some.inj (hrun.symm.trans hread)
  obtain ⟨-, answer, hwire, hbytes, t, m, hclient, hfuture, hcode, hbody⟩ :=
    hanswer [.handlerReturn 0 .pending] 0 _ ⟨trivial, fun _ _ => trivial⟩ hrest
  exact ⟨_, hall, ⟨answer, hwire, hbytes.trans (List.append_nil _)⟩, t, m, hclient, hfuture, hcode, hbody⟩

end NodeNative.Http
