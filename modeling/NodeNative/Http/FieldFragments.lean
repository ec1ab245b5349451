import NodeNative.Http.BodyFragments

/-!
# Header and trailer fields

The parser hands over the name and the value of a field in fragments. `on_header_field` and
`on_header_value` put them together again, and a field joins the headers when the next one begins or
at `on_headers_complete`, so the headers are complete then (`getHeader_headers`). The fields of a
trailer come after it, and nothing follows the last of them: it is lost
(`getHeader_trailers_iff`).
-/

namespace NodeNative.Http

/-- A field as the parser hands it over: the fragments of its name and those of its value. -/
structure FieldDelivery where
  name : List Str
  value : List Str
  name_ne : name.flatten ≠ []
  value_ne : value ≠ []

namespace FieldDelivery

/-- The field that is delivered. -/
def header (d : FieldDelivery) : Header := ⟨d.name.flatten, d.value.flatten, d.name_ne⟩

def callbacks (d : FieldDelivery) : List Callback :=
  d.name.map .headerField ++ d.value.map .headerValue

/-- A field that comes in one fragment each. -/
def whole (name value : Str) (hname : name ≠ []) : FieldDelivery where
  name := [name]
  value := [value]
  name_ne := by simpa using hname
  value_ne := by simp

end FieldDelivery

/-- `Transfer-Encoding: chunked` -/
def chunkedField : FieldDelivery :=
  ⟨["Transfer-".toList, "Encoding".toList], ["chunked".toList, []], by decide, by decide⟩

/-- `Digest: d` -/
def digestField : FieldDelivery := .whole "Digest".toList "d".toList (by decide)

/-- The value of the last field with this name, in lower or upper case. -/
def lastValue (hs : List Header) (key : Str) : Option Str :=
  (hs.reverse.find? fun h => h.field.map Char.toLower == key.map Char.toLower).map Header.value

/-- The last value of a field is the one that a map would hold. -/
theorem lastValue_eq (hs : List Header) (key : Str) :
    lastValue hs key = OrderedMap.last? ciLess key (hs.map Header.entry) := by
  have hsame : (fun h : Header => h.field.map Char.toLower == key.map Char.toLower) =
      (fun e : Str × Str => decide (OrderedMap.Equiv ciLess e.1 key)) ∘ Header.entry := by
    funext h
    rw [Bool.eq_iff_iff, beq_iff_eq, Function.comp_apply, decide_eq_true_iff]
    exact ciLess_equiv.symm
  unfold lastValue OrderedMap.last?
  rw [hsame, ← List.map_reverse, List.find?_map, Option.map_map]
  rfl

/-- One more header is the last value of its own field. -/
theorem lastValue_concat (hs : List Header) (h : Header) (key : Str) :
    lastValue (hs ++ [h]) key =
      if h.field.map Char.toLower = key.map Char.toLower then some h.value else lastValue hs key := by
  rw [lastValue_eq, List.map_append, OrderedMap.last?_append, ← lastValue_eq hs]
  simp only [List.map_cons, List.map_nil, OrderedMap.last?_singleton, Header.entry, ciLess_equiv]
  split <;> rfl

/-- Names that differ in case only have the same last value. -/
theorem lastValue_congr (hs : List Header) {key key' : Str}
    (h : key.map Char.toLower = key'.map Char.toLower) : lastValue hs key = lastValue hs key' := by
  rw [lastValue_eq, lastValue_eq, OrderedMap.last?_congr (ciLess_equiv.mpr h)]

section
variable {P : HttpParser}

/-! ### Fragments of a field -/

/-- The fragments of a name are one name. -/
theorem IncomingMessage.foldl_onHeaderField {texts : List Str} (hne : texts ≠ [])
    (m : IncomingMessage P) : texts.foldl onHeaderField m = m.onHeaderField texts.flatten := by
  induction texts generalizing m with
  | nil => exact absurd rfl hne
  | cons text texts ih =>
    rw [List.foldl_cons, List.flatten_cons]
    rcases List.eq_nil_or_concat texts with rfl | ⟨init, last, rfl⟩
    · simp
    · rw [ih (by simp), onHeaderField_append]

/-- The fragments of a value are one value. -/
theorem IncomingMessage.foldl_onHeaderValue {texts : List Str} (hne : texts ≠ [])
    (m : IncomingMessage P) : texts.foldl onHeaderValue m = m.onHeaderValue texts.flatten := by
  induction texts generalizing m with
  | nil => exact absurd rfl hne
  | cons text texts ih =>
    rw [List.foldl_cons, List.flatten_cons]
    rcases List.eq_nil_or_concat texts with rfl | ⟨init, last, rfl⟩
    · simp
    · rw [ih (by simp), onHeaderValue_append]

/-- A delivered field is a header line. -/
theorem IncomingMessage.foldlM_callbacks {m : IncomingMessage P} (hv : m.wasHeaderValue = true)
    (d : FieldDelivery) : d.callbacks.foldlM onCallback m = .ok (m.addHeader d.header) := by
  have hfields : ∀ (texts : List Str) (m : IncomingMessage P),
      (texts.map Callback.headerField).foldlM onCallback m = .ok (texts.foldl onHeaderField m) := by
    intro texts
    induction texts with
    | nil => exact fun _ => rfl
    | cons text texts ih => exact fun m => ih (m.onHeaderField text)
  have hvalues : ∀ (texts : List Str) (m : IncomingMessage P),
      (texts.map Callback.headerValue).foldlM onCallback m = .ok (texts.foldl onHeaderValue m) := by
    intro texts
    induction texts with
    | nil => exact fun _ => rfl
    | cons text texts ih => exact fun m => ih (m.onHeaderValue text)
  have hne : d.name ≠ [] := fun hnil => d.name_ne (by rw [hnil]; rfl)
  unfold FieldDelivery.callbacks
  rw [List.foldlM_append, hfields]
  show (d.value.map Callback.headerValue).foldlM onCallback _ = _
  rw [hvalues, foldl_onHeaderField hne, foldl_onHeaderValue d.value_ne]
  exact congrArg _ (onHeaderField_onHeaderValue hv d.header)

/-- Delivered fields are header lines. -/
theorem IncomingMessage.foldlM_fields {m : IncomingMessage P} (hv : m.wasHeaderValue = true)
    (ds : List FieldDelivery) : (ds.flatMap FieldDelivery.callbacks).foldlM onCallback m =
      .ok ((ds.map FieldDelivery.header).foldl addHeader m) := by
  induction ds generalizing m with
  | nil => rfl
  | cons d ds ih =>
    rw [List.flatMap_cons, List.foldlM_append, foldlM_callbacks hv]
    exact ih rfl

end

/-! ### Deliveries -/

/-- The callbacks in front of the fields: the message begins, and it has its url or its status. -/
def MessageCallback.start : MessageCallback → Bool
  | .status _ => true
  | .shared .messageBegin _ => true
  | .shared (.url _) _ => true
  | _ => false

namespace Message

variable {P : HttpParser}

/-- Source: `MessageBase.cpp:33` `MessageBase::getHeader`. -/
def getHeader (m : Message P) (key : Str) : Option Str := m.incoming.headers.getHeader key

/-- Callbacks in a row are delivered in a row. -/
theorem deliver_append (m : Message P) (cs cs' : List MessageCallback) :
    m.deliver (cs ++ cs') = m.deliver cs >>= fun m => m.deliver cs' := List.foldlM_append

/-- What comes in front of the fields leaves the headers. -/
theorem deliver_start {m m' : Message P} {first : List MessageCallback}
    (hfirst : ∀ c ∈ first, c.start = true) (h : m.deliver first = .ok m') :
    m'.incoming.collected = m.incoming.collected ∧
      m'.incoming.wasHeaderValue = m.incoming.wasHeaderValue := by
  induction first generalizing m with
  | nil =>
    cases h
    exact ⟨rfl, rfl⟩
  | cons c first ih =>
    have hc := hfirst c (.head _)
    obtain ⟨m₁, hm₁, hrest⟩ : ∃ m₁, Prod.snd <$> m.onCallback c = .ok m₁ ∧
        m₁.deliver first = .ok m' := by
      unfold deliver at h
      rw [List.foldlM_cons] at h
      cases hcb : m.onCallback c with
      | error e => rw [hcb] at h; cases h
      | ok result => rw [hcb] at h; exact ⟨result.2, rfl, h⟩
    have hstep : m₁.incoming.collected = m.incoming.collected ∧
        m₁.incoming.wasHeaderValue = m.incoming.wasHeaderValue := by
      match c with
      | .status text =>
        cases hm₁
        cases m.isRequest <;> exact ⟨rfl, rfl⟩
      | .shared .messageBegin _ =>
        cases hm₁
        exact ⟨rfl, rfl⟩
      | .shared (.url text) _ =>
        simp only [onCallback, IncomingMessage.onCallback] at hm₁
        rcases hparse : m.incoming.url.parse P text false with ⟨_ | e, url⟩ <;> rw [hparse] at hm₁
        · cases hm₁
          exact ⟨rfl, rfl⟩
        · cases hm₁
    obtain ⟨hcollected, hvalue⟩ := ih (fun c hc => hfirst c (.tail _ hc)) hrest
    exact ⟨hcollected.trans hstep.1, hvalue.trans hstep.2⟩

/-- Callbacks that both kinds of message have, when none of them ends the headers. -/
theorem deliver_shared (m : Message P) {cs : List Callback}
    (hcs : ∀ info, .headersComplete info ∉ cs) (code : Nat) :
    m.deliver (cs.map (.shared · code)) =
      match cs.foldlM IncomingMessage.onCallback m.incoming with
      | .error (e, incoming) => .error (e, { m with incoming })
      | .ok incoming => .ok { m with incoming } := by
  induction cs generalizing m with
  | nil => rfl
  | cons c cs ih =>
    have hcb : m.onCallback (.shared c code) =
        match m.incoming.onCallback c with
        | .error (e, incoming) => .error (e, { m with incoming })
        | .ok incoming => .ok (0, { m with incoming }) := by
      cases c with
      | headersComplete info => exact absurd (.head _) (hcs info)
      | _ => rfl
    unfold deliver at ih ⊢
    rw [List.map_cons, List.foldlM_cons, List.foldlM_cons, hcb]
    cases m.incoming.onCallback c with
    | error e => rfl
    | ok incoming => exact ih { m with incoming } fun info hmem => hcs info (.tail _ hmem)

/-- The callbacks of fields do not end the headers. -/
theorem headersComplete_notMem_callbacks (ds : List FieldDelivery) (info : ParserInfo) :
    .headersComplete info ∉ ds.flatMap FieldDelivery.callbacks := by
  intro hmem
  obtain ⟨d, -, hd⟩ := List.mem_flatMap.mp hmem
  rcases List.mem_append.mp hd with hd | hd <;> obtain ⟨text, -, htext⟩ := List.mem_map.mp hd <;>
    cases htext

/-- The callbacks of some fields. -/
def fields (ds : List FieldDelivery) (code : Nat) : List MessageCallback :=
  (ds.flatMap FieldDelivery.callbacks).map (.shared · code)

/-- Whole header fields become headers. -/
theorem deliver_fields {m : Message P} (hv : m.incoming.wasHeaderValue = true)
    (ds : List FieldDelivery) (code : Nat) :
    m.deliver (fields ds code) =
      .ok { m with incoming := (ds.map FieldDelivery.header).foldl .addHeader m.incoming } := by
  rw [fields, deliver_shared m (headersComplete_notMem_callbacks ds),
    IncomingMessage.foldlM_fields hv]

/-- The end of the headers moves the last of them into the headers, for both kinds of message. -/
theorem onHeadersComplete_headers (m : Message P) (info : ParserInfo) (code : Nat) :
    (m.onHeadersComplete info code).2.incoming.headers = m.incoming.collected ∧
      (m.onHeadersComplete info code).2.incoming.lastHeaderField = m.incoming.lastHeaderField ∧
      (m.onHeadersComplete info code).2.incoming.lastHeaderValue = m.incoming.lastHeaderValue ∧
      (m.onHeadersComplete info code).2.incoming.wasHeaderValue = m.incoming.wasHeaderValue := by
  have hall := IncomingMessage.onHeadersComplete_eq m.incoming info
  unfold onHeadersComplete
  split <;> simp [hall]

/-- What the headers are after the fields of a new message. -/
theorem deliver_headers {isRequest upgrade : Bool} {first : List MessageCallback}
    (hfirst : ∀ c ∈ first, c.start = true) {m₀ : Message P}
    (h₀ : (Message.new isRequest upgrade).deliver first = .ok m₀) (hs : List FieldDelivery)
    (info : ParserInfo) (code : Nat) :
    ∃ m : Message P, (Message.new isRequest upgrade).deliver
        (first ++ fields hs code ++ [.shared (.headersComplete info) code]) = .ok m ∧
      m.incoming.wasHeaderValue = true ∧
      ∀ key, m.getHeader key = lastValue (hs.map FieldDelivery.header) key ∧
        m.incoming.collected.getHeader key = lastValue (hs.map FieldDelivery.header) key := by
  obtain ⟨hcollected, hvalue⟩ := deliver_start hfirst h₀
  have hv₀ : m₀.incoming.wasHeaderValue = true := hvalue
  let m₁ : Message P :=
    { m₀ with incoming := (hs.map FieldDelivery.header).foldl .addHeader m₀.incoming }
  have hv₁ : m₁.incoming.wasHeaderValue = true := by
    obtain ⟨_, _, _, _, hm⟩ :=
      IncomingMessage.foldl_addHeader (hs.map FieldDelivery.header) m₀.incoming
    show ((hs.map FieldDelivery.header).foldl .addHeader m₀.incoming).wasHeaderValue = true
    rw [hm, hv₀]
    rfl
  have hget : ∀ key, m₁.incoming.collected.getHeader key =
      lastValue (hs.map FieldDelivery.header) key := by
    intro key
    have hall := IncomingMessage.collected_foldl_addHeader (hs.map FieldDelivery.header) m₀.incoming
    show Headers.getHeader ((hs.map FieldDelivery.header).foldl .addHeader m₀.incoming).collected key
      = _
    rw [hall, hcollected, lastValue_eq, Headers.getHeader, OrderedMap.find?_insertAll]
    exact Option.or_none
  obtain ⟨hheaders, hfield, hlast, hv⟩ := onHeadersComplete_headers m₁ info code
  refine ⟨(m₁.onHeadersComplete info code).2, ?_, hv.trans hv₁, fun key => ⟨?_, ?_⟩⟩
  · rw [deliver_append, deliver_append, h₀]
    show (m₀.deliver (fields hs code) >>= _) = _
    rw [deliver_fields hv₀]
    rfl
  · show Headers.getHeader _ key = _
    rw [hheaders, hget]
  · -- the last header is assigned once more, to the value that it has
    rw [← hget key]
    unfold IncomingMessage.collected
    rw [hfield, hlast, hheaders]
    unfold IncomingMessage.collected
    split
    · rfl
    · unfold Headers.getHeader Headers.set
      rw [OrderedMap.find?_insert, OrderedMap.find?_insert]
      split <;> rfl

/-- Source: `IncomingMessage.cpp:55`. After the fields of a new message and the end of its headers,
in whatever fragments the names and the values come, every key has the value of the last field with
that name. -/
theorem getHeader_headers {isRequest upgrade : Bool} {first : List MessageCallback}
    (hfirst : ∀ c ∈ first, c.start = true) {m₀ : Message P}
    (h₀ : (Message.new isRequest upgrade).deliver first = .ok m₀) (hs : List FieldDelivery)
    (info : ParserInfo) (code : Nat) :
    ∃ m : Message P, (Message.new isRequest upgrade).deliver
        (first ++ fields hs code ++ [.shared (.headersComplete info) code]) = .ok m ∧
      ∀ key, m.getHeader key = lastValue (hs.map FieldDelivery.header) key := by
  obtain ⟨m, hm, -, hget⟩ := deliver_headers hfirst h₀ hs info code
  exact ⟨m, hm, fun key => (hget key).1⟩

/-- The encoding in two fragments each, its value with an empty one behind it. -/
theorem getHeader_headers_chunked :
    ∃ m : Message (scriptParser postRoot.marks), (Message.new true false).deliver
        ([.shared .messageBegin 0] ++ fields [chunkedField, digestField] 0 ++
          [.shared (.headersComplete postRoot.info) 0]) = .ok m ∧
      m.getHeader "transfer-encoding".toList = some "chunked".toList := by
  have hstart : (Message.new true false).deliver [.shared .messageBegin 0] =
      .ok (Message.new true false : Message (scriptParser postRoot.marks)) := rfl
  obtain ⟨m, hm, hget⟩ := getHeader_headers (by decide) hstart [chunkedField, digestField]
    postRoot.info 0
  exact ⟨m, hm, (hget _).trans (by decide)⟩

/-! ### Trailers -/

/-- The callbacks behind the headers of a chunked message: the chunks, the trailer, and the end. -/
def chunkedRest (chunks : List Str) (trailer : List FieldDelivery) (code : Nat) :
    List MessageCallback :=
  (chunks.map Callback.body ++ trailer.flatMap FieldDelivery.callbacks ++
    [Callback.messageComplete]).map (.shared · code)

/-- The last field of a trailer stays behind in `_lastHeaderField` and `_lastHeaderValue`. -/
theorem deliver_chunkedRest {m : Message P} (hv : m.incoming.wasHeaderValue = true)
    (chunks : List Str) (ts : List FieldDelivery) (t : FieldDelivery) (code : Nat) :
    ∃ m', m.deliver (chunkedRest chunks (ts ++ [t]) code) = .ok m' ∧
      m'.incoming.headers = OrderedMap.insertAll ciLess m.incoming.collected
        ((ts.map FieldDelivery.header).map Header.entry) := by
  have hchunks : ∀ incoming : IncomingMessage P, ∃ body,
      (chunks.map Callback.body).foldlM IncomingMessage.onCallback incoming =
        .ok { incoming with body } := by
    induction chunks with
    | nil => exact fun incoming => ⟨incoming.body, rfl⟩
    | cons chunk chunks ih =>
      intro incoming
      obtain ⟨body, hbody⟩ := ih { incoming with body := chunk }
      exact ⟨body, hbody⟩
  obtain ⟨body, hbody⟩ := hchunks m.incoming
  have hfields := IncomingMessage.foldlM_fields (m := { m.incoming with body }) hv (ts ++ [t])
  have hheaders : (((ts ++ [t]).map FieldDelivery.header).foldl IncomingMessage.addHeader
      { m.incoming with body }).headers =
        OrderedMap.insertAll ciLess m.incoming.collected
          ((ts.map FieldDelivery.header).map Header.entry) := by
    rw [List.map_append, List.foldl_append]
    exact IncomingMessage.collected_foldl_addHeader _ _
  have hcs : ∀ info, .headersComplete info ∉ chunks.map Callback.body ++
      (ts ++ [t]).flatMap FieldDelivery.callbacks ++ [Callback.messageComplete] := by
    intro info hmem
    rcases List.mem_append.mp hmem with hmem | hmem
    · rcases List.mem_append.mp hmem with hmem | hmem
      · obtain ⟨chunk, -, hchunk⟩ := List.mem_map.mp hmem
        cases hchunk
      · exact headersComplete_notMem_callbacks _ info hmem
    · cases List.mem_singleton.mp hmem
  have hfold : (chunks.map Callback.body ++ (ts ++ [t]).flatMap FieldDelivery.callbacks ++
      [Callback.messageComplete]).foldlM IncomingMessage.onCallback m.incoming =
        .ok { ((ts ++ [t]).map FieldDelivery.header).foldl .addHeader { m.incoming with body } with
          messageComplete := true } := by
    rw [List.foldlM_append, List.foldlM_append, hbody]
    show ((List.flatMap _ _).foldlM _ _ >>= _) = _
    rw [hfields]
    rfl
  exact ⟨_, by rw [chunkedRest, deliver_shared m hcs, hfold], hheaders⟩

/-- Source: `IncomingMessage.cpp:55`, `IncomingMessage.cpp:120`. After a chunked message with a
trailer, the names in the trailer have the value of the last field with that name exactly when the
last field of the trailer repeats what the fields in front of it say. -/
theorem getHeader_trailers_iff {isRequest upgrade : Bool} {first : List MessageCallback}
    (hfirst : ∀ c ∈ first, c.start = true) {m₀ : Message P}
    (h₀ : (Message.new isRequest upgrade).deliver first = .ok m₀) (hs : List FieldDelivery)
    (info : ParserInfo) (code : Nat) (chunks : List Str) (ts : List FieldDelivery)
    (t : FieldDelivery) :
    ∃ m : Message P, (Message.new isRequest upgrade).deliver
        (first ++ fields hs code ++ [.shared (.headersComplete info) code] ++
          chunkedRest chunks (ts ++ [t]) code) = .ok m ∧
      ((∀ d ∈ ts ++ [t], m.getHeader d.header.field =
          lastValue ((hs ++ (ts ++ [t])).map FieldDelivery.header) d.header.field) ↔
        lastValue ((hs ++ ts).map FieldDelivery.header) t.header.field = some t.header.value) := by
  obtain ⟨m₁, hm₁, hv, hget⟩ := deliver_headers hfirst h₀ hs info code
  obtain ⟨m, hm, hheaders⟩ := deliver_chunkedRest hv chunks ts t code
  have hlost : ∀ key,
      m.getHeader key = lastValue ((hs ++ ts).map FieldDelivery.header) key := by
    intro key
    have hkey : OrderedMap.find? ciLess key m₁.incoming.collected = _ := (hget key).2
    unfold getHeader Headers.getHeader
    rw [hheaders, OrderedMap.find?_insertAll, hkey, lastValue_eq, lastValue_eq, List.map_append,
      List.map_append, OrderedMap.last?_append]
  have hall : ∀ key, lastValue ((hs ++ (ts ++ [t])).map FieldDelivery.header) key =
      if t.header.field.map Char.toLower = key.map Char.toLower then some t.header.value
      else lastValue ((hs ++ ts).map FieldDelivery.header) key := by
    intro key
    rw [← List.append_assoc, List.map_append]
    exact lastValue_concat _ _ key
  refine ⟨m, ?_, ?_⟩
  · rw [deliver_append, hm₁]
    exact hm
  · constructor
    · intro hsame
      have ht := hsame t (List.mem_append_right _ (.head _))
      rw [hlost, hall, if_pos rfl] at ht
      exact ht
    · intro hrepeat d hd
      rw [hlost, hall]
      split
      · rename_i hname
        rw [← lastValue_congr _ hname, hrepeat]
      · rfl

/-- A trailer that repeats a header. -/
theorem getHeader_trailers_repeated :
    ∃ m : Message (scriptParser postRoot.marks), (Message.new true false).deliver
        ([.shared .messageBegin 0] ++ fields [chunkedField, digestField] 0 ++
          [.shared (.headersComplete postRoot.info) 0] ++
          chunkedRest ["ab".toList] ([] ++ [digestField]) 0) = .ok m ∧
      ∀ d ∈ [digestField], m.getHeader d.header.field = lastValue
        (([chunkedField, digestField] ++ [digestField]).map FieldDelivery.header)
        d.header.field := by
  have hstart : (Message.new true false).deliver [.shared .messageBegin 0] =
      .ok (Message.new true false : Message (scriptParser postRoot.marks)) := rfl
  obtain ⟨m, hm, hiff⟩ := getHeader_trailers_iff (by decide) hstart [chunkedField, digestField]
    postRoot.info 0 ["ab".toList] [] digestField
  exact ⟨m, hm, hiff.mpr (by decide)⟩

/-- A trailer of one field. -/
theorem getHeader_trailers_lost :
    ∃ m : Message (scriptParser postRoot.marks), (Message.new true false).deliver
        ([.shared .messageBegin 0] ++ fields [chunkedField] 0 ++
          [.shared (.headersComplete postRoot.info) 0] ++
          chunkedRest ["ab".toList] [digestField] 0) = .ok m ∧
      lastValue (([chunkedField] ++ [digestField]).map FieldDelivery.header) digestField.header.field =
        some "d".toList ∧
      m.getHeader digestField.header.field = none :=
  ⟨_, rfl, by decide, by decide⟩

end Message

end NodeNative.Http
