import NodeNative.Http.FieldFragments

/-!
# The url of a request

The parser hands over the target of a request in one fragment for each buffer it lies in, and
`on_url` parses each of them as a url of its own: the fragment replaces the url, and a fragment that
is no url ends the callback with an exception. So the url is the target exactly when it comes in one
fragment (`readsTarget_iff`).
-/

namespace NodeNative.Http

/-- A target as the parser hands it over. The first fragment has its first byte; one that follows is
empty when its buffer begins behind the target. -/
structure TargetDelivery where
  first : Str
  rest : List Str
  first_ne : first ≠ []

namespace TargetDelivery

def fragments (d : TargetDelivery) : List Str := d.first :: d.rest

/-- The target that is delivered. -/
def target (d : TargetDelivery) : Str := d.fragments.flatten

/-- The callbacks of a request up to the end of its headers. -/
def callbacks (d : TargetDelivery) (hs : List FieldDelivery) (info : ParserInfo) (code : Nat) :
    List MessageCallback :=
  (Callback.messageBegin :: d.fragments.map .url).map (.shared · code) ++
    Message.fields hs code ++ [.shared (.headersComplete info) code]

/-- The last of several fragments is not the target. -/
theorem getLast_ne_target (d : TargetDelivery) (hrest : d.rest ≠ []) :
    d.fragments.getLast (List.cons_ne_nil _ _) ≠ d.target := by
  intro heq
  have hlast : d.fragments.getLast (List.cons_ne_nil _ _) = d.rest.getLast hrest :=
    List.getLast_cons hrest
  have hflat : d.rest.flatten = d.rest.dropLast.flatten ++ d.rest.getLast hrest := by
    conv => lhs; rw [← List.dropLast_concat_getLast hrest]
    rw [List.flatten_concat]
  have hlen := congrArg List.length heq
  have hpos : 0 < d.first.length := List.length_pos_of_ne_nil d.first_ne
  rw [hlast, target, fragments, List.flatten_cons, hflat, List.length_append,
    List.length_append] at hlen
  omega

end TargetDelivery

section
variable {P : HttpParser}

/-- The result of `http_parser_parse_url` does not depend on what the `http_parser_url` held. -/
def HttpParser.ParsesAfresh (P : HttpParser) : Prop :=
  ∀ text isConnect handle handle',
    (P.parseUrl text isConnect handle).1 = (P.parseUrl text isConnect handle').1

/-- A text that is no url is none for every `http_parser_url`. -/
theorem HttpParser.ParsesAfresh.rejects (hP : P.ParsesAfresh) {text : Str} (h : ¬ P.Accepts text)
    (handle : HttpParserUrl) : (P.parseUrl text false handle).1 ≠ 0 :=
  fun hzero => h fun handle' => (hP text false handle' handle).trans hzero

/-! ### Fragments of a target -/

/-- A url as `on_url` takes it. -/
theorem IncomingMessage.onCallback_url {text : Str} {m : IncomingMessage P}
    (h : (P.parseUrl text false m.url.handle).1 = 0) : m.onCallback (.url text) =
      .ok { m with url := ⟨(P.parseUrl text false m.url.handle).2, text⟩ } := by
  simp [onCallback, UrlObject.parse, h]

/-- Fragments that are all urls leave the last of them as the url. -/
theorem IncomingMessage.foldlM_urls {texts : List Str} (hok : ∀ text ∈ texts, P.Accepts text)
    (hne : texts ≠ []) (m : IncomingMessage P) :
    ∃ url : UrlObject, (texts.map Callback.url).foldlM onCallback m = .ok { m with url } ∧
      url.buf = texts.getLast hne ∧
      (texts.length = 1 → url = ⟨(P.parseUrl (texts.getLast hne) false m.url.handle).2,
        texts.getLast hne⟩) := by
  induction texts generalizing m with
  | nil => exact absurd rfl hne
  | cons text texts ih =>
    rw [List.map_cons, List.foldlM_cons, onCallback_url (hok text (.head _) m.url.handle)]
    cases texts with
    | nil => exact ⟨_, rfl, rfl, fun _ => rfl⟩
    | cons text' texts =>
      obtain ⟨url, hrest, hbuf, -⟩ := ih (fun t ht => hok t (.tail _ ht)) (List.cons_ne_nil _ _)
        { m with url := ⟨(P.parseUrl text false m.url.handle).2, text⟩ }
      refine ⟨url, hrest, ?_, fun hlen => ?_⟩
      · rw [List.getLast_cons (List.cons_ne_nil _ _)]
        exact hbuf
      · simp at hlen

/-- A fragment that is no url ends the callbacks. -/
theorem IncomingMessage.foldlM_urls_error (hP : P.ParsesAfresh) {texts : List Str}
    (h : ∃ text ∈ texts, ¬ P.Accepts text) (m : IncomingMessage P) :
    ∃ e, (texts.map Callback.url).foldlM onCallback m = .error e := by
  induction texts generalizing m with
  | nil =>
    obtain ⟨text, hmem, -⟩ := h
    cases hmem
  | cons text texts ih =>
    rw [List.map_cons, List.foldlM_cons]
    by_cases hres : (P.parseUrl text false m.url.handle).1 = 0
    · rw [onCallback_url hres]
      obtain ⟨text', hmem, hrejected⟩ := h
      rcases List.mem_cons.mp hmem with rfl | hmem
      · exact absurd hres (hP.rejects hrejected _)
      · exact ih ⟨text', hmem, hrejected⟩ _
    · have hstep : ∃ e, m.onCallback (.url text) = .error e := by
        simp [onCallback, UrlObject.parse, hres]
      obtain ⟨e, hstep⟩ := hstep
      exact ⟨e, by rw [hstep]; rfl⟩

/-! ### The url -/

/-- What a delivery is to come to when the target of the request is this text: a url raises no
exception, and the url of the request is the parsed target. -/
def ReadsTarget (target : Str) (r : Except (Exn × Message P) (Message P)) : Prop :=
  (P.Accepts target → ∃ m, r = .ok m) ∧
    ∀ m, r = .ok m → UrlObject.new.parse P target false = (none, m.incoming.url)

namespace Message

/-- Callbacks of the URL do not end the headers. -/
theorem headersComplete_notMem_urls (texts : List Str) (info : ParserInfo) :
    .headersComplete info ∉ Callback.messageBegin :: texts.map Callback.url := by
  intro hmem
  rcases List.mem_cons.mp hmem with hmem | hmem
  · cases hmem
  · obtain ⟨text, -, htext⟩ := List.mem_map.mp hmem
    cases htext

/-- What follows the target leaves the url. -/
theorem deliver_afterTarget {m : Message P} (hv : m.incoming.wasHeaderValue = true)
    (hs : List FieldDelivery) (info : ParserInfo) (code : Nat) :
    ∃ m', m.deliver (fields hs code ++ [.shared (.headersComplete info) code]) = .ok m' ∧
      m'.incoming.url = m.incoming.url := by
  refine ⟨_, by rw [deliver_append, deliver_fields hv]; rfl, ?_⟩
  obtain ⟨_, _, _, _, hm⟩ :=
    IncomingMessage.foldl_addHeader (hs.map FieldDelivery.header) m.incoming
  simp only [onHeadersComplete, IncomingMessage.onHeadersComplete_eq, hm]
  split <;> rfl

/-- The delivery of a target in front of the rest of the headers. -/
theorem deliver_callbacks (m : Message P) (d : TargetDelivery) (hs : List FieldDelivery)
    (info : ParserInfo) (code : Nat) :
    m.deliver (d.callbacks hs info code) =
      m.deliver ((Callback.messageBegin :: d.fragments.map .url).map (.shared · code)) >>=
        fun m => m.deliver (fields hs code ++ [.shared (.headersComplete info) code]) := by
  rw [TargetDelivery.callbacks, List.append_assoc, deliver_append]

/-- When all fragments are urls, the last of them is the url. -/
theorem deliver_accepted {m : Message P} (hv : m.incoming.wasHeaderValue = true)
    {d : TargetDelivery} (hok : ∀ text ∈ d.fragments, P.Accepts text) (hs : List FieldDelivery)
    (info : ParserInfo) (code : Nat) :
    ∃ m', m.deliver (d.callbacks hs info code) = .ok m' ∧
      m'.incoming.url.buf = d.fragments.getLast (List.cons_ne_nil _ _) ∧
      (d.rest = [] → m'.incoming.url =
        ⟨(P.parseUrl d.first false m.incoming.url.handle).2, d.first⟩) := by
  have hne : d.fragments ≠ [] := List.cons_ne_nil _ _
  obtain ⟨url, hurls, hbuf, hone⟩ := IncomingMessage.foldlM_urls hok hne m.incoming
  have hfold : (Callback.messageBegin :: d.fragments.map .url).foldlM IncomingMessage.onCallback
      m.incoming = .ok { m.incoming with url } := hurls
  obtain ⟨m', hm', hurl⟩ := deliver_afterTarget
    (m := { m with incoming := { m.incoming with url } }) hv hs info code
  refine ⟨m', ?_, by rw [hurl]; exact hbuf, fun hrest => ?_⟩
  · rw [deliver_callbacks, deliver_shared m (headersComplete_notMem_urls d.fragments), hfold]
    exact hm'
  · have hlast : d.fragments.getLast hne = d.first := by
      simp [TargetDelivery.fragments, hrest]
    have hlen : d.fragments.length = 1 := by
      simp [TargetDelivery.fragments, hrest]
    rw [hurl]
    show url = _
    rw [hone hlen, hlast]

/-- When a fragment is no url, the delivery ends with an exception. -/
theorem deliver_rejected (hP : P.ParsesAfresh) (m : Message P) {d : TargetDelivery}
    (hbad : ∃ text ∈ d.fragments, ¬ P.Accepts text) (hs : List FieldDelivery) (info : ParserInfo)
    (code : Nat) : ∃ e, m.deliver (d.callbacks hs info code) = .error e := by
  obtain ⟨e, hurls⟩ := IncomingMessage.foldlM_urls_error hP hbad m.incoming
  have hfold : (Callback.messageBegin :: d.fragments.map .url).foldlM IncomingMessage.onCallback
      m.incoming = _ := hurls
  refine ⟨(e.1, { m with incoming := e.2 }), ?_⟩
  rw [deliver_callbacks, deliver_shared m (headersComplete_notMem_urls d.fragments), hfold]
  rfl

/-- Source: `IncomingMessage.cpp:47`, `UrlObject.cpp:66`. A new request has its target as its url,
and no url raises an exception, exactly when the target comes in one fragment, or is no url and has
a fragment that is none. -/
theorem readsTarget_iff (hP : P.ParsesAfresh) (upgrade : Bool) (d : TargetDelivery)
    (hs : List FieldDelivery) (info : ParserInfo) (code : Nat) :
    ReadsTarget d.target
        ((Message.new true upgrade : Message P).deliver (d.callbacks hs info code)) ↔
      d.rest = [] ∨ (¬ P.Accepts d.target ∧ ∃ text ∈ d.fragments, ¬ P.Accepts text) := by
  have hone : d.rest = [] → d.target = d.first := by
    intro hrest
    simp [TargetDelivery.target, TargetDelivery.fragments, hrest]
  by_cases hok : ∀ text ∈ d.fragments, P.Accepts text
  · obtain ⟨m', hdeliver, hbuf, hurl⟩ :=
      deliver_accepted (m := (Message.new true upgrade : Message P)) rfl hok hs info code
    rw [hdeliver]
    constructor
    · rintro ⟨-, hparsed⟩
      have htarget : m'.incoming.url.buf = d.target := by
        have hsame := congrArg (fun r => r.2.buf) (hparsed m' rfl)
        rw [← hsame]
        unfold UrlObject.parse
        dsimp only
        split <;> rfl
      by_cases hrest : d.rest = []
      · exact .inl hrest
      · exact absurd (hbuf.symm.trans htarget) (d.getLast_ne_target hrest)
    · rintro (hrest | ⟨-, text, hmem, hbad⟩)
      · refine ⟨fun _ => ⟨m', rfl⟩, fun m hm => ?_⟩
        cases hm
        have hfirst : P.Accepts d.first := hok _ (.head _)
        rw [hurl hrest, hone hrest]
        simp [UrlObject.parse, hfirst UrlObject.new.handle, Message.new, IncomingMessage.new]
      · exact absurd (hok text hmem) hbad
  · have hbad : ∃ text ∈ d.fragments, ¬ P.Accepts text := by simpa using hok
    obtain ⟨e, hdeliver⟩ := deliver_rejected hP (Message.new true upgrade) hbad hs info code
    rw [hdeliver]
    constructor
    · rintro ⟨hvalid, -⟩
      refine .inr ⟨fun htarget => ?_, hbad⟩
      obtain ⟨m, hm⟩ := hvalid htarget
      cases hm
    · intro hcond
      have hinvalid : ¬ P.Accepts d.target := by
        rcases hcond with hrest | ⟨hinvalid, -⟩
        · obtain ⟨text, hmem, hrejected⟩ := hbad
          rw [TargetDelivery.fragments, hrest, List.mem_singleton] at hmem
          rwa [hone hrest, ← hmem]
        · exact hinvalid
      exact ⟨fun htarget => absurd htarget hinvalid, fun m hm => by cases hm⟩

end Message

end

/-- The target `/a/b` in one buffer. -/
def wholeTarget : TargetDelivery := ⟨"/a/b".toList, [], by decide⟩

/-- The target `/a/b` in two buffers. -/
def cutTarget : TargetDelivery := ⟨"/a".toList, ["/b".toList], by decide⟩

/-- A target that comes in one piece. -/
theorem readsTarget_whole : ReadsTarget "/a/b".toList
    ((Message.new true false : Message (scriptParser postRoot.marks)).deliver
      (wholeTarget.callbacks [] postRoot.info 0)) :=
  (Message.readsTarget_iff (fun _ _ _ _ => rfl) false wholeTarget [] postRoot.info 0).mpr (.inl rfl)

/-- The second fragment replaces the first. -/
theorem readsTarget_cut : (∃ m : Message (scriptParser postRoot.marks),
      (Message.new true false).deliver (cutTarget.callbacks [] postRoot.info 0) = .ok m ∧
        m.incoming.url.path = "/b".toList) ∧
    cutTarget.target = "/a/b".toList ∧
    ¬ ReadsTarget cutTarget.target
      ((Message.new true false : Message (scriptParser postRoot.marks)).deliver
        (cutTarget.callbacks [] postRoot.info 0)) := by
  refine ⟨⟨_, rfl, by decide⟩, by decide, ?_⟩
  rintro ⟨-, hparsed⟩
  have hbuf := congrArg (fun r => r.2.buf) (hparsed _ rfl)
  exact absurd hbuf (by decide)

end NodeNative.Http
