import NodeNative.Http.Reading

/-!
# The body of a message

The parser hands the body of a message over in fragments, one for each chunk and each buffer it is
found in, to the callback `on_body`. The callback assigns: `getBody` is the last fragment
(`Message.body_eq_getLastD`), not what the fragments are together.

`Message` is an `IncomingMessage` of either kind. Requests have the callbacks of
`IncomingMessage.onCallback` (`Message.onCallback_request`); responses have a status line, and some
of them end with their headers.
-/

namespace NodeNative.Http

/-- An `IncomingMessage` with the argument of its constructor and the members that only a response
fills in. Source: `IncomingMessage.hpp:16`. -/
structure Message (P : HttpParser) where
  isRequest : Bool
  incoming : IncomingMessage P
  statusCode : Nat
  responseStatusString : Str

/-- A callback of the parser: the status text of a response, or one of those that both kinds of
message have, with the member `status_code` of the parser. -/
inductive MessageCallback
  | status (text : Str)
  | shared (c : Callback) (statusCode : Nat)
deriving DecidableEq, Repr

namespace Message

variable {P : HttpParser}

/-- Source: `IncomingMessage.cpp:6`. -/
def new (isRequest upgrade : Bool) : Message P where
  isRequest := isRequest
  incoming := IncomingMessage.new upgrade
  statusCode := 16
  responseStatusString := []

/-- Source: `IncomingMessage.hpp:31`. -/
def getBody (m : Message P) : Str := m.incoming.body

/-- Source: `IncomingMessage.cpp:88`, the callback `on_headers_complete`, with its result: 1 lets
the parser skip the body. -/
def onHeadersComplete (m : Message P) (info : ParserInfo) (statusCode : Nat) : Int × Message P :=
  let incoming := m.incoming.onHeadersComplete info
  if m.isRequest then (0, { m with incoming })
  else (if statusCode / 100 = 1 ∨ statusCode = 204 ∨ statusCode = 304 then 1 else 0,
    { m with incoming := { incoming with method := m.incoming.method }, statusCode })

/-- The callbacks with their results. The callback `on_status` is installed for responses only.
Source: `IncomingMessage.cpp:22` `IncomingMessage::initParser`. -/
def onCallback (m : Message P) : MessageCallback → Except (Exn × Message P) (Int × Message P)
  | .status text => .ok (0, if m.isRequest then m else { m with responseStatusString := text })
  | .shared (.headersComplete info) statusCode => .ok (m.onHeadersComplete info statusCode)
  | .shared c _ =>
    match m.incoming.onCallback c with
    | .error (e, incoming) => .error (e, { m with incoming })
    | .ok incoming => .ok (0, { m with incoming })

/-- The message after some callbacks, whose results are up to the parser. -/
def deliver (m : Message P) (cs : List MessageCallback) : Except (Exn × Message P) (Message P) :=
  cs.foldlM (fun m c => Prod.snd <$> m.onCallback c) m

/-- The callbacks of a request are those of the request model. -/
theorem onCallback_request (m : Message P) (hm : m.isRequest = true) (c : Callback) (code : Nat) :
    m.onCallback (.shared c code) =
      match m.incoming.onCallback c with
      | .error (e, incoming) => .error (e, { m with incoming })
      | .ok incoming => .ok (0, { m with incoming }) := by
  cases c with
  | headersComplete info =>
    show Except.ok (m.onHeadersComplete info code) = _
    unfold onHeadersComplete
    rw [if_pos hm]
    rfl
  | _ => rfl

end Message

/-! ### Fragments -/

/-- The fragment of the body that a callback hands over. -/
def MessageCallback.fragment : MessageCallback → Option Str
  | .shared (.body text) _ => some text
  | _ => none

/-- The fragments of the body, in order. -/
def bodyFragments (cs : List MessageCallback) : List Str := cs.filterMap MessageCallback.fragment

/-- The fragments of the body are those of the callbacks one by one. -/
theorem bodyFragments_cons (c : MessageCallback) (cs : List MessageCallback) :
    bodyFragments (c :: cs) = c.fragment.toList ++ bodyFragments cs := by
  unfold bodyFragments
  cases hc : c.fragment <;> simp [hc]

/-- The last of some texts is all of them together when those in front of it are empty. -/
theorem getLastD_eq_flatten_iff (ds : List Str) (d : Str) :
    ds.getLastD d = ds.flatten ↔ (∀ x ∈ ds.dropLast, x = []) ∧ (ds = [] → d = []) := by
  rcases List.eq_nil_or_concat ds with rfl | ⟨init, last, rfl⟩
  · simp
  · rw [List.concat_eq_append, List.dropLast_concat, List.flatten_concat]
    simp [List.getLastD_eq_getLast?, eq_comm (a := last)]

namespace Message

variable {P : HttpParser}

/-- The end of the headers leaves the body. -/
theorem getBody_onHeadersComplete (m : Message P) (info : ParserInfo) (code : Nat) :
    (m.onHeadersComplete info code).2.getBody = m.getBody := by
  have hbody : (m.incoming.onHeadersComplete info).body = m.incoming.body := by
    rw [IncomingMessage.onHeadersComplete_eq]
  unfold onHeadersComplete
  split
  · exact hbody
  · exact hbody

/-- Only `on_body` writes the body, and what it writes is its fragment. -/
theorem onCallback_getBody {m m' : Message P} {c : MessageCallback} {result : Int}
    (h : m.onCallback c = .ok (result, m')) : m'.getBody = c.fragment.getD m.getBody := by
  match c with
  | .status text =>
    cases h
    show getBody (if m.isRequest then m else _) = m.getBody
    cases m.isRequest <;> rfl
  | .shared (.headersComplete info) code =>
    have hm' : (m.onHeadersComplete info code).2 = m' := by
      unfold onCallback at h
      rw [Except.ok.injEq] at h
      rw [h]
    rw [← hm']
    exact m.getBody_onHeadersComplete info code
  | .shared (.url text) code =>
    simp only [onCallback, IncomingMessage.onCallback] at h
    rcases hparse : m.incoming.url.parse P text false with ⟨_ | e, url⟩ <;> rw [hparse] at h
    · cases h
      rfl
    · cases h
  | .shared (.headerField text) code =>
    cases h
    show (m.incoming.onHeaderField text).body = m.incoming.body
    unfold IncomingMessage.onHeaderField
    split
    · dsimp only
      split <;> rfl
    · rfl
  | .shared (.headerValue text) code =>
    cases h
    show (m.incoming.onHeaderValue text).body = m.incoming.body
    unfold IncomingMessage.onHeaderValue
    dsimp only
    split <;> rfl
  | .shared .messageBegin code => cases h; rfl
  | .shared (.body text) code => cases h; rfl
  | .shared .messageComplete code => cases h; rfl

/-- After any callbacks the body is the last fragment, and what it was before without any. -/
theorem body_eq_getLastD {m m' : Message P} {cs : List MessageCallback}
    (h : m.deliver cs = .ok m') : m'.getBody = (bodyFragments cs).getLastD m.getBody := by
  induction cs generalizing m with
  | nil =>
    cases h
    rfl
  | cons c cs ih =>
    unfold deliver at h
    rw [List.foldlM_cons] at h
    cases hc : m.onCallback c with
    | error e =>
      rw [hc] at h
      cases h
    | ok result =>
      obtain ⟨result, m₁⟩ := result
      rw [hc] at h
      have hrest := ih (m := m₁) h
      rw [hrest, onCallback_getBody hc, bodyFragments_cons]
      cases c.fragment with
      | none => rfl
      | some d => rw [Option.toList_some, List.singleton_append, List.getLastD_cons]; rfl

/-- Source: `IncomingMessage.cpp:114`. After any callbacks of the parser, `getBody` is what the
fragments of the body are together exactly when all of them but the last are empty and, if there
was none, the body was empty before. -/
theorem getBody_eq_flatten_iff {m m' : Message P} {cs : List MessageCallback}
    (h : m.deliver cs = .ok m') :
    m'.getBody = (bodyFragments cs).flatten ↔
      (∀ d ∈ (bodyFragments cs).dropLast, d = []) ∧
        (bodyFragments cs = [] → m.getBody = []) := by
  rw [body_eq_getLastD h]
  exact getLastD_eq_flatten_iff _ _

end Message

/-- `POST / HTTP/1.1` with a body of two bytes. -/
def postRoot : Request where
  method := "POST".toList
  url := "/".toList
  version := "HTTP/1.1".toList
  info := ⟨false, 1, 1, 3⟩
  headers := [⟨"Content-Length".toList, "2".toList, by decide⟩]
  body := .identity "ab".toList (by decide)
  url_ne := getRoot.url_ne

/-- The callbacks in front of the body of this request. -/
def postRootHead : List Callback :=
  [.messageBegin, .url "/".toList, .headerField "Content-Length".toList, .headerValue "2".toList,
    .headersComplete postRoot.info]

/-- The callbacks of this request when its body comes in these fragments. -/
def postRootCallbacks (fragments : List Str) : List MessageCallback :=
  (postRootHead ++ fragments.map Callback.body ++ [Callback.messageComplete]).map (.shared · 0)

/-- A body that comes in one piece. -/
theorem getBody_postRoot_whole :
    ∃ m' : Message (scriptParser postRoot.marks),
      (Message.new true false).deliver (postRootCallbacks ["ab".toList]) = .ok m' ∧
        m'.getBody = "ab".toList := by
  obtain ⟨m', hm'⟩ : ∃ m' : Message (scriptParser postRoot.marks),
      (Message.new true false).deliver (postRootCallbacks ["ab".toList]) = .ok m' := ⟨_, rfl⟩
  exact ⟨m', hm', (Message.getBody_eq_flatten_iff hm').mpr ⟨by decide, fun _ => rfl⟩⟩

/-- The same request in two buffers, cut inside the body. -/
theorem getBody_postRoot_cut :
    ∃ m' : Message (scriptParser postRoot.marks),
      (Message.new true false).deliver (postRootCallbacks ["a".toList, "b".toList]) = .ok m' ∧
        (bodyFragments (postRootCallbacks ["a".toList, "b".toList])).flatten = "ab".toList ∧
          m'.getBody = "b".toList :=
  ⟨_, rfl, rfl, rfl⟩

end NodeNative.Http
