import NodeNative.Http.ClientRequest
import NodeNative.Http.Reading

/-!
# When the headers are complete

`isHeaderComplete` and `isUpgrade` show what the callbacks of the parser have left in a message.
The flag is set by `on_header_value`, and `_upgrade`, which the constructor does not set, by
`on_headers_complete`; both read callbacks look at `isUpgrade()` after every piece of data. A
message is observed together with the callbacks that it has got so far (`Observed`), and
`headers_used_when_complete` says of which runs both hold: the flag tells the truth, and `_upgrade`
is assigned before it is used.
-/

namespace NodeNative.Http

open Transition Fragments

/-! ### What a message has been told -/

/-- `on_headers_complete` has been called for the message that began last. -/
def headersFired (cs : List Callback) : Bool :=
  cs.foldl (fun fired c =>
    match c with
    | .messageBegin => false
    | .headersComplete _ => true
    | _ => fired) false

def Callback.isHeaderValue : Callback → Bool
  | .headerValue _ => true
  | _ => false

def Callback.isHeadersComplete : Callback → Bool
  | .headersComplete _ => true
  | _ => false

/-- `on_header_value` has been called. -/
def valueSeen (cs : List Callback) : Bool := cs.any Callback.isHeaderValue

/-- `on_headers_complete` has been called, so that `_upgrade` is assigned. -/
def upgradeAssigned (cs : List Callback) : Bool := cs.any Callback.isHeadersComplete

/-- The callback that both kinds of message have. -/
def MessageCallback.callback? : MessageCallback → Option Callback
  | .shared c _ => some c
  | .status _ => none

/-- A state with the callbacks that its message object has got. -/
structure Observed (S : Type) where
  state : S
  seen : List Callback

/-- The condition on the callbacks at the end of a read: the object's first header section has been
read to its end, and that of its current message has been if and only if a header value was. -/
def HeadersRead (cs : List Callback) : Prop :=
  upgradeAssigned cs = true ∧ valueSeen cs = headersFired cs

instance (cs : List Callback) : Decidable (HeadersRead cs) := inferInstanceAs (Decidable (_ ∧ _))

section
variable {P : HttpParser}

/-! ### The flag -/

/-- The flag is set by `on_header_value` alone, -/
theorem IncomingMessage.onCallback_header {m m' : IncomingMessage P} {c : Callback}
    (h : m.onCallback c = .ok m') :
    m'.headerComplete = (m.headerComplete || c.isHeaderValue) := by
  cases c with
  | url text =>
    simp only [onCallback] at h
    rcases hparse : m.url.parse P text false with ⟨_ | e, url⟩ <;> rw [hparse] at h <;> cases h
    simp [Callback.isHeaderValue]
  | headerField text =>
    cases h
    unfold onHeaderField
    split
    · dsimp only
      split <;> simp [Callback.isHeaderValue]
    · simp [Callback.isHeaderValue]
  | headerValue text =>
    cases h
    unfold onHeaderValue
    dsimp only
    split <;> simp [Callback.isHeaderValue]
  | headersComplete info => cases h; simp [onHeadersComplete_eq, Callback.isHeaderValue]
  | messageBegin => cases h; simp [Callback.isHeaderValue]
  | body text => cases h; simp [Callback.isHeaderValue]
  | messageComplete => cases h; simp [Callback.isHeaderValue]

/-- and so by a header value among the callbacks. -/
theorem IncomingMessage.foldlM_header {m m' : IncomingMessage P} {cs : List Callback}
    (h : cs.foldlM onCallback m = .ok m') :
    m'.headerComplete = (m.headerComplete || valueSeen cs) := by
  induction cs generalizing m with
  | nil =>
    cases h
    simp [valueSeen]
  | cons c cs ih =>
    rw [List.foldlM_cons] at h
    cases hc : m.onCallback c with
    | error e => rw [hc] at h; cases h
    | ok m₁ =>
      rw [hc] at h
      rw [ih h, onCallback_header hc, valueSeen, valueSeen, List.any_cons, Bool.or_assoc]

/-- The callbacks of a message are those that both kinds have, but for the status text. -/
theorem Message.deliver_header {m m' : Message P} {cs : List MessageCallback}
    (h : m.deliver cs = .ok m') :
    m'.incoming.headerComplete =
      (m.incoming.headerComplete || valueSeen (cs.filterMap MessageCallback.callback?)) := by
  induction cs generalizing m with
  | nil =>
    cases h
    simp [valueSeen]
  | cons c cs ih =>
    unfold deliver at h
    rw [List.foldlM_cons] at h
    cases hc : m.onCallback c with
    | error e => rw [hc] at h; cases h
    | ok result =>
      obtain ⟨n, m₁⟩ := result
      rw [hc] at h
      have hflag : m₁.incoming.headerComplete =
          (m.incoming.headerComplete || valueSeen c.callback?.toList) := by
        match c with
        | .status text =>
          cases hc
          cases m.isRequest <;> simp [MessageCallback.callback?, valueSeen]
        | .shared (.headersComplete info) code =>
          have hm₁ : (m.onHeadersComplete info code).2 = m₁ := by
            unfold onCallback at hc
            rw [Except.ok.injEq] at hc
            rw [hc]
          rw [← hm₁]
          simp only [onHeadersComplete, IncomingMessage.onHeadersComplete_eq]
          split <;> simp [MessageCallback.callback?, valueSeen, Callback.isHeaderValue]
        | .shared .messageBegin _ | .shared (.url _) _ | .shared (.headerField _) _
        | .shared (.headerValue _) _ | .shared (.body _) _ | .shared .messageComplete _ =>
          simp only [onCallback] at hc
          split at hc
          · cases hc
          · rename_i hincoming
            cases hc
            have := IncomingMessage.onCallback_header hincoming
            simpa [MessageCallback.callback?, valueSeen] using this
      have hrest : m'.incoming.headerComplete =
          (m₁.incoming.headerComplete || valueSeen (cs.filterMap MessageCallback.callback?)) :=
        ih h
      rw [hrest, hflag, Bool.or_assoc]
      cases hcb : c.callback? <;> simp [hcb, valueSeen]

/-! ### The server -/

/-- The callbacks of the parser on a piece of data. -/
def IncomingMessage.callbacks (m : IncomingMessage P) (buf : Str) : List Callback :=
  (P.execute (m.parser.getD P.init) buf).2.1

/-- Reading a piece of data is making its callbacks. -/
theorem IncomingMessage.parse_eq (m : IncomingMessage P) (buf : Str) : m.parse buf =
    match (m.callbacks buf).foldlM onCallback m with
    | .error e => .error e
    | .ok m' => .ok ((P.execute (m.parser.getD P.init) buf).2.2,
        { m' with parser := some (P.execute (m.parser.getD P.init) buf).1 }) := rfl

/-- An exception of `on_url` leaves the callbacks. -/
def IncomingMessage.throws (m : IncomingMessage P) (cs : List Callback) : Bool :=
  match cs.foldlM onCallback m with
  | .error _ => true
  | .ok _ => false

variable (env : Env)

/-- What the current request has been told after a step to this state. -/
def Observed.seenAfter (t : Observed (Connection P)) (s' : Connection P) : Label → List Callback
  | .read buf => t.seen ++ (t.state.currentRequest env).callbacks buf
  | _ => if s'.request.isNone then [] else t.seen

/-- A step of an observed connection. -/
def observe (t : Observed (Connection P)) (l : Label) : Option (Observed (Connection P)) :=
  (step env t.state l).map fun s' => ⟨s', t.seenAfter env s' l⟩

/-- The condition on a step: a read ends with its headers read, unless an exception leaves it. -/
def ReadsHeaders (t : Observed (Connection P)) : Label → Prop
  | .read buf =>
    (t.state.currentRequest env).throws ((t.state.currentRequest env).callbacks buf) = true ∨
      HeadersRead (t.seen ++ (t.state.currentRequest env).callbacks buf)
  | _ => True

instance (t : Observed (Connection P)) (l : Label) : Decidable (ReadsHeaders env t l) :=
  match l with
  | .read _ => inferInstanceAs (Decidable (_ = true ∨ HeadersRead _))
  | .readError _ | .reply _ _ _ | .handlerReturn _ _ | .settle _ _ | .settleEnd _ _ | .next _
  | .error _ | .written _ _ => .isTrue trivial

/-- What a step is to do: behind it the flag says whether the headers of the current message are
complete, and a read callback that has looked at `_upgrade` has found it assigned. -/
def UsesHeaders (l : Label) (t' : Observed (Connection P)) : Prop :=
  t'.state.crashed = none →
    (t'.state.currentRequest env).headerComplete = headersFired t'.seen ∧
      ∀ buf, l = .read buf → upgradeAssigned t'.seen = true

/-- The flag of a live connection is set by the header values, and it tells the truth. -/
def FlagTrue (t : Observed (Connection P)) : Prop :=
  t.state.crashed = none →
    (t.state.currentRequest env).headerComplete = valueSeen t.seen ∧
      valueSeen t.seen = headersFired t.seen

variable {env}

/-- Behind an exception a connection takes no step. -/
theorem step_crashed {s s' : Connection P} {l : Label} (h : step env s l = some s') :
    s.crashed = none := by
  have hidle : s.idle = true → s.crashed = none := by
    intro hidle
    simp only [Connection.idle, Bool.and_eq_true, Option.isNone_iff_eq_none] at hidle
    exact hidle.1
  cases step_cases env h with
  | reply reply hchain hact hcall =>
    simp only [Connection.canAct, Bool.and_eq_true, Option.isNone_iff_eq_none] at hact
    exact hact.1
  | returns hcrash => exact hcrash
  | throws e hcrash => exact hcrash
  | _ => exact hidle ‹_›

/-- Reads apart, a step leaves the current request, or there is a new one. -/
theorem observe_current {t t' : Observed (Connection P)} {l : Label}
    (h : observe env t l = some t') (hl : ∀ buf, l ≠ .read buf) :
    (t'.state.request = none ∧ t'.seen = []) ∨
      t'.state.currentRequest env = t.state.currentRequest env ∧ t'.seen = t.seen := by
  obtain ⟨s', hs', rfl⟩ := Option.map_eq_some_iff.mp h
  have hseen : t.seenAfter env s' l = if s'.request.isNone then [] else t.seen := by
    cases l with
    | read buf => exact absurd rfl (hl buf)
    | _ => rfl
  dsimp only
  rw [hseen]
  cases hreq : s'.request with
  | none => exact .inl ⟨rfl, rfl⟩
  | some m =>
    refine .inr ⟨?_, rfl⟩
    by_cases hwritten : ∃ w, l = .written w true
    · obtain ⟨w, rfl⟩ := hwritten
      cases step_cases env hs'
      unfold Connection.onWritten at hreq ⊢
      cases hresponse : t.state.response with
      | none => rfl
      | some res =>
        rw [hresponse] at hreq
        dsimp only at hreq ⊢
        split at hreq
        · cases hreq
        · rename_i hkeep
          rw [if_neg hkeep]
          rfl
    · exact congrArg Prod.fst (step_inbox env hs' hl fun w hw => hwritten ⟨w, hw⟩)

/-- What a read leads to. -/
theorem onRead_cases (env : Env) (s : Connection P) (buf : Str) :
    ((s.currentRequest env).throws ((s.currentRequest env).callbacks buf) = true ∧
      (s.onRead env buf).crashed.isSome = true) ∨
    ((s.currentRequest env).throws ((s.currentRequest env).callbacks buf) = false ∧
      ((s.onRead env buf).currentRequest env).headerComplete =
        ((s.currentRequest env).headerComplete ||
          valueSeen ((s.currentRequest env).callbacks buf)) ∧
      (s.onRead env buf).crashed = s.crashed) := by
  unfold IncomingMessage.throws Connection.onRead
  rw [IncomingMessage.parse_eq]
  cases hfold : ((s.currentRequest env).callbacks buf).foldlM IncomingMessage.onCallback
      (s.currentRequest env) with
  | error e => exact .inl ⟨rfl, rfl⟩
  | ok m =>
    refine .inr ⟨rfl, ?_, ?_⟩
    · rw [← IncomingMessage.foldlM_header hfold]
      dsimp only
      split <;> split <;>
        simp [Connection.currentRequest, Connection.processRequest, Connection.getRequest,
          Connection.close]
    · dsimp only
      split <;> split <;> simp [Connection.processRequest, Connection.close]

/-- In a live connection the flag is set by the header values of the current message. -/
theorem observe_flag {t t' : Observed (Connection P)} {l : Label} (h : FlagTrue env t)
    (hstep : observe env t l = some t') (hlive : t'.state.crashed = none) :
    (t'.state.currentRequest env).headerComplete = valueSeen t'.seen := by
  obtain ⟨s', hs', ht'⟩ := Option.map_eq_some_iff.mp hstep
  obtain ⟨hflag, -⟩ := h (step_crashed hs')
  by_cases hread : ∃ buf, l = .read buf
  · obtain ⟨buf, rfl⟩ := hread
    cases step_cases env hs'
    subst ht'
    rcases onRead_cases env t.state buf with ⟨-, hcrashed⟩ | ⟨-, hnext, -⟩
    · rw [hlive] at hcrashed
      cases hcrashed
    · rw [hnext, hflag]
      exact List.any_append.symm
  · rcases observe_current hstep fun buf hl => hread ⟨buf, hl⟩ with ⟨hnone, hseen⟩ | ⟨hcurrent, hseen⟩
    · rw [hseen, Connection.currentRequest, hnone]
      rfl
    · rw [hseen, hcurrent, hflag]

/-- A step does what it should exactly when it meets the condition. -/
theorem FlagTrue.step_iff {t t' : Observed (Connection P)} {l : Label} (h : FlagTrue env t)
    (hstep : observe env t l = some t') : ReadsHeaders env t l ↔ UsesHeaders env l t' := by
  have hnext := observe_flag h hstep
  obtain ⟨s', hs', ht'⟩ := Option.map_eq_some_iff.mp hstep
  obtain ⟨-, htrue⟩ := h (step_crashed hs')
  by_cases hread : ∃ buf, l = .read buf
  · obtain ⟨buf, rfl⟩ := hread
    cases step_cases env hs'
    subst ht'
    rcases onRead_cases env t.state buf with ⟨hthrows, hcrashed⟩ | ⟨hok, -, hlive⟩
    · refine iff_of_true (.inl hthrows) fun hlive => ?_
      rw [hlive] at hcrashed
      cases hcrashed
    · have hlive' := hlive.trans (step_crashed hs')
      constructor
      · rintro (hthrows | ⟨hassigned, hsame⟩)
        · rw [hok] at hthrows
          cases hthrows
        · exact fun _ => ⟨(hnext hlive').trans hsame, fun _ _ => hassigned⟩
      · intro huses
        obtain ⟨hcomplete, hassigned⟩ := huses hlive'
        exact .inr ⟨hassigned buf rfl, (hnext hlive').symm.trans hcomplete⟩
  · have hl : ∀ buf, l ≠ .read buf := fun buf hl => hread ⟨buf, hl⟩
    have hcond : ReadsHeaders env t l := by
      cases l with
      | read buf => exact absurd rfl (hl buf)
      | _ => trivial
    refine iff_of_true hcond fun hlive => ⟨?_, fun buf hbuf => absurd hbuf (hl buf)⟩
    rw [hnext hlive]
    rcases observe_current hstep hl with ⟨-, hseen⟩ | ⟨-, hseen⟩
    · rw [hseen]
      rfl
    · rw [hseen, htrue]

/-- A step that meets the condition keeps the flag true. -/
theorem FlagTrue.step {t t' : Observed (Connection P)} {l : Label} (hok : ReadsHeaders env t l)
    (h : FlagTrue env t) (hstep : observe env t l = some t') : FlagTrue env t' := by
  intro hlive
  have hflag := observe_flag h hstep hlive
  exact ⟨hflag, hflag.symm.trans ((h.step_iff hstep).mp hok hlive).1⟩

/-! ### The client -/

variable (R : ResponseParser P)

/-- The callbacks of the parser on a piece of data. -/
def Message.callbacks (m : Message P) (buf : Str) : List MessageCallback :=
  (R.execute (m.incoming.parser.getD R.init) buf).2.1

/-- Reading a piece of data is making its callbacks. -/
theorem Message.parse_eq (m : Message P) (buf : Str) : m.parse R buf =
    match m.deliver (m.callbacks R buf) with
    | .error e => .error e
    | .ok m' => .ok ((R.execute (m.incoming.parser.getD R.init) buf).2.2,
        { m' with incoming := { m'.incoming with
          parser := some (R.execute (m.incoming.parser.getD R.init) buf).1 } }) := rfl

/-- What the response is told by a piece of data. -/
def ClientRequest.callbacks (s : ClientRequest P) (buf : Str) : List Callback :=
  s.response.elim [] fun m => (m.callbacks R buf).filterMap MessageCallback.callback?

/-- An exception leaves the callbacks of a piece of data. -/
def ClientRequest.throws (s : ClientRequest P) (buf : Str) : Bool :=
  s.response.any fun m =>
    match m.deliver (m.callbacks R buf) with
    | .error _ => true
    | .ok _ => false

/-- The response that the read callback works on, or has handed over. -/
def ClientRequest.Shows (s : ClientRequest P) (m : Message P) : Prop :=
  s.response = some m ∨ s.future = some (.ok m)

/-- What the response has been told after a step. -/
def Observed.toldAfter (t : Observed (ClientRequest P)) : ClientLabel → List Callback
  | .read buf => t.seen ++ t.state.callbacks R buf
  | _ => t.seen

/-- A step of an observed client request. -/
def observeClient (t : Observed (ClientRequest P)) (l : ClientLabel) :
    Option (Observed (ClientRequest P)) :=
  (clientStep R t.state l).map fun s' => ⟨s', t.toldAfter R l⟩

/-- The condition on a step, as for a connection. -/
def ReadsResponseHeaders (t : Observed (ClientRequest P)) : ClientLabel → Prop
  | .read buf => t.state.throws R buf = true ∨ HeadersRead (t.seen ++ t.state.callbacks R buf)
  | _ => True

instance (t : Observed (ClientRequest P)) (l : ClientLabel) :
    Decidable (ReadsResponseHeaders R t l) :=
  match l with
  | .read _ => inferInstanceAs (Decidable (_ = true ∨ HeadersRead _))
  | .sent | .notSent _ | .readError _ => .isTrue trivial

/-- What a step is to do, as for a connection. -/
def UsesResponseHeaders (l : ClientLabel) (t' : Observed (ClientRequest P)) : Prop :=
  t'.state.crashed = none →
    (∀ m, t'.state.Shows m → m.incoming.headerComplete = headersFired t'.seen) ∧
      ∀ buf, l = .read buf → upgradeAssigned t'.seen = true

/-- The flag of the response is set by the header values, it tells the truth, and the read callback
has a response to work on. -/
structure ResponseFlagTrue (t : Observed (ClientRequest P)) : Prop where
  flag : ∀ m, t.state.Shows m → m.incoming.headerComplete = valueSeen t.seen
  truth : valueSeen t.seen = headersFired t.seen
  pending : t.state.reading = true → t.state.future = none
  kept : t.state.future = none → t.state.kept = true
  response : t.state.future = none → ∃ m, t.state.response = some m

variable {R}

/-- What a read leads to. -/
theorem ClientRequest.onRead_cases {s : ClientRequest P} {m : Message P}
    (hresponse : s.response = some m) (hpending : s.future = none) (buf : Str) :
    (s.throws R buf = true ∧ (s.onRead R buf).crashed.isSome = true) ∨
    (s.throws R buf = false ∧ (s.onRead R buf).crashed = s.crashed ∧
      (∃ m', (s.onRead R buf).Shows m') ∧
      (∀ m', (s.onRead R buf).Shows m' → m'.incoming.headerComplete =
        (m.incoming.headerComplete || valueSeen (s.callbacks R buf))) ∧
      ((s.onRead R buf).reading = true → (s.onRead R buf).future = none) ∧
      ((s.onRead R buf).future = none → (s.onRead R buf).kept = s.kept ∧
        ∃ m', (s.onRead R buf).response = some m')) := by
  unfold ClientRequest.throws ClientRequest.onRead ClientRequest.callbacks
  rw [hresponse]
  dsimp only [Option.any_some, Option.elim_some]
  rw [Message.parse_eq]
  cases hdeliver : m.deliver (m.callbacks R buf) with
  | error e => exact .inl ⟨rfl, rfl⟩
  | ok m₁ =>
    refine .inr ⟨rfl, ?_⟩
    rw [← Message.deliver_header hdeliver]
    dsimp only
    split
    · refine ⟨rfl, ⟨_, .inl rfl⟩, ?_, (fun h => nomatch h), fun h => nomatch h⟩
      rintro m' (h | h)
      · cases h; rfl
      · cases h
    · split
      · refine ⟨rfl, ⟨_, .inr rfl⟩, ?_, (fun h => nomatch h), fun h => nomatch h⟩
        rintro m' (h | h)
        · cases h
        · cases h; rfl
      · refine ⟨rfl, ⟨_, .inl rfl⟩, ?_, fun _ => hpending, fun _ => ⟨rfl, _, rfl⟩⟩
        rintro m' (h | h)
        · cases h; rfl
        · rw [hpending] at h
          cases h

/-- Reads apart, a step shows the response as it was. -/
theorem ResponseFlagTrue.quiet {s s' : ClientRequest P} {seen : List Callback} {l : ClientLabel}
    (h : ResponseFlagTrue ⟨s, seen⟩) (hstep : clientStep R s l = some s')
    (hl : ∀ buf, l ≠ .read buf) : ResponseFlagTrue ⟨s', seen⟩ := by
  obtain ⟨hflag, htruth, hpending, hkept, hresponse⟩ := h
  cases clientStep_cases hstep with
  | read buf => exact absurd rfl (hl buf)
  | sent _ hnone => exact ⟨hflag, htruth, fun _ => hnone, hkept, hresponse⟩
  | notSent e hreading =>
    refine ⟨?_, htruth, fun hread => ?_, (fun h => nomatch h), fun h => nomatch h⟩
    · rintro m (hm | hm)
      · exact hflag m (.inl hm)
      · cases hm
    · rw [hreading] at hread
      cases hread
  | readError e hreading =>
    have hnone := hpending hreading
    obtain ⟨m, hm⟩ := hresponse hnone
    have hfinish : ∀ result, result = .ok m ∨ (∃ e, result = .error e) →
        ResponseFlagTrue ⟨s.finish result, seen⟩ := by
      intro result hresult
      refine ⟨?_, htruth, (fun h => nomatch h), (fun h => nomatch h), fun h => nomatch h⟩
      rintro m' (hm' | hm')
      · exact hflag m' (.inl hm')
      · rcases hresult with rfl | ⟨e, rfl⟩ <;> cases hm'
        exact hflag m (.inl hm)
    rw [ClientRequest.whenKept_eq (hkept hnone)]
    unfold ClientRequest.onReadError
    rw [hm]
    dsimp only
    split
    · exact hfinish _ (.inl rfl)
    · exact hfinish _ (.inr ⟨_, rfl⟩)

/-- A step that does not read keeps the process alive only if it was. -/
theorem clientStep_crashed {s s' : ClientRequest P} {l : ClientLabel}
    (hstep : clientStep R s l = some s') (hlive : s'.crashed = none) : s.crashed = none := by
  cases clientStep_cases hstep with
  | sent | notSent => exact hlive
  | read _ _ hbefore | readError _ _ hbefore => exact hbefore

/-- The state of a live client request. -/
def ClientTrue (t : Observed (ClientRequest P)) : Prop :=
  t.state.crashed = none → ResponseFlagTrue t

/-- A step does what it should exactly when it meets the condition, and then the flag stays true. -/
theorem ClientTrue.step_iff {t t' : Observed (ClientRequest P)} {l : ClientLabel}
    (h : ClientTrue t) (hstep : observeClient R t l = some t') :
    (ReadsResponseHeaders R t l ↔ UsesResponseHeaders l t') ∧
      (ReadsResponseHeaders R t l → ClientTrue t') := by
  obtain ⟨s', hs', ht'⟩ := Option.map_eq_some_iff.mp hstep
  by_cases hread : ∃ buf, l = .read buf
  · obtain ⟨buf, rfl⟩ := hread
    obtain _ | _ | ⟨_, hreading, hlive⟩ := clientStep_cases hs'
    obtain ⟨hflag, -, hpending, hkept, hresponse⟩ := h hlive
    have hnone := hpending hreading
    obtain ⟨m, hm⟩ := hresponse hnone
    rw [ClientRequest.whenKept_eq (hkept hnone)] at ht'
    subst ht'
    rcases ClientRequest.onRead_cases hm hnone buf with
      ⟨hthrows, hcrashed⟩ | ⟨hok, hlive', ⟨m', hm'⟩, hall, hpending', hkept'⟩
    · have hdead : (t.state.onRead R buf).crashed ≠ none := by
        intro hlive'
        rw [hlive'] at hcrashed
        cases hcrashed
      exact ⟨iff_of_true (.inl hthrows) fun hlive' => absurd hlive' hdead,
        fun _ hlive' => absurd hlive' hdead⟩
    · have hseen : ∀ m', (t.state.onRead R buf).Shows m' →
          m'.incoming.headerComplete = valueSeen (t.seen ++ t.state.callbacks R buf) := by
        intro m' hm'
        rw [hall m' hm', hflag m (.inl hm)]
        exact List.any_append.symm
      have hiff : ReadsResponseHeaders R t (.read buf) ↔
          HeadersRead (t.seen ++ t.state.callbacks R buf) := by
        show (t.state.throws R buf = true ∨ HeadersRead _) ↔ _
        rw [hok]
        exact or_iff_right Bool.false_ne_true
      rw [hiff]
      refine ⟨⟨fun hread _ => ⟨fun m' hm' => (hseen m' hm').trans hread.2, fun _ _ => hread.1⟩,
        fun huses => ?_⟩, fun hread _ => ⟨hseen, hread.2, hpending', fun h => ?_, fun h => ?_⟩⟩
      · obtain ⟨htruth, hassigned⟩ := huses (hlive'.trans hlive)
        exact ⟨hassigned buf rfl, (hseen m' hm').symm.trans (htruth m' hm')⟩
      · exact (hkept' h).1.trans (hkept hnone)
      · exact (hkept' h).2
  · have hl : ∀ buf, l ≠ .read buf := fun buf hl => hread ⟨buf, hl⟩
    have hcond : ReadsResponseHeaders R t l := by
      cases l with
      | read buf => exact absurd rfl (hl buf)
      | _ => trivial
    have hseen : t.toldAfter R l = t.seen := by
      cases l with
      | read buf => exact absurd rfl (hl buf)
      | _ => rfl
    rw [hseen] at ht'
    subst ht'
    have hnext : s'.crashed = none → ResponseFlagTrue ⟨s', t.seen⟩ :=
      fun hlive => (h (clientStep_crashed hs' hlive)).quiet hs' hl
    refine ⟨iff_of_true hcond fun hlive => ⟨fun m hm => ?_, fun buf hbuf => absurd hbuf (hl buf)⟩,
      fun _ => hnext⟩
    exact ((hnext hlive).flag m hm).trans (hnext hlive).truth

/-! ### Runs -/

/-- Before the first read nothing has been told. -/
def Observed.ofStart {S : Type} (s : S) : Observed S := ⟨s, []⟩

/-- Source: `IncomingMessage.cpp:6`, `IncomingMessage.cpp:74-113`, `ServerConnection.cpp:107-121`,
`ClientRequest.cpp:105-127`. In a run of a connection or of a client request every step leaves a
flag that says whether the headers of the current message are complete, and no read callback uses
`_upgrade` before it is assigned, if and only if every read that no exception leaves ends with its
headers read. -/
theorem headers_used_when_complete (env : Env) (R : ResponseParser P) (uninit : Bool) :
    (∀ (ls : List Label) (t : Observed (Connection P)),
      run (observe env) (.ofStart (.start env)) ls = some t →
      (Along (observe env) (ReadsHeaders env) (.ofStart (.start env) : Observed (Connection P)) ls ↔
        ∀ ls₀ l ls₁ (t₀ t₁ : Observed (Connection P)), ls = ls₀ ++ l :: ls₁ →
          run (observe env) (.ofStart (.start env)) ls₀ = some t₀ →
          observe env t₀ l = some t₁ → UsesHeaders env l t₁)) ∧
    ∀ (ls : List ClientLabel) (t : Observed (ClientRequest P)),
      run (observeClient R) (.ofStart (.start uninit)) ls = some t →
      (Along (observeClient R) (ReadsResponseHeaders R) (.ofStart (.start uninit)) ls ↔
        ∀ ls₀ l ls₁ (t₀ t₁ : Observed (ClientRequest P)), ls = ls₀ ++ l :: ls₁ →
          run (observeClient R) (.ofStart (.start uninit)) ls₀ = some t₀ →
          observeClient R t₀ l = some t₁ → UsesResponseHeaders l t₁) := by
  constructor
  · intro ls t hrun
    have hstart : FlagTrue env (.ofStart (.start env) : Observed (Connection P)) :=
      fun _ => ⟨rfl, rfl⟩
    exact along_iff (fun _ _ _ hs hstep => hs.step_iff hstep)
      (fun _ _ _ hok hs hstep => hs.step hok hstep) hstart hrun
  · intro ls t hrun
    have hstart : ClientTrue (.ofStart (.start uninit) : Observed (ClientRequest P)) := by
      refine fun _ => ⟨?_, rfl, fun _ => rfl, fun _ => rfl, fun _ => ⟨_, rfl⟩⟩
      rintro m (hm | hm) <;> cases hm
      rfl
    exact along_iff (fun _ _ _ hs hstep => (hs.step_iff hstep).1)
      (fun _ _ _ hok hs hstep => (hs.step_iff hstep).2 hok) hstart hrun

end

/-- A connection that reads this request. -/
abbrev PostRootConnection := Connection (scriptParser postRoot.marks)

/-- A response without a body. -/
def noContent : Str := "HTTP/1.1 204 No Content\r\nServer: s\r\n\r\n".toList

/-- A parser that gets this response in one buffer. -/
def noContentParser : ResponseParser (scriptParser postRoot.marks) where
  init := none
  execute σ buf :=
    if buf = noContent then
      (σ, [.shared .messageBegin 0, .status "No Content".toList,
        .shared (.headerField "Server".toList) 204, .shared (.headerValue "s".toList) 204,
        .shared (.headersComplete ⟨false, 1, 1, 0⟩) 204, .shared .messageComplete 204], buf.length)
    else (σ, [], 0)
  errorName _ := "HPE_OK"

/-- Both messages come in one buffer each. -/
theorem headers_used_when_complete_whole :
    (run (observe noHandlers) (.ofStart (.start noHandlers : PostRootConnection))
      [.read (bytes postRoot.marks)]).isSome = true ∧
    (∀ ls₀ l ls₁ (t₀ t₁ : Observed PostRootConnection),
      [Label.read (bytes postRoot.marks)] = ls₀ ++ l :: ls₁ →
      run (observe noHandlers) (.ofStart (.start noHandlers)) ls₀ = some t₀ →
      observe noHandlers t₀ l = some t₁ → UsesHeaders noHandlers l t₁) ∧
    ∀ ls₀ l ls₁ t₀ t₁, [ClientLabel.sent, .read noContent] = ls₀ ++ l :: ls₁ →
      run (observeClient noContentParser) (.ofStart (.start true)) ls₀ = some t₀ →
      observeClient noContentParser t₀ l = some t₁ → UsesResponseHeaders l t₁ := by
  have hsome : (run (observe noHandlers) (.ofStart (.start noHandlers : PostRootConnection))
      [.read (bytes postRoot.marks)]).isSome = true := by decide
  have hclient : (run (observeClient noContentParser) (.ofStart (.start true))
      [.sent, .read noContent]).isSome = true := by decide
  obtain ⟨hserver, hresponse⟩ := headers_used_when_complete noHandlers noContentParser true
  exact ⟨hsome, (hserver _ _ (Option.some_get hsome).symm).mp (by decide),
    (hresponse _ _ (Option.some_get hclient).symm).mp (by decide)⟩

/-- The memory of `_upgrade` is not zero. -/
def uninitialised : Env := ⟨fun _ => true, fun _ _ => []⟩

/-- After the first byte of a request it is dispatched when the memory of `_upgrade` is not zero. And
inside the header section the flag is set. -/
theorem headers_used_incomplete :
    (∃ t : Observed PostRootConnection,
      observe uninitialised (.ofStart (.start uninitialised)) (.read "P".toList) = some t ∧
        ¬ UsesHeaders uninitialised (.read "P".toList) t ∧ t.state.processed.length = 1) ∧
    ∃ t : Observed PostRootConnection,
      observe noHandlers (.ofStart (.start noHandlers))
        (.read "POST / HTTP/1.1\r\nContent-Length: 2\r\n".toList) = some t ∧
        (t.state.currentRequest noHandlers).headerComplete = true ∧ headersFired t.seen = false := by
  refine ⟨⟨_, rfl, fun huses => ?_, by decide⟩, ⟨_, rfl, by decide, by decide⟩⟩
  exact absurd ((huses (by decide)).2 _ rfl) (by decide)

end NodeNative.Http
