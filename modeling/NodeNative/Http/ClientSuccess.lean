import NodeNative.Http.HeaderState

/-!
# When a client request succeeds

The future of `ClientRequest::end` resolves on data after which the response is complete or an upgrade,
and on the end of the file before it is complete. What has been received by then is said by the
callbacks of the parser alone (`Received`): the headers are complete, and a response with a
`Content-Length` has come to its end. `AcceptsReceived` is the condition under which a step resolves the
future only for a response that has been received; the end of the file in front of the headers or in a
body of a known length does not meet it, and neither does the memory that the constructor leaves in
`_upgrade`.
-/

namespace NodeNative.Http

open Transition

/-! ### What has been received -/

/-- The names of the fields that the callbacks hand over; the name handed over last is open until a value
comes. -/
def fieldNames (cs : List Callback) : List Str × Bool :=
  cs.foldl (fun (names, isOpen) c =>
    match c with
    | .headerField text =>
      if isOpen then (names.dropLast ++ [names.getLastD [] ++ text], true)
      else (names ++ [text], true)
    | .headerValue _ => (names, false)
    | _ => (names, isOpen)) ([], false)

/-- The response has a `Content-Length`. -/
def hasContentLength (cs : List Callback) : Bool :=
  (fieldNames (cs.takeWhile (!·.isHeadersComplete))).1.any fun name =>
    name.map Char.toLower == "content-length".toList

/-- The status line and all headers have been received and, when there is a `Content-Length`, the whole
body. -/
def Received (cs : List Callback) : Prop :=
  upgradeAssigned cs = true ∧ (hasContentLength cs = true → .messageComplete ∈ cs)

instance (cs : List Callback) : Decidable (Received cs) := inferInstanceAs (Decidable (_ ∧ _))

section
variable {P : HttpParser}

/-- The flag `_upgrade` behind some callbacks. -/
def upgradeAfter (upgrade : Bool) (cs : List Callback) : Bool :=
  cs.foldl (fun upgrade c =>
    match c with
    | .headersComplete info => info.upgrade
    | _ => upgrade) upgrade

/-- The flag `_messageComplete` behind some callbacks. -/
def completeAfter (complete : Bool) (cs : List Callback) : Bool :=
  complete || cs.contains .messageComplete

/-- The flag behind callbacks is that behind the last of them. -/
theorem completeAfter_append (complete : Bool) (cs cs' : List Callback) :
    completeAfter complete (cs ++ cs') = completeAfter (completeAfter complete cs) cs' := by
  rw [completeAfter, completeAfter, completeAfter, List.contains_append, Bool.or_assoc]

/-- The flags of a message behind a callback. -/
theorem IncomingMessage.onCallback_flags {m m' : IncomingMessage P} {c : Callback}
    (h : m.onCallback c = .ok m') : m'.upgrade = upgradeAfter m.upgrade [c] ∧
      m'.messageComplete = completeAfter m.messageComplete [c] := by
  cases c with
  | url text =>
    simp only [onCallback] at h
    rcases hparse : m.url.parse P text false with ⟨_ | e, url⟩ <;> rw [hparse] at h <;> cases h
    simp [upgradeAfter, completeAfter]
  | headerField text =>
    cases h
    unfold onHeaderField
    split
    · dsimp only
      split <;> simp [upgradeAfter, completeAfter]
    · simp [upgradeAfter, completeAfter]
  | headerValue text =>
    cases h
    unfold onHeaderValue
    dsimp only
    split <;> simp [upgradeAfter, completeAfter]
  | headersComplete info => cases h; simp [onHeadersComplete_eq, upgradeAfter, completeAfter]
  | messageBegin => cases h; simp [upgradeAfter, completeAfter]
  | body text => cases h; simp [upgradeAfter, completeAfter]
  | messageComplete => cases h; simp [upgradeAfter, completeAfter]

/-- A callback of the response sets the flags as these two say. -/
theorem Message.onCallback_flags {m m' : Message P} {c : MessageCallback} {result : Int}
    (h : m.onCallback c = .ok (result, m')) :
    m'.incoming.upgrade = upgradeAfter m.incoming.upgrade c.callback?.toList ∧
      m'.incoming.messageComplete = completeAfter m.incoming.messageComplete c.callback?.toList := by
  match c with
  | .status text =>
    cases h
    cases m.isRequest <;> simp [MessageCallback.callback?, upgradeAfter, completeAfter]
  | .shared (.headersComplete info) code =>
    have hm' : (m.onHeadersComplete info code).2 = m' := by
      unfold onCallback at h
      rw [Except.ok.injEq] at h
      rw [h]
    rw [← hm']
    simp only [onHeadersComplete, IncomingMessage.onHeadersComplete_eq]
    split <;> simp [MessageCallback.callback?, upgradeAfter, completeAfter]
  | .shared .messageBegin _ | .shared (.url _) _ | .shared (.headerField _) _
  | .shared (.headerValue _) _ | .shared (.body _) _ | .shared .messageComplete _ =>
    simp only [onCallback] at h
    split at h
    · cases h
    · rename_i hincoming
      cases h
      exact IncomingMessage.onCallback_flags hincoming

/-- The flags of a message behind some callbacks. -/
theorem Message.deliver_flags {m m' : Message P} {cs : List MessageCallback}
    (h : m.deliver cs = .ok m') :
    m'.incoming.upgrade =
        upgradeAfter m.incoming.upgrade (cs.filterMap MessageCallback.callback?) ∧
      m'.incoming.messageComplete =
        completeAfter m.incoming.messageComplete (cs.filterMap MessageCallback.callback?) := by
  induction cs generalizing m with
  | nil =>
    cases h
    simp [upgradeAfter, completeAfter]
  | cons c cs ih =>
    unfold deliver at h
    rw [List.foldlM_cons] at h
    cases hc : m.onCallback c with
    | error e =>
      rw [hc] at h
      cases h
    | ok result =>
      obtain ⟨result, m₁⟩ := result
      rw [hc] at h
      obtain ⟨hupgrade, hcomplete⟩ := onCallback_flags hc
      obtain ⟨hupgrade', hcomplete'⟩ := ih (m := m₁) h
      have hcons : (c :: cs).filterMap MessageCallback.callback? =
          c.callback?.toList ++ cs.filterMap MessageCallback.callback? := by
        cases hcb : c.callback? <;> simp [hcb]
      rw [hupgrade', hcomplete', hupgrade, hcomplete, hcons, completeAfter_append]
      exact ⟨List.foldl_append.symm, rfl⟩

/-! ### Steps -/

variable (R : ResponseParser P)

/-- The response is taken for an upgrade on this data: by the parser at the end of the headers, or, in front
of it, by what the constructor has left in `_upgrade`. -/
def ClientRequest.upgradesOn (s : ClientRequest P) (buf : Str) : Bool :=
  s.response.any fun m => upgradeAfter m.incoming.upgrade (s.callbacks R buf)

/-- The parser takes all of this data. -/
def ClientRequest.parsesAll (s : ClientRequest P) (buf : Str) : Bool :=
  s.response.any fun m => (R.execute (m.incoming.parser.getD R.init) buf).2.2 == buf.length

/-- The condition on a step. No response is taken for an upgrade before it has been received, the parser
reports the end of a response behind its headers, and the end of the file comes behind the headers of a
response without a `Content-Length`. -/
def AcceptsReceived (t : Observed (ClientRequest P)) : ClientLabel → Prop
  | .read buf => t.state.throws R buf = true ∨
      (t.state.upgradesOn R buf = true → Received (t.seen ++ t.state.callbacks R buf)) ∧
        (t.state.parsesAll R buf = true → .messageComplete ∈ t.state.callbacks R buf →
          upgradeAssigned (t.seen ++ t.state.callbacks R buf) = true)
  | .readError e => e = .eof → upgradeAssigned t.seen = true ∧ hasContentLength t.seen = false
  | _ => True

instance (t : Observed (ClientRequest P)) (l : ClientLabel) : Decidable (AcceptsReceived R t l) :=
  match l with
  | .read _ => inferInstanceAs (Decidable (_ = true ∨ (_ → Received _) ∧ (_ → _ → _ = true)))
  | .readError _ => inferInstanceAs (Decidable (_ → _ = true ∧ _ = false))
  | .sent | .notSent _ => .isTrue trivial

/-- What a step is to do: behind it the future is resolved only for a response that has been received, and
the connection's end settles it, so that it is rejected otherwise. -/
def SucceedsReceived (l : ClientLabel) (t' : Observed (ClientRequest P)) : Prop :=
  t'.state.crashed = none →
    (∀ m, t'.state.future = some (.ok m) → Received t'.seen) ∧
      ∀ e, l = .readError e → t'.state.future ≠ none

/-- A request whose future is not settled has a response to work on, which is not complete. -/
structure ClientRequest.Live (s : ClientRequest P) (seen : List Callback) : Prop where
  pending : s.reading = true → s.future = none
  kept : s.future = none → s.kept = true
  response : s.future = none → ∃ m, s.response = some m
  unfinished : s.future = none → .messageComplete ∉ seen ∧
    ∀ m, s.response = some m → m.incoming.messageComplete = false

variable {R}

/-- A read that no exception leaves resolves the future for an upgrade, or for a response that is complete
when all of the data belongs to it; and it leaves a future that is not settled for a response that is not
complete. -/
theorem ClientRequest.onRead_future {s : ClientRequest P} {m : Message P}
    (hresponse : s.response = some m) (hpending : s.future = none)
    (hunfinished : m.incoming.messageComplete = false) {buf : Str}
    (hthrows : s.throws R buf = false) :
    ((∃ m', (s.onRead R buf).future = some (.ok m')) ↔ s.upgradesOn R buf = true ∨
      s.parsesAll R buf = true ∧ .messageComplete ∈ s.callbacks R buf) ∧
    ((s.onRead R buf).future = none → .messageComplete ∉ s.callbacks R buf ∧
      ∀ m', (s.onRead R buf).response = some m' → m'.incoming.messageComplete = false) := by
  unfold throws at hthrows
  unfold onRead upgradesOn parsesAll callbacks
  rw [hresponse] at hthrows ⊢
  dsimp only [Option.any_some, Option.elim_some] at hthrows ⊢
  rw [Message.parse_eq]
  cases hdeliver : m.deliver (m.callbacks R buf) with
  | error e =>
    rw [hdeliver] at hthrows
    cases hthrows
  | ok m₁ =>
    obtain ⟨hupgrade, hcomplete⟩ := Message.deliver_flags hdeliver
    rw [hunfinished, completeAfter, Bool.false_or] at hcomplete
    rw [← hupgrade, ← List.contains_iff_mem, ← hcomplete]
    dsimp only
    split
    · rename_i hrejected
      simp only [Bool.and_eq_true, Bool.not_eq_true', bne_iff_ne, ne_eq] at hrejected
      refine ⟨iff_of_false (by rintro ⟨m', ⟨⟩⟩) ?_, by rintro ⟨⟩⟩
      simp [hrejected]
    · rename_i hparsed
      split
      · rename_i hdone
        refine ⟨iff_of_true ⟨_, rfl⟩ ?_, by rintro ⟨⟩⟩
        cases hup : m₁.incoming.upgrade <;> simp_all
      · rename_i hdone
        simp only [Bool.or_eq_true, not_or, Bool.not_eq_true] at hdone
        refine ⟨iff_of_false ?_ ?_, fun _ => ⟨by simp [hdone.2], ?_⟩⟩
        · rintro ⟨m', h⟩
          cases hpending.symm.trans h
        · simp [hdone.1, hdone.2]
        · rintro m' ⟨⟩
          exact hdone.2

/-- The end of the file resolves the future for a response that is not complete, and other errors reject
it. -/
theorem ClientRequest.onReadError_future {s : ClientRequest P} {m : Message P}
    (hresponse : s.response = some m) (hunfinished : m.incoming.messageComplete = false)
    (e : ReadError) : (s.onReadError e).future ≠ none ∧ (s.onReadError e).reading = false ∧
      (s.onReadError e).crashed = s.crashed ∧
      ((∃ m', (s.onReadError e).future = some (.ok m')) ↔ e = .eof) := by
  unfold onReadError
  rw [hresponse]
  dsimp only
  split
  · rename_i heof
    exact ⟨by rintro ⟨⟩, rfl, rfl, iff_of_true ⟨_, rfl⟩ heof.1⟩
  · rename_i heof
    exact ⟨by rintro ⟨⟩, rfl, rfl,
      iff_of_false (by rintro ⟨m', ⟨⟩⟩) fun h => heof ⟨h, hunfinished⟩⟩

/-- Data that ends no process leaves a request that is not settled with a response. -/
theorem ClientRequest.Live.onRead {s : ClientRequest P} {seen : List Callback} (h : s.Live seen)
    (hreading : s.reading = true) (buf : Str) (hlive : (s.onRead R buf).crashed = none) :
    (s.onRead R buf).Live (seen ++ s.callbacks R buf) := by
  have hpending := h.pending hreading
  obtain ⟨m, hm⟩ := h.response hpending
  obtain ⟨hseen, hunfinished⟩ := h.unfinished hpending
  rcases onRead_cases hm hpending buf with ⟨-, hcrashed⟩ | ⟨hthrows, -, -, -, hnext, hkept⟩
  · rw [hlive] at hcrashed
    cases hcrashed
  · refine ⟨hnext, fun hnone => (hkept hnone).1.trans (h.kept hpending),
      fun hnone => (hkept hnone).2, fun hnone => ?_⟩
    obtain ⟨hnot, hm'⟩ := (onRead_future hm hpending (hunfinished m hm) hthrows).2 hnone
    exact ⟨by simp [hseen, hnot], hm'⟩

/-- A step keeps a live request alive, unless the process ends. -/
theorem ClientRequest.Live.step {s s' : ClientRequest P} {seen : List Callback} {l : ClientLabel}
    (h : s.Live seen) (hstep : clientStep R s l = some s') (hlive : s'.crashed = none) :
    s'.Live (Observed.toldAfter R ⟨s, seen⟩ l) := by
  cases clientStep_cases hstep with
  | sent _ hnone => exact ⟨fun _ => hnone, h.kept, h.response, h.unfinished⟩
  | notSent e hreading =>
    refine ⟨fun hread => ?_, by rintro ⟨⟩, by rintro ⟨⟩, by rintro ⟨⟩⟩
    cases hreading.symm.trans hread
  | read buf hreading =>
    rw [whenKept_eq (h.kept (h.pending hreading))] at hlive ⊢
    exact h.onRead hreading buf hlive
  | readError e hreading =>
    have hpending := h.pending hreading
    obtain ⟨m, hm⟩ := h.response hpending
    rw [whenKept_eq (h.kept hpending)]
    obtain ⟨hsettled, hstopped, -⟩ := onReadError_future hm ((h.unfinished hpending).2 m hm) e
    refine ⟨fun hread => ?_, fun hnone => absurd hnone hsettled, fun hnone => absurd hnone hsettled,
      fun hnone => absurd hnone hsettled⟩
    cases hstopped.symm.trans hread

/-! ### Runs -/

/-- A request in progress, or one that has done what it should. -/
def SucceedsTrue (t : Observed (ClientRequest P)) : Prop :=
  t.state.crashed = none →
    t.state.Live t.seen ∧ ∀ m, t.state.future = some (.ok m) → Received t.seen

/-- A step does what it should exactly when it meets the condition. -/
theorem SucceedsTrue.step_iff {t t' : Observed (ClientRequest P)} {l : ClientLabel}
    (h : SucceedsTrue t) (hstep : observeClient R t l = some t') :
    AcceptsReceived R t l ↔ SucceedsReceived l t' := by
  obtain ⟨s', hs', rfl⟩ := Option.map_eq_some_iff.mp hstep
  cases clientStep_cases hs' with
  | sent => exact iff_of_true trivial fun hlive => ⟨(h hlive).2, by rintro e ⟨⟩⟩
  | notSent e => exact iff_of_true trivial fun _ => ⟨by rintro m ⟨⟩, by rintro e ⟨⟩⟩
  | read buf hreading hlive =>
    obtain ⟨hl, -⟩ := h hlive
    have hpending := hl.pending hreading
    obtain ⟨m, hm⟩ := hl.response hpending
    rw [ClientRequest.whenKept_eq (hl.kept hpending)]
    rcases ClientRequest.onRead_cases hm hpending buf with
      ⟨hthrows, hcrashed⟩ | ⟨hthrows, hcrashed, -⟩
    · refine iff_of_true (.inl hthrows) fun hlive' => ?_
      rw [hlive'] at hcrashed
      cases hcrashed
    · have hfuture := (ClientRequest.onRead_future hm hpending ((hl.unfinished hpending).2 m hm)
        hthrows).1
      constructor
      · rintro (hbad | ⟨hupgrade, hcomplete⟩) -
        · cases hthrows.symm.trans hbad
        · refine ⟨fun m' hm' => ?_, by rintro e ⟨⟩⟩
          rcases hfuture.1 ⟨m', hm'⟩ with hup | ⟨hall, hmem⟩
          · exact hupgrade hup
          · exact ⟨hcomplete hall hmem, fun _ => List.mem_append_right _ hmem⟩
      · intro hsucceeds
        have hreceived := fun m' => (hsucceeds (hcrashed.trans hlive)).1 m'
        refine .inr ⟨fun hup => ?_, fun hall hmem => ?_⟩
        · obtain ⟨m', hm'⟩ := hfuture.2 (.inl hup)
          exact hreceived m' hm'
        · obtain ⟨m', hm'⟩ := hfuture.2 (.inr ⟨hall, hmem⟩)
          exact (hreceived m' hm').1
  | readError e hreading hlive =>
    obtain ⟨hl, -⟩ := h hlive
    have hpending := hl.pending hreading
    obtain ⟨m, hm⟩ := hl.response hpending
    obtain ⟨hseen, hunfinished⟩ := hl.unfinished hpending
    rw [ClientRequest.whenKept_eq (hl.kept hpending)]
    obtain ⟨hsettled, -, hcrashed, hfuture⟩ :=
      ClientRequest.onReadError_future hm (hunfinished m hm) e
    -- nothing has been complete so far, so a response with a length has not been received
    have hreceived : Received t.seen ↔
        upgradeAssigned t.seen = true ∧ hasContentLength t.seen = false := by
      simp only [Received, hseen, imp_false, Bool.not_eq_true]
    constructor
    · intro haccepts _
      exact ⟨fun m' hm' => hreceived.2 (haccepts (hfuture.1 ⟨m', hm'⟩)), fun _ _ => hsettled⟩
    · intro hsucceeds heof
      obtain ⟨m', hm'⟩ := hfuture.2 heof
      exact hreceived.1 ((hsucceeds (hcrashed.trans hlive)).1 m' hm')

/-- A step that meets the condition keeps the request one that does what it should. -/
theorem SucceedsTrue.step {t t' : Observed (ClientRequest P)} {l : ClientLabel}
    (hok : AcceptsReceived R t l) (h : SucceedsTrue t) (hstep : observeClient R t l = some t') :
    SucceedsTrue t' := by
  have hsucceeds := (h.step_iff hstep).1 hok
  obtain ⟨s', hs', rfl⟩ := Option.map_eq_some_iff.mp hstep
  intro hlive
  exact ⟨(h (clientStep_crashed hs' hlive)).1.step hs' hlive, (hsucceeds hlive).1⟩

/-- In a run of a client request every step resolves the future only for a response that has been
received, and the end of the connection rejects it otherwise, if and only if the end of the file comes
behind the headers of a response without a `Content-Length`, and no response is taken for an upgrade
before it has been received. Source: `ClientRequest.cpp:76-131`, `IncomingMessage.cpp:6-8` and `88-126`. -/
theorem client_succeeds_iff (R : ResponseParser P) {uninit : Bool} {ls : List ClientLabel}
    {t : Observed (ClientRequest P)}
    (h : run (observeClient R) (.ofStart (.start uninit)) ls = some t) :
    Along (observeClient R) (AcceptsReceived R) (.ofStart (.start uninit)) ls ↔
      ∀ ls₀ l ls₁ (t₀ t₁ : Observed (ClientRequest P)), ls = ls₀ ++ l :: ls₁ →
        run (observeClient R) (.ofStart (.start uninit)) ls₀ = some t₀ →
        observeClient R t₀ l = some t₁ → SucceedsReceived l t₁ := by
  have hstart : SucceedsTrue (.ofStart (.start uninit) : Observed (ClientRequest P)) := by
    refine fun _ => ⟨⟨fun _ => rfl, fun _ => rfl, fun _ => ⟨_, rfl⟩,
      fun _ => ⟨List.not_mem_nil, ?_⟩⟩, by rintro m ⟨⟩⟩
    rintro m ⟨⟩
    rfl
  exact along_iff (fun _ _ _ hs hstep => hs.step_iff hstep)
    (fun _ _ _ hok hs hstep => hs.step hok hstep) hstart h

end

/-- A response without a body, in one buffer. -/
theorem client_succeeds_noContent :
    ∃ t₀ t₁, run (observeClient noContentParser) (.ofStart (.start false)) [.sent] = some t₀ ∧
      observeClient noContentParser t₀ (.read noContent) = some t₁ ∧ t₁.state.crashed = none ∧
      SucceedsReceived (.read noContent) t₁ := by
  have hsome : (run (observeClient noContentParser) (.ofStart (.start false))
      [.sent, .read noContent]).isSome = true := by decide
  refine ⟨_, _, rfl, rfl, rfl, ?_⟩
  exact (client_succeeds_iff noContentParser (Option.some_get hsome).symm).1 (by decide)
    [.sent] (.read noContent) [] _ _ rfl rfl rfl

/-- A connection that is closed before it has given any byte resolves the future, with the status code
that the constructor sets. -/
theorem client_succeeds_nothing :
    ∃ t m, run (observeClient noContentParser) (.ofStart (.start false)) [.sent, .readError .eof] = some t ∧
      t.state.crashed = none ∧ t.state.future = some (.ok m) ∧ m.statusCode = 16 ∧ t.seen = [] ∧
      ¬ SucceedsReceived (.readError .eof) t := by
  refine ⟨_, _, rfl, rfl, rfl, rfl, rfl, fun hsucceeds => ?_⟩
  exact absurd ((hsucceeds rfl).1 _ rfl) (by decide)

end NodeNative.Http
