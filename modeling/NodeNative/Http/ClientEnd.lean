import NodeNative.Http.HeaderState
import NodeNative.Net.Connect

/-!
# From the connection to the returned future

`ClientRequest::end` connects its socket and returns a future at the end of a chain: behind the
connection the message is written, behind that the read callback is installed, and then the returned
future follows the promise that the read callback settles. `ClientEnd` is a request together with its
socket and the place in the chain that has been reached (`EndStage`); each callback of the chain is a
step, and an error passes the callbacks by. The steps refine those of `ClientRequest` (`endStep_refines`),
where the chain is the label that says whether the message was sent.

The request is released by the read callback alone (`clientStep_release`), so an error that passes it by
leaves the request and its socket. Where the data does not parse the callback reads a capture that it has
destroyed, so a run says something about the clean-up only when each read parses (`ReadsParse`).
-/

namespace NodeNative.Http

open Transition Net

/-- The place in the chain: a connection in progress, the settled future of the connection, the settled
future of the callback that writes, the callback that reads, and the settled future that is returned. -/
inductive EndStage (P : HttpParser)
  | connecting
  | connected (r : Except FutureError Unit)
  | sent (r : Except FutureError Unit)
  | reading
  | settled (r : Except FutureError (Message P))

/-- A request behind `end`; `written` lists what was given to `Stream::write`. -/
structure ClientEnd (P : HttpParser) where
  request : ClientRequest P
  socket : Socket
  stage : EndStage P
  written : List Str := []

/-- The completion of the connection, the callbacks of the chain, where `res` is the result of
`uv_read_start`, the read callback, and the settlement of the returned future. -/
inductive EndLabel
  | completed (status : Int)
  | write
  | readStart (res : Int)
  | read (buf : Str)
  | readError (e : ReadError)
  | follow
deriving Repr

section
variable {P : HttpParser} (R : ResponseParser P) (uv : UvAddr)

/-- The call of `end`, up to its return. `_connected` is false, since no code sets it. Source:
`ClientRequest.cpp:56-76`. -/
def ClientEnd.start (host : String) (port answer : Int) (uninit : Bool) : ClientEnd P :=
  let (called, socket) := Tcp.connect uv ⟨.tcp, false, false, []⟩ host port 4 answer
  { request := .start uninit
    socket
    stage :=
      match called with
      | .pending => .connecting
      | .rejected e => .connected (.error e) }

/-- A step of a request that sends `str`; `none` when the label cannot happen. The future of the write is
not used. Source: `ClientRequest.cpp:61-132`. -/
def endStep (str : Str) (s : ClientEnd P) : EndLabel → Option (ClientEnd P)
  | .completed status =>
    match s.stage with
    | .connecting =>
      let (r, socket) := s.socket.onConnect 0 status
      some { s with socket, stage := .connected r }
    | _ => none
  | .write =>
    match s.stage with
    | .connected (.ok ()) => some { s with stage := .sent (.ok ()), written := s.written ++ [str] }
    | .connected (.error e) => some { s with stage := .sent (.error e) }
    | _ => none
  | .readStart res =>
    match s.stage with
    | .sent (.ok ()) =>
      if res = 0 then
        (clientStep R s.request .sent).map fun request => { s with request, stage := .reading }
      else some { s with stage := .reading }
    | .sent (.error e) =>
      (clientStep R s.request (.notSent e)).map fun request =>
        { s with request, stage := .settled (.error e) }
    | _ => none
  | .read buf =>
    match s.stage with
    | .reading => (clientStep R s.request (.read buf)).map fun request => { s with request }
    | _ => none
  | .readError e =>
    match s.stage with
    | .reading => (clientStep R s.request (.readError e)).map fun request => { s with request }
    | _ => none
  | .follow =>
    match s.stage, s.request.future with
    | .reading, some r => some { s with stage := .settled r }
    | _, _ => none

/-- What a step can do. -/
inductive EndCase (str : Str) (s : ClientEnd P) : EndLabel → ClientEnd P → Prop
  | completed (status : Int) : s.stage = .connecting →
      EndCase str s (.completed status)
        { s with socket := (s.socket.onConnect 0 status).2,
                 stage := .connected (s.socket.onConnect 0 status).1 }
  | write : s.stage = .connected (.ok ()) →
      EndCase str s .write { s with stage := .sent (.ok ()), written := s.written ++ [str] }
  | notConnected (e : FutureError) : s.stage = .connected (.error e) →
      EndCase str s .write { s with stage := .sent (.error e) }
  | readStart (request : ClientRequest P) : s.stage = .sent (.ok ()) →
      clientStep R s.request .sent = some request →
      EndCase str s (.readStart 0) { s with request, stage := .reading }
  | notStarted (res : Int) : s.stage = .sent (.ok ()) → res ≠ 0 →
      EndCase str s (.readStart res) { s with stage := .reading }
  | notSent (res : Int) (e : FutureError) (request : ClientRequest P) : s.stage = .sent (.error e) →
      clientStep R s.request (.notSent e) = some request →
      EndCase str s (.readStart res) { s with request, stage := .settled (.error e) }
  | read (buf : Str) (request : ClientRequest P) : s.stage = .reading →
      clientStep R s.request (.read buf) = some request →
      EndCase str s (.read buf) { s with request }
  | readError (e : ReadError) (request : ClientRequest P) : s.stage = .reading →
      clientStep R s.request (.readError e) = some request →
      EndCase str s (.readError e) { s with request }
  | follow (r : Except FutureError (Message P)) : s.stage = .reading → s.request.future = some r →
      EndCase str s .follow { s with stage := .settled r }

variable {R uv}

/-- Every step is one of `EndCase`. -/
theorem endStep_cases {str : Str} {s s' : ClientEnd P} {l : EndLabel}
    (h : endStep R str s l = some s') : EndCase R str s l s' := by
  cases l with
  | completed status =>
    simp only [endStep] at h
    split at h
    · cases h
      exact .completed status ‹_›
    · cases h
  | write =>
    simp only [endStep] at h
    split at h
    · cases h
      exact .write ‹_›
    · cases h
      exact .notConnected _ ‹_›
    · cases h
  | readStart res =>
    simp only [endStep] at h
    split at h
    · split at h
      · obtain ⟨request, hrequest, rfl⟩ := Option.map_eq_some_iff.1 h
        subst res
        exact .readStart request ‹_› hrequest
      · cases h
        exact .notStarted res ‹_› ‹_›
    · obtain ⟨request, hrequest, rfl⟩ := Option.map_eq_some_iff.1 h
      exact .notSent res _ request ‹_› hrequest
    · cases h
  | read buf =>
    simp only [endStep] at h
    split at h
    · obtain ⟨request, hrequest, rfl⟩ := Option.map_eq_some_iff.1 h
      exact .read buf request ‹_› hrequest
    · cases h
  | readError e =>
    simp only [endStep] at h
    split at h
    · obtain ⟨request, hrequest, rfl⟩ := Option.map_eq_some_iff.1 h
      exact .readError e request ‹_› hrequest
    · cases h
  | follow =>
    simp only [endStep] at h
    split at h
    · cases h
      exact .follow _ ‹_› ‹_›
    · cases h

/-- A step is a step of the request, or leaves it. -/
theorem endStep_refines {str : Str} {s s' : ClientEnd P} {l : EndLabel}
    (h : endStep R str s l = some s') :
    s'.request = s.request ∨ ∃ cl, clientStep R s.request cl = some s'.request := by
  cases endStep_cases h with
  | completed | write | notConnected | notStarted | follow => exact .inl rfl
  | readStart _ _ hr | notSent _ _ _ _ hr | read _ _ _ hr | readError _ _ _ hr => exact .inr ⟨_, hr⟩

/-! ### Release -/

/-- The self-reference is empty, and the socket is closed or being closed. -/
def ClientRequest.Released (s : ClientRequest P) : Prop := s.kept = false ∧ s.closing = true

/-- Two states of a request that the read callback has not told apart. -/
def ClientRequest.SameHold (s s' : ClientRequest P) : Prop :=
  s'.kept = s.kept ∧ s'.closing = s.closing ∧ s'.future = s.future

/-- The read callback on data releases the request, or holds it as it did, -/
theorem ClientRequest.onRead_release (s : ClientRequest P) (buf : Str) :
    (s.onRead R buf).Released ∨ s.SameHold (s.onRead R buf) := by
  unfold onRead
  split
  · exact .inr ⟨rfl, rfl, rfl⟩
  · split
    · exact .inr ⟨rfl, rfl, rfl⟩
    · dsimp only
      split
      · exact .inl ⟨rfl, rfl⟩
      · split
        · exact .inl ⟨rfl, rfl⟩
        · exact .inr ⟨rfl, rfl, rfl⟩

/-- and so does that on an error, -/
theorem ClientRequest.onReadError_release (s : ClientRequest P) (e : ReadError) :
    (s.onReadError e).Released ∨ s.SameHold (s.onReadError e) := by
  unfold onReadError
  split
  · split
    · exact .inr ⟨rfl, rfl, rfl⟩
    · exact .inl ⟨rfl, rfl⟩
  · split <;> exact .inl ⟨rfl, rfl⟩

/-- with the assertion in front of both. -/
theorem ClientRequest.whenKept_release {s s' : ClientRequest P}
    (h : s'.Released ∨ s.SameHold s') :
    (s.whenKept s').Released ∨ s.SameHold (s.whenKept s') := by
  unfold whenKept
  split
  · exact h
  · exact .inr ⟨rfl, rfl, rfl⟩

/-- The read callback settles the promise only where it releases the request. -/
theorem clientStep_release {s s' : ClientRequest P} {l : ClientLabel}
    (h : clientStep R s l = some s') (hl : ∀ e, l ≠ .notSent e) : s'.Released ∨ s.SameHold s' := by
  cases clientStep_cases h with
  | sent => exact .inr ⟨rfl, rfl, rfl⟩
  | notSent e => exact absurd rfl (hl e)
  | read buf => exact ClientRequest.whenKept_release (s.onRead_release buf)
  | readError e => exact ClientRequest.whenKept_release (s.onReadError_release e)

/-- A failed connection leaves the request keeping itself. -/
theorem clientStep_notSent_kept {s s' : ClientRequest P} {e : FutureError}
    (h : clientStep R s (.notSent e) = some s') : s'.kept = s.kept := by
  cases clientStep_cases h with
  | notSent => rfl

/-- The connection attempt succeeds: libuv takes the request, and completes it without an error. -/
def Connects (uv : UvAddr) (host : String) (port answer : Int) (ls : List EndLabel) : Prop :=
  Tcp.request uv host port 4 answer = .ok () ∧ ∀ status, .completed status ∈ ls → status = 0

section
variable {host : String} {port answer : Int} {ls : List EndLabel}

/-- Other labels do not change whether the connection attempt has succeeded. -/
theorem connects_append {l : EndLabel} (hl : ∀ status, l ≠ .completed status) :
    Connects uv host port answer (ls ++ [l]) ↔ Connects uv host port answer ls := by
  have hmem (status : Int) : .completed status ∈ ls ++ [l] ↔ .completed status ∈ ls := by
    rw [List.mem_append, List.mem_singleton, or_iff_left fun h => hl status h.symm]
  simp only [Connects, hmem]

/-- The request before the chain has come to its end. -/
def ClientRequest.Waiting (s : ClientRequest P) : Prop := s.kept = true ∧ s.future = none

/-- What holds of a request behind these labels. -/
def ClientEnd.Inv (uv : UvAddr) (host : String) (port answer : Int) (ls : List EndLabel)
    (s : ClientEnd P) : Prop :=
  match s.stage with
  | .connecting => s.request.Waiting ∧ Tcp.request uv host port 4 answer = .ok () ∧
      ∀ status, .completed status ∉ ls
  | .connected r | .sent r => s.request.Waiting ∧ (r = .ok () ↔ Connects uv host port answer ls)
  | .reading => Connects uv host port answer ls ∧ (s.request.future ≠ none → s.request.Released)
  | .settled _ => s.request.Released ↔ Connects uv host port answer ls

/-- The completion of the connection decides whether the attempt succeeds. -/
theorem connects_completed (hrequest : Tcp.request uv host port 4 answer = .ok ())
    (hls : ∀ status, .completed status ∉ ls) (socket : Socket) (status : Int) :
    (socket.onConnect 0 status).1 = .ok () ↔
      Connects uv host port answer (ls ++ [.completed status]) := by
  have hstatus : Connects uv host port answer (ls ++ [.completed status]) ↔ status = 0 := by
    refine ⟨fun h => h.2 status (List.mem_append_right _ (.head _)), fun h => ⟨hrequest, ?_⟩⟩
    intro st hst
    rcases List.mem_append.1 hst with hst | hst
    · exact absurd hst (hls st)
    · cases List.mem_singleton.1 hst
      exact h
  rw [hstatus, Socket.onConnect]
  dsimp only
  split
  · exact iff_of_true rfl ‹_›
  · exact iff_of_false (by rintro ⟨⟩) ‹_›

/-- A step of the read callback keeps what holds while the returned future follows the promise. -/
theorem clientStep_reading {s s' : ClientRequest P} {l : ClientLabel}
    (h : clientStep R s l = some s') (hl : ∀ e, l ≠ .notSent e)
    (hs : s.future ≠ none → s.Released) : s'.future ≠ none → s'.Released := by
  intro hfuture
  rcases clientStep_release h hl with hreleased | ⟨hkept, hclosing, hsame⟩
  · exact hreleased
  · rw [hsame] at hfuture
    obtain ⟨hk, hc⟩ := hs hfuture
    exact ⟨hkept.trans hk, hclosing.trans hc⟩

/-- A call of the read callback keeps what holds. -/
theorem ClientEnd.Inv.reads {s : ClientEnd P} {request : ClientRequest P} {l : EndLabel}
    {cl : ClientLabel} (h : s.Inv uv host port answer ls) (hstage : s.stage = .reading)
    (hrequest : clientStep R s.request cl = some request) (hcl : ∀ e, cl ≠ .notSent e)
    (hl : ∀ status, l ≠ .completed status) :
    ({ s with request } : ClientEnd P).Inv uv host port answer (ls ++ [l]) := by
  unfold ClientEnd.Inv at h ⊢
  dsimp only
  rw [hstage] at h ⊢
  exact ⟨(connects_append hl).2 h.1, clientStep_reading hrequest hcl h.2⟩

/-- What a step keeps. -/
theorem ClientEnd.Inv.step {str : Str} {s s' : ClientEnd P} {l : EndLabel}
    (h : s.Inv uv host port answer ls) (hstep : endStep R str s l = some s') :
    s'.Inv uv host port answer (ls ++ [l]) := by
  have hinv := h
  unfold ClientEnd.Inv at h
  cases endStep_cases hstep with
  | completed status hstage =>
    rw [hstage] at h
    obtain ⟨hwaiting, hrequest, hls⟩ := h
    exact ⟨hwaiting, connects_completed hrequest hls s.socket status⟩
  | write hstage =>
    rw [hstage] at h
    exact ⟨h.1, h.2.trans (connects_append (by rintro _ ⟨⟩)).symm⟩
  | notConnected e hstage =>
    rw [hstage] at h
    exact ⟨h.1, h.2.trans (connects_append (by rintro _ ⟨⟩)).symm⟩
  | readStart request hstage hrequest =>
    rw [hstage] at h
    obtain ⟨⟨-, hfuture⟩, hiff⟩ := h
    refine ⟨(connects_append (by rintro _ ⟨⟩)).2 (hiff.1 rfl), ?_⟩
    exact clientStep_reading hrequest (by rintro _ ⟨⟩) fun hne => absurd hfuture hne
  | notStarted res hstage _ =>
    rw [hstage] at h
    obtain ⟨⟨-, hfuture⟩, hiff⟩ := h
    exact ⟨(connects_append (by rintro _ ⟨⟩)).2 (hiff.1 rfl), fun hne => absurd hfuture hne⟩
  | notSent res e request hstage hrequest =>
    rw [hstage] at h
    obtain ⟨⟨hkept, -⟩, hiff⟩ := h
    refine iff_of_false (fun hreleased => ?_) fun hconnects => ?_
    · have hnot := hreleased.1
      rw [clientStep_notSent_kept hrequest, hkept] at hnot
      cases hnot
    · cases hiff.2 ((connects_append (by rintro _ ⟨⟩)).1 hconnects)
  | read buf request hstage hrequest =>
    exact hinv.reads hstage hrequest (by rintro _ ⟨⟩) (by rintro _ ⟨⟩)
  | readError e request hstage hrequest =>
    exact hinv.reads hstage hrequest (by rintro _ ⟨⟩) (by rintro _ ⟨⟩)
  | follow r hstage hfuture =>
    rw [hstage] at h
    refine iff_of_true (h.2 ?_) ((connects_append (by rintro _ ⟨⟩)).2 h.1)
    rw [hfuture]
    rintro ⟨⟩

/-- It holds when `end` returns. -/
theorem ClientEnd.inv_start (uninit : Bool) :
    (ClientEnd.start uv host port answer uninit : ClientEnd P).Inv uv host port answer [] := by
  have hcalled := Socket.request_idle .tcp (Tcp.request uv host port 4 answer)
  unfold ClientEnd.start Tcp.connect
  rw [hcalled]
  rcases hrequest : Tcp.request uv host port 4 answer with e | u
  · refine ⟨⟨rfl, rfl⟩, iff_of_false (by rintro ⟨⟩) fun h => ?_⟩
    cases hrequest.symm.trans h.1
  · exact ⟨⟨rfl, rfl⟩, hrequest, fun _ => List.not_mem_nil⟩

/-! ### The capture that is read behind `readStop` -/

/-- The read callback takes the data for an invalid response: the parser stops before its end, and there
is no upgrade. Source: `ClientRequest.cpp:105-107`. -/
def ClientRequest.invalid (R : ResponseParser P) (s : ClientRequest P) (buf : Str) : Bool :=
  s.response.any fun response =>
    match response.parse R buf with
    | .error _ => false
    | .ok (parsed, response) => !response.incoming.upgrade && parsed != buf.length

/-- A piece of data is not taken for an invalid response. -/
def ReadsParse (R : ResponseParser P) (s : ClientEnd P) : EndLabel → Prop
  | .read buf => s.request.invalid R buf = false
  | _ => True

instance (s : ClientEnd P) (l : EndLabel) : Decidable (ReadsParse R s l) :=
  match l with
  | .read _ => inferInstanceAs (Decidable (_ = false))
  | .completed _ | .write | .readStart _ | .readError _ | .follow => .isTrue trivial

/-- A request that reads waits for its promise, and one that waits keeps itself. -/
structure ClientRequest.KeptWhileReading (s : ClientRequest P) : Prop where
  waits : s.reading = true → s.future = none
  keeps : s.future = none → s.kept = true

/-- A finished request does not read. -/
theorem ClientRequest.finish_keptWhileReading {s : ClientRequest P}
    {r : Except FutureError (Message P)} : (s.finish r).KeptWhileReading :=
  ⟨(fun h => nomatch h), fun h => nomatch h⟩

/-- The read callback finishes the request on an error, or ends the process. -/
theorem ClientRequest.onReadError_cases (s : ClientRequest P) (e : ReadError) :
    (∃ r, s.onReadError e = s.finish r) ∨ ∃ c, s.onReadError e = { s with crashed := some c } := by
  unfold onReadError
  split
  · split
    · exact .inr ⟨_, rfl⟩
    · exact .inl ⟨_, rfl⟩
  · split <;> exact .inl ⟨_, rfl⟩

/-- What a step of a request keeps. -/
theorem ClientRequest.KeptWhileReading.step {s s' : ClientRequest P} {l : ClientLabel}
    (h : s.KeptWhileReading) (hstep : clientStep R s l = some s') : s'.KeptWhileReading := by
  cases clientStep_cases hstep with
  | sent _ hnone => exact ⟨fun _ => hnone, h.keeps⟩
  | notSent e hreading =>
    refine ⟨fun hread => ?_, fun hnone => nomatch hnone⟩
    rw [hreading] at hread
    cases hread
  | read buf hreading =>
    rw [whenKept_eq (h.keeps (h.waits hreading))]
    unfold onRead
    split
    · exact ⟨h.waits, h.keeps⟩
    · split
      · exact ⟨h.waits, h.keeps⟩
      · dsimp only
        split
        · exact ⟨(fun h => nomatch h), fun h => nomatch h⟩
        · split
          · exact ⟨(fun h => nomatch h), fun h => nomatch h⟩
          · exact ⟨h.waits, h.keeps⟩
  | readError e hreading =>
    rw [whenKept_eq (h.keeps (h.waits hreading))]
    rcases s.onReadError_cases e with ⟨r, hr⟩ | ⟨c, hc⟩
    · rw [hr]
      exact finish_keptWhileReading
    · rw [hc]
      exact ⟨h.waits, h.keeps⟩

/-- The capture is read behind `readStop` on invalid data alone. -/
theorem ClientRequest.onRead_dangling (s : ClientRequest P) (buf : Str) :
    (s.onRead R buf).dangling = (s.dangling || s.invalid R buf) := by
  unfold onRead invalid
  cases s.response with
  | none => simp
  | some response =>
    dsimp only [Option.any_some]
    cases response.parse R buf with
    | error e => simp
    | ok r =>
      dsimp only
      split
      · rename_i hinvalid
        rw [hinvalid, Bool.or_true]
      · rename_i hvalid
        rw [Bool.eq_false_iff.2 hvalid, Bool.or_false]
        split <;> rfl

/-- The steps of a request but for a read leave the capture alone. -/
theorem clientStep_dangling {s s' : ClientRequest P} {l : ClientLabel}
    (h : clientStep R s l = some s') (hl : ∀ buf, l ≠ .read buf) : s'.dangling = s.dangling := by
  cases clientStep_cases h with
  | sent | notSent => rfl
  | read buf => exact absurd rfl (hl buf)
  | readError e =>
    unfold ClientRequest.whenKept
    split
    · rcases s.onReadError_cases e with ⟨r, hr⟩ | ⟨c, hc⟩
      · rw [hr]
        rfl
      · rw [hc]
    · rfl

/-- A step leaves a request that reads keeping itself. -/
theorem endStep_keptWhileReading {str : Str} {s s' : ClientEnd P} {l : EndLabel}
    (h : s.request.KeptWhileReading) (hstep : endStep R str s l = some s') :
    s'.request.KeptWhileReading := by
  rcases endStep_refines hstep with heq | ⟨cl, hcl⟩
  · rw [heq]
    exact h
  · exact h.step hcl

/-- A step reads the destroyed capture exactly when it reads invalid data. -/
theorem endStep_dangling {str : Str} {s s' : ClientEnd P} {l : EndLabel}
    (h : s.request.KeptWhileReading) (hstep : endStep R str s l = some s') :
    s'.request.dangling = true ↔ s.request.dangling = true ∨ ¬ ReadsParse R s l := by
  have hother (hsame : s'.request.dangling = s.request.dangling) (hok : ReadsParse R s l) :
      s'.request.dangling = true ↔ s.request.dangling = true ∨ ¬ ReadsParse R s l := by
    rw [hsame, or_iff_left (not_not_intro hok)]
  cases endStep_cases hstep with
  | completed | write | notConnected | notStarted | follow => exact hother rfl trivial
  | readStart _ _ hr | notSent _ _ _ _ hr | readError _ _ _ hr =>
    exact hother (clientStep_dangling hr (by rintro _ ⟨⟩)) trivial
  | read buf request _ hr =>
    cases clientStep_cases hr with
    | read _ hreading =>
      dsimp only
      rw [ClientRequest.whenKept_eq (h.keeps (h.waits hreading)), ClientRequest.onRead_dangling,
        Bool.or_eq_true, ReadsParse, Bool.not_eq_false]

/-- The capture is never read behind `readStop` exactly when each read parses. -/
theorem client_not_dangling_iff {str : Str} {uninit : Bool} {s : ClientEnd P}
    (h : run (endStep R str) (ClientEnd.start uv host port answer uninit) ls = some s) :
    s.request.dangling = false ↔
      Along (endStep R str) (ReadsParse R) (ClientEnd.start uv host port answer uninit) ls := by
  have hstart : (ClientEnd.start uv host port answer uninit : ClientEnd P).request.KeptWhileReading :=
    ⟨(fun h => nomatch h), fun _ => rfl⟩
  have hflag (s : ClientEnd P) (l : EndLabel) (s' : ClientEnd P) (hs : s.request.KeptWhileReading)
      (hstep : endStep R str s l = some s') :
      s'.request.dangling = true ↔ s.request.dangling = true ∨ ¬ ReadsParse R s l :=
    endStep_dangling hs hstep
  have hiff := not_flag_iff_along hflag
    (fun _ _ _ hs hstep => endStep_keptWhileReading hs hstep) hstart h
  rw [Bool.not_eq_true] at hiff
  exact hiff.trans (and_iff_right (by rintro ⟨⟩))

/-- When the future of `end` is settled, the request has released itself and its socket, and has done so
without reading what it had destroyed, exactly when the connection attempt has succeeded and no data was
taken for an invalid response. Source: `ClientRequest.cpp:56-132`. -/
theorem client_releases_iff {str : Str} {uninit : Bool} {s : ClientEnd P}
    {r : Except FutureError (Message P)}
    (h : run (endStep R str) (ClientEnd.start uv host port answer uninit) ls = some s)
    (hsettled : s.stage = .settled r) :
    (s.request.Released ∧ s.request.dangling = false) ↔ Connects uv host port answer ls ∧
      Along (endStep R str) (ReadsParse R) (ClientEnd.start uv host port answer uninit) ls := by
  have hinv := run_history (fun _ _ _ _ hs hstep => ClientEnd.Inv.step hs hstep)
    (ClientEnd.inv_start uninit) h
  unfold ClientEnd.Inv at hinv
  rw [hsettled] at hinv
  exact and_congr hinv (client_not_dangling_iff h)

end

end

/-- A request that is answered by `204 No Content`. -/
theorem client_releases_noContent :
    ∃ s, run (endStep noContentParser []) (ClientEnd.start anyAddr "127.0.0.1" 80 0 false)
      [.completed 0, .write, .readStart 0, .read noContent, .follow] = some s ∧
      s.request.Released ∧ s.request.dangling = false := by
  obtain ⟨s, r, hrun, hsettled⟩ : ∃ s r, run (endStep noContentParser [])
      (ClientEnd.start anyAddr "127.0.0.1" 80 0 false)
      [.completed 0, .write, .readStart 0, .read noContent, .follow] = some s ∧
      s.stage = .settled r := ⟨_, _, rfl, rfl⟩
  have hstatus (status : Int) (hmem : .completed status ∈ [EndLabel.completed 0, .write,
      .readStart 0, .read noContent, .follow]) : status = 0 := by
    rcases List.mem_cons.1 hmem with h | hmem
    · cases h
      rfl
    · simp at hmem
  exact ⟨s, hrun, (client_releases_iff hrun hsettled).2 ⟨⟨rfl, hstatus⟩, by decide⟩⟩

/-- A connection that is refused settles the future, and leaves the request and its socket. -/
theorem client_not_releases_refused :
    ∃ s e, run (endStep noContentParser []) (ClientEnd.start anyAddr "127.0.0.1" 80 0 false)
      [.completed (-111), .write, .readStart 0] = some s ∧ s.stage = .settled (.error e) ∧
      s.request.kept = true ∧ s.request.closing = false :=
  ⟨_, _, rfl, rfl, rfl, rfl⟩

end NodeNative.Http
