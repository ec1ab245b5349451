import NodeNative.Lib.Transition
import NodeNative.Http.Response

/-!
# Server connections

One `ServerConnection` with everything that happens to it: what its socket reads, the requests it
processes, what their handlers do, and the completion of its writes. `processRequest` starts a chain
of futures, `ServerPlugin::execute` with the 404 and 500 callbacks behind it; a `Chain` is where
that chain stands. A step of the system (`Label`) is one call of libuv or of the loop into the
connection, or one thing that a handler does; a handler on the stack lets nothing else happen.

A handler ends the response that `getResponse()` gives at that moment, once or not at all, before or
after it has returned. What it does otherwise is free: its future may resolve, be rejected or stay
pending, or be the future of `ServerResponse::end`.

The matching of `ServerPlugin::execute` is the parameter `Env.route`. A dispatch in which
`uri.extract` throws ends the process at that point and is left out.
-/

namespace NodeNative.Http

/-! ### The chain of a request -/

/-- A callback that matches a request: a handler, or a plugin with its own matching callbacks. -/
inductive Entry
  | handler
  | plugin (entries : List Entry)

/-- Where a chain stands. -/
inductive Phase
  /-- a handler is on the stack; `inline` when it was called by `execute` itself -/
  | running (inline : Bool)
  /-- the future that the handler returned is pending -/
  | waiting
  /-- the handler returned the future of `end`, whose write has this number -/
  | waitingEnd (w : Nat)
  /-- the last future is resolved and its `then` callback is due -/
  | ready
  /-- the last future is rejected and the error callback is due -/
  | failed (e : FutureError)
  | finished
deriving DecidableEq, Repr

/-- A chain of `processRequest`: the callbacks that are left, and for each handler called so far
the write of its `end` if it has ended a response. -/
structure Chain where
  todo : List Entry
  phase : Phase
  calls : List (Option Nat)

/-- The first call of a callback: a plugin calls the first of its own matches at once and leaves the
others; without matches its future is resolved. Source: `ServerPlugin.cpp:60`. -/
def Entry.enter : Entry → List Entry → Bool × List Entry
  | .handler, todo => (true, todo)
  | .plugin [], todo => (false, todo)
  | .plugin (e :: es), todo => e.enter (es ++ todo)

/-- Source: `CallbackDataBase::execute` on the next callback of the chain. -/
def Chain.execute (c : Chain) (inline : Bool) (e : Entry) (todo : List Entry) : Chain :=
  match e.enter todo with
  | (true, todo) => { todo, phase := .running inline, calls := c.calls ++ [none] }
  | (false, todo) => { todo, phase := .ready, calls := c.calls }

/-- Source: `ServerPlugin.cpp:60` `ServerPlugin::execute`, up to the return of its first callback:
the others run in `then` callbacks. -/
def Chain.start : List Entry → Chain
  | [] => ⟨[], .ready, []⟩
  | e :: es => Chain.execute ⟨[], .ready, []⟩ true e es

/-- A handler of the chain is on the stack. -/
def Chain.isRunning (c : Chain) : Bool :=
  match c.phase with
  | .running _ => true
  | _ => false

/-! ### The connection -/

/-- The request that a handler sees. -/
structure View where
  url : Str
  headers : Str → Option Str
  body : Str
  method : Nat
  httpMajor : Nat
  httpMinor : Nat

/-- What the accessors of a request return. -/
def IncomingMessage.view {P : HttpParser} (m : IncomingMessage P) : View :=
  ⟨m.url.buf, m.headers.getHeader, m.body, m.method, m.httpMajor, m.httpMinor⟩

inductive WriteStatus
  | pending | done | failed
deriving DecidableEq, Repr

/-- What ended the process: an exception of a parser callback, of a handler, or of a response that
is ended, or a null `_response`. -/
inductive Crash
  | read (e : Exn)
  | handler (e : Exn)
  | response (e : Exn)
  | nullResponse
deriving DecidableEq, Repr

/-- Source: `ServerConnection.hpp:21`. `created` counts the requests created so far, `closed` says
that the socket is closing and `crashed` why the process ended, if it did; a write is
an `end`, and `writes` its state. `received`, `processed` and `wire` are the history: what was read,
the request at each call of `processRequest`, and what was given to the socket by the chain of
which call (none for the answer to an invalid read). -/
structure Connection (P : HttpParser) where
  request : Option (IncomingMessage P)
  created : Nat
  response : Option ServerResponse
  closed : Bool
  crashed : Option Crash
  chains : List Chain
  writes : List WriteStatus
  received : Str
  processed : List View
  wire : List (Option Nat × Packet)

/-- `uninit` is the memory that the constructor of a request leaves as it is, and `route` the
callbacks that match a path and a method, in the order of `ServerPlugin::execute`. -/
structure Env where
  uninit : Nat → Bool
  route : Str → Str → List Entry

/-- What a handler makes of its response: the status and the headers it sets, and its text. -/
structure Reply where
  statusCode : Option Nat
  headers : List (Str × Str)
  data : Str
deriving Repr

/-- How a handler returns. -/
inductive HandlerReturn
  | resolved
  | pending
  | endFuture
  | rejected (e : FutureError)
  | throws (e : Exn)
deriving Repr

/-- A read callback with a negative length. -/
inductive ReadError
  | eof
  | connReset
  | other (name : Str)
deriving DecidableEq, Repr

inductive Label
  | read (buf : Str)
  | readError (e : ReadError)
  | reply (c i : Nat) (reply : Reply)
  | handlerReturn (c : Nat) (r : HandlerReturn)
  | settle (c : Nat) (e : Option FutureError)
  | settleEnd (c : Nat) (e : FutureError)
  | next (c : Nat)
  | error (c : Nat)
  | written (w : Nat) (ok : Bool)
deriving Repr

section
variable {P : HttpParser} (env : Env)

/-- Source: `ServerConnection.cpp:11`, `ServerConnection.cpp:77`: the socket is open and the request
is created before the first read. -/
def Connection.start : Connection P where
  request := some (.new (env.uninit 0))
  created := 1
  response := none
  closed := false
  crashed := none
  chains := []
  writes := []
  received := []
  processed := []
  wire := []

/-- The request that `getRequest()` returns. -/
def Connection.currentRequest (s : Connection P) : IncomingMessage P :=
  s.request.getD (.new (env.uninit s.created))

/-- Source: `ServerConnection.cpp:38` `ServerConnection::getRequest`, its effect. -/
def Connection.getRequest (s : Connection P) : Connection P :=
  match s.request with
  | some _ => s
  | none => { s with request := some (.new (env.uninit s.created)), created := s.created + 1 }

/-- The response that `getResponse()` returns. -/
def Connection.currentResponse (s : Connection P) : ServerResponse :=
  s.response.getD (.new (s.currentRequest env))

/-- Source: `ServerConnection.cpp:46` `ServerConnection::getResponse`, its effect. The constructor
of the response asks for the request. -/
def Connection.getResponse (s : Connection P) : Connection P :=
  match s.response with
  | some _ => s
  | none => { s.getRequest env with response := some (s.currentResponse env) }

/-- Source: `ServerConnection.cpp:61` `ServerConnection::close`. -/
def Connection.close (s : Connection P) : Connection P := { s with closed := true }

/-- The headers and the status that a handler sets. -/
def Reply.prepare (reply : Reply) (r : ServerResponse) : ServerResponse :=
  reply.headers.foldl (fun r e => r.setHeader e.1 e.2) (reply.statusCode.elim r r.setStatus)

/-- `getResponse()`, what is set on it, and `end(data)`: its text is a write of the socket. An
assertion that fails leaves the callback it is in. Source: `ServerResponse.cpp:41`. -/
def Connection.sendEnd (s : Connection P) (who : Option Nat) (reply : Reply) : Connection P :=
  let res := reply.prepare (s.currentResponse env)
  let s := s.getResponse env
  match res.endData reply.data with
  | .error e => { s with response := some res, crashed := some (.response e) }
  | .ok (res, packet) =>
    { s with
      response := some res
      writes := s.writes ++ [.pending]
      wire := s.wire ++ [(who, packet)] }

/-- Source: `ServerConnection.cpp:124` `ServerConnection::processRequest`. -/
def Connection.processRequest (s : Connection P) : Connection P :=
  let req := s.currentRequest env
  { s.getRequest env with
    processed := s.processed ++ [req.view]
    chains := s.chains ++ [Chain.start (env.route req.url.path (P.methodStr req.method))] }

/-- The read callback on data. Source: `ServerConnection.cpp:107-121`. -/
def Connection.onRead (s : Connection P) (buf : Str) : Connection P :=
  let s₀ := { s.getRequest env with received := s.received ++ buf }
  match (s.currentRequest env).parse buf with
  | .error (e, req) => { s₀ with request := some req, crashed := some (.read e) }
  | .ok (parsed, req) =>
    let s₁ := { s₀ with request := some req }
    let s₂ := if !req.upgrade && parsed != buf.length then s₁.close else s₁
    if req.upgrade || req.messageComplete then s₂.processRequest env else s₂

/-- The read callback on an error. Source: `ServerConnection.cpp:83-105`. -/
def Connection.onReadError (s : Connection P) : ReadError → Connection P
  | .eof => s
  | .connReset => s.close
  | .other name =>
    if (s.currentResponse env).sent then s.getResponse env
    else s.sendEnd env none ⟨some 500, [], "Invalid request format.Name: ".toList ++ name⟩

/-- The `then` callback behind `execute`. Source: `ServerConnection.cpp:133`. -/
def Connection.notFound (s : Connection P) (c : Nat) : Connection P :=
  if (s.currentResponse env).sent then s.getResponse env
  else s.sendEnd env (some c) ⟨some 404, [], []⟩

/-- The error callback behind `execute`. Source: `ServerConnection.cpp:141`. -/
def Connection.internalError (s : Connection P) (c : Nat) (e : FutureError) : Connection P :=
  if (s.currentResponse env).sent then s.getResponse env
  else s.sendEnd env (some c) ⟨some 500, [], e.message.toList⟩

/-- The callback that `ServerResponse::endData` registers on its write. Source:
`ServerResponse.cpp:45-61`. Without a response it would dereference a null pointer. -/
def Connection.onWritten (s : Connection P) (w : Nat) : Connection P :=
  match s.response with
  | none => { s with crashed := some .nullResponse }
  | some res =>
    let s := { s with writes := s.writes.set w .done }
    if res.shouldKeepAlive then { s with request := none, response := none } else s.close

/-- Nothing is on the stack. -/
def Connection.idle (s : Connection P) : Bool := s.crashed.isNone && !s.chains.any Chain.isRunning

/-- The handler number `i` of the chain `c` can act: it is on the stack, or nothing is. -/
def Connection.canAct (s : Connection P) (c i : Nat) : Bool :=
  s.crashed.isNone &&
    match s.chains.findIdx? Chain.isRunning with
    | none => true
    | some c' => c' == c && (s.chains[c]?.any fun ch => ch.calls.length == i + 1)

def Connection.setChain (s : Connection P) (c : Nat) (chain : Chain) : Connection P :=
  { s with chains := s.chains.set c chain }

/-- The handler on the stack returns. A `FutureError` of a handler that runs in a `then` callback
rejects its future; any other exception leaves the callback of libuv. -/
def Connection.onReturn (s : Connection P) (c : Nat) (chain : Chain) (inline : Bool) :
    HandlerReturn → Option (Connection P)
  | .resolved => some (s.setChain c { chain with phase := .ready })
  | .pending => some (s.setChain c { chain with phase := .waiting })
  | .rejected e => some (s.setChain c { chain with phase := .failed e })
  | .endFuture =>
    match chain.calls.getLast? with
    | some (some w) => some (s.setChain c { chain with phase := .waitingEnd w })
    | _ => none
  | .throws (.futureError e) =>
    if inline then some { s with crashed := some (.handler (.futureError e)) }
    else some (s.setChain c { chain with phase := .failed e })
  | .throws e => some { s with crashed := some (.handler e) }

/-- The next callback of a chain whose last future is resolved: the callbacks that are left run
unless the response is sent, and the 404 callback comes last. Source: `ServerPlugin.cpp:91-96`. -/
def Connection.onNext (s : Connection P) (c : Nat) (chain : Chain) : Connection P :=
  match chain.todo with
  | [] => (s.notFound env c).setChain c { chain with phase := .finished }
  | e :: todo =>
    let s' := s.getResponse env
    if (s.currentResponse env).sent then s'.setChain c { chain with todo, phase := .ready }
    else s'.setChain c (chain.execute false e todo)

/-- A step of the connection; `none` when the label cannot happen. -/
def step (s : Connection P) : Label → Option (Connection P)
  | .read buf => if s.idle && !s.closed then some (s.onRead env buf) else none
  | .readError e => if s.idle && !s.closed then some (s.onReadError env e) else none
  | .reply c i reply =>
    match s.chains[c]? with
    | some chain =>
      if s.canAct c i && chain.calls[i]? == some none then
        some ((s.sendEnd env (some c) reply).setChain c
          { chain with calls := chain.calls.set i (some s.writes.length) })
      else none
    | none => none
  | .handlerReturn c r =>
    match s.crashed, s.chains[c]? with
    | none, some chain =>
      match chain.phase with
      | .running inline => s.onReturn c chain inline r
      | _ => none
    | _, _ => none
  | .settle c e =>
    match s.idle, s.chains[c]? with
    | true, some chain =>
      if chain.phase = .waiting then
        some (s.setChain c { chain with phase := e.elim .ready .failed })
      else none
    | _, _ => none
  | .settleEnd c e =>
    match s.idle, s.chains[c]? with
    | true, some chain =>
      match chain.phase with
      | .waitingEnd w =>
        match s.writes[w]? with
        | some .done => some (s.setChain c { chain with phase := .ready })
        | some .failed => some (s.setChain c { chain with phase := .failed e })
        | _ => none
      | _ => none
    | _, _ => none
  | .next c =>
    match s.idle, s.chains[c]? with
    | true, some chain => if chain.phase = .ready then some (s.onNext env c chain) else none
    | _, _ => none
  | .error c =>
    match s.idle, s.chains[c]? with
    | true, some chain =>
      match chain.phase with
      | .failed e => some ((s.internalError env c e).setChain c { chain with phase := .finished })
      | _ => none
    | _, _ => none
  | .written w ok =>
    if s.idle && s.writes[w]? == some .pending then
      some (if ok then s.onWritten w else { s with writes := s.writes.set w .failed })
    else none

/-! ### The steps, one by one -/

/-- The steps of a connection with what each of them requires. -/
inductive Step (s : Connection P) : Label → Connection P → Prop
  | read (buf : Str) (hidle : s.idle = true) (hopen : s.closed = false) :
    Step s (.read buf) (s.onRead env buf)
  | readError (e : ReadError) (hidle : s.idle = true) (hopen : s.closed = false) :
    Step s (.readError e) (s.onReadError env e)
  | reply {c i : Nat} {chain : Chain} (reply : Reply) (hchain : s.chains[c]? = some chain)
      (hact : s.canAct c i = true) (hcall : chain.calls[i]? = some none) :
    Step s (.reply c i reply) ((s.sendEnd env (some c) reply).setChain c
      { chain with calls := chain.calls.set i (some s.writes.length) })
  | returns {c : Nat} {chain : Chain} {inline : Bool} {r : HandlerReturn} {phase : Phase}
      (hcrash : s.crashed = none) (hchain : s.chains[c]? = some chain)
      (hphase : chain.phase = .running inline)
      (hnew : phase = .ready ∨ phase = .waiting ∨ (∃ e, phase = .failed e) ∨
        ∃ w, phase = .waitingEnd w ∧ chain.calls.getLast? = some (some w)) :
    Step s (.handlerReturn c r) (s.setChain c { chain with phase })
  | throws {c : Nat} {chain : Chain} {inline : Bool} {r : HandlerReturn} (e : Exn)
      (hcrash : s.crashed = none) (hchain : s.chains[c]? = some chain)
      (hphase : chain.phase = .running inline) (hr : r = .throws e) :
    Step s (.handlerReturn c r) { s with crashed := some (.handler e) }
  | settle {c : Nat} {chain : Chain} (e : Option FutureError) (hidle : s.idle = true)
      (hchain : s.chains[c]? = some chain) (hphase : chain.phase = .waiting) :
    Step s (.settle c e) (s.setChain c { chain with phase := e.elim .ready .failed })
  | settleEnd {c w : Nat} {chain : Chain} {phase : Phase} (e : FutureError) (hidle : s.idle = true)
      (hchain : s.chains[c]? = some chain) (hphase : chain.phase = .waitingEnd w)
      (hnew : phase = .ready ∨ phase = .failed e) :
    Step s (.settleEnd c e) (s.setChain c { chain with phase })
  | next {c : Nat} {chain : Chain} (hidle : s.idle = true) (hchain : s.chains[c]? = some chain)
      (hphase : chain.phase = .ready) : Step s (.next c) (s.onNext env c chain)
  | error {c : Nat} {chain : Chain} {e : FutureError} (hidle : s.idle = true)
      (hchain : s.chains[c]? = some chain) (hphase : chain.phase = .failed e) :
    Step s (.error c) ((s.internalError env c e).setChain c { chain with phase := .finished })
  | written (w : Nat) (hidle : s.idle = true) (hpending : s.writes[w]? = some .pending) :
    Step s (.written w true) (s.onWritten w)
  | writeFailed (w : Nat) (hidle : s.idle = true) (hpending : s.writes[w]? = some .pending) :
    Step s (.written w false) { s with writes := s.writes.set w .failed }

/-- What the return of a handler leads to. -/
theorem Connection.onReturn_cases {s s' : Connection P} {c : Nat} {chain : Chain} {inline : Bool}
    {r : HandlerReturn} (h : s.onReturn c chain inline r = some s') :
    (∃ phase, s' = s.setChain c { chain with phase } ∧
      (phase = .ready ∨ phase = .waiting ∨ (∃ e, phase = .failed e) ∨
        ∃ w, phase = .waitingEnd w ∧ chain.calls.getLast? = some (some w))) ∨
    ∃ e, r = .throws e ∧ s' = { s with crashed := some (.handler e) } := by
  cases r with
  | resolved => cases h; exact .inl ⟨_, rfl, .inl rfl⟩
  | pending => cases h; exact .inl ⟨_, rfl, .inr (.inl rfl)⟩
  | rejected e => cases h; exact .inl ⟨_, rfl, .inr (.inr (.inl ⟨e, rfl⟩))⟩
  | endFuture =>
    simp only [onReturn] at h
    split at h
    · rename_i w hw
      cases h
      exact .inl ⟨_, rfl, .inr (.inr (.inr ⟨w, rfl, hw⟩))⟩
    · cases h
  | throws e =>
    cases e with
    | futureError e =>
      simp only [onReturn] at h
      split at h
      · cases h; exact .inr ⟨_, rfl, rfl⟩
      · cases h; exact .inl ⟨_, rfl, .inr (.inr (.inl ⟨e, rfl⟩))⟩
    | exception m => cases h; exact .inr ⟨_, rfl, rfl⟩
    | runtimeError m => cases h; exact .inr ⟨_, rfl, rfl⟩

/-- Every step is one of `Step`. -/
theorem step_cases {s s' : Connection P} {l : Label} (h : step env s l = some s') :
    Step env s l s' := by
  cases l with
  | read buf =>
    simp only [step, Option.ite_none_right_eq_some, Bool.and_eq_true, Bool.not_eq_true'] at h
    obtain ⟨⟨hidle, hopen⟩, h⟩ := h
    cases h
    exact .read buf hidle hopen
  | readError e =>
    simp only [step, Option.ite_none_right_eq_some, Bool.and_eq_true, Bool.not_eq_true'] at h
    obtain ⟨⟨hidle, hopen⟩, h⟩ := h
    cases h
    exact .readError e hidle hopen
  | reply c i reply =>
    simp only [step] at h
    split at h
    · rename_i chain hchain
      simp only [Option.ite_none_right_eq_some, Bool.and_eq_true, beq_iff_eq] at h
      obtain ⟨⟨hact, hcall⟩, h⟩ := h
      cases h
      exact .reply reply hchain hact hcall
    · cases h
  | handlerReturn c r =>
    simp only [step] at h
    split at h
    · rename_i chain hcrash hchain
      split at h
      · rename_i inline hphase
        rcases Connection.onReturn_cases h with ⟨phase, rfl, hnew⟩ | ⟨e, hr, rfl⟩
        · exact .returns hcrash hchain hphase hnew
        · exact .throws e hcrash hchain hphase hr
      · cases h
    · cases h
  | settle c e =>
    simp only [step] at h
    split at h
    · rename_i chain hidle hchain
      simp only [Option.ite_none_right_eq_some] at h
      obtain ⟨hphase, h⟩ := h
      cases h
      exact .settle e hidle hchain hphase
    · cases h
  | settleEnd c e =>
    simp only [step] at h
    split at h
    · rename_i chain hidle hchain
      split at h
      · rename_i w hphase
        split at h
        · cases h; exact .settleEnd e hidle hchain hphase (.inl rfl)
        · cases h; exact .settleEnd e hidle hchain hphase (.inr rfl)
        · cases h
      · cases h
    · cases h
  | next c =>
    simp only [step] at h
    split at h
    · rename_i chain hidle hchain
      simp only [Option.ite_none_right_eq_some] at h
      obtain ⟨hphase, h⟩ := h
      cases h
      exact .next hidle hchain hphase
    · cases h
  | error c =>
    simp only [step] at h
    split at h
    · rename_i chain hidle hchain
      split at h
      · rename_i e hphase
        cases h
        exact .error hidle hchain hphase
      · cases h
    · cases h
  | written w ok =>
    simp only [step, Option.ite_none_right_eq_some, Bool.and_eq_true, beq_iff_eq] at h
    obtain ⟨⟨hidle, hpending⟩, h⟩ := h
    cases ok with
    | true => cases h; exact .written w hidle hpending
    | false => cases h; exact .writeFailed w hidle hpending

end

end NodeNative.Http
