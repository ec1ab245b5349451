import NodeNative.Base.Continuations
import NodeNative.Net.Connect

/-!
# The requests of a stream

`Stream::write`, `Stream::shutdown` and the `connect` of `Tcp` and `Pipe` give libuv a request that
carries a promise, a `RequestPromiseInstance`, and return the future of the promise. When libuv refuses
the request the promise is rejected at once, and otherwise the callback of the request settles it.

`Streams` is the core with any number of streams in it. A step (`StreamLabel`) is one of the handles, a
call on a stream, or the callback of a request. Libuv takes no write and no shutdown of a stream that is
closing, and calls the callbacks of its requests, with `UV_ECANCELED` where they are not done, before that
of its `uv_close`. A `connect` on a socket that is closing is left out: neither the code nor libuv refuses
it, and what libuv does behind it is not defined.
-/

namespace NodeNative.Base

/-! ### The code -/

/-- What libuv says to an error. -/
structure UvStream where
  addr : Net.UvAddr
  strerror : Int → String

inductive RequestKind
  | write
  | shutdown
  /-- the attempt with this number to connect the socket -/
  | connect (attempt : Nat)
deriving DecidableEq, Repr

/-- Where a request stands. -/
inductive RequestStatus
  | pending
  | refused (e : FutureError)
  | completed (status : Int)
deriving DecidableEq, Repr

/-- A `RequestPromiseInstance`, with what has come of it. Source: `async/RequestPromise.hpp:39`. -/
structure Request (ι : Type) where
  kind : RequestKind
  stream : ι
  promise : NodeId
  status : RequestStatus

/-- The core with its handles, the sockets and the requests made so far. -/
structure Streams (ι V : Type) where
  base : Handles ι V := {}
  socket : ι → Net.Socket
  requests : List (Request ι) := []

/-- Stateful code: an exception keeps the state written before it. -/
abbrev StreamM (ι V : Type) := EStateM Exn (Streams ι V)

/-- What the callback of a request settles its promise with. Source: `base/Stream.cpp:92`, `:122`,
`net/Tcp.cpp:68`, `Pipe.cpp:48`. -/
def RequestKind.result {V : Type} (uvs : UvStream) (status : Int) :
    RequestKind → FutureSharedResolver V
  | .write => if status < 0 then .error ⟨uvs.strerror status⟩ else .value none
  | .shutdown =>
    if status = 0 then .value none
    else .error ⟨"Returned non zero status " ++ toString status⟩
  | .connect _ =>
    if status = 0 then .value none
    else .error ⟨"Error in uv_tcp_connect, non-zero status " ++ toString status⟩

section
variable {ι V : Type} [DecidableEq ι]

/-- Code of the handles. -/
def inBase {α : Type} (x : HandleM ι V α) : StreamM ι V α := fun s =>
  match x.run s.base with
  | .ok a b => .ok a { s with base := b }
  | .error e b => .error e { s with base := b }

/-- `Promise<void>(_loop)`. Source: `async/Promise.hpp:57`. -/
def Promise.createVoid (l : LoopId) : HandleM ι V NodeId := do
  let n : NodeId := .user (fresh (← get).world)
  inWorld (FutureShared.create n l true)
  return n

/-- The common end of the calls: a request that libuv has taken, or has refused with this error. -/
def Stream.request (uv : UvAsync) (kind : RequestKind) (h : ι) (refusal : Option FutureError) :
    StreamM ι V Unit := do
  let l := ((← get).base.handle h).loop
  let p ← inBase (Promise.createVoid l)
  match refusal with
  | some e =>
    inBase (inWorld (FutureShared.reject uv (Thread.ofLoop l) p e))
    modify fun s => { s with requests := s.requests ++ [⟨kind, h, p, .refused e⟩] }
  | none => modify fun s => { s with requests := s.requests ++ [⟨kind, h, p, .pending⟩] }

/-- `answer` is what `uv_write` or `uv_write2` returns. Source: `base/Stream.cpp:71`. -/
def Stream.write (uv : UvAsync) (h : ι) (answer : Int) : StreamM ι V Unit :=
  request uv .write h
    (if answer ≠ 0 then some ⟨"Error in uv_write, status: " ++ toString answer⟩ else none)

/-- `answer` is what `uv_shutdown` returns. Source: `base/Stream.cpp:118`. -/
def Stream.shutdown (uv : UvAsync) (h : ι) (answer : Int) : StreamM ι V Unit :=
  request uv .shutdown h
    (if answer ≠ 0 then some ⟨"Error in uv_shutdown, status: " ++ toString answer⟩ else none)

/-- The error of a call that is rejected. -/
def refusalOf : Net.Called → Option FutureError
  | .rejected e => some e
  | .pending => none

/-- The end of a call of `connect` that makes this of the socket. Source: `net/Tcp.cpp:81`,
`Pipe.cpp:61`. -/
def Stream.connect (uv : UvAsync) (h : ι) (called : Net.Called) (socket : Net.Socket) :
    StreamM ι V Unit := do
  request uv (.connect ((← get).socket h).attempts.length) h (refusalOf called)
  modify fun s => { s with socket := Function.update s.socket h socket }

/-- The callbacks `AfterWrite`, that of `shutdown`, and `Connect`. Source: `base/Stream.cpp:92`, `:122`,
`net/Tcp.cpp:68`, `Pipe.cpp:48`. -/
def Stream.onComplete (uv : UvAsync) (uvs : UvStream) (r : Request ι) (status : Int) :
    StreamM ι V Unit := do
  let k := (← get).base.handle r.stream
  match r.kind with
  | .connect attempt =>
    inBase (inWorld (nnativeAssert k.data "req->handle->data"))
    modify fun s =>
      { s with
        socket := Function.update s.socket r.stream
          ((s.socket r.stream).onConnect attempt status).2 }
  | _ => pure ()
  inBase (inWorld (FutureShared.settle uv (Thread.ofLoop k.loop) r.promise (r.kind.result uvs status)))

/-! ### The transition function -/

/-- What can happen: a step of the handles, a call on a stream, with what libuv answers to it, and the
callback of the request with this number. -/
inductive StreamLabel (ι V : Type)
  | base (lab : HandleLabel ι V)
  | write (h : ι) (answer : Int)
  | shutdown (h : ι) (answer : Int)
  | connect (h : ι) (c : Net.ConnectCall)
  | complete (i : Nat) (status : Int)

/-- The state after a call of the program. -/
def Streams.call (s : Streams ι V) (x : StreamM ι V Unit) : Streams ι V :=
  match x.run s with
  | .ok _ s' => s'
  | .error _ s' => s'

/-- The state after code that libuv called. -/
def Streams.callback (s : Streams ι V) (x : StreamM ι V Unit) : Streams ι V :=
  match x.run s with
  | .ok _ s' => s'
  | .error e s' => { s' with base := { s'.base with world := { s'.base.world with aborted := some e } } }

/-- Libuv has the request. -/
def Request.isPending (r : Request ι) : Bool :=
  match r.status with
  | .pending => true
  | _ => false

/-- The step does not reach into a request: its promise is private, and the callback of `uv_close` comes
behind those of the requests of the stream. -/
def Streams.leaves (s : Streams ι V) : HandleLabel ι V → Bool
  | .core lab => !s.requests.any fun r => settledBy lab == some r.promise
  | .closed h => !s.requests.any fun r => r.stream = h && r.isPending
  | _ => true

/-- The program can call libuv on the stream, on the thread of its loop. When it is closing libuv answers
a `uv_write` and a `uv_shutdown` with an error, and a connect that libuv would take is none of the steps:
`uv_tcp_connect` and `uv_pipe_connect` do not refuse it, and `Tcp.cpp:81` and `Pipe.cpp:61` have no
guard. -/
def Streams.canCall (s : Streams ι V) (h : ι) (taken : Bool) : Bool :=
  s.base.created.contains h && !(taken && (s.base.handle h).isClosing)

/-- One step; `none` when the label is not enabled. -/
def streamStep (uv : UvAsync) (uvs : UvStream) (inst : ι → V) (s : Streams ι V) (lab : StreamLabel ι V) :
    Option (Streams ι V) :=
  if s.base.world.aborted.isSome then none else
  match lab with
  | .base lab =>
    if s.leaves lab then (handleStep uv inst s.base lab).map fun b => { s with base := b } else none
  | .write h answer =>
    if s.canCall h (answer = 0) then some (s.call (Stream.write uv h answer)) else none
  | .shutdown h answer =>
    if s.canCall h (answer = 0) then some (s.call (Stream.shutdown uv h answer)) else none
  | .connect h c =>
    match (s.socket h).connect uvs.addr c with
    | some (called, socket) =>
      if s.canCall h (called = .pending) then some (s.call (Stream.connect uv h called socket)) else none
    | none => none
  | .complete i status =>
    match s.requests[i]? with
    | some r =>
      if r.isPending && (s.base.world.running (s.base.handle r.stream).loop).isNone then
        some ({ s with requests := s.requests.set i { r with status := .completed status } }.callback
          (Stream.onComplete uv uvs r status))
      else none
    | none => none

end

end NodeNative.Base
