import NodeNative.Async.Loop

/-!
# Workers

`native::worker` sends a callable to libuv's thread pool. A thread of the pool runs it and keeps what
came of it in a resolver (`WorkerBase::Worker`), and the loop that the worker was called on replays
the resolver on the worker's future (`WorkerBase::WorkerAfter`). `Workers` is the asynchronous core
together with the worker objects, and `workerStep` its transition function: the steps of the core, and
those of the requests in the pool.
-/

namespace NodeNative

/-- What a worker keeps for its loop: the `FutureSharedResolver` that is made on the pool's thread.
Source: `async/FutureSharedResolver.hpp:29-94`. -/
inductive WorkerResolver (V : Type)
  | value (p : Option V)
  | error (e : FutureError)
  | future (g : NodeId)
deriving DecidableEq, Repr

/-- The fields of a worker object: those of `WorkerBase` (`worker/WorkerBase.hpp:13-21`, where `data`
says that `_uvWork.data` is not null and `inst` that the self-reference `_instance` is set), the
result type of the callable, and `_resolver`. Its `_future` has the worker's name. -/
structure WorkerCallback (V : Type) where
  loop : LoopId := 0
  R : RetType := .void
  data : Bool := false
  inst : Bool := false
  resolver : Option (WorkerResolver V) := none

/-- The core, the workers and what libuv knows about their requests: those that no thread has taken,
those whose callable runs, and those that wait for the loop. `enqueued` is the history of the calls
of `WorkerBase::enqueue`. -/
structure Workers (V : Type) where
  world : World V := {}
  worker : Nat → WorkerCallback V := fun _ => {}
  queued : List Nat := []
  working : List Nat := []
  worked : List Nat := []
  mutexInProcess : Bool := false
  enqueued : List Nat := []

/-- What libuv answers to `uv_queue_work` on the request of a worker. -/
abbrev UvWork := Nat → Int

/-- The call succeeds on every request. -/
def UvWork.Ok (uvw : UvWork) : Prop := ∀ n, uvw n = 0

/-- Stateful code: an exception keeps the state written before it. -/
abbrev WorkerM (V : Type) := EStateM Exn (Workers V)

section
variable {V : Type}

/-! ## The code -/

/-- Code of the asynchronous core. -/
def onWorld {α : Type} (x : M V α) : WorkerM V α := fun s =>
  match x.run s.world with
  | .ok a w => .ok a { s with world := w }
  | .error e w => .error e { s with world := w }

/-- Source: `NNATIVE_ASSERT`, `helper/trace.hpp:19`. -/
def workerAssert (condition : Bool) (message : String) : WorkerM V Unit :=
  if condition then pure () else throw (.runtimeError message)

/-- Modify the worker named `n`. -/
def modifyWorker (n : Nat) (g : WorkerCallback V → WorkerCallback V) : WorkerM V Unit :=
  modify fun s => { s with worker := Function.update s.worker n (g (s.worker n)) }

/-- `std::lock_guard<std::mutex> guard(mutexInProcess)` around the code. Locking a mutex that the
thread holds is an error. -/
def lockGuard (x : WorkerM V Unit) : WorkerM V Unit := do
  if (← get).mutexInProcess then
    throw (.exception "resource deadlock would occur")
  modify fun s => { s with mutexInProcess := true }
  tryCatch x fun e => do
    modify fun s => { s with mutexInProcess := false }
    throw e
  modify fun s => { s with mutexInProcess := false }

/-- Source: `WorkerBase.cpp:26`. -/
def WorkerBase.enqueue (uvw : UvWork) (n : Nat) : WorkerM V Unit := do
  modify fun s => { s with enqueued := s.enqueued ++ [n] }
  lockGuard do
    workerAssert (!((← get).worker n).inst) "!_instance"
    workerAssert (!((← get).worker n).data) "this->_uvWork.data == nullptr"
    modifyWorker n fun c => { c with data := true, inst := true }
    if uvw n ≠ 0 then
      modifyWorker n fun c => { c with data := false, inst := false }
      throw (.exception "uv_queue_work")
    modify fun s => { s with queued := s.queued ++ [n] }

/-- `native::worker(iLoop, f)`. Source: `worker.hpp:47`, `WorkerCallback.ipp:12-60`. -/
def worker (uvw : UvWork) (l : LoopId) (n : Nat) (R : RetType) : WorkerM V Unit := do
  modifyWorker n fun _ => { loop := l, R }
  onWorld (FutureShared.create (.user n) l (R = .void || R = .futureVoid))
  WorkerBase.enqueue uvw n

/-- What `_f(...)` gives to the worker's resolver. -/
def CallbackReturn.getResolver (R : RetType) (r : CallbackReturn V) : M V (WorkerResolver V) :=
  match R with
  | .value => do return .value (← r.getValue)
  | .void => do
    let _ ← r.getValue
    return .value none
  | .futureValue | .futureVoid => do return .future (← r.getFuture)

/-- `callFn` of the worker, from the return of its callable on. Source: `WorkerCallback.ipp:105`,
`:118`, `:129`, `:140`. -/
def WorkerCallback.callFn (n : Nat) (r : CallbackReturn V) : WorkerM V Unit := do
  let R := ((← get).worker n).R
  tryCatch
    (do
      let res ← onWorld (r.getResolver R)
      modifyWorker n fun c => { c with resolver := some res })
    fun
      | .futureError e => modifyWorker n fun c => { c with resolver := some (.error e) }
      | ex => throw ex

/-- `WorkerBase::Worker` on the request, from the return of the callable on. The history of the core
lists the worker's `resolveCb` too. Source: `WorkerBase.cpp:44`, `WorkerCallback.cpp:15`. -/
def WorkerBase.Worker (n : Nat) (r : CallbackReturn V) : WorkerM V Unit := do
  workerAssert ((← get).worker n).data "iHandle->data != nullptr"
  onWorld (modify fun w => { w with executed := w.executed ++ [(.user n, .value none)] })
  WorkerCallback.callFn n r

/-- `FutureSharedResolver<V>::resolve(iFuture)` of the worker's resolver on its future. Source:
`FutureSharedResolver.ipp:6`, `:18`, `:39`, `FutureSharedResolver.cpp:7`, `:18`, `:36`. -/
def WorkerResolver.resolve (uv : UvAsync) (t : Thread) (a : NodeId) : WorkerResolver V → M V Unit
  | .value p => FutureShared.resolve uv t a p
  | .error e => FutureShared.reject uv t a e
  | .future g => do
    FutureShared.thenCb uv t g (.relayThen a) .void (.relay a)
    FutureShared.errorCb uv t (.relayThen a) (.relayError a) (.relay a)

/-- Source: `WorkerCallback.ipp:167-189`. -/
def WorkerCallback.executeWorkerAfter (uv : UvAsync) (n : Nat) : WorkerM V Unit := do
  let c := (← get).worker n
  match c.resolver with
  | some res => onWorld (res.resolve uv (Thread.ofLoop c.loop) (.user n))
  | none => throw (.runtimeError "this->_resolver")

/-- `WorkerBase::WorkerAfter` on the request; `closeWorker` is empty. Source: `WorkerBase.cpp:53`. -/
def WorkerBase.WorkerAfter (uv : UvAsync) (n : Nat) : WorkerM V Unit :=
  lockGuard do
    workerAssert ((← get).worker n).data "iHandle->data != nullptr"
    modifyWorker n fun c => { c with data := false }
    workerAssert ((← get).worker n).inst "currobj->_instance"
    modifyWorker n fun c => { c with inst := false }
    WorkerCallback.executeWorkerAfter uv n

/-! ## The transition function -/

/-- What can happen next: a step of the core, which may be a call of a callable that runs in the
pool; a call of `worker`; and the steps of a request: a thread of the pool takes it, its callable
ends, and its loop runs `WorkerAfter`. -/
inductive WorkerLabel (V : Type)
  | core (lab : Label V)
  | worker (l : LoopId) (n : Nat) (R : RetType)
  | work (n : Nat)
  | worked (n : Nat) (r : CallbackReturn V)
  | after (n : Nat)

/-- The state after a call of the program; an exception goes to the caller. -/
def Workers.call (s : Workers V) (x : WorkerM V Unit) : Workers V :=
  match x.run s with
  | .ok _ s' => s'
  | .error _ s' => s'

/-- The state after code that libuv called; nothing above it catches an exception. -/
def Workers.callback (s : Workers V) (x : WorkerM V Unit) : Workers V :=
  match x.run s with
  | .ok _ s' => s'
  | .error e s' => { s' with world := { s'.world with aborted := some e } }

/-- One step of the system; `none` when the label is not enabled. A callable ends as its result type
says, and `WorkerAfter` runs when its loop is not inside a callback. -/
def workerStep (uv : UvAsync) (uvw : UvWork) (s : Workers V) (lab : WorkerLabel V) :
    Option (Workers V) :=
  if s.world.aborted.isSome then none else
  match lab with
  | .core lab => (step uv s.world lab).map fun w => { s with world := w }
  | .worker l n R =>
    if s.world.created.contains (.user n) then none else some (s.call (worker uvw l n R))
  | .work n =>
    if s.queued.contains n then
      some { s with queued := s.queued.erase n, working := s.working ++ [n] }
    else none
  | .worked n r =>
    if s.working.contains n && (ActionClass.actionCallback (s.worker n).R).accepts s.world r then
      some ({ s with working := s.working.erase n, worked := s.worked ++ [n] }.callback
        (WorkerBase.Worker n r))
    else none
  | .after n =>
    if s.worked.contains n && (s.world.running (s.worker n).loop).isNone then
      some ({ s with worked := s.worked.erase n }.callback (WorkerBase.WorkerAfter uv n))
    else none

/-- The run of a list of labels from the start. -/
def runWorkers (uv : UvAsync) (uvw : UvWork) (ls : List (WorkerLabel V)) : Option (Workers V) :=
  Transition.run (workerStep uv uvw) {} ls

end

/-- A worker whose callable returns a promise that is settled later. -/
example : ((runWorkers (V := Nat) {} (fun _ => 0)
    [.core (.promise 0 0 false), .worker 0 1 .futureValue, .work 1,
      .worked 1 (.future (.user 0)), .after 1,
      .core (.resolve (Thread.ofLoop 0) (.user 0) (some 7)),
      .core (.fire (.relayThen (.user 1)))]).map
      fun s => (s.world.futures (.user 1)).resolver) = some (some (.value (some 7))) := by
  decide +kernel

end NodeNative
