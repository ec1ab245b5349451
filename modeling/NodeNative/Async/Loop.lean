import NodeNative.Async.Basic
import NodeNative.Lib.Transition

/-!
# The loop: firing handles, running callbacks, closing handles

`AsyncBase::Async` runs when the handle of an action fires: it calls `resolveCb` or `rejectCb`,
which for most classes calls the action's callback (`callFn`) and settles the action's future with
what came of it. A callback of the program may call the API itself, so the step that starts it
leaves the loop's thread inside it (`World.running`) and a later step (`Label.ret`) returns from
it; the callbacks of the library (`Callback.push`, `Callback.relay`) run within one step.

`step` is the transition function of the whole: the API calls of the program, from any thread, and
the loop steps, in any order.
-/

namespace NodeNative

/-- How a callback of the program ends: it returns a value (`none` for `void`) or a future, throws
a `FutureError`, or throws something else. -/
inductive CallbackReturn (V : Type)
  | value (p : Option V)
  | future (g : NodeId)
  | throws (e : FutureError)
  | raises (message : String)
deriving DecidableEq, Repr

section
variable {V : Type}

/-- `try { x } catch (const FutureError &e) { handler(e) }`. -/
def tryFutureError (x : M V Unit) (handler : FutureError → M V Unit) : M V Unit :=
  tryCatch x fun
    | .futureError e => handler e
    | ex => throw ex

/-- `callFn` of the classes whose callback returns a value or `void`: settle the action's future
with what the callback `body` returns or throws. Source: `ActionCallback.ipp:168`, `:220`. -/
def ActionCallback.callFnValue (uv : UvAsync) (t : Thread) (a : NodeId)
    (body : M V (Option V)) : M V Unit :=
  tryFutureError
    (do
      let p ← body
      FutureShared.resolve uv t a p)
    (FutureShared.reject uv t a)

/-- `callFn` of the classes whose callback returns a future: relay the outcome of the returned
future to the action's future. Source: `ActionCallback.ipp:178`, `:199`. -/
def ActionCallback.callFnFuture (uv : UvAsync) (t : Thread) (a : NodeId) (body : M V NodeId) :
    M V Unit :=
  tryFutureError
    (do
      let g ← body
      FutureShared.thenCb uv t g (.relayThen a) .void (.relay a)
      FutureShared.errorCb uv t (.relayThen a) (.relayError a) (.relay a))
    (FutureShared.reject uv t a)

/-- What `_f(...)` gives to a class that expects a value. The `std::function<void(...)>` of a class
that expects none drops whatever its callable returns, a future too. -/
def CallbackReturn.getValue : CallbackReturn V → M V (Option V)
  | .value p => pure p
  | .future _ => pure none
  | .throws e => throw (.futureError e)
  | .raises m => throw (.runtimeError m)

/-- What `_f(...)` gives to a class that expects a future. -/
def CallbackReturn.getFuture : CallbackReturn V → M V NodeId
  | .value _ => throw (.runtimeError "not a future")
  | .future g => pure g
  | .throws e => throw (.futureError e)
  | .raises m => throw (.runtimeError m)

/-- The result type of the callback that the class declares. -/
def ActionClass.ret : ActionClass → RetType
  | .actionCallback R | .actionCallbackP1 R | .actionCallbackFinally R
  | .actionCallbackFinallyP1 R => R
  | .actionCallbackError => .void
  | .actionCallbackErrorP1 => .value

/-- `callFn` of action `a` from the return of its callback on. -/
def ActionCallback.callFnReturn (uv : UvAsync) (t : Thread) (a : NodeId) (r : CallbackReturn V) :
    M V Unit := do
  match ((← get).action a).cls.ret with
  | .value => ActionCallback.callFnValue uv t a r.getValue
  | .void =>
    ActionCallback.callFnValue uv t a do
      let _ ← r.getValue
      return none
  | .futureValue | .futureVoid => ActionCallback.callFnFuture uv t a r.getFuture

/-- `callFn` of action `a`, called with `arg`: it starts a callback of the program, or runs one of
the library's lambdas. The result says that it has returned. -/
def ActionCallback.callFn (uv : UvAsync) (t : Thread) (a : NodeId)
    (arg : FutureSharedResolver V) : M V Bool := do
  let act := (← get).action a
  match act.f with
  | .user =>
    modify fun w => { w with running := Function.update w.running act.loop (some a) }
    return false
  | .push f b =>
    ActionCallback.callFnValue uv t a (do FutureShared.push uv f b; return none)
    return true
  | .relay d =>
    ActionCallback.callFnValue uv t a (do FutureShared.settle uv t d arg; return none)
    return true

/-- `resolveCb` of the action classes. Source: `ActionCallback.ipp:296-328`,
`ActionCallbackError.ipp:73-77`, `ActionCallbackFinally.ipp:297-331`. -/
def ActionCallback.resolveCb (uv : UvAsync) (t : Thread) (a : NodeId) (p : Option V) :
    M V Bool := do
  match ((← get).action a).cls with
  | .actionCallback _ | .actionCallbackP1 _ => ActionCallback.callFn uv t a (.value p)
  | .actionCallbackError | .actionCallbackErrorP1 =>
    FutureShared.resolve uv t a p
    return true
  | .actionCallbackFinally _ | .actionCallbackFinallyP1 _ =>
    ActionCallback.callFn uv t a (.value p)

/-- `rejectCb` of the action classes. Source: `ActionCallback.ipp:329-359`,
`ActionCallbackError.ipp:79-85`, `ActionCallbackFinally.ipp:332-368`. -/
def ActionCallback.rejectCb (uv : UvAsync) (t : Thread) (a : NodeId) (e : FutureError) :
    M V Bool := do
  match ((← get).action a).cls with
  | .actionCallback _ | .actionCallbackP1 _ =>
    FutureShared.reject uv t a e
    return true
  | .actionCallbackError | .actionCallbackErrorP1 => ActionCallback.callFn uv t a (.error e)
  | .actionCallbackFinally _ | .actionCallbackFinallyP1 _ =>
    ActionCallback.callFn uv t a (.error e)

/-- `FutureSharedResolver<V>::resolveCb(action)`, which starts the execution of the action. -/
def FutureSharedResolver.resolveCb (uv : UvAsync) (t : Thread) (a : NodeId)
    (r : FutureSharedResolver V) : M V Bool := do
  modify fun w => { w with executed := w.executed ++ [(a, r)] }
  match r with
  | .value p => ActionCallback.resolveCb uv t a p
  | .error e => ActionCallback.rejectCb uv t a e

/-- Source: `ActionCallbackBase.ipp:19`. -/
def ActionCallbackBase.executeAsync (uv : UvAsync) (a : NodeId) : M V Bool := do
  let act := (← get).action a
  match act.resolver with
  | some r => r.resolveCb uv (Thread.ofLoop act.loop) a
  | none => throw (.runtimeError "_resolver")

/-- `uv_close` on the handle of the action. -/
def uvClose (a : NodeId) : M V Unit :=
  modify fun w => { w with closing := w.closing ++ [a] }

/-- `AsyncBase::Async` on the handle of action `a`, up to the start of a callback of the program if
it starts one. Source: `AsyncBase.cpp:54`. -/
def AsyncBase.Async (uv : UvAsync) (a : NodeId) : M V Unit := do
  nnativeAssert ((← get).action a).data "iHandle->data != nullptr"
  if (← ActionCallbackBase.executeAsync uv a) then
    uvClose a

/-- `AsyncBase::Async` on the handle of action `a`, from the return of the callback of the program
on. -/
def AsyncBase.asyncReturn (uv : UvAsync) (a : NodeId) (r : CallbackReturn V) : M V Unit := do
  let act := (← get).action a
  modify fun w => { w with running := Function.update w.running act.loop none }
  ActionCallback.callFnReturn uv (Thread.ofLoop act.loop) a r
  uvClose a

/-- Source: `ActionCallbackBase.ipp:25`. -/
def ActionCallbackBase.closeAsync (a : NodeId) : M V Unit := do
  nnativeAssert ((← get).action a).resolver.isSome "_resolver"
  modifyAction a fun act => { act with resolver := none }

/-- Source: `AsyncBase.cpp:82`. -/
def AsyncBase.AsyncClosed (a : NodeId) : M V Unit := do
  nnativeAssert ((← get).action a).data "iHandle->data != nullptr"
  modifyAction a fun act => { act with data := false }
  nnativeAssert ((← get).action a).inst "currobj->_instance"
  AsyncBase.decreaseInstance a
  ActionCallbackBase.closeAsync a

/-! ## The transition function -/

/-- What can happen next. The first seven are calls of the program: creating a promise on loop `l`,
`Promise::resolve` / `reject` or `FutureShared::resolve` / `reject`, registering the callback of
node `n`, and `async`, on a thread `t` inside or outside a callback. The others are steps of a loop:
the handle of an action fires, its close callback runs, and the callback of the program on the stack
of loop `l` returns. -/
inductive Label (V : Type)
  | promise (n : Nat) (l : LoopId) (isVoid : Bool)
  | resolve (t : Thread) (f : NodeId) (p : Option V)
  | reject (t : Thread) (f : NodeId) (e : FutureError)
  | thenCb (t : Thread) (f : NodeId) (n : Nat) (R : RetType)
  | errorCb (t : Thread) (f : NodeId) (n : Nat)
  | finallyCb (t : Thread) (f : NodeId) (n : Nat) (R : RetType)
  | async (l : LoopId) (n : Nat) (R : RetType)
  | fire (a : NodeId)
  | close (a : NodeId)
  | ret (l : LoopId) (r : CallbackReturn V)

/-- The state after a call of the program; an exception goes to the caller. -/
def World.call (w : World V) (x : M V Unit) : World V :=
  match x.run w with
  | .ok _ w' => w'
  | .error _ w' => w'

/-- The state after code that libuv called; nothing above it catches an exception. -/
def World.callback (w : World V) (x : M V Unit) : World V :=
  match x.run w with
  | .ok _ w' => w'
  | .error e w' => { w' with aborted := some e }

/-- A callback declared by class `cls` can end so: what it returns has the declared type, and a
returned future exists. The callback of `ActionCallbackError` is a `std::function<void(...)>`, which
accepts a callable of any result type. -/
def ActionClass.accepts (w : World V) (cls : ActionClass) : CallbackReturn V → Bool
  | .throws _ | .raises _ => true
  | .value p =>
    match cls with
    | .actionCallbackError => true
    | _ => (cls.ret = .value && p.isSome) || (cls.ret = .void && p.isNone)
  | .future g =>
    w.created.contains g &&
      (cls = .actionCallbackError || (cls.ret = .futureValue && !(w.futures g).isVoid) ||
        (cls.ret = .futureVoid && (w.futures g).isVoid))

/-- One step of the system; `none` when the label is not enabled. -/
def step (uv : UvAsync) (w : World V) (lab : Label V) : Option (World V) :=
  if w.aborted.isSome then none else
  match lab with
  | .promise n l isVoid =>
    if w.created.contains (.user n) then none
    else some (w.call (FutureShared.create (.user n) l isVoid))
  | .resolve t f p =>
    if w.created.contains f && (w.futures f).isVoid = p.isNone then
      some (w.call (FutureShared.resolve uv t f p))
    else none
  | .reject t f e =>
    if w.created.contains f then some (w.call (FutureShared.reject uv t f e)) else none
  | .thenCb t f n R =>
    if w.created.contains f && !w.created.contains (.user n) then
      some (w.call (FutureShared.thenCb uv t f (.user n) R .user))
    else none
  | .errorCb t f n =>
    if w.created.contains f && !w.created.contains (.user n) then
      some (w.call (FutureShared.errorCb uv t f (.user n) .user))
    else none
  | .finallyCb t f n R =>
    if w.created.contains f && !w.created.contains (.user n) then
      some (w.call (FutureShared.finallyCb uv t f (.user n) R .user))
    else none
  | .async l n R =>
    if w.created.contains (.user n) then none
    else some (w.call (NodeNative.async uv l (.user n) R .user))
  | .fire a =>
    if w.pending.contains a && (w.running (w.action a).loop).isNone then
      some ({ w with pending := w.pending.erase a }.callback (AsyncBase.Async uv a))
    else none
  | .close a =>
    if w.closing.contains a && (w.running (w.action a).loop).isNone then
      some ({ w with closing := w.closing.erase a }.callback (AsyncBase.AsyncClosed a))
    else none
  | .ret l r =>
    match w.running l with
    | some a =>
      if (w.action a).cls.accepts w r then some (w.callback (AsyncBase.asyncReturn uv a r))
      else none
    | none => none

/-- The system before the program makes its first call. -/
def World.init : World V := {}

/-- The run of a list of labels from the start. -/
def runLabels (uv : UvAsync) (ls : List (Label V)) : Option (World V) :=
  Transition.run (step uv) World.init ls

end

/-- A callback that returns a future which is settled later: node 1 is `async` returning the
promise 0, and relays its value. -/
example : ((runLabels (V := Nat) {}
    [.promise 0 0 false, .async 0 1 .futureValue, .fire (.user 1), .ret 0 (.future (.user 0)),
      .resolve (Thread.ofLoop 0) (.user 0) (some 7), .fire (.relayThen (.user 1))]).map
      fun w => ((w.futures (.user 1)).resolver, w.pending, w.aborted)) =
    some (some (.value (some 7)), [.relayError (.user 1)], none) := by
  decide

end NodeNative
