import Mathlib.Logic.Function.Basic

/-!
# The objects of the asynchronous core

A `FutureShared` keeps the actions registered on it and, once settled, its resolver; an action is
an `AsyncBase` whose libuv async handle is sent when the action is resolved and whose callback runs
when the handle fires. `World` is the heap of these objects together with what libuv knows about
their handles: which are sent and have not fired (`pending`), and which have fired and wait for
their close callback (`closing`).

Objects are named by where they are created (`NodeId`): a node of the program (`user`), the two
relay actions of a callback that returned a future (`relayThen`, `relayError`), and the action that
carries a registration made on another thread to the loop (`post`). An action and the future it
settles have one name.
-/

namespace NodeNative

/-- A `FutureError` as its receivers see it. Source: `async/FutureError.hpp:8`, an `Exception` with
its message. -/
structure FutureError where
  message : String
deriving DecidableEq, Repr

/-- Source: `async/FutureError.hpp:19`. A subclass of `FutureError`, so every handler of a
`FutureError` catches it. -/
def PromiseAlreadySatisfied : FutureError := ⟨"Promise already satisfied"⟩

/-- The exceptions of the asynchronous core: a `FutureError`, another `native::Exception`
(`Error.hpp:7`), and the `std::runtime_error` of a failed assertion (`helper/trace.hpp:19`). Only
the first is caught by the action classes. -/
inductive Exn
  | futureError (e : FutureError)
  | exception (message : String)
  | runtimeError (message : String)
deriving DecidableEq, Repr

/-- The exception of `NNATIVE_ASSERT`. Source: `helper/trace.hpp:19`. -/
def assertionFailed (condition : String) : Exn :=
  .runtimeError ("Assertion \"" ++ condition ++ "\" failed")

/-- A `FutureSharedResolver` that settles with a value or an error. The value of a `Future<void>`
is `none`. Source: `async/FutureSharedResolver.hpp:29-94`. -/
inductive FutureSharedResolver (V : Type)
  | value (p : Option V)
  | error (e : FutureError)
deriving DecidableEq, Repr

/-- Source: `FutureSharedResolver::isError`. -/
def FutureSharedResolver.isError {V : Type} : FutureSharedResolver V → Bool
  | .value _ => false
  | .error _ => true

/-- The name of an action and of the future it settles. -/
inductive NodeId
  | user (n : Nat)
  | relayThen (a : NodeId)
  | relayError (a : NodeId)
  | post (a : NodeId)
deriving DecidableEq, Repr

/-- A posting action is not the action it posts. -/
theorem NodeId.post_ne : ∀ a : NodeId, .post a ≠ a
  | .user _, h => nomatch h
  | .relayThen _, h => nomatch h
  | .relayError _, h => nomatch h
  | .post a, h => NodeId.post_ne a (by injection h)

/-- The result type a callback is declared with: the first template parameter of the action
classes. -/
inductive RetType
  | value
  | void
  | futureValue
  | futureVoid
deriving DecidableEq, Repr

/-- The action classes. `actionCallback` and `actionCallbackP1` are the callbacks of `then` on a
`Future<void>` and on a `Future<P>` (the first also of `async`), `actionCallbackError*` those of
`error` and `actionCallbackFinally*` those of `finally`. Source: `async/ActionCallback.hpp:19-199`,
`async/ActionCallbackError.hpp:19-59`, `async/ActionCallbackFinally.hpp:22-203`. -/
inductive ActionClass
  | actionCallback (R : RetType)
  | actionCallbackP1 (R : RetType)
  | actionCallbackError
  | actionCallbackErrorP1
  | actionCallbackFinally (R : RetType)
  | actionCallbackFinallyP1 (R : RetType)
deriving DecidableEq, Repr

/-- What `_f` of an action holds: a callback of the program, the lambda that
`FutureShared::then` / `error` / `finally` posts from another thread (it registers action `a` on
future `f`), or one of the two lambdas of `callFn` that settle `d` with what they are called with,
the value (in `then`) or the error (in `error`) of a returned future. -/
inductive Callback
  | user
  | push (f a : NodeId)
  | relay (d : NodeId)
deriving DecidableEq, Repr

/-- A loop, identified with the thread that runs it. -/
abbrev LoopId := Nat

/-- A calling thread, as the code sees it: the value that `isOnEventLoopThread()` of each loop has
on it. -/
abbrev Thread := LoopId → Bool

/-- The thread that runs loop `l`. Source: `Loop::isOnEventLoopThread`, `Loop.cpp:116`, for started
loops on different threads. -/
def Thread.ofLoop (l : LoopId) : Thread := fun l' => l' == l

@[simp] theorem Thread.ofLoop_self (l : LoopId) : Thread.ofLoop l l = true := by
  simp [Thread.ofLoop]

/-- Source: `async/FutureShared.hpp:17-21`. `isVoid` is the choice of the `void` specialisation. -/
structure FutureShared (V : Type) where
  loop : LoopId := 0
  isVoid : Bool := true
  resolver : Option (FutureSharedResolver V) := none
  actions : List NodeId := []

/-- The fields of an action object: those of `AsyncBase` (`async/AsyncBase.hpp:13-24`, where
`data` says that `_uv_async.data` is not null and `inst` that the self-reference `_instance` is
set), the resolver of `ActionCallbackBase`, and the class and callback. -/
structure Action (V : Type) where
  loop : LoopId := 0
  cls : ActionClass := .actionCallback .void
  f : Callback := .user
  data : Bool := false
  inst : Bool := false
  instanceNum : Nat := 0
  resolver : Option (FutureSharedResolver V) := none

/-- The heap, the async handles, the callbacks on the stack, and two histories: `executed` lists
the actions whose `resolveCb` or `rejectCb` was called, with the resolver that called it. `aborted`
is set by an exception that leaves `AsyncBase::Async`, which no frame above catches. -/
structure World (V : Type) where
  futures : NodeId → FutureShared V := fun _ => {}
  action : NodeId → Action V := fun _ => {}
  created : List NodeId := []
  pending : List NodeId := []
  closing : List NodeId := []
  running : LoopId → Option NodeId := fun _ => none
  executed : List (NodeId × FutureSharedResolver V) := []
  aborted : Option Exn := none

/-- What libuv answers to `uv_async_init` and `uv_async_send` on the handle of an action. -/
structure UvAsync where
  init : NodeId → Int := fun _ => 0
  send : NodeId → Int := fun _ => 0

/-- Both calls succeed on every handle. -/
def UvAsync.Ok (uv : UvAsync) : Prop := ∀ a, uv.init a = 0 ∧ uv.send a = 0

/-- Stateful code: an exception keeps the state written before it. -/
abbrev M (V : Type) := EStateM Exn (World V)

/-- Source: `NNATIVE_ASSERT`, `helper/trace.hpp:19`. -/
def nnativeAssert {V : Type} (condition : Bool) (message : String) : M V Unit :=
  if condition then pure () else throw (.runtimeError message)

section
variable {V : Type}

/-! ## Field updates -/

/-- Replace the action named `a`. -/
def World.setAction (w : World V) (a : NodeId) (act : Action V) : World V :=
  { w with action := Function.update w.action a act }

/-- Replace the future named `f`. -/
def World.setFuture (w : World V) (f : NodeId) (s : FutureShared V) : World V :=
  { w with futures := Function.update w.futures f s }

section
variable (w : World V) (a : NodeId) (act : Action V) (s : FutureShared V)

@[simp] theorem World.setAction_action (b : NodeId) :
    (w.setAction a act).action b = if b = a then act else w.action b := by
  simp [World.setAction, Function.update_apply]

@[simp] theorem World.setAction_futures : (w.setAction a act).futures = w.futures := rfl

@[simp] theorem World.setAction_pending : (w.setAction a act).pending = w.pending := rfl

@[simp] theorem World.setAction_created : (w.setAction a act).created = w.created := rfl

@[simp] theorem World.setAction_executed : (w.setAction a act).executed = w.executed := rfl

@[simp] theorem World.setAction_running : (w.setAction a act).running = w.running := rfl

@[simp] theorem World.setAction_closing : (w.setAction a act).closing = w.closing := rfl

@[simp] theorem World.setAction_aborted : (w.setAction a act).aborted = w.aborted := rfl

@[simp] theorem World.setFuture_futures (g : NodeId) :
    (w.setFuture a s).futures g = if g = a then s else w.futures g := by
  simp [World.setFuture, Function.update_apply]

@[simp] theorem World.setFuture_action : (w.setFuture a s).action = w.action := rfl

@[simp] theorem World.setFuture_pending : (w.setFuture a s).pending = w.pending := rfl

@[simp] theorem World.setFuture_created : (w.setFuture a s).created = w.created := rfl

@[simp] theorem World.setFuture_executed : (w.setFuture a s).executed = w.executed := rfl

@[simp] theorem World.setFuture_running : (w.setFuture a s).running = w.running := rfl

@[simp] theorem World.setFuture_closing : (w.setFuture a s).closing = w.closing := rfl

@[simp] theorem World.setFuture_aborted : (w.setFuture a s).aborted = w.aborted := rfl

end

/-- Modify the action named `a`. -/
def modifyAction (a : NodeId) (g : Action V → Action V) : M V Unit :=
  modify fun w => w.setAction a (g (w.action a))

/-- Modify the future named `f`. -/
def modifyFuture (f : NodeId) (g : FutureShared V → FutureShared V) : M V Unit :=
  modify fun w => w.setFuture f (g (w.futures f))

/-! ## `AsyncBase` -/

/-- Source: `AsyncBase.cpp:65`. -/
def AsyncBase.increaseInstance (a : NodeId) : M V Unit :=
  modifyAction a fun act => { act with instanceNum := act.instanceNum + 1, inst := true }

/-- Source: `AsyncBase.cpp:71`. -/
def AsyncBase.decreaseInstance (a : NodeId) : M V Unit := do
  if ((← get).action a).instanceNum = 0 then
    throw (.exception "decreaseInstance too many times")
  modifyAction a fun act => { act with instanceNum := act.instanceNum - 1 }
  if ((← get).action a).instanceNum = 0 then
    modifyAction a fun act => { act with inst := false }

/-- Send the async handle of the action. Source: `AsyncBase.cpp:27`. -/
def AsyncBase.enqueue (uv : UvAsync) (a : NodeId) : M V Unit := do
  nnativeAssert (!((← get).action a).inst) "!this->_instance"
  nnativeAssert (!((← get).action a).data) "this->_uv_async.data == nullptr"
  increaseInstance a
  modifyAction a fun act => { act with data := true }
  if uv.init a ≠ 0 then
    throw (.exception "uv_async_init")
  if uv.send a ≠ 0 then
    modifyAction a fun act => { act with data := false }
    modifyAction a fun act => { act with inst := false }
    throw (.exception "uv_async_send")
  modify fun w => { w with pending := w.pending ++ [a] }

/-! ## `ActionCallbackBase` and `FutureShared` -/

/-- The common body of `ActionCallbackBase::resolve` and `reject`: keep the resolver for the loop
step that runs the callback, and send the handle. -/
def ActionCallbackBase.settle (uv : UvAsync) (a : NodeId) (r : FutureSharedResolver V) :
    M V Unit := do
  nnativeAssert ((← get).action a).resolver.isNone "!_resolver"
  modifyAction a fun act => { act with resolver := some r }
  AsyncBase.enqueue uv a

/-- Source: `ActionCallbackBase.ipp:31`. -/
def ActionCallbackBase.resolve (uv : UvAsync) (a : NodeId) (p : Option V) : M V Unit :=
  ActionCallbackBase.settle uv a (.value p)

/-- Source: `ActionCallbackBase.ipp:37`. -/
def ActionCallbackBase.reject (uv : UvAsync) (a : NodeId) (e : FutureError) : M V Unit :=
  ActionCallbackBase.settle uv a (.error e)

/-- `FutureSharedResolver<V>::resolve(action)`. Source: `FutureSharedResolver.ipp:6-49`. -/
def FutureSharedResolver.resolve (uv : UvAsync) (a : NodeId) : FutureSharedResolver V → M V Unit
  | .value p => ActionCallbackBase.resolve uv a p
  | .error e => ActionCallbackBase.reject uv a e

/-- The common body of `FutureShared::resolve` and `reject` on thread `t`. -/
def FutureShared.settle (uv : UvAsync) (t : Thread) (f : NodeId) (r : FutureSharedResolver V) :
    M V Unit := do
  nnativeAssert (t ((← get).futures f).loop) "Not on the event Loop thread"
  if ((← get).futures f).resolver.isSome then
    throw (.futureError PromiseAlreadySatisfied)
  modifyFuture f fun s => { s with resolver := some r }
  ((← get).futures f).actions.forM fun a => r.resolve uv a

/-- Source: `FutureShared.ipp:16`, `FutureShared.cpp:12`. -/
def FutureShared.resolve (uv : UvAsync) (t : Thread) (f : NodeId) (p : Option V) : M V Unit :=
  FutureShared.settle uv t f (.value p)

/-- Source: `FutureShared.ipp:29`, `FutureShared.cpp:25`. -/
def FutureShared.reject (uv : UvAsync) (t : Thread) (f : NodeId) (e : FutureError) : M V Unit :=
  FutureShared.settle uv t f (.error e)

/-- Create the future named `n`. Source: `FutureShared::Create`. -/
def FutureShared.create (n : NodeId) (l : LoopId) (isVoid : Bool) : M V Unit :=
  modify fun w => { w.setFuture n { loop := l, isVoid } with created := n :: w.created }

/-- The future that an action of class `cls` registered on a future (void or not) settles is a
`Future<void>`. -/
def ActionClass.isVoid (srcVoid : Bool) : ActionClass → Bool
  | .actionCallback R | .actionCallbackP1 R | .actionCallbackFinally R
  | .actionCallbackFinallyP1 R => R = .void || R = .futureVoid
  | .actionCallbackError | .actionCallbackErrorP1 => srcVoid

/-- Create the action named `n` and the future it settles. Source: the `Create` functions and
constructors of the action classes. -/
def ActionCallback.create (n : NodeId) (l : LoopId) (srcVoid : Bool) (cls : ActionClass)
    (f : Callback) : M V Unit := do
  modify fun w => w.setAction n { loop := l, cls, f }
  FutureShared.create n l (cls.isVoid srcVoid)

/-- `native::async(iLoop, f)`. Source: `async.hpp:50`. -/
def async (uv : UvAsync) (l : LoopId) (n : NodeId) (R : RetType) (f : Callback) : M V Unit := do
  ActionCallback.create n l true (.actionCallback R) f
  ActionCallbackBase.resolve uv n none

/-- The end of `then`, `error` and `finally` on the loop thread, and the body of the lambda they
post from another thread. Source: `FutureShared.ipp:64-68`. -/
def FutureShared.push (uv : UvAsync) (f a : NodeId) : M V Unit := do
  modifyFuture f fun s => { s with actions := s.actions ++ [a] }
  match ((← get).futures f).resolver with
  | some r => r.resolve uv a
  | none => pure ()

/-- The common body of `then`, `error` and `finally` on thread `t`: create the action, and register
it here or through `async`. -/
def FutureShared.register (uv : UvAsync) (t : Thread) (f a : NodeId) (cls : ActionClass)
    (cb : Callback) : M V Unit := do
  let src := (← get).futures f
  ActionCallback.create a src.loop src.isVoid cls cb
  if t src.loop then
    FutureShared.push uv f a
  else
    async uv src.loop (.post a) .void (.push f a)

/-- The action class of `then`. Source: `FutureShared.ipp:46`, `FutureShared.ipp:76`. -/
def FutureShared.thenClass (s : FutureShared V) (R : RetType) : ActionClass :=
  if s.isVoid then .actionCallback R else .actionCallbackP1 R

/-- The action class of `error`. Source: `FutureShared.ipp:163`, `FutureShared.ipp:191`. -/
def FutureShared.errorClass (s : FutureShared V) : ActionClass :=
  if s.isVoid then .actionCallbackError else .actionCallbackErrorP1

/-- The action class of `finally`. Source: `FutureShared.ipp:104`, `FutureShared.ipp:134`. -/
def FutureShared.finallyClass (s : FutureShared V) (R : RetType) : ActionClass :=
  if s.isVoid then .actionCallbackFinally R else .actionCallbackFinallyP1 R

/-- `FutureShared::then` with the callback `cb` that returns `R`. -/
def FutureShared.thenCb (uv : UvAsync) (t : Thread) (f a : NodeId) (R : RetType) (cb : Callback) :
    M V Unit := do
  FutureShared.register uv t f a (((← get).futures f).thenClass R) cb

/-- `FutureShared::error` with the callback `cb`. -/
def FutureShared.errorCb (uv : UvAsync) (t : Thread) (f a : NodeId) (cb : Callback) :
    M V Unit := do
  FutureShared.register uv t f a ((← get).futures f).errorClass cb

/-- `FutureShared::finally` with the callback `cb` that returns `R`. -/
def FutureShared.finallyCb (uv : UvAsync) (t : Thread) (f a : NodeId) (R : RetType)
    (cb : Callback) : M V Unit := do
  FutureShared.register uv t f a (((← get).futures f).finallyClass R) cb

end

end NodeNative
