import NodeNative.Async.Passive

/-!
# Handles

A `Handle` owns a libuv handle and the promise of its closing. `Handle::close` makes a new promise and
calls `uv_close`, unless the handle is closing already, and returns the future of the promise. The
callback of `uv_close` resolves the promise, and then puts a new one in its place.

`Handles` is the asynchronous core with any number of handles in it, and `handleStep` its transition
function: the steps of the core, the calls on the handles, and the callbacks of `uv_close`. The future
that a call returns may be chained at once (`closeThen`), as the classes over `Handle` do.
-/

namespace NodeNative.Base

/-- The fields of a `Handle` and of the libuv handle that it owns: `data` says that
`uv_handle_t::data` is not null, `instanceHandle` that the self-reference is set, `isClosing` that
`uv_close` was called, and `closed` that its callback has run. Source: `base/Handle.hpp:82-90`. -/
structure Handle where
  loop : LoopId := 0
  data : Bool := false
  instanceHandleCount : Nat := 0
  instanceHandle : Bool := false
  closingPromise : NodeId := .user 0
  isClosing : Bool := false
  closed : Bool := false

/-- The core and the handles. Two histories: `returned` lists the futures that `close` has returned,
and `thens` the futures it has returned to a caller that chained a callback, with the action of the
callback. -/
structure Handles (ι V : Type) where
  world : World V := {}
  handle : ι → Handle := fun _ => {}
  created : List ι := []
  returned : List (ι × NodeId) := []
  thens : List (ι × NodeId × NodeId) := []

/-- Stateful code: an exception keeps the state written before it. -/
abbrev HandleM (ι V : Type) := EStateM Exn (Handles ι V)

/-! ### Names -/

/-- The number in a name. -/
def number : NodeId → Nat
  | .user n => n
  | .relayThen a | .relayError a | .post a => number a

section
variable {ι V : Type} [DecidableEq ι]

/-- A number that no name has. -/
def fresh (w : World V) : Nat := (w.created.map fun a => number a + 1).foldr max 0

/-! ### `Handle` -/

/-- Code of the core. -/
def inWorld {α : Type} (x : M V α) : HandleM ι V α := fun s =>
  match x.run s.world with
  | .ok a w => .ok a { s with world := w }
  | .error e w => .error e { s with world := w }

/-- Modify the handle `h`. -/
def modifyHandle (h : ι) (g : Handle → Handle) : HandleM ι V Unit :=
  modify fun s => { s with handle := Function.update s.handle h (g (s.handle h)) }

/-- `Promise<std::shared_ptr<Handle>>(_loop)`. Source: `async/Promise.hpp:13`. -/
def Promise.create (l : LoopId) : HandleM ι V NodeId := do
  let n : NodeId := .user (fresh (← get).world)
  inWorld (FutureShared.create n l false)
  return n

/-- Source: `Handle.cpp:55`. -/
def Handle.keepInstanceHandle (h : ι) : HandleM ι V Unit :=
  modifyHandle h fun k =>
    { k with instanceHandleCount := k.instanceHandleCount + 1, instanceHandle := true }

/-- Source: `Handle.cpp:63`. -/
def Handle.releaseInstanceHandle (h : ι) : HandleM ι V Unit := do
  let k := (← get).handle h
  inWorld (nnativeAssert (0 < k.instanceHandleCount) "_instanceHandleCount > 0")
  inWorld (nnativeAssert k.instanceHandle "_instanceHandle")
  modifyHandle h fun k => { k with instanceHandleCount := k.instanceHandleCount - 1 }
  if k.instanceHandleCount - 1 = 0 then
    modifyHandle h fun k => { k with instanceHandle := false }

/-- The constructor and `init`. Source: `Handle.cpp:8` and `:48`. -/
def Handle.create (t : Thread) (h : ι) (l : LoopId) : HandleM ι V Unit := do
  inWorld (nnativeAssert (t l) "Not on the event Loop thread")
  let p ← Promise.create l
  modify fun s => { s with created := s.created ++ [h] }
  modifyHandle h fun _ => { loop := l, closingPromise := p }
  modifyHandle h fun k => { k with data := true }
  keepInstanceHandle h

/-- `uv_close` and the promise, unless the handle is closing. Source: `Handle.cpp:34-43`. -/
def Handle.request (h : ι) : HandleM ι V Unit := do
  let k := (← get).handle h
  unless k.isClosing do
    let p ← Promise.create k.loop
    modifyHandle h fun k => { k with closingPromise := p, isClosing := true }

/-- Source: `Handle.cpp:28`. -/
def Handle.close (t : Thread) (h : ι) : HandleM ι V NodeId := do
  inWorld (nnativeAssert (t ((← get).handle h).loop) "Not on the event Loop thread")
  request h
  let f := ((← get).handle h).closingPromise
  modify fun s => { s with returned := s.returned ++ [(h, f)] }
  return f

/-- `close().then(...)` with a callback that returns `R`. -/
def Handle.closeThen (uv : UvAsync) (t : Thread) (h : ι) (R : RetType) : HandleM ι V Unit := do
  let f ← close t h
  let a : NodeId := .user (fresh (← get).world)
  inWorld (FutureShared.thenCb uv t f a R .user)
  modify fun s => { s with thens := s.thens ++ [(h, f, a)] }

/-- The callback of `uv_close`. The value `inst h` stands for the pointer to the handle. Source:
`Handle.cpp:36-42`. -/
def Handle.onClosed (uv : UvAsync) (inst : ι → V) (h : ι) : HandleM ι V Unit := do
  let k := (← get).handle h
  inWorld (nnativeAssert k.data "h->data")
  modifyHandle h fun k => { k with data := false }
  releaseInstanceHandle h
  inWorld (FutureShared.resolve uv (Thread.ofLoop k.loop) k.closingPromise (some (inst h)))
  let p ← Promise.create k.loop
  modifyHandle h fun k => { k with closingPromise := p }

/-! ### The transition function -/

/-- What can happen: a step of the core, a handle is created and initialised, `close` is called on
one, alone or with `then`, and the callback of `uv_close` runs. -/
inductive HandleLabel (ι V : Type)
  | core (lab : Label V)
  | create (t : Thread) (h : ι) (l : LoopId)
  | close (t : Thread) (h : ι)
  | closeThen (t : Thread) (h : ι) (R : RetType)
  | closed (h : ι)

/-- The state after a call of the program; an exception goes to the caller. -/
def Handles.call {α : Type} (s : Handles ι V) (x : HandleM ι V α) : Handles ι V :=
  match x.run s with
  | .ok _ s' => s'
  | .error _ s' => s'

/-- The state after code that libuv called; nothing above it catches an exception. -/
def Handles.callback (s : Handles ι V) (x : HandleM ι V Unit) : Handles ι V :=
  match x.run s with
  | .ok _ s' => s'
  | .error e s' => { s' with world := { s'.world with aborted := some e } }

/-- The promise that a call of the program settles. -/
def settledBy : Label V → Option NodeId
  | .resolve _ f _ | .reject _ f _ => some f
  | _ => none

/-- The promise of a handle is private. -/
def Handles.isPrivate (s : Handles ι V) (f : Option NodeId) : Bool :=
  s.created.any fun h => f == some (s.handle h).closingPromise

/-- One step; `none` when the label is not enabled. The callback of `uv_close` runs once, when its loop
is not inside another callback. -/
def handleStep (uv : UvAsync) (inst : ι → V) (s : Handles ι V) (lab : HandleLabel ι V) :
    Option (Handles ι V) :=
  if s.world.aborted.isSome then none else
  match lab with
  | .core lab =>
    if s.isPrivate (settledBy lab) then none
    else (step uv s.world lab).map fun w => { s with world := w }
  | .create t h l => if s.created.contains h then none else some (s.call (Handle.create t h l))
  | .close t h => if s.created.contains h then some (s.call (Handle.close t h)) else none
  | .closeThen t h R =>
    if s.created.contains h then some (s.call (Handle.closeThen uv t h R)) else none
  | .closed h =>
    if s.created.contains h && (s.handle h).isClosing && !(s.handle h).closed &&
        (s.world.running (s.handle h).loop).isNone then
      some ({ s with handle := Function.update s.handle h { s.handle h with closed := true } }.callback
        (Handle.onClosed uv inst h))
    else none

/-- The handle whose callback, chained to the future of `close`, a step of the core to `w` has called. -/
def Handles.answered (s : Handles ι V) (lab : Label V) (w : World V) : Option ι :=
  match lab with
  | .fire a =>
    if w.running (w.action a).loop = some a then (s.thens.find? fun x => x.2.2 = a).map fun x => x.1
    else none
  | _ => none

/-- The run of a list of labels from the start. -/
def runHandles (uv : UvAsync) (inst : ι → V) (ls : List (HandleLabel ι V)) : Option (Handles ι V) :=
  Transition.run (handleStep uv inst) {} ls

end

end NodeNative.Base
