import NodeNative.Async.Delivery
import NodeNative.Async.Steps

/-!
# Graphs of futures and their denotation

A `Graph` names every future of a program on one loop and says how it is built: a promise, or the
future of `async`, `then`, `error` or `finally` with a callback, which is given by how it ends on
each argument. The program may build its nodes in any order and from any thread, inside callbacks
too, and settle its promises when it likes (`Graph.Event`); `Graph.step` is a step of the system in
which the callbacks end as the graph says.

`Denotes` is the reference semantics of the combinators. It knows nothing of handles and schedules:
the outcome of a node follows from the outcome of its source and of the futures that callbacks
return. An outcome that is never reached (a promise never settled, a future that adopts itself) is
undefined.
-/

namespace NodeNative

section
variable {V : Type}

/-- How a callback of the graph ends: with a value, a future of the graph, or a `FutureError`. -/
inductive CallbackResult (V : Type)
  | value (p : Option V)
  | future (m : Nat)
  | throws (e : FutureError)
deriving DecidableEq, Repr

/-- The return of the callback to the action class. -/
def CallbackResult.toReturn : CallbackResult V → CallbackReturn V
  | .value p => .value p
  | .future m => .future (.user m)
  | .throws e => .throws e

/-- How a future of the graph is built, `src` being the node it is registered on. The future of
`error` has the type of its source, which `isVoid` records. -/
inductive Node (V : Type)
  | promise (isVoid : Bool)
  | async (R : RetType) (f : CallbackResult V)
  | thenCb (src : Nat) (R : RetType) (f : Option V → CallbackResult V)
  | errorCb (src : Nat) (isVoid : Bool) (f : FutureError → CallbackResult V)
  | finallyCb (src : Nat) (R : RetType) (f : CallbackResult V)

/-- A callback with this result type gives a `Future<void>`. -/
def RetType.isVoid : RetType → Bool
  | .void | .futureVoid => true
  | .value | .futureValue => false

/-- The node is a `Future<void>`. -/
def Node.isVoid : Node V → Bool
  | .promise isVoid | .errorCb _ isVoid _ => isVoid
  | .async R _ | .thenCb _ R _ | .finallyCb _ R _ => R.isVoid

/-- The node is settled by the program, not by an action. -/
def Node.isPromise : Node V → Bool
  | .promise _ => true
  | _ => false

/-- The node on whose future this one is registered. -/
def Node.src : Node V → Option Nat
  | .promise _ | .async _ _ => none
  | .thenCb s _ _ | .errorCb s _ _ | .finallyCb s _ _ => some s

/-- How the callback of the node ends when its action is executed with `r`; `none` when the action
does not call it. -/
def Node.result : Node V → FutureSharedResolver V → Option (CallbackResult V)
  | .promise _, _ => none
  | .async _ f, _ => some f
  | .thenCb _ _ f, .value p => some (f p)
  | .thenCb _ _ _, .error _ => none
  | .errorCb _ _ _, .value _ => none
  | .errorCb _ _ f, .error e => some (f e)
  | .finallyCb _ _ f, _ => some f

/-- The futures of a program on one loop. -/
structure Graph (V : Type) where
  loop : LoopId
  node : Nat → Node V
  typed : ∀ n s isVoid f, node n = .errorCb s isVoid f → (node s).isVoid = isVoid

/-- The class of the action that the node's `async`, `then`, `error` or `finally` creates. -/
def Graph.cls (G : Graph V) : Node V → ActionClass
  | .promise _ => .actionCallback .void
  | .async R _ => .actionCallback R
  | .thenCb s R _ => if (G.node s).isVoid then .actionCallback R else .actionCallbackP1 R
  | .errorCb _ isVoid _ => if isVoid then .actionCallbackError else .actionCallbackErrorP1
  | .finallyCb s R _ =>
    if (G.node s).isVoid then .actionCallbackFinally R else .actionCallbackFinallyP1 R

/-- A result type that is not for a `Future<void>` gives a future of another class. -/
theorem RetType.isVoid_eq (R : RetType) : (R = .void || R = .futureVoid : Bool) = R.isVoid := by
  cases R <;> rfl

/-- The action of a node settles a future of the node's type. -/
theorem Graph.cls_isVoid (G : Graph V) {n m : Nat} (hsrc : (G.node n).src = some m) :
    (G.cls (G.node n)).isVoid (G.node m).isVoid = (G.node n).isVoid := by
  cases hnode : G.node n with
  | promise v => rw [hnode] at hsrc; cases hsrc
  | async R f => rw [hnode] at hsrc; cases hsrc
  | thenCb s R f =>
    change (if (G.node s).isVoid then ActionClass.actionCallback R
      else .actionCallbackP1 R).isVoid _ = R.isVoid
    split <;> exact R.isVoid_eq
  | errorCb s v f =>
    rw [hnode] at hsrc
    obtain rfl := Option.some.inj hsrc
    rw [G.typed n s v f hnode]
    cases v <;> rfl
  | finallyCb s R f =>
    change (if (G.node s).isVoid then ActionClass.actionCallbackFinally R
      else .actionCallbackFinallyP1 R).isVoid _ = R.isVoid
    split <;> exact R.isVoid_eq

/-! ## The denotation -/

/-- What counts as the outcome of the callback of an `error` node. On a `Future<void>` it has no
value, and with `adopt` false a future that it returns has none either: it is dropped. -/
def CallbackResult.ofError (adopt isVoid : Bool) : CallbackResult V → CallbackResult V
  | .value p => .value (if isVoid then none else p)
  | .future m => if adopt || !isVoid then .future m else .value none
  | .throws e => .throws e

mutual

/-- The outcome of node `n`, the promises being settled as `σ` says. -/
inductive Denotes (G : Graph V) (adopt : Bool) (σ : Nat → Option (FutureSharedResolver V)) :
    Nat → FutureSharedResolver V → Prop
  | promise {n isVoid o} : G.node n = .promise isVoid → σ n = some o → Denotes G adopt σ n o
  | async {n R f o} : G.node n = .async R f → Outcome G adopt σ f o → Denotes G adopt σ n o
  | thenValue {n s R f p o} : G.node n = .thenCb s R f → Denotes G adopt σ s (.value p) →
      Outcome G adopt σ (f p) o → Denotes G adopt σ n o
  | thenError {n s R f e} : G.node n = .thenCb s R f → Denotes G adopt σ s (.error e) →
      Denotes G adopt σ n (.error e)
  | errorValue {n s isVoid f p} : G.node n = .errorCb s isVoid f →
      Denotes G adopt σ s (.value p) → Denotes G adopt σ n (.value p)
  | errorError {n s isVoid f e o} : G.node n = .errorCb s isVoid f →
      Denotes G adopt σ s (.error e) → Outcome G adopt σ ((f e).ofError adopt isVoid) o →
      Denotes G adopt σ n o
  | finallyCb {n s R f r o} : G.node n = .finallyCb s R f → Denotes G adopt σ s r →
      Outcome G adopt σ f o → Denotes G adopt σ n o

/-- The outcome of a callback: its value, its error, or the outcome of the future it returned. -/
inductive Outcome (G : Graph V) (adopt : Bool) (σ : Nat → Option (FutureSharedResolver V)) :
    CallbackResult V → FutureSharedResolver V → Prop
  | value (p : Option V) : Outcome G adopt σ (.value p) (.value p)
  | throws (e : FutureError) : Outcome G adopt σ (.throws e) (.error e)
  | future {m o} : Denotes G adopt σ m o → Outcome G adopt σ (.future m) o

end

mutual

/-- More settled promises leave every outcome as it is. -/
theorem Denotes.mono {G : Graph V} {adopt : Bool} {σ σ' : Nat → Option (FutureSharedResolver V)}
    (hσ : ∀ n r, σ n = some r → σ' n = some r) {n : Nat} {o : FutureSharedResolver V} :
    Denotes G adopt σ n o → Denotes G adopt σ' n o
  | .promise hn h => .promise hn (hσ _ _ h)
  | .async hn h => .async hn (Outcome.mono hσ h)
  | .thenValue hn hs h => .thenValue hn (Denotes.mono hσ hs) (Outcome.mono hσ h)
  | .thenError hn hs => .thenError hn (Denotes.mono hσ hs)
  | .errorValue hn hs => .errorValue hn (Denotes.mono hσ hs)
  | .errorError hn hs h => .errorError hn (Denotes.mono hσ hs) (Outcome.mono hσ h)
  | .finallyCb hn hs h => .finallyCb hn (Denotes.mono hσ hs) (Outcome.mono hσ h)

/-- An outcome stays when more futures are settled. -/
theorem Outcome.mono {G : Graph V} {adopt : Bool} {σ σ' : Nat → Option (FutureSharedResolver V)}
    (hσ : ∀ n r, σ n = some r → σ' n = some r) {c : CallbackResult V}
    {o : FutureSharedResolver V} : Outcome G adopt σ c o → Outcome G adopt σ' c o
  | .value p => .value p
  | .throws e => .throws e
  | .future h => .future (Denotes.mono hσ h)

end

/-! ## Runs of a graph -/

/-- What can happen next: node `n` is built on thread `t`, the promise `n` is settled on thread `t`,
a handle fires or is closed, or the callback on the stack returns. -/
inductive Graph.Event (V : Type)
  | build (t : Thread) (n : Nat)
  | settle (t : Thread) (n : Nat) (r : FutureSharedResolver V)
  | fire (a : NodeId)
  | close (a : NodeId)
  | ret

/-- The call that builds a node. -/
def Graph.buildLabel (G : Graph V) (t : Thread) (n : Nat) : Label V :=
  match G.node n with
  | .promise isVoid => .promise n G.loop isVoid
  | .async R _ => .async G.loop n R
  | .thenCb s R _ => .thenCb t (.user s) n R
  | .errorCb s _ _ => .errorCb t (.user s) n
  | .finallyCb s R _ => .finallyCb t (.user s) n R

/-- The call that settles a promise. -/
def Graph.settleLabel (t : Thread) (n : Nat) : FutureSharedResolver V → Label V
  | .value p => .resolve t (.user n) p
  | .error e => .reject t (.user n) e

/-- The return of the callback on the stack, which ends as its node says. -/
def Graph.retLabel (G : Graph V) (w : World V) : Option (Label V) :=
  match w.running G.loop with
  | some (.user n) =>
    (w.action (.user n)).resolver.bind fun r =>
      ((G.node n).result r).map fun c => .ret G.loop c.toReturn
  | _ => none

/-- The label of an event; only promises are settled by the program. -/
def Graph.label (G : Graph V) (w : World V) : Graph.Event V → Option (Label V)
  | .build t n => some (G.buildLabel t n)
  | .settle t n r => if (G.node n).isPromise then some (Graph.settleLabel t n r) else none
  | .fire a => some (.fire a)
  | .close a => some (.close a)
  | .ret => G.retLabel w

/-- One step of the system that runs the graph. -/
def Graph.step (uv : UvAsync) (G : Graph V) (w : World V) (ev : Graph.Event V) :
    Option (World V) :=
  (G.label w ev).bind (NodeNative.step uv w)

/-- The run of a list of events from the start. -/
def Graph.run (uv : UvAsync) (G : Graph V) (evs : List (Graph.Event V)) : Option (World V) :=
  Transition.run (G.step uv) World.init evs

/-- How the program settled the promise `n` first, on the loop thread. -/
def Graph.settlement (G : Graph V) (evs : List (Graph.Event V)) (n : Nat) :
    Option (FutureSharedResolver V) :=
  evs.findSome? fun
    | .settle t m r => if m = n ∧ (G.node n).isPromise ∧ t G.loop then some r else none
    | _ => none

/-- No handle is in flight and no callback is on the stack. -/
def World.Quiescent (w : World V) : Prop :=
  w.pending = [] ∧ ∀ l, w.running l = none

end

end NodeNative
