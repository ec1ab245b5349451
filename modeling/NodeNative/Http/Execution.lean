import NodeNative.Async.Chained
import NodeNative.Http.Extraction

/-!
# A call of `ServerPlugin::execute`

`Execution` is a call of `execute` on the futures of the asynchronous core: the first callback is
called at once, and the others are registered with `then`, each on the future of the one before. What
happens besides (the calls that the callbacks make, the rest of the program and the steps of the
loops) are steps of the core, in any order (`ExecutionLabel.other`). A callback of `then` is on the
stack of the loop from the firing of its handle on: it looks at `isSent()` (`ExecutionLabel.turn`),
and returns a resolved future, or the one that its callback returns.

A callback is a match of `ServerPlugin.matchesOf`, and returns any future; for a plugin that is the
future of its own `execute`. `l` is the loop of the server and of the plugin, whose thread calls
`execute`. The lambdas run on the loop of the future that the first callback returned.
-/

namespace NodeNative.Http

open Transition
open Uri (UriTemplateValue)

/-! ### The state -/

/-- Where the loops of `execute` are: not entered, in the call of the first callback, between two
callbacks with these left, or left by the exception of an assertion. -/
inductive ExecuteStage
  | before (todo : List (Match UriTemplateValue))
  | first (todo : List (Match UriTemplateValue))
  | chaining (todo : List (Match UriTemplateValue))
  | thrown (condition : String)

/-- The core, the values of the request and `isSent()` of its response, with the variables of
`execute`: `thens` are the nodes that it has registered, each with the callback that its lambda
captures, and `onStack` is what the lambda on the stack has seen of `isSent()`. Four histories: the
callbacks that were started and the futures that they returned, what `isSent()` was whenever a lambda
ran, and what the lambdas returned. -/
structure Execution (V : Type) where
  world : World V
  values : UriTemplateValue
  isSent : Bool
  stage : ExecuteStage
  result : NodeId
  thens : List (Nat × Match UriTemplateValue)
  onStack : Option Bool
  started : List (Match UriTemplateValue)
  futures : List NodeId
  turns : List Bool
  returned : List NodeId

/-- What can happen: anything in the core outside the lambdas, `ServerResponse::end`, the `extract`
of a template by another `execute`, the call of `execute`, the return of the first callback, the
registration of the next one, a lambda that looks at `isSent()`, one that has seen a sent response,
and the return of the callback of one that has not. The nodes of new futures are named. -/
inductive ExecutionLabel (V : Type)
  | other (lab : NodeNative.Label V)
  | send
  | extract (e : Extraction)
  | call (n : Nat)
  | firstReturns (g : NodeId)
  | chain (n : Nat)
  | turn
  | skip (n : Nat)
  | returns (g : NodeId)

section
variable {V : Type} (uv : UvAsync) (l : LoopId) (s : Execution V)

/-- Before the program starts: the callbacks that will match, and the values of the request. -/
def Execution.start (values : UriTemplateValue) (ms : List (Match UriTemplateValue)) :
    Execution V where
  world := .init
  values
  isSent := false
  stage := .before ms
  result := .user 0
  thens := []
  onStack := none
  started := []
  futures := []
  turns := []
  returned := []

/-- The loop of the future that the next callback is registered on, and of the nodes. -/
def Execution.loop : LoopId := (s.world.futures s.result).loop

/-- The callback that the lambda on the stack has captured. -/
def Execution.callback : Option (Match UriTemplateValue) :=
  match s.world.running s.loop with
  | some (.user n) => (s.thens.find? (·.1 == n)).map (·.2)
  | _ => none

/-- The futures of the registered nodes are settled by their actions only, and their lambdas return
what `execute` says. -/
def Execution.allows : NodeNative.Label V → Bool
  | .resolve _ f _ | .reject _ f _ =>
    s.thens.all fun e => f != .user e.1 && f != .relayThen (.user e.1) && f != .relayError (.user e.1)
  | .ret l' _ => l' != s.loop || s.callback.isNone
  | _ => true

/-- A `Future<void>`. -/
def Execution.isFuture (g : NodeId) : Bool :=
  s.world.created.contains g && (s.world.futures g).isVoid

/-- `Promise<void>::Resolve(_loop)`. -/
def resolvedPromise (n : Nat) : List (NodeNative.Label V) :=
  [.promise n l true, .resolve (Thread.ofLoop l) (.user n) none]

/-- One step; `none` when the label is not enabled. Source: `ServerPlugin.cpp:77-104`. -/
def executionStep : ExecutionLabel V → Option (Execution V)
  | .other lab =>
    if s.allows lab then (NodeNative.step uv s.world lab).map fun world => { s with world } else none
  | .send => some { s with isSent := true }
  | .extract e =>
    match e.run s.values with
    | .ok values => some { s with values }
    | .error _ => none
  | .call n =>
    match s.stage with
    | .before todo =>
      (run (NodeNative.step uv) s.world (resolvedPromise l n)).map fun world =>
        let s := { s with world, result := .user n }
        match todo with
        | [] => { s with stage := .chaining [] }
        | m :: todo =>
          match m.extract s.values with
          | .ok values => { s with values, stage := .first todo, started := [m] }
          | .error condition => { s with stage := .thrown condition }
    | _ => none
  | .firstReturns g =>
    match s.stage with
    | .first todo =>
      if s.isFuture g then
        some { s with result := g, stage := .chaining todo, futures := [g] }
      else none
    | _ => none
  | .chain n =>
    match s.stage with
    | .chaining (m :: todo) =>
      match m.extract s.values with
      | .ok values =>
        (NodeNative.step uv s.world (.thenCb (Thread.ofLoop l) s.result n .futureVoid)).map fun world =>
          { s with
            world, values
            stage := .chaining todo
            result := .user n
            thens := s.thens ++ [(n, m)] }
      | .error condition => some { s with stage := .thrown condition }
    | _ => none
  | .turn =>
    match s.onStack, s.callback with
    | none, some m =>
      some { s with
        onStack := some s.isSent
        turns := s.turns ++ [s.isSent]
        started := if s.isSent then s.started else s.started ++ [m] }
    | _, _ => none
  | .skip n =>
    if s.onStack = some true then
      if s.loop = l then
        (run (NodeNative.step uv) s.world (resolvedPromise l n ++ [.ret l (.future (.user n))])).map
          fun world => { s with world, onStack := none, returned := s.returned ++ [.user n] }
      else
        -- The new promise belongs to the loop of the server, whose thread this is not.
        (NodeNative.step uv s.world (.ret s.loop (.raises "Not on the event Loop thread"))).map
          fun world => { s with world, onStack := none }
    else none
  | .returns g =>
    if s.onStack = some false && s.isFuture g then
      (NodeNative.step uv s.world (.ret s.loop (.future g))).map fun world =>
        { s with
          world
          onStack := none
          futures := s.futures ++ [g]
          returned := s.returned ++ [g] }
    else none

end

/-! ### Extracting the templates -/

/-- The match is an extraction of a template with these parameters, whose other checks succeed. -/
def Match.HasParams (m : Match UriTemplateValue) (params : List Str) : Prop :=
  ∃ e : Extraction, m.extract = e.run ∧ e.Checked ∧ e.uri.params = params

/-- The matched templates have pairwise distinct parameter names, the request has no values with these
names, and the other checks of their extractions succeed. -/
structure DistinctParams (values : UriTemplateValue) (ms : List (Match UriTemplateValue))
    (params : List (List Str)) : Prop where
  templates : List.Forall₂ Match.HasParams ms params
  nodup : params.flatten.Nodup
  fresh : ∀ name ∈ params.flatten, values.child? name = none

/-- The label extracts no template with one of these parameter names. -/
def ExecutionLabel.Avoids {V : Type} (params : List (List Str)) : ExecutionLabel V → Prop
  | .extract e => ∀ name ∈ e.added, name ∉ params.flatten
  | _ => True

section
variable {m : Match UriTemplateValue} {ms : List (Match UriTemplateValue)} {names : List Str}
  {params : List (List Str)} {values values' : UriTemplateValue}

/-- The next template can be extracted, and the others after it. -/
theorem DistinctParams.extract (h : DistinctParams values (m :: ms) params) :
    ∃ values', m.extract values = .ok values' ∧ ∃ params', DistinctParams values' ms params' ∧
      ∀ name ∈ params'.flatten, name ∈ params.flatten := by
  obtain ⟨templates, nodup, fresh⟩ := h
  cases templates with
  | @cons _ names _ params' hm hms =>
    obtain ⟨e, hextract, hchecked, rfl⟩ := hm
    rw [List.flatten_cons, List.nodup_append] at nodup
    obtain ⟨values', hvalues'⟩ := Extraction.run_iff.mpr ⟨hchecked, fun name hname =>
      fresh name (List.mem_append_left _ (Extraction.added_subset hname))⟩
    refine ⟨values', hextract ▸ hvalues', params', ⟨hms, nodup.2.1, fun name hname => ?_⟩,
      fun name hname => List.mem_append_right _ hname⟩
    refine (Extraction.child?_run hvalues' name).mpr ⟨fresh name (List.mem_append_right _ hname), ?_⟩
    exact fun hadded => nodup.2.2 name (Extraction.added_subset hadded) name hname rfl

/-- The extraction of other templates does not matter. -/
theorem DistinctParams.other (h : DistinctParams values ms params) {e : Extraction}
    (hother : ∀ name ∈ e.added, name ∉ params.flatten) (hextract : e.run values = .ok values') :
    DistinctParams values' ms params :=
  ⟨h.templates, h.nodup, fun name hname => (Extraction.child?_run hextract name).mpr
    ⟨h.fresh name hname, fun hadded => hother name hadded hname⟩⟩

end

end NodeNative.Http
