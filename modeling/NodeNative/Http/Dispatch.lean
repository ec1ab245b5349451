import NodeNative.Lib.Hoare
import NodeNative.Http.Answers

/-!
# Dispatching a request

`ServerPlugin::execute` collects the callbacks that match a path, orders them by the length of their
match, calls the first of them at once and chains the others with `then`. A plugin is a callback
whose own `execute` does the same on its matches. The future that a call returns is the code that
settles it: `execute` returns a value of type `D V Settled`, which runs later, when the loop runs
the callbacks of the chain.

A handler is given by what it does when it is called: the response that it ends, if any, and the
future that it returns or the exception that it throws. The templates are given by their matching
and by what `uri.extract` makes of the values of the request.
-/

namespace NodeNative.Http

/-! ### The code -/

/-- How a `Future<void>` is settled: `none` while it is pending. -/
abbrev Settled := Option (FutureSharedResolver Unit)

def resolved : Settled := some (.value none)

/-- What a handler does when it is called. -/
structure Handler where
  sends : Option (Nat × Str)
  result : Except Exn Settled

/-- A registered template: `CallbackDataBase::matchUri`, with the length of the match, and
`uri.extract` on the values of the request, which fails with an assertion. -/
structure Template (V : Type) where
  matchUri : Str → Option Nat
  extract : Str → V → Except String V

/-- Source: `ServerPlugin.hpp:90`. A plugin with the plugins and the method callbacks registered on
it, in the order of registration. -/
inductive ServerPlugin (V : Type)
  | mk (plugins : List (Template V × ServerPlugin V))
    (methodCallbacks : List (Str × List (Template V × Handler)))

/-- A callback that matches, with the extraction that `execute` makes for it: a handler, or a plugin
with its own matches. -/
inductive Match (V : Type)
  | handler (extract : V → Except String V) (h : Handler)
  | plugin (extract : V → Except String V) (ms : List (Match V))

section
variable {V : Type}

/-- The state of a dispatch: the values of the request and the response, once it is ended. -/
structure Dispatching (V : Type) where
  values : V
  answer : Option (Nat × Str)

/-- Code of a dispatch. -/
abbrev D (V : Type) := EStateM Exn (Dispatching V)

/-- `ServerResponse::end` on the response of the request. -/
def sendResponse (answer : Nat × Str) : D V Unit := do
  let s ← get
  if s.answer.isSome then throw (assertionFailed "!_closed")
  else set { s with answer := some answer }

def Handler.call (h : Handler) : D V Settled := do
  match h.sends with
  | some answer => sendResponse answer
  | none => pure ()
  match h.result with
  | .ok o => pure o
  | .error e => throw e

def Match.extract : Match V → V → Except String V
  | .handler ex _ | .plugin ex _ => ex

/-- `uri.extract` on the values of the request. -/
def extractValues (ex : V → Except String V) : D V Unit := do
  let s ← get
  match ex s.values with
  | .ok values => set { s with values }
  | .error condition => throw (assertionFailed condition)

/-- An `ActionCallback` catches a `FutureError` of its callback and rejects its future with it.
Source: `ActionCallback.ipp:199` `ActionCallback<Future<void>, Args...>::callFn`. -/
def callFn {α : Type} (cb : D V α) (rejected : FutureError → α) : D V α :=
  tryCatch cb fun
    | .futureError e => pure (rejected e)
    | e => throw e

mutual

/-- Source: `ServerPlugin.cpp:76-104` `ServerPlugin::execute` on its matches: the first one is
called before the others are extracted and chained. -/
def execute : List (Match V) → D V (D V Settled)
  | [] => pure (pure resolved)
  | m :: ms => do
    extractValues m.extract
    let first ← m.execute
    ms.forM fun m => extractValues m.extract
    pure do
      let o ← first
      thenAll ms o

/-- Source: `ServerPlugin.cpp:27` `PluginData::execute`, `ServerPlugin.cpp:31`
`CallbackData::execute`. -/
def Match.execute : Match V → D V (D V Settled)
  | .handler _ h => do
    let o ← h.call
    pure (pure o)
  | .plugin _ ms => NodeNative.Http.execute ms

/-- The callbacks chained on a future, once it is settled: each of them runs when the future before
it is resolved, and calls its match unless the response is sent. -/
def thenAll : List (Match V) → Settled → D V Settled
  | [], o => pure o
  | m :: ms, o => do
    let o ←
      match o with
      | some (.value _) => do
        let s ← get
        if s.answer.isSome then pure resolved
        else
          let d ← callFn m.execute fun e => pure (some (.error e))
          d
      | o => pure o
    thenAll ms o

end

/-- The callbacks by the length of their match, in ascending order, and in the order in which they
were found among those of one length. Source: `callbacksMap`, a `std::map` of lists. -/
def byLength {α : Type} (found : List (Nat × α)) : List (Nat × α) :=
  (found.foldl (fun m e => OrderedMap.insert (· < ·) e.1
    ((OrderedMap.find? (· < ·) e.1 m).getD [] ++ [e.2]) m) []).flatMap
      fun e => e.2.map (e.1, ·)

/-- The path with which a match is executed: the first one gets the path as it is, the others what
remains after their match. Source: `ServerPlugin.cpp:80-100`. -/
def withPaths {α : Type} (path : Str) : List (Nat × (Str → α)) → List α
  | [] => []
  | (_, first) :: found => first path :: found.map fun e => e.2 (path.drop e.1)

/-- Source: `ServerPlugin.cpp:39` `ServerPlugin::getCallbacksByMethod`. -/
def callbacksByMethod (methodCallbacks : List (Str × List (Template V × Handler)))
    (method path : Str) : List (Nat × (Str → Match V)) :=
  ((methodCallbacks.find? (·.1 = method)).elim [] (·.2)).filterMap fun (t, h) =>
    (t.matchUri path).map fun length => (length, fun _ => .handler (t.extract path) h)

mutual

/-- The matches of a plugin on a path. -/
def ServerPlugin.matchesOf : ServerPlugin V → Str → Str → List (Match V)
  | .mk plugins methodCallbacks, method, path =>
    withPaths path (byLength (pluginsFound plugins method path ++
      callbacksByMethod methodCallbacks [] path ++ callbacksByMethod methodCallbacks method path))

def pluginsFound : List (Template V × ServerPlugin V) → Str → Str → List (Nat × (Str → Match V))
  | [], _, _ => []
  | (t, p) :: plugins, method, path =>
    match t.matchUri path with
    | some length =>
      (length, fun path' => .plugin (t.extract path) (p.matchesOf method path')) ::
        pluginsFound plugins method path
    | none => pluginsFound plugins method path

end

/-- Source: `ServerPlugin.cpp:60` `ServerPlugin::execute`. -/
def ServerPlugin.execute (p : ServerPlugin V) (method path : Str) : D V (D V Settled) :=
  NodeNative.Http.execute (p.matchesOf method path)

/-- The `then` and `error` callbacks behind `execute`. Source: `ServerConnection.cpp:133-160`. -/
def respond : Settled → D V Unit
  | none => pure ()
  | some (.value _) => do
    let s ← get
    if s.answer.isSome then pure () else sendResponse (404, [])
  | some (.error e) => do
    let s ← get
    if s.answer.isSome then pure () else sendResponse (500, e.message.toList)

/-- Source: `ServerConnection.cpp:124` `ServerConnection::processRequest`. The read callback calls
it with nothing around it. -/
def processRequest (p : ServerPlugin V) (method path : Str) : D V (D V Unit) := do
  let d ← p.execute method path
  pure (d >>= respond)

/-! ### The order of a dispatch -/

/-- What a dispatch does: it extracts a template or calls a handler. -/
inductive Action (V : Type)
  | extract (ex : V → Except String V)
  | call (h : Handler)

mutual

/-- What `execute` does before it returns. -/
def syncActions : List (Match V) → List (Action V)
  | [] => []
  | m :: ms => .extract m.extract :: (m.sync ++ ms.map fun m => .extract m.extract)

def Match.sync : Match V → List (Action V)
  | .handler _ h => [.call h]
  | .plugin _ ms => syncActions ms

end

mutual

/-- What the callbacks do that `execute` chains, when no handler ends the dispatch. -/
def laterActions : List (Match V) → List (Action V)
  | [] => []
  | m :: ms => m.later ++ chainedActions ms

def Match.later : Match V → List (Action V)
  | .handler _ _ => []
  | .plugin _ ms => laterActions ms

/-- What the callbacks of chained matches do. -/
def chainedActions : List (Match V) → List (Action V)
  | [] => []
  | m :: ms => m.sync ++ (m.later ++ chainedActions ms)

end

/-- A whole dispatch. -/
def schedule (ms : List (Match V)) : List (Action V) := syncActions ms ++ laterActions ms

/-- The handlers that actions call. -/
def calls : List (Action V) → List Handler
  | [] => []
  | .extract _ :: as => calls as
  | .call h :: as => h :: calls as

/-- The handlers of a dispatch, in the order of their calls. -/
def handlersOf (ms : List (Match V)) : List Handler := calls (schedule ms)

/-- The extractions that are made before the call number `k`. -/
def extractsBefore : List (Action V) → Nat → List (V → Except String V)
  | [], _ => []
  | .extract ex :: as, k => ex :: extractsBefore as k
  | .call _ :: _, 0 => []
  | .call _ :: as, k + 1 => extractsBefore as k

/-- The values after some extractions. -/
def extractAll (exs : List (V → Except String V)) (values : V) : Except String V :=
  exs.foldlM (fun v ex => ex v) values

/-- `execute` calls a handler itself, through any number of plugins. -/
def callsInline : List (Match V) → Bool
  | [] => false
  | .handler _ _ :: _ => true
  | .plugin _ ms :: _ => callsInline ms

mutual

/-- The match as a callback of a connection. -/
def Match.toEntry : Match V → Entry
  | .handler _ _ => .handler
  | .plugin _ ms => .plugin (toEntries ms)

def toEntries : List (Match V) → List Entry
  | [] => []
  | m :: ms => m.toEntry :: toEntries ms

end

/-- A match calls a handler at once exactly when its entry does. -/
theorem Match.enter_toEntry : ∀ (m : Match V) (ms : List (Match V)) (todo : List Entry),
    (m.toEntry.enter todo).1 = callsInline (m :: ms)
  | .handler _ _, ms, todo => by simp [toEntry, Entry.enter, callsInline]
  | .plugin _ [], ms, todo => by simp [toEntry, toEntries, Entry.enter, callsInline]
  | .plugin _ (m :: ms'), ms, todo => by
    simp only [toEntry, toEntries, Entry.enter, callsInline]
    exact enter_toEntry m ms' _

/-- The handlers that `execute` calls itself are those that a connection has on its stack inside
the read callback, where an exception ends the process. -/
theorem start_toEntries (ms : List (Match V)) :
    (Chain.start (toEntries ms)).phase = if callsInline ms then .running true else .ready := by
  cases ms with
  | nil => simp [toEntries, Chain.start, callsInline]
  | cons m ms =>
    rw [toEntries, Chain.start, Chain.execute, ← m.enter_toEntry ms (toEntries ms)]
    rcases m.toEntry.enter (toEntries ms) with ⟨_ | _, todo⟩ <;> rfl

/-- The actions one after the other, as long as none of them throws. -/
def perform : List (Action V) → D V Unit
  | [] => pure ()
  | .extract ex :: as => do
    extractValues ex
    perform as
  | .call h :: as => do
    let _ ← h.call
    perform as

/-- The future of actions that run in callbacks of `then`. -/
def performFuture (as : List (Action V)) : D V Settled :=
  callFn (do perform as; pure resolved) fun e => some (.error e)

/-- The handler returns a resolved future and leaves the response alone. -/
def Handler.Passes (h : Handler) : Prop := h.sends = none ∧ h.result = .ok resolved

/-- The handler throws a `FutureError` and leaves the response alone. -/
def Handler.Throws (h : Handler) (e : FutureError) : Prop :=
  h.sends = none ∧ h.result = .error (.futureError e)

/-- Every handler passes, up to one that throws a `FutureError`. -/
def Plain : List Handler → Prop
  | [] => True
  | h :: hs => (∃ e, h.Throws e) ∨ h.Passes ∧ Plain hs

/-- The handlers before one that throws pass. -/
theorem plain_of_throws {hs : List Handler} {k : Nat} {h : Handler} {e : FutureError}
    (hk : hs[k]? = some h) (hthrow : h.Throws e) (hpass : ∀ h' ∈ hs.take k, h'.Passes) :
    Plain hs := by
  induction hs generalizing k with
  | nil => trivial
  | cons h₀ hs ih =>
    cases k with
    | zero =>
      cases hk
      exact .inl ⟨e, hthrow⟩
    | succ k => exact .inr ⟨hpass h₀ (.head _), ih hk fun h' hmem => hpass h' (.tail _ hmem)⟩

/-- A handler that passes does not throw. -/
theorem Handler.Passes.not_throws {h : Handler} {e : FutureError} (hp : h.Passes) :
    ¬ h.Throws e := by
  rintro ⟨-, hr⟩
  rw [hp.2] at hr
  cases hr

/-- The first handlers of a plain list are plain, -/
theorem Plain.left {a b : List Handler} (h : Plain (a ++ b)) : Plain a := by
  induction a with
  | nil => trivial
  | cons h₀ a ih => exact h.imp_right fun ⟨hp, hrest⟩ => ⟨hp, ih hrest⟩

/-- and so are the others when those have passed. -/
theorem Plain.right {a b : List Handler} (h : Plain (a ++ b)) (hpass : ∀ h' ∈ a, h'.Passes) :
    Plain b := by
  induction a with
  | nil => exact h
  | cons h₀ a ih =>
    rcases h with ⟨e, hthrow⟩ | ⟨-, hrest⟩
    · exact absurd hthrow (hpass h₀ (.head _)).not_throws
    · exact ih hrest fun h' hmem => hpass h' (.tail _ hmem)

@[simp] theorem calls_append (a b : List (Action V)) : calls (a ++ b) = calls a ++ calls b := by
  induction a with
  | nil => rfl
  | cons x a ih => cases x <;> simp [calls, ih]

/-- The extractions of `execute` call no handler. -/
@[simp] theorem calls_extracts (ms : List (Match V)) :
    calls (ms.map fun m => Action.extract m.extract) = [] := by
  induction ms with
  | nil => rfl
  | cons m ms ih => exact ih

/-! ### Running actions -/

/-- A handler that passes returns a resolved future and changes nothing, -/
theorem Handler.Passes.run_call {h : Handler} (hp : h.Passes) (s : Dispatching V) :
    (h.call : D V Settled).run s = .ok resolved s := by
  obtain ⟨hs, hr⟩ := hp
  simp only [call, hs, hr]
  rfl

/-- and one that throws changes nothing either. -/
theorem Handler.Throws.run_call {h : Handler} {e : FutureError} (ht : h.Throws e)
    (s : Dispatching V) : (h.call : D V Settled).run s = .error (.futureError e) s := by
  obtain ⟨hs, hr⟩ := ht
  simp only [call, hs, hr]
  rfl

/-- An extraction writes its values, or throws. -/
theorem run_extractValues (ex : V → Except String V) (s : Dispatching V) :
    (extractValues ex).run s = match ex s.values with
      | .ok values => .ok () { s with values }
      | .error condition => .error (assertionFailed condition) s := by
  simp only [extractValues, EStateM.run_bind, EStateM.run_get]
  cases ex s.values <;> rfl

/-- Actions are performed one after the other. -/
theorem perform_append (a b : List (Action V)) :
    perform (a ++ b) = (do perform a; perform b) := by
  induction a with
  | nil => simp [perform]
  | cons x a ih => cases x <;> simp [perform, ih]

/-- Plain actions that come to their end have passed, and have left the response alone. -/
theorem perform_ok {as : List (Action V)} (h : Plain (calls as)) {s s' : Dispatching V}
    (hrun : (perform as).run s = .ok () s') :
    (∀ h ∈ calls as, h.Passes) ∧ s'.answer = s.answer := by
  induction as generalizing s with
  | nil =>
    cases hrun
    exact ⟨nofun, rfl⟩
  | cons x as ih =>
    cases x with
    | extract ex =>
      simp only [perform, EStateM.run_bind, run_extractValues] at hrun
      cases hex : ex s.values with
      | error c => rw [hex] at hrun; cases hrun
      | ok values =>
        rw [hex] at hrun
        obtain ⟨hall, hans⟩ := ih h hrun
        exact ⟨hall, hans⟩
    | call h₀ =>
      simp only [perform, EStateM.run_bind] at hrun
      rcases h with ⟨e, hthrow⟩ | ⟨hpass, hrest⟩
      · rw [hthrow.run_call] at hrun
        cases hrun
      · rw [hpass.run_call] at hrun
        obtain ⟨hall, hans⟩ := ih hrest hrun
        exact ⟨List.forall_mem_cons.2 ⟨hpass, hall⟩, hans⟩

/-- What a callback of `then` makes of its code. -/
theorem run_callFn {α : Type} (cb : D V α) (rejected : FutureError → α) (s : Dispatching V) :
    (callFn cb rejected).run s = match cb.run s with
      | .ok a s' => .ok a s'
      | .error (.futureError e) s' => .ok (rejected e) s'
      | .error e s' => .error e s' := by
  rw [callFn, Hoare.tryCatch_run]
  cases cb.run s with
  | ok a s' => rfl
  | error e s' => cases e <;> rfl

/-- A future that performs actions is resolved behind them, or rejected. -/
theorem run_performFuture (as : List (Action V)) (s : Dispatching V) :
    (performFuture as).run s = match (perform as).run s with
      | .ok _ s' => .ok resolved s'
      | .error (.futureError e) s' => .ok (some (.error e)) s'
      | .error e s' => .error e s' := by
  rw [performFuture, run_callFn, EStateM.run_bind]
  cases (perform as).run s with
  | ok a s' => rfl
  | error e s' => cases e <;> rfl

/-- The extractions of a dispatch are actions. -/
theorem forM_extractValues (ms : List (Match V)) :
    (ms.forM fun m => extractValues m.extract) =
      perform (ms.map fun m => Action.extract m.extract) := by
  induction ms with
  | nil => rfl
  | cons m ms ih =>
    rw [List.map_cons, perform, ← ih]
    rfl

/-! ### `execute` and its actions -/

/-- The code of a future that does the same as chained actions, when the response is not ended. -/
def IsFuture (d : D V Settled) (as : List (Action V)) : Prop :=
  ∀ s : Dispatching V, s.answer = none → d.run s = (performFuture as).run s

/-- A rejected future passes its error on. -/
theorem thenAll_error (e : FutureError) (ms : List (Match V)) :
    thenAll ms (some (.error e)) = pure (some (.error e)) := by
  induction ms with
  | nil => rfl
  | cons m ms ih => exact ih

/-- Matches chained on a future. -/
theorem IsFuture.append {d : D V Settled} {a b : List (Action V)} {ms : List (Match V)}
    (hd : IsFuture d a) (ha : Plain (calls a))
    (hb : (∀ h ∈ calls a, h.Passes) → IsFuture (thenAll ms resolved) b) :
    IsFuture (do let o ← d; thenAll ms o) (a ++ b) := by
  intro s hs
  rw [EStateM.run_bind, hd s hs, run_performFuture, run_performFuture, perform_append,
    EStateM.run_bind]
  cases hrun : (perform a).run s with
  | ok _ s' =>
    obtain ⟨hall, hans⟩ := perform_ok ha hrun
    have h := hb hall s' (hans.trans hs)
    rw [run_performFuture] at h
    exact h
  | error e s' =>
    cases e with
    | futureError e => simp only [thenAll_error]; rfl
    | _ => rfl

mutual

/-- `execute` performs its actions and returns the future of the chained ones. -/
theorem run_execute : ∀ (ms : List (Match V)), Plain (calls (syncActions ms ++ laterActions ms)) →
    ∀ s : Dispatching V, s.answer = none →
      match (perform (syncActions ms)).run s with
      | .ok _ s' => ∃ d, (execute ms).run s = .ok d s' ∧ IsFuture d (laterActions ms)
      | .error e s' => (execute ms).run s = .error e s'
  | [], _, s, _ => ⟨pure resolved, rfl, fun s _ => rfl⟩
  | m :: ms, hplain, s, hs => by
    simp only [syncActions, laterActions, calls_append, calls, calls_extracts,
      List.append_nil, ← List.append_assoc] at hplain
    simp only [syncActions, laterActions, perform, execute, EStateM.run_bind, run_extractValues,
      forM_extractValues, perform_append]
    cases hex : m.extract s.values with
    | error c => rfl
    | ok values =>
      have hm := run_match m (by rw [calls_append]; exact hplain.left) { s with values } hs
      cases hsync : (perform m.sync).run { s with values } with
      | error e s' =>
        rw [hsync] at hm
        simp only [hsync, hm]
      | ok _ s₂ =>
        rw [hsync] at hm
        obtain ⟨d, hd, hfut⟩ := hm
        obtain ⟨hall, -⟩ := perform_ok hplain.left.left hsync
        simp only [hsync, hd]
        cases hrest : (perform (ms.map fun m => Action.extract m.extract)).run s₂ with
        | error e s' => rfl
        | ok _ s₃ =>
          refine ⟨_, rfl, hfut.append (hplain.left.right hall) fun hlater => ?_⟩
          refine run_thenAll ms (hplain.right fun h hmem => ?_)
          exact (List.mem_append.1 hmem).elim (hall h) (hlater h)

/-- The execution of a match does what it calls at once, and returns a future that does the rest. -/
theorem run_match : ∀ (m : Match V), Plain (calls (m.sync ++ m.later)) →
    ∀ s : Dispatching V, s.answer = none →
      match (perform m.sync).run s with
      | .ok _ s' => ∃ d, m.execute.run s = .ok d s' ∧ IsFuture d m.later
      | .error e s' => m.execute.run s = .error e s'
  | .handler ex h, hplain, s, hs => by
    rw [Match.sync, perform, Match.execute, EStateM.run_bind, EStateM.run_bind]
    rcases hplain with ⟨e, hthrow⟩ | ⟨hpass, -⟩
    · rw [hthrow.run_call]
    · rw [hpass.run_call]
      exact ⟨pure resolved, rfl, fun s _ => rfl⟩
  | .plugin ex ms, hplain, s, hs => run_execute ms hplain s hs

/-- A chain of `then` performs the actions of its matches. -/
theorem run_thenAll : ∀ (ms : List (Match V)), Plain (calls (chainedActions ms)) →
    IsFuture (thenAll ms resolved) (chainedActions ms)
  | [], _ => fun s _ => rfl
  | m :: ms, hplain => by
    rw [chainedActions, ← List.append_assoc, calls_append] at hplain
    -- the callback of `then` that calls the next match
    have hfirst : IsFuture (do
        let d ← callFn m.execute fun e => pure (some (.error e))
        d) (m.sync ++ m.later) := by
      intro s hs
      have hm := run_match m hplain.left s hs
      rw [EStateM.run_bind, run_callFn, run_performFuture, perform_append, EStateM.run_bind]
      cases hsync : (perform m.sync).run s with
      | error e s' =>
        rw [hsync] at hm
        rw [hm]
        cases e <;> rfl
      | ok _ s' =>
        rw [hsync] at hm
        obtain ⟨d, hd, hfut⟩ := hm
        have hplain' := hplain.left
        rw [calls_append] at hplain'
        have hs' := (perform_ok hplain'.left hsync).2.trans hs
        rw [hd]
        exact (hfut s' hs').trans (run_performFuture _ _)
    have hall := hfirst.append hplain.left fun hpass => run_thenAll ms (hplain.right hpass)
    intro s hs
    rw [chainedActions, ← List.append_assoc, ← hall s hs]
    simp [thenAll, resolved, hs]

end

/-! ### A handler that throws -/

/-- Extractions one after the other. -/
theorem extractAll_append (a b : List (V → Except String V)) (values : V) :
    extractAll (a ++ b) values = extractAll a values >>= extractAll b := by
  rw [extractAll, List.foldlM_append]
  rfl

/-- The extractions in front of a call further on are those of both parts. -/
theorem extractsBefore_append {a : List (Action V)} (b : List (Action V)) {k : Nat}
    (hk : (calls a).length ≤ k) :
    extractsBefore (a ++ b) k = extractsBefore a k ++ extractsBefore b (k - (calls a).length) := by
  induction a generalizing k with
  | nil => rfl
  | cons x a ih =>
    cases x with
    | extract ex => exact congrArg (ex :: ·) (ih hk)
    | call h =>
      cases k with
      | zero => simp [calls] at hk
      | succ k =>
        simp only [calls, List.length_cons, Nat.add_le_add_iff_right] at hk
        simp [extractsBefore, calls, ih hk]

/-- Actions whose handlers pass only extract. -/
theorem perform_passes {as : List (Action V)} (hpass : ∀ h ∈ calls as, h.Passes) {k : Nat}
    (hk : (calls as).length ≤ k) (s : Dispatching V) :
    match extractAll (extractsBefore as k) s.values with
    | .ok values => (perform as).run s = .ok () { s with values }
    | .error c => ∃ s', (perform as).run s = .error (assertionFailed c) s' := by
  induction as generalizing k s with
  | nil => rfl
  | cons x as ih =>
    cases x with
    | extract ex =>
      simp only [perform, EStateM.run_bind, run_extractValues, extractsBefore, extractAll,
        List.foldlM_cons]
      cases hex : ex s.values with
      | error c => exact ⟨s, rfl⟩
      | ok values => exact ih hpass hk { s with values }
    | call h =>
      simp only [calls, List.forall_mem_cons] at hpass
      cases k with
      | zero => simp [calls] at hk
      | succ k =>
        simp only [calls, List.length_cons, Nat.add_le_add_iff_right] at hk
        simp only [perform, EStateM.run_bind, hpass.1.run_call, extractsBefore]
        exact ih hpass.2 hk s

/-- Actions come to a handler that throws, unless an extraction before it fails. -/
theorem perform_throws {as : List (Action V)} {k : Nat} {h : Handler} {e : FutureError}
    (hk : (calls as)[k]? = some h) (hthrow : h.Throws e)
    (hpass : ∀ h' ∈ (calls as).take k, h'.Passes) (s : Dispatching V) :
    match extractAll (extractsBefore as k) s.values with
    | .ok values => (perform as).run s = .error (.futureError e) { s with values }
    | .error c => ∃ s', (perform as).run s = .error (assertionFailed c) s' := by
  induction as generalizing k s with
  | nil => cases hk
  | cons x as ih =>
    cases x with
    | extract ex =>
      simp only [perform, EStateM.run_bind, run_extractValues, extractsBefore, extractAll,
        List.foldlM_cons]
      cases hex : ex s.values with
      | error c => exact ⟨s, rfl⟩
      | ok values => exact ih hk hpass { s with values }
    | call h₀ =>
      cases k with
      | zero =>
        cases hk
        simp only [perform, EStateM.run_bind, hthrow.run_call, extractsBefore, extractAll]
        rfl
      | succ k =>
        simp only [calls, List.take_succ_cons, List.forall_mem_cons] at hpass
        simp only [perform, EStateM.run_bind, hpass.1.run_call, extractsBefore]
        exact ih hk hpass.2 s

/-- `execute` calls at most one handler itself. -/
theorem length_calls_syncActions : ∀ ms : List (Match V),
    (calls (syncActions ms)).length = (callsInline ms).toNat
  | [] => by simp [syncActions, calls, callsInline]
  | .handler _ _ :: ms => by simp [syncActions, Match.sync, calls, callsInline]
  | .plugin _ ms' :: ms => by
    simp [syncActions, Match.sync, calls, callsInline, length_calls_syncActions ms']

/-- The code returns a future that is rejected with the error. -/
def Rejects (x : D V (D V Settled)) (e : FutureError) (s : Dispatching V) : Prop :=
  ∃ d s₁ s₂, x.run s = .ok d s₁ ∧ d.run s₁ = .ok (some (.error e)) s₂

/-- The code and the callbacks that it leaves return, and the response is ended with this. -/
def Answers (x : D V (D V Unit)) (answer : Nat × Str) (s : Dispatching V) : Prop :=
  ∃ d s₁ s₂, x.run s = .ok d s₁ ∧ d.run s₁ = .ok () s₂ ∧ s₂.answer = some answer

section
variable {ms : List (Match V)} {k : Nat} {h : Handler} {e : FutureError}
  (hk : (handlersOf ms)[k]? = some h) (hthrow : h.Throws e)
  (hpass : ∀ h' ∈ (handlersOf ms).take k, h'.Passes) {s : Dispatching V} (hs : s.answer = none)
include hk hthrow hpass hs

/-- A handler that `execute` calls itself: nothing catches its exception. -/
theorem execute_throws_inline (hinline : k = 0 ∧ callsInline ms = true) :
    ∃ x s', (execute ms).run s = .error x s' := by
  obtain ⟨rfl, hinline⟩ := hinline
  have hplain := plain_of_throws hk hthrow hpass
  rw [handlersOf, schedule, calls_append] at hk
  have hlen : (calls (syncActions ms)).length = 1 := by
    rw [length_calls_syncActions, hinline]
    rfl
  rw [List.getElem?_append_left (by omega)] at hk
  have hrun := perform_throws hk hthrow (by simp) s
  have hexec := run_execute ms hplain s hs
  cases hvalues : extractAll (extractsBefore (syncActions ms) 0) s.values with
  | ok values =>
    rw [hvalues] at hrun
    rw [hrun] at hexec
    exact ⟨_, _, hexec⟩
  | error c =>
    rw [hvalues] at hrun
    obtain ⟨s', hrun⟩ := hrun
    rw [hrun] at hexec
    exact ⟨_, _, hexec⟩

/-- Any other handler: its exception rejects the future, unless an extraction before it fails. -/
theorem execute_throws_chained (hlater : 0 < k ∨ callsInline ms = false) :
    match extractAll (extractsBefore (schedule ms) k) s.values with
    | .ok _ => ∃ d s₁ s₂, (execute ms).run s = .ok d s₁ ∧ d.run s₁ = .ok (some (.error e)) s₂ ∧
        s₂.answer = none
    | .error _ => ∀ d s₁, (execute ms).run s = .ok d s₁ → ∃ x s₂, d.run s₁ = .error x s₂ := by
  have hplain := plain_of_throws hk hthrow hpass
  have hexec := run_execute ms hplain s hs
  have hlen : (calls (syncActions ms)).length ≤ k := by
    rw [length_calls_syncActions]
    rcases hlater with hpos | hnot
    · exact (Bool.toNat_le _).trans hpos
    · simp [hnot]
  rw [handlersOf, schedule, calls_append] at hk hpass
  rw [List.getElem?_append_right hlen] at hk
  rw [List.take_append, List.take_of_length_le hlen] at hpass
  have hsync := perform_passes (fun h' hmem => hpass h' (List.mem_append_left _ hmem)) hlen s
  rw [schedule, extractsBefore_append _ hlen, extractAll_append]
  cases hfirst : extractAll (extractsBefore (syncActions ms) k) s.values with
  | error c =>
    rw [hfirst] at hsync
    obtain ⟨s', hsync⟩ := hsync
    rw [hsync] at hexec
    intro d s₁ hd
    rw [hexec] at hd
    cases hd
  | ok values =>
    rw [hfirst] at hsync
    simp only at hsync
    rw [hsync] at hexec
    obtain ⟨d, hd, hfut⟩ := hexec
    have hrun := hfut { s with values } hs
    rw [run_performFuture] at hrun
    have hchain := perform_throws hk hthrow
      (fun h' hmem => hpass h' (List.mem_append_right _ hmem)) { s with values }
    change match extractAll _ values with | .ok _ => _ | .error _ => _
    cases hrest : extractAll (extractsBefore (laterActions ms)
        (k - (calls (syncActions ms)).length)) values with
    | ok values' =>
      rw [hrest] at hchain
      simp only at hchain
      rw [hchain] at hrun
      exact ⟨d, _, _, hd, hrun, hs⟩
    | error c =>
      rw [hrest] at hchain
      obtain ⟨s', hchain⟩ := hchain
      rw [hchain] at hrun
      intro d' s₁ hd'
      rw [hd] at hd'
      cases hd'
      exact ⟨_, _, hrun⟩

end

/-- A `FutureError` that a handler throws becomes a rejected future and a 500 exactly when `execute`
does not call the handler itself and the extractions that come before the call succeed. -/
theorem thrown_error_answered (p : ServerPlugin V) (method path : Str) (k : Nat) (h : Handler)
    (e : FutureError) (s : Dispatching V) (hk : (handlersOf (p.matchesOf method path))[k]? = some h)
    (hthrow : h.Throws e) (hpass : ∀ h' ∈ (handlersOf (p.matchesOf method path)).take k, h'.Passes)
    (hs : s.answer = none) :
    (Rejects (p.execute method path) e s ∧
        Answers (processRequest p method path) (500, e.message.toList) s) ↔
      (0 < k ∨ callsInline (p.matchesOf method path) = false) ∧
        ∃ values, extractAll (extractsBefore (schedule (p.matchesOf method path)) k) s.values =
          .ok values := by
  constructor
  · rintro ⟨⟨d, s₁, s₂, hd, hrun⟩, -⟩
    have hlater : 0 < k ∨ callsInline (p.matchesOf method path) = false := by
      by_contra hnot
      obtain ⟨x, s', hthrown⟩ := execute_throws_inline hk hthrow hpass hs (by grind)
      rw [ServerPlugin.execute, hthrown] at hd
      cases hd
    refine ⟨hlater, ?_⟩
    have hchain := execute_throws_chained hk hthrow hpass hs hlater
    cases hvalues : extractAll (extractsBefore (schedule (p.matchesOf method path)) k) s.values with
    | ok values => exact ⟨values, rfl⟩
    | error c =>
      rw [hvalues] at hchain
      obtain ⟨x, s', hx⟩ := hchain d s₁ hd
      rw [hx] at hrun
      cases hrun
  · rintro ⟨hlater, values, hvalues⟩
    have hchain := execute_throws_chained hk hthrow hpass hs hlater
    rw [hvalues] at hchain
    obtain ⟨d, s₁, s₂, hd, hrun, hans⟩ := hchain
    refine ⟨⟨d, s₁, s₂, hd, hrun⟩,
      d >>= respond, s₁, { s₂ with answer := some (500, e.message.toList) }, ?_, ?_, rfl⟩
    · simp only [processRequest, ServerPlugin.execute, EStateM.run_bind, hd]
      rfl
    · simp [EStateM.run_bind, hrun, respond, hans, sendResponse]

end

/-- A template that matches every path and has no parameter. -/
def anyPath : Template Unit := ⟨fun path => some path.length, fun _ v => .ok v⟩

/-- Two handlers of one path, of which the second one throws. -/
def passThenThrow : ServerPlugin Unit :=
  .mk [] [("GET".toList, [(anyPath, ⟨none, .ok resolved⟩),
    (anyPath, ⟨none, .error (.futureError ⟨"failed"⟩)⟩)])]

/-- A second handler that throws is answered with 500. -/
theorem thrown_error_answered_second :
    (Rejects (passThenThrow.execute "GET".toList "/a".toList) ⟨"failed"⟩ ⟨(), none⟩ ∧
        Answers (processRequest passThenThrow "GET".toList "/a".toList)
          (500, "failed".toList) ⟨(), none⟩) ↔
      (0 < 1 ∨ callsInline (passThenThrow.matchesOf "GET".toList "/a".toList) = false) ∧
        ∃ values, extractAll (extractsBefore
          (schedule (passThenThrow.matchesOf "GET".toList "/a".toList)) 1) () = .ok values :=
  thrown_error_answered passThenThrow "GET".toList "/a".toList 1
    ⟨none, .error (.futureError ⟨"failed"⟩)⟩ ⟨"failed"⟩ ⟨(), none⟩ rfl ⟨rfl, rfl⟩
    (fun h' hmem => by
      obtain rfl : h' = ⟨none, .ok resolved⟩ := List.mem_singleton.1 hmem
      exact ⟨rfl, rfl⟩) rfl

/-- One handler, which throws. -/
def throwAtOnce : ServerPlugin Unit :=
  .mk [] [("GET".toList, [(anyPath, ⟨none, .error (.futureError ⟨"failed"⟩)⟩)])]

/-- The exception of the first handler leaves `execute`. -/
theorem thrown_error_escapes :
    ¬ ∀ (V : Type) (p : ServerPlugin V) (method path : Str) (k : Nat) (h : Handler)
      (e : FutureError) (s : Dispatching V), (handlersOf (p.matchesOf method path))[k]? = some h →
      h.Throws e → (∀ h' ∈ (handlersOf (p.matchesOf method path)).take k, h'.Passes) →
      s.answer = none →
      Rejects (p.execute method path) e s ∧
        Answers (processRequest p method path) (500, e.message.toList) s := by
  intro hclaim
  obtain ⟨⟨d, s₁, s₂, hd, -⟩, -⟩ := hclaim Unit throwAtOnce "GET".toList "/a".toList 0
    ⟨none, .error (.futureError ⟨"failed"⟩)⟩ ⟨"failed"⟩ ⟨(), none⟩ rfl ⟨rfl, rfl⟩ nofun rfl
  cases hd

end NodeNative.Http
