import NodeNative.Http.Execution

/-!
# The order of the callbacks of a request

`ServerPlugin::execute` starts the matching callbacks in the order of their matches
(`ServerPlugin.matchesOf_inOrder`), one after the other: what the futures of `then` do is
`World.Chain`, and `Execution.Inv` says how the callbacks of an execution follow it. Every step keeps
it while the parameter names of the templates are distinct and the chained callbacks return futures
of the loop that they run on (`Execution.Inv.step`).
-/

namespace NodeNative.Http

open Transition
open Uri (UriTemplate UriTemplateValue CallbackDataBase)

/-! ### The order of the matches -/

section
variable {V : Type}

/-- The callbacks that match, as they are found: the plugins, the callbacks for all methods and those
for the method, each in the order of their registration. -/
def ServerPlugin.found : ServerPlugin V → Str → Str → List (Nat × (Str → Match V))
  | .mk plugins methodCallbacks, method, path =>
    (plugins.filterMap fun (t, p) => (t.matchUri path).map fun length =>
      (length, fun path' => Match.plugin (t.extract path) (p.matchesOf method path'))) ++
    callbacksByMethod methodCallbacks [] path ++ callbacksByMethod methodCallbacks method path

/-- The matches ascend by their length, and those of one length are as they were found. -/
def ServerPlugin.InOrder (p : ServerPlugin V) (method path : Str) : Prop :=
  ∃ ordered : List (Nat × (Str → Match V)), p.matchesOf method path = withPaths path ordered ∧
    (ordered.Pairwise fun a b => a.1 ≤ b.1) ∧
    ∀ length, ordered.filter (·.1 = length) = (p.found method path).filter (·.1 = length)

/-- The plugins that match a path are found in their order, each with its length. -/
theorem pluginsFound_eq (plugins : List (Template V × ServerPlugin V)) (method path : Str) :
    pluginsFound plugins method path = plugins.filterMap fun (t, p) =>
      (t.matchUri path).map fun length =>
        (length, fun path' => Match.plugin (t.extract path) (p.matchesOf method path')) := by
  induction plugins with
  | nil => rfl
  | cons e plugins ih =>
    obtain ⟨t, p⟩ := e
    rw [pluginsFound, List.filterMap_cons, ← ih]
    cases hmatch : t.matchUri path <;> simp [hmatch]

/-- The matches of a plugin are executed in order. -/
theorem ServerPlugin.matchesOf_inOrder (p : ServerPlugin V) (method path : Str) :
    p.InOrder method path := by
  obtain ⟨plugins, methodCallbacks⟩ := p
  obtain ⟨hsorted, hfilter⟩ :=
    OrderedMap.flatten_pushBack ((ServerPlugin.mk plugins methodCallbacks).found method path)
  refine ⟨_, ?_, hsorted, hfilter⟩
  rw [ServerPlugin.matchesOf, pluginsFound_eq]
  rfl

end

/-! ### What is promised -/

section
variable {V : Type} {uv : UvAsync} {l : LoopId} {ms : List (Match UriTemplateValue)}
  {s s' : Execution V}

/-- A step that starts a callback other than the first one finds the response unsent and the future of
the callback before it resolved. -/
def Execution.StartsInTurn (s s' : Execution V) : Prop :=
  s'.started = s.started ∨ ∃ m, s'.started = s.started ++ [m] ∧
    (s.started = [] ∨ s.isSent = false ∧ ∃ g p, s.futures[s.started.length - 1]? = some g ∧
      (s.world.futures g).resolver = some (.value p))

/-- `execute` has returned, no handle is in flight and no callback is on the stack of the loop. -/
structure Execution.Done (s : Execution V) : Prop where
  stage : s.stage = .chaining []
  pending : s.world.pending = []
  running : s.world.running s.loop = none
  onStack : s.onStack = none

/-- The callbacks before the last started one have resolved futures and the last one is the last of
all, or the response was sent at the turn of the next one, or its own future is rejected or pending.
The future of `execute` is rejected as one of these is. -/
structure Execution.Folded (s : Execution V) (ms : List (Match UriTemplateValue)) : Prop where
  futures : s.futures.length = s.started.length
  resolved : ∀ i g, i + 1 < s.started.length → s.futures[i]? = some g →
    ∃ p, (s.world.futures g).resolver = some (.value p)
  unsent : ∀ i, i + 1 < s.started.length → s.turns[i]? = some false
  ends : s.started = ms ∨ s.turns[s.started.length - 1]? = some true ∨
    ∃ g, s.futures.getLast? = some g ∧ ((s.world.futures g).resolver = none ∨
      ∃ e, (s.world.futures g).resolver = some (.error e))
  rejected : ∀ e, (s.world.futures s.result).resolver = some (.error e) ↔
    ∃ g ∈ s.futures, (s.world.futures g).resolver = some (.error e)

/-! ### The invariant -/

/-- The nodes that `execute` has registered. -/
def Execution.names (s : Execution V) : List Nat := s.thens.map (·.1)

/-- Nothing is registered yet. -/
structure Execution.Unchained (s : Execution V) (started : List (Match UriTemplateValue)) : Prop where
  thens : s.thens = []
  onStack : s.onStack = none
  started : s.started = started
  futures : s.futures = []
  turns : s.turns = []
  returned : s.returned = []

/-- The first callback has returned the future `first` of the loop `k`. The lambdas form a chain on
it, of which the first `unsent` ones found the response unsent and started their callbacks. -/
structure Execution.Chaining (s : Execution V) (k : LoopId) (ms todo : List (Match UriTemplateValue))
    (first : NodeId) (unsent : Nat) : Prop where
  chain : s.world.Chain k first s.names s.returned
  callbacks : ∃ m, ms = m :: (s.thens.map (·.2) ++ todo)
  result : (chainFutures first s.names)[s.names.length]? = some s.result
  created : first ∈ s.world.created
  loop : (s.world.futures first).loop = k
  started : s.started = ms.take (unsent + 1)
  futures : s.futures = first :: s.returned.take unsent
  turns : ∃ sent, s.turns = List.replicate unsent false ++ List.replicate sent true ∧
    (0 < sent → s.isSent = true)
  idle : s.onStack = none → s.turns.length = s.returned.length
  busy : ∀ b, s.onStack = some b → s.turns.length = s.returned.length + 1 ∧
    s.turns.getLast? = some b ∧
      ∃ n, s.names[s.returned.length]? = some n ∧ s.world.running k = some (.user n)
  skipped : ∀ i g, unsent ≤ i → s.returned[i]? = some g →
    (s.world.futures g).resolver = some (.value none)

/-- The templates of the callbacks that are left can be extracted. -/
def Execution.Extracts (s : Execution V) (params : List (List Str))
    (todo : List (Match UriTemplateValue)) : Prop :=
  ∃ params', DistinctParams s.values todo params' ∧
    ∀ name ∈ params'.flatten, name ∈ params.flatten

/-- What holds where the loops of `execute` are. -/
def Execution.Staged (s : Execution V) (ms : List (Match UriTemplateValue))
    (params : List (List Str)) : ExecuteStage → Prop
  | .before todo => todo = ms ∧ s.Unchained [] ∧ s.Extracts params todo
  | .first todo => (∃ m, ms = m :: todo ∧ s.Unchained [m]) ∧ s.Extracts params todo
  | .chaining todo =>
    (ms = [] ∧ todo = [] ∧ s.Unchained [] ∧
        (s.world.futures s.result).resolver = some (.value none) ∨
      ∃ k first unsent, s.Chaining k ms todo first unsent) ∧ s.Extracts params todo
  | .thrown _ => False

/-- What holds in every state of an execution. -/
structure Execution.Inv (s : Execution V) (ms : List (Match UriTemplateValue))
    (params : List (List Str)) : Prop where
  world : s.world.Inv
  named : s.world.RelaysNamed
  staged : s.Staged ms params s.stage

/-- It holds before the first callback. -/
theorem Execution.inv_start {values : UriTemplateValue} {params : List (List Str)}
    (h : DistinctParams values ms params) : (Execution.start values ms : Execution V).Inv ms params where
  world := .init
  named := .init
  staged := ⟨rfl, ⟨rfl, rfl, rfl, rfl, rfl, rfl⟩, params, h, fun _ hname => hname⟩

/-! ### Steps of the core -/

section
variable {todo : List (Match UriTemplateValue)} {params : List (List Str)} {first : NodeId}
  {k : LoopId} {unsent n : Nat} {w w' : World V}

/-- `Promise<void>::Resolve` leaves a chain as it is. -/
theorem resolvedPromise_chain (huv : uv.Ok) {names : List Nat} {returned : List NodeId}
    (h : w.Chain l first names returned)
    (hrun : run (NodeNative.step uv) w (resolvedPromise l n) = some w') :
    w'.Chain l first names returned ∧ w.Extends w' ∧ w'.running = w.running ∧
      .user n ∈ w'.created ∧ (w'.futures (.user n)).loop = l ∧
      (w'.futures (.user n)).resolver = some (.value none) := by
  obtain ⟨w₁, hpromise, hrun⟩ := Option.bind_eq_some_iff.1 ((run_cons ..).symm.trans hrun)
  obtain ⟨w₂, hresolve, hrun⟩ := Option.bind_eq_some_iff.1 ((run_cons ..).symm.trans hrun)
  cases hrun
  obtain ⟨hinv₁, hext₁⟩ := step_inv huv h.inv hpromise
  obtain ⟨-, hext₂⟩ := step_inv huv hinv₁ hresolve
  have hchain₁ : w₁.Chain l first names returned := by
    refine h.step huv (fun _ _ _ _ hset => ?_) (fun _ _ _ hlab => ?_) hpromise
    · exact hset
    · cases hlab
  obtain ⟨hnew, hw₁⟩ := step_promise hpromise
  have hresolver : (w₁.futures (.user n)).resolver = none := by
    rw [hw₁]
    simp [World.createFuture]
  have hloop : (w₁.futures (.user n)).loop = l := by
    rw [hw₁]
    simp [World.createFuture]
  have hcreated : .user n ∈ w₁.created := by
    rw [hw₁]
    exact .head _
  have hcall : (NodeNative.Label.promise n l true : NodeNative.Label V).IsCall := trivial
  have hcall' : (NodeNative.Label.resolve (Thread.ofLoop l) (.user n) none : NodeNative.Label V).IsCall := trivial
  refine ⟨hchain₁.step huv ?_ (fun _ _ _ hlab => ?_) hresolve, hext₁.trans hext₂, ?_,
    hext₂.created _ hcreated, (hext₂.future _ hcreated).1.trans hloop, ?_⟩
  · rintro m hm b (rfl | rfl | rfl) hset
    · -- The node of a registered callback exists already.
      obtain ⟨i, hi⟩ := List.getElem?_of_mem hm
      obtain ⟨f, hf⟩ := chainFutures_of_name first hi
      cases hset
      exact hnew (h.node hf hi).created
    · cases hset
    · cases hset
  · cases hlab
  · rw [(step_call huv hinv₁ hcall' hresolve).running, (step_call huv h.inv hcall hpromise).running]
  · obtain ⟨-, rfl⟩ := step_resolve hresolve
    rw [World.call, hinv₁.settle_run huv hloop hresolver]
    simp

/-- Another state of the core, in which the chain is as it was and the lambda on the stack still is,
with other values, and a sent response if it was sent before. -/
theorem Execution.Chaining.update (h : s.Chaining k ms todo first unsent)
    (hchain : w'.Chain k first s.names s.returned) (hext : s.world.Extends w')
    (hrun : ∀ n ∈ s.names, s.world.running k = some (.user n) → w'.running k = some (.user n))
    (values : UriTemplateValue) {isSent : Bool} (hsent : s.isSent = true → isSent = true) :
    ({ s with world := w', values, isSent } : Execution V).Chaining k ms todo first unsent where
  chain := hchain
  callbacks := h.callbacks
  result := h.result
  created := hext.created _ h.created
  loop := (hext.future _ h.created).1.trans h.loop
  started := h.started
  futures := h.futures
  turns := by
    obtain ⟨sent, hturns, hpos⟩ := h.turns
    exact ⟨sent, hturns, fun hsome => hsent (hpos hsome)⟩
  idle := h.idle
  busy b hb := by
    obtain ⟨hlength, hlast, n, hn, hrunning⟩ := h.busy b hb
    exact ⟨hlength, hlast, n, hn, hrun n (List.mem_of_getElem? hn) hrunning⟩
  skipped i g hi hg := hext.resolver _ _ (h.skipped i g hi hg)

/-- The last future of the chain is one of the loop. -/
theorem Execution.Chaining.result_loop (h : s.Chaining k ms todo first unsent) :
    s.loop = k := by
  have hresult := h.result
  cases hlen : s.names.length with
  | zero =>
    rw [hlen] at hresult
    cases hresult
    exact h.loop
  | succ i =>
    rw [hlen, chainFutures_succ] at hresult
    obtain ⟨n, hn, heq⟩ := Option.map_eq_some_iff.mp hresult
    obtain ⟨f, hf⟩ := chainFutures_of_name first hn
    rw [Execution.loop, ← heq]
    exact (h.chain.node hf hn).loops.2

/-- A registered lambda captures a callback. -/
theorem Execution.callback_of_name (hn : n ∈ s.names)
    (hrun : s.world.running s.loop = some (.user n)) : s.callback.isSome = true := by
  obtain ⟨e, he, rfl⟩ := List.mem_map.mp hn
  rw [Execution.callback, hrun]
  simp only [Option.isSome_map, List.find?_isSome]
  exact ⟨e, he, by simp⟩

/-- The callback of the lambda on the stack, which is the next one of the chain. -/
theorem Execution.Chaining.callback (h : s.Chaining k ms todo first unsent)
    {m : Match UriTemplateValue} (hm : s.callback = some m) :
    ∃ n, s.thens[s.returned.length]? = some (n, m) ∧ s.world.running k = some (.user n) ∧
      ∃ g p, (first :: s.returned)[s.returned.length]? = some g ∧
        (s.world.futures g).resolver = some (.value p) := by
  unfold Execution.callback at hm
  split at hm
  · rename_i n hrun
    obtain ⟨⟨n', m'⟩, hfind, rfl⟩ := Option.map_eq_some_iff.mp hm
    obtain rfl : n' = n := by simpa using List.find?_some hfind
    obtain ⟨i, hi⟩ := List.getElem?_of_mem (List.mem_of_find?_eq_some hfind)
    have hname : s.names[i]? = some n' := by
      rw [Execution.names, List.getElem?_map, hi]
      rfl
    rw [h.result_loop] at hrun
    obtain ⟨rfl, hresolved⟩ := h.chain.resolved_called hname hrun
    exact ⟨n', hi, hrun, hresolved⟩
  · cases hm

/-! ### Steps of the chain -/

/-- `then` on the last future, for the next callback. -/
theorem Execution.Chaining.register (huv : uv.Ok) {m : Match UriTemplateValue}
    (h : s.Chaining k ms (m :: todo) first unsent) (values : UriTemplateValue) (stage : ExecuteStage)
    (hstep : NodeNative.step uv s.world (.thenCb (Thread.ofLoop l) s.result n .futureVoid) =
      some w') :
    ({ s with
        world := w', values, stage
        result := .user n
        thens := s.thens ++ [(n, m)] } : Execution V).Chaining k ms todo first unsent := by
  have hext := (step_inv huv h.chain.inv hstep).2
  have hcall : (NodeNative.Label.thenCb (Thread.ofLoop l) s.result n .futureVoid :
    NodeNative.Label V).IsCall := trivial
  have hnames : (s.thens ++ [(n, m)]).map (·.1) = s.names ++ [n] := by
    rw [List.map_append]
    rfl
  refine ⟨?_, ?_, ?_, hext.created _ h.created, (hext.future _ h.created).1.trans h.loop, h.started,
    h.futures, h.turns, h.idle, ?_, fun i g hi hg => hext.resolver _ _ (h.skipped i g hi hg)⟩
  · show w'.Chain k first ((s.thens ++ [(n, m)]).map (·.1)) s.returned
    rw [hnames]
    exact h.chain.register huv h.result h.result_loop hstep
  · obtain ⟨m₀, hms⟩ := h.callbacks
    exact ⟨m₀, by simp [hms]⟩
  · show (chainFutures first ((s.thens ++ [(n, m)]).map (·.1)))[((s.thens ++ [(n, m)]).map (·.1)).length]? = _
    rw [hnames, List.length_append, List.length_singleton, chainFutures_succ,
      List.getElem?_append_right (Nat.le_refl _), Nat.sub_self]
    rfl
  · intro b hb
    obtain ⟨hlength, hlast, n', hn', hrun⟩ := h.busy b hb
    refine ⟨hlength, hlast, n', ?_, (congrFun (step_call huv h.chain.inv hcall hstep).running k).trans hrun⟩
    show ((s.thens ++ [(n, m)]).map (·.1))[s.returned.length]? = some n'
    rw [hnames, List.getElem?_append_left (List.getElem?_eq_some_iff.mp hn').1]
    exact hn'

/-- As long as the response is unsent, every lambda has started its callback. -/
theorem Execution.Chaining.turns_unsent (h : s.Chaining k ms todo first unsent)
    (hsent : s.isSent = false) : s.turns = List.replicate unsent false := by
  obtain ⟨sent, hturns, hpos⟩ := h.turns
  have hzero : sent = 0 := by
    by_contra hne
    rw [hpos (Nat.pos_of_ne_zero hne)] at hsent
    cases hsent
  simpa [hzero] using hturns

/-- A lambda that finds the response sent. -/
theorem Execution.Chaining.turn_sent (h : s.Chaining k ms todo first unsent)
    (hidle : s.onStack = none) {m : Match UriTemplateValue} (hm : s.callback = some m)
    (hsent : s.isSent = true) :
    ({ s with onStack := some s.isSent, turns := s.turns ++ [s.isSent] } : Execution V).Chaining
      k ms todo first unsent := by
  obtain ⟨n, hthen, hrun, -⟩ := h.callback hm
  refine ⟨h.chain, h.callbacks, h.result, h.created, h.loop, h.started, h.futures, ?_, ?_, ?_,
    h.skipped⟩
  · obtain ⟨sent, hturns, -⟩ := h.turns
    refine ⟨sent + 1, ?_, fun _ => hsent⟩
    show s.turns ++ [s.isSent] = _
    rw [hturns, hsent, List.append_assoc, List.replicate_succ']
  · intro hnone
    cases hnone
  · intro b hb
    cases hb
    refine ⟨?_, List.getLast?_concat, n, ?_, hrun⟩
    · show (s.turns ++ [s.isSent]).length = _
      rw [List.length_append, h.idle hidle]
      rfl
    · show s.names[s.returned.length]? = _
      rw [Execution.names, List.getElem?_map, hthen]
      rfl

/-- A lambda that finds the response unsent starts the next callback. -/
theorem Execution.Chaining.turn_unsent (h : s.Chaining k ms todo first unsent)
    (hidle : s.onStack = none) {m : Match UriTemplateValue} (hm : s.callback = some m)
    (hsent : s.isSent = false) :
    ({ s with
        onStack := some s.isSent
        turns := s.turns ++ [s.isSent]
        started := s.started ++ [m] } : Execution V).Chaining k ms todo first (unsent + 1) := by
  obtain ⟨n, hthen, hrun, -⟩ := h.callback hm
  have hturns := h.turns_unsent hsent
  have hlength : s.returned.length = unsent := by
    rw [← h.idle hidle, hturns, List.length_replicate]
  have hmap : (s.thens.map (·.1))[s.returned.length]? = some n ∧
      (s.thens.map (·.2))[s.returned.length]? = some m := by
    simp [hthen]
  refine ⟨h.chain, h.callbacks, h.result, h.created, h.loop, ?_, ?_, ?_, ?_, ?_, ?_⟩
  · obtain ⟨m₀, hms⟩ := h.callbacks
    show s.started ++ [m] = ms.take (unsent + 1 + 1)
    have hnext : ms[unsent + 1]? = some m := by
      rw [hms, List.getElem?_cons_succ, ← hlength,
        List.getElem?_append_left (List.getElem?_eq_some_iff.mp hmap.2).1]
      exact hmap.2
    rw [h.started]
    refine Eq.symm (List.take_add_one.trans ?_)
    rw [hnext]
    rfl
  · show s.futures = first :: s.returned.take (unsent + 1)
    rw [h.futures, List.take_of_length_le (by omega), List.take_of_length_le (by omega)]
  · refine ⟨0, ?_, fun hpos => absurd hpos (Nat.lt_irrefl 0)⟩
    show s.turns ++ [s.isSent] = _
    rw [hturns, hsent, List.replicate_succ', List.replicate_zero, List.append_nil]
  · intro hnone
    cases hnone
  · intro b hb
    cases hb
    refine ⟨?_, List.getLast?_concat, n, hmap.1, hrun⟩
    show (s.turns ++ [s.isSent]).length = _
    rw [List.length_append, h.idle hidle]
    rfl
  · intro i g hi hg
    have hlt := (List.getElem?_eq_some_iff.mp hg).1
    have hlt' : i < s.returned.length := hlt
    omega

/-- A lambda that has seen a sent response returns the future `g`, which is resolved. -/
theorem Execution.Chaining.skip (h : s.Chaining k ms todo first unsent)
    (hbusy : s.onStack = some true) {g : NodeId}
    (hchain : w'.Chain k first s.names (s.returned ++ [g])) (hext : s.world.Extends w')
    (hg : (w'.futures g).resolver = some (.value none)) :
    ({ s with world := w', onStack := none, returned := s.returned ++ [g] } : Execution V).Chaining
      k ms todo first unsent := by
  obtain ⟨hlength, hlast, -⟩ := h.busy true hbusy
  obtain ⟨sent, hturns, hpos⟩ := h.turns
  have hunsent : unsent ≤ s.returned.length := by
    cases sent with
    | zero =>
      rw [hturns, List.replicate_zero, List.append_nil] at hlast
      cases List.eq_of_mem_replicate (List.mem_of_getLast? hlast)
    | succ sent =>
      rw [hturns, List.length_append, List.length_replicate, List.length_replicate] at hlength
      omega
  refine ⟨hchain, h.callbacks, h.result, hext.created _ h.created,
    (hext.future _ h.created).1.trans h.loop, h.started, ?_, ⟨sent, hturns, hpos⟩, ?_, ?_, ?_⟩
  · show s.futures = first :: (s.returned ++ [g]).take unsent
    rw [h.futures, List.take_append_of_le_length hunsent]
  · intro _
    show s.turns.length = (s.returned ++ [g]).length
    rw [hlength, List.length_append, List.length_singleton]
  · intro b hb
    cases hb
  · intro i g' hi hg'
    have hg' : (s.returned ++ [g])[i]? = some g' := hg'
    rw [List.getElem?_append] at hg'
    split at hg'
    · exact hext.resolver _ _ (h.skipped i g' hi hg')
    · obtain ⟨-, rfl⟩ := by simpa [List.getElem?_singleton] using hg'
      exact hg

/-- The callback that a lambda has called returns the future `g`. -/
theorem Execution.Chaining.returns (h : s.Chaining k ms todo first unsent)
    (hbusy : s.onStack = some false) {g : NodeId}
    (hchain : w'.Chain k first s.names (s.returned ++ [g])) (hext : s.world.Extends w') :
    ({ s with
        world := w'
        onStack := none
        futures := s.futures ++ [g]
        returned := s.returned ++ [g] } : Execution V).Chaining k ms todo first unsent := by
  obtain ⟨hlength, hlast, -⟩ := h.busy false hbusy
  obtain ⟨sent, hturns, hpos⟩ := h.turns
  have hunsent : unsent = s.returned.length + 1 := by
    cases sent with
    | zero =>
      rw [hturns, List.replicate_zero, List.append_nil, List.length_replicate] at hlength
      exact hlength
    | succ sent =>
      rw [hturns, List.replicate_succ', ← List.append_assoc, List.getLast?_concat] at hlast
      cases hlast
  have hlen : (s.returned ++ [g]).length = unsent := by
    rw [List.length_append, List.length_singleton, hunsent]
  refine ⟨hchain, h.callbacks, h.result, hext.created _ h.created,
    (hext.future _ h.created).1.trans h.loop, h.started, ?_, ⟨sent, hturns, hpos⟩, ?_, ?_, ?_⟩
  · show s.futures ++ [g] = first :: (s.returned ++ [g]).take unsent
    rw [h.futures, List.take_of_length_le (by omega), List.take_of_length_le (by omega)]
    rfl
  · intro _
    show s.turns.length = (s.returned ++ [g]).length
    omega
  · intro b hb
    cases hb
  · intro i g' hi hg'
    have hlt : i < (s.returned ++ [g]).length := (List.getElem?_eq_some_iff.mp hg').1
    omega

/-! ### Steps of an execution -/

/-- Before the first lambda is registered, none is on the stack. -/
theorem Execution.Unchained.callback {started : List (Match UriTemplateValue)}
    (h : s.Unchained started) : s.callback = none := by
  unfold Execution.callback
  rw [h.thens]
  split <;> rfl

/-- A step of the core outside `execute` settles no node of the chain and returns from no lambda. -/
theorem Execution.Chaining.other (huv : uv.Ok) (h : s.Chaining k ms todo first unsent)
    {lab : NodeNative.Label V} (hallows : s.allows lab = true)
    (hstep : NodeNative.step uv s.world lab = some w') :
    w'.Chain k first s.names s.returned ∧
      ∀ n ∈ s.names, s.world.running k = some (.user n) → w'.running k = some (.user n) := by
  have hret : ∀ n ∈ s.names, ∀ r, lab = .ret k r → s.world.running k ≠ some (.user n) := by
    rintro n hn r rfl hrun
    have hcallback : s.callback.isSome = true :=
      Execution.callback_of_name hn (h.result_loop.symm ▸ hrun)
    simp only [Execution.allows, h.result_loop, bne_self_eq_false, Bool.false_or, Option.isNone_iff_eq_none] at hallows
    rw [hallows] at hcallback
    cases hcallback
  refine ⟨h.chain.step huv ?_ hret hstep, fun n hn hrun => ?_⟩
  · intro n hn b hb hset
    obtain ⟨e, he, rfl⟩ := List.mem_map.mp hn
    cases lab with
    | resolve t f p | reject t f p =>
      cases hset
      simp only [Execution.allows, List.all_eq_true, Bool.and_eq_true, bne_iff_ne] at hallows
      obtain ⟨⟨huser, hthen⟩, herror⟩ := hallows e he
      rcases hb with rfl | rfl | rfl
      · exact huser rfl
      · exact hthen rfl
      · exact herror rfl
    | _ => exact hset
  · exact step_running_stays huv h.chain.inv hstep hrun fun r hlab => hret n hn r hlab hrun

/-- What holds at a stage holds there after a step that leaves the chain as it was. -/
theorem Execution.Staged.update {stage : ExecuteStage} (h : s.Staged ms params stage)
    (hext : s.world.Extends w')
    (hchain : ∀ {todo k first unsent}, s.Chaining k ms todo first unsent →
      w'.Chain k first s.names s.returned ∧
        ∀ n ∈ s.names, s.world.running k = some (.user n) → w'.running k = some (.user n))
    {values : UriTemplateValue}
    (hvalues : ∀ {todo}, s.Extracts params todo → ({ s with values } : Execution V).Extracts params todo)
    {isSent : Bool} (hsent : s.isSent = true → isSent = true) :
    ({ s with world := w', values, isSent } : Execution V).Staged ms params stage := by
  have hunchained : ∀ {started}, s.Unchained started →
      ({ s with world := w', values, isSent } : Execution V).Unchained started :=
    fun h => ⟨h.thens, h.onStack, h.started, h.futures, h.turns, h.returned⟩
  cases stage with
  | before todo =>
    obtain ⟨heq, hnone, hextracts⟩ := h
    exact ⟨heq, hunchained hnone, hvalues hextracts⟩
  | first todo =>
    obtain ⟨⟨m, heq, hnone⟩, hextracts⟩ := h
    exact ⟨⟨m, heq, hunchained hnone⟩, hvalues hextracts⟩
  | chaining todo =>
    obtain ⟨⟨hms, htodo, hnone, hresult⟩ | ⟨k, first, unsent, hch⟩, hextracts⟩ := h
    · exact ⟨.inl ⟨hms, htodo, hunchained hnone, hext.resolver _ _ hresult⟩, hvalues hextracts⟩
    · obtain ⟨hchain', hrun⟩ := hchain hch
      exact ⟨.inr ⟨k, first, unsent, hch.update hchain' hext hrun values hsent⟩, hvalues hextracts⟩
  | thrown condition => exact h

/-- The invariant between two callbacks. -/
theorem Execution.Chaining.inv (h : s.Chaining k ms todo first unsent)
    (hstage : s.stage = .chaining todo) (hextracts : s.Extracts params todo) : s.Inv ms params := by
  refine ⟨h.chain.inv, h.chain.named, ?_⟩
  rw [hstage]
  exact ⟨.inr ⟨k, first, unsent, h⟩, hextracts⟩

/-- The call of `execute`. -/
theorem Execution.Inv.call (huv : uv.Ok) (h : s.Inv ms params)
    (hstep : executionStep uv l s (.call n) = some s') : s'.Inv ms params := by
  obtain ⟨hinv, hnamed, hstaged⟩ := h
  simp only [executionStep] at hstep
  split at hstep
  · rename_i todo hstage
    rw [hstage] at hstaged
    obtain ⟨rfl, hnone, params', hdistinct, hsub⟩ := hstaged
    obtain ⟨w', hrun, rfl⟩ := Option.map_eq_some_iff.mp hstep
    obtain ⟨hchain, -, -, -, -, hresult⟩ :=
      resolvedPromise_chain huv (hinv.chain_nil hnamed l (.user n)) hrun
    cases todo with
    | nil =>
      exact ⟨hchain.inv, hchain.named, .inl ⟨rfl, rfl, ⟨hnone.thens, hnone.onStack, hnone.started,
        hnone.futures, hnone.turns, hnone.returned⟩, hresult⟩, params', hdistinct, hsub⟩
    | cons m todo =>
      obtain ⟨values, hextract, params'', hdistinct', hsub'⟩ := hdistinct.extract
      simp only [hextract]
      exact ⟨hchain.inv, hchain.named, ⟨m, rfl, ⟨hnone.thens, hnone.onStack, rfl, hnone.futures,
        hnone.turns, hnone.returned⟩⟩, params'', hdistinct', fun name hname =>
          hsub name (hsub' name hname)⟩
  · cases hstep

/-- The future of the first callback begins the chain. -/
theorem Execution.Unchained.chaining {m : Match UriTemplateValue} (h : s.Unchained [m])
    (hinv : s.world.Inv) (hnamed : s.world.RelaysNamed) {g : NodeId} (hcreated : g ∈ s.world.created)
    (hloop : (s.world.futures g).loop = k) (todo : List (Match UriTemplateValue))
    (stage : ExecuteStage) :
    ({ s with result := g, stage, futures := [g] } : Execution V).Chaining k (m :: todo) todo g 0 := by
  have hnames : s.names = [] := by rw [Execution.names, h.thens, List.map_nil]
  refine ⟨?_, ⟨m, ?_⟩, ?_, hcreated, hloop, h.started, ?_, ⟨0, h.turns, fun hpos => ?_⟩, fun _ => ?_,
    fun b hb => ?_, fun i g' _ hg' => ?_⟩
  · show s.world.Chain k g s.names s.returned
    rw [hnames, h.returned]
    exact hinv.chain_nil hnamed k g
  · show m :: todo = m :: (s.thens.map (·.2) ++ todo)
    rw [h.thens, List.map_nil, List.nil_append]
  · show (chainFutures g s.names)[s.names.length]? = some g
    rw [hnames]
    rfl
  · show [g] = g :: s.returned.take 0
    rw [List.take_zero]
  · cases hpos
  · show s.turns.length = s.returned.length
    rw [h.turns, h.returned]
    rfl
  · cases h.onStack.symm.trans hb
  · have hg' : s.returned[i]? = some g' := hg'
    rw [h.returned] at hg'
    cases hg'

/-- The first callback returns. -/
theorem Execution.Inv.firstReturns (h : s.Inv ms params) {g : NodeId}
    (hstep : executionStep uv l s (.firstReturns g) = some s') : s'.Inv ms params := by
  obtain ⟨hinv, hnamed, hstaged⟩ := h
  simp only [executionStep] at hstep
  split at hstep
  · rename_i todo hstage
    rw [hstage] at hstaged
    obtain ⟨⟨m, rfl, hnone⟩, hextracts⟩ := hstaged
    split at hstep
    · rename_i hfuture
      cases hstep
      simp only [Execution.isFuture, Bool.and_eq_true, List.contains_eq_mem, decide_eq_true_eq]
        at hfuture
      exact (hnone.chaining hinv hnamed hfuture.1 rfl todo _).inv rfl hextracts
    · cases hstep
  · cases hstep

/-- The next callback is registered. -/
theorem Execution.Inv.chain (huv : uv.Ok) (h : s.Inv ms params)
    (hstep : executionStep uv l s (.chain n) = some s') : s'.Inv ms params := by
  obtain ⟨hinv, hnamed, hstaged⟩ := h
  simp only [executionStep] at hstep
  split at hstep
  · rename_i m todo hstage
    rw [hstage] at hstaged
    obtain ⟨⟨-, htodo, -, -⟩ | ⟨k, first, unsent, hch⟩, params', hdistinct, hsub⟩ := hstaged
    · cases htodo
    · obtain ⟨values, hextract, params'', hdistinct', hsub'⟩ := hdistinct.extract
      simp only [hextract] at hstep
      obtain ⟨w', hthen, rfl⟩ := Option.map_eq_some_iff.mp hstep
      exact (hch.register huv values _ hthen).inv rfl
        ⟨params'', hdistinct', fun name hname => hsub name (hsub' name hname)⟩
  · cases hstep

/-- A lambda is on the stack: some callbacks are chained. -/
theorem Execution.Staged.chaining {stage : ExecuteStage} (h : s.Staged ms params stage)
    (hlambda : s.onStack.isSome = true ∨ (s.callback).isSome = true) :
    ∃ todo k first unsent, stage = .chaining todo ∧ s.Chaining k ms todo first unsent ∧
      s.Extracts params todo := by
  have hunchained : ∀ {started}, ¬ s.Unchained started := by
    intro started hnone
    rw [hnone.onStack, hnone.callback] at hlambda
    rcases hlambda with hsome | hsome <;> cases hsome
  cases stage with
  | before todo => exact absurd h.2.1 hunchained
  | first todo =>
    obtain ⟨⟨m, -, hnone⟩, -⟩ := h
    exact absurd hnone hunchained
  | chaining todo =>
    obtain ⟨⟨-, -, hnone, -⟩ | ⟨k, first, unsent, hch⟩, hextracts⟩ := h
    · exact absurd hnone hunchained
    · exact ⟨todo, k, first, unsent, rfl, hch, hextracts⟩
  | thrown condition => exact h.elim

/-- A lambda looks at `isSent()`. -/
theorem Execution.Inv.turn (h : s.Inv ms params) (hstep : executionStep uv l s .turn = some s') :
    s'.Inv ms params := by
  obtain ⟨hinv, hnamed, hstaged⟩ := h
  simp only [executionStep] at hstep
  split at hstep
  · rename_i m hidle hm
    obtain ⟨todo, k, first, unsent, hstage, hch, hextracts⟩ := hstaged.chaining (.inr (by rw [hm]; rfl))
    by_cases hsent : s.isSent = true
    · rw [if_pos hsent] at hstep
      cases hstep
      exact (hch.turn_sent hidle hm hsent).inv hstage hextracts
    · rw [if_neg hsent] at hstep
      cases hstep
      exact (hch.turn_unsent hidle hm (Bool.eq_false_iff.mpr hsent)).inv hstage hextracts
  · cases hstep

/-- A lambda that has seen a sent response returns a resolved future. -/
theorem Execution.Inv.skip (huv : uv.Ok) (h : s.Inv ms params) (hloop : s.loop = l)
    (hstep : executionStep uv l s (.skip n) = some s') : s'.Inv ms params := by
  obtain ⟨hinv, hnamed, hstaged⟩ := h
  simp only [executionStep, if_pos hloop] at hstep
  split at hstep
  · rename_i hbusy
    obtain ⟨todo, k, first, unsent, hstage, hch, hextracts⟩ :=
      hstaged.chaining (.inl (by rw [hbusy]; rfl))
    obtain rfl : k = l := hch.result_loop.symm.trans hloop
    obtain ⟨w', hrun, rfl⟩ := Option.map_eq_some_iff.mp hstep
    obtain ⟨w₁, hresolved, hrun⟩ := run_append_some hrun
    obtain ⟨w₂, hret, hrun⟩ := Option.bind_eq_some_iff.1 ((run_cons ..).symm.trans hrun)
    cases hrun
    obtain ⟨hchain, hext, hrunning, -, hfuture, hresult⟩ :=
      resolvedPromise_chain huv hch.chain hresolved
    obtain ⟨-, -, n', hn', hlambda⟩ := hch.busy true hbusy
    have hext' := (step_inv huv hchain.inv hret).2
    have hchain' := hchain.ret huv (List.mem_of_getElem? hn')
      ((congrFun hrunning k).trans hlambda) hfuture hret
    exact (hch.skip hbusy hchain' (hext.trans hext') (hext'.resolver _ _ hresult)).inv hstage hextracts
  · cases hstep

/-- The callback of a lambda returns. -/
theorem Execution.Inv.returns (huv : uv.Ok) (h : s.Inv ms params) {g : NodeId}
    (hloop : (s.world.futures g).loop = s.loop)
    (hstep : executionStep uv l s (.returns g) = some s') : s'.Inv ms params := by
  obtain ⟨hinv, hnamed, hstaged⟩ := h
  simp only [executionStep] at hstep
  split at hstep
  · rename_i hbusy
    simp only [Bool.and_eq_true, decide_eq_true_eq] at hbusy
    obtain ⟨hbusy, -⟩ := hbusy
    obtain ⟨todo, k, first, unsent, hstage, hch, hextracts⟩ :=
      hstaged.chaining (.inl (by rw [hbusy]; rfl))
    obtain ⟨w', hret, rfl⟩ := Option.map_eq_some_iff.mp hstep
    obtain ⟨-, -, n, hn, hlambda⟩ := hch.busy false hbusy
    have hext := (step_inv huv hinv hret).2
    rw [hch.result_loop] at hloop hret
    have hchain := hch.chain.ret huv (List.mem_of_getElem? hn) hlambda hloop hret
    exact (hch.returns hbusy hchain hext).inv hstage hextracts
  · cases hstep

/-- The future that a chained callback returns is one of the loop that the lambdas run on, and that
is the loop of the server when a lambda has seen a sent response. -/
def Execution.SameLoop (l : LoopId) (s : Execution V) : ExecutionLabel V → Prop
  | .returns g => (s.world.futures g).loop = s.loop
  | .skip _ => s.loop = l
  | _ => True

/-- Every step on the same loop keeps the invariant. -/
theorem Execution.Inv.step (huv : uv.Ok) (h : s.Inv ms params) {lab : ExecutionLabel V}
    (hlab : lab.Avoids params) (hloop : s.SameLoop l lab)
    (hstep : executionStep uv l s lab = some s') : s'.Inv ms params := by
  have hkept : ∀ {todo k first unsent}, s.Chaining k ms todo first unsent →
      s.world.Chain k first s.names s.returned ∧
        ∀ n ∈ s.names, s.world.running k = some (.user n) → s.world.running k = some (.user n) :=
    fun hch => ⟨hch.chain, fun _ _ hrun => hrun⟩
  cases lab with
  | other lab =>
    simp only [executionStep] at hstep
    split at hstep
    · rename_i hallows
      obtain ⟨w', hother, rfl⟩ := Option.map_eq_some_iff.mp hstep
      obtain ⟨hinv', hext⟩ := step_inv huv h.world hother
      refine ⟨hinv', h.named.step huv h.world hother, ?_⟩
      exact h.staged.update hext (fun hch => hch.other huv hallows hother) (fun hold => hold) id
    · cases hstep
  | send =>
    cases hstep
    exact ⟨h.world, h.named, h.staged.update (.refl _) hkept (fun hold => hold) fun _ => rfl⟩
  | extract e =>
    simp only [executionStep] at hstep
    split at hstep
    · rename_i values hextract
      cases hstep
      refine ⟨h.world, h.named, h.staged.update (.refl _) hkept ?_ id⟩
      rintro todo ⟨params', hdistinct, hsub⟩
      refine ⟨params', hdistinct.other (fun name hname hmem => ?_) hextract, hsub⟩
      exact hlab name hname (hsub _ hmem)
    · cases hstep
  | call n => exact h.call huv hstep
  | firstReturns g => exact h.firstReturns hstep
  | chain n => exact h.chain huv hstep
  | turn => exact h.turn hstep
  | skip n => exact h.skip huv hloop hstep
  | returns g => exact h.returns huv hloop hstep

/-! ### The order of the callbacks -/

/-- The started callbacks: the first one, and those of the lambdas that found the response unsent. -/
theorem Execution.Chaining.started_length (h : s.Chaining k ms todo first unsent)
    (hunsent : unsent ≤ s.thens.length) : s.started.length = unsent + 1 := by
  obtain ⟨m, hms⟩ := h.callbacks
  rw [h.started, List.length_take, hms, List.length_cons, List.length_append, List.length_map]
  omega

/-- What starts callbacks: the call of `execute`, and a lambda that finds the response unsent. -/
theorem executionStep_started {lab : ExecutionLabel V} (hstep : executionStep uv l s lab = some s') :
    s'.started = s.started ∨
      (∃ m todo, s.stage = .before (m :: todo) ∧ s'.started = [m]) ∨
      ∃ m, s.onStack = none ∧ s.callback = some m ∧ s.isSent = false ∧
        s'.started = s.started ++ [m] := by
  cases lab with
  | send =>
    cases hstep
    exact .inl rfl
  | call n =>
    simp only [executionStep] at hstep
    split at hstep
    · rename_i todo hstage
      obtain ⟨w', -, rfl⟩ := Option.map_eq_some_iff.mp hstep
      cases todo with
      | nil => exact .inl rfl
      | cons m todo =>
        cases hextract : m.extract s.values with
        | error condition =>
          refine .inl ?_
          simp only [hextract]
        | ok values =>
          refine .inr (.inl ⟨m, todo, hstage, ?_⟩)
          simp only [hextract]
    · cases hstep
  | turn =>
    simp only [executionStep] at hstep
    split at hstep
    · rename_i m hidle hm
      by_cases hsent : s.isSent = true
      · rw [if_pos hsent] at hstep
        cases hstep
        exact .inl rfl
      · rw [if_neg hsent] at hstep
        cases hstep
        exact .inr (.inr ⟨m, hidle, hm, Bool.eq_false_iff.mpr hsent, rfl⟩)
    · cases hstep
  | chain n =>
    simp only [executionStep] at hstep
    split at hstep
    · split at hstep
      · obtain ⟨w', -, rfl⟩ := Option.map_eq_some_iff.mp hstep
        exact .inl rfl
      · cases hstep
        exact .inl rfl
    · cases hstep
  | extract e =>
    simp only [executionStep] at hstep
    split at hstep <;> cases hstep
    exact .inl rfl
  | firstReturns g =>
    simp only [executionStep] at hstep
    split at hstep
    · split at hstep <;> cases hstep
      exact .inl rfl
    · cases hstep
  | skip n =>
    simp only [executionStep] at hstep
    split at hstep
    · split at hstep
      · obtain ⟨w', -, rfl⟩ := Option.map_eq_some_iff.mp hstep
        exact .inl rfl
      · obtain ⟨w', -, rfl⟩ := Option.map_eq_some_iff.mp hstep
        exact .inl rfl
    · cases hstep
  | other _ | returns _ =>
    simp only [executionStep] at hstep
    split at hstep
    · obtain ⟨w', -, rfl⟩ := Option.map_eq_some_iff.mp hstep
      exact .inl rfl
    · cases hstep

/-- Every step starts callbacks in turn. -/
theorem Execution.Inv.startsInTurn (h : s.Inv ms params) {lab : ExecutionLabel V}
    (hstep : executionStep uv l s lab = some s') : s.StartsInTurn s' := by
  rcases executionStep_started hstep with hsame | ⟨m, todo, hstage, hs'⟩ | ⟨m, hidle, hm, hsent, hs'⟩
  · exact .inl hsame
  · have hstaged := h.staged
    rw [hstage] at hstaged
    obtain ⟨-, hnone, -⟩ := hstaged
    refine .inr ⟨m, ?_, .inl hnone.started⟩
    rw [hs', hnone.started]
    rfl
  · obtain ⟨todo, k, first, unsent, -, hch, -⟩ := h.staged.chaining (.inr (by rw [hm]; rfl))
    obtain ⟨n, hthen, -, g, p, hg, hp⟩ := hch.callback hm
    have hlength : s.returned.length = unsent := by
      rw [← hch.idle hidle, hch.turns_unsent hsent, List.length_replicate]
    have hlt := (List.getElem?_eq_some_iff.mp hthen).1
    refine .inr ⟨m, hs', .inr ⟨hsent, g, p, ?_, hp⟩⟩
    rw [hch.started_length (by omega), hch.futures, List.take_of_length_le (by omega),
      Nat.add_sub_cancel, ← hlength]
    exact hg

/-- The started callbacks are the first ones of all. -/
theorem Execution.Inv.started (h : s.Inv ms params) : s.started <+: ms := by
  have hstaged := h.staged
  cases hstage : s.stage with
  | before todo =>
    rw [hstage] at hstaged
    rw [hstaged.2.1.started]
    exact List.nil_prefix
  | first todo =>
    rw [hstage] at hstaged
    obtain ⟨⟨m, rfl, hnone⟩, -⟩ := hstaged
    rw [hnone.started]
    exact ⟨todo, rfl⟩
  | chaining todo =>
    rw [hstage] at hstaged
    obtain ⟨⟨-, -, hnone, -⟩ | ⟨k, first, unsent, hch⟩, -⟩ := hstaged
    · rw [hnone.started]
      exact List.nil_prefix
    · rw [hch.started]
      exact List.take_prefix _ _
  | thrown condition =>
    rw [hstage] at hstaged
    exact hstaged.elim

/-- No assertion fails. -/
theorem Execution.Inv.not_thrown (h : s.Inv ms params) (condition : String) :
    s.stage ≠ .thrown condition := by
  intro hstage
  have hstaged := h.staged
  rw [hstage] at hstaged
  exact hstaged

/-! ### The fold -/

/-- The futures of the started callbacks, other than that of the last one, are resolved. -/
theorem Execution.Chaining.resolved_before (h : s.Chaining k ms todo first unsent) {i : Nat}
    {g : NodeId} (hi : i < s.returned.length) (hg : s.futures[i]? = some g) :
    ∃ p, (s.world.futures g).resolver = some (.value p) := by
  refine h.chain.resolved_before hi ?_
  rw [h.futures] at hg
  cases i with
  | zero => exact hg
  | succ i =>
    rw [List.getElem?_cons_succ, List.getElem?_take] at hg
    split at hg
    · exact hg
    · cases hg

section
variable (h : s.Chaining k ms [] first unsent) (hdone : s.Done)
include h hdone

/-- No lambda is on the stack. -/
theorem Execution.Chaining.done_running : s.world.running k = none :=
  h.result_loop ▸ hdone.running

/-- The lambdas that have run have all returned. -/
theorem Execution.Chaining.done_length : ∃ sent,
    s.turns = List.replicate unsent false ++ List.replicate sent true ∧
      s.returned.length = unsent + sent ∧ unsent + sent ≤ s.names.length := by
  obtain ⟨sent, hturns, -⟩ := h.turns
  have hlength := h.idle hdone.onStack
  have hle := h.chain.le
  rw [hturns, List.length_append, List.length_replicate, List.length_replicate] at hlength
  exact ⟨sent, hturns, hlength.symm, by omega⟩

/-- When `execute` is done, its future is rejected as one of those of the callbacks is. -/
theorem Execution.Chaining.done_rejected (e : FutureError) :
    (s.world.futures s.result).resolver = some (.error e) ↔
      ∃ g ∈ s.futures, (s.world.futures g).resolver = some (.error e) := by
  obtain ⟨sent, -, hlength, -⟩ := h.done_length hdone
  obtain ⟨g, hg⟩ : ∃ g, (first :: s.returned)[s.returned.length]? = some g :=
    ⟨_, List.getElem?_eq_getElem (Nat.lt_succ_self _)⟩
  have hresult : (s.world.futures s.result).resolver = (s.world.futures g).resolver :=
    (h.chain.outcome hdone.pending (h.done_running hdone) h.result hg).1
  rw [hresult]
  constructor
  · intro hrejected
    cases sent with
    | zero =>
      refine ⟨g, ?_, hrejected⟩
      rw [h.futures, List.take_of_length_le (by omega)]
      exact List.mem_of_getElem? hg
    | succ sent =>
      -- The last lambda found the response sent, and its future is resolved.
      obtain ⟨i, hi⟩ : ∃ i, s.returned.length = i + 1 := ⟨unsent + sent, by omega⟩
      rw [hi, List.getElem?_cons_succ] at hg
      cases (h.skipped i g (by omega) hg).symm.trans hrejected
  · rintro ⟨g', hmem, hrejected⟩
    obtain ⟨i, hi⟩ := List.getElem?_of_mem hmem
    by_cases hlast : i < s.returned.length
    · obtain ⟨p, hp⟩ := h.resolved_before hlast hi
      cases hp.symm.trans hrejected
    · have hlt := (List.getElem?_eq_some_iff.mp hi).1
      rw [h.futures, List.length_cons, List.length_take] at hlt
      rw [h.futures, List.take_of_length_le (by omega), show i = s.returned.length by omega] at hi
      cases hi.symm.trans hg
      exact hrejected

/-- When `execute` is done, its callbacks have been called one after the other. -/
theorem Execution.Chaining.folded : s.Folded ms := by
  obtain ⟨sent, hturns, hlength, hle⟩ := h.done_length hdone
  have hthens : s.names.length = s.thens.length := List.length_map _
  have hstarted := h.started_length (by omega)
  refine ⟨?_, ?_, ?_, ?_, h.done_rejected hdone⟩
  · rw [h.futures, List.length_cons, List.length_take, hstarted]
    omega
  · intro i g hi hg
    exact h.resolved_before (by omega) hg
  · intro i hi
    rw [hturns, List.getElem?_append_left (by rw [List.length_replicate]; omega)]
    exact List.getElem?_replicate_of_lt (by omega)
  · rw [hstarted, Nat.add_sub_cancel]
    cases sent with
    | succ sent =>
      refine .inr (.inl ?_)
      rw [hturns, List.getElem?_append_right (by rw [List.length_replicate])]
      simp
    | zero =>
      rcases Nat.eq_or_lt_of_le hle with heq | hlt
      · refine .inl ?_
        obtain ⟨m, hms⟩ := h.callbacks
        rw [h.started, hms]
        refine List.take_of_length_le ?_
        simp only [List.length_cons, List.length_append, List.length_map, List.length_nil]
        omega
      · refine .inr (.inr ?_)
        obtain ⟨g, hg⟩ : ∃ g, (first :: s.returned)[s.returned.length]? = some g :=
          ⟨_, List.getElem?_eq_getElem (Nat.lt_succ_self _)⟩
        have hvalue := (h.chain.outcome hdone.pending (h.done_running hdone) h.result hg).2 (by omega)
        refine ⟨g, ?_, ?_⟩
        · rw [h.futures, List.take_of_length_le (by omega), List.getLast?_eq_getElem?]
          exact hg
        · cases hr : (s.world.futures g).resolver with
          | none => exact .inl rfl
          | some r =>
            cases r with
            | value p => exact absurd hr (hvalue p)
            | error e => exact .inr ⟨e, rfl⟩

end

/-- An execution that is done is the fold of its callbacks. -/
theorem Execution.Inv.folded (h : s.Inv ms params) (hdone : s.Done) : s.Folded ms := by
  have hstaged := h.staged
  rw [hdone.stage] at hstaged
  obtain ⟨⟨rfl, -, hnone, hresult⟩ | ⟨k, first, unsent, hch⟩, -⟩ := hstaged
  · refine ⟨?_, ?_, ?_, .inl hnone.started, ?_⟩
    · rw [hnone.futures, hnone.started]
      rfl
    · intro i g hi
      rw [hnone.started] at hi
      cases hi
    · intro i hi
      rw [hnone.started] at hi
      cases hi
    · intro e
      rw [hresult, hnone.futures]
      simp
  · exact hch.folded hdone

end

/-- What a state of an execution promises: no assertion has failed, the started callbacks are the first
ones of the matches, the next step starts a callback in its turn only, and an execution that is done
is the fold of its callbacks. -/
structure Execution.Sequential (uv : UvAsync) (l : LoopId) (s : Execution V)
    (ms : List (Match UriTemplateValue)) : Prop where
  not_thrown : ∀ condition, s.stage ≠ .thrown condition
  started : s.started <+: ms
  inTurn : ∀ lab s', executionStep uv l s lab = some s' → s.StartsInTurn s'
  folded : s.Done → s.Folded ms

/-- `ServerPlugin::execute` is the ordered sequential fold of the callbacks that match, whatever the
rest of the program does, as long as the chained callbacks return futures of one loop. It starts the
first matches in their order, each when the future of the one before is resolved. It stops at the
first one (other than the very first) that finds the response sent, or after the first whose future is
not resolved, and its future is rejected as one of theirs is. -/
theorem execute_ordered_fold (huv : uv.Ok) (p : ServerPlugin UriTemplateValue) (method path : Str)
    {values : UriTemplateValue} {params : List (List Str)}
    (hparams : DistinctParams values (p.matchesOf method path) params)
    {ls : List (ExecutionLabel V)} (hothers : ∀ lab ∈ ls, lab.Avoids params)
    (hloop : Along (executionStep uv l) (Execution.SameLoop l)
      (Execution.start values (p.matchesOf method path)) ls)
    (hrun : run (executionStep uv l) (Execution.start values (p.matchesOf method path)) ls = some s) :
    p.InOrder method path ∧ s.Sequential uv l (p.matchesOf method path) := by
  have hstep : ∀ (s : Execution V) lab s', s.SameLoop l lab ∧ lab.Avoids params →
      s.Inv (p.matchesOf method path) params → executionStep uv l s lab = some s' →
        s'.Inv (p.matchesOf method path) params :=
    fun _ _ _ hok hinv hst => hinv.step huv hok.2 hok.1 hst
  have hinv : s.Inv (p.matchesOf method path) params :=
    run_invariant_along hstep (hloop.and (.of_forall hothers)) (Execution.inv_start hparams) hrun
  exact ⟨p.matchesOf_inOrder method path, hinv.not_thrown, hinv.started,
    fun _ _ hst => hinv.startsInTurn hst, hinv.folded⟩

end

/-! ### Two handlers on the root -/

instance {V : Type} (l : LoopId) (s : Execution V) : ∀ lab, Decidable (s.SameLoop l lab)
  | .returns g => inferInstanceAs (Decidable ((s.world.futures g).loop = s.loop))
  | .skip _ => inferInstanceAs (Decidable (s.loop = l))
  | .other _ | .send | .extract _ | .call _ | .firstReturns _ | .chain _ | .turn => .isTrue trivial

/-- A template without parameters. -/
def rootUri : UriTemplate where
  template := ['/']
  matchPattern := ['/']
  extractPattern := ['/']
  params := []
  formatNames := []

example : UriTemplate.parse [] ['/'] = .ok rootUri := rfl

/-- A method callback with it. -/
def rootTemplate : Template UriTemplateValue := entryTemplate [] ⟨rootUri, true⟩

def twoHandlers : ServerPlugin UriTemplateValue :=
  .mk [] [(['G'], [(rootTemplate, ⟨none, .ok resolved⟩), (rootTemplate, ⟨none, .ok resolved⟩)])]

/-- A request for the root, before `execute` is called. -/
def rootRequest : Execution Unit := .start .empty (twoHandlers.matchesOf ['G'] ['/'])

/-- The first handler returns a resolved future, and the second one a future of the loop `k`, which is
rejected once the relays are registered on it. -/
def secondRejects (k : LoopId) (posts : List NodeId) : List (ExecutionLabel Unit) :=
  [.call 0, .other (.promise 1 0 true), .firstReturns (.user 1), .chain 2,
    .other (.resolve (Thread.ofLoop 0) (.user 1) none), .other (.fire (.user 2)), .turn,
    .other (.promise 3 k true), .returns (.user 3)] ++ posts.map (fun a => .other (.fire a)) ++
  [.other (.reject (Thread.ofLoop k) (.user 3) ⟨"failed"⟩), .other (.fire (.relayThen (.user 2))),
    .other (.fire (.relayError (.user 2)))]

/-- What is left to do in the end, the futures of the callbacks, and whether the future of `execute` and
that of the second handler are rejected. -/
structure AtEnd where
  returned : Bool
  pending : List NodeId
  running : Option NodeId
  onStack : Option Bool
  futures : List NodeId
  result : Option Bool
  second : Option Bool
deriving DecidableEq

def Execution.atEnd (s : Execution Unit) : AtEnd where
  returned := match s.stage with
    | .chaining [] => true
    | _ => false
  pending := s.world.pending
  running := s.world.running s.loop
  onStack := s.onStack
  futures := s.futures
  result := (s.world.futures s.result).resolver.map FutureSharedResolver.isError
  second := (s.world.futures (.user 3)).resolver.map FutureSharedResolver.isError

/-- Templates without a parameter take no names. -/
theorem rootRequest_distinctParams :
    DistinctParams .empty (twoHandlers.matchesOf ['G'] ['/']) [[], []] := by
  have hroot : Match.HasParams (.handler (rootTemplate.extract ['/']) ⟨none, .ok resolved⟩) [] :=
    ⟨⟨[], rootUri, ['/']⟩, rfl, ⟨_, rfl⟩, rfl⟩
  exact ⟨.cons hroot (.cons hroot .nil), List.nodup_nil, fun _ hname => nomatch hname⟩

/-- The steps on the other loop avoid the names of the dispatch. -/
theorem secondRejects_avoids (k : LoopId) (posts : List NodeId) :
    ∀ lab ∈ secondRejects k posts, lab.Avoids [[], []] := by
  intro lab hlab
  simp only [secondRejects, List.mem_append, List.mem_cons, List.mem_map, List.not_mem_nil,
    or_false] at hlab
  rcases hlab with ((rfl | rfl | rfl | rfl | rfl | rfl | rfl | rfl | rfl) | ⟨a, -, rfl⟩) |
    rfl | rfl | rfl <;> trivial

/-- On the loop of the server, the future of `execute` is rejected. -/
theorem execute_ordered_fold_rejected : ∃ s, run (executionStep {} 0) rootRequest
    (secondRejects 0 []) = some s ∧ s.Sequential {} 0 (twoHandlers.matchesOf ['G'] ['/']) ∧
      s.atEnd = ⟨true, [], none, none, [.user 1, .user 3], some true, some true⟩ := by
  have hend : (run (executionStep {} 0) rootRequest (secondRejects 0 [])).map Execution.atEnd =
      some ⟨true, [], none, none, [.user 1, .user 3], some true, some true⟩ := by decide +kernel
  obtain ⟨s, hrun, hs⟩ := Option.map_eq_some_iff.mp hend
  refine ⟨s, hrun, ?_, hs⟩
  exact (execute_ordered_fold (fun _ => ⟨rfl, rfl⟩) twoHandlers ['G'] ['/']
    rootRequest_distinctParams (secondRejects_avoids 0 []) (by decide +kernel) hrun).2

/-- On another loop, the second handler is rejected and the future of `execute` is not. -/
theorem execute_ordered_fold_otherLoop : ∃ s, run (executionStep {} 0) rootRequest
    (secondRejects 1 [.post (.relayThen (.user 2)), .post (.relayError (.user 2))]) = some s ∧
      ¬ s.Sequential {} 0 (twoHandlers.matchesOf ['G'] ['/']) := by
  have hend : (run (executionStep {} 0) rootRequest
      (secondRejects 1 [.post (.relayThen (.user 2)), .post (.relayError (.user 2))])).map
        Execution.atEnd = some ⟨true, [], none, none, [.user 1, .user 3], none, some true⟩ := by
    decide +kernel
  obtain ⟨s, hrun, hs⟩ := Option.map_eq_some_iff.mp hend
  refine ⟨s, hrun, fun hseq => ?_⟩
  simp only [Execution.atEnd, AtEnd.mk.injEq] at hs
  obtain ⟨hstage, hpending, hrunning, honStack, hfutures, hresult, hsecond⟩ := hs
  have hdone : s.Done := by
    refine ⟨?_, hpending, hrunning, honStack⟩
    split at hstage
    · assumption
    · cases hstage
  obtain ⟨r, hr, herror⟩ := Option.map_eq_some_iff.mp hsecond
  cases r with
  | value p => cases herror
  | error e =>
    have hrejected := ((hseq.folded hdone).rejected e).mpr ⟨.user 3, by simp [hfutures], hr⟩
    rw [hrejected] at hresult
    cases hresult

end NodeNative.Http
