import NodeNative.Async.Names
import NodeNative.Async.Lifecycle
import NodeNative.Async.Settlement
import Mathlib.Data.List.Perm.Subperm

/-!
# The loops come to rest

Between the calls of the program the loops only fire handles, return from callbacks and close
handles. Each of these is paid for by an object the program asked for: a handle fires once
(`World.executed`), its callback returns once and its handle is closed once, and a node of the program
stands behind at most six objects, its action, the two relays of a returned future and the actions that
post these three to their loop (`NodeId.names`). `World.Account` keeps the books along a run, and
`World.Paid` counts them; `loop_drains` reads off that the loops take at most thirteen steps for each node, and that they never
stop before nothing is left to do.
-/

namespace NodeNative

section
variable {V : Type} {uv : UvAsync} {w w' : World V}

/-- A step of a loop, not a call of the program. -/
def Label.ofLoop : Label V → Bool
  | .fire _ | .close _ | .ret _ _ => true
  | _ => false

/-- The objects that can stand behind a node of the program. -/
def NodeId.names (n : Nat) : List NodeId :=
  [.user n, .relayThen (.user n), .relayError (.user n), .post (.user n),
    .post (.relayThen (.user n)), .post (.relayError (.user n))]

/-- The object stands behind one of the nodes, and only that node itself holds a callback of the
program. -/
def NodeId.StandsFor (nodes : List Nat) (b : NodeId) (cb : Callback) : Prop :=
  b ∈ nodes.flatMap NodeId.names ∧ (cb = .user → ∃ n ∈ nodes, b = .user n)

/-- An object stands behind a node among more nodes too. -/
theorem NodeId.StandsFor.mono {nodes nodes' : List Nat} (hsub : ∀ n ∈ nodes, n ∈ nodes')
    {b : NodeId} {cb : Callback} (h : b.StandsFor nodes cb) : b.StandsFor nodes' cb := by
  obtain ⟨hb, hcb⟩ := h
  obtain ⟨n, hn, hbn⟩ := List.mem_flatMap.1 hb
  refine ⟨List.mem_flatMap.2 ⟨n, hsub n hn, hbn⟩, fun hf => ?_⟩
  obtain ⟨m, hm, hbm⟩ := hcb hf
  exact ⟨m, hsub m hm, hbm⟩

/-- Only nodes of the program have relays. -/
theorem Relayed.standsFor {nodes : List Nat} {n : Nat} (hn : n ∈ nodes) :
    Relayed (NodeId.StandsFor nodes) (.user n) := by
  have hmem : ∀ b ∈ NodeId.names n, b ∈ nodes.flatMap NodeId.names :=
    fun b hb => List.mem_flatMap.2 ⟨n, hn, hb⟩
  constructor
  · rintro b (rfl | rfl)
    · exact ⟨hmem _ (by simp [NodeId.names]), by simp⟩
    · exact ⟨hmem _ (by simp [NodeId.names]), by simp⟩
  · rintro b (rfl | rfl) f
    · exact ⟨hmem _ (by simp [NodeId.names]), by simp⟩
    · exact ⟨hmem _ (by simp [NodeId.names]), by simp⟩

/-- The callback of the program that the action holds was called and has returned. -/
structure World.Returned (w : World V) (a : NodeId) : Prop where
  executed : a ∈ w.executedIds
  callback : (w.action a).f = .user
  left : ∀ l, w.running l ≠ some a

/-- What the loops have used up: every created object stands behind one of the nodes the program asked
for, and the handles that fired, the callbacks that returned and the handles that were closed are
different ones. -/
structure World.Account (w : World V) (nodes : List Nat) (fired returned closed : List NodeId) :
    Prop where
  inv : w.Inv
  named : w.Named (NodeId.StandsFor nodes)
  entered : ∀ l a, w.running l = some a → (w.action a).f = .user
  fired : fired.Nodup ∧ ∀ a ∈ fired, a ∈ w.executedIds
  returned : returned.Nodup ∧ ∀ a ∈ returned, w.Returned a
  closed : closed.Nodup ∧ ∀ a ∈ closed, a ∈ w.executedIds ∧ (w.action a).data = false

/-- The loops have taken this many steps for these nodes. -/
def World.Paid (w : World V) (nodes : List Nat) (steps : Nat) : Prop :=
  ∃ fired returned closed : List NodeId, w.Account nodes fired returned closed ∧
    fired.length + returned.length + closed.length = steps

/-- Before the first step nothing has to be paid for. -/
theorem World.Paid.init : (World.init : World V).Paid [] 0 := by
  refine ⟨[], [], [], ⟨World.Inv.init, ?_, ?_, ?_, ?_, ?_⟩, rfl⟩
  · intro b hb
    cases hb
  · intro l a h
    cases h
  all_goals exact ⟨.nil, by simp⟩

section
variable {nodes nodes' : List Nat} {fired returned closed : List NodeId} {steps : Nat}

/-- Calls of the API that create no others than these leave what was paid. -/
theorem World.Paid.called {s : World V} (h : w.Paid nodes steps) (hc : w.Called s)
    (hnamed : s.Named (NodeId.StandsFor nodes')) : s.Paid nodes' steps := by
  obtain ⟨fired, returned, closed, ⟨hinv, -, hentered, hfired, hreturned, hclosed⟩, hsteps⟩ := h
  have hids : s.executedIds = w.executedIds := congrArg (List.map Prod.fst) hc.executed
  have hkept : ∀ a ∈ w.executedIds, s.action a = w.action a := fun a ha => hc.action a (.inr ha)
  refine ⟨fired, returned, closed, ⟨hc.inv, hnamed, fun l a hl => ?_, ?_, ⟨hreturned.1, ?_⟩,
    ⟨hclosed.1, ?_⟩⟩, hsteps⟩
  · rw [hc.running] at hl
    obtain ⟨-, r, hx, -⟩ := hinv.running l a hl
    rw [hkept a (World.mem_executedIds hx)]
    exact hentered l a hl
  · rw [hids]
    exact hfired
  · intro a ha
    obtain ⟨hx, hf, hleft⟩ := hreturned.2 a ha
    refine ⟨hids ▸ hx, ?_, fun l => ?_⟩
    · rw [hkept a hx]
      exact hf
    · rw [hc.running]
      exact hleft l
  · intro a ha
    obtain ⟨hx, hdata⟩ := hclosed.2 a ha
    rw [hkept a hx]
    exact ⟨hids ▸ hx, hdata⟩

/-- The names along a step. -/
theorem World.Account.step_named (h : w.Account nodes fired returned closed) {lab : Label V}
    (hstep : step uv w lab = some w') :
    w'.Named (NodeId.StandsFor (nodes ++ lab.creates.toList)) := by
  have hsub : ∀ n ∈ nodes, n ∈ nodes ++ lab.creates.toList := fun n hn => List.mem_append_left _ hn
  have hmem : ∀ n, n ∈ nodes ++ lab.creates.toList → ∀ b ∈ NodeId.names n,
      b ∈ (nodes ++ lab.creates.toList).flatMap NodeId.names :=
    fun n hn b hb => List.mem_flatMap.2 ⟨n, hn, hb⟩
  refine NodeNative.step_named (fun b hb => (h.named b hb).mono hsub) ?_ ?_ hstep
  · intro n hn
    have hn' : n ∈ nodes ++ lab.creates.toList := by simp [hn]
    exact ⟨fun cb => ⟨hmem n hn' _ (by simp [NodeId.names]), fun _ => ⟨n, hn', rfl⟩⟩,
      fun f => ⟨hmem n hn' _ (by simp [NodeId.names]), by simp⟩⟩
  · intro l r a _ hl
    obtain ⟨-, r', hx, -⟩ := h.inv.running l a hl
    have ha := h.named a (h.inv.created_executed a (World.mem_executedIds hx))
    obtain ⟨n, hn, rfl⟩ := (ha.mono hsub).2 (h.entered l a hl)
    exact Relayed.standsFor hn

/-- A callback that has returned stays so. -/
theorem World.Returned.step (huv : uv.Ok) (hinv : w.Inv) {a : NodeId} (h : w.Returned a)
    {lab : Label V} (hstep : NodeNative.step uv w lab = some w') : w'.Returned a := by
  obtain ⟨-, hext⟩ := step_inv huv hinv hstep
  refine ⟨hext.executedIds h.executed, ?_, fun l hl => ?_⟩
  · rw [(hext.action a (hinv.created_executed a h.executed)).2.2]
    exact h.callback
  · rcases step_running huv hinv hstep hl with ⟨hl, -⟩ | ⟨rfl, -⟩
    · exact h.left l hl
    · exact hinv.not_executed a (step_fire_enabled hstep).1 h.executed

/-- What runs is a callback of the program. -/
theorem step_entered (huv : uv.Ok) (hinv : w.Inv)
    (h : ∀ l a, w.running l = some a → (w.action a).f = .user) {lab : Label V}
    (hstep : step uv w lab = some w') {l : LoopId} {a : NodeId} (hl : w'.running l = some a) :
    (w'.action a).f = .user := by
  obtain ⟨-, hext⟩ := step_inv huv hinv hstep
  have hkept : a ∈ w.created → (w.action a).f = .user → (w'.action a).f = .user := by
    intro ha hf
    rw [(hext.action a ha).2.2]
    exact hf
  rcases step_running huv hinv hstep hl with ⟨hl, -⟩ | ⟨rfl, -⟩
  · obtain ⟨-, r, hx, -⟩ := hinv.running l a hl
    exact hkept (hinv.created_executed a (World.mem_executedIds hx)) (h l a hl)
  · obtain ⟨r, hp, -, hstarted, hcases⟩ := step_fire_updates huv hinv hstep
    rcases hcases with ⟨-, -, -, hf⟩ | ⟨s, hu, hend⟩
    · exact hkept (hinv.created_pending a hp) hf
    · have hs : s.running l = some a := by
        rcases hend with rfl | ⟨e, -, rfl⟩
        · exact hl
        · exact hl
      rw [(hu.called hstarted).running] at hs
      obtain ⟨-, r', hx, -⟩ := hinv.running l a hs
      exact absurd (World.mem_executedIds hx) (hinv.not_executed a hp)

/-- An action that was executed changes only when its handle is closed. -/
theorem step_action_executed (huv : uv.Ok) (hinv : w.Inv) {a : NodeId} (ha : a ∈ w.executedIds)
    {lab : Label V} (hlab : lab ≠ .close a) (hstep : step uv w lab = some w') :
    w'.action a = w.action a := by
  have hcall : lab.IsCall → w'.action a = w.action a :=
    fun hlab => (step_call huv hinv hlab hstep).action a (.inr ha)
  cases lab with
  | fire b =>
    obtain ⟨r, -, -, -, hcases⟩ := step_fire huv hinv hstep
    have hx : a ∈ (w.started b r).executedIds := by
      rw [World.started_executedIds]
      exact List.mem_append_left _ ha
    rcases hcases with ⟨rfl, -⟩ | ⟨s, hc, rfl | ⟨e, rfl⟩⟩
    · rfl
    · exact hc.action a (.inr hx)
    · exact hc.action a (.inr hx)
  | close b =>
    obtain ⟨-, rfl⟩ := step_close hinv hstep
    have hne : a ≠ b := by
      rintro rfl
      exact hlab rfl
    simp [World.closed, World.setAction, hne]
  | ret l r =>
    obtain ⟨b, s, -, hc, rfl | ⟨e, rfl⟩⟩ := step_ret huv hinv hstep
    · exact hc.action a (.inr ha)
    · exact hc.action a (.inr ha)
  | promise | resolve | reject | thenCb | errorCb | finallyCb | async => exact hcall trivial

/-- A step closes no handle again. -/
theorem World.Account.step_kept (huv : uv.Ok) (h : w.Account nodes fired returned closed)
    {lab : Label V} (hstep : NodeNative.step uv w lab = some w') :
    w'.Account (nodes ++ lab.creates.toList) fired returned closed := by
  obtain ⟨hinv', hext⟩ := step_inv huv h.inv hstep
  refine ⟨hinv', h.step_named hstep, fun l a => step_entered huv h.inv h.entered hstep,
    ⟨h.fired.1, fun a ha => hext.executedIds (h.fired.2 a ha)⟩,
    ⟨h.returned.1, fun a ha => (h.returned.2 a ha).step huv h.inv hstep⟩,
    ⟨h.closed.1, fun a ha => ?_⟩⟩
  obtain ⟨hx, hdata⟩ := h.closed.2 a ha
  rw [step_action_executed huv h.inv hx ?_ hstep]
  · exact ⟨hext.executedIds hx, hdata⟩
  · rintro rfl
    obtain ⟨hclosing, -⟩ := step_close h.inv hstep
    obtain ⟨⟨r, -, hs⟩, -⟩ := h.inv.closing a hclosing
    rw [hs.data] at hdata
    cases hdata

/-- One step keeps the books. -/
theorem World.Paid.step (huv : uv.Ok) (h : w.Paid nodes steps) {lab : Label V}
    (hstep : NodeNative.step uv w lab = some w') :
    w'.Paid (nodes ++ lab.creates.toList) (steps + if lab.ofLoop then 1 else 0) := by
  obtain ⟨fired, returned, closed, haccount, rfl⟩ := h
  have hinv := haccount.inv
  have hkept := haccount.step_kept huv hstep
  obtain ⟨-, hext⟩ := step_inv huv hinv hstep
  cases lab with
  | fire a =>
    have hold : a ∉ fired := fun ha =>
      hinv.not_executed a (step_fire_enabled hstep).1 (haccount.fired.2 a ha)
    have hx : a ∈ w'.executedIds := by
      rcases step_executed_append huv hinv hstep with ⟨hlab, -⟩ | ⟨b, r, hb, -, -, hexec⟩
      · exact absurd rfl (hlab a)
      · cases hb
        simp [World.executedIds, hexec]
    refine ⟨a :: fired, returned, closed, { hkept with fired := ⟨hkept.fired.1.cons hold, ?_⟩ }, ?_⟩
    · exact List.forall_mem_cons.mpr ⟨hx, hkept.fired.2⟩
    · simp [Label.ofLoop]
      omega
  | ret l r =>
    obtain ⟨a, s, hl, hc, hend⟩ := step_ret huv hinv hstep
    obtain ⟨-, r', hx, -⟩ := hinv.running l a hl
    have hold : a ∉ returned := fun ha => (haccount.returned.2 a ha).left l hl
    have hreturned : w'.Returned a := by
      refine ⟨hext.executedIds (World.mem_executedIds hx), ?_, fun l' hl' => ?_⟩
      · rw [(hext.action a (hinv.created_executed a (World.mem_executedIds hx))).2.2]
        exact haccount.entered l a hl
      · have hs : s.running l' = some a := by
          rcases hend with rfl | ⟨e, rfl⟩
          · exact hl'
          · exact hl'
        rw [hc.running] at hs
        exact hinv.left_not_running hl l' hs
    refine ⟨fired, a :: returned, closed,
      { hkept with returned := ⟨hkept.returned.1.cons hold, ?_⟩ }, ?_⟩
    · exact List.forall_mem_cons.mpr ⟨hreturned, hkept.returned.2⟩
    · simp [Label.ofLoop]
      omega
  | close a =>
    obtain ⟨ha, hw'⟩ := step_close hinv hstep
    obtain ⟨⟨r, hx, hs⟩, -⟩ := hinv.closing a ha
    have hold : a ∉ closed := by
      intro hmem
      have hdata := (haccount.closed.2 a hmem).2
      rw [hs.data] at hdata
      cases hdata
    have hclosed : a ∈ w'.executedIds ∧ (w'.action a).data = false := by
      refine ⟨hext.executedIds (World.mem_executedIds hx), ?_⟩
      subst hw'
      show ((w.setAction a (w.action a).closed).action a).data = false
      rw [World.setAction_action, if_pos rfl]
      rfl
    refine ⟨fired, returned, a :: closed, { hkept with closed := ⟨hkept.closed.1.cons hold, ?_⟩ }, ?_⟩
    · exact List.forall_mem_cons.mpr ⟨hclosed, hkept.closed.2⟩
    · simp [Label.ofLoop]
      omega
  | promise | resolve | reject | thenCb | errorCb | finallyCb | async =>
    exact ⟨fired, returned, closed, hkept, rfl⟩

/-- In a run the steps of the loops are paid for by the nodes that its calls have created. -/
theorem run_paid (huv : uv.Ok) {ls : List (Label V)} (hrun : runLabels uv ls = some w) :
    w.Paid (ls.filterMap Label.creates) (ls.countP Label.ofLoop) := by
  have hinit : (World.init : World V).Paid ([].filterMap (Label.creates (V := V)))
      ([].countP (Label.ofLoop (V := V))) := World.Paid.init
  refine Transition.run_history (I := fun ls (w : World V) =>
    w.Paid (ls.filterMap Label.creates) (ls.countP Label.ofLoop)) ?_ hinit hrun
  intro ls w lab w' h hstep
  have hpaid := h.step huv hstep
  rw [List.filterMap_append, List.countP_append, List.countP_singleton]
  cases hcreates : lab.creates <;> simpa [hcreates] using hpaid

/-! ## The bound -/

/-- Six objects stand behind a node. -/
theorem NodeId.length_names (nodes : List Nat) :
    (nodes.flatMap NodeId.names).length = 6 * nodes.length := by
  induction nodes with
  | nil => rfl
  | cons n ns ih =>
    rw [List.flatMap_cons, List.length_append, ih, List.length_cons]
    simp only [NodeId.names, List.length_cons, List.length_nil]
    omega

/-- Each object behind a node fires at most once and is closed at most once, and the callback of a
node returns at most once. -/
theorem World.Paid.steps_le (h : w.Paid nodes steps) : steps ≤ 13 * nodes.length := by
  obtain ⟨fired, returned, closed, h, rfl⟩ := h
  have hbehind : ∀ a ∈ w.executedIds, a ∈ nodes.flatMap NodeId.names :=
    fun a ha => (h.named a (h.inv.created_executed a ha)).1
  have hfired : fired.length ≤ 6 * nodes.length := by
    rw [← NodeId.length_names]
    exact (List.subperm_of_subset h.fired.1 fun a ha => hbehind a (h.fired.2 a ha)).length_le
  have hclosed : closed.length ≤ 6 * nodes.length := by
    rw [← NodeId.length_names]
    exact (List.subperm_of_subset h.closed.1 fun a ha => hbehind a (h.closed.2 a ha).1).length_le
  have hreturned : returned.length ≤ nodes.length := by
    rw [← List.length_map (f := NodeId.user)]
    refine (List.subperm_of_subset h.returned.1 fun a ha => ?_).length_le
    have hnamed := h.named a (h.inv.created_executed a (h.returned.2 a ha).executed)
    obtain ⟨n, hn, rfl⟩ := hnamed.2 (h.returned.2 a ha).callback
    exact List.mem_map_of_mem hn
  omega

end

/-! ## Progress -/

/-- No handle is in flight or waits to be closed, and no callback is on the stack. -/
def World.AtRest (w : World V) : Prop :=
  w.pending = [] ∧ w.closing = [] ∧ ∀ l, w.running l = none

/-- A system that is not at rest and has not been aborted has a step of a loop to take. -/
theorem World.progress (haborted : w.aborted = none) (hrest : ¬ w.AtRest) :
    ∃ lab : Label V, lab.ofLoop = true ∧ (NodeNative.step uv w lab).isSome := by
  by_cases hrun : ∃ l a, w.running l = some a
  · obtain ⟨l, a, hl⟩ := hrun
    refine ⟨.ret l (.throws ⟨""⟩), rfl, ?_⟩
    simp [NodeNative.step, haborted, hl, ActionClass.accepts]
  · have hidle : ∀ l, w.running l = none := by
      intro l
      cases hl : w.running l with
      | none => rfl
      | some a => exact absurd ⟨l, a, hl⟩ hrun
    cases hp : w.pending with
    | cons a as =>
      refine ⟨.fire a, rfl, ?_⟩
      simp [NodeNative.step, haborted, hp, hidle]
    | nil =>
      cases hc : w.closing with
      | cons a as =>
        refine ⟨.close a, rfl, ?_⟩
        simp [NodeNative.step, haborted, hc, hidle]
      | nil => exact absurd ⟨hp, hc, hidle⟩ hrest

/-- From every state that the program can reach, the loops come to rest: all the steps they have
taken and can still take without a new call are at most thirteen for each promise, `async` and
registration the program made, and they stop only when nothing is in flight, nothing waits to be closed
and no callback is on the stack, or when an exception has ended the program. -/
theorem loop_drains (huv : uv.Ok) {ls ms : List (Label V)} (hrun : runLabels uv ls = some w)
    (hms : ∀ lab ∈ ms, lab.ofLoop = true) (hmore : Transition.run (step uv) w ms = some w') :
    ls.countP Label.ofLoop + ms.length ≤ 13 * (ls.filterMap Label.creates).length ∧
      (w'.AtRest ∨ w'.aborted.isSome ∨
        ∃ lab : Label V, lab.ofLoop = true ∧ (step uv w' lab).isSome) := by
  have hall : runLabels uv (ls ++ ms) = some w' := by
    rw [runLabels, Transition.run_append]
    exact Option.bind_eq_some_iff.2 ⟨w, hrun, hmore⟩
  have hpaid := run_paid huv hall
  have hcreates : ms.filterMap Label.creates = [] := by
    refine List.filterMap_eq_nil_iff.2 fun lab hlab => ?_
    cases lab with
    | fire a => rfl
    | close a => rfl
    | ret l r => rfl
    | _ => cases hms _ hlab
  refine ⟨?_, ?_⟩
  · have hle := hpaid.steps_le
    rw [List.countP_append, List.filterMap_append, hcreates, List.append_nil,
      List.countP_eq_length.2 hms] at hle
    exact hle
  · by_cases hrest : w'.AtRest
    · exact .inl hrest
    · cases haborted : w'.aborted with
      | some e => exact .inr (.inl rfl)
      | none => exact .inr (.inr (World.progress haborted hrest))

/-- The calls of `closedThen`, before any step of the loop. -/
def calledThen : World Nat := (runLabels {} (closedThen.take 3)).get (by decide)

/-- The three steps of the loop after them. -/
theorem loop_drains_closed : ∃ w', Transition.run (step {}) calledThen (closedThen.drop 3) = some w' ∧
    (closedThen.take 3).countP Label.ofLoop + (closedThen.drop 3).length ≤
      13 * ((closedThen.take 3).filterMap Label.creates).length ∧
    (w'.AtRest ∨ w'.aborted.isSome ∨
      ∃ lab : Label Nat, lab.ofLoop = true ∧ (step {} w' lab).isSome) := by
  have hmore : (Transition.run (step {}) calledThen (closedThen.drop 3)).isSome := by decide
  have hok : UvAsync.Ok {} := fun _ => ⟨rfl, rfl⟩
  exact ⟨_, (Option.some_get hmore).symm,
    loop_drains hok (Option.some_get _).symm (by decide) (Option.some_get hmore).symm⟩

end

end NodeNative
