import NodeNative.Async.Preservation

/-!
# What a failure of libuv leaves in an action

`AsyncBase::enqueue` takes a reference of the action to itself, counts it, marks the handle as used,
and only then calls `uv_async_init` and `uv_async_send`, each of which may fail. `resolve` and
`reject` have stored the resolver before. A failure of `uv_async_init` undoes nothing, and one of
`uv_async_send` takes back the mark and the reference, but neither the count nor the resolver
(`AsyncBase.enqueue_fails`, `ActionCallbackBase.settle_fails`). So an action keeps its fields over a
failed call exactly when no call of libuv fails, and after a failure every later `resolve` or
`reject` of the action fails on its assertion (`settle_undone_iff`).
-/

namespace NodeNative

section
variable {V : Type} {uv : UvAsync} {w : World V} {a : NodeId}

/-- The fields of an action after `enqueue` has thrown. `inited` says that `uv_async_init` had
succeeded. -/
def Action.failed (act : Action V) (inited : Bool) : Action V :=
  { act with data := !inited, inst := !inited, instanceNum := act.instanceNum + 1 }

/-- The exception of `enqueue` when one of the calls of libuv fails. -/
def UvAsync.exn (uv : UvAsync) (a : NodeId) : Exn :=
  if uv.init a = 0 then .exception "uv_async_send" else .exception "uv_async_init"

/-- Enqueueing an idle action when libuv fails. -/
theorem AsyncBase.enqueue_fails (hdata : (w.action a).data = false)
    (hinst : (w.action a).inst = false) (huv : ¬ (uv.init a = 0 ∧ uv.send a = 0)) :
    (AsyncBase.enqueue uv a).run w =
      .error (uv.exn a) (w.setAction a ((w.action a).failed (uv.init a = 0))) := by
  simp only [AsyncBase.enqueue, AsyncBase.increaseInstance, nnativeAssert, modifyAction,
    World.setAction, EStateM.run_bind, EStateM.run_get, EStateM.run_modify, EStateM.run_pure,
    Function.update_self, Function.update_idem, hdata, hinst, Bool.not_false, if_true]
  by_cases hinit : uv.init a = 0
  · have hsend : uv.send a ≠ 0 := fun hsend => huv ⟨hinit, hsend⟩
    simp [hinit, hsend, UvAsync.exn, Action.failed]
  · simp [hinit, UvAsync.exn, Action.failed]

/-- `resolve` and `reject` of an action without a resolver store one and enqueue the action. -/
theorem ActionCallbackBase.settle_eq (hres : (w.action a).resolver = none)
    (r : FutureSharedResolver V) : (ActionCallbackBase.settle uv a r).run w =
      (AsyncBase.enqueue uv a).run (w.setAction a { w.action a with resolver := some r }) := by
  simp only [ActionCallbackBase.settle, nnativeAssert, modifyAction, EStateM.run_bind,
    EStateM.run_get, EStateM.run_modify, EStateM.run_pure, hres, Option.isNone_none, if_true]

/-- On an action with a resolver they fail, and change nothing. -/
theorem ActionCallbackBase.settle_again (hres : (w.action a).resolver.isSome = true)
    (r : FutureSharedResolver V) :
    (ActionCallbackBase.settle uv a r).run w = .error (.runtimeError "!_resolver") w := by
  obtain ⟨r', hr'⟩ := Option.isSome_iff_exists.mp hres
  simp [ActionCallbackBase.settle, nnativeAssert, hr']

/-- Settling an idle action when libuv fails: the resolver stays. -/
theorem ActionCallbackBase.settle_fails (h : (w.action a).Idle) (r : FutureSharedResolver V)
    (huv : ¬ (uv.init a = 0 ∧ uv.send a = 0)) :
    (ActionCallbackBase.settle uv a r).run w = .error (uv.exn a)
      (w.setAction a { (w.action a).failed (uv.init a = 0) with resolver := some r }) := by
  have hdata : ((w.setAction a { w.action a with resolver := some r }).action a).data = false := by
    simp [h.data]
  have hinst : ((w.setAction a { w.action a with resolver := some r }).action a).inst = false := by
    simp [h.inst]
  rw [settle_eq h.resolver, AsyncBase.enqueue_fails hdata hinst huv]
  simp [World.setAction, Action.failed]

/-- An action with no handle in use is enqueued when libuv does not fail. -/
theorem AsyncBase.enqueue_succeeds (hdata : (w.action a).data = false)
    (hinst : (w.action a).inst = false) (hinit : uv.init a = 0) (hsend : uv.send a = 0) :
    ∃ w', (AsyncBase.enqueue uv a).run w = .ok () w' ∧ w'.action a =
      { w.action a with data := true, inst := true, instanceNum := (w.action a).instanceNum + 1 } := by
  simp [AsyncBase.enqueue, AsyncBase.increaseInstance, nnativeAssert, modifyAction, hdata, hinst,
    hinit, hsend]

/-- An idle action is settled when libuv does not fail. -/
theorem ActionCallbackBase.settle_succeeds (h : (w.action a).Idle) (r : FutureSharedResolver V)
    (hinit : uv.init a = 0) (hsend : uv.send a = 0) :
    ∃ w', (ActionCallbackBase.settle uv a r).run w = .ok () w' ∧ (w'.action a).Sent r := by
  have hact : (w.setAction a { w.action a with resolver := some r }).action a =
      { w.action a with resolver := some r } := by simp
  have hdata : ((w.setAction a { w.action a with resolver := some r }).action a).data = false := by
    rw [hact]
    exact h.data
  have hinst : ((w.setAction a { w.action a with resolver := some r }).action a).inst = false := by
    rw [hact]
    exact h.inst
  obtain ⟨w', hrun, hw'⟩ := AsyncBase.enqueue_succeeds hdata hinst hinit hsend
  refine ⟨w', (settle_eq h.resolver r).trans hrun, ?_⟩
  rw [hw', hact]
  exact ⟨rfl, rfl, by simp [h.instanceNum], rfl⟩

/-! ## Undoing -/

/-- The four fields are as they were. -/
structure Action.SameHandle (act act' : Action V) : Prop where
  data : act'.data = act.data
  inst : act'.inst = act.inst
  instanceNum : act'.instanceNum = act.instanceNum
  resolver : act'.resolver = act.resolver

/-- With libuv working again, the action can be resolved or rejected, and it gives its reference to
itself up when its handle is closed. -/
def World.Reusable (w : World V) (a : NodeId) : Prop :=
  ∀ (uv : UvAsync) r, uv.init a = 0 → uv.send a = 0 →
    ∃ w', (ActionCallbackBase.settle uv a r).run w = .ok () w' ∧
      ∃ w'', (AsyncBase.AsyncClosed a).run { w' with closing := w'.closing.erase a } = .ok () w'' ∧
        (w''.action a).inst = false

/-- When `enqueue`, or the `resolve` or `reject` that calls it, throws, the action is as it was and
can be used again. -/
def FailureUndone (uv : UvAsync) (w : World V) (a : NodeId) (r : FutureSharedResolver V) : Prop :=
  (∀ e w', (AsyncBase.enqueue uv a).run w = .error e w' →
    (w.action a).SameHandle (w'.action a) ∧ w'.Reusable a) ∧
  ∀ e w', (ActionCallbackBase.settle uv a r).run w = .error e w' →
    (w.action a).SameHandle (w'.action a) ∧ w'.Reusable a

/-- A failed call on an idle action is undone exactly when libuv does not fail at all. After a
failure no later `resolve` or `reject` of the action succeeds. -/
theorem settle_undone_iff (h : (w.action a).Idle) (r : FutureSharedResolver V) :
    (FailureUndone uv w a r ↔ uv.init a = 0 ∧ uv.send a = 0) ∧
    (¬ (uv.init a = 0 ∧ uv.send a = 0) →
      (AsyncBase.enqueue uv a).run w =
        .error (uv.exn a) (w.setAction a ((w.action a).failed (uv.init a = 0))) ∧
      ∃ w', (ActionCallbackBase.settle uv a r).run w = .error (uv.exn a) w' ∧
        ∀ uv' r', (ActionCallbackBase.settle uv' a r').run w' =
          .error (.runtimeError "!_resolver") w') := by
  refine ⟨⟨fun hundone => ?_, ?_⟩, fun huv => ⟨?_, _, ActionCallbackBase.settle_fails h r huv, ?_⟩⟩
  · by_contra huv
    obtain ⟨hsame, -⟩ := hundone.2 _ _ (ActionCallbackBase.settle_fails h r huv)
    have hres := hsame.resolver
    simp [h.resolver] at hres
  · rintro ⟨hinit, hsend⟩
    refine ⟨fun e w' hrun => ?_, fun e w' hrun => ?_⟩
    · obtain ⟨w₁, hok, -⟩ := AsyncBase.enqueue_succeeds h.data h.inst hinit hsend
      rw [hok] at hrun
      cases hrun
    · obtain ⟨w₁, hok, -⟩ := ActionCallbackBase.settle_succeeds h r hinit hsend
      rw [hok] at hrun
      cases hrun
  · exact AsyncBase.enqueue_fails h.data h.inst huv
  · intro uv' r'
    exact ActionCallbackBase.settle_again (by simp) r'

/-- A new action, and a libuv that does not fail. -/
theorem settle_undone_ok : FailureUndone {} ({} : World Nat) (.user 0) (.value none) :=
  (settle_undone_iff ⟨rfl, rfl, rfl, rfl⟩ (.value none)).1.mpr ⟨rfl, rfl⟩

/-- Neither a failure of `uv_async_init` nor one of `uv_async_send` is undone. -/
theorem settle_not_undone :
    ¬ FailureUndone { init := fun _ => -12 } ({} : World Nat) (.user 0) (.value none) ∧
    ¬ FailureUndone { send := fun _ => -9 } ({} : World Nat) (.user 0) (.value none) ∧
    ¬ ∀ (uv : UvAsync) (w : World Nat) a r, (w.action a).Idle → FailureUndone uv w a r := by
  have hinit : ¬ FailureUndone { init := fun _ => -12 } ({} : World Nat) (.user 0)
      (.value none) := by
    rintro ⟨-, hsettle⟩
    have hsame := (hsettle (.exception "uv_async_init") _ rfl).1.resolver
    revert hsame
    decide
  have hsend : ¬ FailureUndone { send := fun _ => -9 } ({} : World Nat) (.user 0)
      (.value none) := by
    rintro ⟨-, hsettle⟩
    have hsame := (hsettle (.exception "uv_async_send") _ rfl).1.resolver
    revert hsame
    decide
  exact ⟨hinit, hsend, fun hall => hinit (hall _ _ _ _ ⟨rfl, rfl, rfl, rfl⟩)⟩

end

end NodeNative
