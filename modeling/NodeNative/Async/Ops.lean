import NodeNative.Async.Loop

/-!
# What the operations do

One equation for each operation of `Async.Basic` and `Async.Loop`, on the states in which libuv
answers with success (`UvAsync.Ok`) and the actions that are to be enqueued are idle
(`Action.Idle`). The right-hand sides are the pure updates `World.deliver` (send the handles of a
list of actions), `World.settled`, `World.pushed`, `World.createAction`, `World.registered`; later
proofs use these and do not unfold the operations again.
-/

namespace NodeNative

section
variable {V : Type} {uv : UvAsync}

/-! ## Enqueueing -/

/-- The action is not in flight: no handle, no self-reference, no resolver. -/
structure Action.Idle (act : Action V) : Prop where
  data : act.data = false
  inst : act.inst = false
  instanceNum : act.instanceNum = 0
  resolver : act.resolver = none

/-- The action with its handle sent and `r` kept for the callback. -/
def Action.sent (act : Action V) (r : FutureSharedResolver V) : Action V :=
  { act with data := true, inst := true, instanceNum := act.instanceNum + 1, resolver := some r }

/-- Send the handles of the actions `as`, each with the resolver `r`. -/
def World.deliver (w : World V) (as : List NodeId) (r : FutureSharedResolver V) : World V :=
  { w with
    action := fun a => if a ∈ as then (w.action a).sent r else w.action a
    pending := w.pending ++ as }

section
variable (w : World V) (as : List NodeId) (r : FutureSharedResolver V)

@[simp] theorem World.deliver_action (a : NodeId) :
    (w.deliver as r).action a = if a ∈ as then (w.action a).sent r else w.action a := rfl

@[simp] theorem World.deliver_pending : (w.deliver as r).pending = w.pending ++ as := rfl

@[simp] theorem World.deliver_futures : (w.deliver as r).futures = w.futures := rfl

@[simp] theorem World.deliver_created : (w.deliver as r).created = w.created := rfl

@[simp] theorem World.deliver_executed : (w.deliver as r).executed = w.executed := rfl

@[simp] theorem World.deliver_running : (w.deliver as r).running = w.running := rfl

@[simp] theorem World.deliver_closing : (w.deliver as r).closing = w.closing := rfl

@[simp] theorem World.deliver_aborted : (w.deliver as r).aborted = w.aborted := rfl

end

@[simp] theorem World.deliver_nil (w : World V) (r : FutureSharedResolver V) :
    w.deliver [] r = w := by
  simp [World.deliver]

/-- Sending one handle, then others, is sending them all. -/
theorem World.deliver_cons (w : World V) {a : NodeId} {as : List NodeId} (ha : a ∉ as)
    (r : FutureSharedResolver V) : w.deliver (a :: as) r = (w.deliver [a] r).deliver as r := by
  simp only [World.deliver, List.mem_cons, List.append_assoc,
    List.singleton_append, World.mk.injEq, and_true, true_and]
  funext b
  by_cases hb : b = a
  · subst hb; simp [ha]
  · simp [hb]

/-- Enqueueing an idle action sends its handle. Source: `AsyncBase::enqueue`. -/
theorem ActionCallbackBase.settle_run (huv : uv.Ok) {w : World V} {a : NodeId}
    (h : (w.action a).Idle) (r : FutureSharedResolver V) :
    (ActionCallbackBase.settle uv a r).run w = .ok () (w.deliver [a] r) := by
  obtain ⟨hinit, hsend⟩ := huv a
  simp only [ActionCallbackBase.settle, AsyncBase.enqueue, AsyncBase.increaseInstance,
    nnativeAssert, modifyAction, World.setAction, EStateM.run_bind, EStateM.run_get,
    EStateM.run_modify, EStateM.run_pure, Function.update_self, Function.update_idem, h.data,
    h.inst, h.resolver, hinit, hsend, Option.isNone_none, if_true, Bool.not_false, ne_eq,
    not_true_eq_false, if_false]
  refine congrArg (EStateM.Result.ok ()) ?_
  simp only [World.deliver, World.mk.injEq, and_true, true_and]
  funext b
  by_cases hb : b = a
  · subst hb; simp [Action.sent]
  · simp [hb]

/-- `FutureSharedResolver::resolve` is `settle`, whatever the resolver. -/
@[simp] theorem FutureSharedResolver.resolve_eq (a : NodeId) (r : FutureSharedResolver V) :
    r.resolve uv a = ActionCallbackBase.settle uv a r := by
  cases r <;> rfl

/-- The loop over the registered actions sends the handle of each. -/
theorem FutureSharedResolver.forM_run (huv : uv.Ok) (r : FutureSharedResolver V) :
    ∀ {as : List NodeId} {w : World V}, as.Nodup → (∀ a ∈ as, (w.action a).Idle) →
      (forM as fun a => r.resolve uv a).run w = .ok () (w.deliver as r)
  | [], w, _, _ => by simp
  | a :: as, w, hnd, hidle => by
    obtain ⟨ha, hnd⟩ := List.nodup_cons.1 hnd
    have hstep := ActionCallbackBase.settle_run huv (hidle a (.head _)) r
    have hrest : ∀ b ∈ as, ((w.deliver [a] r).action b).Idle := by
      intro b hb
      have hba : b ≠ a := fun h => ha (h ▸ hb)
      simpa [World.deliver, hba] using hidle b (.tail _ hb)
    have ih := FutureSharedResolver.forM_run huv r hnd hrest
    rw [World.deliver_cons w ha r, List.forM_cons, EStateM.run_bind, FutureSharedResolver.resolve_eq,
      hstep]
    exact ih

/-! ## Settling a future -/

/-- The future `f` settled with `r`, and the handles of its actions sent. -/
def World.settled (w : World V) (f : NodeId) (r : FutureSharedResolver V) : World V :=
  (w.setFuture f { w.futures f with resolver := some r }).deliver (w.futures f).actions r

/-- On another thread than the loop's, settling fails its assertion and changes nothing. -/
theorem FutureShared.settle_run_thread {w : World V} {t : Thread} {f : NodeId}
    (ht : t (w.futures f).loop = false) (r : FutureSharedResolver V) :
    (FutureShared.settle uv t f r).run w =
      .error (.runtimeError "Not on the event Loop thread") w := by
  simp [FutureShared.settle, nnativeAssert, ht]

/-- Settling a settled future throws `PromiseAlreadySatisfied` and changes nothing. -/
theorem FutureShared.settle_run_again {w : World V} {t : Thread} {f : NodeId}
    (ht : t (w.futures f).loop = true) (hf : (w.futures f).resolver.isSome)
    (r : FutureSharedResolver V) :
    (FutureShared.settle uv t f r).run w = .error (.futureError PromiseAlreadySatisfied) w := by
  simp [FutureShared.settle, nnativeAssert, ht, hf]

/-- Settling a pending future whose actions are idle. -/
theorem FutureShared.settle_run (huv : uv.Ok) {w : World V} {t : Thread} {f : NodeId}
    (ht : t (w.futures f).loop = true) (hf : (w.futures f).resolver = none)
    (hnd : (w.futures f).actions.Nodup) (hidle : ∀ a ∈ (w.futures f).actions, (w.action a).Idle)
    (r : FutureSharedResolver V) :
    (FutureShared.settle uv t f r).run w = .ok () (w.settled f r) := by
  have hloop := FutureSharedResolver.forM_run huv r hnd
    (w := w.setFuture f { w.futures f with resolver := some r }) hidle
  simp only [FutureSharedResolver.resolve_eq] at hloop
  simp [FutureShared.settle, nnativeAssert, ht, hf, modifyFuture, World.settled, World.setFuture]
  exact hloop

/-! ## Registering -/

/-- Action `a` added to the actions of future `f`, and its handle sent if `f` is settled. -/
def World.pushed (w : World V) (f a : NodeId) : World V :=
  let w' := w.setFuture f { w.futures f with actions := (w.futures f).actions ++ [a] }
  match (w.futures f).resolver with
  | some r => w'.deliver [a] r
  | none => w'

/-- Future `n`, newly created. -/
def World.createFuture (w : World V) (n : NodeId) (l : LoopId) (isVoid : Bool) : World V :=
  { w.setFuture n { loop := l, isVoid } with created := n :: w.created }

/-- Action `n` and its future, newly created. -/
def World.createAction (w : World V) (n : NodeId) (l : LoopId) (srcVoid : Bool)
    (cls : ActionClass) (f : Callback) : World V :=
  (w.setAction n { loop := l, cls, f }).createFuture n l (cls.isVoid srcVoid)

/-- Action `n` created by `async` on loop `l`. -/
def World.asynced (w : World V) (l : LoopId) (n : NodeId) (R : RetType) (f : Callback) :
    World V :=
  (w.createAction n l true (.actionCallback R) f).deliver [n] (.value none)

/-- Action `a` created and registered on future `f` from thread `t`: at once, or by an action that
`async` posts. -/
def World.registered (w : World V) (t : Thread) (f a : NodeId) (cls : ActionClass)
    (cb : Callback) : World V :=
  let src := w.futures f
  let w' := w.createAction a src.loop src.isVoid cls cb
  if t src.loop then w'.pushed f a else w'.asynced src.loop (.post a) .void (.push f a)

/-! ## The fields of the updated states -/

section
variable (w : World V) (f a : NodeId)

@[simp] theorem World.pushed_created : (w.pushed f a).created = w.created := by
  unfold World.pushed; split <;> rfl

@[simp] theorem World.pushed_executed : (w.pushed f a).executed = w.executed := by
  unfold World.pushed; split <;> rfl

@[simp] theorem World.pushed_running : (w.pushed f a).running = w.running := by
  unfold World.pushed; split <;> rfl

@[simp] theorem World.pushed_closing : (w.pushed f a).closing = w.closing := by
  unfold World.pushed; split <;> rfl

@[simp] theorem World.pushed_aborted : (w.pushed f a).aborted = w.aborted := by
  unfold World.pushed; split <;> rfl

/-- Only the actions of `f` change. -/
@[simp] theorem World.pushed_futures (g : NodeId) : (w.pushed f a).futures g =
    if g = f then { w.futures f with actions := (w.futures f).actions ++ [a] }
    else w.futures g := by
  unfold World.pushed; split <;> simp

/-- The handle is sent when the future is settled. -/
theorem World.pushed_pending : (w.pushed f a).pending =
    if (w.futures f).resolver.isSome then w.pending ++ [a] else w.pending := by
  unfold World.pushed
  split <;> rename_i h <;> simp [h]

/-- The action is sent when the future is settled. -/
theorem World.pushed_action (b : NodeId) : (w.pushed f a).action b =
    match (w.futures f).resolver with
    | some r => if b = a then (w.action b).sent r else w.action b
    | none => w.action b := by
  unfold World.pushed
  split <;> rename_i h <;> simp [h]

/-- Other actions do not change. -/
theorem World.pushed_action_ne {b : NodeId} (h : b ≠ a) :
    (w.pushed f a).action b = w.action b := by
  rw [World.pushed_action]; split <;> simp [h]

end

section
variable (w : World V) (n : NodeId) (l : LoopId) (srcVoid : Bool) (cls : ActionClass)
  (f : Callback)

@[simp] theorem World.createAction_created :
    (w.createAction n l srcVoid cls f).created = n :: w.created := rfl

@[simp] theorem World.createAction_pending :
    (w.createAction n l srcVoid cls f).pending = w.pending := rfl

@[simp] theorem World.createAction_executed :
    (w.createAction n l srcVoid cls f).executed = w.executed := rfl

@[simp] theorem World.createAction_running :
    (w.createAction n l srcVoid cls f).running = w.running := rfl

@[simp] theorem World.createAction_closing :
    (w.createAction n l srcVoid cls f).closing = w.closing := rfl

@[simp] theorem World.createAction_aborted :
    (w.createAction n l srcVoid cls f).aborted = w.aborted := rfl

@[simp] theorem World.createAction_action (b : NodeId) :
    (w.createAction n l srcVoid cls f).action b =
      if b = n then { loop := l, cls, f } else w.action b := by
  simp [World.createAction, World.createFuture, World.setFuture]

@[simp] theorem World.createAction_futures (g : NodeId) :
    (w.createAction n l srcVoid cls f).futures g =
      if g = n then { loop := l, isVoid := cls.isVoid srcVoid } else w.futures g := by
  simp [World.createAction, World.createFuture, World.setFuture, World.setAction,
    Function.update_apply]

end

/-! ## The registering operations -/

/-- A new action is idle. -/
theorem World.createAction_idle (w : World V) (n : NodeId) (l : LoopId) (srcVoid : Bool)
    (cls : ActionClass) (f : Callback) :
    ((w.createAction n l srcVoid cls f).action n).Idle := by
  constructor <;> simp

/-- Registering an idle action. -/
theorem FutureShared.push_run (huv : uv.Ok) {w : World V} {f a : NodeId}
    (h : (w.action a).Idle) : (FutureShared.push uv f a).run w = .ok () (w.pushed f a) := by
  cases hr : (w.futures f).resolver with
  | none => simp [FutureShared.push, modifyFuture, World.pushed, World.setFuture, hr]
  | some r =>
    have hset := ActionCallbackBase.settle_run huv
      (w := w.setFuture f { w.futures f with actions := (w.futures f).actions ++ [a] }) h r
    simp [FutureShared.push, modifyFuture, World.pushed, World.setFuture, hr] at hset ⊢
    exact hset

/-- Creating a future does not fail. -/
theorem FutureShared.create_run (w : World V) (n : NodeId) (l : LoopId) (isVoid : Bool) :
    (FutureShared.create n l isVoid).run w = .ok () (w.createFuture n l isVoid) :=
  rfl

/-- Creating an action does not fail. -/
theorem ActionCallback.create_run (w : World V) (n : NodeId) (l : LoopId) (srcVoid : Bool)
    (cls : ActionClass) (f : Callback) :
    (ActionCallback.create n l srcVoid cls f).run w =
      .ok () (w.createAction n l srcVoid cls f) :=
  rfl

/-- `async` sends the handle of the new action. -/
theorem async_run (huv : uv.Ok) (w : World V) (l : LoopId) (n : NodeId) (R : RetType)
    (f : Callback) : (async uv l n R f).run w = .ok () (w.asynced l n R f) := by
  rw [async, EStateM.run_bind, ActionCallback.create_run]
  exact ActionCallbackBase.settle_run huv (World.createAction_idle ..) (.value none)

/-- Registering a new action on a future. -/
theorem FutureShared.register_run (huv : uv.Ok) (w : World V) (t : Thread) (f a : NodeId)
    (cls : ActionClass) (cb : Callback) :
    (FutureShared.register uv t f a cls cb).run w = .ok () (w.registered t f a cls cb) := by
  simp only [FutureShared.register, EStateM.run_bind, EStateM.run_get, ActionCallback.create_run,
    World.registered]
  split
  · exact FutureShared.push_run huv (World.createAction_idle ..)
  · exact async_run huv _ _ _ _ _

/-- `then` registers an action of the class of its source. -/
theorem FutureShared.thenCb_run (huv : uv.Ok) (w : World V) (t : Thread) (f a : NodeId)
    (R : RetType) (cb : Callback) : (FutureShared.thenCb uv t f a R cb).run w =
      .ok () (w.registered t f a ((w.futures f).thenClass R) cb) := by
  simp only [FutureShared.thenCb, EStateM.run_bind, EStateM.run_get]
  exact FutureShared.register_run huv w t f a _ cb

/-- `error` registers an action of the class of its source. -/
theorem FutureShared.errorCb_run (huv : uv.Ok) (w : World V) (t : Thread) (f a : NodeId)
    (cb : Callback) : (FutureShared.errorCb uv t f a cb).run w =
      .ok () (w.registered t f a (w.futures f).errorClass cb) := by
  simp only [FutureShared.errorCb, EStateM.run_bind, EStateM.run_get]
  exact FutureShared.register_run huv w t f a _ cb

/-- `finally` registers an action of the class of its source. -/
theorem FutureShared.finallyCb_run (huv : uv.Ok) (w : World V) (t : Thread) (f a : NodeId)
    (R : RetType) (cb : Callback) : (FutureShared.finallyCb uv t f a R cb).run w =
      .ok () (w.registered t f a ((w.futures f).finallyClass R) cb) := by
  simp only [FutureShared.finallyCb, EStateM.run_bind, EStateM.run_get]
  exact FutureShared.register_run huv w t f a _ cb

section
variable (w : World V) (t : Thread) (f a : NodeId) (cls : ActionClass) (cb : Callback)

/-- Registering creates the action, and off the loop thread an action that posts it. -/
theorem World.registered_created : (w.registered t f a cls cb).created =
    if t (w.futures f).loop then a :: w.created else .post a :: a :: w.created := by
  simp only [World.registered]
  split <;> simp [World.asynced]

/-- Registering sends at most the new action or its posting action. -/
theorem World.registered_pending {b : NodeId}
    (hb : b ∈ (w.registered t f a cls cb).pending) : b ∈ w.pending ∨ b = a ∨ b = .post a := by
  simp only [World.registered] at hb
  split at hb
  · rw [World.pushed_pending] at hb
    split at hb
    · simp only [World.createAction_pending, List.mem_append, List.mem_singleton] at hb
      exact hb.imp_right .inl
    · exact .inl hb
  · simp only [World.asynced, World.deliver_pending, World.createAction_pending, List.mem_append,
      List.mem_singleton] at hb
    exact hb.imp_right .inr

/-- Registering registers the new action at most. -/
theorem World.registered_actions {b g : NodeId}
    (hb : b ∈ ((w.registered t f a cls cb).futures g).actions) :
    b ∈ (w.futures g).actions ∨ b = a := by
  simp only [World.registered] at hb
  split at hb
  · rw [World.pushed_futures] at hb
    split at hb
    · rename_i hg
      subst hg
      simp only [World.createAction_futures, List.mem_append, List.mem_singleton] at hb
      refine hb.imp_left fun hb => ?_
      split at hb
      · cases hb
      · exact hb
    · simp only [World.createAction_futures] at hb
      split at hb
      · cases hb
      · exact .inl hb
  · simp only [World.asynced, World.deliver_futures, World.createAction_futures] at hb
    split at hb
    · cases hb
    · split at hb
      · cases hb
      · exact .inl hb

/-- On the loop thread the action is registered at once. -/
theorem World.registered_mem (ht : t (w.futures f).loop = true) (hfa : f ≠ a) :
    a ∈ ((w.registered t f a cls cb).futures f).actions := by
  simp [World.registered, ht, hfa]

/-- The new action. -/
theorem World.registered_action :
    ((w.registered t f a cls cb).action a).loop = (w.futures f).loop ∧
      ((w.registered t f a cls cb).action a).cls = cls ∧
      ((w.registered t f a cls cb).action a).f = cb := by
  have hpost : a ≠ .post a := (NodeId.post_ne a).symm
  simp only [World.registered]
  split
  · rw [World.pushed_action]
    split <;> simp [Action.sent]
  · simp [World.asynced, hpost]

/-- The new future. -/
theorem World.registered_future :
    ((w.registered t f a cls cb).futures a).loop = (w.futures f).loop ∧
      ((w.registered t f a cls cb).futures a).isVoid = cls.isVoid (w.futures f).isVoid := by
  have hpost : a ≠ .post a := (NodeId.post_ne a).symm
  simp only [World.registered]
  split
  · rw [World.pushed_futures]
    split
    · rename_i haf
      subst haf
      simp
    · simp
  · simp [World.asynced, hpost]

/-- The posting action and its future have the loop of the source. -/
theorem World.registered_post (hp : .post a ∉ w.created)
    (hc : .post a ∈ (w.registered t f a cls cb).created) :
    ((w.registered t f a cls cb).action (.post a)).loop = (w.futures f).loop ∧
      ((w.registered t f a cls cb).futures (.post a)).loop = (w.futures f).loop := by
  have hpost : .post a ≠ a := NodeId.post_ne a
  rw [World.registered_created] at hc
  simp only [World.registered]
  split
  · rename_i ht
    rw [if_pos ht] at hc
    exact absurd ((List.mem_cons.1 hc).resolve_left hpost) hp
  · simp [World.asynced, Action.sent]

/-- No settlement changes: the new futures are pending, and were not there before. -/
theorem World.registered_resolver (ha : (w.futures a).resolver = none)
    (hp : (w.futures (.post a)).resolver = none) (g : NodeId) :
    ((w.registered t f a cls cb).futures g).resolver = (w.futures g).resolver := by
  simp only [World.registered]
  split
  · rw [World.pushed_futures]
    split
    · rename_i hg
      subst hg
      rw [World.createAction_futures]
      split
      · rename_i hg
        subst hg
        exact ha.symm
      · rfl
    · rw [World.createAction_futures]
      split
      · rename_i hg
        subst hg
        exact ha.symm
      · rfl
  · simp only [World.asynced, World.deliver_futures, World.createAction_futures]
    split
    · rename_i hg
      subst hg
      exact hp.symm
    · split
      · rename_i hg
        subst hg
        exact ha.symm
      · rfl

end

/-- The first relay of the returned future `g` to action `a` registered. -/
def World.relayedThen (w : World V) (t : Thread) (g a : NodeId) : World V :=
  w.registered t g (.relayThen a) ((w.futures g).thenClass .void) (.relay a)

/-- The outcome of the returned future `g` relayed to the future of action `a`. -/
def World.relayed (w : World V) (t : Thread) (g a : NodeId) : World V :=
  (w.relayedThen t g a).registered t (.relayThen a) (.relayError a) .actionCallbackError (.relay a)

/-- The future of the first relay is a `Future<void>` on the loop of the returned one. -/
theorem World.relayedThen_future (w : World V) (t : Thread) (g a : NodeId) :
    ((w.relayedThen t g a).futures (.relayThen a)).loop = (w.futures g).loop ∧
      ((w.relayedThen t g a).futures (.relayThen a)).isVoid = true := by
  obtain ⟨h1, h2⟩ := w.registered_future t g (.relayThen a) ((w.futures g).thenClass .void)
    (.relay a)
  refine ⟨h1, h2.trans ?_⟩
  unfold FutureShared.thenClass
  split <;> rfl

section
variable (w : World V) {t : Thread} {g : NodeId} (a : NodeId)

/-- Relaying on the loop thread creates the two relays. -/
theorem World.relayed_created (ht : t (w.futures g).loop = true) :
    (w.relayed t g a).created = .relayError a :: .relayThen a :: w.created := by
  rw [World.relayed, World.registered_created, (w.relayedThen_future t g a).1, if_pos ht,
    World.relayedThen, World.registered_created, if_pos ht]

/-- The first relay is registered on the returned future. -/
theorem World.relayedThen_mem (ht : t (w.futures g).loop = true) (hga : g ≠ .relayThen a) :
    .relayThen a ∈ ((w.relayedThen t g a).futures g).actions :=
  w.registered_mem t g _ _ _ ht hga

/-- The second relay is registered on the future of the first. -/
theorem World.relayed_mem (ht : t (w.futures g).loop = true) :
    .relayError a ∈ ((w.relayed t g a).futures (.relayThen a)).actions := by
  refine World.registered_mem _ t _ _ _ _ ?_ fun h => nomatch h
  rw [(w.relayedThen_future t g a).1]
  exact ht

/-- The actions and futures of the relays are on the loop of the returned future. -/
theorem World.relayed_loop (t : Thread) (g : NodeId) :
    ((w.relayedThen t g a).action (.relayThen a)).loop = (w.futures g).loop ∧
      ((w.relayed t g a).action (.relayError a)).loop = (w.futures g).loop ∧
      ((w.relayed t g a).futures (.relayError a)).loop = (w.futures g).loop := by
  have h := (w.relayedThen_future t g a).1
  exact ⟨(World.registered_action ..).1, (World.registered_action ..).1.trans h,
    (World.registered_future ..).1.trans h⟩

/-- Relaying settles nothing. -/
theorem World.relayed_resolver (t : Thread) (g : NodeId)
    (hnone : ∀ b, b = .relayThen a ∨ b = .relayError a ∨ b = .post (.relayThen a) ∨
      b = .post (.relayError a) → (w.futures b).resolver = none) (b : NodeId) :
    ((w.relayed t g a).futures b).resolver = (w.futures b).resolver := by
  have h1 : ∀ b, ((w.relayedThen t g a).futures b).resolver = (w.futures b).resolver :=
    w.registered_resolver t _ _ _ _ (hnone _ (.inl rfl)) (hnone _ (.inr (.inr (.inl rfl))))
  rw [World.relayed, World.registered_resolver, h1]
  · rw [h1]
    exact hnone _ (.inr (.inl rfl))
  · rw [h1]
    exact hnone _ (.inr (.inr (.inr rfl)))

/-- Relaying registers and sends no node of the program. -/
theorem World.relayed_user (t : Thread) (g : NodeId) {n : Nat}
    (hp : .user n ∉ w.pending) (ha : ∀ f, .user n ∉ (w.futures f).actions) :
    .user n ∉ (w.relayed t g a).pending ∧
      ∀ f, .user n ∉ ((w.relayed t g a).futures f).actions := by
  refine ⟨fun hmem => ?_, fun f hmem => ?_⟩
  · rcases World.registered_pending _ t _ _ _ _ hmem with hmem | hmem | hmem
    · rcases World.registered_pending _ t _ _ _ _ hmem with hmem | hmem | hmem
      · exact hp hmem
      · cases hmem
      · cases hmem
    · cases hmem
    · cases hmem
  · rcases World.registered_actions _ t _ _ _ _ hmem with hmem | hmem
    · rcases World.registered_actions _ t _ _ _ _ hmem with hmem | hmem
      · exact ha f hmem
      · cases hmem
    · cases hmem

end

/-- `callFn` of a callback that returned the future `g`. -/
theorem ActionCallback.relay_run (huv : uv.Ok) (w : World V) (t : Thread) (g a : NodeId) :
    (do
      FutureShared.thenCb uv t g (.relayThen a) .void (.relay a)
      FutureShared.errorCb uv t (.relayThen a) (.relayError a) (.relay a) : M V Unit).run w =
      .ok () (w.relayed t g a) := by
  have hcls : ((w.relayedThen t g a).futures (.relayThen a)).errorClass = .actionCallbackError := by
    simp [FutureShared.errorClass, (w.relayedThen_future t g a).2]
  rw [EStateM.run_bind, FutureShared.thenCb_run huv]
  refine (FutureShared.errorCb_run huv (w.relayedThen t g a) t _ _ _).trans ?_
  rw [hcls]
  rfl

/-! ## Executing an action -/

/-- The class hands `r` on to the action's future without calling the callback. -/
def ActionClass.passes : ActionClass → FutureSharedResolver V → Bool
  | .actionCallback _, r | .actionCallbackP1 _, r => r.isError
  | .actionCallbackError, r | .actionCallbackErrorP1, r => !r.isError
  | .actionCallbackFinally _, _ | .actionCallbackFinallyP1 _, _ => false

/-- `resolveCb` and `rejectCb` of class `cls` in one: hand the resolver on, or call the callback. -/
def ActionCallback.dispatch (uv : UvAsync) (t : Thread) (a : NodeId) (cls : ActionClass)
    (r : FutureSharedResolver V) : M V Bool :=
  if cls.passes r then do
    FutureShared.settle uv t a r
    return true
  else ActionCallback.callFn uv t a r

/-- The handle of `a` has fired and its callback is called with `r`. -/
def World.started (w : World V) (a : NodeId) (r : FutureSharedResolver V) : World V :=
  { w with pending := w.pending.erase a, executed := w.executed ++ [(a, r)] }

/-- Each class implements `dispatch`. -/
theorem FutureSharedResolver.resolveCb_run (t : Thread) (a : NodeId)
    (r : FutureSharedResolver V) (w : World V) : (r.resolveCb uv t a).run w =
      (ActionCallback.dispatch uv t a (w.action a).cls r).run
        { w with executed := w.executed ++ [(a, r)] } := by
  cases r <;> cases hc : (w.action a).cls <;>
    simp [FutureSharedResolver.resolveCb, ActionCallback.resolveCb, ActionCallback.rejectCb,
      ActionCallback.dispatch, ActionClass.passes, FutureSharedResolver.isError, hc,
      FutureShared.resolve, FutureShared.reject]

/-- A fired handle executes its action with the resolver that was kept. -/
theorem AsyncBase.Async_run {w : World V} {a : NodeId} {r : FutureSharedResolver V}
    (hdata : (w.action a).data = true) (hres : (w.action a).resolver = some r) :
    (AsyncBase.Async uv a).run { w with pending := w.pending.erase a } =
      (do
        if (← ActionCallback.dispatch uv (Thread.ofLoop (w.action a).loop) a (w.action a).cls r)
          then uvClose a : M V Unit).run (w.started a r) := by
  simp only [AsyncBase.Async, ActionCallbackBase.executeAsync, nnativeAssert, EStateM.run_bind,
    EStateM.run_get, hdata, if_true, EStateM.run_pure, hres, FutureSharedResolver.resolveCb_run,
    World.started]

end

end NodeNative
