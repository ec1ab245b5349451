import NodeNative.Async.Loop
import NodeNative.Lib.Hoare

/-!
# What the code of the asynchronous core creates

A frame for every function of the core, with no assumption on libuv and whether or not it throws:
`World.Named P` says that each created object satisfies `P` together with the callback it holds. No
function but the ones that create objects can break it, and these create the names they are called
with: `register` its action and the action that posts it, the return of a callback the two relays and
what posts them. `Label.creates` is the node a call of the program creates, and `step_named` says
what one step of the system adds.
-/

namespace NodeNative

open Hoare (Keeps)

section
variable {V : Type} {uv : UvAsync} {P : NodeId → Callback → Prop}

/-- Every created object satisfies `P` with the callback it holds. -/
def World.Named (P : NodeId → Callback → Prop) (w : World V) : Prop :=
  ∀ b ∈ w.created, P b (w.action b).f

/-- Only the created objects and their callbacks matter. -/
theorem World.Named.congr {w w' : World V} (h : w.Named P) (hcreated : w'.created = w.created)
    (hf : ∀ b, (w'.action b).f = (w.action b).f) : w'.Named P := by
  intro b hb
  rw [hf b]
  exact h b (hcreated ▸ hb)

/-- An update that writes neither the created objects nor the actions. -/
theorem modify_named {g : World V → World V} (hcreated : ∀ w, (g w).created = w.created)
    (haction : ∀ w, (g w).action = w.action) : Keeps (World.Named P) (modify g : M V Unit) :=
  Keeps.modify fun w hw => hw.congr (hcreated w) fun b => by rw [haction]

/-- Modifying a future keeps the names, -/
theorem modifyFuture_named {f : NodeId} {g : FutureShared V → FutureShared V} :
    Keeps (World.Named P) (modifyFuture f g) :=
  Keeps.modify fun _ hw => hw.congr rfl fun _ => rfl

/-- an assertion keeps what holds of the state, -/
theorem nnativeAssert_keeps {I : World V → Prop} {c : Bool} {m : String} :
    Keeps I (nnativeAssert c m : M V Unit) := by
  unfold nnativeAssert
  split
  · exact Keeps.pure _
  · exact Keeps.throw _

/-! ## Sending the handle of an action -/

/-- Holds on when an action changes but for its callback, and when handles are sent. -/
structure Framed (I : World V → Prop) : Prop where
  action : ∀ w a act, act.f = (w.action a).f → I w → I (w.setAction a act)
  pending : ∀ (w : World V) p, I w → I { w with pending := p }

/-- and the names are framed: they are up to the callbacks of the actions. -/
theorem framed_named : Framed (World.Named P : World V → Prop) where
  action w a act hf hw := hw.congr rfl fun b => by
    rw [World.setAction_action]
    split
    · rename_i hb
      rw [hf, hb]
    · rfl
  pending _ _ hw := hw

section
variable {I : World V → Prop} (hI : Framed I)
include hI

/-- Modifying an action keeps what holds when it leaves the callback, -/
theorem modifyAction_keeps {a : NodeId} {g : Action V → Action V} (hg : ∀ act, (g act).f = act.f) :
    Keeps I (modifyAction a g) :=
  Keeps.modify fun w hw => hI.action w a _ (hg _) hw

/-- and so do `enqueue`, -/
theorem AsyncBase.enqueue_keeps {a : NodeId} : Keeps I (AsyncBase.enqueue uv a : M V Unit) := by
  have hsend : Keeps I (do
      if uv.send a ≠ 0 then
        modifyAction a fun act : Action V => { act with data := false }
        modifyAction a fun act => { act with inst := false }
        throw (.exception "uv_async_send")
      modify fun w => { w with pending := w.pending ++ [a] }) := by
    have hpending : Keeps I (modify fun w => { w with pending := w.pending ++ [a] } : M V Unit) :=
      Keeps.modify fun w hw => hI.pending w _ hw
    dsimp only
    split
    · refine Keeps.bind (modifyAction_keeps hI fun _ => rfl) fun _ => ?_
      refine Keeps.bind (modifyAction_keeps hI fun _ => rfl) fun _ => ?_
      exact Keeps.bind (Keeps.throw _) fun _ => hpending
    · exact hpending
  unfold AsyncBase.enqueue
  refine Keeps.get_bind fun _ => Keeps.bind nnativeAssert_keeps fun _ => ?_
  refine Keeps.get_bind fun _ => Keeps.bind nnativeAssert_keeps fun _ => ?_
  refine Keeps.bind (modifyAction_keeps hI fun _ => rfl) fun _ => ?_
  refine Keeps.bind (modifyAction_keeps hI fun _ => rfl) fun _ => ?_
  dsimp only
  split
  · exact Keeps.bind (Keeps.throw _) fun _ => hsend
  · exact hsend

/-- `resolve` and `reject` of an action, -/
theorem ActionCallbackBase.settle_keeps {a : NodeId} (r : FutureSharedResolver V) :
    Keeps I (ActionCallbackBase.settle uv a r) := by
  unfold ActionCallbackBase.settle
  refine Keeps.get_bind fun _ => Keeps.bind nnativeAssert_keeps fun _ => ?_
  exact Keeps.bind (modifyAction_keeps hI fun _ => rfl) fun _ => AsyncBase.enqueue_keeps hI

/-- and the resolver that settles it. -/
theorem FutureSharedResolver.resolve_keeps {a : NodeId} (r : FutureSharedResolver V) :
    Keeps I (r.resolve uv a) := by
  cases r with
  | value p => exact ActionCallbackBase.settle_keeps hI _
  | error e => exact ActionCallbackBase.settle_keeps hI _

end

/-! ## Settling -/

/-- Settling a future creates nothing. -/
theorem FutureShared.settle_named {t : Thread} {f : NodeId} (r : FutureSharedResolver V) :
    Keeps (World.Named P) (FutureShared.settle uv t f r) := by
  unfold FutureShared.settle
  refine Keeps.get_bind fun _ => Keeps.bind nnativeAssert_keeps fun _ => Keeps.get_bind fun _ => ?_
  split
  · exact Keeps.throw _
  · refine Keeps.bind modifyFuture_named fun _ => Keeps.get_bind fun _ => ?_
    exact Keeps.forM (fun _ => FutureSharedResolver.resolve_keeps framed_named r) _

/-- Pushing an action creates nothing. -/
theorem FutureShared.push_named {f a : NodeId} :
    Keeps (World.Named P) (FutureShared.push uv f a : M V Unit) := by
  unfold FutureShared.push
  refine Keeps.bind modifyFuture_named fun _ => Keeps.get_bind fun _ => ?_
  split
  · exact FutureSharedResolver.resolve_keeps framed_named _
  · exact Keeps.pure _

/-! ## Creating -/

/-- Creating an action creates its name. -/
theorem ActionCallback.create_named {n : NodeId} {l : LoopId} {srcVoid : Bool} {cls : ActionClass}
    {f : Callback} (hn : P n f) :
    Keeps (World.Named P) (ActionCallback.create n l srcVoid cls f : M V Unit) := by
  intro w hw b hb
  have hb' : b ∈ n :: w.created := hb
  by_cases hbn : b = n
  · subst hbn
    simpa using hn
  · simpa [hbn] using hw b ((List.mem_cons.1 hb').resolve_left hbn)

/-- A new action with a callback that may have its name keeps the names. -/
theorem async_named {l : LoopId} {n : NodeId} {R : RetType} {f : Callback} (hn : P n f) :
    Keeps (World.Named P) (async uv l n R f : M V Unit) := by
  unfold async
  exact Keeps.bind (ActionCallback.create_named hn) fun _ => ActionCallbackBase.settle_keeps framed_named _

/-- A registration creates its action, and from another thread the action that posts it. -/
theorem FutureShared.register_named {t : Thread} {f a : NodeId} {cls : ActionClass} {cb : Callback}
    (ha : P a cb) (hpost : P (.post a) (.push f a)) :
    Keeps (World.Named P) (FutureShared.register uv t f a cls cb : M V Unit) := by
  unfold FutureShared.register
  refine Keeps.get_bind fun _ => Keeps.bind (ActionCallback.create_named ha) fun _ => ?_
  split
  · exact FutureShared.push_named
  · exact async_named hpost

/-! ## Callbacks -/

/-- A body and its handler that both keep the names keep them together. -/
theorem tryFutureError_named {x : M V Unit} {handler : FutureError → M V Unit}
    (hx : Keeps (World.Named P) x) (hh : ∀ e, Keeps (World.Named P) (handler e)) :
    Keeps (World.Named P) (tryFutureError x handler) := by
  refine Keeps.tryCatch hx fun e => ?_
  cases e with
  | futureError e => exact hh e
  | exception m => exact Keeps.throw _
  | runtimeError m => exact Keeps.throw _

/-- A callback that is called for its value keeps the names, -/
theorem ActionCallback.callFnValue_named {t : Thread} {a : NodeId} {body : M V (Option V)}
    (hbody : Keeps (World.Named P) body) :
    Keeps (World.Named P) (ActionCallback.callFnValue uv t a body) :=
  tryFutureError_named (Keeps.bind hbody fun _ => FutureShared.settle_named _)
    fun _ => FutureShared.settle_named _

/-- Calling one of the library's lambdas creates nothing, starting a callback of the program neither. -/
theorem ActionCallback.callFn_named {t : Thread} {a : NodeId} {arg : FutureSharedResolver V} :
    Keeps (World.Named P) (ActionCallback.callFn uv t a arg) := by
  unfold ActionCallback.callFn
  refine Keeps.get_bind fun w => ?_
  dsimp only
  split
  · exact Keeps.bind (modify_named (fun _ => rfl) fun _ => rfl) fun _ => Keeps.pure _
  · refine Keeps.bind (ActionCallback.callFnValue_named ?_) fun _ => Keeps.pure _
    exact Keeps.bind FutureShared.push_named fun _ => Keeps.pure _
  · refine Keeps.bind (ActionCallback.callFnValue_named ?_) fun _ => Keeps.pure _
    exact Keeps.bind (FutureShared.settle_named _) fun _ => Keeps.pure _

/-- Firing the handle of an action creates nothing. -/
theorem AsyncBase.Async_named {a : NodeId} :
    Keeps (World.Named P) (AsyncBase.Async uv a : M V Unit) := by
  have hresolve : ∀ (t : Thread) (p : Option V),
      Keeps (World.Named P) (ActionCallback.resolveCb uv t a p) := by
    intro t p
    unfold ActionCallback.resolveCb
    refine Keeps.get_bind fun w => ?_
    split
    · exact ActionCallback.callFn_named
    · exact ActionCallback.callFn_named
    · exact Keeps.bind (FutureShared.settle_named _) fun _ => Keeps.pure _
    · exact Keeps.bind (FutureShared.settle_named _) fun _ => Keeps.pure _
    · exact ActionCallback.callFn_named
    · exact ActionCallback.callFn_named
  have hreject : ∀ (t : Thread) (e : FutureError),
      Keeps (World.Named P) (ActionCallback.rejectCb uv t a e : M V Bool) := by
    intro t e
    unfold ActionCallback.rejectCb
    refine Keeps.get_bind fun w => ?_
    split
    · exact Keeps.bind (FutureShared.settle_named _) fun _ => Keeps.pure _
    · exact Keeps.bind (FutureShared.settle_named _) fun _ => Keeps.pure _
    · exact ActionCallback.callFn_named
    · exact ActionCallback.callFn_named
    · exact ActionCallback.callFn_named
    · exact ActionCallback.callFn_named
  unfold AsyncBase.Async ActionCallbackBase.executeAsync
  refine Keeps.get_bind fun _ => Keeps.bind nnativeAssert_keeps fun _ => Keeps.bind ?_ fun done => ?_
  · refine Keeps.get_bind fun w => ?_
    dsimp only
    split
    · unfold FutureSharedResolver.resolveCb
      refine Keeps.bind (modify_named (fun _ => rfl) fun _ => rfl) fun _ => ?_
      split
      · exact hresolve _ _
      · exact hreject _ _
    · exact Keeps.throw _
  · split
    · exact modify_named (fun _ => rfl) fun _ => rfl
    · exact Keeps.pure _

/-- taking the value it has returned keeps them, -/
theorem CallbackReturn.getValue_named (r : CallbackReturn V) :
    Keeps (World.Named P) r.getValue := by
  cases r with
  | value p => exact Keeps.pure _
  | future g => exact Keeps.pure _
  | throws e => exact Keeps.throw _
  | raises m => exact Keeps.throw _

/-- and so does taking its future. -/
theorem CallbackReturn.getFuture_named (r : CallbackReturn V) :
    Keeps (World.Named P) r.getFuture := by
  cases r with
  | value p => exact Keeps.throw _
  | future g => exact Keeps.pure _
  | throws e => exact Keeps.throw _
  | raises m => exact Keeps.throw _

/-- The objects that adopt a returned future for action `a`: its relays and the actions that post
them. -/
structure Relayed (P : NodeId → Callback → Prop) (a : NodeId) : Prop where
  relay : ∀ b, b = .relayThen a ∨ b = .relayError a → P b (.relay a)
  post : ∀ b, b = .relayThen a ∨ b = .relayError a → ∀ f, P (.post b) (.push f b)

/-- The return of a callback creates at most the relays. -/
theorem AsyncBase.asyncReturn_named {a : NodeId} {r : CallbackReturn V} (ha : Relayed P a) :
    Keeps (World.Named P) (AsyncBase.asyncReturn uv a r) := by
  have hfuture : ∀ t, Keeps (World.Named P) (ActionCallback.callFnFuture uv t a r.getFuture) := by
    intro t
    refine tryFutureError_named ?_ fun _ => FutureShared.settle_named _
    refine Keeps.bind r.getFuture_named fun g => ?_
    refine Keeps.bind (Keeps.get_bind fun _ => ?_) fun _ => Keeps.get_bind fun _ => ?_
    · exact FutureShared.register_named (ha.relay _ (.inl rfl)) (ha.post _ (.inl rfl) _)
    · exact FutureShared.register_named (ha.relay _ (.inr rfl)) (ha.post _ (.inr rfl) _)
  unfold AsyncBase.asyncReturn ActionCallback.callFnReturn uvClose
  refine Keeps.get_bind fun _ => ?_
  refine Keeps.bind (modify_named (fun _ => rfl) fun _ => rfl) fun _ => ?_
  refine Keeps.bind (Keeps.get_bind fun w => ?_) fun _ => modify_named (fun _ => rfl) fun _ => rfl
  split
  · exact ActionCallback.callFnValue_named r.getValue_named
  · exact ActionCallback.callFnValue_named (Keeps.bind r.getValue_named fun _ => Keeps.pure _)
  · exact hfuture _
  · exact hfuture _

/-- The end of an async handle keeps the names. -/
theorem AsyncBase.AsyncClosed_named {a : NodeId} :
    Keeps (World.Named P) (AsyncBase.AsyncClosed a : M V Unit) := by
  unfold AsyncBase.AsyncClosed AsyncBase.decreaseInstance ActionCallbackBase.closeAsync
  refine Keeps.get_bind fun _ => Keeps.bind nnativeAssert_keeps fun _ => ?_
  refine Keeps.bind (modifyAction_keeps framed_named fun _ => rfl) fun _ => ?_
  refine Keeps.get_bind fun _ => Keeps.bind nnativeAssert_keeps fun _ => Keeps.bind ?_ fun _ => ?_
  · refine Keeps.get_bind fun _ => ?_
    have hrest : Keeps (World.Named P) (do
        modifyAction a fun act : Action V => { act with instanceNum := act.instanceNum - 1 }
        if ((← get).action a).instanceNum = 0 then
          modifyAction a fun act => { act with inst := false }) := by
      refine Keeps.bind (modifyAction_keeps framed_named fun _ => rfl) fun _ => Keeps.get_bind fun _ => ?_
      split
      · exact modifyAction_keeps framed_named fun _ => rfl
      · exact Keeps.pure _
    dsimp only
    split
    · exact Keeps.bind (Keeps.throw _) fun _ => hrest
    · exact hrest
  · refine Keeps.get_bind fun _ => Keeps.bind nnativeAssert_keeps fun _ => ?_
    exact modifyAction_keeps framed_named fun _ => rfl

/-! ## The transition function -/

/-- The node that a call of the program creates. -/
def Label.creates : Label V → Option Nat
  | .promise n _ _ | .thenCb _ _ n _ | .errorCb _ _ n | .finallyCb _ _ n _ | .async _ n _ => some n
  | _ => none

variable {w w' : World V}

/-- A call of the program keeps the names when its code does, -/
theorem World.Named.call (h : w.Named P) {x : M V Unit} (hx : Keeps (World.Named P) x) :
    (w.call x).Named P := by
  have hrun := hx w h
  unfold World.call
  cases hr : x.run w with
  | ok _ s => rwa [hr] at hrun
  | error _ s => rwa [hr] at hrun

/-- and so does a callback. -/
theorem World.Named.callback (h : w.Named P) {x : M V Unit} (hx : Keeps (World.Named P) x) :
    (w.callback x).Named P := by
  have hrun := hx w h
  unfold World.callback
  cases hr : x.run w with
  | ok _ s => rwa [hr] at hrun
  | error _ s => rw [hr] at hrun; exact hrun

/-- What a step creates: the node of a call and what posts it, and, when a callback returns, the
relays of its action and what posts them. -/
theorem step_named {lab : Label V} (h : w.Named P)
    (hnode : ∀ n, lab.creates = some n → (∀ cb, P (.user n) cb) ∧
      ∀ f, P (.post (.user n)) (.push f (.user n)))
    (hrelays : ∀ l r a, lab = .ret l r → w.running l = some a → Relayed P a)
    (hstep : step uv w lab = some w') : w'.Named P := by
  have hregister : ∀ n, lab.creates = some n → ∀ (t : Thread) (f : NodeId) (cls : ActionClass),
      Keeps (World.Named P) (FutureShared.register uv t f (.user n) cls .user : M V Unit) :=
    fun n hn t f cls => FutureShared.register_named ((hnode n hn).1 _) ((hnode n hn).2 f)
  unfold step at hstep
  split at hstep
  · cases hstep
  cases lab with
  | promise n l isVoid =>
    dsimp only at hstep
    split at hstep
    · cases hstep
    · cases hstep
      intro b hb
      rcases List.mem_cons.1 hb with rfl | hb
      · exact (hnode n rfl).1 _
      · exact h b hb
  | resolve t f p =>
    dsimp only at hstep
    split at hstep
    · cases hstep
      exact h.call (FutureShared.settle_named _)
    · cases hstep
  | reject t f e =>
    dsimp only at hstep
    split at hstep
    · cases hstep
      exact h.call (FutureShared.settle_named _)
    · cases hstep
  | thenCb t f n R =>
    dsimp only at hstep
    split at hstep
    · cases hstep
      exact h.call (Keeps.get_bind fun _ => hregister n rfl _ _ _)
    · cases hstep
  | errorCb t f n =>
    dsimp only at hstep
    split at hstep
    · cases hstep
      exact h.call (Keeps.get_bind fun _ => hregister n rfl _ _ _)
    · cases hstep
  | finallyCb t f n R =>
    dsimp only at hstep
    split at hstep
    · cases hstep
      exact h.call (Keeps.get_bind fun _ => hregister n rfl _ _ _)
    · cases hstep
  | async l n R =>
    dsimp only at hstep
    split at hstep
    · cases hstep
    · cases hstep
      exact h.call (async_named ((hnode n rfl).1 _))
  | fire a =>
    dsimp only at hstep
    split at hstep
    · cases hstep
      have hfired : World.Named P { w with pending := w.pending.erase a } := h
      exact hfired.callback AsyncBase.Async_named
    · cases hstep
  | close a =>
    dsimp only at hstep
    split at hstep
    · cases hstep
      have hclosing : World.Named P { w with closing := w.closing.erase a } := h
      exact hclosing.callback AsyncBase.AsyncClosed_named
    · cases hstep
  | ret l r =>
    dsimp only at hstep
    split at hstep
    · rename_i a hl
      split at hstep
      · cases hstep
        exact h.callback (AsyncBase.asyncReturn_named (hrelays l r a rfl hl))
      · cases hstep
    · cases hstep

end

end NodeNative
