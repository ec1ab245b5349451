import NodeNative.Async.Chained

/-!
# Handlers that return a value

A handler that the program registers with `then` or `error` on a future, and that returns a value or,
in `error`, may be passed by (`World.OfHandler`). When nothing is left to do, its future is that of the
one it was registered on where that passes it by, and has the handler's value otherwise
(`World.OfHandler.outcome`).
-/

namespace NodeNative

section
variable {V : Type} {uv : UvAsync} {w w' : World V} {f : NodeId} {n : Nat} {isThen : Bool}
  {p : Option V}

/-- The class of an action that is registered with `then`, for a value, or with `error`. -/
def FutureShared.handlerClass (s : FutureShared V) (isThen : Bool) : ActionClass :=
  if isThen then s.thenClass .value else s.errorClass

/-- `then` hands errors on, and `error` values. -/
theorem FutureShared.handlerClass_passes (s : FutureShared V) (isThen : Bool)
    (r : FutureSharedResolver V) : (s.handlerClass isThen).passes r = (r.isError == isThen) := by
  cases isThen with
  | true =>
    rw [handlerClass, if_pos rfl, thenClass]
    split <;> cases r <;> rfl
  | false =>
    rw [handlerClass, if_neg Bool.false_ne_true, errorClass]
    split <;> cases r <;> rfl

/-- Which class a handler has is up to whether the future carries a value. -/
theorem FutureShared.handlerClass_eq {s s' : FutureShared V} (h : s'.isVoid = s.isVoid) :
    s'.handlerClass isThen = s.handlerClass isThen := by
  unfold handlerClass thenClass errorClass
  rw [h]

/-- How far the handler is: its action waits for the future, it runs, the settlement was handed on, or it
has returned. The handler of `error` on a `Future<void>` drops its value. -/
inductive World.HandlerStage (w : World V) (n : Nat) (isThen : Bool) (p : Option V) : Prop
  | waiting (hx : .user n ∉ w.executedIds)
  | running (r : FutureSharedResolver V) (hx : (.user n, r) ∈ w.executed)
      (hr : (r.isError == isThen) = false) (l : LoopId) (hrun : w.running l = some (.user n))
  | passed (r : FutureSharedResolver V) (hx : (.user n, r) ∈ w.executed)
      (hr : (r.isError == isThen) = true) (hres : (w.futures (.user n)).resolver = some r)
  | returned (r : FutureSharedResolver V) (hx : (.user n, r) ∈ w.executed)
      (hr : (r.isError == isThen) = false) (hrun : ∀ l, w.running l ≠ some (.user n))
      (hres : (w.action (.user n)).cls ≠ .actionCallbackError →
        (w.futures (.user n)).resolver = some (.value p))

/-- The node was registered on `f`, and its handler returns the value. -/
structure World.OfHandler (w : World V) (f : NodeId) (n : Nat) (isThen : Bool) (p : Option V) :
    Prop where
  source : f ∈ w.created
  created : .user n ∈ w.created
  cls : (w.action (.user n)).cls = (w.futures f).handlerClass isThen
  callback : (w.action (.user n)).f = .user
  loop : (w.futures (.user n)).loop = (w.action (.user n)).loop
  isVoid : isThen = true → (w.futures (.user n)).isVoid = false
  registered : w.Registered f (.user n)
  own : ∀ b : NodeId, b.OfNode n → w.OwnPending b
  stage : w.HandlerStage n isThen p

/-- The call that registers the handler. -/
theorem World.Inv.ofHandler (h : w.Inv) (hf : f ∈ w.created) (hn : .user n ∉ w.created) (t : Thread)
    (isThen : Bool) (p : Option V) :
    (w.registered t f (.user n) ((w.futures f).handlerClass isThen) .user).OfHandler f n isThen p := by
  obtain ⟨hloop, hcls, hcb⟩ := w.registered_action t f (.user n) ((w.futures f).handlerClass isThen) .user
  obtain ⟨hfl, hfv⟩ := w.registered_future t f (.user n) ((w.futures f).handlerClass isThen) .user
  obtain ⟨hext, hc, hx, hown⟩ := h.registered_node hf hn t ((w.futures f).handlerClass isThen)
  refine
    { source := hext.created f hf, created := hc, cls := ?_, callback := hcb,
      loop := hfl.trans hloop.symm, isVoid := fun hthen => ?_,
      registered := w.registered_registered hf hn t _ .user, own := hown, stage := .waiting hx }
  · rw [hcls, FutureShared.handlerClass_eq (hext.future f hf).2]
  · rw [hfv, hthen, FutureShared.handlerClass, if_pos rfl, FutureShared.thenClass]
    split <;> rfl

/-- The call of `then` or of `error`. -/
theorem World.OfHandler.start (huv : uv.Ok) (h : w.Inv) {t : Thread} (p : Option V)
    (hstep : NodeNative.step uv w (if isThen then .thenCb t f n .value else .errorCb t f n) =
      some w') : .user n ∉ w.created ∧ w'.OfHandler f n isThen p := by
  cases isThen with
  | true =>
    obtain ⟨hf, hn, rfl⟩ := step_thenCb huv hstep
    exact ⟨hn, h.ofHandler hf hn t true p⟩
  | false =>
    obtain ⟨hf, hn, rfl⟩ := step_errorCb huv hstep
    exact ⟨hn, h.ofHandler hf hn t false p⟩

/-- A later state, in which the handler is at a known stage. -/
theorem World.OfHandler.extends (h : w.OfHandler f n isThen p) (hext : w.Extends w')
    (hreg : w'.Registered f (.user n)) (hown : ∀ b : NodeId, b.OfNode n → w'.OwnPending b)
    (hstage : w'.HandlerStage n isThen p) : w'.OfHandler f n isThen p := by
  obtain ⟨hl, hcls, hcb⟩ := hext.action _ h.created
  obtain ⟨hfl, hfv⟩ := hext.future _ h.created
  refine
    { source := hext.created f h.source, created := hext.created _ h.created, cls := ?_,
      callback := hcb.trans h.callback, loop := ?_, isVoid := fun hthen => hfv.trans (h.isVoid hthen),
      registered := hreg, own := hown, stage := hstage }
  · rw [hcls, h.cls, FutureShared.handlerClass_eq (hext.future f h.source).2]
  · rw [hfl, hl, h.loop]

/-- Nothing happened to the handler. -/
theorem World.HandlerStage.kept (h : w.HandlerStage n isThen p) (hext : w.Extends w')
    (hc : .user n ∈ w.created) (hexec : .user n ∈ w'.executedIds → .user n ∈ w.executedIds)
    (hrun : ∀ l, w'.running l = some (.user n) ↔ w.running l = some (.user n)) :
    w'.HandlerStage n isThen p := by
  cases h with
  | waiting hx => exact .waiting fun hx' => hx (hexec hx')
  | running r hx hr l hl => exact .running r (hext.executed _ hx) hr l ((hrun l).mpr hl)
  | passed r hx hr hres => exact .passed r (hext.executed _ hx) hr (hext.resolver _ _ hres)
  | returned r hx hr hidle hres =>
    refine .returned r (hext.executed _ hx) hr (fun l hl => hidle l ((hrun l).mp hl)) fun hcls =>
      hext.resolver _ _ (hres fun hcls' => hcls ?_)
    rw [(hext.action _ hc).2.1, hcls']

/-- A handler on the stack was called. -/
theorem World.OfHandler.called (h : w.OfHandler f n isThen p) (hinv : w.Inv) {l : LoopId}
    (hrun : w.running l = some (.user n)) :
    ∃ r, (.user n, r) ∈ w.executed ∧ (r.isError == isThen) = false := by
  cases h.stage with
  | waiting hx =>
    obtain ⟨-, r, hx', -⟩ := hinv.running l _ hrun
    exact absurd (World.mem_executedIds hx') hx
  | running r hx hr _ _ => exact ⟨r, hx, hr⟩
  | passed r _ _ hres => cases (h.own _ (.inl rfl) (.inr ⟨l, hrun⟩)).symm.trans hres
  | returned r _ _ hidle _ => exact absurd hrun (hidle l)

/-- A step of the core, in which the handler returns its value if it returns. -/
theorem World.OfHandler.step (huv : uv.Ok) (hinv : w.Inv) (hn : w.RelaysNamed)
    (h : w.OfHandler f n isThen p) {lab : Label V} (hlab : ∀ b : NodeId, b.OfNode n → ¬ lab.Settles b)
    (hret : ∀ l r, lab = .ret l r → w.running l = some (.user n) → r = .value p)
    (hstep : NodeNative.step uv w lab = some w') : w'.OfHandler f n isThen p := by
  have hext := (step_inv huv hinv hstep).2
  refine h.extends hext (step_registered huv hinv hstep h.registered)
    (fun b hb => (h.own b hb).step huv hinv hn (hlab b hb) hstep) ?_
  have hpasses : ∀ r : FutureSharedResolver V, (w.action (.user n)).cls.passes r = (r.isError == isThen) :=
    fun r => by rw [h.cls, FutureShared.handlerClass_passes]
  have hexec : lab ≠ .fire (.user n) → .user n ∈ w'.executedIds → .user n ∈ w.executedIds := by
    intro hfire hx
    obtain ⟨r, hr⟩ := World.mem_executedIds_iff.mp hx
    rcases step_executed huv hinv hstep hr with hr | ⟨hf, -⟩
    · exact World.mem_executedIds hr
    · exact absurd hf hfire
  by_cases hfire : lab = .fire (.user n)
  · subst hfire
    have hp := (step_fire_enabled hstep).1
    have hx := hinv.not_executed _ hp
    obtain ⟨r, hs⟩ := hinv.sent _ hp
    have hstarted : (NodeId.user n, r) ∈ (w.started (.user n) r).executed := by simp [World.started]
    cases hr : r.isError == isThen with
    | true =>
      obtain rfl := step_fire_passes huv hinv hs hp ((hpasses r).trans hr) h.loop
        (h.own _ (.inl rfl) (.inl hx)) hstep
      exact .passed r hstarted hr ((World.settled_resolver ..).trans (if_pos rfl))
    | false =>
      obtain rfl := step_fire_user hs ((hpasses r).trans hr) h.callback hstep
      exact .running r hstarted hr (w.action (.user n)).loop (Function.update_self ..)
  · by_cases hrets : ∃ l r, lab = .ret l r ∧ w.running l = some (.user n)
    · obtain ⟨l, r', rfl, hrun⟩ := hrets
      obtain rfl := hret l r' rfl hrun
      obtain ⟨r, hx, hr⟩ := h.called hinv hrun
      have hl := (hinv.running l _ hrun).1
      refine .returned r (hext.executed _ hx) hr (fun l' hrun' => ?_) fun hcls => ?_
      · obtain ⟨hrun', hne⟩ := (step_running huv hinv hstep hrun').resolve_right fun hf => hfire hf.1
        obtain rfl : l' = l := (hinv.running l' _ hrun').1.symm.trans hl
        exact hne _ rfl
      · rw [(hext.action _ h.created).2.1] at hcls
        exact step_ret_ended huv hinv hrun (h.loop.trans hl) hcls hn h.own hstep
    · refine h.stage.kept hext h.created (hexec hfire) fun l => ⟨fun hl => ?_, fun hl => ?_⟩
      · exact ((step_running huv hinv hstep hl).resolve_right fun hf => hfire hf.1).1
      · exact step_running_stays huv hinv hstep hl fun r hr => hrets ⟨l, r, hr, hl⟩

/-- When nothing is left to do, the future has the settlement of the one before it where that is handed
on, and else the value of the handler. -/
theorem World.OfHandler.outcome (h : w.OfHandler f n isThen p) (hinv : w.Inv) (hp : w.pending = [])
    (hrun : ∀ l, w.running l = none) (hcls : (w.action (.user n)).cls ≠ .actionCallbackError)
    {r : FutureSharedResolver V} (hr : (w.futures f).resolver = some r) :
    (w.futures (.user n)).resolver =
      if r.isError == isThen then some r else some (.value p) := by
  have hx := hinv.registered_executed hp h.registered hr
  have hsame : ∀ r', (.user n, r') ∈ w.executed → r' = r := fun r' hx' => hinv.executed_unique hx' hx
  cases h.stage with
  | waiting hx' => exact absurd (World.mem_executedIds hx) hx'
  | running r' _ _ l hl => cases (hrun l).symm.trans hl
  | passed r' hx' hr' hres =>
    obtain rfl := hsame r' hx'
    rw [hres, if_pos hr']
  | returned r' hx' hr' _ hres =>
    obtain rfl := hsame r' hx'
    rw [hres hcls, hr', if_neg Bool.false_ne_true]

end

end NodeNative
