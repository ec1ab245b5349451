import NodeNative.Async.Preservation

/-!
# The loop steps as state updates

`step_fire` and `step_ret` say that a loop step makes calls; here are the states it ends in when
nothing else has settled the future of its action. There is one equation for each way an action is
executed: its class hands the settlement on, it starts a callback of the program, it pushes a posted
action, or it relays the outcome of a returned future; and one for each way a callback returns.
-/

namespace NodeNative

section
variable {V : Type} {uv : UvAsync} {w : World V}

/-- The handle of `a` is closing. -/
def World.uvClosed (w : World V) (a : NodeId) : World V :=
  { w with closing := w.closing ++ [a] }

/-- Only the resolver of `f` changes. -/
@[simp] theorem World.settled_resolver (w : World V) (f g : NodeId)
    (r : FutureSharedResolver V) : ((w.settled f r).futures g).resolver =
      if g = f then some r else (w.futures g).resolver := by
  by_cases hg : g = f
  · subst hg; simp [World.settled]
  · simp [World.settled, hg]

/-- The registrations do not change. -/
@[simp] theorem World.settled_actions (w : World V) (f g : NodeId) (r : FutureSharedResolver V) :
    ((w.settled f r).futures g).actions = (w.futures g).actions := by
  by_cases hg : g = f
  · subst hg; simp [World.settled]
  · simp [World.settled, hg]

/-- The loop of a future does not change. -/
@[simp] theorem World.settled_loop (w : World V) (f g : NodeId) (r : FutureSharedResolver V) :
    ((w.settled f r).futures g).loop = (w.futures g).loop := by
  by_cases hg : g = f
  · subst hg; simp [World.settled]
  · simp [World.settled, hg]

/-- Settling a pending future of the invariant on its loop. -/
theorem World.Inv.settle_run (huv : uv.Ok) (h : w.Inv) {f : NodeId} {l : LoopId}
    (hl : (w.futures f).loop = l) (hf : (w.futures f).resolver = none)
    (r : FutureSharedResolver V) :
    (FutureShared.settle uv (Thread.ofLoop l) f r).run w = .ok () (w.settled f r) :=
  FutureShared.settle_run huv (by simp [hl]) hf (h.actions_nodup f)
    (fun _ ha => h.actions_idle ha hf) r

/-- `callFn` of a callback that returns `p`, after which the action's future is still pending. -/
theorem ActionCallback.callFnValue_run (huv : uv.Ok) {s : World V} (h : s.Inv) {a : NodeId}
    {l : LoopId} (hl : (s.futures a).loop = l) (ha : (s.futures a).resolver = none)
    {body : M V (Option V)} {p : Option V} (hbody : body.run w = .ok p s) :
    (ActionCallback.callFnValue uv (Thread.ofLoop l) a body).run w =
      .ok () (s.settled a (.value p)) := by
  rw [ActionCallback.callFnValue, tryFutureError, Hoare.tryCatch_run, EStateM.run_bind, hbody]
  dsimp only
  rw [FutureShared.resolve, h.settle_run huv hl ha (.value p)]

/-- `callFn` of a callback that throws a `FutureError`. -/
theorem ActionCallback.callFnValue_run_error (huv : uv.Ok) {s : World V} (h : s.Inv) {a : NodeId}
    {l : LoopId} (hl : (s.futures a).loop = l) (ha : (s.futures a).resolver = none)
    {body : M V (Option V)} {e : FutureError} (hbody : body.run w = .error (.futureError e) s) :
    (ActionCallback.callFnValue uv (Thread.ofLoop l) a body).run w =
      .ok () (s.settled a (.error e)) := by
  rw [ActionCallback.callFnValue, tryFutureError, Hoare.tryCatch_run, EStateM.run_bind, hbody]
  exact h.settle_run huv hl ha (.error e)

/-! ## Firing -/

/-- An executed action was executed with one settlement. -/
theorem World.Inv.executed_unique (h : w.Inv) {a : NodeId} {r r' : FutureSharedResolver V}
    (hr : (a, r) ∈ w.executed) (hr' : (a, r') ∈ w.executed) : r = r' := by
  have hnd : (w.executed.map Prod.fst).Nodup := h.executed_nodup
  have := (List.inj_on_of_nodup_map hnd) hr hr' rfl
  exact congrArg Prod.snd this

/-- An entry of the history, by its name. -/
theorem World.mem_executedIds_iff {a : NodeId} :
    a ∈ w.executedIds ↔ ∃ r, (a, r) ∈ w.executed := by
  simp [World.executedIds]

/-- The action was executed with `r`, or is in flight with it. -/
def World.Delivered (w : World V) (a : NodeId) (r : FutureSharedResolver V) : Prop :=
  (a, r) ∈ w.executed ∨ a ∈ w.pending ∧ (w.action a).Sent r

/-- A delivered settlement is that of the future on which the action is registered. -/
theorem World.Inv.delivered_source (h : w.Inv) {f a : NodeId} {r : FutureSharedResolver V}
    (hd : w.Delivered a r) (ha : a ∈ (w.futures f).actions) :
    (w.futures f).resolver = some r := by
  cases hf : (w.futures f).resolver with
  | none =>
    obtain ⟨h1, h2⟩ := h.waiting f a ha hf
    rcases hd with hx | ⟨hp, -⟩
    · exact absurd (World.mem_executedIds hx) h2
    · exact absurd hp h1
  | some r' =>
    rcases h.delivered f a r' ha hf with ⟨hp, hr⟩ | hx'
    · rcases hd with hx | ⟨-, hs⟩
      · exact absurd (World.mem_executedIds hx) (h.not_executed a hp)
      · rw [← hr, hs.resolver]
    · rcases hd with hx | ⟨hp, -⟩
      · rw [h.executed_unique hx hx']
      · exact absurd (World.mem_executedIds hx') (h.not_executed a hp)

/-- A delivered action is created. -/
theorem World.Inv.delivered_created (h : w.Inv) {a : NodeId} {r : FutureSharedResolver V}
    (hd : w.Delivered a r) : a ∈ w.created := by
  rcases hd with hx | ⟨hp, -⟩
  · exact h.created_executed a (World.mem_executedIds hx)
  · exact h.created_pending a hp

/-- A step adds the execution of the handle that fires, with what it was sent, and no other. -/
theorem step_executed_append (huv : uv.Ok) (h : w.Inv) {lab : Label V} {w' : World V}
    (hstep : step uv w lab = some w') : ((∀ a, lab ≠ .fire a) ∧ w'.executed = w.executed) ∨
      ∃ a r, lab = .fire a ∧ a ∈ w.pending ∧ (w.action a).Sent r ∧
        w'.executed = w.executed ++ [(a, r)] := by
  have hcall : lab.IsCall → (∀ a, lab ≠ .fire a) ∧ w'.executed = w.executed := by
    refine fun hlab => ⟨?_, (step_call huv h hlab hstep).executed⟩
    rintro a rfl
    exact hlab
  cases lab with
  | fire b =>
    obtain ⟨r, hp, hs, -, hcases⟩ := step_fire huv h hstep
    refine .inr ⟨b, r, rfl, hp, hs, ?_⟩
    rcases hcases with ⟨rfl, -⟩ | ⟨s, hc, rfl | ⟨e, rfl⟩⟩
    · rfl
    · exact hc.executed
    · exact hc.executed
  | close b =>
    obtain ⟨-, rfl⟩ := step_close h hstep
    exact .inl ⟨nofun, rfl⟩
  | ret l c =>
    obtain ⟨b, s, -, hc, rfl | ⟨e, rfl⟩⟩ := step_ret huv h hstep
    · exact .inl ⟨nofun, hc.executed⟩
    · exact .inl ⟨nofun, hc.executed⟩
  | promise n l isVoid => exact .inl (hcall trivial)
  | resolve t f p => exact .inl (hcall trivial)
  | reject t f e => exact .inl (hcall trivial)
  | thenCb t f n R => exact .inl (hcall trivial)
  | errorCb t f n => exact .inl (hcall trivial)
  | finallyCb t f n R => exact .inl (hcall trivial)
  | async l n R => exact .inl (hcall trivial)

/-- What a step executes is the action that fires, with what it was sent. -/
theorem step_executed (huv : uv.Ok) (h : w.Inv) {lab : Label V} {w' : World V}
    (hstep : step uv w lab = some w') {a : NodeId} {r : FutureSharedResolver V}
    (hx : (a, r) ∈ w'.executed) :
    (a, r) ∈ w.executed ∨ lab = .fire a ∧ a ∈ w.pending ∧ (w.action a).Sent r := by
  rcases step_executed_append huv h hstep with ⟨-, hexec⟩ | ⟨b, r', hlab, hp, hs, hexec⟩
  · exact .inl (hexec ▸ hx)
  · rw [hexec] at hx
    rcases List.mem_append.1 hx with hx | hx
    · exact .inl hx
    · cases List.mem_singleton.1 hx
      exact .inr ⟨hlab, hp, hs⟩

/-- A handle in flight of an action whose class hands the settlement on. -/
theorem step_fire_passes (huv : uv.Ok) (h : w.Inv) {a : NodeId} {r : FutureSharedResolver V}
    (hs : (w.action a).Sent r) (hp : a ∈ w.pending) (hpass : (w.action a).cls.passes r = true)
    (hl : (w.futures a).loop = (w.action a).loop) (ha : (w.futures a).resolver = none)
    {w' : World V} (hstep : step uv w (.fire a) = some w') :
    w' = ((w.started a r).settled a r).uvClosed a := by
  rw [step_fire_callback hs hstep, World.callback]
  have hset := (h.started hp hs.resolver).settle_run huv hl ha r
  simp only [ActionCallback.dispatch, hpass, if_true, EStateM.run_bind, hset, EStateM.run_pure]
  rfl

/-- A handle in flight of an action that calls a callback of the program. -/
theorem step_fire_user {a : NodeId} {r : FutureSharedResolver V}
    (hs : (w.action a).Sent r) (hpass : (w.action a).cls.passes r = false)
    (hf : (w.action a).f = .user) {w' : World V} (hstep : step uv w (.fire a) = some w') :
    w' = (w.started a r).entered a := by
  rw [step_fire_callback hs hstep, World.callback]
  have hf' : ((w.started a r).action a).f = .user := hf
  simp only [ActionCallback.dispatch, hpass, Bool.false_eq_true, if_false, ActionCallback.callFn,
    EStateM.run_bind, EStateM.run_get, hf', EStateM.run_modify, EStateM.run_pure]
  rfl

/-- A handle in flight of an action that registers `b` on `f`. -/
theorem step_fire_push (huv : uv.Ok) (h : w.Inv) {a f b : NodeId} {r : FutureSharedResolver V}
    (hs : (w.action a).Sent r) (hp : a ∈ w.pending) (hpass : (w.action a).cls.passes r = false)
    (hf : (w.action a).f = .push f b) (hl : (w.futures a).loop = (w.action a).loop)
    (ha : (w.futures a).resolver = none) {w' : World V}
    (hstep : step uv w (.fire a) = some w') :
    w' = (((w.started a r).pushed f b).settled a (.value none)).uvClosed a := by
  obtain ⟨hab, hfc, hbc, hbpost⟩ := h.push a f b hf
  obtain ⟨hbp, hbx, hbreg, hbpp⟩ := h.posted_free hp hf (r := r)
  have hinv := h.started hp hs.resolver
  have hc := hinv.called_pushed hbc hfc hbp hbx hbreg hbpost hbpp
  rw [step_fire_callback hs hstep, World.callback]
  have hf' : ((w.started a r).action a).f = .push f b := hf
  have hbody : (do FutureShared.push uv f b; return (none : Option V)).run (w.started a r) =
      .ok none ((w.started a r).pushed f b) := by
    rw [EStateM.run_bind, FutureShared.push_run huv (hinv.idle b hbp hbx)]
    rfl
  have hloop : (((w.started a r).pushed f b).futures a).loop = (w.action a).loop := by
    rw [(hc.extend.future a (h.created_pending a hp)).1]
    exact hl
  have hres : (((w.started a r).pushed f b).futures a).resolver = none := by
    rw [World.pushed_futures]
    split
    · rename_i haf
      exact haf ▸ ha
    · exact ha
  have hcall := ActionCallback.callFnValue_run huv hc.inv hloop hres hbody
  simp only [ActionCallback.dispatch, hpass, Bool.false_eq_true, if_false, ActionCallback.callFn,
    EStateM.run_bind, EStateM.run_get, hf', EStateM.run_pure]
  rw [hcall]
  rfl

/-- A handle in flight of an action that relays the settlement to the future `d`. -/
theorem step_fire_relay (huv : uv.Ok) (h : w.Inv) {a d : NodeId} {r : FutureSharedResolver V}
    (hs : (w.action a).Sent r) (hp : a ∈ w.pending) (hpass : (w.action a).cls.passes r = false)
    (hf : (w.action a).f = .relay d) (hl : (w.futures a).loop = (w.action a).loop)
    (ha : (w.futures a).resolver = none) (hld : (w.futures d).loop = (w.action a).loop)
    (hd : (w.futures d).resolver = none) (had : a ≠ d) {w' : World V}
    (hstep : step uv w (.fire a) = some w') :
    w' = (((w.started a r).settled d r).settled a (.value none)).uvClosed a := by
  have hinv := h.started hp hs.resolver
  have hset := hinv.settle_run huv hld hd r
  have hc := hinv.called_settled (h.relay a d hf) hd r
  rw [step_fire_callback hs hstep, World.callback]
  have hf' : ((w.started a r).action a).f = .relay d := hf
  have hbody : (do
      FutureShared.settle uv (Thread.ofLoop (w.action a).loop) d r
      return (none : Option V)).run (w.started a r) = .ok none ((w.started a r).settled d r) := by
    rw [EStateM.run_bind, hset]
    rfl
  have hcall := ActionCallback.callFnValue_run huv hc.inv (l := (w.action a).loop) (a := a)
    (by rw [World.settled_loop]; exact hl) (by rw [World.settled_resolver, if_neg had]; exact ha)
    hbody
  simp only [ActionCallback.dispatch, hpass, Bool.false_eq_true, if_false, ActionCallback.callFn,
    EStateM.run_bind, EStateM.run_get, hf', EStateM.run_pure]
  rw [hcall]
  rfl

/-! ## Returning -/

/-- A class that expects a value calls the callback for its value. -/
theorem ActionCallback.callFnReturn_value {a : NodeId} (hret : (w.action a).cls.ret = .value)
    (t : Thread) (r : CallbackReturn V) : (ActionCallback.callFnReturn uv t a r).run w =
      (ActionCallback.callFnValue uv t a r.getValue).run w := by
  rw [ActionCallback.callFnReturn, EStateM.run_bind, EStateM.run_get]
  dsimp only
  rw [hret]

/-- A class that expects nothing calls the callback and drops its value. -/
theorem ActionCallback.callFnReturn_void {a : NodeId} (hret : (w.action a).cls.ret = .void)
    (t : Thread) (r : CallbackReturn V) : (ActionCallback.callFnReturn uv t a r).run w =
      (ActionCallback.callFnValue uv t a (do let _ ← r.getValue; return none)).run w := by
  rw [ActionCallback.callFnReturn, EStateM.run_bind, EStateM.run_get]
  dsimp only
  rw [hret]

/-- A callback returns, and what it returned is settled: its handle is closed. -/
theorem step_ret_settled (h : w.Inv) {l : LoopId} {a : NodeId} (hrun : w.running l = some a)
    {r : CallbackReturn V} {w₁ w' : World V}
    (hcall : (ActionCallback.callFnReturn uv (Thread.ofLoop l) a r).run (w.left l) = .ok () w₁)
    (hstep : step uv w (.ret l r) = some w') : w' = w₁.uvClosed a := by
  obtain ⟨-, rfl⟩ := step_ret_callback h hrun hstep
  rw [World.callback, EStateM.run_bind, hcall]
  rfl

/-- A callback whose class expects a value returns one. -/
theorem step_ret_value (huv : uv.Ok) (h : w.Inv) {l : LoopId} {a : NodeId}
    (hrun : w.running l = some a) {p : Option V} (hret : (w.action a).cls.ret = .value)
    (hl : (w.futures a).loop = l) (ha : (w.futures a).resolver = none) {w' : World V}
    (hstep : step uv w (.ret l (.value p)) = some w') :
    w' = ((w.left l).settled a (.value p)).uvClosed a := by
  have hret' : ((w.left l).action a).cls.ret = .value := hret
  have hbody : (CallbackReturn.value p).getValue.run (w.left l) = .ok p (w.left l) := rfl
  have hcall := ActionCallback.callFnValue_run huv (h.left l) hl ha hbody
  exact step_ret_settled h hrun ((ActionCallback.callFnReturn_value hret' _ _).trans hcall) hstep

/-- A callback whose class expects nothing returns: what it returns is dropped. -/
theorem step_ret_void (huv : uv.Ok) (h : w.Inv) {l : LoopId} {a : NodeId}
    (hrun : w.running l = some a) {r : CallbackReturn V} (hret : (w.action a).cls.ret = .void)
    (hr : ∀ s : World V, ∃ p, r.getValue.run s = .ok p s)
    (hl : (w.futures a).loop = l) (ha : (w.futures a).resolver = none) {w' : World V}
    (hstep : step uv w (.ret l r) = some w') :
    w' = ((w.left l).settled a (.value none)).uvClosed a := by
  have hret' : ((w.left l).action a).cls.ret = .void := hret
  obtain ⟨p, hp⟩ := hr (w.left l)
  have hbody : (do let _ ← r.getValue; return none : M V (Option V)).run (w.left l) =
      .ok none (w.left l) := by
    rw [EStateM.run_bind, hp]
    rfl
  have hcall := ActionCallback.callFnValue_run huv (h.left l) hl ha hbody
  exact step_ret_settled h hrun ((ActionCallback.callFnReturn_void hret' _ _).trans hcall) hstep

/-- A callback throws a `FutureError`: every class rejects its action's future with it. -/
theorem step_ret_throws (huv : uv.Ok) (h : w.Inv) {l : LoopId} {a : NodeId}
    (hrun : w.running l = some a) {e : FutureError} (hl : (w.futures a).loop = l)
    (ha : (w.futures a).resolver = none) {w' : World V}
    (hstep : step uv w (.ret l (.throws e)) = some w') :
    w' = ((w.left l).settled a (.error e)).uvClosed a := by
  have hvalue : ∀ body : M V (Option V), body.run (w.left l) = .error (.futureError e) (w.left l) →
      (ActionCallback.callFnValue uv (Thread.ofLoop l) a body).run (w.left l) =
        .ok () ((w.left l).settled a (.error e)) :=
    fun body hbody => ActionCallback.callFnValue_run_error huv (h.left l) hl ha hbody
  have hcall : (ActionCallback.callFnReturn uv (Thread.ofLoop l) a (.throws e)).run (w.left l) =
      .ok () ((w.left l).settled a (.error e)) := by
    rw [ActionCallback.callFnReturn, EStateM.run_bind, EStateM.run_get]
    dsimp only
    cases ((w.left l).action a).cls.ret with
    | value => exact hvalue _ rfl
    | void => exact hvalue _ rfl
    | futureValue | futureVoid =>
      dsimp only
      rw [ActionCallback.callFnFuture, tryFutureError, Hoare.tryCatch_run]
      exact (h.left l).settle_run huv hl ha (.error e)
  exact step_ret_settled h hrun hcall hstep

/-- A callback throws anything else: no class catches it. -/
theorem step_ret_raises (h : w.Inv) {l : LoopId} {a : NodeId} (hrun : w.running l = some a)
    {m : String} {w' : World V} (hstep : step uv w (.ret l (.raises m)) = some w') :
    w' = { w.left l with aborted := some (.runtimeError m) } := by
  obtain ⟨-, rfl⟩ := step_ret_callback h hrun hstep
  have hcall : (ActionCallback.callFnReturn uv (Thread.ofLoop l) a (.raises m)).run (w.left l) =
      .error (.runtimeError m) (w.left l) := by
    rw [ActionCallback.callFnReturn, EStateM.run_bind, EStateM.run_get]
    dsimp only
    cases ((w.left l).action a).cls.ret with
    | value | void | futureValue | futureVoid => rfl
  rw [World.callback, EStateM.run_bind, hcall]

/-- A callback whose class expects a future returns one: its outcome is relayed. -/
theorem step_ret_future (huv : uv.Ok) (h : w.Inv) {l : LoopId} {a g : NodeId}
    (hrun : w.running l = some a)
    (hret : (w.action a).cls.ret = .futureValue ∨ (w.action a).cls.ret = .futureVoid)
    {w' : World V} (hstep : step uv w (.ret l (.future g)) = some w') :
    g ∈ w.created ∧ w' = ((w.left l).relayed (Thread.ofLoop l) g a).uvClosed a := by
  obtain ⟨hacc, -⟩ := step_ret_callback h hrun hstep
  have hcls : ((w.left l).action a).cls = (w.action a).cls := rfl
  have hcall : (ActionCallback.callFnReturn uv (Thread.ofLoop l) a (.future g)).run (w.left l) =
      .ok () ((w.left l).relayed (Thread.ofLoop l) g a) := by
    rw [ActionCallback.callFnReturn, EStateM.run_bind, EStateM.run_get]
    dsimp only
    rw [hcls]
    rcases hret with hret | hret <;> rw [hret] <;> dsimp only
    all_goals
      rw [ActionCallback.callFnFuture, tryFutureError, Hoare.tryCatch_run, EStateM.run_bind]
      simp only [CallbackReturn.getFuture, EStateM.run_pure]
      rw [ActionCallback.relay_run huv]
  refine ⟨?_, step_ret_settled h hrun hcall hstep⟩
  simp only [ActionClass.accepts, Bool.and_eq_true, List.contains_eq_mem,
    decide_eq_true_eq] at hacc
  exact hacc.1

end

end NodeNative
