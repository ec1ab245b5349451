import NodeNative.Async.Preservation

/-!
# Exactly-once delivery

A registration is a label `thenCb`, `errorCb` or `finallyCb`. Made on the loop thread it pushes the
action at once; made on another thread it leaves a posting action in flight (`World.Posted`), which
pushes it when it fires. So in a state without handles in flight every registered action is among
the actions of its future (`Registrations`), and there the invariant says that it was executed once
if the future is settled, and not at all if it is pending.
-/

namespace NodeNative

section
variable {V : Type} {uv : UvAsync} {w : World V}

/-! ## Posted registrations -/

/-- The label registers action `a` on future `f`. -/
def Label.Registers : Label V → NodeId → NodeId → Prop
  | .thenCb _ g n _, f, a | .errorCb _ g n, f, a | .finallyCb _ g n _, f, a => g = f ∧ a = .user n
  | _, _, _ => False

/-- An action in flight will push `a` on `f`. -/
def World.Posted (w : World V) (f a : NodeId) : Prop :=
  .post a ∈ w.pending ∧ ∃ l, w.action (.post a) =
    Action.sent { loop := l, cls := .actionCallback .void, f := .push f a } (.value none)

/-- The action is registered on the future, or a posted action will register it. -/
def World.Registered (w : World V) (f a : NodeId) : Prop :=
  a ∈ (w.futures f).actions ∨ w.Posted f a

/-- Calls keep registrations. -/
theorem World.Called.registered {s : World V} (h : w.Called s) {f a : NodeId}
    (hr : w.Registered f a) : s.Registered f a := by
  rcases hr with hr | ⟨hp, l, hact⟩
  · exact .inl (h.extend.actions f a hr)
  · refine .inr ⟨h.pending _ hp, l, ?_⟩
    rw [h.action _ (.inl hp), hact]

/-- A registering call registers: at once, or by a posted action. -/
theorem World.registered_registered (w : World V) {f a : NodeId} (hf : f ∈ w.created)
    (ha : a ∉ w.created) (t : Thread) (cls : ActionClass) (cb : Callback) :
    (w.registered t f a cls cb).Registered f a := by
  have hfa : f ≠ a := fun hfa => ha (hfa ▸ hf)
  unfold World.registered
  dsimp only
  split
  · exact .inl (by simp [hfa])
  · refine .inr ⟨by simp [World.asynced], (w.futures f).loop, ?_⟩
    simp [World.asynced]

/-- A label that registers is a call of `registered`. -/
theorem step_registers (huv : uv.Ok) {lab : Label V} {f a : NodeId} (hlab : lab.Registers f a)
    {w' : World V} (hstep : step uv w lab = some w') :
    f ∈ w.created ∧ a ∉ w.created ∧ ∃ t cls, w' = w.registered t f a cls .user := by
  cases lab with
  | thenCb t g n R =>
    obtain ⟨rfl, rfl⟩ := hlab
    obtain ⟨hf, hn, rfl⟩ := step_thenCb huv hstep
    exact ⟨hf, hn, t, _, rfl⟩
  | errorCb t g n =>
    obtain ⟨rfl, rfl⟩ := hlab
    obtain ⟨hf, hn, rfl⟩ := step_errorCb huv hstep
    exact ⟨hf, hn, t, _, rfl⟩
  | finallyCb t g n R =>
    obtain ⟨rfl, rfl⟩ := hlab
    obtain ⟨hf, hn, rfl⟩ := step_finallyCb huv hstep
    exact ⟨hf, hn, t, _, rfl⟩
  | promise n l isVoid => exact hlab.elim
  | resolve t g p => exact hlab.elim
  | reject t g e => exact hlab.elim
  | async l n R => exact hlab.elim
  | fire b => exact hlab.elim
  | close b => exact hlab.elim
  | ret l r => exact hlab.elim

/-- Settling a created future is a call, whether it settles, is refused or is on another thread. -/
theorem FutureShared.settle_keeps (huv : uv.Ok) (t : Thread) {f : NodeId} (hf : f ∈ w.created)
    (r : FutureSharedResolver V) : Hoare.Keeps w.Called (FutureShared.settle uv t f r) := by
  intro s hs
  have hmakes : s.Makes t (· = f) (s.Updates t (· = f)) (FutureShared.settle uv t f r)
      (Exn.Expected (none : Option (CallbackReturn V))) := by
    refine FutureShared.settle_makes huv hs.inv (hs.extend.created f hf) ?_ r
    rfl
  have hend := hmakes s .refl
  cases hr : (FutureShared.settle uv t f r).run s with
  | ok _ s' =>
    rw [hr] at hend
    exact hs.trans (hend.called hs.inv)
  | error e s' =>
    rw [hr] at hend
    exact hs.trans (hend.1.called hs.inv)

/-- The posting action pushes when it fires, also when its own future refuses to be settled. -/
theorem ActionCallback.dispatch_push (huv : uv.Ok) (h : w.Inv) {f a : NodeId}
    (hcb : (w.action (.post a)).f = .push f a) (hpost : .post a ∈ w.created)
    (hp : a ∉ w.pending) (hx : a ∉ w.executedIds)
    (hreg : ∀ g, a ∉ (w.futures g).actions) (hpp : .post a ∉ w.pending) (t : Thread) :
    Hoare.Triple (· = w) (ActionCallback.dispatch uv t (.post a) (.actionCallback .void)
      (.value none)) (fun done s => done = true ∧ (w.pushed f a).Called s)
      (fun _ => (w.pushed f a).Called) := by
  obtain ⟨-, hfc, hac, hne⟩ := h.push _ f a hcb
  have hcall := h.called_pushed hac hfc hp hx hreg hne hpp
  have hkeeps : ∀ r, Hoare.Keeps (w.pushed f a).Called (FutureShared.settle uv t (.post a) r) :=
    fun r => FutureShared.settle_keeps huv t (hcall.extend.created _ hpost) r
  have hbody : Hoare.Triple (· = w)
      (do FutureShared.push uv f a; return (none : Option V)) (fun _ => (w.pushed f a).Called)
      (fun _ => (w.pushed f a).Called) := by
    rintro _ rfl
    rw [EStateM.run_bind, FutureShared.push_run huv (h.idle a hp hx)]
    exact .refl hcall.inv
  have hvalue : Hoare.Triple (· = w) (ActionCallback.callFnValue uv t (.post a)
      (do FutureShared.push uv f a; return (none : Option V)))
      (fun _ => (w.pushed f a).Called) (fun _ => (w.pushed f a).Called) := by
    refine Hoare.Triple.tryCatch (Hoare.Triple.bind hbody fun p => hkeeps (.value p)) fun ex => ?_
    cases ex with
    | futureError e => exact hkeeps (.error e)
    | exception m => exact Hoare.Keeps.throw _
    | runtimeError m => exact Hoare.Keeps.throw _
  intro s hs
  subst hs
  simp only [ActionCallback.dispatch, ActionClass.passes, FutureSharedResolver.isError,
    Bool.false_eq_true, if_false, ActionCallback.callFn, EStateM.run_bind, EStateM.run_get, hcb]
  have hv := hvalue s rfl
  cases hr : (ActionCallback.callFnValue uv t (.post a)
      (do FutureShared.push uv f a; return (none : Option V))).run s with
  | ok _ s' => rw [hr] at hv; exact ⟨rfl, hv⟩
  | error e s' => rw [hr] at hv; exact hv

/-- When the posting action fires, the registration is made. -/
theorem step_fire_post (huv : uv.Ok) (h : w.Inv) {f a : NodeId} (hpd : w.Posted f a)
    {w' : World V} (hstep : step uv w (.fire (.post a)) = some w') :
    a ∈ (w'.futures f).actions := by
  obtain ⟨hp, l, hact⟩ := hpd
  obtain ⟨hap, hax, hreg⟩ := h.post_pending a hp
  have hcb : (w.action (.post a)).f = .push f a := by rw [hact]; rfl
  have hcls : (w.action (.post a)).cls = .actionCallback .void := by rw [hact]; rfl
  have hres : (w.action (.post a)).resolver = some (.value none) := by rw [hact]; rfl
  have hs : (w.action (.post a)).Sent (.value none) := by
    obtain ⟨r, hs⟩ := h.sent _ hp
    have hr : r = .value none := Option.some.inj (hs.resolver.symm.trans hres)
    exact hr ▸ hs
  have hmem : ∀ s, ((w.started (.post a) (.value none)).pushed f a).Called s →
      a ∈ (s.futures f).actions := fun s hs => hs.extend.actions f a (by simp)
  have hspec := ActionCallback.dispatch_push huv (h.started hp hres) hcb
    (h.created_pending _ hp) (fun hp' => hap (List.mem_of_mem_erase hp'))
    (by
      rw [World.started_executedIds]
      simpa using ⟨hax, (NodeId.post_ne a).symm⟩)
    hreg (fun hp' => (h.pending_nodup.mem_erase_iff.1 hp').1 rfl)
    (Thread.ofLoop (w.action (.post a)).loop) _ rfl
  rw [step_fire_callback hs hstep, World.callback, hcls, EStateM.run_bind]
  cases hd : (ActionCallback.dispatch uv (Thread.ofLoop (w.action (.post a)).loop) (.post a)
      (.actionCallback .void) (.value none)).run (w.started (.post a) (.value none)) with
  | error e s =>
    rw [hd] at hspec
    exact hmem s hspec
  | ok done s =>
    rw [hd] at hspec
    rw [hspec.1]
    exact hmem s hspec.2

/-- Every step keeps registrations. -/
theorem step_registered (huv : uv.Ok) (h : w.Inv) {lab : Label V} {w' : World V}
    (hstep : step uv w lab = some w') {f a : NodeId} (hr : w.Registered f a) :
    w'.Registered f a := by
  have hext := (step_inv huv h hstep).2
  rcases hr with hr | hpd
  · exact .inl (hext.actions f a hr)
  · have hcall : lab.IsCall → w'.Registered f a := fun hlab =>
      (step_call huv h hlab hstep).registered (.inr hpd)
    cases lab with
    | fire b =>
      by_cases hb : b = .post a
      · subst hb
        exact .inl (step_fire_post huv h hpd hstep)
      · obtain ⟨r, -, -, -, hcases⟩ := step_fire huv h hstep
        have hst : (w.started b r).Registered f a := by
          obtain ⟨hp, hact⟩ := hpd
          refine .inr ⟨?_, hact⟩
          exact (List.mem_erase_of_ne (Ne.symm hb)).2 hp
        rcases hcases with ⟨rfl, -⟩ | ⟨s, hc, rfl | ⟨e, rfl⟩⟩
        · exact hst
        · exact hc.registered hst
        · exact hc.registered hst
    | close b =>
      obtain ⟨hb, rfl⟩ := step_close h hstep
      obtain ⟨hp, l, hact⟩ := hpd
      obtain ⟨⟨r, hx, -⟩, -⟩ := h.closing b hb
      have hne : .post a ≠ b := by
        rintro rfl
        exact h.not_executed _ hp (World.mem_executedIds hx)
      refine .inr ⟨hp, l, ?_⟩
      simpa [World.closed, World.setAction, hne] using hact
    | ret l r =>
      obtain ⟨b, s, -, hc, hend⟩ := step_ret huv h hstep
      have hl : (w.left l).Registered f a := .inr hpd
      rcases hend with rfl | ⟨e, rfl⟩
      · exact hc.registered hl
      · exact hc.registered hl
    | promise n l isVoid => exact hcall trivial
    | resolve t g p => exact hcall trivial
    | reject t g e => exact hcall trivial
    | thenCb t g n R => exact hcall trivial
    | errorCb t g n => exact hcall trivial
    | finallyCb t g n R => exact hcall trivial
    | async l n R => exact hcall trivial

/-- In every run, every registration made so far stands. -/
theorem run_registered (huv : uv.Ok) {ls : List (Label V)} (hrun : runLabels uv ls = some w) :
    w.Inv ∧ ∀ lab ∈ ls, ∀ f a, lab.Registers f a → w.Registered f a := by
  have hstep : ∀ (hs : List (Label V)) (s : World V) (lab : Label V) (s' : World V),
      (s.Inv ∧ ∀ l ∈ hs, ∀ f a, l.Registers f a → s.Registered f a) →
        step uv s lab = some s' →
        s'.Inv ∧ ∀ l ∈ hs ++ [lab], ∀ f a, l.Registers f a → s'.Registered f a := by
    rintro hs s lab s' ⟨hinv, hreg⟩ hst
    refine ⟨(step_inv huv hinv hst).1, fun l hl f a hla => ?_⟩
    rcases List.mem_append.1 hl with hl | hl
    · exact step_registered huv hinv hst (hreg l hl f a hla)
    · rw [List.mem_singleton.1 hl] at hla
      obtain ⟨hf, ha, t, cls, rfl⟩ := step_registers huv hla hst
      exact World.registered_registered s hf ha t cls .user
  have h0 : (World.init : World V).Inv ∧ ∀ l ∈ ([] : List (Label V)), ∀ f a, l.Registers f a →
      (World.init : World V).Registered f a :=
    ⟨.init, fun l hl => nomatch hl⟩
  exact Transition.run_history hstep h0 hrun

/-! ## Delivery -/

/-- In a state without handles in flight, an action registered on a settled future was executed
exactly once, with the settlement, and an action registered on a pending future was not. -/
theorem World.Inv.delivered_once (h : w.Inv) (hp : w.pending = []) {f a : NodeId}
    (ha : a ∈ (w.futures f).actions) :
    (∀ r, (w.futures f).resolver = some r → (a, r) ∈ w.executed ∧ w.executedIds.count a = 1) ∧
      ((w.futures f).resolver = none → w.executedIds.count a = 0) := by
  refine ⟨fun r hr => ?_, fun hr => ?_⟩
  · have hx : (a, r) ∈ w.executed := by
      rcases h.delivered f a r ha hr with ⟨hap, -⟩ | hx
      · rw [hp] at hap
        cases hap
      · exact hx
    exact ⟨hx, List.count_eq_one_of_mem h.executed_nodup (World.mem_executedIds hx)⟩
  · exact List.count_eq_zero.2 (h.waiting f a ha hr).2

/-- Every run keeps the settlement of a future, refuses a second one, starts no callback inside a
call of the API, and, when no handle is in flight, has executed every registered action exactly once
with the settlement of its future, or not at all when the future is pending. -/
theorem delivery_exactly_once (huv : uv.Ok) {ls : List (Label V)}
    (hrun : runLabels uv ls = some w) :
    (∀ ms w' f r, Transition.run (step uv) w ms = some w' → (w.futures f).resolver = some r →
      (w'.futures f).resolver = some r) ∧
    (∀ t f, t (w.futures f).loop = true → (w.futures f).resolver.isSome →
      (∀ p, (FutureShared.resolve uv t f p).run w =
        .error (.futureError PromiseAlreadySatisfied) w) ∧
      ∀ e, (FutureShared.reject uv t f e).run w =
        .error (.futureError PromiseAlreadySatisfied) w) ∧
    (∀ lab w', lab.IsCall → step uv w lab = some w' →
      w'.executed = w.executed ∧ w'.running = w.running) ∧
    (w.pending = [] → ∀ f a,
      (a ∈ (w.futures f).actions ∨ ∃ lab ∈ ls, lab.Registers f a) →
      (∀ r, (w.futures f).resolver = some r →
        (a, r) ∈ w.executed ∧ w.executedIds.count a = 1) ∧
      ((w.futures f).resolver = none → w.executedIds.count a = 0)) := by
  obtain ⟨hinv, hreg⟩ := run_registered huv hrun
  refine ⟨?_, ?_, ?_, ?_⟩
  · intro ms w' f r hms hr
    exact (run_extends huv hinv hms).resolver f r hr
  · intro t f ht hf
    exact ⟨fun p => FutureShared.settle_run_again ht hf (.value p),
      fun e => FutureShared.settle_run_again ht hf (.error e)⟩
  · intro lab w' hlab hstep
    have hc := step_call huv hinv hlab hstep
    exact ⟨hc.executed, hc.running⟩
  · intro hp f a ha
    have hmem : a ∈ (w.futures f).actions := by
      rcases ha with ha | ⟨lab, hlab, hla⟩
      · exact ha
      · rcases hreg lab hlab f a hla with ha | ⟨hpost, -⟩
        · exact ha
        · rw [hp] at hpost
          cases hpost
    exact hinv.delivered_once hp hmem

/-- A `then` posted from another thread, which the promise outruns. -/
def postedThen : List (Label Nat) :=
  [.promise 0 0 false, .thenCb (Thread.ofLoop 1) (.user 0) 1 .void,
    .resolve (Thread.ofLoop 0) (.user 0) (some 7), .fire (.post (.user 1)), .fire (.user 1),
    .ret 0 (.value none)]

/-- It is executed once, with the value of the promise. -/
theorem delivery_exactly_once_posted : ∃ w, runLabels {} postedThen = some w ∧
    ((.user 1, .value (some 7)) ∈ w.executed ∧ w.executedIds.count (.user 1) = 1) := by
  have hsome : (runLabels {} postedThen).isSome := by decide
  refine ⟨_, (Option.some_get hsome).symm, ?_⟩
  have hok : UvAsync.Ok {} := fun _ => ⟨rfl, rfl⟩
  have hall := delivery_exactly_once hok (Option.some_get hsome).symm
  exact (hall.2.2.2 rfl (.user 0) (.user 1) (.inr ⟨_, .tail _ (.head _), rfl, rfl⟩)).1 _ rfl

end

end NodeNative
