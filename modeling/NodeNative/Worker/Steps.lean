import NodeNative.Async.Passive
import NodeNative.Worker.Basic

/-!
# What the steps of a worker do

The code of a worker runs without an exception of its own, and `workerStep_cases` says what state each
step leaves: a request joins the pool, its callable's result is kept, or its loop replays the result
on the worker's future (`World.Replays`). The mutex of `WorkerBase` is free between two steps.
-/

namespace NodeNative

section
variable {V : Type} {uv : UvAsync} {uvw : UvWork} {w : World V} {s : Workers V} {n : Nat}

/-! ## The code -/

/-- Code of the core leaves the workers as they are. -/
theorem onWorld_run {α : Type} (x : M V α) (s : Workers V) : (onWorld x).run s =
    match x.run s.world with
    | .ok a w => .ok a { s with world := w }
    | .error e w => .error e { s with world := w } := rfl

/-- An assertion that holds changes nothing. -/
theorem workerAssert_run {condition : Bool} (h : condition = true) (message : String)
    (s : Workers V) : (workerAssert condition message).run s = .ok () s := by
  subst h
  rfl

/-- Only this worker is changed. -/
theorem modifyWorker_run (g : WorkerCallback V → WorkerCallback V) (s : Workers V) :
    (modifyWorker n g).run s =
      .ok () { s with worker := Function.update s.worker n (g (s.worker n)) } := rfl

/-- A free mutex is free again after the code. -/
theorem lockGuard_run {x : WorkerM V Unit} (hs : s.mutexInProcess = false) :
    (lockGuard x).run s =
      match x.run { s with mutexInProcess := true } with
      | .ok _ s' => .ok () { s' with mutexInProcess := false }
      | .error e s' => .error e { s' with mutexInProcess := false } := by
  unfold lockGuard
  simp only [EStateM.run_bind, EStateM.run_get, hs, Bool.false_eq_true, if_false,
    EStateM.run_modify, Hoare.tryCatch_run]
  cases x.run { s with mutexInProcess := true } with
  | ok _ s' => rfl
  | error e s' => rfl

/-- The state after a call of `worker`. -/
def Workers.requested (s : Workers V) (l : LoopId) (n : Nat) (R : RetType) : Workers V :=
  { s with
    world := s.world.createFuture (.user n) l (R = .void || R = .futureVoid)
    worker := Function.update s.worker n { loop := l, R, data := true, inst := true }
    queued := s.queued ++ [n]
    enqueued := s.enqueued ++ [n] }

/-- A worker that libuv takes is requested. -/
theorem worker_run (huw : uvw.Ok) (hs : s.mutexInProcess = false) (l : LoopId) (n : Nat)
    (R : RetType) : (worker uvw l n R).run s = .ok () (s.requested l n R) := by
  have hzero : ¬ uvw n ≠ 0 := fun hne => hne (huw n)
  simp only [worker, EStateM.run_bind, modifyWorker_run, onWorld_run, FutureShared.create_run,
    WorkerBase.enqueue, EStateM.run_modify]
  rw [lockGuard_run (by exact hs)]
  simp only [EStateM.run_bind, EStateM.run_get, Function.update_self, Bool.not_false,
    workerAssert_run, modifyWorker_run, if_neg hzero, EStateM.run_modify, Function.update_idem]
  rw [Workers.requested, ← hs]

/-- The result of a callable as its worker keeps it. -/
def CallbackReturn.resolved : CallbackReturn V → WorkerResolver V
  | .value p => .value p
  | .future g => .future g
  | .throws e => .error e
  | .raises m => .error ⟨m⟩

/-- A result that the declared type accepts is kept as it is. -/
theorem CallbackReturn.getResolver_run {R : RetType} {r : CallbackReturn V}
    (hacc : (ActionClass.actionCallback R).accepts w r = true) : (r.getResolver R).run w =
      match r with
      | .throws e => .error (.futureError e) w
      | .raises m => .error (.runtimeError m) w
      | r => .ok r.resolved w := by
  cases r with
  | value p => cases R <;> cases p <;> first | rfl | (simp [ActionClass.accepts, ActionClass.ret] at hacc)
  | future g => cases R <;> first | rfl | (simp [ActionClass.accepts, ActionClass.ret] at hacc)
  | throws e => cases R <;> rfl
  | raises m => cases R <;> rfl

/-- The state after the callable of the worker has returned. -/
def Workers.answered (s : Workers V) (n : Nat) (r : CallbackReturn V) : Workers V :=
  { s with
    world := { s.world with executed := s.world.executed ++ [(.user n, .value none)] }
    worker := Function.update s.worker n { s.worker n with resolver := some r.resolved } }

/-- Only the resolver of the worker changes. -/
theorem Workers.answered_worker (s : Workers V) (n m : Nat) (r : CallbackReturn V) :
    ((s.answered n r).worker m).loop = (s.worker m).loop ∧
      ((s.answered n r).worker m).data = (s.worker m).data ∧
      ((s.answered n r).worker m).inst = (s.worker m).inst ∧
      ((s.answered n r).worker m).resolver =
        if m = n then some r.resolved else (s.worker m).resolver := by
  unfold Workers.answered
  dsimp only
  rw [Function.update_apply]
  split
  · rename_i hmn
    subst hmn
    exact ⟨rfl, rfl, rfl, rfl⟩
  · exact ⟨rfl, rfl, rfl, rfl⟩

/-- The function of a worker that is there either returns or throws. -/
theorem WorkerBase.Worker_run (hdata : (s.worker n).data = true) {r : CallbackReturn V}
    (hacc : (ActionClass.actionCallback (s.worker n).R).accepts s.world r = true) :
    (WorkerBase.Worker n r).run s =
      match r with
      | .raises m => .error (.runtimeError m) { s with
          world := { s.world with executed := s.world.executed ++ [(.user n, .value none)] } }
      | r => .ok () (s.answered n r) := by
  have hacc' : (ActionClass.actionCallback (s.worker n).R).accepts
      { s.world with executed := s.world.executed ++ [(.user n, .value none)] } r = true := hacc
  simp only [WorkerBase.Worker, EStateM.run_bind, EStateM.run_get, workerAssert_run hdata,
    onWorld_run, EStateM.run_modify, WorkerCallback.callFn, Hoare.tryCatch_run,
    CallbackReturn.getResolver_run hacc']
  cases r with
  | value p => rfl
  | future g => rfl
  | throws e => rfl
  | raises m => rfl

/-- The state after `WorkerAfter` that leaves the core in the state `w`. -/
def Workers.replayed (s : Workers V) (n : Nat) (w : World V) : Workers V :=
  { s with
    world := w
    worker := Function.update s.worker n { s.worker n with data := false, inst := false } }

/-- Back on the loop the resolver is called and the worker destroys itself. -/
theorem WorkerBase.WorkerAfter_run (hs : s.mutexInProcess = false)
    (hdata : (s.worker n).data = true) (hinst : (s.worker n).inst = true) {res : WorkerResolver V}
    (hres : (s.worker n).resolver = some res) : (WorkerBase.WorkerAfter uv n).run s =
      match (res.resolve uv (Thread.ofLoop (s.worker n).loop) (.user n)).run s.world with
      | .ok _ w => .ok () (s.replayed n w)
      | .error e w => .error e (s.replayed n w) := by
  unfold WorkerBase.WorkerAfter
  rw [lockGuard_run hs]
  simp only [EStateM.run_bind, EStateM.run_get, workerAssert_run, hdata, hinst, modifyWorker_run,
    Function.update_self, Function.update_idem, WorkerCallback.executeWorkerAfter, hres, onWorld_run]
  cases (res.resolve uv (Thread.ofLoop (s.worker n).loop) (.user n)).run s.world with
  | ok _ w => simp [Workers.replayed, hres, hs]
  | error e w => simp [Workers.replayed, hres, hs]

/-! ## Replaying a resolver -/

/-- Replaying the resolver of a worker on its future `a`, on the thread of the loop `l`, leads from
`w` to `w'`. -/
def World.Replays (w : World V) (l : LoopId) (a : NodeId) : WorkerResolver V → World V → Prop
  | .value p, w' => (w.futures a).resolver = none ∧ w' = w.settled a (.value p)
  | .error e, w' => (w.futures a).resolver = none ∧ w' = w.settled a (.error e)
  | .future g, w' => w' = w.relayed (Thread.ofLoop l) g a

/-- The future belongs to the loop: what is replayed without an exception settles it or relays to
it. -/
theorem WorkerResolver.resolve_run (huv : uv.Ok) (h : w.Inv) {l : LoopId} {a : NodeId}
    (hl : (w.futures a).loop = l) (res : WorkerResolver V) :
    match (res.resolve uv (Thread.ofLoop l) a).run w with
    | .ok _ w' => w.Replays l a res w'
    | .error _ w' => w' = w := by
  have hsettle : ∀ r, match (FutureShared.settle uv (Thread.ofLoop l) a r).run w with
      | .ok _ w' => (w.futures a).resolver = none ∧ w' = w.settled a r
      | .error _ w' => w' = w := by
    intro r
    cases hr : (w.futures a).resolver with
    | none =>
      rw [h.settle_run huv hl hr]
      exact ⟨rfl, rfl⟩
    | some r' =>
      rw [FutureShared.settle_run_again (by simp [hl]) (by simp [hr])]
  cases res with
  | value p => exact hsettle (.value p)
  | error e => exact hsettle (.error e)
  | future g =>
    rw [WorkerResolver.resolve, ActionCallback.relay_run huv]
    rfl

/-- Replaying makes calls of the API on the thread of the loop, which may settle the future. -/
theorem World.Replays.updates (h : w.Inv) {l : LoopId} {a : NodeId} (hl : (w.futures a).loop = l)
    (hx : a ∈ w.executedIds) (hrun : ∀ l, w.running l ≠ some a)
    (hnew : ∀ b, b = .relayThen a ∨ b = .relayError a → b ∉ w.created) {res : WorkerResolver V}
    (hg : ∀ g, res = .future g → g ∈ w.created) {w' : World V} (hrep : w.Replays l a res w') :
    w.Updates (Thread.ofLoop l) (· = a) w' := by
  have ht : Thread.ofLoop l (w.futures a).loop = true := by simp [hl]
  have hsettled : ∀ r, (w.futures a).resolver = none →
      w.Updates (Thread.ofLoop l) (· = a) (w.settled a r) := by
    intro r hnone
    refine .settled .refl ?_ (h.created_executed a hx) ht hnone r
    rfl
  cases res with
  | value p =>
    obtain ⟨hnone, rfl⟩ := hrep
    exact hsettled _ hnone
  | error e =>
    obtain ⟨hnone, rfl⟩ := hrep
    exact hsettled _ hnone
  | future g =>
    obtain rfl := hrep
    exact h.updates_relayed _ rfl (hg g rfl) hx hrun (hnew _ (.inl rfl)) (hnew _ (.inr rfl))

/-! ## The invariant -/

/-- The request of the worker is with libuv. -/
structure Workers.Request (s : Workers V) (n : Nat) : Prop where
  passive : s.world.Passive (.user n)
  loop : (s.world.futures (.user n)).loop = (s.worker n).loop
  data : (s.worker n).data = true
  inst : (s.worker n).inst = true
  running : ∀ l, s.world.running l ≠ some (.user n)
  relays : ∀ b, b = .relayThen (.user n) ∨ b = .relayError (.user n) → b ∉ s.world.created

/-- The workers whose request is with libuv. -/
def Workers.requests (s : Workers V) : List Nat :=
  s.queued ++ s.working ++ s.worked

/-- What holds between two steps as long as no exception has ended the process. -/
structure Workers.Inv (s : Workers V) : Prop where
  world : s.world.Inv
  named : s.world.RelaysNamed
  mutex : s.mutexInProcess = false
  nodup : s.requests.Nodup
  request : ∀ n ∈ s.requests, s.Request n
  asked : ∀ n ∈ s.queued ++ s.working, .user n ∉ s.world.executedIds
  answered : ∀ n ∈ s.worked, .user n ∈ s.world.executedIds ∧
    ∃ res, (s.worker n).resolver = some res ∧ ∀ g, res = .future g → g ∈ s.world.created

/-- Nothing happens after an exception has ended the process. -/
theorem workerStep_not_aborted {lab : WorkerLabel V} {s' : Workers V}
    (hstep : workerStep uv uvw s lab = some s') : s.world.aborted = none := by
  unfold workerStep at hstep
  split at hstep
  · cases hstep
  · rename_i hsome
    simpa using hsome

/-- What a step does. A callable that throws anything but a `FutureError` ends the process, and so
does a loop that finds the worker's future settled. -/
theorem workerStep_cases (huv : uv.Ok) (huw : uvw.Ok) (h : s.Inv) {lab : WorkerLabel V}
    {s' : Workers V} (hstep : workerStep uv uvw s lab = some s') :
    match lab with
    | .core lab => ∃ w', step uv s.world lab = some w' ∧ s' = { s with world := w' }
    | .worker l n R => .user n ∉ s.world.created ∧ s' = s.requested l n R
    | .work n => n ∈ s.queued ∧
        s' = { s with queued := s.queued.erase n, working := s.working ++ [n] }
    | .worked n r => n ∈ s.working ∧
        (ActionClass.actionCallback (s.worker n).R).accepts s.world r = true ∧
        let s₁ := { s with working := s.working.erase n, worked := s.worked ++ [n] }
        ((∀ m, r ≠ .raises m) ∧ s' = s₁.answered n r ∨
          ∃ m, r = .raises m ∧ s' = { s₁ with world := { s.world with
            executed := s.world.executed ++ [(.user n, .value none)]
            aborted := some (.runtimeError m) } })
    | .after n => n ∈ s.worked ∧ s.world.running (s.worker n).loop = none ∧
        ∃ res w', (s.worker n).resolver = some res ∧
        (s.world.Replays (s.worker n).loop (.user n) res w' ∨
          ∃ e, w' = { s.world with aborted := some e }) ∧
        s' = { s with worked := s.worked.erase n }.replayed n w' := by
  unfold workerStep at hstep
  split at hstep
  · cases hstep
  cases lab with
  | core lab =>
    obtain ⟨w', hw', hs'⟩ := Option.map_eq_some_iff.mp hstep
    exact ⟨w', hw', hs'.symm⟩
  | worker l n R =>
    dsimp only at hstep
    split at hstep
    · cases hstep
    · rename_i hn
      rw [Workers.call, worker_run huw h.mutex] at hstep
      exact ⟨by simpa using hn, (Option.some.inj hstep).symm⟩
  | work n =>
    dsimp only at hstep
    split at hstep
    · rename_i hn
      exact ⟨by simpa using hn, (Option.some.inj hstep).symm⟩
    · cases hstep
  | worked n r =>
    dsimp only at hstep
    split at hstep
    · rename_i hn
      simp only [Bool.and_eq_true, List.contains_eq_mem, decide_eq_true_eq] at hn
      have hreq := h.request n (by simp [Workers.requests, hn.1])
      have hrun := WorkerBase.Worker_run
        (s := { s with working := s.working.erase n, worked := s.worked ++ [n] }) hreq.data hn.2
      refine ⟨hn.1, hn.2, ?_⟩
      rw [Workers.callback, hrun] at hstep
      cases r with
      | value p => exact .inl ⟨fun m hm => (nomatch hm), (Option.some.inj hstep).symm⟩
      | future g => exact .inl ⟨fun m hm => (nomatch hm), (Option.some.inj hstep).symm⟩
      | throws e => exact .inl ⟨fun m hm => (nomatch hm), (Option.some.inj hstep).symm⟩
      | raises m => exact .inr ⟨m, rfl, (Option.some.inj hstep).symm⟩
    · cases hstep
  | after n =>
    dsimp only at hstep
    split at hstep
    · rename_i hn
      simp only [Bool.and_eq_true, List.contains_eq_mem, decide_eq_true_eq,
        Option.isNone_iff_eq_none] at hn
      have hreq := h.request n (by simp [Workers.requests, hn.1])
      obtain ⟨-, res, hres, -⟩ := h.answered n hn.1
      have hrun : (WorkerBase.WorkerAfter uv n).run { s with worked := s.worked.erase n } = _ :=
        WorkerBase.WorkerAfter_run (s := { s with worked := s.worked.erase n }) h.mutex hreq.data
          hreq.inst hres
      have hspec := WorkerResolver.resolve_run huv h.world hreq.loop res
      rw [Workers.callback, hrun] at hstep
      dsimp only at hstep
      refine ⟨hn.1, hn.2, res, s'.world, hres, ?_⟩
      cases hx : (res.resolve uv (Thread.ofLoop (s.worker n).loop) (.user n)).run s.world with
      | ok _ w' =>
        rw [hx] at hspec hstep
        cases hstep
        exact ⟨.inl hspec, rfl⟩
      | error e w' =>
        rw [hx] at hspec hstep
        cases hstep
        subst hspec
        exact ⟨.inr ⟨e, rfl⟩, rfl⟩
    · cases hstep

end

end NodeNative
