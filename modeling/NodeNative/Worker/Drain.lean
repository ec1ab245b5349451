import NodeNative.Async.Drain
import NodeNative.Worker.Agreement

/-!
# The pool and the loops come to rest

Between the calls of the program the threads of the pool take a request, end a callable, and hand its
result to the loop, which replays it. What this costs is paid for by the call of `worker`
(`Workers.Paid`), as the steps of the loops are by the nodes of the program (`World.Paid`). So the system
takes at most sixteen steps for each call, and it stops only when no request is left and the loops are at
rest (`pool_drains`).
-/

namespace NodeNative

open Transition
open Hoare (Keeps)

section
variable {V : Type} {uv : UvAsync} {uvw : UvWork} {s s' : Workers V} {n : Nat}

/-- A step of a loop or of a thread of the pool, not a call of the program. -/
def WorkerLabel.ofSystem : WorkerLabel V → Bool
  | .core lab => lab.ofLoop
  | .worker .. => false
  | .work _ | .worked .. | .after _ => true

/-- The node that a call of the program creates. -/
def WorkerLabel.creates : WorkerLabel V → Option Nat
  | .core lab => lab.creates
  | .worker _ n _ => some n
  | _ => none

/-! ## Names -/

section
variable {P : NodeId → Callback → Prop} {w w' : World V} {a : NodeId}

/-- Replaying creates at most the relays. -/
theorem World.Replays.named (huv : uv.Ok) (h : w.Inv) {l : LoopId} (hl : (w.futures a).loop = l)
    (ha : Relayed P a) (hnamed : w.Named P) {res : WorkerResolver V} (hrep : w.Replays l a res w') :
    w'.Named P := by
  have hsettled : ∀ r, (w.futures a).resolver = none → (w.settled a r).Named P := by
    intro r hnone
    have hsettle : Keeps (World.Named P) (FutureShared.settle uv (Thread.ofLoop l) a r) :=
      FutureShared.settle_named r
    have hkeeps := hsettle w hnamed
    rwa [h.settle_run huv hl hnone] at hkeeps
  cases res with
  | value p =>
    obtain ⟨hnone, rfl⟩ := hrep
    exact hsettled _ hnone
  | error e =>
    obtain ⟨hnone, rfl⟩ := hrep
    exact hsettled _ hnone
  | future g =>
    obtain rfl := hrep
    have hrelay : Keeps (World.Named P) (do
        FutureShared.thenCb uv (Thread.ofLoop l) g (.relayThen a) .void (.relay a)
        FutureShared.errorCb uv (Thread.ofLoop l) (.relayThen a) (.relayError a) (.relay a) :
          M V Unit) := by
      refine Keeps.bind (Keeps.get_bind fun _ => ?_) fun _ => Keeps.get_bind fun _ => ?_
      · exact FutureShared.register_named (ha.relay _ (.inl rfl)) (ha.post _ (.inl rfl) _)
      · exact FutureShared.register_named (ha.relay _ (.inr rfl)) (ha.post _ (.inr rfl) _)
    have hkeeps := hrelay w hnamed
    rwa [ActionCallback.relay_run huv] at hkeeps

end

/-! ## The books -/

/-- What is left to do for the requests that libuv has. -/
def Workers.due (s : Workers V) : Nat :=
  3 * s.queued.length + 2 * s.working.length + s.worked.length

/-- The loops and the pool have taken this many steps for these nodes: what the pool has taken, and
what is left for it to take, is at most three steps for each. -/
def Workers.Paid (s : Workers V) (nodes : List Nat) (steps : Nat) : Prop :=
  ∃ k, s.world.Paid nodes k ∧ steps + s.due ≤ k + 3 * nodes.length

section
variable {nodes : List Nat} {steps : Nat}

/-- A step of the core, -/
theorem Workers.Paid.core (huv : uv.Ok) (h : s.Paid nodes steps) {lab : Label V} {w' : World V}
    (hstep : step uv s.world lab = some w') : ({ s with world := w' } : Workers V).Paid
      (nodes ++ lab.creates.toList) (steps + if lab.ofLoop then 1 else 0) := by
  obtain ⟨k, hk, hle⟩ := h
  refine ⟨_, hk.step huv hstep, ?_⟩
  have hdue : ({ s with world := w' } : Workers V).due = s.due := rfl
  rw [hdue, List.length_append]
  omega

/-- a call of `worker`, -/
theorem Workers.Paid.requested (hs : s.Inv) (h : s.Paid nodes steps) (hn : .user n ∉ s.world.created)
    (l : LoopId) (R : RetType) : (s.requested l n R).Paid (nodes ++ [n]) steps := by
  obtain ⟨k, hk, hle⟩ := h
  have hc := (Workers.requested_updates (s := s) hn l R).called hs.world
  refine ⟨k, hk.called hc ?_, ?_⟩
  · obtain ⟨_, _, _, haccount, _⟩ := hk
    intro b hb
    rcases List.mem_cons.mp hb with rfl | hb
    · refine ⟨List.mem_flatMap.2 ⟨n, by simp, by simp [NodeId.names]⟩, fun _ => ⟨n, by simp, rfl⟩⟩
    · exact (haccount.named b hb).mono fun m hm => List.mem_append_left _ hm
  · simp only [Workers.due, Workers.requested, List.length_append, List.length_singleton] at hle ⊢
    omega

/-- a thread that takes a request, -/
theorem Workers.Paid.taken (h : s.Paid nodes steps) (hn : n ∈ s.queued) :
    ({ s with queued := s.queued.erase n, working := s.working ++ [n] } : Workers V).Paid nodes
      (steps + 1) := by
  obtain ⟨k, hk, hle⟩ := h
  have hpos := List.length_pos_of_mem hn
  refine ⟨k, hk, ?_⟩
  simp only [Workers.due, List.length_erase_of_mem hn, List.length_append,
    List.length_singleton] at hle ⊢
  omega

/-- the end of a callable, -/
theorem Workers.Paid.answered (hs : s.Inv) (h : s.Paid nodes steps) (hn : n ∈ s.working)
    (r : CallbackReturn V) :
    ({ s with working := s.working.erase n, worked := s.worked ++ [n] }.answered n r).Paid nodes
      (steps + 1) := by
  obtain ⟨k, ⟨fired, returned, closed, haccount, hsteps⟩, hle⟩ := h
  have hpos := List.length_pos_of_mem hn
  have hreq := hs.request n (by simp [Workers.requests, hn])
  have hx := hs.asked n (List.mem_append_right _ hn)
  have hids : ∀ a ∈ s.world.executedIds, a ∈ (s.world.calledBack (.user n)).executedIds := by
    intro a ha
    rw [World.calledBack_executedIds]
    exact List.mem_append_left _ ha
  have hpaid : (s.world.calledBack (.user n)).Account nodes fired returned closed := by
    refine ⟨hs.world.calledBack hreq.passive hx, haccount.named, haccount.entered,
      ⟨haccount.fired.1, fun a ha => hids a (haccount.fired.2 a ha)⟩,
      ⟨haccount.returned.1, fun a ha => ?_⟩, ⟨haccount.closed.1, fun a ha => ?_⟩⟩
    · obtain ⟨hax, hf, hleft⟩ := haccount.returned.2 a ha
      exact ⟨hids a hax, hf, hleft⟩
    · obtain ⟨hax, hdata⟩ := haccount.closed.2 a ha
      exact ⟨hids a hax, hdata⟩
  refine ⟨k, ⟨fired, returned, closed, hpaid, hsteps⟩, ?_⟩
  simp only [Workers.due, Workers.answered, List.length_erase_of_mem hn, List.length_append,
    List.length_singleton] at hle ⊢
  omega

/-- and the loop that replays its result. -/
theorem Workers.Paid.replayed (huv : uv.Ok) (hs : s.Inv) (h : s.Paid nodes steps) (hn : n ∈ s.worked)
    {res : WorkerResolver V} (hres : (s.worker n).resolver = some res) {w' : World V}
    (hrep : s.world.Replays (s.worker n).loop (.user n) res w') :
    ({ s with worked := s.worked.erase n }.replayed n w').Paid nodes (steps + 1) := by
  obtain ⟨k, hk, hle⟩ := h
  have hpos := List.length_pos_of_mem hn
  have hreq := hs.request n (by simp [Workers.requests, hn])
  have hc := (hs.replays_updates hn hres hrep).called hs.world
  refine ⟨k, hk.called hc ?_, ?_⟩
  · obtain ⟨_, _, _, haccount, _⟩ := hk
    obtain ⟨m, hm, hbehind⟩ := List.mem_flatMap.1 (haccount.named _ hreq.passive.created).1
    have hnm : n = m := by simpa [NodeId.names] using hbehind
    exact hrep.named huv hs.world hreq.loop (Relayed.standsFor (hnm ▸ hm)) haccount.named
  · simp only [Workers.due, Workers.replayed, List.length_erase_of_mem hn] at hle ⊢
    omega

/-- One step keeps the books, unless it ends the process. -/
theorem Workers.Paid.step (huv : uv.Ok) (huw : uvw.Ok) (hs : s.Inv) (h : s.Paid nodes steps)
    {lab : WorkerLabel V} (hstep : workerStep uv uvw s lab = some s') (hok : s'.world.aborted = none) :
    s'.Paid (nodes ++ lab.creates.toList) (steps + if lab.ofSystem then 1 else 0) := by
  have hcases := workerStep_cases huv huw hs hstep
  cases lab with
  | core lab =>
    obtain ⟨w', hw', rfl⟩ := hcases
    exact h.core huv hw'
  | worker l n R =>
    obtain ⟨hn, rfl⟩ := hcases
    exact h.requested hs hn l R
  | work n =>
    obtain ⟨hn, rfl⟩ := hcases
    simpa [WorkerLabel.creates, WorkerLabel.ofSystem] using h.taken hn
  | worked n r =>
    obtain ⟨hn, -, ⟨-, rfl⟩ | ⟨m, -, rfl⟩⟩ := hcases
    · simpa [WorkerLabel.creates, WorkerLabel.ofSystem] using h.answered hs hn r
    · cases hok
  | after n =>
    obtain ⟨hn, -, res, w', hres, hrep | ⟨e, rfl⟩, rfl⟩ := hcases
    · simpa [WorkerLabel.creates, WorkerLabel.ofSystem] using h.replayed huv hs hn hres hrep
    · cases hok

end

/-- What the system does in a run is paid for by the workers and actions that were created. -/
theorem runWorkers_paid (huv : uv.Ok) (huw : uvw.Ok) {ls : List (WorkerLabel V)}
    (hrun : runWorkers uv uvw ls = some s) (hok : s.world.aborted = none) :
    s.Paid (ls.filterMap WorkerLabel.creates) (ls.countP WorkerLabel.ofSystem) := by
  refine runWorkers_history (P := fun ls (s : Workers V) =>
      s.Paid (ls.filterMap WorkerLabel.creates) (ls.countP WorkerLabel.ofSystem))
    huv huw ?_ ⟨0, World.Paid.init, Nat.le_refl 0⟩ (.of_forall (p := fun _ => True) (by simp)) hrun hok
  intro ls s lab s' hs _ h hstep hok
  have hpaid := h.step huv huw hs hstep hok
  rw [List.filterMap_append, List.countP_append, List.countP_singleton]
  cases hcreates : lab.creates <;> simpa [hcreates] using hpaid

/-! ## Progress -/

/-- Libuv has no request, and the loops are at rest. -/
def Workers.AtRest (s : Workers V) : Prop := s.requests = [] ∧ s.world.AtRest

/-- A system that is not at rest and has not been aborted has a step to take. -/
theorem Workers.progress (haborted : s.world.aborted = none) (hrest : ¬ s.AtRest) :
    ∃ lab : WorkerLabel V, lab.ofSystem = true ∧ (workerStep uv uvw s lab).isSome := by
  by_cases hworld : s.world.AtRest
  · have hrequests : s.requests ≠ [] := fun hnil => hrest ⟨hnil, hworld⟩
    obtain ⟨n, hn⟩ := List.exists_mem_of_ne_nil _ hrequests
    simp only [Workers.requests, List.mem_append] at hn
    rcases hn with (hn | hn) | hn
    · exact ⟨.work n, rfl, by simp [workerStep, haborted, hn]⟩
    · refine ⟨.worked n (.throws ⟨""⟩), rfl, ?_⟩
      simp [workerStep, haborted, hn, ActionClass.accepts]
    · exact ⟨.after n, rfl, by simp [workerStep, haborted, hn, hworld.2.2]⟩
  · obtain ⟨lab, hlab, hstep⟩ : ∃ lab : Label V, lab.ofLoop = true ∧ (step uv s.world lab).isSome :=
      World.progress haborted hworld
    exact ⟨.core lab, hlab, by simpa [workerStep, haborted] using hstep⟩

/-- From every state that the program can reach, the loops and the pool come to rest: all the steps
they have taken and can still take without a new call and without an exception that ends the process are
at most sixteen for each node that the program made, and as long as a request is with libuv or a loop is
not at rest there is a step to take. -/
theorem pool_drains (huv : uv.Ok) (huw : uvw.Ok) {ls ms : List (WorkerLabel V)}
    (hrun : runWorkers uv uvw ls = some s) (hms : ∀ lab ∈ ms, lab.ofSystem = true)
    (hmore : Transition.run (workerStep uv uvw) s ms = some s') (hok : s'.world.aborted = none) :
    ls.countP WorkerLabel.ofSystem + ms.length ≤ 16 * (ls.filterMap WorkerLabel.creates).length ∧
      (s'.AtRest ∨ ∃ lab : WorkerLabel V, lab.ofSystem = true ∧ (workerStep uv uvw s' lab).isSome) := by
  have hall : runWorkers uv uvw (ls ++ ms) = some s' := by
    rw [runWorkers, Transition.run_append]
    exact Option.bind_eq_some_iff.2 ⟨s, hrun, hmore⟩
  have hcreates : ms.filterMap WorkerLabel.creates = [] := by
    refine List.filterMap_eq_nil_iff.2 fun lab hlab => ?_
    have hsystem := hms lab hlab
    cases lab with
    | core lab =>
      cases lab with
      | fire | close | ret => rfl
      | promise | resolve | reject | thenCb | errorCb | finallyCb | async => cases hsystem
    | worker l n R => cases hsystem
    | work | worked | after => rfl
  refine ⟨?_, ?_⟩
  · obtain ⟨k, hk, hle⟩ := runWorkers_paid huv huw hall hok
    have hloops := hk.steps_le
    rw [List.filterMap_append, hcreates, List.append_nil] at hle hloops
    rw [List.countP_append, List.countP_eq_length.2 hms] at hle
    omega
  · by_cases hrest : s'.AtRest
    · exact .inl hrest
    · exact .inr (Workers.progress hok hrest)

/-- A callable that returns a future of the loop is called, and the future is resolved behind it. -/
def returnsFuture : Workers Nat := (runWorkers {} (fun _ => 0) (byWorker.take 2)).get (by decide +kernel)

/-- What the pool and the loop do for it until the program resolves the future. -/
def replaysFuture : List (WorkerLabel Nat) := (byWorker.drop 2).take 3

/-- The state then. -/
def futureReplayed : Workers Nat :=
  (run (workerStep {} fun _ => 0) returnsFuture replaysFuture).get (by decide +kernel)

/-- A worker whose function returns a Future. -/
theorem pool_drains_future : (byWorker.take 2).countP WorkerLabel.ofSystem + replaysFuture.length ≤
      16 * ((byWorker.take 2).filterMap WorkerLabel.creates).length ∧
    (futureReplayed.AtRest ∨ ∃ lab : WorkerLabel Nat, lab.ofSystem = true ∧
      (workerStep {} (fun _ => 0) futureReplayed lab).isSome) :=
  pool_drains (fun _ => ⟨rfl, rfl⟩) (fun _ => rfl) (Option.some_get _).symm (by decide)
    (Option.some_get _).symm (by decide +kernel)

end

end NodeNative
