import NodeNative.Async.Preservation

/-!
# The life of an async handle

An action is idle until it is enqueued, in flight from then to its close callback, and idle for good
afterwards (`World.InFlight`, `run_life`). The fields that the code keeps for this, `_uv_async.data`,
`_instance`, `_instanceNum` and `_resolver`, agree at every step, so the assertions about them do not
fail: the code of a step throws only what the thread check, a second settlement or the callback of the
program throws (`step_thrown`).
-/

namespace NodeNative

section
variable {V : Type} {uv : UvAsync} {w : World V}

/-! ## The code of a step -/

/-- The code that a label runs, with the bookkeeping of libuv in front of its callbacks. -/
def Label.code (uv : UvAsync) (w : World V) : Label V → M V Unit
  | .promise n l isVoid => FutureShared.create (.user n) l isVoid
  | .resolve t f p => FutureShared.resolve uv t f p
  | .reject t f e => FutureShared.reject uv t f e
  | .thenCb t f n R => FutureShared.thenCb uv t f (.user n) R .user
  | .errorCb t f n => FutureShared.errorCb uv t f (.user n) .user
  | .finallyCb t f n R => FutureShared.finallyCb uv t f (.user n) R .user
  | .async l n R => NodeNative.async uv l (.user n) R .user
  | .fire a => do
    modify fun w => { w with pending := w.pending.erase a }
    AsyncBase.Async uv a
  | .close a => do
    modify fun w => { w with closing := w.closing.erase a }
    AsyncBase.AsyncClosed a
  | .ret l r =>
    match w.running l with
    | some a => AsyncBase.asyncReturn uv a r
    | none => pure ()

/-- The exception that ends the code of a step. -/
def World.thrown (uv : UvAsync) (w : World V) (lab : Label V) : Option Exn :=
  match (lab.code uv w).run w with
  | .ok _ _ => none
  | .error e _ => some e

/-- A step runs its code: an exception goes to the caller of a call of the program, and ends the
process when libuv made the call. -/
theorem step_code {lab : Label V} {w' : World V} (hstep : step uv w lab = some w') :
    (lab.IsCall → w' = w.call (lab.code uv w)) ∧
      (¬ lab.IsCall → w' = w.callback (lab.code uv w)) := by
  unfold step at hstep
  split at hstep
  · cases hstep
  · cases lab with
    | fire a | close a =>
      dsimp only at hstep
      refine ⟨fun hlab => hlab.elim, fun _ => ?_⟩
      split at hstep
      · exact (Option.some.inj hstep).symm
      · cases hstep
    | ret l r =>
      dsimp only at hstep
      refine ⟨fun hlab => hlab.elim, fun _ => ?_⟩
      split at hstep
      · rename_i a hl
        split at hstep
        · rw [← Option.some.inj hstep, Label.code, hl]
        · cases hstep
      · cases hstep
    | promise n l isVoid | async l n R =>
      dsimp only at hstep
      refine ⟨fun _ => ?_, fun hlab => absurd trivial hlab⟩
      split at hstep
      · cases hstep
      · exact (Option.some.inj hstep).symm
    | resolve t f p | reject t f e | thenCb t f n R | errorCb t f n | finallyCb t f n R =>
      dsimp only at hstep
      refine ⟨fun _ => ?_, fun hlab => absurd trivial hlab⟩
      split at hstep
      · exact (Option.some.inj hstep).symm
      · cases hstep

/-! ## What the code of a step throws -/

/-- The callback of the program that a label returns from. -/
def Label.returned : Label V → Option (CallbackReturn V)
  | .ret _ r => some r
  | _ => none

/-- A step is enabled as long as no exception has ended the process. -/
theorem step_not_aborted {lab : Label V} {w' : World V} (hstep : step uv w lab = some w') :
    w.aborted = none := by
  unfold step at hstep
  split at hstep
  · cases hstep
  · rename_i hnone
    simpa using hnone

/-- A step ends the process with an expected exception only. -/
theorem step_aborted (huv : uv.Ok) (h : w.Inv) {lab : Label V} {w' : World V}
    (hstep : step uv w lab = some w') {e : Exn} (he : w'.aborted = some e) :
    Exn.Expected lab.returned e := by
  have hnone := step_not_aborted hstep
  have hcall : lab.IsCall → Exn.Expected lab.returned e := by
    intro hlab
    rw [(step_call huv h hlab hstep).aborted, hnone] at he
    cases he
  cases lab with
  | fire a =>
    obtain ⟨r, hp, hs, hinv, hcases⟩ := step_fire_updates huv h hstep
    rcases hcases with ⟨rfl, -⟩ | ⟨s, hu, rfl | ⟨e', hexp, rfl⟩⟩
    · rw [show ((w.started a r).entered a).aborted = w.aborted from rfl, hnone] at he
      cases he
    · have hsame : s.aborted = w.aborted := (hu.called hinv).aborted
      rw [show s.aborted = some e from he] at hsame
      rw [hnone] at hsame
      cases hsame
    · cases he
      exact hexp
  | close a =>
    obtain ⟨-, rfl⟩ := step_close h hstep
    rw [show (w.closed a).aborted = w.aborted from rfl, hnone] at he
    cases he
  | ret l r =>
    obtain ⟨a, s, -, hu, rfl | ⟨e', hexp, rfl⟩⟩ := step_ret_updates huv h hstep
    · have hsame : s.aborted = w.aborted := (hu.called (h.left l)).aborted
      rw [show s.aborted = some e from he] at hsame
      rw [hnone] at hsame
      cases hsame
    · cases he
      exact hexp
  | promise n l isVoid => exact hcall trivial
  | resolve t f p => exact hcall trivial
  | reject t f e => exact hcall trivial
  | thenCb t f n R => exact hcall trivial
  | errorCb t f n => exact hcall trivial
  | finallyCb t f n R => exact hcall trivial
  | async l n R => exact hcall trivial

/-- The code of a step throws what is expected, and so none of the assertions about handles. -/
theorem step_thrown (huv : uv.Ok) (h : w.Inv) {lab : Label V} {w' : World V}
    (hstep : step uv w lab = some w') {e : Exn} (he : w.thrown uv lab = some e) :
    Exn.Expected lab.returned e := by
  have hset : ∀ {t f res}, f ∈ w.created →
      (FutureShared.settle uv t f res).run w = (lab.code uv w).run w →
        Exn.Expected lab.returned e := by
    intro t f res hf hcode
    have hmakes : w.Makes t (fun _ => True) (w.Updates t fun _ => True)
        (FutureShared.settle uv t f res) (Exn.Expected lab.returned) :=
      FutureShared.settle_makes huv h hf trivial res
    have hw := hmakes w .refl
    unfold World.thrown at he
    rw [← hcode] at he
    cases hr : (FutureShared.settle uv t f res).run w with
    | ok _ s =>
      rw [hr] at he
      cases he
    | error e' s =>
      rw [hr] at he hw
      cases he
      exact hw.2
  -- An exception out of code that libuv called ends the process, so `step_aborted` names it.
  have hcallback : ¬ lab.IsCall → Exn.Expected lab.returned e := by
    intro hlab
    have hw' := (step_code hstep).2 hlab
    refine step_aborted huv h hstep ?_
    unfold World.thrown at he
    rw [hw', World.callback]
    cases hr : (lab.code uv w).run w with
    | ok _ s =>
      rw [hr] at he
      cases he
    | error e' s =>
      rw [hr] at he
      exact he
  unfold World.thrown at he
  cases lab with
  | promise n l isVoid => cases he
  | resolve t f p => exact hset (step_resolve hstep).1 rfl
  | reject t f e' => exact hset (step_reject hstep).1 rfl
  | thenCb t f n R => rw [Label.code, FutureShared.thenCb_run huv] at he; cases he
  | errorCb t f n => rw [Label.code, FutureShared.errorCb_run huv] at he; cases he
  | finallyCb t f n R => rw [Label.code, FutureShared.finallyCb_run huv] at he; cases he
  | async l n R => rw [Label.code, async_run huv] at he; cases he
  | fire a => exact hcallback id
  | close a => exact hcallback id
  | ret l r => exact hcallback id

/-! ## The fields of an action -/

/-- In a run of the labels `ls`, the action has been enqueued and its close callback has not run. -/
def World.InFlight (ls : List (Label V)) (w : World V) (a : NodeId) : Prop :=
  (a ∈ w.pending ∨ a ∈ w.executedIds) ∧ .close a ∉ ls

/-- What the labels seen so far say about the actions: a closed action was executed and is idle, an
executed one that is not closed is in flight. -/
structure World.Life (ls : List (Label V)) (w : World V) : Prop where
  inv : w.Inv
  closed : ∀ a, .close a ∈ ls → a ∈ w.executedIds ∧ (w.action a).Idle
  executed : ∀ a r, (a, r) ∈ w.executed → .close a ∉ ls → (w.action a).Sent r

/-- A step that closes nothing keeps what is known about the actions, when the actions it executes
were in flight and it changes no action that was enqueued. -/
theorem World.Life.of_keeps {ls : List (Label V)} {w' : World V} {lab : Label V}
    (h : w.Life ls) (hinv : w'.Inv) (hlab : ∀ a, lab ≠ .close a)
    (hids : ∀ a ∈ w.executedIds, a ∈ w'.executedIds)
    (hx : ∀ a r, (a, r) ∈ w'.executed →
      (a, r) ∈ w.executed ∨ a ∈ w.pending ∧ (w.action a).Sent r)
    (hact : ∀ a, a ∈ w.pending ∨ a ∈ w.executedIds → w'.action a = w.action a) :
    w'.Life (ls ++ [lab]) := by
  have hclose : ∀ a, .close a ∈ ls ++ [lab] ↔ .close a ∈ ls := by
    intro a
    simp [Ne.symm (hlab a)]
  refine ⟨hinv, fun a ha => ?_, fun a r ha hopen => ?_⟩
  · obtain ⟨hxa, hidle⟩ := h.closed a ((hclose a).mp ha)
    rw [hact a (.inr hxa)]
    exact ⟨hids a hxa, hidle⟩
  · rcases hx a r ha with hxa | ⟨hp, hs⟩
    · rw [hact a (.inr (World.mem_executedIds hxa))]
      exact h.executed a r hxa fun hls => hopen ((hclose a).mpr hls)
    · rw [hact a (.inl hp)]
      exact hs

/-- Every step extends what is known about the actions by its label. -/
theorem World.Life.step (huv : uv.Ok) {ls : List (Label V)} (h : w.Life ls) {lab : Label V}
    {w' : World V} (hstep : NodeNative.step uv w lab = some w') : w'.Life (ls ++ [lab]) := by
  have hinv := (step_inv huv h.inv hstep).1
  have hcall : lab.IsCall → w'.Life (ls ++ [lab]) := by
    intro hlab
    have hc := step_call huv h.inv hlab hstep
    refine h.of_keeps hinv (by rintro a rfl; exact hlab) ?_ ?_ hc.action
    · intro a ha
      rwa [World.executedIds, hc.executed]
    · intro a r ha
      rw [hc.executed] at ha
      exact .inl ha
  cases lab with
  | close a =>
    obtain ⟨ha, rfl⟩ := step_close h.inv hstep
    obtain ⟨⟨r, hx, -⟩, -⟩ := h.inv.closing a ha
    have hne : ∀ b, b ≠ a → (w.closed a).action b = w.action b := by
      intro b hb
      simp [World.closed, World.setAction, hb]
    refine ⟨hinv, fun b hb => ?_, fun b r' hb hopen => ?_⟩
    · by_cases hba : b = a
      · subst hba
        refine ⟨World.mem_executedIds hx, ?_⟩
        show ((w.setAction b (w.action b).closed).action b).Idle
        rw [World.setAction_action, if_pos rfl]
        exact ⟨rfl, rfl, rfl, rfl⟩
      · have hls : .close b ∈ ls := by simpa [hba] using hb
        rw [hne b hba]
        exact h.closed b hls
    · have hba : b ≠ a := by
        rintro rfl
        exact hopen (List.mem_append_right _ (.head _))
      rw [hne b hba]
      exact h.executed b r' hb fun hls => hopen (List.mem_append_left _ hls)
  | fire a =>
    obtain ⟨r, hp, hs, -, hcases⟩ := step_fire huv h.inv hstep
    have hstarted : ∀ b r', (b, r') ∈ (w.started a r).executed →
        (b, r') ∈ w.executed ∨ b ∈ w.pending ∧ (w.action b).Sent r' := by
      intro b r' hb
      rcases List.mem_append.mp hb with hb | hb
      · exact .inl hb
      · cases List.mem_singleton.mp hb
        exact .inr ⟨hp, hs⟩
    have hids : ∀ b ∈ w.executedIds, b ∈ (w.started a r).executedIds := by
      intro b hb
      rw [World.started_executedIds]
      exact List.mem_append_left _ hb
    rcases hcases with ⟨rfl, -⟩ | ⟨s, hc, hend⟩
    · exact h.of_keeps hinv (by simp) hids hstarted fun _ _ => rfl
    · have hactions : ∀ b, b ∈ w.pending ∨ b ∈ w.executedIds → s.action b = w.action b := by
        intro b hb
        refine hc.action b ?_
        rw [World.started_executedIds, List.mem_append, List.mem_singleton]
        rcases hb with hb | hb
        · by_cases hba : b = a
          · exact .inr (.inr hba)
          · exact .inl ((List.mem_erase_of_ne hba).mpr hb)
        · exact .inr (.inl hb)
      have hids' : ∀ b ∈ w.executedIds, b ∈ s.executedIds := by
        intro b hb
        rw [World.executedIds, hc.executed]
        exact hids b hb
      have hx' : ∀ b r', (b, r') ∈ s.executed →
          (b, r') ∈ w.executed ∨ b ∈ w.pending ∧ (w.action b).Sent r' := by
        intro b r' hb
        rw [hc.executed] at hb
        exact hstarted b r' hb
      rcases hend with rfl | ⟨e, rfl⟩
      · exact h.of_keeps hinv (by simp) hids' hx' hactions
      · exact h.of_keeps hinv (by simp) hids' hx' hactions
  | ret l r =>
    obtain ⟨a, s, -, hc, hend⟩ := step_ret huv h.inv hstep
    have hids : ∀ b ∈ w.executedIds, b ∈ s.executedIds := by
      intro b hb
      rwa [World.executedIds, hc.executed]
    have hx : ∀ b r', (b, r') ∈ s.executed →
        (b, r') ∈ w.executed ∨ b ∈ w.pending ∧ (w.action b).Sent r' := by
      intro b r' hb
      rw [hc.executed] at hb
      exact .inl hb
    rcases hend with rfl | ⟨e, rfl⟩
    · exact h.of_keeps hinv (by simp) hids hx hc.action
    · exact h.of_keeps hinv (by simp) hids hx hc.action
  | promise n l isVoid => exact hcall trivial
  | resolve t f p => exact hcall trivial
  | reject t f e => exact hcall trivial
  | thenCb t f n R => exact hcall trivial
  | errorCb t f n => exact hcall trivial
  | finallyCb t f n R => exact hcall trivial
  | async l n R => exact hcall trivial

/-- What is known about the actions after every run. -/
theorem run_life (huv : uv.Ok) {ls : List (Label V)} (hrun : runLabels uv ls = some w) :
    w.Life ls := by
  have h0 : (World.init : World V).Life [] :=
    ⟨.init, fun _ ha => (nomatch ha), fun _ _ ha => (nomatch ha)⟩
  exact Transition.run_history (fun hs s lab s' h hstep => h.step huv hstep) h0 hrun

/-- An action in flight has a resolver and all its fields set. -/
theorem World.Life.sent {ls : List (Label V)} (h : w.Life ls) {a : NodeId}
    (ha : w.InFlight ls a) : ∃ r, (w.action a).Sent r := by
  obtain ⟨hp | hx, hopen⟩ := ha
  · exact h.inv.sent a hp
  · obtain ⟨⟨b, r⟩, hr, rfl⟩ := List.mem_map.mp hx
    exact ⟨r, h.executed b r hr hopen⟩

/-- An action that is not in flight is idle. -/
theorem World.Life.idle {ls : List (Label V)} (h : w.Life ls) {a : NodeId}
    (ha : ¬ w.InFlight ls a) : (w.action a).Idle := by
  by_cases hclosed : .close a ∈ ls
  · exact (h.closed a hclosed).2
  · have hnone : ¬ (a ∈ w.pending ∨ a ∈ w.executedIds) := fun hor => ha ⟨hor, hclosed⟩
    exact h.inv.idle a (fun hp => hnone (.inl hp)) fun hx => hnone (.inr hx)

/-- Source: `AsyncBase.cpp:15-100`. In every run, whatever the steps of any number of actions are:
`_uv_async.data`, `_instance`, `_instanceNum` and `_resolver` of an action are set exactly while it
is in flight; a step that is enabled throws nothing but the thread check's exception,
`PromiseAlreadySatisfied` or what the callback of the program raised; and an action whose close
callback has run is idle, so it holds no reference to itself. -/
theorem async_handle_lifecycle (huv : uv.Ok) {ls : List (Label V)}
    (hrun : runLabels uv ls = some w) :
    (∀ a, ((w.action a).data = true ↔ w.InFlight ls a) ∧
      ((w.action a).inst = true ↔ w.InFlight ls a) ∧
      ((w.action a).instanceNum = 1 ↔ w.InFlight ls a) ∧
      ((w.action a).resolver.isSome ↔ w.InFlight ls a)) ∧
    (∀ lab w' e, step uv w lab = some w' → w.thrown uv lab = some e →
      Exn.Expected lab.returned e) ∧
    ∀ a, .close a ∈ ls → (w.action a).Idle := by
  have h := run_life huv hrun
  refine ⟨fun a => ?_, fun lab w' e hstep he => step_thrown huv h.inv hstep he,
    fun a ha => (h.closed a ha).2⟩
  by_cases ha : w.InFlight ls a
  · obtain ⟨r, hs⟩ := h.sent ha
    simp [ha, hs.data, hs.inst, hs.instanceNum, hs.resolver]
  · have hidle := h.idle ha
    simp [ha, hidle.data, hidle.inst, hidle.instanceNum, hidle.resolver]

/-- A callback registered before its promise is resolved, up to the close of its handle. -/
def closedThen : List (Label Nat) :=
  [.promise 0 0 false, .thenCb (Thread.ofLoop 0) (.user 0) 1 .void,
    .resolve (Thread.ofLoop 0) (.user 0) (some 7), .fire (.user 1), .ret 0 (.value none),
    .close (.user 1)]

/-- The handle of a callback that has run is idle again. -/
theorem async_handle_lifecycle_closed : ∃ w, runLabels {} closedThen = some w ∧
    (w.action (.user 1)).Idle := by
  have hsome : (runLabels {} closedThen).isSome := by decide
  refine ⟨_, (Option.some_get hsome).symm, ?_⟩
  have hok : UvAsync.Ok {} := fun _ => ⟨rfl, rfl⟩
  exact (async_handle_lifecycle hok (Option.some_get hsome).symm).2.2 (.user 1) (by simp [closedThen])

end

end NodeNative
