import NodeNative.Async.Steps

/-!
# Who settles a future

A future is settled by a call of the program on it, by the execution of its action, or by one of the
two relays of the future that its callback returned (`step_settles`), in each case on a thread that
its loop takes for its own. So the future of an action that the program does not settle itself is
pending until the action is executed and its callback has returned (`run_ownPending`).
-/

namespace NodeNative

open Transition

section
variable {V : Type} {uv : UvAsync} {w : World V}

/-! ## Relays -/

/-- Only the two relays of a future settle it with what they are called with. -/
def World.RelaysNamed (w : World V) : Prop :=
  ∀ b d, (w.action b).f = .relay d → b = .relayThen d ∨ b = .relayError d

/-- The callback of a new action. -/
theorem World.registered_f {t : Thread} {f n b : NodeId} {cls : ActionClass} {cb : Callback}
    (hb : b ≠ n) (hbp : b ≠ .post n) :
    ((w.registered t f n cls cb).action b).f = (w.action b).f := by
  unfold World.registered
  dsimp only
  split
  · rw [World.pushed_action_ne _ _ _ hb, World.createAction_action, if_neg hb]
  · simp [World.asynced, hb, hbp]

/-- Calls of the API keep the names of relays. -/
theorem World.Updates.relaysNamed {t : Thread} {may : NodeId → Prop} {s : World V}
    (hn : w.RelaysNamed) (hu : w.Updates t may s) : s.RelaysNamed := by
  induction hu with
  | refl => exact hn
  | @settled s hu f _ _ _ _ r ih =>
    intro b d hb
    refine ih b d ?_
    rw [← hb]
    show _ = (if b ∈ (s.futures f).actions then (s.action b).sent r else s.action b).f
    split <;> rfl
  | promise _ _ _ _ ih => exact ih
  | @asynced s hu n _ l R ih =>
    intro b d hb
    by_cases hbn : b = .user n
    · subst hbn
      simp [World.asynced, Action.sent] at hb
    · refine ih b d ?_
      rw [← hb]
      simp [World.asynced, hbn]
  | @registered s hu f n _ _ cls cb _ _ hrelay _ ih =>
    intro b d hb
    by_cases hbn : b = n
    · subst hbn
      rw [(World.registered_action s t f b cls cb).2.2] at hb
      exact (hrelay d hb).2
    · by_cases hbp : b = .post n
      · subst hbp
        unfold World.registered at hb
        dsimp only at hb
        split at hb
        · rw [World.pushed_action_ne _ _ _ hbn, World.createAction_action, if_neg hbn] at hb
          exact ih _ d hb
        · simp [World.asynced, Action.sent] at hb
      · rw [World.registered_f hbn hbp] at hb
        exact ih b d hb
  | @posted s hu f c _ _ _ _ _ ih =>
    intro b d hb
    refine ih b d ?_
    rw [← hb, World.pushed_action]
    split
    · split <;> rfl
    · rfl

/-- Every step keeps the names of relays. -/
theorem World.RelaysNamed.step (huv : uv.Ok) (h : w.Inv) (hn : w.RelaysNamed) {lab : Label V}
    {w' : World V} (hstep : NodeNative.step uv w lab = some w') : w'.RelaysNamed := by
  refine step_keeps huv h (fun _ _ _ _ hs => hs) (fun _ hs hu => hu.relaysNamed hs)
    (fun _ _ _ => hn) (fun a _ => ?_) hn hstep
  intro b d hb
  rw [(w.closed_action a b).2] at hb
  exact hn b d hb

/-- Before the first step there is no relay. -/
theorem World.RelaysNamed.init : (World.init : World V).RelaysNamed :=
  fun _ _ hb => (nomatch hb)

/-- The relays of every run are named by what they relay to. -/
theorem run_relaysNamed (huv : uv.Ok) {ls : List (Label V)} (hrun : runLabels uv ls = some w) :
    w.Inv ∧ w.RelaysNamed := by
  have hstep : ∀ (s : World V) lab s', s.Inv ∧ s.RelaysNamed → NodeNative.step uv s lab = some s' →
      s'.Inv ∧ s'.RelaysNamed := by
    rintro s lab s' ⟨hs, hn⟩ hst
    exact ⟨(step_inv huv hs hst).1, hn.step huv hs hst⟩
  exact run_invariant hstep ⟨.init, .init⟩ hrun

/-! ## Settlements -/

/-- Calls settle a future that they may settle, on a thread that its loop takes for its own. -/
theorem World.Updates.settles {t : Thread} {may : NodeId → Prop} {s : World V} (h : w.Inv)
    (hu : w.Updates t may s) {f : NodeId} (hnone : (w.futures f).resolver = none)
    (hsome : (s.futures f).resolver ≠ none) :
    may f ∧ (f ∈ w.created → t (w.futures f).loop = true) := by
  induction hu with
  | refl => exact absurd hnone hsome
  | @settled s hu g hmay hg ht _ r ih =>
    rw [World.settled_resolver] at hsome
    by_cases hfg : f = g
    · subst hfg
      refine ⟨hmay, fun hf => ?_⟩
      rwa [((hu.called h).extend.future f hf).1] at ht
    · rw [if_neg hfg] at hsome
      exact ih hsome
  | @promise s hu n hn l isVoid ih =>
    refine ih fun hnone => hsome ?_
    by_cases hfn : f = .user n
    · simp [World.createFuture, World.setFuture, hfn]
    · simpa [World.createFuture, World.setFuture, hfn] using hnone
  | @asynced s hu n hn l R ih =>
    refine ih fun hnone => hsome ?_
    by_cases hfn : f = .user n
    · simp [World.asynced, hfn]
    · simpa [World.asynced, hfn] using hnone
  | @registered s hu g n _ hn cls cb _ _ _ _ ih =>
    have hinv := (hu.called h).inv
    have hnp : .post n ∉ s.created := fun hmem => hn (hinv.created_post n hmem)
    rw [World.registered_resolver _ _ _ _ _ _ (hinv.created_future n hn).1
      (hinv.created_future _ hnp).1] at hsome
    exact ih hsome
  | @posted s hu g b _ _ _ _ _ ih =>
    rw [World.pushed_futures] at hsome
    split at hsome
    · rename_i hfg
      subst hfg
      exact ih hsome
    · exact ih hsome

/-- Calls of the API that may not settle a future leave its resolver. -/
theorem World.Updates.resolver_eq {t : Thread} {may : NodeId → Prop} {s : World V} (hinv : w.Inv)
    (hu : w.Updates t may s) {a : NodeId} (hmay : ¬ may a) :
    (s.futures a).resolver = (w.futures a).resolver := by
  cases hr : (w.futures a).resolver with
  | none =>
    by_contra hsome
    exact hmay (hu.settles hinv hr hsome).1
  | some r => exact (hu.called hinv).extend.resolver a r hr

/-- What settles a pending future: a call of the program, or an action that is executed or returns on
the loop of the future, which is its own or relays to it. -/
theorem step_settles (huv : uv.Ok) (h : w.Inv) {lab : Label V} {w' : World V}
    (hstep : step uv w lab = some w') {f : NodeId} (hnone : (w.futures f).resolver = none)
    (hsome : (w'.futures f).resolver ≠ none) :
    lab.Settles f ∨
      (∃ a, lab = .fire a ∧ w.Settles a f ∧
        (f ∈ w.created → (w.futures f).loop = (w.action a).loop)) ∨
      ∃ l r, lab = .ret l r ∧ w.running l = some f := by
  have hcall : lab.IsCall → lab.Settles f := by
    intro hlab
    obtain ⟨t, hu⟩ := step_call_updates huv h hlab hstep
    exact (hu.settles h hnone hsome).1
  cases lab with
  | fire a =>
    obtain ⟨r, -, -, hinv, hcases⟩ := step_fire_updates huv h hstep
    rcases hcases with ⟨rfl, -⟩ | ⟨s, hu, hend⟩
    · exact absurd hnone hsome
    · have hs : (s.futures f).resolver ≠ none := by
        rcases hend with rfl | ⟨e, -, rfl⟩ <;> exact hsome
      obtain ⟨hmay, ht⟩ := hu.settles hinv hnone hs
      refine .inr (.inl ⟨a, rfl, hmay, fun hf => ?_⟩)
      have hloop : ((w.futures f).loop == (w.action a).loop) = true := ht hf
      exact of_decide_eq_true hloop
  | close a =>
    obtain ⟨-, rfl⟩ := step_close h hstep
    exact absurd hnone hsome
  | ret l r =>
    obtain ⟨a, s, hl, hu, hend⟩ := step_ret_updates huv h hstep
    have hs : (s.futures f).resolver ≠ none := by
      rcases hend with rfl | ⟨e, -, rfl⟩ <;> exact hsome
    obtain ⟨rfl, -⟩ := hu.settles (h.left l) hnone hs
    exact .inr (.inr ⟨l, r, rfl, hl⟩)
  | promise n l isVoid => exact .inl (hcall trivial)
  | resolve t g p => exact .inl (hcall trivial)
  | reject t g e => exact .inl (hcall trivial)
  | thenCb t g n R => exact .inl (hcall trivial)
  | errorCb t g n => exact .inl (hcall trivial)
  | finallyCb t g n R => exact .inl (hcall trivial)
  | async l n R => exact .inl (hcall trivial)

/-- An action whose handle has fired is executed. -/
theorem step_fire_executed (huv : uv.Ok) (h : w.Inv) {a : NodeId} {w' : World V}
    (hstep : step uv w (.fire a) = some w') : a ∈ w'.executedIds := by
  obtain ⟨r, -, -, -, hcases⟩ := step_fire huv h hstep
  have hs : a ∈ (w.started a r).executedIds := by simp
  rcases hcases with ⟨rfl, -⟩ | ⟨s, hc, hend⟩
  · exact hs
  · have hsx : a ∈ s.executedIds := by rwa [World.executedIds, hc.executed]
    rcases hend with rfl | ⟨e, rfl⟩
    · exact hsx
    · exact hsx

/-- Executed actions stay executed. -/
theorem World.Extends.executedIds {w' : World V} (h : w.Extends w') {a : NodeId}
    (ha : a ∈ w.executedIds) : a ∈ w'.executedIds := by
  obtain ⟨x, hx, rfl⟩ := List.mem_map.mp ha
  exact List.mem_map_of_mem (h.executed x hx)

/-- A callback that is on the stack was there before, or its action has just fired and settled
nothing. -/
theorem step_running (huv : uv.Ok) (h : w.Inv) {lab : Label V} {w' : World V}
    (hstep : step uv w lab = some w') {l : LoopId} {a : NodeId} (hl : w'.running l = some a) :
    (w.running l = some a ∧ ∀ r, lab ≠ .ret l r) ∨ lab = .fire a ∧ w'.futures = w.futures := by
  have hcall : lab.IsCall → (w.running l = some a ∧ ∀ r, lab ≠ .ret l r) ∨
      lab = .fire a ∧ w'.futures = w.futures := by
    intro hlab
    rw [(step_call huv h hlab hstep).running] at hl
    refine .inl ⟨hl, ?_⟩
    rintro r rfl
    exact hlab
  cases lab with
  | fire b =>
    obtain ⟨r, -, -, hinv, hcases⟩ := step_fire huv h hstep
    rcases hcases with ⟨rfl, -⟩ | ⟨s, hc, hend⟩
    · simp only [World.entered, Function.update_apply] at hl
      split at hl
      · cases hl
        exact .inr ⟨rfl, rfl⟩
      · exact .inl ⟨hl, fun r hr => by cases hr⟩
    · have hs : s.running l = some a := by
        rcases hend with rfl | ⟨e, rfl⟩
        · exact hl
        · exact hl
      rw [hc.running] at hs
      exact .inl ⟨hs, fun r hr => by cases hr⟩
  | close b =>
    obtain ⟨-, rfl⟩ := step_close h hstep
    exact .inl ⟨hl, fun r hr => by cases hr⟩
  | ret l' r =>
    obtain ⟨b, s, -, hc, hend⟩ := step_ret huv h hstep
    have hs : s.running l = some a := by
      rcases hend with rfl | ⟨e, rfl⟩
      · exact hl
      · exact hl
    rw [hc.running] at hs
    obtain ⟨hne, hs⟩ := World.left_running hs
    refine .inl ⟨hs, fun r hr => ?_⟩
    cases hr
    exact hne rfl
  | promise n l isVoid => exact hcall trivial
  | resolve t f p => exact hcall trivial
  | reject t f e => exact hcall trivial
  | thenCb t f n R => exact hcall trivial
  | errorCb t f n => exact hcall trivial
  | finallyCb t f n R => exact hcall trivial
  | async l n R => exact hcall trivial

/-- The future of the action is pending until the action is executed and its callback, if it is
called, has returned. -/
def World.OwnPending (w : World V) (a : NodeId) : Prop :=
  a ∉ w.executedIds ∨ (∃ l, w.running l = some a) → (w.futures a).resolver = none

/-- A step that is no settlement of the future by the program keeps it so. -/
theorem World.OwnPending.step (huv : uv.Ok) (h : w.Inv) (hn : w.RelaysNamed) {a : NodeId}
    (hown : w.OwnPending a) {lab : Label V} (hlab : ¬ lab.Settles a) {w' : World V}
    (hstep : NodeNative.step uv w lab = some w') : w'.OwnPending a := by
  obtain ⟨hinv', hext⟩ := step_inv huv h hstep
  intro hbusy
  have hbefore : a ∉ w.executedIds ∨ ∃ l, w.running l = some a := by
    rcases hbusy with hx | ⟨l, hl⟩
    · exact .inl fun hx' => hx (hext.executedIds hx')
    · rcases step_running huv h hstep hl with ⟨hl, -⟩ | ⟨rfl, -⟩
      · exact .inr ⟨l, hl⟩
      · exact .inl (h.not_executed a (step_fire_enabled hstep).1)
  by_contra hsome
  rcases step_settles huv h hstep (hown hbefore) hsome with hset | ⟨b, rfl, hb, -⟩ | ⟨l, r, rfl, hl⟩
  · exact hlab hset
  · rcases hb with rfl | hb
    · -- The action itself has fired, so its callback was put on the stack, which settles nothing.
      obtain ⟨l, hl⟩ := hbusy.resolve_left fun hx => hx (step_fire_executed huv h hstep)
      rcases step_running huv h hstep hl with ⟨hl, -⟩ | ⟨-, hfut⟩
      · obtain ⟨-, r, hx, -⟩ := h.running l a hl
        exact h.not_executed a (step_fire_enabled hstep).1 (World.mem_executedIds hx)
      · rw [hfut] at hsome
        exact hsome (hown hbefore)
    · -- A relay exists only when the action was executed and its callback has returned.
      have hbc := h.created_pending b (step_fire_enabled hstep).1
      have hdone : a ∈ w.executedIds ∧ ∀ l, w.running l ≠ some a := by
        refine h.created_relay a ?_
        rcases hn b a hb with rfl | rfl
        · exact .inl hbc
        · exact .inr hbc
      rcases hbefore with hx | ⟨l, hl⟩
      · exact hx hdone.1
      · exact hdone.2 l hl
  · obtain ⟨hloop, r', hx, -⟩ := h.running l a hl
    obtain ⟨l', hl'⟩ := hbusy.resolve_left fun hnx => hnx (hext.executedIds (World.mem_executedIds hx))
    have hsame : l' = l := (hinv'.running l' a hl').1.symm.trans
      ((hext.action a (h.created_executed a (World.mem_executedIds hx))).1.trans hloop)
    subst hsame
    rcases step_running huv h hstep hl' with ⟨-, hret⟩ | ⟨hfire, -⟩
    · exact hret r rfl
    · cases hfire

/-- In a run that does not settle the future of an action itself, it is pending until the action is
executed and its callback has returned. -/
theorem run_ownPending (huv : uv.Ok) {ls : List (Label V)} (hrun : runLabels uv ls = some w)
    {a : NodeId} (hown : ∀ lab ∈ ls, ¬ lab.Settles a) : w.OwnPending a := by
  have hstep : ∀ (s : World V) lab s', ¬ lab.Settles a → s.Inv ∧ s.RelaysNamed ∧ s.OwnPending a →
      NodeNative.step uv s lab = some s' → s'.Inv ∧ s'.RelaysNamed ∧ s'.OwnPending a := by
    rintro s lab s' hlab ⟨hs, hn, hp⟩ hst
    exact ⟨(step_inv huv hs hst).1, hn.step huv hs hst, hp.step huv hs hn hlab hst⟩
  have hinit : (World.init : World V).OwnPending a := fun _ => rfl
  exact (run_invariant_of hstep hown ⟨.init, .init, hinit⟩ hrun).2.2

/-! ## What an action waits for -/

/-- A handle in flight stays so until it fires. -/
theorem step_pending (huv : uv.Ok) (h : w.Inv) {lab : Label V} {w' : World V}
    (hstep : step uv w lab = some w') {a : NodeId} (ha : a ∈ w.pending) (hne : lab ≠ .fire a) :
    a ∈ w'.pending ∧ w'.action a = w.action a := by
  have hcall : lab.IsCall → a ∈ w'.pending ∧ w'.action a = w.action a := by
    intro hlab
    have hc := step_call huv h hlab hstep
    exact ⟨hc.pending a ha, hc.action a (.inl ha)⟩
  cases lab with
  | fire b =>
    obtain ⟨r, -, -, hinv, hcases⟩ := step_fire huv h hstep
    have hab : a ≠ b := by
      rintro rfl
      exact hne rfl
    have hp : a ∈ (w.started b r).pending := (List.mem_erase_of_ne hab).mpr ha
    rcases hcases with ⟨rfl, -⟩ | ⟨s, hc, rfl | ⟨e, rfl⟩⟩
    · exact ⟨hp, rfl⟩
    · exact ⟨hc.pending a hp, hc.action a (.inl hp)⟩
    · exact ⟨hc.pending a hp, hc.action a (.inl hp)⟩
  | close b =>
    obtain ⟨hb, rfl⟩ := step_close h hstep
    obtain ⟨⟨r, hx, -⟩, -⟩ := h.closing b hb
    have hab : a ≠ b := by
      rintro rfl
      exact h.not_executed a ha (World.mem_executedIds hx)
    exact ⟨ha, by simp [World.closed, World.setAction, hab]⟩
  | ret l r =>
    obtain ⟨b, s, -, hc, rfl | ⟨e, rfl⟩⟩ := step_ret huv h hstep
    · exact ⟨hc.pending a ha, hc.action a (.inl ha)⟩
    · exact ⟨hc.pending a ha, hc.action a (.inl ha)⟩
  | promise n l isVoid => exact hcall trivial
  | resolve t f p => exact hcall trivial
  | reject t f e => exact hcall trivial
  | thenCb t f n R => exact hcall trivial
  | errorCb t f n => exact hcall trivial
  | finallyCb t f n R => exact hcall trivial
  | async l n R => exact hcall trivial

/-- A callback of the program stays on the stack until it returns. -/
theorem step_running_stays (huv : uv.Ok) (h : w.Inv) {lab : Label V} {w' : World V}
    (hstep : step uv w lab = some w') {l : LoopId} {a : NodeId} (hl : w.running l = some a)
    (hne : ∀ r, lab ≠ .ret l r) : w'.running l = some a := by
  have hcall : lab.IsCall → w'.running l = some a := by
    intro hlab
    rw [(step_call huv h hlab hstep).running]
    exact hl
  cases lab with
  | fire b =>
    obtain ⟨r, -, -, -, hcases⟩ := step_fire huv h hstep
    have hidle := (step_fire_enabled hstep).2
    have hloop : l ≠ (w.action b).loop := by
      rintro rfl
      rw [hidle] at hl
      cases hl
    rcases hcases with ⟨rfl, -⟩ | ⟨s, hc, rfl | ⟨e, rfl⟩⟩
    · exact (Function.update_of_ne hloop _ _).trans hl
    · exact (congrFun hc.running l).trans hl
    · exact (congrFun hc.running l).trans hl
  | close b =>
    obtain ⟨-, rfl⟩ := step_close h hstep
    exact hl
  | ret l' r =>
    obtain ⟨b, s, -, hc, hend⟩ := step_ret huv h hstep
    have hloop : l ≠ l' := by
      rintro rfl
      exact hne r rfl
    have hs : s.running l = some a :=
      (congrFun hc.running l).trans ((Function.update_of_ne hloop _ _).trans hl)
    rcases hend with rfl | ⟨e, rfl⟩
    · exact hs
    · exact hs
  | promise n l isVoid => exact hcall trivial
  | resolve t f p => exact hcall trivial
  | reject t f e => exact hcall trivial
  | thenCb t f n R => exact hcall trivial
  | errorCb t f n => exact hcall trivial
  | finallyCb t f n R => exact hcall trivial
  | async l n R => exact hcall trivial

/-- Calls of the API create relays of those futures only that they may settle. -/
theorem World.Updates.relays_created {t : Thread} {may : NodeId → Prop} {s : World V}
    (hu : w.Updates t may s) {a : NodeId} (hmay : ¬ may a) {b : NodeId}
    (hb : b = .relayThen a ∨ b = .relayError a) (hs : b ∈ s.created) : b ∈ w.created := by
  have huser : ∀ n, b ≠ .user n := by
    rintro n rfl
    rcases hb with hb | hb <;> cases hb
  have hpost : ∀ c, b ≠ .post c := by
    rintro c rfl
    rcases hb with hb | hb <;> cases hb
  induction hu with
  | refl => exact hs
  | settled _ _ _ _ _ _ ih => exact ih hs
  | promise _ _ _ _ ih => exact ih ((List.mem_cons.mp hs).resolve_left (huser _))
  | asynced _ _ _ _ ih => exact ih ((List.mem_cons.mp hs).resolve_left (huser _))
  | @registered s hu f n _ _ cls cb _ _ _ hrel ih =>
    have hne : b ≠ n := by
      rintro rfl
      exact hmay (hrel a hb).1
    rw [World.registered_created] at hs
    refine ih ?_
    split at hs
    · exact (List.mem_cons.mp hs).resolve_left hne
    · exact (List.mem_cons.mp ((List.mem_cons.mp hs).resolve_left (hpost _))).resolve_left hne
  | posted _ _ _ _ _ _ ih =>
    rw [World.pushed_created] at hs
    exact ih hs

/-- Settling a future creates nothing. -/
theorem World.Inv.call_settle_created (huv : uv.Ok) (h : w.Inv) (t : Thread) (f : NodeId)
    (r : FutureSharedResolver V) : (w.call (FutureShared.settle uv t f r)).created = w.created := by
  unfold World.call
  cases ht : t (w.futures f).loop with
  | false =>
    rw [FutureShared.settle_run_thread ht]
  | true =>
    cases hr : (w.futures f).resolver with
    | some r' => rw [FutureShared.settle_run_again ht (by simp [hr])]
    | none =>
      rw [FutureShared.settle_run huv ht hr (h.actions_nodup f) fun a ha => h.actions_idle ha hr]
      rfl

/-- Calls of the program create no relays. -/
theorem step_call_relays (huv : uv.Ok) (h : w.Inv) {lab : Label V} (hlab : lab.IsCall) {w' : World V}
    (hstep : step uv w lab = some w') {a b : NodeId} (hb : b = .relayThen a ∨ b = .relayError a)
    (hs : b ∈ w'.created) : b ∈ w.created := by
  cases hset : lab with
  | resolve t f p =>
    subst hset
    obtain ⟨-, rfl⟩ := step_resolve hstep
    rwa [h.call_settle_created huv] at hs
  | reject t f e =>
    subst hset
    obtain ⟨-, rfl⟩ := step_reject hstep
    rwa [h.call_settle_created huv] at hs
  | _ =>
    obtain ⟨t, hu⟩ := step_call_updates huv h hlab hstep
    exact hu.relays_created (by simp [hset, Label.Settles]) hb hs

/-- A step creates the relays of an action only when its callback returns, unless it fires it. -/
theorem step_relays_created (huv : uv.Ok) (h : w.Inv) (hn : w.RelaysNamed) {lab : Label V}
    {w' : World V} (hstep : step uv w lab = some w') {a : NodeId} (hfire : lab ≠ .fire a)
    (hret : ∀ l r, lab = .ret l r → w.running l ≠ some a)
    (hnew : ∀ b, b = .relayThen a ∨ b = .relayError a → b ∉ w.created) {b : NodeId}
    (hb : b = .relayThen a ∨ b = .relayError a) : b ∉ w'.created := by
  have hcall : lab.IsCall → b ∉ w'.created := fun hlab hs =>
    hnew b hb (step_call_relays huv h hlab hstep hb hs)
  intro hs
  cases lab with
  | fire c =>
    obtain ⟨r, hp, -, -, hcases⟩ := step_fire_updates huv h hstep
    rcases hcases with ⟨rfl, -⟩ | ⟨s, hu, hend⟩
    · exact hnew b hb hs
    · have hmay : ¬ w.Settles c a := by
        rintro (rfl | hrelay)
        · exact hfire rfl
        · exact hnew c (hn c a hrelay) (h.created_pending c hp)
      have hs' : b ∈ s.created := by
        rcases hend with rfl | ⟨e, -, rfl⟩
        · exact hs
        · exact hs
      exact hnew b hb (hu.relays_created hmay hb hs')
  | close c =>
    obtain ⟨-, rfl⟩ := step_close h hstep
    exact hnew b hb hs
  | ret l r =>
    obtain ⟨c, s, hl, hu, hend⟩ := step_ret_updates huv h hstep
    have hmay : ¬ a = c := by
      rintro rfl
      exact hret l r rfl hl
    have hs' : b ∈ s.created := by
      rcases hend with rfl | ⟨e, -, rfl⟩
      · exact hs
      · exact hs
    exact hnew b hb (hu.relays_created hmay hb hs')
  | promise n l isVoid => exact hcall trivial hs
  | resolve t f p => exact hcall trivial hs
  | reject t f e => exact hcall trivial hs
  | thenCb t f n R => exact hcall trivial hs
  | errorCb t f n => exact hcall trivial hs
  | finallyCb t f n R => exact hcall trivial hs
  | async l n R => exact hcall trivial hs

end

end NodeNative
