import NodeNative.Async.Names
import NodeNative.Async.Across
import NodeNative.Async.Adopted

/-!
# What an unsettled future waits for

When nothing is in flight any more, a future that is not settled is a promise nobody settled, or it
waits for another future that is not settled: the one its callback is registered on, or the one its
callback returned, on which the first relay is registered (`unsettled_waits`). No registration, no
settlement and no returned future is lost on the way, on any number of loops and threads.

`World.Sourced` says why an action will be executed and `World.Accounted` why its future will be
settled once it was; the first is kept by every step, the second by those that leave the settling of
an action's future to the core, which only the owner of a promise can do otherwise.
-/

namespace NodeNative

open Hoare (Triple Keeps)

section
variable {V : Type} {uv : UvAsync} {w w' : World V}

/-! ## The code that settles a future -/

/-- Nothing is known of any code. -/
theorem triple_true {α : Type} {P : World V → Prop} (x : M V α) :
    Triple P x (fun _ _ => True) (fun _ _ => True) := by
  intro s _
  cases x.run s <;> trivial

/-- `settle` that returns has settled. -/
theorem FutureShared.settle_settles (t : Thread) (f : NodeId) (r : FutureSharedResolver V) :
    Triple (fun _ => True) (FutureShared.settle uv t f r)
      (fun _ s => (s.futures f).resolver = some r) (fun _ _ => True) := by
  have hI : Framed fun s : World V => (s.futures f).resolver = some r :=
    ⟨fun _ _ _ _ h => h, fun _ _ h => h⟩
  unfold FutureShared.settle
  refine Triple.get_bind fun _ _ => Triple.bind (triple_true _) fun _ => ?_
  refine Triple.get_bind fun _ _ => ?_
  split
  · exact Triple.throw fun _ _ => trivial
  · refine Triple.bind (Q := fun _ s => (s.futures f).resolver = some r) ?_ fun _ => ?_
    · intro s _
      show ((s.setFuture f _).futures f).resolver = some r
      simp
    · refine Triple.get_bind fun _ hs => ?_
      refine (Keeps.forM (fun a => FutureSharedResolver.resolve_keeps hI r) _).conseq ?_
        (fun _ _ h => h) fun _ _ _ => trivial
      rintro s rfl
      exact hs

/-- A future that was settled without an exception has a resolver. -/
theorem FutureShared.settle_settled (t : Thread) (f : NodeId) (r : FutureSharedResolver V) :
    Triple (fun _ => True) (FutureShared.settle uv t f r)
      (fun _ s => (s.futures f).resolver ≠ none) (fun _ _ => True) :=
  (FutureShared.settle_settles t f r).conseq (fun _ h => h)
    (fun _ _ h => by rw [h]; simp) fun _ _ h => h

/-- `callFn` of a callback that has returned a value or thrown a `FutureError` has settled. -/
theorem ActionCallback.callFnValue_settles (t : Thread) (a : NodeId) (body : M V (Option V)) :
    Triple (fun _ => True) (ActionCallback.callFnValue uv t a body)
      (fun _ s => (s.futures a).resolver ≠ none) (fun _ _ => True) := by
  refine Triple.tryCatch (F := fun _ _ => True) ?_ fun e => ?_
  · exact Triple.bind (triple_true body) fun p => FutureShared.settle_settled t a _
  · cases e with
    | futureError e => exact FutureShared.settle_settled t a _
    | exception m => exact Triple.throw fun _ _ => trivial
    | runtimeError m => exact Triple.throw fun _ _ => trivial

/-- Executing an action settles its future or starts its callback. -/
theorem ActionCallback.dispatch_settles (t : Thread) (a : NodeId) (cls : ActionClass)
    (r : FutureSharedResolver V) :
    Triple (fun _ => True) (ActionCallback.dispatch uv t a cls r)
      (fun done s => (s.futures a).resolver ≠ none ∨ done = false ∧ ∃ l, s.running l = some a)
      (fun _ _ => True) := by
  have hvalue : ∀ body : M V (Option V), Triple (fun _ => True)
      (do ActionCallback.callFnValue uv t a body; return true)
      (fun done s => (s.futures a).resolver ≠ none ∨ done = false ∧ ∃ l, s.running l = some a)
      (fun _ _ => True) := fun body =>
    Triple.bind (ActionCallback.callFnValue_settles t a body) fun _ =>
      Triple.pure.conseq (fun _ h => h) (fun _ _ h => .inl h.2) fun _ _ h => h
  unfold ActionCallback.dispatch
  split
  · refine Triple.bind (FutureShared.settle_settled t a r) fun _ => ?_
    exact Triple.pure.conseq (fun _ h => h) (fun _ _ h => .inl h.2) fun _ _ h => h
  · unfold ActionCallback.callFn
    refine Triple.get_bind fun w _ => ?_
    dsimp only
    split
    · intro s _
      refine .inr ⟨rfl, (w.action a).loop, ?_⟩
      show Function.update s.running (w.action a).loop (some a) _ = _
      rw [Function.update_self]
    · exact (hvalue _).conseq (fun _ _ => trivial) (fun _ _ h => h) fun _ _ h => h
    · exact (hvalue _).conseq (fun _ _ => trivial) (fun _ _ h => h) fun _ _ h => h

/-- Where a callback has returned no future, taking it throws. -/
theorem CallbackReturn.getFuture_throws {r : CallbackReturn V} (hr : ¬ ∃ g, r = .future g)
    {P : World V → Prop} : Triple P r.getFuture (fun _ _ => False) (fun _ _ => True) := by
  cases r with
  | future g => exact absurd ⟨g, rfl⟩ hr
  | value p => exact Triple.throw fun _ _ => trivial
  | throws e => exact Triple.throw fun _ _ => trivial
  | raises m => exact Triple.throw fun _ _ => trivial

/-- A callback that returns settles its action's future, or its class expects a future and gets one. -/
theorem ActionCallback.callFnReturn_settles (t : Thread) (a : NodeId) (r : CallbackReturn V)
    (w : World V) :
    Triple (· = w) (ActionCallback.callFnReturn uv t a r)
      (fun _ s => (s.futures a).resolver ≠ none ∨
        ((w.action a).cls.ret = .futureValue ∨ (w.action a).cls.ret = .futureVoid) ∧
          ∃ g, r = .future g) (fun _ _ => True) := by
  have hvalue : ∀ body : M V (Option V), Triple (· = w) (ActionCallback.callFnValue uv t a body)
      (fun _ s => (s.futures a).resolver ≠ none ∨
        ((w.action a).cls.ret = .futureValue ∨ (w.action a).cls.ret = .futureVoid) ∧
          ∃ g, r = .future g) (fun _ _ => True) := fun body =>
    (ActionCallback.callFnValue_settles t a body).conseq (fun _ _ => trivial)
      (fun _ _ h => .inl h) fun _ _ h => h
  have hfuture : ((w.action a).cls.ret = .futureValue ∨ (w.action a).cls.ret = .futureVoid) →
      Triple (· = w) (ActionCallback.callFnFuture uv t a r.getFuture)
        (fun _ s => (s.futures a).resolver ≠ none ∨
          ((w.action a).cls.ret = .futureValue ∨ (w.action a).cls.ret = .futureVoid) ∧
            ∃ g, r = .future g) (fun _ _ => True) := by
    intro hret
    refine Triple.tryCatch (F := fun _ _ => True) ?_ fun e => ?_
    · by_cases hr : ∃ g, r = .future g
      · exact (triple_true _).conseq (fun _ h => h) (fun _ _ _ => .inr ⟨hret, hr⟩) fun _ _ h => h
      · exact Triple.bind (CallbackReturn.getFuture_throws hr) fun _ _ h => h.elim
    · cases e with
      | futureError e =>
        exact (FutureShared.settle_settled t a _).conseq (fun _ _ => trivial)
          (fun _ _ h => .inl h) fun _ _ h => h
      | exception m => exact Triple.throw fun _ _ => trivial
      | runtimeError m => exact Triple.throw fun _ _ => trivial
  unfold ActionCallback.callFnReturn
  refine Triple.get_bind fun w' hw' => ?_
  subst hw'
  split
  · exact hvalue _
  · exact hvalue _
  · rename_i hret
    exact hfuture (.inl hret)
  · rename_i hret
    exact hfuture (.inr hret)

/-- An action that fires settles its future or starts its callback, unless the program is aborted. -/
theorem step_fire_ends (h : w.Inv) {a : NodeId} (hstep : step uv w (.fire a) = some w')
    (haborted : w'.aborted = none) :
    (w'.futures a).resolver ≠ none ∨ ∃ l, w'.running l = some a := by
  obtain ⟨r, hs⟩ := h.sent a (step_fire_enabled hstep).1
  have hspec := @ActionCallback.dispatch_settles V uv
    (Thread.ofLoop (w.action a).loop) a (w.action a).cls r (w.started a r) trivial
  rw [step_fire_callback hs hstep, World.callback, EStateM.run_bind] at haborted ⊢
  cases hd : (ActionCallback.dispatch uv (Thread.ofLoop (w.action a).loop) a (w.action a).cls
    r).run (w.started a r) with
  | error e s =>
    rw [hd] at haborted
    cases haborted
  | ok done s =>
    rw [hd] at hspec
    cases done with
    | true => exact .inl (hspec.resolve_right (by simp))
    | false => exact hspec.imp_right fun hrun => hrun.2

/-- A callback that returns settles its action's future or has returned another, unless the program is
aborted. -/
theorem step_ret_ends (h : w.Inv) {l : LoopId} {a : NodeId} (hl : w.running l = some a)
    {r : CallbackReturn V} (hstep : step uv w (.ret l r) = some w') (haborted : w'.aborted = none) :
    (w'.futures a).resolver ≠ none ∨
      ((w.action a).cls.ret = .futureValue ∨ (w.action a).cls.ret = .futureVoid) ∧
        ∃ g, r = .future g := by
  obtain ⟨-, rfl⟩ := step_ret_callback h hl hstep
  have hspec := @ActionCallback.callFnReturn_settles V uv (Thread.ofLoop l) a r _ (w.left l)
    rfl
  rw [World.callback, EStateM.run_bind] at haborted ⊢
  cases hc : (ActionCallback.callFnReturn uv (Thread.ofLoop l) a r).run (w.left l) with
  | error e s =>
    rw [hc] at haborted
    cases haborted
  | ok _ s =>
    rw [hc] at hspec
    exact hspec

/-! ## Why an action is executed -/

/-- The action is in flight, was executed, or is registered on a future. -/
structure World.Sourced (w : World V) (b : NodeId) : Prop where
  loop : (w.futures b).loop = (w.action b).loop
  reason : b ∈ w.pending ∨ b ∈ w.executedIds ∨ ∃ g, w.Registered g b

/-- Calls keep it. -/
theorem World.Sourced.called {s : World V} {b : NodeId} (h : w.Sourced b) (hb : b ∈ w.created)
    (hc : w.Called s) : s.Sourced b := by
  refine ⟨?_, ?_⟩
  · rw [(hc.extend.future b hb).1, (hc.extend.action b hb).1]
    exact h.loop
  · rcases h.reason with hp | hx | ⟨g, hg⟩
    · exact .inl (hc.pending b hp)
    · exact .inr (.inl (hc.extend.executedIds hx))
    · exact .inr (.inr ⟨g, hc.registered hg⟩)

/-- Steps keep it. -/
theorem World.Sourced.step (huv : uv.Ok) (hinv : w.Inv) {b : NodeId} (h : w.Sourced b)
    (hb : b ∈ w.created) {lab : Label V} (hstep : NodeNative.step uv w lab = some w') :
    w'.Sourced b := by
  obtain ⟨-, hext⟩ := step_inv huv hinv hstep
  refine ⟨?_, ?_⟩
  · rw [(hext.future b hb).1, (hext.action b hb).1]
    exact h.loop
  · rcases h.reason with hp | hx | ⟨g, hg⟩
    · by_cases hfire : lab = .fire b
      · subst hfire
        exact .inr (.inl (step_fire_executed huv hinv hstep))
      · exact .inl (step_pending huv hinv hstep hp hfire).1
    · exact .inr (.inl (hext.executedIds hx))
    · exact .inr (.inr ⟨g, step_registered huv hinv hstep hg⟩)

/-- The objects that a registration creates. -/
theorem World.sourced_registered {t : Thread} {f n b : NodeId} (hf : f ∈ w.created)
    (hn : n ∉ w.created) (cls : ActionClass) (cb : Callback) (hb : b ∉ w.created)
    (hb' : b ∈ (w.registered t f n cls cb).created) :
    (w.registered t f n cls cb).Sourced b := by
  have hname : b = n ∨ b = .post n := by
    rw [World.registered_created] at hb'
    split at hb'
    · exact .inl ((List.mem_cons.1 hb').resolve_right hb)
    · rcases List.mem_cons.1 hb' with hb' | hb'
      · exact .inr hb'
      · exact .inl ((List.mem_cons.1 hb').resolve_right hb)
  rcases hname with rfl | rfl
  · refine ⟨?_, .inr (.inr ⟨f, w.registered_registered hf hn t cls cb⟩)⟩
    rw [(w.registered_future t f b cls cb).1, (w.registered_action t f b cls cb).1]
  · obtain ⟨haction, hfuture⟩ := w.registered_post t f n cls cb hb hb'
    refine ⟨hfuture.trans haction.symm, .inl ?_⟩
    cases ht : t (w.futures f).loop with
    | true =>
      rw [World.registered_created, if_pos ht] at hb'
      exact absurd ((List.mem_cons.1 hb').resolve_left (NodeId.post_ne n)) hb
    | false => simp [World.registered, ht, World.asynced, World.deliver]

/-- Calls from inside a loop step create relays and what posts them only as registrations. -/
theorem World.Updates.sourced (hinv : w.Inv) {t : Thread} {may : NodeId → Prop} {s : World V}
    (hu : w.Updates t may s) {b : NodeId} (hb : b ∈ s.created) (hnew : b ∉ w.created)
    (hnode : ∀ n, b ≠ .user n) : s.Sourced b := by
  induction hu with
  | refl => exact absurd hb hnew
  | settled hu _ hf _ hr r ih =>
    exact (ih hb).called hb ((hu.called hinv).inv.called_settled hf hr r)
  | promise hu hn l isVoid ih =>
    have hb' := (List.mem_cons.1 hb).resolve_left (hnode _)
    exact (ih hb').called hb' ((hu.called hinv).inv.called_createFuture hn l isVoid (by simp) (by simp))
  | asynced hu hn l R ih =>
    have hb' := (List.mem_cons.1 hb).resolve_left (hnode _)
    exact (ih hb').called hb'
      ((hu.called hinv).inv.called_asynced hn l R (by simp) (by simp) (by simp) (by simp))
  | @registered s hu f n hf hn cls cb hpost hcb hrelay hrel ih =>
    have hs := (hu.called hinv).inv
    by_cases hb' : b ∈ s.created
    · exact (ih hb').called hb' (hs.called_registered hf hn t cls hcb
        (fun d hd => (hrelay d hd).1) hpost fun a ha => (hrel a ha).2)
    · exact World.sourced_registered hf hn cls cb hb' hb
  | posted hu hcb hp hx hreg hpp ih =>
    rw [World.pushed_created] at hb
    have hs := (hu.called hinv).inv
    obtain ⟨-, hf, hc, hpost⟩ := hs.push _ _ _ hcb
    exact (ih hb).called hb (hs.called_pushed hc hf hp hx hreg hpost hpp)

/-- Only the calls of the program create nodes. -/
theorem step_created_user {lab : Label V} (hstep : step uv w lab = some w') {n : Nat}
    (hn : .user n ∈ w'.created) (hnew : .user n ∉ w.created) : lab.creates = some n := by
  have hnamed : w.Named fun b _ => ∀ m, b = .user m → b ∈ w.created ∨ lab.creates = some m :=
    fun b hb _ _ => .inl hb
  have hkept := step_named hnamed (fun m hm => ⟨fun _ k hk => ?_, fun _ k hk => ?_⟩)
    (fun l r a _ _ => ⟨?_, ?_⟩) hstep
  · exact (hkept _ hn n rfl).resolve_left hnew
  · cases hk
    exact .inr hm
  · cases hk
  · rintro b (rfl | rfl) k hk
    · cases hk
    · cases hk
  · rintro b - f k hk
    cases hk

/-- A step creates promises, and actions for which there is a reason. -/
theorem step_sourced (huv : uv.Ok) (hinv : w.Inv) {lab : Label V}
    (hstep : step uv w lab = some w') {b : NodeId} (hb : b ∈ w'.created) (hnew : b ∉ w.created)
    (hpromise : ∀ n l isVoid, lab = .promise n l isVoid → b ≠ .user n) : w'.Sourced b := by
  by_cases hnode : ∃ n, b = .user n
  · obtain ⟨n, rfl⟩ := hnode
    have hcreates := step_created_user hstep hb hnew
    cases lab with
    | promise m l isVoid =>
      cases hcreates
      exact absurd rfl (hpromise n l isVoid rfl)
    | thenCb t f m R =>
      obtain ⟨hf, hm, rfl⟩ := step_thenCb huv hstep
      exact World.sourced_registered hf hm _ _ hnew hb
    | errorCb t f m =>
      obtain ⟨hf, hm, rfl⟩ := step_errorCb huv hstep
      exact World.sourced_registered hf hm _ _ hnew hb
    | finallyCb t f m R =>
      obtain ⟨hf, hm, rfl⟩ := step_finallyCb huv hstep
      exact World.sourced_registered hf hm _ _ hnew hb
    | async l m R =>
      cases hcreates
      obtain ⟨hm, rfl⟩ := step_async huv hstep
      exact ⟨by simp [World.asynced, Action.sent], .inl (by simp [World.asynced, World.deliver])⟩
    | _ => cases hcreates
  · have hnode' : ∀ n, b ≠ .user n := fun n hn => hnode ⟨n, hn⟩
    have hcall : lab.IsCall → w'.Sourced b := by
      intro hlab
      obtain ⟨t, hu⟩ := step_call_updates huv hinv hlab hstep
      exact hu.sourced hinv hb hnew hnode'
    cases lab with
    | fire a =>
      obtain ⟨r, -, -, hstarted, hcases⟩ := step_fire_updates huv hinv hstep
      rcases hcases with ⟨rfl, -⟩ | ⟨s, hu, rfl | ⟨e, -, rfl⟩⟩
      · exact absurd hb hnew
      · have hs := hu.sourced hstarted hb hnew hnode'
        exact ⟨hs.loop, hs.reason⟩
      · have hs := hu.sourced hstarted hb hnew hnode'
        exact ⟨hs.loop, hs.reason⟩
    | close a =>
      obtain ⟨-, rfl⟩ := step_close hinv hstep
      exact absurd hb hnew
    | ret l r =>
      obtain ⟨a, s, -, hu, rfl | ⟨e, -, rfl⟩⟩ := step_ret_updates huv hinv hstep
      · have hs := hu.sourced (hinv.left l) hb hnew hnode'
        exact ⟨hs.loop, hs.reason⟩
      · have hs := hu.sourced (hinv.left l) hb hnew hnode'
        exact ⟨hs.loop, hs.reason⟩
    | promise n l isVoid => exact hcall trivial
    | resolve t f p => exact hcall trivial
    | reject t f e => exact hcall trivial
    | thenCb t f n R => exact hcall trivial
    | errorCb t f n => exact hcall trivial
    | finallyCb t f n R => exact hcall trivial
    | async l n R => exact hcall trivial

/-! ## Why its future is settled -/

/-- An action, and what its future waits for once it was executed. -/
structure World.Accounted (w : World V) (a : NodeId) : Prop where
  sourced : w.Sourced a
  ended : a ∈ w.executedIds → (∀ l, w.running l ≠ some a) → w.aborted = none →
    (w.futures a).resolver ≠ none ∨ ∃ g, w.Adopted g a ∨ w.Across g a

/-- The return of a callback whose class expects a future. -/
theorem step_ret_adopts (huv : uv.Ok) (h : w.Inv) (hn : w.RelaysNamed) {a g : NodeId} {l : LoopId}
    (hl : w.running l = some a) (hloop : (w.futures a).loop = l)
    (hret : (w.action a).cls.ret = .futureValue ∨ (w.action a).cls.ret = .futureVoid)
    (hown : ∀ b, b = a ∨ b = .relayThen a ∨ b = .relayError a → w.OwnPending b)
    (hstep : step uv w (.ret l (.future g)) = some w') : w'.Adopted g a ∨ w'.Across g a := by
  by_cases hsame : (w.futures a).loop = (w.futures g).loop
  · have hcls : (w.action a).cls ≠ .actionCallbackError := by
      intro hcls
      rw [hcls] at hret
      rcases hret with hret | hret
      · cases hret
      · cases hret
    obtain ⟨-, hext⟩ := step_inv huv h hstep
    obtain ⟨-, r, hx, -⟩ := h.running l a hl
    have ha := h.created_executed a (World.mem_executedIds hx)
    have hg := (step_ret_future_settles huv h hl hret hstep).1
    have hended : w'.Ended a (.future g) := step_ret_ended huv h hl hloop hcls hn hown hstep
    refine .inl (hended.2 ?_)
    rw [(hext.future g hg).1, (hext.future a ha).1, hsame]
  · exact .inr (.start huv h hn (hown a (.inl rfl)) (fun b hb => hown b (.inr hb)) hl hret hsame
      hstep)

/-- One step. The future of the action is not settled by a call of the program. -/
theorem World.Accounted.step (huv : uv.Ok) (hinv : w.Inv) (hn : w.RelaysNamed) {a : NodeId}
    (h : w.Accounted a) (ha : a ∈ w.created)
    (hown : ∀ b, b = a ∨ b = .relayThen a ∨ b = .relayError a → w.OwnPending b) {lab : Label V}
    (hlab : ∀ b, b = a ∨ b = .relayThen a ∨ b = .relayError a → ¬ lab.Settles b)
    (hstep : NodeNative.step uv w lab = some w') : w'.Accounted a := by
  obtain ⟨-, hext⟩ := step_inv huv hinv hstep
  refine ⟨h.sourced.step huv hinv ha hstep, fun hx hidle haborted => ?_⟩
  by_cases hold : a ∈ w.executedIds
  · by_cases hrun : ∃ l, w.running l = some a
    · obtain ⟨l, hl⟩ := hrun
      have hret : ∃ r, lab = .ret l r := by
        by_contra hne
        exact hidle l (step_running_stays huv hinv hstep hl fun r hr => hne ⟨r, hr⟩)
      obtain ⟨r, rfl⟩ := hret
      rcases step_ret_ends hinv hl hstep haborted with hres | ⟨hret, g, rfl⟩
      · exact .inl hres
      · have hloop : (w.futures a).loop = l := h.sourced.loop.trans (hinv.running l a hl).1
        exact .inr ⟨g, step_ret_adopts huv hinv hn hl hloop hret hown hstep⟩
    · have hidle' : ∀ l, w.running l ≠ some a := fun l hl => hrun ⟨l, hl⟩
      rcases h.ended hold hidle' (step_not_aborted hstep) with hres | ⟨g, hg | hg⟩
      · obtain ⟨r, hr⟩ := Option.ne_none_iff_exists'.1 hres
        exact .inl (by rw [hext.resolver a r hr]; simp)
      · exact .inr ⟨g, .inl (hg.step huv hlab hstep)⟩
      · exact .inr ⟨g, .inr (hg.step huv hlab hstep)⟩
  · obtain ⟨r, hr⟩ := World.mem_executedIds_iff.1 hx
    rcases step_executed huv hinv hstep hr with hr | ⟨rfl, -, -⟩
    · exact absurd (World.mem_executedIds hr) hold
    · rcases step_fire_ends hinv hstep haborted with hres | ⟨l, hl⟩
      · exact .inl hres
      · exact absurd hl (hidle l)

/-- A new action was not executed. -/
theorem World.Sourced.accounted (h : w.Sourced b) (hx : b ∉ w.executedIds) : w.Accounted b :=
  ⟨h, fun hx' => absurd hx' hx⟩

/-! ## Runs -/

/-- The promises of a run. -/
def Promised (ls : List (Label V)) (b : NodeId) : Prop :=
  ∃ n l isVoid, b = .user n ∧ .promise n l isVoid ∈ ls

/-- In a run that settles only promises, every other object is accounted for. -/
structure World.Books (promised : NodeId → Prop) (w : World V) : Prop where
  inv : w.Inv
  named : w.RelaysNamed
  own : ∀ b, ¬ promised b → w.OwnPending b
  accounted : ∀ b ∈ w.created, ¬ promised b → w.Accounted b

/-- Every step keeps the books. -/
theorem World.Books.step (huv : uv.Ok) {promised : NodeId → Prop}
    (hnode : ∀ b, promised b → ∃ n, b = .user n) (h : w.Books promised) {lab : Label V}
    (hsettles : ∀ f, lab.Settles f → promised f)
    (hpromise : ∀ n l isVoid, lab = .promise n l isVoid → promised (.user n))
    (hstep : NodeNative.step uv w lab = some w') : w'.Books promised := by
  have hrelay : ∀ a b, b = .relayThen a ∨ b = .relayError a → ¬ promised b := by
    rintro a b hb hp
    obtain ⟨n, rfl⟩ := hnode b hp
    rcases hb with hb | hb
    · cases hb
    · cases hb
  refine ⟨(step_inv huv h.inv hstep).1, h.named.step huv h.inv hstep, fun b hb => ?_,
    fun b hb hp => ?_⟩
  · exact (h.own b hb).step huv h.inv h.named (fun hs => hb (hsettles b hs)) hstep
  · have hparty : ∀ c, c = b ∨ c = .relayThen b ∨ c = .relayError b → ¬ promised c := by
      rintro c (rfl | hc)
      · exact hp
      · exact hrelay b c hc
    by_cases hold : b ∈ w.created
    · exact (h.accounted b hold hp).step huv h.inv h.named hold (fun c hc => h.own c (hparty c hc))
        (fun c hc hs => hparty c hc (hsettles c hs)) hstep
    · have hsourced := step_sourced huv h.inv hstep hb hold fun n l isVoid hlab hbn =>
        hp (hbn ▸ hpromise n l isVoid hlab)
      refine hsourced.accounted fun hx => ?_
      obtain ⟨r, hr⟩ := World.mem_executedIds_iff.1 hx
      rcases step_executed huv h.inv hstep hr with hr | ⟨-, hpending, -⟩
      · exact hold (h.inv.created_executed b (World.mem_executedIds hr))
      · exact hold (h.inv.created_pending b hpending)

/-- A run that has come to rest without an exception: a future that is not settled is a promise of the
program, or waits for another future that is not settled, the one it is registered on or the one its
callback returned. -/
theorem unsettled_waits (huv : uv.Ok) {ls : List (Label V)} (hrun : runLabels uv ls = some w)
    (hsettles : ∀ lab ∈ ls, ∀ f, lab.Settles f → Promised ls f) (hpending : w.pending = [])
    (hrunning : ∀ l, w.running l = none) (haborted : w.aborted = none) {f : NodeId}
    (hf : f ∈ w.created) (hnone : (w.futures f).resolver = none) :
    Promised ls f ∨ ∃ g, (w.futures g).resolver = none ∧
      (f ∈ (w.futures g).actions ∨ .relayThen f ∈ (w.futures g).actions) := by
  by_cases hp : Promised ls f
  · exact .inl hp
  have hinit : (World.init : World V).Books (Promised ls) :=
    ⟨.init, .init, fun _ _ _ => rfl, fun _ hb => nomatch hb⟩
  have hbooks : w.Books (Promised ls) := by
    refine Transition.run_invariant_of (p := fun lab => lab ∈ ls) (fun s lab s' hlab hs hst => ?_)
      (fun _ h => h) hinit hrun
    refine hs.step huv ?_ (hsettles lab hlab) ?_ hst
    · rintro b ⟨n, -, -, rfl, -⟩
      exact ⟨n, rfl⟩
    · rintro n l isVoid rfl
      exact ⟨n, l, isVoid, rfl, hlab⟩
  have hinv := hbooks.inv
  have hacc := hbooks.accounted f hf hp
  have honActions : ∀ {g b}, w.Registered g b → b ∈ (w.futures g).actions := by
    rintro g b (hb | ⟨hpost, -⟩)
    · exact hb
    · rw [hpending] at hpost
      cases hpost
  right
  by_cases hx : f ∈ w.executedIds
  · have hended := hacc.ended hx (fun l hl => by rw [hrunning l] at hl; cases hl) haborted
    rcases hended with hres | ⟨g, hg | hg⟩
    · exact absurd hnone hres
    · exact ⟨g, (hg.outcome hpending).symm.trans hnone, .inr (honActions hg.relays.onReturned)⟩
    · refine ⟨g, ?_, .inr (honActions hg.relays.onReturned)⟩
      cases hr : (w.futures g).resolver with
      | none => rfl
      | some r =>
        have := hg.crossed (hg.crossed_of_settled hpending hr)
        rw [haborted] at this
        cases this
  · rcases hacc.sourced.reason with hpd | hx' | ⟨g, hg⟩
    · rw [hpending] at hpd
      cases hpd
    · exact absurd hx' hx
    · refine ⟨g, ?_, .inl (honActions hg)⟩
      cases hr : (w.futures g).resolver with
      | none => rfl
      | some r =>
        exact absurd (World.mem_executedIds (hinv.registered_executed hpending hg hr)) hx

/-- A `then` posted from another thread on a promise that nobody settles. -/
def postedOnPromise : List (Label Nat) :=
  [.promise 0 0 false, .thenCb (Thread.ofLoop 1) (.user 0) 1 .void, .fire (.post (.user 1))]

/-- Its future waits for the promise. -/
theorem unsettled_waits_posted : ∃ w, runLabels {} postedOnPromise = some w ∧
    (Promised postedOnPromise (.user 1) ∨ ∃ g, (w.futures g).resolver = none ∧
      (.user 1 ∈ (w.futures g).actions ∨ .relayThen (.user 1) ∈ (w.futures g).actions)) := by
  have hsome : (runLabels {} postedOnPromise).isSome := by decide
  refine ⟨_, (Option.some_get hsome).symm, ?_⟩
  have hok : UvAsync.Ok {} := fun _ => ⟨rfl, rfl⟩
  have hnever : ∀ lab ∈ postedOnPromise, ∀ f, lab.Settles f → Promised postedOnPromise f := by
    simp [postedOnPromise, Label.Settles]
  exact unsettled_waits hok (Option.some_get hsome).symm hnever rfl (fun _ => rfl) rfl
    (.tail _ (.head _)) rfl

end

end NodeNative
