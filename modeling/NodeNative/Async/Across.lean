import NodeNative.Async.Relays

/-!
# Adoption of a future of another loop

When a callback on one loop returns a future of another one, both relays are actions of the other
loop (`World.Across`). Executing one of them settles the derived future on the wrong thread
(`World.Crossed`): the thread check throws and the exception leaves `AsyncBase::Async`.
-/

namespace NodeNative

open Transition

section
variable {V : Type} {uv : UvAsync} {w : World V} {g a : NodeId}

/-- The exception of `NNATIVE_CHECK_LOOP_THREAD`. -/
def notOnLoopThread : Exn := .runtimeError "Not on the event Loop thread"

/-- A relay has called `FutureShared::resolve` or `reject` of the future of `a` on the thread of
another loop. -/
def World.Crossed (w : World V) (a : NodeId) : Prop :=
  ∃ b r, (b, r) ∈ w.executed ∧ (w.action b).f = .relay a ∧ (w.action b).cls.passes r = false ∧
    (w.action b).loop ≠ (w.futures a).loop

/-- The future of `a` has the outcome of the future `g`, and was settled on its own thread only. -/
def World.SettledByOwner (w : World V) (g a : NodeId) : Prop :=
  (w.futures a).resolver = (w.futures g).resolver ∧ ¬ w.Crossed a

/-! ## The steps -/

/-- A relay that is called on the thread of another loop fails the thread check, which ends the
process. -/
theorem step_fire_relay_thread {b : NodeId} {r : FutureSharedResolver V}
    (hs : (w.action b).Sent r) (hpass : (w.action b).cls.passes r = false)
    (hf : (w.action b).f = .relay a) (hl : (w.action b).loop ≠ (w.futures a).loop) {w' : World V}
    (hstep : step uv w (.fire b) = some w') :
    w' = { w.started b r with aborted := some notOnLoopThread } := by
  have hthread : Thread.ofLoop (w.action b).loop ((w.started b r).futures a).loop = false := by
    simpa [Thread.ofLoop, World.started] using hl.symm
  have hf' : ((w.started b r).action b).f = .relay a := hf
  have hcall : (ActionCallback.callFnValue uv (Thread.ofLoop (w.action b).loop) b (do
      FutureShared.settle uv (Thread.ofLoop (w.action b).loop) a r
      return (none : Option V))).run (w.started b r) =
        .error notOnLoopThread (w.started b r) := by
    rw [ActionCallback.callFnValue, tryFutureError, Hoare.tryCatch_run, EStateM.run_bind,
      EStateM.run_bind, FutureShared.settle_run_thread hthread]
    rfl
  rw [step_fire_callback hs hstep, World.callback]
  simp only [ActionCallback.dispatch, hpass, Bool.false_eq_true, if_false, ActionCallback.callFn,
    EStateM.run_bind, EStateM.run_get, hf', hcall]

/-! ## The two relays -/

/-- The state after the callback of `a` has returned the future `g` of another loop. -/
structure World.Across (w : World V) (g a : NodeId) : Prop where
  relays : w.Relays g a
  loops : (w.futures a).loop ≠ (w.futures g).loop
  pending : (w.futures a).resolver = none
  crossed : w.Crossed a → w.aborted = some notOnLoopThread
  handed : ∀ e, (.relayThen a, .error e) ∈ w.executed →
    (w.futures (.relayThen a)).resolver = some (.error e)

/-- While the returned future is pending no relay is executed. -/
theorem World.Across.not_crossed (h : w.Across g a) (hg : (w.futures g).resolver = none) :
    ¬ w.Crossed a := by
  rintro ⟨b, r, hx, hf, -, -⟩
  obtain ⟨hthen, herror⟩ := h.relays.waiting hg
  rcases h.relays.named b a hf with rfl | rfl
  · exact hthen (World.mem_executedIds hx)
  · exact herror (World.mem_executedIds hx)

/-- When no handle is in flight, a relay of the settlement of the returned future was executed. -/
theorem World.Across.crossed_of_settled (h : w.Across g a) (hp : w.pending = [])
    {r : FutureSharedResolver V} (hg : (w.futures g).resolver = some r) : w.Crossed a := by
  have hcross : ∀ b, b = .relayThen a ∨ b = .relayError a →
      (w.action b).loop ≠ (w.futures a).loop := by
    intro b hb
    rw [(h.relays.relays b hb).2.2.1]
    exact h.loops.symm
  have hthen := h.relays.inv.registered_executed hp h.relays.onReturned hg
  cases r with
  | value p =>
    exact ⟨_, _, hthen, (h.relays.relays _ (.inl rfl)).2.1, h.relays.then_passes _,
      hcross _ (.inl rfl)⟩
  | error e =>
    -- The first relay hands the error on to the second one.
    have herror := h.relays.inv.registered_executed hp h.relays.onThen (h.handed e hthen)
    exact ⟨_, _, herror, (h.relays.relays _ (.inr rfl)).2.1, h.relays.error_passes _,
      hcross _ (.inr rfl)⟩

/-- Every step goes on so when the program settles neither the derived future nor those of the
relays. -/
theorem World.Across.step (huv : uv.Ok) (h : w.Across g a) {lab : Label V}
    (hlab : ∀ b, b = a ∨ b = .relayThen a ∨ b = .relayError a → ¬ lab.Settles b) {w' : World V}
    (hstep : NodeNative.step uv w lab = some w') : w'.Across g a := by
  have hinv := h.relays.inv
  obtain ⟨-, hext⟩ := step_inv huv hinv hstep
  have hloop : (w'.futures a).loop = (w.futures a).loop ∧
      (w'.futures g).loop = (w.futures g).loop :=
    ⟨(hext.future a h.relays.created_self).1, (hext.future g h.relays.created).1⟩
  refine
    { relays := h.relays.step huv (fun b hb => hlab b (.inr hb)) hstep, loops := ?_, pending := ?_,
      crossed := ?_, handed := ?_ }
  · rw [hloop.1, hloop.2]
    exact h.loops
  · by_contra hsome
    obtain ⟨b, -, -, hsame⟩ := h.relays.settles huv (hlab a (.inl rfl)) hstep h.pending hsome
    exact h.loops hsame
  · rintro ⟨b, r, hx, hf, hpass, hl⟩
    have hbc : b ∈ w.created := by
      rcases step_executed huv hinv hstep hx with hx | ⟨-, hp, -⟩
      · exact hinv.created_executed b (World.mem_executedIds hx)
      · exact hinv.created_pending b hp
    obtain ⟨hl', hcls', hf'⟩ := hext.action b hbc
    rw [hf'] at hf
    rw [hcls'] at hpass
    rw [hl', hloop.1] at hl
    rcases step_executed huv hinv hstep hx with hx | ⟨rfl, -, hs⟩
    · -- A relay that was executed before has ended the process.
      have haborted := h.crossed ⟨b, r, hx, hf, hpass, hl⟩
      rw [step_not_aborted hstep] at haborted
      cases haborted
    · rw [step_fire_relay_thread hs hpass hf hl hstep]
  · intro e hx
    rcases step_executed huv hinv hstep hx with hx | ⟨rfl, hp, hs⟩
    · exact hext.resolver _ _ (h.handed e hx)
    · obtain ⟨-, -, hbl, hbfl⟩ := h.relays.relays _ (.inl rfl)
      have hnone := h.relays.own _ (.inl rfl) (.inl (hinv.not_executed _ hp))
      rw [step_fire_passes huv hinv hs hp (h.relays.then_passes _) (hbfl.trans hbl.symm) hnone hstep]
      exact (World.settled_resolver _ _ _ _).trans (if_pos rfl)

/-- The return of a future of another loop registers the two relays there. -/
theorem World.Across.start (huv : uv.Ok) (h : w.Inv) (hn : w.RelaysNamed) (ha : w.OwnPending a)
    (hown : ∀ b, b = .relayThen a ∨ b = .relayError a → w.OwnPending b) {l : LoopId}
    (hl : w.running l = some a)
    (hret : (w.action a).cls.ret = .futureValue ∨ (w.action a).cls.ret = .futureVoid)
    (hloop : (w.futures a).loop ≠ (w.futures g).loop) {w' : World V}
    (hstep : NodeNative.step uv w (.ret l (.future g)) = some w') : w'.Across g a := by
  have hrelays := h.relays_ret huv hn hown hl hret hstep
  obtain ⟨-, hext⟩ := step_inv huv h hstep
  obtain ⟨-, r₀, hx₀, -⟩ := h.running l a hl
  have hac := h.created_executed a (World.mem_executedIds hx₀)
  obtain ⟨hg, hres, hexecuted⟩ := step_ret_future_settles huv h hl hret hstep
  have hnone : ∀ b, b = .relayThen a ∨ b = .relayError a → ∀ r, (b, r) ∉ w'.executed := by
    intro b hb r hbx
    rw [hexecuted] at hbx
    exact h.relays_new hl b hb (h.created_executed b (World.mem_executedIds hbx))
  refine
    { relays := hrelays, loops := ?_, pending := (hres a).trans (ha (.inr ⟨l, hl⟩)), crossed := ?_,
      handed := fun e hx => absurd hx (hnone _ (.inl rfl) _) }
  · rw [(hext.future a hac).1, (hext.future g hg).1]
    exact hloop
  · rintro ⟨b, r, hb, hf, -, -⟩
    exact absurd hb (hnone b (hrelays.named b a hf) r)

/-! ## Runs -/

/-- Source: `ActionCallback.ipp:178-218`, `FutureShared.ipp:16-72`. A callback of action `a` on one
loop returns a future `g` of another one. In every run from there on the derived future stays
pending; as long as `g` is pending nothing settles it on a wrong thread; and a relay that is called
does, and the failed thread check ends the process. When no handle is in flight this has happened if
`g` is settled. So then the derived future has the outcome of `g` and was settled on its own thread
only, if and only if `g` is pending. -/
theorem adoption_across_loops (huv : uv.Ok) {ls₀ ls₁ : List (Label V)} {l : LoopId} {w₀ : World V}
    (hrun₀ : runLabels uv ls₀ = some w₀) (hl : w₀.running l = some a)
    (hret : (w₀.action a).cls.ret = .futureValue ∨ (w₀.action a).cls.ret = .futureVoid)
    (hloop : (w₀.futures a).loop ≠ (w₀.futures g).loop)
    (hown : ∀ lab ∈ ls₀ ++ ls₁, ∀ b, b = a ∨ b = .relayThen a ∨ b = .relayError a → ¬ lab.Settles b)
    (hrun : runLabels uv (ls₀ ++ .ret l (.future g) :: ls₁) = some w) :
    (w.futures a).resolver = none ∧ (w.Crossed a → w.aborted = some notOnLoopThread) ∧
      ((w.futures g).resolver = none → w.SettledByOwner g a) ∧
      (w.pending = [] → (w.SettledByOwner g a ↔ (w.futures g).resolver = none) ∧
        (w.Crossed a ↔ (w.futures g).resolver ≠ none)) := by
  obtain ⟨h₀, hn₀⟩ := run_relaysNamed huv hrun₀
  have hown₀ : ∀ b, b = a ∨ b = .relayThen a ∨ b = .relayError a → w₀.OwnPending b :=
    fun b hb => run_ownPending huv hrun₀ fun lab hlab => hown lab (List.mem_append_left _ hlab) b hb
  have h : w.Across g a := by
    rw [runLabels, run_append, show run (step uv) World.init ls₀ = some w₀ from hrun₀] at hrun
    obtain ⟨w₁, hstep, hrun₁⟩ := Option.bind_eq_some_iff.mp ((run_cons ..).symm.trans hrun)
    have hstart := World.Across.start huv h₀ hn₀ (hown₀ a (.inl rfl))
      (fun b hb => hown₀ b (.inr hb)) hl hret hloop hstep
    have hnext : ∀ (s : World V) lab s',
        (∀ b, b = a ∨ b = .relayThen a ∨ b = .relayError a → ¬ lab.Settles b) → s.Across g a →
          step uv s lab = some s' → s'.Across g a :=
      fun s lab s' hlab hs hst => hs.step huv hlab hst
    exact run_invariant_of hnext (fun lab hlab => hown lab (List.mem_append_right _ hlab)) hstart
      hrun₁
  have hpending : (w.futures g).resolver = none → w.SettledByOwner g a := fun hg =>
    ⟨h.pending.trans hg.symm, h.not_crossed hg⟩
  refine ⟨h.pending, h.crossed, hpending, fun hquiet => ⟨⟨?_, hpending⟩, ?_, ?_⟩⟩
  · rintro ⟨hsame, -⟩
    exact hsame.symm.trans h.pending
  · exact fun hcrossed hg => h.not_crossed hg hcrossed
  · intro hg
    obtain ⟨r, hr⟩ := Option.ne_none_iff_exists'.mp hg
    exact h.crossed_of_settled hquiet hr

/-- The callback of an `async` on loop 0 runs, -/
def asyncOnZero : List (Label Nat) :=
  [.promise 0 1 false, .async 0 1 .futureValue, .fire (.user 1)]

/-- and returns a future of loop 1, which is resolved there once both relays are registered. -/
def resolvedOnOne : List (Label Nat) :=
  [.fire (.post (.relayThen (.user 1))), .fire (.post (.relayError (.user 1))),
    .resolve (Thread.ofLoop 1) (.user 0) (some 7), .fire (.relayThen (.user 1))]

/-- The states before the return and at the end. -/
def returning : World Nat := (runLabels {} asyncOnZero).get (by decide)

def crossing : World Nat :=
  (runLabels {} (asyncOnZero ++ .ret 0 (.future (.user 0)) :: resolvedOnOne)).get (by decide)

/-- A future that another loop resolves is not settled on the thread of its owner. -/
theorem adoption_across_loops_crossing : ¬ crossing.SettledByOwner (.user 0) (.user 1) := by
  have huv : UvAsync.Ok {} := fun _ => ⟨rfl, rfl⟩
  have hrun₀ : runLabels {} asyncOnZero = some returning := (Option.some_get _).symm
  have hrun : runLabels {} (asyncOnZero ++ .ret 0 (.future (.user 0)) :: resolvedOnOne) =
      some crossing := (Option.some_get _).symm
  have hall := adoption_across_loops (a := .user 1) huv hrun₀ (by decide) (by decide) (by decide)
    (by simp [asyncOnZero, resolvedOnOne, Label.Settles]) hrun
  have hsettled : (crossing.futures (.user 0)).resolver ≠ none := by decide
  exact fun h => hsettled ((hall.2.2.2 (by decide)).1.mp h)

/-- The returned future is resolved with 7 and no handle is in flight: the derived one is pending,
and the thread check has ended the process. -/
theorem adoption_across_loops_aborts :
    runLabels {} (asyncOnZero ++ .ret 0 (.future (.user 0)) :: resolvedOnOne) = some crossing ∧
      (crossing.futures (.user 0)).resolver = some (.value (some 7)) ∧ crossing.pending = [] ∧
      (crossing.futures (.user 1)).resolver = none ∧
      crossing.aborted = some notOnLoopThread := by
  refine ⟨(Option.some_get _).symm, ?_⟩
  decide

end

end NodeNative
