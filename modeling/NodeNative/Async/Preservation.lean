import NodeNative.Async.Called
import NodeNative.Lib.Hoare

/-!
# Every step keeps the invariant

What the operations of `Async.Loop` do, however they end: they make calls (`World.Makes`). A loop step
is an execution (`World.started`), such calls, and the end of the execution (`step_fire_updates`,
`step_ret_updates`), and a call of the program is nothing but calls (`step_call_updates`). From there
`step_inv` and `step_extends`, and with the rules of `Lib.Transition` the same for runs.
-/

namespace NodeNative

section
variable {V : Type} {uv : UvAsync} {w : World V}

/-! ## Callbacks -/

/-- The exceptions of the code other than its assertions about handles: the thread check of
`resolve` and `reject`, a second settlement, and what is thrown by a callback of the program that
ends with `r`. -/
inductive Exn.Expected : Option (CallbackReturn V) → Exn → Prop
  | thread {r : Option (CallbackReturn V)} :
      Exn.Expected r (.runtimeError "Not on the event Loop thread")
  | again {r : Option (CallbackReturn V)} :
      Exn.Expected r (.futureError PromiseAlreadySatisfied)
  | own {m : String} : Exn.Expected (some (.raises m)) (.runtimeError m)

/-- An exception of code whose caller catches every `FutureError`. -/
def Exn.Caught (r : Option (CallbackReturn V)) (e : Exn) : Prop :=
  Exn.Expected r e ∨ ∃ e', e = .futureError e'

/-- Started with `P`, the code leads by updates from `w` to the state in which it returns or throws,
and throws exceptions with `E` only. -/
def World.Makes {α : Type} (w : World V) (t : Thread) (may : NodeId → Prop) (P : World V → Prop)
    (x : M V α) (E : Exn → Prop) : Prop :=
  Hoare.Triple P x (fun _ => w.Updates t may) (fun e s => w.Updates t may s ∧ E e)

section
variable {t : Thread} {may : NodeId → Prop} {r : Option (CallbackReturn V)}

/-- Updates one after the other are updates. -/
theorem World.Makes.bind {α β : Type} {P : World V → Prop} {E : Exn → Prop} {x : M V α}
    {f : α → M V β} (hx : w.Makes t may P x E)
    (hf : ∀ a, w.Makes t may (w.Updates t may) (f a) E) : w.Makes t may P (x >>= f) E :=
  Hoare.Triple.bind hx hf

/-- More may be known of the start, and less of the exceptions. -/
theorem World.Makes.weaken {α : Type} {P P' : World V → Prop} {E E' : Exn → Prop} {x : M V α}
    (hx : w.Makes t may P x E) (hP : ∀ s, P' s → P s) (hE : ∀ e, E e → E' e) :
    w.Makes t may P' x E' :=
  Hoare.Triple.conseq hx hP (fun _ _ hs => hs) fun _ _ hs => ⟨hs.1, hE _ hs.2⟩

/-- A state that the code starts in. -/
theorem World.Makes.self {α : Type} {E : Exn → Prop} {x : M V α}
    (hx : w.Makes t may (w.Updates t may) x E) : w.Makes t may (· = w) x E :=
  hx.weaken (by rintro _ rfl; exact .refl) fun _ he => he

/-- Settling a created future settles it, is refused, or fails its thread check. -/
theorem FutureShared.settle_makes (huv : uv.Ok) (h : w.Inv) {f : NodeId} (hf : f ∈ w.created)
    (hmay : may f) (res : FutureSharedResolver V) :
    w.Makes t may (w.Updates t may) (FutureShared.settle uv t f res) (Exn.Expected r) := by
  intro s hs
  have hc := hs.called h
  cases ht : t (s.futures f).loop with
  | false =>
    rw [FutureShared.settle_run_thread ht]
    exact ⟨hs, .thread⟩
  | true =>
    cases hr : (s.futures f).resolver with
    | none =>
      rw [FutureShared.settle_run huv ht hr (hc.inv.actions_nodup f)
        fun a ha => hc.inv.actions_idle ha hr]
      exact .settled hs hmay (hc.extend.created f hf) ht hr res
    | some r' =>
      rw [FutureShared.settle_run_again ht (by simp [hr])]
      exact ⟨hs, .again⟩

/-- A `catch (const FutureError &)` whose handler makes updates. -/
theorem World.Makes.tryFutureError {P : World V → Prop} {x : M V Unit}
    {handler : FutureError → M V Unit} (hx : w.Makes t may P x (Exn.Caught r))
    (hh : ∀ e, w.Makes t may (w.Updates t may) (handler e) (Exn.Expected r)) :
    w.Makes t may P (NodeNative.tryFutureError x handler) (Exn.Expected r) := by
  refine Hoare.Triple.tryCatch hx fun ex => ?_
  cases ex with
  | futureError e => exact (hh e).weaken (fun _ hs => hs.1) fun _ he => he
  | exception m | runtimeError m =>
    refine Hoare.Triple.throw fun s hs => ⟨hs.1, ?_⟩
    rcases hs.2 with hexp | ⟨e', he'⟩
    · exact hexp
    · cases he'

/-- `callFn` of a callback that returns a value. -/
theorem ActionCallback.callFnValue_makes (huv : uv.Ok) (h : w.Inv) {P : World V → Prop}
    {a : NodeId} (ha : a ∈ w.created) (hmay : may a) {body : M V (Option V)}
    (hbody : w.Makes t may P body (Exn.Caught r)) :
    w.Makes t may P (ActionCallback.callFnValue uv t a body) (Exn.Expected r) :=
  World.Makes.tryFutureError
    (hbody.bind fun _ => (FutureShared.settle_makes huv h ha hmay _).weaken (fun _ hs => hs)
      fun _ he => .inl he)
    fun _ => FutureShared.settle_makes huv h ha hmay _

/-- What a callback of the program gives to a class that expects a value. -/
theorem CallbackReturn.getValue_makes (r : CallbackReturn V) :
    w.Makes t may (w.Updates t may) r.getValue (Exn.Caught (some r)) := by
  intro s hs
  cases r with
  | value p => exact hs
  | future g => exact hs
  | throws e => exact ⟨hs, .inr ⟨e, rfl⟩⟩
  | raises m => exact ⟨hs, .inl .own⟩

/-- `callFn` of a callback that returns a future. -/
theorem ActionCallback.callFnFuture_makes (huv : uv.Ok) (h : w.Inv) {a : NodeId} (hmay : may a)
    (hx : a ∈ w.executedIds) (hrun : ∀ l, w.running l ≠ some a)
    (hthen : .relayThen a ∉ w.created) (herror : .relayError a ∉ w.created)
    {r : CallbackReturn V} (hr : ∀ g, r = .future g → g ∈ w.created) (hval : ∀ p, r ≠ .value p) :
    w.Makes t may (· = w) (ActionCallback.callFnFuture uv t a r.getFuture)
      (Exn.Expected (some r)) := by
  refine World.Makes.tryFutureError ?_ fun e =>
    FutureShared.settle_makes huv h (h.created_executed a hx) hmay (.error e)
  rintro s rfl
  cases r with
  | future g =>
    rw [EStateM.run_bind]
    simp only [CallbackReturn.getFuture, EStateM.run_pure]
    rw [ActionCallback.relay_run huv]
    exact h.updates_relayed t hmay (hr g rfl) hx hrun hthen herror
  | value p => exact absurd rfl (hval p)
  | throws e => exact ⟨.refl, .inr ⟨e, rfl⟩⟩
  | raises m => exact ⟨.refl, .inl .own⟩

end

/-- A callback declared to return a future does not return a value. -/
theorem ActionClass.accepts_ne_value {cls : ActionClass} {r : CallbackReturn V}
    (hacc : cls.accepts w r = true) (hret : cls.ret = .futureValue ∨ cls.ret = .futureVoid)
    (p : Option V) : r ≠ .value p := by
  rintro rfl
  unfold ActionClass.accepts at hacc
  cases cls <;> rcases hret with hret | hret <;> simp_all [ActionClass.ret]

/-- A future that a callback may return exists. -/
theorem ActionClass.accepts_future {cls : ActionClass} {r : CallbackReturn V}
    (hacc : cls.accepts w r = true) (g : NodeId) (hr : r = .future g) : g ∈ w.created := by
  subst hr
  simp only [ActionClass.accepts, Bool.and_eq_true, List.contains_eq_mem, decide_eq_true_eq] at hacc
  exact hacc.1

/-- The return of a callback of the program. Of the futures there are, it may settle its own. -/
theorem ActionCallback.callFnReturn_makes (huv : uv.Ok) (h : w.Inv) (t : Thread) {a : NodeId}
    (hx : a ∈ w.executedIds) (hrun : ∀ l, w.running l ≠ some a)
    (hthen : .relayThen a ∉ w.created) (herror : .relayError a ∉ w.created)
    {r : CallbackReturn V} (hacc : (w.action a).cls.accepts w r = true) :
    w.Makes t (· = a) (· = w) (ActionCallback.callFnReturn uv t a r) (Exn.Expected (some r)) := by
  rintro s rfl
  simp only [ActionCallback.callFnReturn, EStateM.run_bind, EStateM.run_get]
  have ha := h.created_executed a hx
  have hvalue : ∀ {body : M V (Option V)},
      s.Makes t (· = a) (s.Updates t (· = a)) body (Exn.Caught (some r)) →
        s.Makes t (· = a) (· = s) (ActionCallback.callFnValue uv t a body)
          (Exn.Expected (some r)) := by
    intro body hbody
    refine ActionCallback.callFnValue_makes huv h ha ?_ hbody.self
    rfl
  have hfuture : (s.action a).cls.ret = .futureValue ∨ (s.action a).cls.ret = .futureVoid →
      s.Makes t (· = a) (· = s) (ActionCallback.callFnFuture uv t a r.getFuture)
        (Exn.Expected (some r)) := by
    intro hret
    refine ActionCallback.callFnFuture_makes huv h ?_ hx hrun hthen herror
      (ActionClass.accepts_future hacc) (ActionClass.accepts_ne_value hacc hret)
    rfl
  cases hret : (s.action a).cls.ret with
  | value => exact hvalue r.getValue_makes s rfl
  | void => exact hvalue (r.getValue_makes.bind fun _ _ hs => hs) s rfl
  | futureValue => exact hfuture (.inl hret) s rfl
  | futureVoid => exact hfuture (.inr hret) s rfl

/-! ## Loop steps -/

/-- The actions executed after a handle fired. -/
@[simp] theorem World.started_executedIds (w : World V) (a : NodeId)
    (r : FutureSharedResolver V) : (w.started a r).executedIds = w.executedIds ++ [a] := by
  simp [World.started, World.executedIds]

/-- Firing a handle keeps the invariant: the action moves from in flight to executed. -/
theorem World.Inv.started (h : w.Inv) {a : NodeId} (hp : a ∈ w.pending)
    {r : FutureSharedResolver V} (hres : (w.action a).resolver = some r) :
    (w.started a r).Inv := by
  have hx : a ∉ w.executedIds := h.not_executed a hp
  have hmem : ∀ b, b ∈ (w.started a r).pending ↔ b ≠ a ∧ b ∈ w.pending :=
    fun b => h.pending_nodup.mem_erase_iff
  have hids : ∀ b, b ∈ (w.started a r).executedIds ↔ b ∈ w.executedIds ∨ b = a := by
    intro b
    simp
  have hexec : ∀ b r', (b, r') ∈ w.executed → (b, r') ∈ (w.started a r).executed :=
    fun b r' hb => List.mem_append_left _ hb
  refine
    { pending_nodup := h.pending_nodup.erase a, executed_nodup := ?_, not_executed := ?_,
      idle := ?_, sent := ?_, actions_nodup := h.actions_nodup,
      actions_unique := h.actions_unique, waiting := ?_, delivered := ?_,
      created_pending := ?_, created_executed := ?_, created_actions := h.created_actions,
      created_future := h.created_future, created_post := h.created_post, created_relay := ?_,
      running := ?_, closing_nodup := h.closing_nodup, closing := ?_, push := h.push,
      relay := h.relay, post_actions := h.post_actions, post_pending := ?_ }
  · rw [World.started_executedIds]
    exact nodup_snoc h.executed_nodup hx
  · intro b hb
    obtain ⟨hba, hb⟩ := (hmem b).1 hb
    rw [hids]
    exact fun hor => hor.elim (h.not_executed b hb) hba
  · intro b hb hbx
    rw [hids] at hbx
    obtain ⟨hbx, hba⟩ := not_or.1 hbx
    exact h.idle b (fun hbp => hb ((hmem b).2 ⟨hba, hbp⟩)) hbx
  · intro b hb
    exact h.sent b ((hmem b).1 hb).2
  · intro g b hb hg
    obtain ⟨hbp, hbx⟩ := h.waiting g b hb hg
    refine ⟨fun hb' => hbp ((hmem b).1 hb').2, fun hb' => ?_⟩
    rcases (hids b).1 hb' with hb' | rfl
    · exact hbx hb'
    · exact hbp hp
  · intro g b r' hb hg
    rcases h.delivered g b r' hb hg with ⟨hbp, hbr⟩ | hbx
    · by_cases hba : b = a
      · subst hba
        have hrr : r = r' := Option.some.inj (hres.symm.trans hbr)
        exact .inr (List.mem_append_right _ (by simp [hrr]))
      · exact .inl ⟨(hmem b).2 ⟨hba, hbp⟩, hbr⟩
    · exact .inr (hexec b r' hbx)
  · intro b hb
    exact h.created_pending b ((hmem b).1 hb).2
  · intro b hb
    rcases (hids b).1 hb with hb | rfl
    · exact h.created_executed b hb
    · exact h.created_pending b hp
  · intro b hb
    obtain ⟨hbx, hrun⟩ := h.created_relay b hb
    exact ⟨(hids b).2 (.inl hbx), hrun⟩
  · intro l b hl
    obtain ⟨hloop, r', hbx, hs⟩ := h.running l b hl
    exact ⟨hloop, r', hexec b r' hbx, hs⟩
  · intro b hb
    obtain ⟨⟨r', hbx, hs⟩, hrun⟩ := h.closing b hb
    exact ⟨⟨r', hexec b r' hbx, hs⟩, hrun⟩
  · intro b hb
    obtain ⟨h1, h2, h3⟩ := h.post_pending b ((hmem _).1 hb).2
    refine ⟨fun hb' => h1 ((hmem b).1 hb').2, fun hb' => ?_, h3⟩
    rcases (hids b).1 hb' with hb' | rfl
    · exact h2 hb'
    · exact h1 hp

/-- The callback of the program of action `a` is on the stack of its loop. -/
def World.entered (w : World V) (a : NodeId) : World V :=
  { w with running := Function.update w.running (w.action a).loop (some a) }

/-- The futures that the execution of action `a` may settle: its own, and the one it relays to. -/
def World.Settles (w : World V) (a f : NodeId) : Prop :=
  f = a ∨ (w.action a).f = .relay f

/-- What the callback of a fired action does: it starts a callback of the program, or makes calls
and ends. -/
theorem ActionCallback.dispatch_spec (huv : uv.Ok) (h : w.Inv) {a : NodeId} (ha : a ∈ w.created)
    (hpush : ∀ f b, (w.action a).f = .push f b → b ∉ w.pending ∧ b ∉ w.executedIds ∧
      (∀ g, b ∉ (w.futures g).actions) ∧ .post b ∉ w.pending)
    (t : Thread) (cls : ActionClass) (r : FutureSharedResolver V) :
    Hoare.Triple (· = w) (ActionCallback.dispatch uv t a cls r)
      (fun done s => if done then w.Updates t (w.Settles a) s
        else s = w.entered a ∧ cls.passes r = false ∧ (w.action a).f = .user)
      (fun e s => w.Updates t (w.Settles a) s ∧ Exn.Expected (none : Option (CallbackReturn V)) e) := by
  have hreturn : ∀ {x : M V Unit}, w.Makes t (w.Settles a) (· = w) x
      (Exn.Expected (none : Option (CallbackReturn V))) →
      Hoare.Triple (· = w) (do x; return true)
        (fun done s => if done then w.Updates t (w.Settles a) s
          else s = w.entered a ∧ cls.passes r = false ∧ (w.action a).f = .user)
        (fun e s => w.Updates t (w.Settles a) s ∧
          Exn.Expected (none : Option (CallbackReturn V)) e) := by
    intro x hx
    refine Hoare.Triple.bind hx fun _ s hs => ?_
    simpa using hs
  have hsettle : ∀ d ∈ w.created, w.Settles a d → w.Makes t (w.Settles a) (· = w)
      (FutureShared.settle uv t d r) (Exn.Expected (none : Option (CallbackReturn V))) :=
    fun d hd hmay => (FutureShared.settle_makes huv h hd hmay r).self
  unfold ActionCallback.dispatch
  split
  · exact hreturn (hsettle a ha (.inl rfl))
  · rename_i hpass
    rintro s rfl
    simp only [ActionCallback.callFn, EStateM.run_bind, EStateM.run_get]
    cases hf : (s.action a).f with
    | user =>
      simp only [EStateM.run_bind, EStateM.run_modify, EStateM.run_pure]
      refine ⟨rfl, by simpa using hpass, trivial⟩
    | push f b =>
      rw [hf] at hreturn
      obtain ⟨rfl, -, -, -⟩ := h.push a f b hf
      obtain ⟨hbp, hbx, hbreg, hbpp⟩ := hpush f b hf
      refine hreturn (ActionCallback.callFnValue_makes huv h ha (.inl rfl) ?_) s rfl
      rintro _ rfl
      rw [EStateM.run_bind, FutureShared.push_run huv (h.idle b hbp hbx)]
      exact .posted .refl hf hbp hbx hbreg hbpp
    | relay d =>
      rw [hf] at hreturn
      refine hreturn (ActionCallback.callFnValue_makes huv h ha (.inl rfl) ?_) s rfl
      exact ((hsettle d (h.relay a d hf) (.inr hf)).weaken (fun _ hs => hs)
        fun _ he => .inl he).bind fun _ _ hs => hs

/-- Closing a handle and taking a callback off the stack do not change the rest. -/
theorem World.Inv.uvClosed (h : w.Inv) {a : NodeId} {r : FutureSharedResolver V}
    (hx : (a, r) ∈ w.executed) (hs : (w.action a).Sent r) (hrun : ∀ l, w.running l ≠ some a)
    (hc : a ∉ w.closing) : World.Inv { w with closing := w.closing ++ [a] } :=
  { h with
    closing_nodup := nodup_snoc h.closing_nodup hc
    closing := fun b hb => by
      rcases List.mem_append.1 hb with hb | hb
      · exact h.closing b hb
      · rw [List.mem_singleton.1 hb]
        exact ⟨⟨r, hx, hs⟩, hrun⟩ }

/-- Starting the callback of a newly executed action keeps the invariant. -/
theorem World.Inv.entered (h : w.Inv) {a : NodeId} {r : FutureSharedResolver V}
    (hx : (a, r) ∈ w.executed) (hs : (w.action a).Sent r) (hc : a ∉ w.closing)
    (hrel : .relayThen a ∉ w.created ∧ .relayError a ∉ w.created) : (w.entered a).Inv := by
  have hrun : ∀ l b, (w.entered a).running l = some b →
      (l = (w.action a).loop ∧ b = a) ∨ w.running l = some b := by
    intro l b hl
    simp only [World.entered, Function.update_apply] at hl
    split at hl
    · exact .inl ⟨‹_›, (Option.some.inj hl).symm⟩
    · exact .inr hl
  refine { h with created_relay := ?_, running := ?_, closing := ?_ }
  · intro b hb
    refine ⟨(h.created_relay b hb).1, fun l hl => ?_⟩
    rcases hrun l b hl with ⟨-, rfl⟩ | hl
    · exact hb.elim hrel.1 hrel.2
    · exact (h.created_relay b hb).2 l hl
  · intro l b hl
    rcases hrun l b hl with ⟨rfl, rfl⟩ | hl
    · exact ⟨rfl, r, hx, hs⟩
    · exact h.running l b hl
  · intro b hb
    refine ⟨(h.closing b hb).1, fun l hl => ?_⟩
    rcases hrun l b hl with ⟨-, rfl⟩ | hl
    · exact hc hb
    · exact (h.closing b hb).2 l hl

/-- The callback of the program on the stack of loop `l` has returned. -/
def World.left (w : World V) (l : LoopId) : World V :=
  { w with running := Function.update w.running l none }

/-- What still runs ran before. -/
theorem World.left_running {l l' : LoopId} {a : NodeId} (hl' : (w.left l).running l' = some a) :
    l' ≠ l ∧ w.running l' = some a := by
  by_cases hll : l' = l
  · subst hll; simp [World.left] at hl'
  · refine ⟨hll, ?_⟩
    simpa [World.left, Function.update_of_ne hll] using hl'

/-- An action runs on its own loop only, so it does not run once that loop has left it. -/
theorem World.Inv.left_not_running (h : w.Inv) {l : LoopId} {a : NodeId}
    (hl : w.running l = some a) (l' : LoopId) : (w.left l).running l' ≠ some a := by
  intro hl'
  obtain ⟨hll, hl'⟩ := World.left_running hl'
  exact hll ((h.running l' a hl').1.symm.trans (h.running l a hl).1)

/-- Returning from a callback keeps the invariant. -/
theorem World.Inv.left (h : w.Inv) (l : LoopId) : (w.left l).Inv :=
  { h with
    created_relay := fun b hb => ⟨(h.created_relay b hb).1, fun l' hl' =>
      (h.created_relay b hb).2 l' (World.left_running hl').2⟩
    running := fun l' b hl' => h.running l' b (World.left_running hl').2
    closing := fun b hb => ⟨(h.closing b hb).1, fun l' hl' =>
      (h.closing b hb).2 l' (World.left_running hl').2⟩ }

/-- The action that a posting action registers is neither sent nor registered when it fires. -/
theorem World.Inv.posted_free (h : w.Inv) {a f b : NodeId} {r : FutureSharedResolver V}
    (hp : a ∈ w.pending) (hf : (w.action a).f = .push f b) :
    b ∉ (w.started a r).pending ∧ b ∉ (w.started a r).executedIds ∧
      (∀ g, b ∉ ((w.started a r).futures g).actions) ∧ .post b ∉ (w.started a r).pending := by
  obtain ⟨hab, -⟩ := h.push a f b hf
  obtain ⟨h1, h2, h3⟩ := h.post_pending b (hab ▸ hp)
  have hba : b ≠ a := fun hba => h1 (hba ▸ hp)
  refine ⟨fun hb => h1 (List.mem_of_mem_erase hb), ?_, h3, ?_⟩
  · simpa [hba] using h2
  · rw [← hab]
    exact fun hb => (h.pending_nodup.mem_erase_iff.1 hb).1 rfl

/-- A handle fires when it is in flight and its loop is not inside a callback. -/
theorem step_fire_enabled {a : NodeId} {w' : World V} (hstep : step uv w (.fire a) = some w') :
    a ∈ w.pending ∧ w.running (w.action a).loop = none := by
  simp only [step] at hstep
  split at hstep
  · cases hstep
  · split at hstep
    · rename_i hcond
      simpa using hcond
    · cases hstep

/-- The code that a fired handle runs. -/
theorem step_fire_callback {a : NodeId} {r : FutureSharedResolver V} (hs : (w.action a).Sent r)
    {w' : World V} (hstep : step uv w (.fire a) = some w') :
    w' = (w.started a r).callback (do
      if (← ActionCallback.dispatch uv (Thread.ofLoop (w.action a).loop) a (w.action a).cls r)
        then uvClose a) := by
  simp only [step] at hstep
  split at hstep
  · cases hstep
  · split at hstep
    · rw [← Option.some.inj hstep, World.callback, AsyncBase.Async_run hs.data hs.resolver]
      rfl
    · cases hstep

/-- A handle in flight fires: its action is executed, and its callback starts a callback of the
program, or makes calls on the thread of the loop and returns or throws. -/
theorem step_fire_updates (huv : uv.Ok) (h : w.Inv) {a : NodeId} {w' : World V}
    (hstep : step uv w (.fire a) = some w') :
    ∃ r, a ∈ w.pending ∧ (w.action a).Sent r ∧ (w.started a r).Inv ∧
      ((w' = (w.started a r).entered a ∧ w.running (w.action a).loop = none ∧
          (w.action a).cls.passes r = false ∧ (w.action a).f = .user) ∨
        ∃ s, (w.started a r).Updates (Thread.ofLoop (w.action a).loop) (w.Settles a) s ∧
          (w' = { s with closing := s.closing ++ [a] } ∨
            ∃ e, Exn.Expected (none : Option (CallbackReturn V)) e ∧
              w' = { s with aborted := some e })) := by
  obtain ⟨hp, hrun⟩ := step_fire_enabled hstep
  obtain ⟨r, hs⟩ := h.sent a hp
  have hinv := h.started hp hs.resolver
  have hspec := ActionCallback.dispatch_spec huv hinv (h.created_pending a hp)
    (fun f b hf => h.posted_free hp hf) (Thread.ofLoop (w.action a).loop) (w.action a).cls r _ rfl
  refine ⟨r, hp, hs, hinv, ?_⟩
  rw [step_fire_callback hs hstep, World.callback, EStateM.run_bind]
  cases hd : (ActionCallback.dispatch uv (Thread.ofLoop (w.action a).loop) a (w.action a).cls
      r).run (w.started a r) with
  | error e s =>
    rw [hd] at hspec
    exact .inr ⟨s, hspec.1, .inr ⟨e, hspec.2, rfl⟩⟩
  | ok done s =>
    rw [hd] at hspec
    cases done with
    | true => exact .inr ⟨s, hspec, .inl rfl⟩
    | false =>
      obtain ⟨hspec, hpass, hf⟩ := hspec
      exact .inl ⟨hspec, hrun, hpass, hf⟩

/-- A handle in flight fires: its action is executed, and its callback starts a callback of the
program, or makes calls and returns or throws. -/
theorem step_fire (huv : uv.Ok) (h : w.Inv) {a : NodeId} {w' : World V}
    (hstep : step uv w (.fire a) = some w') :
    ∃ r, a ∈ w.pending ∧ (w.action a).Sent r ∧ (w.started a r).Inv ∧
      (w' = (w.started a r).entered a ∧ w.running (w.action a).loop = none ∨
        ∃ s, (w.started a r).Called s ∧
          (w' = { s with closing := s.closing ++ [a] } ∨ ∃ e, w' = { s with aborted := some e })) := by
  obtain ⟨r, hp, hs, hinv, hcases⟩ := step_fire_updates huv h hstep
  refine ⟨r, hp, hs, hinv, ?_⟩
  rcases hcases with ⟨hw, hrun, -, -⟩ | ⟨s, hu, hend⟩
  · exact .inl ⟨hw, hrun⟩
  · refine .inr ⟨s, hu.called hinv, hend.imp_right ?_⟩
    rintro ⟨e, -, hw⟩
    exact ⟨e, hw⟩

/-- The code that runs when the callback of action `a` returns. -/
theorem step_ret_callback (h : w.Inv) {l : LoopId} {a : NodeId} (hl : w.running l = some a)
    {r : CallbackReturn V} {w' : World V} (hstep : step uv w (.ret l r) = some w') :
    (w.action a).cls.accepts w r = true ∧ w' = (w.left l).callback (do
      ActionCallback.callFnReturn uv (Thread.ofLoop l) a r
      uvClose a) := by
  simp only [step, hl] at hstep
  split at hstep
  · cases hstep
  · split at hstep
    · rename_i hacc
      refine ⟨hacc, ?_⟩
      rw [← Option.some.inj hstep]
      simp only [World.callback, AsyncBase.asyncReturn, EStateM.run_bind, EStateM.run_get,
        EStateM.run_modify, (h.running l a hl).1]
      rfl
    · cases hstep

/-- A return needs a callback of the program on the stack. -/
theorem step_ret_enabled {l : LoopId} {r : CallbackReturn V} {w' : World V}
    (hstep : step uv w (.ret l r) = some w') : ∃ a, w.running l = some a := by
  simp only [step] at hstep
  split at hstep
  · cases hstep
  · split at hstep
    · exact ⟨_, ‹_›⟩
    · cases hstep

/-- The callback of the program on the stack of loop `l` returns: the action makes calls on the
thread of the loop, settles at most its own future, and returns or throws. -/
theorem step_ret_updates (huv : uv.Ok) (h : w.Inv) {l : LoopId} {r : CallbackReturn V}
    {w' : World V} (hstep : step uv w (.ret l r) = some w') :
    ∃ a s, w.running l = some a ∧ (w.left l).Updates (Thread.ofLoop l) (· = a) s ∧
      (w' = { s with closing := s.closing ++ [a] } ∨
        ∃ e, Exn.Expected (some r) e ∧ w' = { s with aborted := some e }) := by
  obtain ⟨a, hl⟩ := step_ret_enabled hstep
  obtain ⟨hacc, rfl⟩ := step_ret_callback h hl hstep
  obtain ⟨-, r', hx, -⟩ := h.running l a hl
  have hfresh : ∀ n, n = .relayThen a ∨ n = .relayError a → n ∉ w.created := by
    rintro n (rfl | rfl) hn
    · exact (h.created_relay a (.inl hn)).2 l hl
    · exact (h.created_relay a (.inr hn)).2 l hl
  have hmakes := ActionCallback.callFnReturn_makes huv (h.left l) (Thread.ofLoop l)
    (World.mem_executedIds hx) (h.left_not_running hl) (hfresh _ (.inl rfl))
    (hfresh _ (.inr rfl)) hacc (w.left l) rfl
  refine ⟨a, ?_⟩
  rw [World.callback, EStateM.run_bind]
  cases hd : (ActionCallback.callFnReturn uv (Thread.ofLoop l) a r).run (w.left l) with
  | error e s =>
    rw [hd] at hmakes
    exact ⟨s, hl, hmakes.1, .inr ⟨e, hmakes.2, rfl⟩⟩
  | ok _ s =>
    rw [hd] at hmakes
    exact ⟨s, hl, hmakes, .inl rfl⟩

/-- The callback of the program on the stack of loop `l` returns: the action makes calls and returns
or throws. -/
theorem step_ret (huv : uv.Ok) (h : w.Inv) {l : LoopId} {r : CallbackReturn V} {w' : World V}
    (hstep : step uv w (.ret l r) = some w') :
    ∃ a s, w.running l = some a ∧ (w.left l).Called s ∧
      (w' = { s with closing := s.closing ++ [a] } ∨ ∃ e, w' = { s with aborted := some e }) := by
  obtain ⟨a, s, hl, hu, hend⟩ := step_ret_updates huv h hstep
  refine ⟨a, s, hl, hu.called (h.left l), hend.imp_right ?_⟩
  rintro ⟨e, -, hw⟩
  exact ⟨e, hw⟩

/-- The action after its handle is closed. -/
def Action.closed (act : Action V) : Action V :=
  { act with data := false, inst := false, instanceNum := 0, resolver := none }

/-- The state after the handle of `a` is closed. -/
def World.closed (w : World V) (a : NodeId) : World V :=
  { w.setAction a (w.action a).closed with closing := w.closing.erase a }

/-- The close callback of an action in flight. -/
theorem AsyncBase.AsyncClosed_run {a : NodeId} {r : FutureSharedResolver V}
    (hs : (w.action a).Sent r) :
    (AsyncBase.AsyncClosed a).run { w with closing := w.closing.erase a } =
      .ok () (w.closed a) := by
  simp only [AsyncBase.AsyncClosed, AsyncBase.decreaseInstance, ActionCallbackBase.closeAsync,
    nnativeAssert, modifyAction, World.setAction, EStateM.run_bind, EStateM.run_get,
    EStateM.run_modify, EStateM.run_pure, Function.update_self, Function.update_idem, hs.data,
    hs.inst, hs.instanceNum, hs.resolver, if_true, Nat.one_ne_zero, if_false, Nat.sub_self,
    Option.isSome_some]
  rfl

/-- Closing a handle keeps the invariant: the action is idle again, and stays executed. -/
theorem World.Inv.closed (h : w.Inv) {a : NodeId} (ha : a ∈ w.closing) : (w.closed a).Inv := by
  obtain ⟨⟨r, hx, -⟩, hrun⟩ := h.closing a ha
  have hxa := World.mem_executedIds hx
  have hact : ∀ b, b ≠ a → (w.closed a).action b = w.action b := by
    intro b hb
    simp [World.closed, World.setAction, hb]
  have hcb : ∀ b, ((w.closed a).action b).f = (w.action b).f := by
    intro b
    by_cases hb : b = a
    · subst hb; simp [World.closed, World.setAction, Action.closed]
    · rw [hact b hb]
  have hp : ∀ b ∈ w.pending, b ≠ a := fun b hb hba => h.not_executed b hb (hba ▸ hxa)
  exact
    { h with
      idle := fun b hb hbx => by
        have hba : b ≠ a := fun hba => hbx (hba ▸ hxa)
        rw [hact b hba]
        exact h.idle b hb hbx
      sent := fun b hb => by
        rw [hact b (hp b hb)]
        exact h.sent b hb
      delivered := fun g b r' hb hg => by
        rcases h.delivered g b r' hb hg with ⟨hbp, hbr⟩ | hbx
        · refine .inl ⟨hbp, ?_⟩
          rwa [hact b (hp b hbp)]
        · exact .inr hbx
      running := fun l b hl => by
        have hba : b ≠ a := fun hba => hrun l (hba ▸ hl)
        rw [hact b hba]
        exact h.running l b hl
      closing_nodup := h.closing_nodup.erase a
      closing := fun b hb => by
        obtain ⟨hba, hb⟩ := h.closing_nodup.mem_erase_iff.1 hb
        rw [hact b hba]
        exact h.closing b hb
      push := fun b g c hb => h.push b g c (hcb b ▸ hb)
      relay := fun b d hb => h.relay b d (hcb b ▸ hb) }

/-- A closing handle is closed. -/
theorem step_close (h : w.Inv) {a : NodeId} {w' : World V}
    (hstep : step uv w (.close a) = some w') : a ∈ w.closing ∧ w' = w.closed a := by
  simp only [step] at hstep
  split at hstep
  · cases hstep
  · split at hstep
    · rename_i hcond
      simp only [Bool.and_eq_true, List.contains_eq_mem, decide_eq_true_eq] at hcond
      obtain ⟨⟨r, -, hs⟩, -⟩ := h.closing a hcond.1
      rw [World.callback, AsyncBase.AsyncClosed_run hs] at hstep
      exact ⟨hcond.1, (Option.some.inj hstep).symm⟩
    · cases hstep

/-- Creating a promise. -/
theorem step_promise {n : Nat} {l : LoopId} {isVoid : Bool} {w' : World V}
    (hstep : step uv w (.promise n l isVoid) = some w') :
    .user n ∉ w.created ∧ w' = w.createFuture (.user n) l isVoid := by
  simp only [step] at hstep
  split at hstep
  · cases hstep
  · split at hstep
    · cases hstep
    · rename_i hn
      exact ⟨by simpa using hn, (Option.some.inj hstep).symm⟩

/-- `async` creates and sends its action. -/
theorem step_async (huv : uv.Ok) {l : LoopId} {n : Nat} {R : RetType} {w' : World V}
    (hstep : step uv w (.async l n R) = some w') :
    .user n ∉ w.created ∧ w' = w.asynced l (.user n) R .user := by
  simp only [step] at hstep
  split at hstep
  · cases hstep
  · split at hstep
    · cases hstep
    · rename_i hn
      rw [World.call, async_run huv] at hstep
      exact ⟨by simpa using hn, (Option.some.inj hstep).symm⟩

/-- Resolving calls `settle` with a value of the future's type. -/
theorem step_resolve {t : Thread} {f : NodeId} {p : Option V} {w' : World V}
    (hstep : step uv w (.resolve t f p) = some w') :
    f ∈ w.created ∧ w' = w.call (FutureShared.settle uv t f (.value p)) := by
  simp only [step] at hstep
  split at hstep
  · cases hstep
  · split at hstep
    · rename_i hf
      simp only [Bool.and_eq_true, List.contains_eq_mem, decide_eq_true_eq] at hf
      exact ⟨hf.1, (Option.some.inj hstep).symm⟩
    · cases hstep

/-- Rejecting calls `settle` with an error. -/
theorem step_reject {t : Thread} {f : NodeId} {e : FutureError} {w' : World V}
    (hstep : step uv w (.reject t f e) = some w') :
    f ∈ w.created ∧ w' = w.call (FutureShared.settle uv t f (.error e)) := by
  simp only [step] at hstep
  split at hstep
  · cases hstep
  · split at hstep
    · rename_i hf
      exact ⟨by simpa using hf, (Option.some.inj hstep).symm⟩
    · cases hstep

/-- `then` registers a new action of the class of its source. -/
theorem step_thenCb (huv : uv.Ok) {t : Thread} {f : NodeId} {n : Nat} {R : RetType}
    {w' : World V} (hstep : step uv w (.thenCb t f n R) = some w') :
    f ∈ w.created ∧ .user n ∉ w.created ∧
      w' = w.registered t f (.user n) ((w.futures f).thenClass R) .user := by
  simp only [step] at hstep
  split at hstep
  · cases hstep
  · split at hstep
    · rename_i hc
      rw [World.call, FutureShared.thenCb_run huv] at hstep
      simp only [Bool.and_eq_true, List.contains_eq_mem, decide_eq_true_eq, Bool.not_eq_true',
        decide_eq_false_iff_not] at hc
      exact ⟨hc.1, hc.2, (Option.some.inj hstep).symm⟩
    · cases hstep

/-- `error` registers a new action of the class of its source. -/
theorem step_errorCb (huv : uv.Ok) {t : Thread} {f : NodeId} {n : Nat} {w' : World V}
    (hstep : step uv w (.errorCb t f n) = some w') :
    f ∈ w.created ∧ .user n ∉ w.created ∧
      w' = w.registered t f (.user n) (w.futures f).errorClass .user := by
  simp only [step] at hstep
  split at hstep
  · cases hstep
  · split at hstep
    · rename_i hc
      rw [World.call, FutureShared.errorCb_run huv] at hstep
      simp only [Bool.and_eq_true, List.contains_eq_mem, decide_eq_true_eq, Bool.not_eq_true',
        decide_eq_false_iff_not] at hc
      exact ⟨hc.1, hc.2, (Option.some.inj hstep).symm⟩
    · cases hstep

/-- `finally` registers a new action of the class of its source. -/
theorem step_finallyCb (huv : uv.Ok) {t : Thread} {f : NodeId} {n : Nat} {R : RetType}
    {w' : World V} (hstep : step uv w (.finallyCb t f n R) = some w') :
    f ∈ w.created ∧ .user n ∉ w.created ∧
      w' = w.registered t f (.user n) ((w.futures f).finallyClass R) .user := by
  simp only [step] at hstep
  split at hstep
  · cases hstep
  · split at hstep
    · rename_i hc
      rw [World.call, FutureShared.finallyCb_run huv] at hstep
      simp only [Bool.and_eq_true, List.contains_eq_mem, decide_eq_true_eq, Bool.not_eq_true',
        decide_eq_false_iff_not] at hc
      exact ⟨hc.1, hc.2, (Option.some.inj hstep).symm⟩
    · cases hstep

/-- A call of the program, on any thread, inside or outside a callback. -/
def Label.IsCall : Label V → Prop
  | .fire _ | .close _ | .ret _ _ => False
  | _ => True

/-- The futures that a call of the program settles. -/
def Label.Settles : Label V → NodeId → Prop
  | .resolve _ f _, g | .reject _ f _, g => g = f
  | _, _ => False

/-- The state after a call of code that makes updates. -/
theorem World.Makes.call {t : Thread} {may : NodeId → Prop} {x : M V Unit} {E : Exn → Prop}
    (hx : w.Makes t may (w.Updates t may) x E) : w.Updates t may (w.call x) := by
  have := hx w .refl
  unfold World.call
  cases hr : x.run w with
  | ok _ s => rwa [hr] at this
  | error _ s => rw [hr] at this; exact this.1

/-- A call of the program makes calls of the API on its thread and nothing else. -/
theorem step_call_updates (huv : uv.Ok) (h : w.Inv) {lab : Label V} (hlab : lab.IsCall)
    {w' : World V} (hstep : step uv w lab = some w') : ∃ t, w.Updates t lab.Settles w' := by
  have hreg : ∀ t f n cls, f ∈ w.created → .user n ∉ w.created →
      w.Updates t lab.Settles (w.registered t f (.user n) cls .user) := fun t f n cls hf hn =>
    .registered .refl hf hn cls (by simp) (by simp) (by simp) (by simp)
  have hset : ∀ t f r, f ∈ w.created → lab.Settles f →
      w.Updates t lab.Settles (w.call (FutureShared.settle uv t f r)) := by
    intro t f r hf hmay
    have hmakes : w.Makes t lab.Settles (w.Updates t lab.Settles) (FutureShared.settle uv t f r)
        (Exn.Expected none) := FutureShared.settle_makes huv h hf hmay r
    exact hmakes.call
  cases lab with
  | promise n l isVoid =>
    obtain ⟨hn, rfl⟩ := step_promise hstep
    exact ⟨Thread.ofLoop l, .promise .refl hn l isVoid⟩
  | resolve t f p =>
    obtain ⟨hf, rfl⟩ := step_resolve hstep
    exact ⟨t, hset t f _ hf rfl⟩
  | reject t f e =>
    obtain ⟨hf, rfl⟩ := step_reject hstep
    exact ⟨t, hset t f _ hf rfl⟩
  | thenCb t f n R =>
    obtain ⟨hf, hn, rfl⟩ := step_thenCb huv hstep
    exact ⟨t, hreg t f n _ hf hn⟩
  | errorCb t f n =>
    obtain ⟨hf, hn, rfl⟩ := step_errorCb huv hstep
    exact ⟨t, hreg t f n _ hf hn⟩
  | finallyCb t f n R =>
    obtain ⟨hf, hn, rfl⟩ := step_finallyCb huv hstep
    exact ⟨t, hreg t f n _ hf hn⟩
  | async l n R =>
    obtain ⟨hn, rfl⟩ := step_async huv hstep
    exact ⟨Thread.ofLoop l, .asynced .refl hn l R⟩
  | fire a => exact hlab.elim
  | close a => exact hlab.elim
  | ret l r => exact hlab.elim

/-- A call of the program makes calls of the API and nothing else. -/
theorem step_call (huv : uv.Ok) (h : w.Inv) {lab : Label V} (hlab : lab.IsCall) {w' : World V}
    (hstep : step uv w lab = some w') : w.Called w' := by
  obtain ⟨t, hu⟩ := step_call_updates huv h hlab hstep
  exact hu.called h

/-! ## Steps and runs -/

/-- What a step keeps: all that updates, the execution of the action that fires and the close of the
handle that is closed keep, if it does not depend on the callbacks on the stack, the closing handles
and the exception that ended the process. -/
theorem step_keeps (huv : uv.Ok) (h : w.Inv) {I : World V → Prop}
    (hframe : ∀ (s : World V) closing running aborted, I s →
      I { s with closing := closing, running := running, aborted := aborted })
    (hupdates : ∀ {t : Thread} {may : NodeId → Prop} {s s' : World V}, s.Inv → I s →
      s.Updates t may s' → I s')
    {lab : Label V} (hstarted : ∀ a r, lab = .fire a → I (w.started a r))
    (hclosed : ∀ a, lab = .close a → I (w.closed a)) (hI : I w) {w' : World V}
    (hstep : step uv w lab = some w') : I w' := by
  have hcall : lab.IsCall → I w' := by
    intro hlab
    obtain ⟨t, hu⟩ := step_call_updates huv h hlab hstep
    exact hupdates h hI hu
  cases lab with
  | fire a =>
    obtain ⟨r, -, -, hinv, hcases⟩ := step_fire_updates huv h hstep
    have hs := hstarted a r rfl
    rcases hcases with ⟨rfl, -⟩ | ⟨s, hu, rfl | ⟨e, -, rfl⟩⟩
    · exact hframe _ _ _ _ hs
    · exact hframe s _ s.running s.aborted (hupdates hinv hs hu)
    · exact hframe s s.closing s.running _ (hupdates hinv hs hu)
  | close a =>
    obtain ⟨-, rfl⟩ := step_close h hstep
    exact hclosed a rfl
  | ret l r =>
    obtain ⟨a, s, -, hu, rfl | ⟨e, -, rfl⟩⟩ := step_ret_updates huv h hstep
    · exact hframe s _ s.running s.aborted (hupdates (h.left l) (hframe w _ _ _ hI) hu)
    · exact hframe s s.closing s.running _ (hupdates (h.left l) (hframe w _ _ _ hI) hu)
  | promise n l isVoid => exact hcall trivial
  | resolve t f p => exact hcall trivial
  | reject t f e => exact hcall trivial
  | thenCb t f n R => exact hcall trivial
  | errorCb t f n => exact hcall trivial
  | finallyCb t f n R => exact hcall trivial
  | async l n R => exact hcall trivial

/-- Closing a handle changes neither the loop nor the callback of an action. -/
theorem World.closed_action (w : World V) (a b : NodeId) :
    ((w.closed a).action b).loop = (w.action b).loop ∧
      ((w.closed a).action b).f = (w.action b).f := by
  show ((w.setAction a (w.action a).closed).action b).loop = _ ∧
    ((w.setAction a (w.action a).closed).action b).f = _
  rw [World.setAction_action]
  split
  · rename_i hb
    rw [hb]
    exact ⟨rfl, rfl⟩
  · exact ⟨rfl, rfl⟩

/-- The entry for an action in flight is kept when the handle fires. -/
theorem World.Extends.started (w : World V) (a : NodeId) (r : FutureSharedResolver V) :
    w.Extends (w.started a r) :=
  ⟨fun _ h => h, fun _ _ h => h, fun _ _ h => h, fun _ h => List.mem_append_left _ h,
    fun _ _ => ⟨rfl, rfl, rfl⟩, fun _ _ => ⟨rfl, rfl⟩⟩

/-- Closing a handle extends the state. -/
theorem World.Extends.closed (w : World V) (a : NodeId) : w.Extends (w.closed a) where
  created _ h := h
  resolver _ _ h := h
  actions _ _ h := h
  executed _ h := h
  action b _ := by
    by_cases hb : b = a
    · subst hb; simp [World.closed, World.setAction, Action.closed]
    · simp [World.closed, World.setAction, hb]
  future _ _ := ⟨rfl, rfl⟩

/-- Every step keeps the invariant and extends the state. -/
theorem step_inv (huv : uv.Ok) (h : w.Inv) {lab : Label V} {w' : World V}
    (hstep : step uv w lab = some w') : w'.Inv ∧ w.Extends w' := by
  have hcall : lab.IsCall → w'.Inv ∧ w.Extends w' := fun hlab =>
    have hc := step_call huv h hlab hstep
    ⟨hc.inv, hc.extend⟩
  cases lab with
  | fire a =>
    obtain ⟨r, hp, hs, hinv, hcases⟩ := step_fire huv h hstep
    have hext := World.Extends.started w a r
    have hx : (a, r) ∈ (w.started a r).executed := List.mem_append_right _ (by simp)
    have hnx : a ∉ w.executedIds := h.not_executed a hp
    have hclosing : a ∉ w.closing := by
      intro hc
      obtain ⟨⟨r', hx', -⟩, -⟩ := h.closing a hc
      exact hnx (World.mem_executedIds hx')
    have hnrun : ∀ l, w.running l ≠ some a := by
      intro l hl
      obtain ⟨-, r', hx', -⟩ := h.running l a hl
      exact hnx (World.mem_executedIds hx')
    rcases hcases with ⟨rfl, -⟩ | ⟨s, hc, hend⟩
    · refine ⟨hinv.entered hx hs hclosing ⟨?_, ?_⟩, { hext with }⟩
      · exact fun hc => hnx (h.created_relay a (.inl hc)).1
      · exact fun hc => hnx (h.created_relay a (.inr hc)).1
    · have hext' : w.Extends s := hext.trans hc.extend
      rcases hend with rfl | ⟨e, rfl⟩
      · have hcl := hc.inv.uvClosed (a := a) (r := r) ?_ ?_ ?_ ?_
        · exact ⟨hcl, { hext' with }⟩
        · rw [hc.executed]
          exact hx
        · rw [hc.action a (.inr (World.mem_executedIds hx))]
          exact hs
        · rw [hc.running]
          exact hnrun
        · rw [hc.closing]
          exact hclosing
      · exact ⟨{ hc.inv with }, { hext' with }⟩
  | close a =>
    obtain ⟨ha, rfl⟩ := step_close h hstep
    exact ⟨h.closed ha, .closed w a⟩
  | ret l r =>
    obtain ⟨a, s, hl, hc, hend⟩ := step_ret huv h hstep
    have hext : w.Extends (w.left l) := { World.Extends.refl w with }
    have hext' := hext.trans hc.extend
    obtain ⟨hloop, r', hx, hs⟩ := h.running l a hl
    rcases hend with rfl | ⟨e, rfl⟩
    · have hcl := hc.inv.uvClosed (a := a) (r := r') ?_ ?_ ?_ ?_
      · exact ⟨hcl, { hext' with }⟩
      · rw [hc.executed]
        exact hx
      · rw [hc.action a (.inr (World.mem_executedIds hx))]
        exact hs
      · rw [hc.running]
        exact h.left_not_running hl
      · rw [hc.closing]
        exact fun hmem => (h.closing a hmem).2 l hl
    · exact ⟨{ hc.inv with }, { hext' with }⟩
  | promise n l isVoid => exact hcall trivial
  | resolve t f p => exact hcall trivial
  | reject t f e => exact hcall trivial
  | thenCb t f n R => exact hcall trivial
  | errorCb t f n => exact hcall trivial
  | finallyCb t f n R => exact hcall trivial
  | async l n R => exact hcall trivial

/-- The invariant holds at the start. -/
theorem World.Inv.init : (World.init : World V).Inv := by
  constructor <;> simp [World.init, World.executedIds]
  intros
  exact ⟨rfl, rfl, rfl, rfl⟩

/-- Every run keeps the invariant. -/
theorem run_inv (huv : uv.Ok) {ls : List (Label V)} {w' : World V} (h : w.Inv)
    (hrun : Transition.run (step uv) w ls = some w') : w'.Inv :=
  Transition.run_invariant (fun _ _ _ hs hstep => (step_inv huv hs hstep).1) h hrun

/-- Every run extends the state. -/
theorem run_extends (huv : uv.Ok) {ls : List (Label V)} {w' : World V} (h : w.Inv)
    (hrun : Transition.run (step uv) w ls = some w') : w.Extends w' := by
  have hstep : ∀ s lab s', s.Inv ∧ w.Extends s → step uv s lab = some s' →
      s'.Inv ∧ w.Extends s' := by
    rintro s lab s' ⟨hs, hext⟩ hst
    obtain ⟨hs', hext'⟩ := step_inv huv hs hst
    exact ⟨hs', hext.trans hext'⟩
  exact (Transition.run_invariant hstep ⟨h, .refl w⟩ hrun).2

end

end NodeNative
