import NodeNative.Base.Closing
import NodeNative.Async.Relays

/-!
# The callbacks behind the closing of a handle

`close().then(...)` chains a callback to the future that `close` returns. The callbacks chained before
that of `uv_close` (`requests`) are called when it has resolved its promise, each of them once
(`answers`). Those chained later belong to a promise that nothing resolves and are not called.
-/

namespace NodeNative.Base

section
variable {ι V : Type} [DecidableEq ι]

/-- The callbacks chained to the closing of `h`, but for those on the promise that the callback of
`uv_close` has put in place. -/
def Handles.continuations (s : Handles ι V) (h : ι) : List NodeId :=
  (s.thens.filter fun x => x.1 = h ∧
    ¬ ((s.handle h).closed = true ∧ x.2.1 = (s.handle h).closingPromise)).map fun x => x.2.2

/-- How many callbacks were chained to the closing of `h` in time. -/
def Handles.requests (s : Handles ι V) (h : ι) : Nat := (s.continuations h).length

/-- How many of them were called. -/
def Handles.answers (s : Handles ι V) (h : ι) : Nat :=
  s.world.executedIds.countP fun a => a ∈ s.continuations h

/-- The step chains a callback to the closing of `h` before the callback of `uv_close`. -/
def Chains (h : ι) (s : Handles ι V) : HandleLabel ι V → Prop
  | .closeThen t h' _ => h' = h ∧ t (s.handle h').loop = true ∧ (s.handle h').closed = false
  | _ => False

section
variable {uv : UvAsync} {inst : ι → V} {s s' : Handles ι V} {h : ι} {lab : HandleLabel ι V}

omit [DecidableEq ι] in
/-- A new promise is a call of the core, -/
theorem createFuture_called {w : World V} (huv : uv.Ok) (habort : w.aborted = none) (hinv : w.Inv)
    (l : LoopId) : w.Called (w.createFuture (.user (fresh w)) l false) := by
  have hcall : (Label.promise (fresh w) l false : Label V).IsCall := trivial
  exact step_call huv hinv hcall (step_promise_eq habort l)

/-- and so are `close`, -/
theorem Handles.asked_called (huv : uv.Ok) (habort : s.world.aborted = none) (hinv : s.world.Inv)
    (h : ι) : s.world.Called (s.asked h).world := by
  show s.world.Called (s.requested h).world
  unfold Handles.requested
  split
  · exact .refl hinv
  · exact createFuture_called huv habort hinv _

omit [DecidableEq ι] in
/-- the chaining of a callback to its future, -/
theorem Handles.Inv.chained_called (huv : uv.Ok) (habort : s.world.aborted = none) (hs : s.Inv inst)
    (hh : h ∈ s.created) (t : Thread) (R : RetType) : s.world.Called (s.chained t h R).world := by
  have hcall : (Label.thenCb t (s.handle h).closingPromise (fresh s.world) R : Label V).IsCall := trivial
  exact step_call huv hs.world hcall
    (step_then_eq huv habort (hs.handle h hh).promise.passive.created t R)

/-- and the callback of `uv_close`. -/
theorem Handles.Inv.ended_called (huv : uv.Ok) (habort : s.world.aborted = none) (hs : s.Inv inst)
    (hh : h ∈ s.created) : s.world.Called (s.ended inst h).world := by
  have hcall : (Label.resolve (Thread.ofLoop (s.handle h).loop) (s.handle h).closingPromise
      (some (inst h)) : Label V).IsCall := trivial
  have hresolve := step_resolve_eq huv habort hs.world (hs.handle h hh).promise (inst h)
  have hcalled := step_call huv hs.world hcall hresolve
  exact hcalled.trans (createFuture_called huv (hcalled.aborted.trans habort) hcalled.inv _)

/-- A step is one of the core, or makes calls. -/
theorem HandleStep.called (huv : uv.Ok) (habort : s.world.aborted = none) (hs : s.Inv inst)
    (hstep : HandleStep uv inst s lab s') : (∃ clab, lab = .core clab) ∨ s.world.Called s'.world := by
  cases hstep with
  | core => exact .inl ⟨_, rfl⟩
  | refusedCreate | refused | refusedThen => exact .inr (.refl hs.world)
  | create => exact .inr (createFuture_called huv habort hs.world _)
  | close => exact .inr (Handles.asked_called huv habort hs.world _)
  | @closeThen t h R hh ht =>
    have hasked := Handles.asked_called huv habort hs.world h
    have hcreated : h ∈ (s.asked h).created := (s.requested_created h).symm ▸ hh
    have hthen := (hs.asked huv habort hh).chained_called huv (hasked.aborted.trans habort) hcreated t R
    exact .inr (hasked.trans hthen)
  | closed hh => exact .inr (hs.ended_called huv habort hh)

/-! ### The chained callbacks -/

/-- A callback of the program that is called with a value. -/
structure IsThen (act : Action V) : Prop where
  user : act.f = .user
  called : ∀ p : Option V, act.cls.passes (.value p) = false

/-- Each of the callbacks is chained once, and runs on the loop of its handle. -/
structure Handles.Continued (inst : ι → V) (s : Handles ι V) : Prop extends s.Inv inst where
  nodup : (s.thens.map fun x => x.2.2).Nodup
  action : ∀ h f a, (h, f, a) ∈ s.thens → IsThen (s.world.action a)
  loop : ∀ h f a, (h, f, a) ∈ s.thens → (s.world.action a).loop = (s.handle h).loop

omit [DecidableEq ι] in
/-- The actions of the chained callbacks exist. -/
theorem Handles.Continued.thens_created (hs : s.Continued inst) {f a : NodeId}
    (ha : (h, f, a) ∈ s.thens) : a ∈ s.world.created :=
  hs.world.created_actions f a (hs.thens h f a ha).2

/-- A callback of the program stays one, -/
theorem IsThen.of_extends {w w' : World V} {a : NodeId} (h : IsThen (w.action a)) (hext : w.Extends w')
    (ha : a ∈ w.created) : IsThen (w'.action a) := by
  obtain ⟨-, hcls, hf⟩ := hext.action a ha
  exact ⟨hf.trans h.user, hcls ▸ h.called⟩

/-- and a new one is chained as one. -/
theorem registered_isThen (w : World V) (t : Thread) (f a : NodeId) (R : RetType) :
    IsThen ((w.registered t f a ((w.futures f).thenClass R) .user).action a) := by
  obtain ⟨-, hcls, hf⟩ := w.registered_action t f a ((w.futures f).thenClass R) .user
  refine ⟨hf, fun p => ?_⟩
  rw [hcls, FutureShared.thenClass]
  split <;> rfl

/-- A step keeps what the core has, and adds to it. -/
theorem HandleStep.extends (huv : uv.Ok) (habort : s.world.aborted = none) (hs : s.Inv inst)
    (hstep : HandleStep uv inst s lab s') : s.world.Extends s'.world := by
  rcases hstep.called huv habort hs with ⟨clab, rfl⟩ | hcalled
  · cases hstep with
    | core _ hcore => exact (step_inv huv hs.world hcore).2
  · exact hcalled.extend

@[simp] theorem Handles.requested_thens (s : Handles ι V) (h : ι) : (s.requested h).thens = s.thens := by
  unfold Handles.requested
  split <;> rfl

/-- A step chains a new callback, or none. -/
theorem HandleStep.thens (hstep : HandleStep uv inst s lab s') : s'.thens = s.thens ∨
    ∃ t h R, lab = .closeThen t h R ∧ h ∈ s.created ∧ s' = (s.asked h).chained t h R := by
  cases hstep with
  | core | refusedCreate | refused | refusedThen | create | closed => exact .inl rfl
  | close => exact .inl (s.requested_thens _)
  | closeThen hh => exact .inr ⟨_, _, _, rfl, hh, rfl⟩

/-- Only its constructor creates a handle. -/
theorem HandleStep.created_eq (hstep : HandleStep uv inst s lab s')
    (hlab : ∀ t h l, lab ≠ .create t h l) : s'.created = s.created := by
  cases hstep with
  | core | refusedCreate | refused | refusedThen | closed => rfl
  | create => exact absurd rfl (hlab _ _ _)
  | close => exact s.requested_created _
  | closeThen => exact s.requested_created _

/-- On the thread of the loop it does, when the name is new. -/
theorem HandleStep.create_eq {t : Thread} {l : LoopId} (hstep : HandleStep uv inst s (.create t h l) s')
    (ht : t l = true) : h ∉ s.created ∧ s' = s.made h l := by
  cases hstep with
  | refusedCreate ht' =>
    rw [ht] at ht'
    cases ht'
  | create hnew => exact ⟨hnew, rfl⟩

/-- A handle stays on its loop. -/
theorem HandleStep.loop (hstep : HandleStep uv inst s lab s') (hh : h ∈ s.created) :
    h ∈ s'.created ∧ (s'.handle h).loop = (s.handle h).loop := by
  have hasked : ∀ h', ((s.asked h').handle h).loop = (s.handle h).loop := by
    intro h'
    rcases eq_or_ne h h' with rfl | hne
    · exact s.requested_loop h
    · exact congrArg Handle.loop (Handles.requested_handle_of_ne hne)
  cases hstep with
  | core | refusedCreate | refused | refusedThen => exact ⟨hh, rfl⟩
  | create hnew =>
    have hne := ne_of_mem_of_not_mem hh hnew
    exact ⟨List.mem_append_left _ hh, congrArg Handle.loop (Handles.made_handle_of_ne hne)⟩
  | close => exact ⟨(s.requested_created _).symm ▸ hh, hasked _⟩
  | closeThen => exact ⟨(s.requested_created _).symm ▸ hh, hasked _⟩
  | @closed h' =>
    refine ⟨hh, ?_⟩
    rcases eq_or_ne h h' with rfl | hne
    · simp [Handles.ended, Handles.renew]
    · exact congrArg Handle.loop (Handles.ended_handle_of_ne hne)

/-- Every step keeps what holds of the chained callbacks. -/
theorem Handles.Continued.step (huv : uv.Ok) (habort : s.world.aborted = none) (hs : s.Continued inst)
    (hstep : HandleStep uv inst s lab s') : s'.Continued inst := by
  have hs' := hs.toInv.step huv habort hstep
  have hext := hstep.extends huv habort hs.toInv
  have hold : ∀ h f a, (h, f, a) ∈ s.thens → IsThen (s'.world.action a) :=
    fun h f a ha => (hs.action h f a ha).of_extends hext (hs.thens_created ha)
  have hloop : ∀ h f a, (h, f, a) ∈ s.thens → (s'.world.action a).loop = (s'.handle h).loop := by
    intro h f a ha
    have hh := hs.returned h f (hs.thens h f a ha).1
    rw [(hext.action a (hs.thens_created ha)).1, (hstep.loop hh).2, hs.loop h f a ha]
  rcases hstep.thens with hthens | ⟨t, h, R, rfl, hh, rfl⟩
  · exact ⟨hs', hthens ▸ hs.nodup, fun h f a ha => hold h f a (hthens ▸ ha),
      fun h f a ha => hloop h f a (hthens ▸ ha)⟩
  · have hasked := Handles.asked_called huv habort hs.world h
    have hthens : ((s.asked h).chained t h R).thens = s.thens ++
        [(h, ((s.asked h).handle h).closingPromise, .user (fresh (s.asked h).world))] :=
      congrArg (· ++ _) (s.requested_thens h)
    refine ⟨hs', ?_, fun h' f a ha => ?_, fun h' f a ha => ?_⟩
    · rw [hthens, List.map_append]
      refine hs.nodup.append (List.nodup_singleton _) (List.disjoint_singleton.mpr fun hmem => ?_)
      obtain ⟨⟨h', f, a⟩, ha, rfl⟩ := List.mem_map.mp hmem
      exact fresh_notMem (s.asked h).world (hasked.extend.created _ (hs.thens_created ha))
    · rw [hthens] at ha
      rcases List.mem_append.mp ha with ha | ha
      · exact hold h' f a ha
      · cases List.mem_singleton.mp ha
        exact registered_isThen ..
    · rw [hthens] at ha
      rcases List.mem_append.mp ha with ha | ha
      · exact hloop h' f a ha
      · cases List.mem_singleton.mp ha
        have hinv := (hs.toInv.asked huv habort hh).handle h ((s.requested_created h).symm ▸ hh)
        exact (World.registered_action ..).1.trans hinv.promise.future.1

/-- A callback was chained in time, with the future that it was chained to. -/
theorem Handles.mem_continuations {a : NodeId} : a ∈ s.continuations h ↔ ∃ f, (h, f, a) ∈ s.thens ∧
    ¬ ((s.handle h).closed = true ∧ f = (s.handle h).closingPromise) := by
  unfold Handles.continuations
  constructor
  · intro ha
    obtain ⟨⟨h', f, a⟩, hx, rfl⟩ := List.mem_map.mp ha
    obtain ⟨hmem, hcond⟩ := List.mem_filter.mp hx
    obtain ⟨rfl, hopen⟩ := of_decide_eq_true hcond
    exact ⟨f, hmem, hopen⟩
  · rintro ⟨f, hx, hopen⟩
    exact List.mem_map.mpr ⟨(h, f, a), List.mem_filter.mpr ⟨hx, decide_eq_true ⟨rfl, hopen⟩⟩, rfl⟩

/-- Which callbacks were chained in time is up to the handle and to what was chained. -/
theorem Handles.continuations_congr (hthens : s'.thens = s.thens) (hhandle : s'.handle h = s.handle h) :
    s'.continuations h = s.continuations h := by
  unfold Handles.continuations
  rw [hthens, hhandle]

/-- Before the callback of `uv_close` every callback is chained in time. -/
theorem Handles.continuations_of_open (hclosed : (s.handle h).closed = false) :
    s.continuations h = (s.thens.filter fun x => x.1 = h).map fun x => x.2.2 := by
  simp [Handles.continuations, hclosed]

/-- The promise put in place by the callback of `uv_close` has no callbacks yet. -/
theorem Handles.continuations_renew (s : Handles ι V)
    (hcreated : ∀ f a, (h, f, a) ∈ s.thens → f ∈ s.world.created) {k : Handle} :
    (s.renew h k).continuations h = (s.thens.filter fun x => x.1 = h).map fun x => x.2.2 := by
  unfold Handles.continuations
  refine congrArg _ (List.filter_congr fun x hx => decide_eq_decide.mpr ?_)
  refine and_iff_left_of_imp ?_
  rintro rfl ⟨-, hf⟩
  have hpromise : ((s.renew x.1 k).handle x.1).closingPromise = .user (fresh s.world) := by
    simp [Handles.renew]
  exact fresh_notMem s.world (hpromise ▸ hf ▸ hcreated x.2.1 x.2.2 hx)

omit [DecidableEq ι] in
/-- A handle that is not closing is not closed. -/
theorem Handles.Inv.closed_of_not_closing (hs : s.Inv inst) (hclosing : (s.handle h).isClosing = false) :
    (s.handle h).closed = false := by
  refine Bool.eq_false_iff.mpr fun hclosed => ?_
  rw [(hs.handle h (hs.created_of_closed hclosed)).closing hclosed] at hclosing
  cases hclosing

/-- A call of `close` chains nothing. -/
theorem Handles.Inv.asked_continuations (hs : s.Inv inst) (h h' : ι) :
    (s.asked h').continuations h = s.continuations h := by
  show (s.requested h').continuations h = _
  rcases eq_or_ne h' h with rfl | hne
  · cases hclosing : (s.handle h').isClosing with
    | true => rw [Handles.requested, if_pos hclosing]
    | false =>
      have hopen := hs.closed_of_not_closing hclosing
      have hopen' := (s.requested_closed h').trans hopen
      rw [Handles.continuations_of_open hopen, Handles.continuations_of_open hopen', s.requested_thens]
  · exact Handles.continuations_congr (s.requested_thens h') (Handles.requested_handle_of_ne hne.symm)

/-- A callback is chained in time when the handle is not closed. -/
theorem Handles.chained_continuations (s : Handles ι V) (t : Thread) (h h' : ι) (R : RetType) :
    (s.chained t h' R).continuations h = s.continuations h ++
      if h' = h ∧ (s.handle h).closed = false then [.user (fresh s.world)] else [] := by
  rw [Handles.continuations, Handles.chained, List.filter_append, List.map_append]
  refine congrArg _ ?_
  rcases eq_or_ne h' h with rfl | hne
  · cases (s.handle h').closed <;> simp
  · simp [hne]

/-- What a step does to the callbacks of a handle. -/
theorem Handles.Continued.continuations_step (huv : uv.Ok) (habort : s.world.aborted = none)
    (hs : s.Continued inst) (hstep : HandleStep uv inst s lab s') (h : ι) :
    (Chains h s lab → ∃ a, a ∉ s.world.created ∧ s'.continuations h = s.continuations h ++ [a]) ∧
      (¬ Chains h s lab → s'.continuations h = s.continuations h) := by
  have hcreated : ∀ f a, (h, f, a) ∈ s.thens → f ∈ s.world.created :=
    fun f a ha => hs.returned_created (hs.thens h f a ha).1
  cases hstep with
  | core | refusedCreate | refused => exact ⟨False.elim, fun _ => rfl⟩
  | refusedThen ht =>
    refine ⟨fun hchains => ?_, fun _ => rfl⟩
    rw [hchains.2.1] at ht
    cases ht
  | @create t h' l hnew ht =>
    refine ⟨False.elim, fun _ => ?_⟩
    rcases eq_or_ne h' h with rfl | hne
    · have hopen : (s.handle h').closed = false := hs.initial h' hnew ▸ rfl
      rw [Handles.continuations_of_open hopen]
      exact { s with created := s.created ++ [h'] }.continuations_renew hcreated
    · exact Handles.continuations_congr rfl (Handles.made_handle_of_ne hne.symm)
  | close => exact ⟨False.elim, fun _ => hs.asked_continuations h _⟩
  | @closeThen t h' R hh ht =>
    have hclosed : ((s.asked h').handle h').closed = (s.handle h').closed := s.requested_closed h'
    rw [Handles.chained_continuations, hs.asked_continuations]
    refine ⟨?_, fun hchains => ?_⟩
    · rintro ⟨rfl, -, hopen⟩
      rw [if_pos ⟨rfl, hclosed.trans hopen⟩]
      refine ⟨_, fun hmem => ?_, rfl⟩
      have hasked := Handles.asked_called huv habort hs.world h'
      exact fresh_notMem (s.asked h').world (hasked.extend.created _ hmem)
    · rw [if_neg, List.append_nil]
      rintro ⟨rfl, hopen⟩
      exact hchains ⟨rfl, ht, hclosed ▸ hopen⟩
  | @closed h' hh hclosing hclosed =>
    refine ⟨False.elim, fun _ => ?_⟩
    rcases eq_or_ne h' h with rfl | hne
    · rw [Handles.continuations_of_open hclosed]
      refine Handles.continuations_renew _ fun f a ha => ?_
      exact hcreated f a ha
    · exact Handles.continuations_congr rfl (Handles.ended_handle_of_ne hne.symm)

/-! ### The calls of the callbacks -/

omit [DecidableEq ι] in
/-- A callback that is called belongs to a promise that the callback of `uv_close` has resolved. -/
theorem Handles.Continued.resolved_of_pending (hs : s.Continued inst) {f a : NodeId}
    (ha : (h, f, a) ∈ s.thens) (hp : a ∈ s.world.pending) : f ≠ (s.handle h).closingPromise ∧
      (s.handle h).closed = true ∧ (s.world.action a).Sent (.value (some (inst h))) := by
  obtain ⟨hf, hact⟩ := hs.thens h f a ha
  have hinv := hs.handle h (hs.returned h f hf)
  have hne : f ≠ (s.handle h).closingPromise := by
    rintro rfl
    exact (hs.world.waiting _ a hact hinv.promise.unsettled).1 hp
  obtain ⟨hclosed, -, hres⟩ := ((hinv.returned f hf).2).resolve_left hne
  obtain ⟨r, hsent⟩ := hs.world.sent a hp
  obtain ⟨-, hres'⟩ := (hs.world.delivered f a _ hact hres).resolve_right fun hx =>
    hs.world.not_executed a hp (World.mem_executedIds hx)
  cases hsent.resolver.symm.trans hres'
  exact ⟨hne, hclosed, hsent⟩

/-- The step calls a callback of the handle exactly when the callback's async handle fires. -/
theorem Handles.Continued.answered_iff (hs : s.Continued inst) {clab : Label V} {w : World V}
    (hcore : NodeNative.step uv s.world clab = some w) :
    s.answered clab w = some h ↔ ∃ a ∈ s.continuations h, clab = .fire a := by
  constructor
  · intro hanswered
    cases clab with
    | fire a =>
      unfold Handles.answered at hanswered
      simp only [Option.ite_none_right_eq_some, Option.map_eq_some_iff] at hanswered
      obtain ⟨-, ⟨h', f, a'⟩, hfind, rfl⟩ := hanswered
      have ha : a' = a := by simpa using List.find?_some hfind
      subst ha
      have hmem := List.mem_of_find?_eq_some hfind
      have hne := (hs.resolved_of_pending hmem (step_fire_enabled hcore).1).1
      exact ⟨a', Handles.mem_continuations.mpr ⟨f, hmem, fun hlast => hne hlast.2⟩, rfl⟩
    | _ => cases hanswered
  · rintro ⟨a, ha, rfl⟩
    obtain ⟨f, hmem, -⟩ := Handles.mem_continuations.mp ha
    have hsent := (hs.resolved_of_pending hmem (step_fire_enabled hcore).1).2.2
    have hthen := hs.action h f a hmem
    obtain ⟨x, hfind⟩ := Option.isSome_iff_exists.mp (List.find?_isSome.mpr ⟨(h, f, a), hmem,
      decide_eq_true rfl⟩ : (s.thens.find? fun x => x.2.2 = a).isSome)
    have ha : x.2.2 = a := by simpa using List.find?_some hfind
    have hx : x = (h, f, a) :=
      List.inj_on_of_nodup_map hs.nodup (List.mem_of_find?_eq_some hfind) hmem ha
    rw [step_fire_user hsent (hthen.called _) hthen.user hcore]
    simp [Handles.answered, World.entered, World.started, hfind, hx]

/-- Callbacks are called when the handle is closed. -/
theorem Handles.Continued.closed_of_answered (hs : s.Continued inst) {clab : Label V} {w : World V}
    (hcore : NodeNative.step uv s.world clab = some w) (hanswered : s.answered clab w = some h) :
    (s.handle h).closed = true := by
  obtain ⟨a, ha, rfl⟩ := (hs.answered_iff hcore).mp hanswered
  obtain ⟨f, hmem, -⟩ := Handles.mem_continuations.mp ha
  exact (hs.resolved_of_pending hmem (step_fire_enabled hcore).1).2.1

instance (h : ι) (s : Handles ι V) : ∀ lab, Decidable (Chains h s lab)
  | .closeThen t h' _ => inferInstanceAs
      (Decidable (h' = h ∧ t (s.handle h').loop = true ∧ (s.handle h').closed = false))
  | .core _ | .create .. | .close .. | .closed _ => .isFalse id

/-- A step adds one to the callbacks chained in time, or none. -/
theorem Handles.Continued.requests_step (huv : uv.Ok) (habort : s.world.aborted = none)
    (hs : s.Continued inst) (hstep : HandleStep uv inst s lab s') (h : ι) :
    s'.requests h = s.requests h + if Chains h s lab then 1 else 0 := by
  obtain ⟨hchained, hsame⟩ := hs.continuations_step huv habort hstep h
  unfold Handles.requests
  split
  · next hchains =>
    obtain ⟨a, -, heq⟩ := hchained hchains
    rw [heq, List.length_append, List.length_singleton]
  · next hchains => rw [hsame hchains, Nat.add_zero]

/-- A step of the core calls one of them, or none. -/
theorem Handles.Continued.answers_core (huv : uv.Ok) (hs : s.Continued inst) {clab : Label V}
    {w : World V} (hcore : NodeNative.step uv s.world clab = some w) (h : ι) :
    { s with world := w }.answers h =
      s.answers h + if s.answered clab w = some h then 1 else 0 := by
  show w.executedIds.countP (fun a => a ∈ s.continuations h) = _
  rcases step_executed_append huv hs.world hcore with ⟨hlab, hexec⟩ |
    ⟨a, r, rfl, -, -, hexec⟩
  · have hnot : s.answered clab w ≠ some h := by
      rw [ne_eq, hs.answered_iff hcore]
      rintro ⟨a, -, heq⟩
      exact hlab a heq
    rw [if_neg hnot, World.executedIds, hexec]
    rfl
  · have hiff : s.answered (.fire a) w = some h ↔ a ∈ s.continuations h := by
      rw [hs.answered_iff hcore]
      simp
    rw [World.executedIds, hexec, List.map_append, List.countP_append]
    simp only [hiff, List.map_cons, List.map_nil, List.countP_singleton, decide_eq_true_eq]
    rfl

/-- Steps that are none of the core call no callback. -/
theorem Handles.Continued.answers_same (huv : uv.Ok) (habort : s.world.aborted = none)
    (hs : s.Continued inst) (hstep : HandleStep uv inst s lab s') (hlab : ∀ clab, lab ≠ .core clab)
    (h : ι) : s'.answers h = s.answers h := by
  have hcalled := (hstep.called huv habort hs.toInv).resolve_left fun ⟨clab, heq⟩ => hlab clab heq
  unfold Handles.answers
  rw [World.executedIds, hcalled.executed]
  refine List.countP_congr fun b hb => ?_
  obtain ⟨hchained, hsame⟩ := hs.continuations_step huv habort hstep h
  by_cases hchains : Chains h s lab
  · obtain ⟨a, ha, heq⟩ := hchained hchains
    have hne : b ≠ a := fun hba => ha (hba ▸ hs.world.created_executed b hb)
    simp [heq, hne]
  · rw [hsame hchains]

omit [DecidableEq ι] in
/-- Before the first step nothing is chained. -/
theorem Handles.Continued.start : ({} : Handles ι V).Continued inst where
  toInv := Handles.Inv.start
  nodup := List.nodup_nil
  action _ _ _ ha := nomatch ha
  loop _ _ _ ha := nomatch ha

/-- No action is chained twice. -/
theorem Handles.Continued.continuations_nodup (hs : s.Continued inst) (h : ι) :
    (s.continuations h).Nodup :=
  hs.nodup.sublist (List.filter_sublist.map _)

/-- No callback is called twice. -/
theorem Handles.Continued.answers_le (hs : s.Continued inst) (h : ι) : s.answers h ≤ s.requests h := by
  unfold Handles.answers Handles.requests
  rw [List.countP_eq_length_filter]
  refine (hs.world.executed_nodup.filter _).length_le_of_subset fun a ha => ?_
  simpa using (List.mem_filter.mp ha).2

/-- When the handle is closed and no async handle is in flight, every callback that was chained in time
has been called. -/
theorem Handles.Continued.answers_eq (hs : s.Continued inst) (hclosed : (s.handle h).closed = true)
    (hp : s.world.pending = []) : s.answers h = s.requests h := by
  refine Nat.le_antisymm (hs.answers_le h) ?_
  unfold Handles.answers Handles.requests
  rw [List.countP_eq_length_filter]
  refine (hs.continuations_nodup h).length_le_of_subset fun a ha => ?_
  obtain ⟨f, hmem, hlast⟩ := Handles.mem_continuations.mp ha
  obtain ⟨hf, hact⟩ := hs.thens h f a hmem
  have hinv := hs.handle h (hs.returned h f hf)
  obtain ⟨-, -, hres⟩ := ((hinv.returned f hf).2).resolve_left fun heq => hlast ⟨hclosed, heq⟩
  have hx := World.mem_executedIds (hs.world.registered_executed hp (.inl hact) hres)
  exact List.mem_filter.mpr ⟨hx, decide_eq_true ha⟩

/-- As long as the handle is open, none has been called. -/
theorem Handles.Continued.answers_open (hs : s.Continued inst) (hclosed : (s.handle h).closed = false) :
    s.answers h = 0 := by
  refine List.countP_eq_zero.mpr fun a hx ha => ?_
  obtain ⟨f, hmem, -⟩ := Handles.mem_continuations.mp (of_decide_eq_true ha)
  obtain ⟨hf, hact⟩ := hs.thens h f a hmem
  have hinv := hs.handle h (hs.returned h f hf)
  rcases (hinv.returned f hf).2 with rfl | ⟨hclosed', -⟩
  · exact (hs.world.waiting _ a hact hinv.promise.unsettled).2 hx
  · rw [hclosed] at hclosed'
    cases hclosed'

/-- Nothing is chained to a handle that is not closing. -/
theorem Handles.Continued.requests_eq_zero (hs : s.Continued inst)
    (hclosing : (s.handle h).isClosing = false) : s.requests h = 0 := by
  refine List.length_eq_zero_iff.mpr (List.eq_nil_iff_forall_not_mem.mpr fun a ha => ?_)
  obtain ⟨f, hmem, -⟩ := Handles.mem_continuations.mp ha
  have hf := (hs.thens h f a hmem).1
  rw [((hs.handle h (hs.returned h f hf)).returned f hf).1] at hclosing
  cases hclosing

/-- Only `close` makes a handle closing. -/
theorem HandleStep.isClosing (hstep : HandleStep uv inst s lab s')
    (hclosing : (s'.handle h).isClosing = true) : (s.handle h).isClosing = true ∨
      ∃ t, t (s.handle h).loop = true ∧ (lab = .close t h ∨ ∃ R, lab = .closeThen t h R) := by
  have hasked : ∀ h', ((s.asked h').handle h).isClosing = true →
      (s.handle h).isClosing = true ∨ h' = h := by
    intro h' hclosing
    rcases eq_or_ne h' h with rfl | hne
    · exact .inr rfl
    · rw [Handles.asked, Handles.requested_handle_of_ne hne.symm] at hclosing
      exact .inl hclosing
  cases hstep with
  | core | refusedCreate | refused | refusedThen => exact .inl hclosing
  | @create t h' l =>
    rcases eq_or_ne h h' with rfl | hne
    · simp [Handles.made, Handles.renew] at hclosing
    · rw [Handles.made_handle_of_ne hne] at hclosing
      exact .inl hclosing
  | @close t h' hh ht =>
    refine (hasked h' hclosing).imp_right ?_
    rintro rfl
    exact ⟨t, ht, .inl rfl⟩
  | @closeThen t h' R hh ht =>
    refine (hasked h' hclosing).imp_right ?_
    rintro rfl
    exact ⟨t, ht, .inr ⟨R, rfl⟩⟩
  | @closed h' hh hclosing' =>
    rcases eq_or_ne h h' with rfl | hne
    · exact .inl hclosing'
    · rw [Handles.ended_handle_of_ne hne] at hclosing
      exact .inl hclosing

/-- After a call of `close` the handle is closing, and the others are as they were. -/
theorem Handles.asked_isClosing (s : Handles ι V) (h h' : ι) :
    ((s.asked h').handle h).isClosing = true ↔ (s.handle h).isClosing = true ∨ h' = h := by
  rcases eq_or_ne h' h with rfl | hne
  · exact iff_of_true (s.requested_isClosing h') (.inr rfl)
  · rw [Handles.asked, Handles.requested_handle_of_ne hne.symm, or_iff_left hne]

/-- When every call of `close` is followed by `then`, a closing handle has a callback. -/
theorem Handles.Continued.requests_pos (huv : uv.Ok) (habort : s.world.aborted = none)
    (hs : s.Continued inst) (hstep : HandleStep uv inst s lab s') (hlab : ∀ t, lab ≠ .close t h)
    (hpos : (s.handle h).isClosing = true → 0 < s.requests h)
    (hclosing : (s'.handle h).isClosing = true) : 0 < s'.requests h := by
  rw [hs.requests_step huv habort hstep h]
  rcases Bool.eq_false_or_eq_true (s.handle h).isClosing with hold | hold
  · have hlt := hpos hold
    omega
  · obtain hold' | ⟨t, ht, rfl | ⟨R, rfl⟩⟩ := hstep.isClosing hclosing
    · rw [hold] at hold'
      cases hold'
    · exact absurd rfl (hlab t)
    · rw [if_pos ⟨rfl, ht, hs.closed_of_not_closing hold⟩]
      omega

end

end

end NodeNative.Base
