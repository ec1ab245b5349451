import NodeNative.Base.Handle

/-!
# Closing a handle

The promise of a handle is settled by the callback of `uv_close` only (`OpenPromise`), so the futures
that `close` has returned before that callback are the ones that it resolves, and those returned behind
it belong to the promise that it has put in place, which nothing resolves (`closes_resolved_iff`).
-/

namespace NodeNative.Base

open Transition

section
variable {ι V : Type} {uv : UvAsync} {w w' : World V} {l : LoopId} {p f : NodeId}

/-! ### Names -/

/-- The numbers in the names that exist are smaller than a fresh one, -/
theorem number_lt_fresh {a : NodeId} (h : a ∈ w.created) : number a < fresh w := by
  have hmax : ∀ {ns : List Nat} {n : Nat}, n ∈ ns → n ≤ ns.foldr max 0 := by
    intro ns n hn
    induction ns with
    | nil => cases hn
    | cons m ns ih =>
      rw [List.foldr_cons]
      rcases List.mem_cons.mp hn with rfl | hn
      · omega
      · have hle := ih hn
        omega
  exact hmax (List.mem_map_of_mem h)

/-- so its name is new. -/
theorem fresh_notMem (w : World V) : NodeId.user (fresh w) ∉ w.created := by
  intro h
  have hlt := number_lt_fresh h
  rw [number] at hlt
  omega

/-! ### Promises -/

/-- A promise that only its owner settles, and has not settled yet. -/
structure OpenPromise (w : World V) (l : LoopId) (p : NodeId) : Prop where
  passive : w.Passive p
  relays : ∀ b, b = .relayThen p ∨ b = .relayError p → b ∉ w.created
  running : ∀ l, w.running l ≠ some p
  unsettled : (w.futures p).resolver = none
  future : (w.futures p).loop = l ∧ (w.futures p).isVoid = false

/-- The core and the handles say the same of what a call of the program settles. -/
theorem settles_iff {lab : Label V} : lab.Settles f ↔ settledBy lab = some f := by
  cases lab <;> simp [Label.Settles, settledBy, eq_comm]

/-- Steps of the core that do not settle it leave it open. -/
theorem OpenPromise.step (huv : uv.Ok) (hinv : w.Inv) (hn : w.RelaysNamed) (h : OpenPromise w l p)
    {lab : Label V} (hlab : ¬ lab.Settles p) (hstep : NodeNative.step uv w lab = some w') :
    OpenPromise w' l p := by
  obtain ⟨hrelays, hrunning⟩ := h.passive.step_relays h.relays h.running huv hinv hn hstep
  have hfuture := (step_inv huv hinv hstep).2.future p h.passive.created
  refine ⟨h.passive.step huv hinv hstep, hrelays, hrunning, ?_, ?_⟩
  · rw [h.passive.step_resolver h.relays h.running huv hinv hn hlab hstep, h.unsettled]
  · exact ⟨hfuture.1.trans h.future.1, hfuture.2.trans h.future.2⟩

/-- A new promise. -/
theorem OpenPromise.new (hinv : w.Inv) (l : LoopId) :
    OpenPromise (w.createFuture (.user (fresh w)) l false) l (.user (fresh w)) := by
  have hnew := fresh_notMem w
  refine ⟨hinv.passive_createFuture hnew l false, ?_, fun l' hl' => ?_, ?_, ?_⟩
  · rintro b hb hmem
    have hold : b ∈ w.created := by
      refine (List.mem_cons.mp hmem).resolve_left ?_
      rintro rfl
      rcases hb with hb | hb <;> cases hb
    have hlt := number_lt_fresh hold
    rcases hb with rfl | rfl <;> simp [number] at hlt
  · obtain ⟨-, r, hx, -⟩ := hinv.running l' _ hl'
    exact hnew (hinv.created_executed _ (World.mem_executedIds hx))
  · simp [World.createFuture, World.setFuture]
  · simp [World.createFuture, World.setFuture]

/-! ### The core's part of a call -/

/-- The step of the core that a new promise is. -/
theorem step_promise_eq (habort : w.aborted = none) (l : LoopId) :
    step uv w (.promise (fresh w) l false) = some (w.createFuture (.user (fresh w)) l false) := by
  simp [step, habort, fresh_notMem w, World.call, FutureShared.create_run]

/-- The step of the core that chaining a callback is. -/
theorem step_then_eq (huv : uv.Ok) (habort : w.aborted = none) (hf : f ∈ w.created) (t : Thread)
    (R : RetType) : step uv w (.thenCb t f (fresh w) R) =
      some (w.registered t f (.user (fresh w)) ((w.futures f).thenClass R) .user) := by
  simp [step, habort, hf, fresh_notMem w, World.call, FutureShared.thenCb_run huv]

/-- An open promise can be settled on the thread of its loop. -/
theorem settle_open (huv : uv.Ok) (hinv : w.Inv) (h : OpenPromise w l p) (r : FutureSharedResolver V) :
    (FutureShared.settle uv (Thread.ofLoop l) p r).run w = .ok () (w.settled p r) := by
  have ht : Thread.ofLoop l (w.futures p).loop = true := by
    rw [h.future.1]
    exact Thread.ofLoop_self l
  have hidle : ∀ a ∈ (w.futures p).actions, (w.action a).Idle :=
    fun a ha => hinv.actions_idle ha h.unsettled
  exact FutureShared.settle_run huv ht h.unsettled (hinv.actions_nodup p) hidle r

/-- The step of the core that resolving an open promise is. -/
theorem step_resolve_eq (huv : uv.Ok) (habort : w.aborted = none) (hinv : w.Inv)
    (h : OpenPromise w l p) (v : V) : step uv w (.resolve (Thread.ofLoop l) p (some v)) =
      some (w.settled p (.value (some v))) := by
  simp [step, habort, h.passive.created, h.future.2, World.call, FutureShared.resolve,
    settle_open huv hinv h]

end

/-! ### What the operations do -/

section
variable {ι V : Type} [DecidableEq ι]

/-- A handle with a new promise. -/
def Handles.renew (s : Handles ι V) (h : ι) (k : Handle) : Handles ι V :=
  { s with
    world := s.world.createFuture (.user (fresh s.world)) k.loop false
    handle := Function.update s.handle h { k with closingPromise := .user (fresh s.world) } }

/-- After the constructor and `init`. -/
def Handles.made (s : Handles ι V) (h : ι) (l : LoopId) : Handles ι V :=
  { s with created := s.created ++ [h] }.renew h
    { loop := l, data := true, instanceHandleCount := 1, instanceHandle := true }

/-- After a call of `uv_close`, unless the handle is closing. -/
def Handles.requested (s : Handles ι V) (h : ι) : Handles ι V :=
  if (s.handle h).isClosing then s else s.renew h { s.handle h with isClosing := true }

/-- After a call of `close`. -/
def Handles.asked (s : Handles ι V) (h : ι) : Handles ι V :=
  { s.requested h with
    returned := (s.requested h).returned ++ [(h, ((s.requested h).handle h).closingPromise)] }

/-- After a call of `then` on the promise of the handle. -/
def Handles.chained (s : Handles ι V) (t : Thread) (h : ι) (R : RetType) : Handles ι V :=
  { s with
    world := s.world.registered t (s.handle h).closingPromise (.user (fresh s.world))
      ((s.world.futures (s.handle h).closingPromise).thenClass R) .user
    thens := s.thens ++ [(h, (s.handle h).closingPromise, .user (fresh s.world))] }

/-- After the callback of `uv_close`. -/
def Handles.ended (s : Handles ι V) (inst : ι → V) (h : ι) : Handles ι V :=
  { s with
    world := s.world.settled (s.handle h).closingPromise (.value (some (inst h))) }.renew h
    { s.handle h with closed := true, data := false, instanceHandleCount := 0, instanceHandle := false }

section
variable {uv : UvAsync} {inst : ι → V} {s : Handles ι V} {h h' : ι} {t : Thread} {l : LoopId}

/-- A new promise of one handle leaves the others as they were, -/
theorem Handles.renew_handle_of_ne (hne : h' ≠ h) (k : Handle) :
    (s.renew h k).handle h' = s.handle h' := Function.update_of_ne hne ..

/-- and so does its creation, -/
theorem Handles.made_handle_of_ne (hne : h' ≠ h) : (s.made h l).handle h' = s.handle h' :=
  Handles.renew_handle_of_ne hne _

/-- the callback of its `uv_close`, -/
theorem Handles.ended_handle_of_ne (hne : h' ≠ h) : (s.ended inst h).handle h' = s.handle h' :=
  Handles.renew_handle_of_ne hne _

/-- and a call of `uv_close` on it. -/
theorem Handles.requested_handle_of_ne (hne : h' ≠ h) : (s.requested h).handle h' = s.handle h' := by
  unfold Handles.requested
  split
  · rfl
  · exact Handles.renew_handle_of_ne hne _

omit [DecidableEq ι] in
/-- Code of the core changes the core alone. -/
theorem inWorld_run {α : Type} (x : M V α) (s : Handles ι V) : (inWorld x).run s =
    match x.run s.world with
    | .ok a w => .ok a { s with world := w }
    | .error e w => .error e { s with world := w } := rfl

/-- Modifying a handle cannot fail. -/
theorem modifyHandle_run (h : ι) (g : Handle → Handle) (s : Handles ι V) : (modifyHandle h g).run s =
    .ok () { s with handle := Function.update s.handle h (g (s.handle h)) } := rfl

omit [DecidableEq ι] in
/-- An assertion that holds does nothing, -/
theorem assert_run {condition : Bool} (hcondition : condition = true) (message : String)
    (s : Handles ι V) : (inWorld (nnativeAssert condition message)).run s = .ok () s := by
  subst hcondition
  rfl

omit [DecidableEq ι] in
/-- and one that fails throws its text. -/
theorem assert_run_false {condition : Bool} (hcondition : condition = false) (message : String)
    (s : Handles ι V) :
    (inWorld (nnativeAssert condition message)).run s = .error (.runtimeError message) s := by
  subst hcondition
  rfl

omit [DecidableEq ι] in
/-- A promise gets a fresh name. -/
theorem Promise.create_run (s : Handles ι V) (l : LoopId) : (Promise.create l).run s =
    .ok (.user (fresh s.world))
      { s with world := s.world.createFuture (.user (fresh s.world)) l false } :=
  rfl

/-- The constructor on the thread of the loop. -/
theorem Handle.create_run (ht : t l = true) :
    (Handle.create t h l).run s = .ok () (s.made h l) := by
  simp only [Handle.create, Handle.keepInstanceHandle, EStateM.run_bind, assert_run ht,
    Promise.create_run, EStateM.run_modify, modifyHandle_run, Function.update_self,
    Function.update_idem]
  rfl

/-- The part of `close` that calls `uv_close` cannot fail. -/
theorem Handle.request_run (s : Handles ι V) (h : ι) :
    (Handle.request h).run s = .ok () (s.requested h) := by
  cases hclosing : (s.handle h).isClosing with
  | true => simp [Handle.request, Handles.requested, hclosing]
  | false =>
    simp only [Handle.request, Handles.requested, EStateM.run_bind, EStateM.run_get, hclosing,
      Bool.false_eq_true, if_false, Promise.create_run, modifyHandle_run]
    rfl

/-- `close` on the thread of the loop returns the future of the handle's promise. -/
theorem Handle.close_run (ht : t (s.handle h).loop = true) :
    (Handle.close t h).run s = .ok ((s.requested h).handle h).closingPromise (s.asked h) := by
  simp only [Handle.close, EStateM.run_bind, EStateM.run_get, assert_run ht, Handle.request_run,
    EStateM.run_modify, EStateM.run_pure]
  rfl

/-- `close().then(...)` on the thread of the loop. -/
theorem Handle.closeThen_run (huv : uv.Ok) (ht : t (s.handle h).loop = true) (R : RetType) :
    (Handle.closeThen uv t h R).run s = .ok () ((s.asked h).chained t h R) := by
  simp only [Handle.closeThen, EStateM.run_bind, Handle.close_run ht, EStateM.run_get, inWorld_run,
    FutureShared.thenCb_run huv, EStateM.run_modify]
  rfl

/-- The only reference of a handle to itself is released. -/
theorem Handle.releaseInstanceHandle_run (hcount : (s.handle h).instanceHandleCount = 1)
    (hinst : (s.handle h).instanceHandle = true) :
    (Handle.releaseInstanceHandle h).run s = .ok () { s with
      handle := Function.update s.handle h
        { s.handle h with instanceHandleCount := 0, instanceHandle := false } } := by
  have hpos : decide (0 < 1) = true := rfl
  simp only [Handle.releaseInstanceHandle, EStateM.run_bind, EStateM.run_get, hcount, assert_run hpos,
    assert_run hinst, modifyHandle_run, Nat.sub_self, if_true, Function.update_self,
    Function.update_idem]

/-- On another thread than the loop's a call fails its assertion and changes nothing. -/
theorem Handle.close_run_thread (ht : t (s.handle h).loop = false) :
    (Handle.close t h).run s = .error (.runtimeError "Not on the event Loop thread") s := by
  simp only [Handle.close, EStateM.run_bind, EStateM.run_get, assert_run_false ht]

end

/-! ### The invariant -/

/-- What holds of a handle. -/
structure HandleInv (inst : ι → V) (s : Handles ι V) (h : ι) : Prop where
  promise : OpenPromise s.world (s.handle h).loop (s.handle h).closingPromise
  kept : (s.handle h).closed = false → (s.handle h).data = true ∧
    (s.handle h).instanceHandleCount = 1 ∧ (s.handle h).instanceHandle = true
  closing : (s.handle h).closed = true → (s.handle h).isClosing = true
  returned : ∀ f, (h, f) ∈ s.returned → (s.handle h).isClosing = true ∧
    (f = (s.handle h).closingPromise ∨ (s.handle h).closed = true ∧ f ∈ s.world.created ∧
      (s.world.futures f).resolver = some (.value (some (inst h))))

/-- What holds of the core and of some handles. -/
structure Handles.InvOn (inst : ι → V) (s : Handles ι V) (on : ι → Prop) : Prop where
  world : s.world.Inv
  named : s.world.RelaysNamed
  handle : ∀ h, on h → HandleInv inst s h
  distinct : ∀ h h', on h → on h' → (s.handle h).closingPromise = (s.handle h').closingPromise → h = h'
  thens : ∀ h f a, (h, f, a) ∈ s.thens → (h, f) ∈ s.returned ∧ a ∈ (s.world.futures f).actions

/-- What holds in every state between two steps. -/
structure Handles.Inv (inst : ι → V) (s : Handles ι V) : Prop extends s.InvOn inst (· ∈ s.created) where
  initial : ∀ h, h ∉ s.created → s.handle h = {}
  returned : ∀ h f, (h, f) ∈ s.returned → h ∈ s.created

section
variable {uv : UvAsync} {inst : ι → V} {s s' : Handles ι V} {h : ι} {t : Thread} {l : LoopId}
  {on : ι → Prop}

/-- The callback of `uv_close` succeeds. -/
theorem Handle.onClosed_run (huv : uv.Ok) (hs : s.Inv inst) (hh : h ∈ s.created)
    (hclosed : (s.handle h).closed = false) : (Handle.onClosed uv inst h).run
      { s with handle := Function.update s.handle h { s.handle h with closed := true } } =
        .ok () (s.ended inst h) := by
  obtain ⟨hdata, hcount, hinst⟩ := (hs.handle h hh).kept hclosed
  have hsettle := settle_open huv hs.world (hs.handle h hh).promise (.value (some (inst h)))
  simp only [Handle.onClosed, EStateM.run_bind, EStateM.run_get, Function.update_self,
    assert_run hdata, modifyHandle_run, Function.update_idem]
  rw [Handle.releaseInstanceHandle_run (by simpa using hcount) (by simpa using hinst)]
  simp only [inWorld_run, FutureShared.resolve, hsettle, Promise.create_run,
    Function.update_self, Function.update_idem]
  rfl

/-- The steps with what each of them requires, and what it does. -/
inductive HandleStep (uv : UvAsync) (inst : ι → V) (s : Handles ι V) :
    HandleLabel ι V → Handles ι V → Prop
  | core {lab : Label V} {w : World V} (hprivate : ∀ h ∈ s.created, ¬ lab.Settles (s.handle h).closingPromise)
    (hstep : step uv s.world lab = some w) : HandleStep uv inst s (.core lab) { s with world := w }
  | refusedCreate {t : Thread} {h : ι} {l : LoopId} (ht : t l = false) :
    HandleStep uv inst s (.create t h l) s
  | refused {t : Thread} {h : ι} (ht : t (s.handle h).loop = false) :
    HandleStep uv inst s (.close t h) s
  | refusedThen {t : Thread} {h : ι} {R : RetType} (ht : t (s.handle h).loop = false) :
    HandleStep uv inst s (.closeThen t h R) s
  | create {t : Thread} {h : ι} {l : LoopId} (hnew : h ∉ s.created) (ht : t l = true) :
    HandleStep uv inst s (.create t h l) (s.made h l)
  | close {t : Thread} {h : ι} (hh : h ∈ s.created) (ht : t (s.handle h).loop = true) :
    HandleStep uv inst s (.close t h) (s.asked h)
  | closeThen {t : Thread} {h : ι} {R : RetType} (hh : h ∈ s.created)
    (ht : t (s.handle h).loop = true) :
    HandleStep uv inst s (.closeThen t h R) ((s.asked h).chained t h R)
  | closed {h : ι} (hh : h ∈ s.created) (hclosing : (s.handle h).isClosing = true)
    (hclosed : (s.handle h).closed = false) : HandleStep uv inst s (.closed h) (s.ended inst h)

/-- A call of `close` with `then`, on whichever thread. -/
theorem Handle.closeThen_step (huv : uv.Ok) (hh : h ∈ s.created) (t : Thread) (R : RetType) :
    HandleStep uv inst s (.closeThen t h R) (s.call (Handle.closeThen uv t h R)) := by
  cases ht : t (s.handle h).loop with
  | true =>
    rw [Handles.call, Handle.closeThen_run huv ht]
    exact .closeThen hh ht
  | false =>
    rw [Handles.call, Handle.closeThen, EStateM.run_bind, Handle.close_run_thread ht]
    exact .refusedThen ht

/-- Every step is one of `HandleStep`. -/
theorem handleStep_cases (huv : uv.Ok) (hs : s.Inv inst) {lab : HandleLabel ι V}
    (hstep : handleStep uv inst s lab = some s') :
    s.world.aborted = none ∧ HandleStep uv inst s lab s' := by
  unfold handleStep at hstep
  split at hstep
  · cases hstep
  · next habort =>
    refine ⟨by simpa using habort, ?_⟩
    cases lab with
    | core lab =>
      simp only [Option.ite_none_left_eq_some] at hstep
      obtain ⟨hprivate, hstep⟩ := hstep
      obtain ⟨w, hw, rfl⟩ := Option.map_eq_some_iff.mp hstep
      refine .core (fun h hh hsettles => hprivate ?_) hw
      rw [Handles.isPrivate, List.any_eq_true]
      exact ⟨h, hh, by rw [settles_iff.mp hsettles]; exact beq_self_eq_true _⟩
    | create t h l =>
      simp only [Option.ite_none_left_eq_some, List.contains_eq_mem, decide_eq_true_eq] at hstep
      obtain ⟨hnew, hstep⟩ := hstep
      cases ht : t l with
      | true =>
        rw [Handles.call, Handle.create_run ht] at hstep
        cases hstep
        exact .create hnew ht
      | false =>
        have hrun : (Handle.create t h l).run s =
            .error (.runtimeError "Not on the event Loop thread") s := by
          simp only [Handle.create, EStateM.run_bind, assert_run_false ht]
        rw [Handles.call, hrun] at hstep
        cases hstep
        exact .refusedCreate ht
    | close t h =>
      simp only [Option.ite_none_right_eq_some, List.contains_eq_mem, decide_eq_true_eq] at hstep
      obtain ⟨hh, hstep⟩ := hstep
      cases ht : t (s.handle h).loop with
      | true =>
        rw [Handles.call, Handle.close_run ht] at hstep
        cases hstep
        exact .close hh ht
      | false =>
        rw [Handles.call, Handle.close_run_thread ht] at hstep
        cases hstep
        exact .refused ht
    | closeThen t h R =>
      simp only [Option.ite_none_right_eq_some, List.contains_eq_mem, decide_eq_true_eq] at hstep
      obtain ⟨hh, hstep⟩ := hstep
      cases hstep
      exact Handle.closeThen_step huv hh t R
    | closed h =>
      simp only [Option.ite_none_right_eq_some, Bool.and_eq_true, List.contains_eq_mem,
        decide_eq_true_eq, Bool.not_eq_true'] at hstep
      obtain ⟨⟨⟨⟨hh, hclosing⟩, hclosed⟩, -⟩, hstep⟩ := hstep
      rw [Handles.callback, Handle.onClosed_run huv hs hh hclosed] at hstep
      cases hstep
      exact .closed hh hclosing hclosed

/-! ### What the steps keep -/

omit [DecidableEq ι] in
/-- What holds of a handle depends on its own fields and on the core. -/
theorem HandleInv.of_eq (hs : HandleInv inst s h) (hworld : s'.world = s.world)
    (hhandle : s'.handle h = s.handle h) (hreturned : ∀ f, (h, f) ∈ s'.returned → (h, f) ∈ s.returned) :
    HandleInv inst s' h := by
  refine ⟨?_, ?_, ?_, fun f hf => ?_⟩
  · rw [hworld, hhandle]
    exact hs.promise
  · rw [hhandle]
    exact hs.kept
  · rw [hhandle]
    exact hs.closing
  · rw [hworld, hhandle]
    exact hs.returned f (hreturned f hf)

omit [DecidableEq ι] in
/-- A step of the core that does not settle the promise of the handle. -/
theorem HandleInv.step (huv : uv.Ok) (hinv : s.world.Inv) (hn : s.world.RelaysNamed)
    (hs : HandleInv inst s h) {lab : Label V} (hlab : ¬ lab.Settles (s.handle h).closingPromise)
    {w : World V} (hstep : NodeNative.step uv s.world lab = some w) :
    HandleInv inst { s with world := w } h := by
  have hext := (step_inv huv hinv hstep).2
  refine ⟨hs.promise.step huv hinv hn hlab hstep, hs.kept, hs.closing, fun f hf => ?_⟩
  obtain ⟨hclosing, hf⟩ := hs.returned f hf
  refine ⟨hclosing, hf.imp_right fun ⟨hclosed, hcreated, hres⟩ => ?_⟩
  exact ⟨hclosed, hext.created f hcreated, hext.resolver f _ hres⟩

omit [DecidableEq ι] in
/-- Steps of the core that settle no promise of a handle keep what holds of the handles. -/
theorem Handles.InvOn.step (huv : uv.Ok) (hs : s.InvOn inst on) {lab : Label V}
    (hlab : ∀ h, on h → ¬ lab.Settles (s.handle h).closingPromise) {w : World V}
    (hstep : NodeNative.step uv s.world lab = some w) : { s with world := w }.InvOn inst on := by
  obtain ⟨hinv, hext⟩ := step_inv huv hs.world hstep
  refine ⟨hinv, hs.named.step huv hs.world hstep, fun h hh => ?_, hs.distinct, fun h f a ha => ?_⟩
  · exact (hs.handle h hh).step huv hs.world hs.named (hlab h hh) hstep
  · exact ⟨(hs.thens h f a ha).1, hext.actions f a (hs.thens h f a ha).2⟩

omit [DecidableEq ι] in
/-- What holds of some handles holds of fewer. -/
theorem Handles.InvOn.mono (hs : s.InvOn inst on) {on' : ι → Prop} (hon : ∀ h, on' h → on h) :
    s.InvOn inst on' :=
  ⟨hs.world, hs.named, fun h hh => hs.handle h (hon h hh),
    fun h h' hh hh' => hs.distinct h h' (hon h hh) (hon h' hh'), hs.thens⟩

/-- A handle gets a new promise, when the futures of its old ones are resolved. -/
theorem Handles.InvOn.renew (hs : s.InvOn inst on) (huv : uv.Ok) (habort : s.world.aborted = none)
    (hh : ¬ on h) (k : Handle) (hkept : k.closed = false → k.data = true ∧
      k.instanceHandleCount = 1 ∧ k.instanceHandle = true)
    (hclosing : k.closed = true → k.isClosing = true)
    (hreturned : ∀ f, (h, f) ∈ s.returned → k.isClosing = true ∧ k.closed = true ∧
      f ∈ s.world.created ∧ (s.world.futures f).resolver = some (.value (some (inst h)))) :
    (s.renew h k).InvOn inst fun h' => on h' ∨ h' = h := by
  have hstep : NodeNative.step uv s.world (.promise (fresh s.world) k.loop false) = some _ :=
    step_promise_eq habort k.loop
  have hext := (step_inv huv hs.world hstep).2
  have hlab : ∀ h', on h' →
      ¬ (Label.promise (fresh s.world) k.loop false : Label V).Settles (s.handle h').closingPromise :=
    fun _ _ hsettles => hsettles
  have hs' := hs.step huv hlab hstep
  have hself : (s.renew h k).handle h = { k with closingPromise := .user (fresh s.world) } :=
    Function.update_self ..
  have hother : ∀ h', h' ≠ h → (s.renew h k).handle h' = s.handle h' :=
    fun h' hne => Handles.renew_handle_of_ne hne k
  -- The promises of the others are older.
  have hnew : ∀ h', on h' → (s.handle h').closingPromise ≠ .user (fresh s.world) := by
    intro h' hh' heq
    have hcreated := (hs.handle h' hh').promise.passive.created
    rw [heq] at hcreated
    exact fresh_notMem s.world hcreated
  have hne : ∀ h', on h' → h' ≠ h := by
    rintro h' hh' rfl
    exact hh hh'
  refine ⟨hs'.world, hs'.named, ?_, ?_, hs'.thens⟩
  · rintro h' (hh' | rfl)
    · exact (hs'.handle h' hh').of_eq rfl (hother h' (hne h' hh')) fun _ hf => hf
    · refine ⟨?_, ?_, ?_, ?_⟩
      · rw [hself]
        exact OpenPromise.new hs.world k.loop
      · rw [hself]
        exact hkept
      · rw [hself]
        exact hclosing
      · intro f hf
        obtain ⟨hclosing, hclosed, hcreated, hres⟩ := hreturned f hf
        rw [hself]
        exact ⟨hclosing, .inr ⟨hclosed, hext.created f hcreated, hext.resolver f _ hres⟩⟩
  · rintro h₁ h₂ (hh₁ | rfl) (hh₂ | rfl) heq
    · rw [hother h₁ (hne h₁ hh₁), hother h₂ (hne h₂ hh₂)] at heq
      exact hs.distinct h₁ h₂ hh₁ hh₂ heq
    · rw [hother h₁ (hne h₁ hh₁), hself] at heq
      exact absurd heq (hnew h₁ hh₁)
    · rw [hother h₂ (hne h₂ hh₂), hself] at heq
      exact absurd heq.symm (hnew h₂ hh₂)
    · rfl

omit [DecidableEq ι] in
/-- A step of the core that settles no promise of a handle. -/
theorem Handles.Inv.core (huv : uv.Ok) (hs : s.Inv inst) {lab : Label V}
    (hlab : ∀ h ∈ s.created, ¬ lab.Settles (s.handle h).closingPromise) {w : World V}
    (hstep : NodeNative.step uv s.world lab = some w) : { s with world := w }.Inv inst :=
  ⟨hs.toInvOn.step huv hlab hstep, hs.initial, hs.returned⟩

/-- A new handle keeps the invariant, -/
theorem Handles.Inv.made (huv : uv.Ok) (habort : s.world.aborted = none) (hs : s.Inv inst)
    (hnew : h ∉ s.created) : (s.made h l).Inv inst := by
  have hold : { s with created := s.created ++ [h] }.InvOn inst (· ∈ s.created) :=
    ⟨hs.world, hs.named, fun h' hh' => (hs.handle h' hh').of_eq rfl rfl fun _ hf => hf, hs.distinct,
      hs.thens⟩
  have hon : (s.made h l).InvOn inst fun h' => h' ∈ s.created ∨ h' = h := by
    refine hold.renew huv habort hnew _ (fun _ => ⟨rfl, rfl, rfl⟩) (fun hclosed => ?_) fun f hf => ?_
    · cases hclosed
    · exact absurd (hs.returned h f hf) hnew
  refine ⟨hon.mono fun h' hh' => ?_, fun h' hh' => ?_, fun h' f hf => ?_⟩
  · exact (List.mem_append.mp hh').imp_right List.mem_singleton.mp
  · obtain ⟨hold', hne⟩ := not_or.mp (mt List.mem_append.mpr hh')
    have hne : h' ≠ h := fun heq => hne (heq ▸ .head _)
    exact (Handles.made_handle_of_ne hne).trans (hs.initial h' hold')
  · exact List.mem_append_left _ (hs.returned h' f hf)

/-- and so does a call of `uv_close`, -/
theorem Handles.Inv.requested (huv : uv.Ok) (habort : s.world.aborted = none) (hs : s.Inv inst)
    (hh : h ∈ s.created) : (s.requested h).Inv inst := by
  unfold Handles.requested
  split
  · exact hs
  · next hclosing =>
    have hinv := hs.handle h hh
    have hopen : (s.handle h).closed = false :=
      Bool.eq_false_iff.mpr fun hclosed => hclosing (hinv.closing hclosed)
    have hothers : s.InvOn inst fun h' => h' ∈ s.created ∧ h' ≠ h :=
      hs.toInvOn.mono fun h' hh' => hh'.1
    have hon : (s.renew h { s.handle h with isClosing := true }).InvOn inst
        fun h' => (h' ∈ s.created ∧ h' ≠ h) ∨ h' = h :=
      hothers.renew huv habort (fun hh' => hh'.2 rfl) _ hinv.kept (fun _ => rfl)
        fun f hf => absurd (hinv.returned f hf).1 hclosing
    refine ⟨hon.mono fun h' hh' => ?_, fun h' hh' => ?_, hs.returned⟩
    · exact (eq_or_ne h' h).symm.imp_left fun hne => ⟨hh', hne⟩
    · have hne : h' ≠ h := fun heq => hh' (heq ▸ hh)
      exact (Handles.renew_handle_of_ne hne _).trans (hs.initial h' hh')

@[simp] theorem Handles.requested_isClosing (s : Handles ι V) (h : ι) :
    ((s.requested h).handle h).isClosing = true := by
  unfold Handles.requested
  split
  · assumption
  · simp [Handles.renew]

@[simp] theorem Handles.requested_loop (s : Handles ι V) (h : ι) :
    ((s.requested h).handle h).loop = (s.handle h).loop := by
  unfold Handles.requested
  split <;> simp [Handles.renew]

@[simp] theorem Handles.requested_created (s : Handles ι V) (h : ι) :
    (s.requested h).created = s.created := by
  unfold Handles.requested
  split <;> rfl

@[simp] theorem Handles.requested_aborted (s : Handles ι V) (h : ι) :
    (s.requested h).world.aborted = s.world.aborted := by
  unfold Handles.requested
  split <;> rfl

/-- a call of `close`, -/
theorem Handles.Inv.asked (huv : uv.Ok) (habort : s.world.aborted = none) (hs : s.Inv inst)
    (hh : h ∈ s.created) : (s.asked h).Inv inst := by
  have hs' := hs.requested huv habort hh
  have hcreated : h ∈ (s.requested h).created := (s.requested_created h).symm ▸ hh
  refine ⟨⟨hs'.world, hs'.named, fun h' hh' => ?_, hs'.distinct, fun h' f a ha => ?_⟩, hs'.initial,
    fun h' f hf => ?_⟩
  · have hinv := hs'.handle h' hh'
    refine ⟨hinv.promise, hinv.kept, hinv.closing, fun f hf => ?_⟩
    rcases List.mem_append.mp hf with hf | hf
    · exact hinv.returned f hf
    · cases List.mem_singleton.mp hf
      exact ⟨s.requested_isClosing h, .inl rfl⟩
  · exact ⟨List.mem_append_left _ (hs'.thens h' f a ha).1, (hs'.thens h' f a ha).2⟩
  · rcases List.mem_append.mp hf with hf | hf
    · exact hs'.returned h' f hf
    · cases List.mem_singleton.mp hf
      exact hcreated

omit [DecidableEq ι] in
/-- a callback that is chained to a future of `close`, -/
theorem Handles.Inv.chained (huv : uv.Ok) (habort : s.world.aborted = none) (hs : s.Inv inst)
    (hh : h ∈ s.created) (hreturned : (h, (s.handle h).closingPromise) ∈ s.returned)
    (ht : t (s.handle h).loop = true) (R : RetType) : (s.chained t h R).Inv inst := by
  have hpromise := (hs.handle h hh).promise
  have hstep := step_then_eq huv habort hpromise.passive.created t R
  have hlab : ∀ h' ∈ s.created, ¬ (Label.thenCb t (s.handle h).closingPromise (fresh s.world) R :
      Label V).Settles (s.handle h').closingPromise := fun _ _ hsettles => hsettles
  have hs' := hs.core huv hlab hstep
  refine ⟨⟨hs'.world, hs'.named, fun h' hh' => (hs'.handle h' hh').of_eq rfl rfl fun _ hf => hf,
    hs'.distinct, fun h' f a ha => ?_⟩, hs'.initial, hs'.returned⟩
  rcases List.mem_append.mp ha with ha | ha
  · exact hs'.thens h' f a ha
  · cases List.mem_singleton.mp ha
    refine ⟨hreturned, World.registered_mem _ _ _ _ _ _ (hpromise.future.1.symm ▸ ht) fun hfresh => ?_⟩
    exact fresh_notMem s.world (hfresh ▸ hpromise.passive.created)

/-- and the callback of `uv_close`. -/
theorem Handles.Inv.ended (huv : uv.Ok) (habort : s.world.aborted = none) (hs : s.Inv inst)
    (hh : h ∈ s.created) (hclosing : (s.handle h).isClosing = true)
    (hclosed : (s.handle h).closed = false) : (s.ended inst h).Inv inst := by
  have hinv := hs.handle h hh
  have hstep := step_resolve_eq huv habort hs.world hinv.promise (inst h)
  have hothers : s.InvOn inst fun h' => h' ∈ s.created ∧ h' ≠ h :=
    hs.toInvOn.mono fun h' hh' => hh'.1
  have hext := (step_inv huv hs.world hstep).2
  have hs' := hothers.step huv (fun h' hh' hsettles => hh'.2 ?_) hstep
  · have hon : (s.ended inst h).InvOn inst fun h' => (h' ∈ s.created ∧ h' ≠ h) ∨ h' = h := by
      refine hs'.renew huv habort (fun hh' => hh'.2 rfl) _ (fun hopen => ?_) (fun _ => hclosing)
        fun f hf => ?_
      · cases hopen
      · refine ⟨hclosing, rfl, ?_⟩
        obtain rfl | ⟨hclosed', -⟩ := (hinv.returned f hf).2
        · exact ⟨hext.created _ hinv.promise.passive.created, by simp⟩
        · rw [hclosed] at hclosed'
          cases hclosed'
    refine ⟨hon.mono fun h' hh' => ?_, fun h' hh' => ?_, hs.returned⟩
    · exact (eq_or_ne h' h).symm.imp_left fun hne => ⟨hh', hne⟩
    · have hne : h' ≠ h := fun heq => hh' (heq ▸ hh)
      exact (Handles.ended_handle_of_ne hne).trans (hs.initial h' hh')
  · exact hs.distinct h' h hh'.1 hh hsettles

/-- Every step keeps the invariant. -/
theorem Handles.Inv.step (huv : uv.Ok) (habort : s.world.aborted = none) (hs : s.Inv inst)
    {lab : HandleLabel ι V} (hstep : HandleStep uv inst s lab s') : s'.Inv inst := by
  cases hstep with
  | core hprivate hcore => exact hs.core huv hprivate hcore
  | refusedCreate => exact hs
  | refused => exact hs
  | refusedThen => exact hs
  | create hnew => exact hs.made huv habort hnew
  | close hh => exact hs.asked huv habort hh
  | @closeThen t h R hh ht =>
    have hloop : t ((s.asked h).handle h).loop = true := (s.requested_loop h).symm ▸ ht
    have hcreated : h ∈ (s.asked h).created := (s.requested_created h).symm ▸ hh
    have haborted : (s.asked h).world.aborted = none := (s.requested_aborted h).trans habort
    exact (hs.asked huv habort hh).chained huv haborted hcreated (by simp [Handles.asked]) hloop R
  | closed hh hclosing hclosed => exact hs.ended huv habort hh hclosing hclosed

/-- Every step keeps the invariant. -/
theorem handleStep_inv (huv : uv.Ok) (hs : s.Inv inst) {lab : HandleLabel ι V}
    (hstep : handleStep uv inst s lab = some s') : s'.Inv inst := by
  obtain ⟨habort, hcase⟩ := handleStep_cases huv hs hstep
  exact hs.step huv habort hcase

omit [DecidableEq ι] in
/-- It holds before the first step, -/
theorem Handles.Inv.start : ({} : Handles ι V).Inv inst where
  world := World.Inv.init
  named := World.RelaysNamed.init
  handle _ hh := nomatch hh
  distinct _ _ hh := nomatch hh
  thens _ _ _ ha := nomatch ha
  initial _ _ := rfl
  returned _ _ hf := nomatch hf

/-- and so along every run. -/
theorem runHandles_inv (huv : uv.Ok) {ls : List (HandleLabel ι V)}
    (hrun : runHandles uv inst ls = some s) : s.Inv inst :=
  run_invariant (fun _ _ _ hs hstep => handleStep_inv huv hs hstep) Handles.Inv.start hrun

/-! ### The futures that `close` has returned -/

/-- The future of the promise that the callback of `uv_close` has put in place was returned. -/
def Handles.Lost (s : Handles ι V) (h : ι) : Prop :=
  (s.handle h).closed = true ∧ (h, (s.handle h).closingPromise) ∈ s.returned

/-- The step is no call of `close` on the handle after the callback of its `uv_close`. -/
def InTime (h : ι) (s : Handles ι V) : HandleLabel ι V → Prop
  | .close t h' | .closeThen t h' _ =>
    t (s.handle h').loop = true → (s.handle h').closed = true → h' ≠ h
  | _ => True

instance (h : ι) (s : Handles ι V) : ∀ lab, Decidable (InTime h s lab)
  | .close t h' | .closeThen t h' _ => inferInstanceAs (Decidable
      (t (s.handle h').loop = true → (s.handle h').closed = true → h' ≠ h))
  | .core _ | .create .. | .closed _ => .isTrue trivial

@[simp] theorem Handles.requested_returned (s : Handles ι V) (h : ι) :
    (s.requested h).returned = s.returned := by
  unfold Handles.requested
  split <;> rfl

@[simp] theorem Handles.requested_closed (s : Handles ι V) (h : ι) :
    ((s.requested h).handle h).closed = (s.handle h).closed := by
  unfold Handles.requested
  split <;> simp [Handles.renew]

/-- A call of `close` loses a future when the handle is closed already. -/
theorem Handles.lost_asked_iff {h' : ι} : (s.asked h').Lost h ↔
    s.Lost h ∨ (s.handle h').closed = true ∧ h' = h := by
  rcases eq_or_ne h' h with rfl | hne
  · have hlost : s.Lost h' → (s.handle h').closed = true := fun hlost => hlost.1
    simpa [Handles.Lost, Handles.asked] using hlost
  · have hhandle : (s.requested h').handle h = s.handle h := Handles.requested_handle_of_ne hne.symm
    simp [Handles.Lost, Handles.asked, hhandle, hne, hne.symm]

/-- A new promise of a handle ends the loss of its futures, since it has returned none of them. -/
theorem Handles.lost_renew_iff (s : Handles ι V)
    (hcreated : ∀ f, (h, f) ∈ s.returned → f ∈ s.world.created) {h' : ι} {k : Handle} :
    (s.renew h' k).Lost h ↔ s.Lost h ∧ h' ≠ h := by
  rcases eq_or_ne h' h with rfl | hne
  · have hnew : (h', NodeId.user (fresh s.world)) ∉ s.returned :=
      fun hf => fresh_notMem s.world (hcreated _ hf)
    simp [Handles.Lost, Handles.renew, hnew]
  · simp [Handles.Lost, Handles.renew, hne, Function.update_of_ne hne.symm]

omit [DecidableEq ι] in
/-- The futures that `close` has returned exist. -/
theorem Handles.Inv.returned_created (hs : s.Inv inst) {f : NodeId} (hf : (h, f) ∈ s.returned) :
    f ∈ s.world.created := by
  have hinv := hs.handle h (hs.returned h f hf)
  obtain rfl | ⟨-, hcreated, -⟩ := (hinv.returned f hf).2
  · exact hinv.promise.passive.created
  · exact hcreated

omit [DecidableEq ι] in
/-- Before the callback nothing is lost. -/
theorem Handles.not_lost (hclosed : (s.handle h).closed = false) : ¬ s.Lost h :=
  fun hlost => Bool.false_ne_true (hclosed.symm.trans hlost.1)

/-- A step loses a future exactly when it calls `close` on a handle behind its callback. -/
theorem Handles.Inv.lost_step (huv : uv.Ok) (hs : s.Inv inst) {lab : HandleLabel ι V}
    (hstep : handleStep uv inst s lab = some s') : s'.Lost h ↔ s.Lost h ∨ ¬ InTime h s lab := by
  obtain ⟨habort, hcase⟩ := handleStep_cases huv hs hstep
  cases hcase with
  | core => simp [Handles.Lost, InTime]
  | refusedCreate => simp [InTime]
  | refused ht => simp [InTime, ht]
  | refusedThen ht => simp [InTime, ht]
  | @create t h' l hnew ht =>
    have hiff : (s.made h' l).Lost h ↔ s.Lost h ∧ h' ≠ h :=
      { s with created := s.created ++ [h'] }.lost_renew_iff fun f hf => hs.returned_created hf
    have hlost : s.Lost h → h' ≠ h := by
      rintro hlost rfl
      exact hnew (hs.returned h' _ hlost.2)
    simpa [hiff, InTime] using hlost
  | close _ ht => simp [Handles.lost_asked_iff, InTime, ht]
  | @closeThen t h' R _ ht =>
    have hiff : ((s.asked h').chained t h' R).Lost h ↔ (s.asked h').Lost h := Iff.rfl
    simp [hiff, Handles.lost_asked_iff, InTime, ht]
  | @closed h' hh hclosing hclosed =>
    have hresolve := step_resolve_eq huv habort hs.world (hs.handle h' hh).promise (inst h')
    have hext := (step_inv huv hs.world hresolve).2
    have hiff : (s.ended inst h').Lost h ↔ s.Lost h ∧ h' ≠ h :=
      { s with world := s.world.settled (s.handle h').closingPromise (.value (some (inst h'))) }.lost_renew_iff
        fun f hf => hext.created f (hs.returned_created hf)
    have hlost : s.Lost h → h' ≠ h := by
      rintro hlost rfl
      exact Handles.not_lost hclosed hlost
    simpa [hiff, InTime] using hlost

omit [DecidableEq ι] in
/-- Only a handle that exists is closed. -/
theorem Handles.Inv.created_of_closed (hs : s.Inv inst) (hclosed : (s.handle h).closed = true) :
    h ∈ s.created := by
  by_contra hnew
  rw [hs.initial h hnew] at hclosed
  cases hclosed

omit [DecidableEq ι] in
/-- In a state after the callback of `uv_close`, the futures are the ones it resolves but for the one
of the promise that it has put in place. -/
theorem Handles.Inv.resolved_iff (hs : s.Inv inst) (hh : (s.handle h).closed = true) :
    (∀ f, (h, f) ∈ s.returned → (s.world.futures f).resolver = some (.value (some (inst h)))) ↔
      ¬ s.Lost h := by
  have hinv := hs.handle h (hs.created_of_closed hh)
  constructor
  · rintro hall ⟨-, hlost⟩
    have hres := hall _ hlost
    rw [hinv.promise.unsettled] at hres
    cases hres
  · intro hlost f hf
    obtain rfl | ⟨-, -, hres⟩ := (hinv.returned f hf).2
    · exact absurd ⟨hh, hf⟩ hlost
    · exact hres

/-- Source: `Handle.cpp:28-46`. After the callback of `uv_close` every future that `close` has returned
is resolved with the handle, if and only if no call of `close` was made behind that callback. -/
theorem closes_resolved_iff (huv : uv.Ok) {ls : List (HandleLabel ι V)}
    (hrun : runHandles uv inst ls = some s) (hclosed : (s.handle h).closed = true) :
    (∀ f, (h, f) ∈ s.returned → (s.world.futures f).resolver = some (.value (some (inst h)))) ↔
      Along (handleStep uv inst) (InTime h) {} ls := by
  have hlost : ¬ s.Lost h ↔ ¬ ({} : Handles ι V).Lost h ∧ Along (handleStep uv inst) (InTime h) {} ls :=
    not_flag_iff_along (fun _ _ _ hs hstep => hs.lost_step huv hstep)
      (fun _ _ _ hs hstep => handleStep_inv huv hs hstep) Handles.Inv.start hrun
  rw [(runHandles_inv huv hrun).resolved_iff hclosed, hlost]
  exact and_iff_right (Handles.not_lost rfl)

end

/-- A handle on loop 0 is asked twice to close, and once more when it is closed. -/
def closedAgain : List (HandleLabel Unit Nat) :=
  [.create (Thread.ofLoop 0) () 0, .close (Thread.ofLoop 0) (), .close (Thread.ofLoop 0) (), .closed (),
    .close (Thread.ofLoop 0) ()]

/-- Two calls of `close` before the callback of `uv_close` return one promise, which is resolved. -/
theorem closes_resolved_iff_twice : ∃ s, runHandles {} (fun _ => 7) (closedAgain.take 4) = some s ∧
    ∀ f, ((), f) ∈ s.returned → (s.world.futures f).resolver = some (.value (some 7)) := by
  have hend : (runHandles {} (fun _ => 7) (closedAgain.take 4)).map (fun s => (s.handle ()).closed) =
      some true := by
    decide
  obtain ⟨s, hrun, hclosed⟩ := Option.map_eq_some_iff.mp hend
  refine ⟨s, hrun, (closes_resolved_iff (fun _ => ⟨rfl, rfl⟩) hrun hclosed).mpr (by decide)⟩

/-- The future of the last call stays pending. -/
theorem closes_unresolved : ∃ s, runHandles {} (fun _ => 7) closedAgain = some s ∧
    (s.handle ()).closed = true ∧ s.world.pending = [] ∧
    ¬ ∀ f, ((), f) ∈ s.returned → (s.world.futures f).resolver = some (.value (some 7)) := by
  have hend : (runHandles {} (fun _ => 7) closedAgain).map (fun s => ((s.handle ()).closed,
      s.world.pending, s.returned.map fun x => (s.world.futures x.2).resolver)) =
      some (true, [], [some (.value (some 7)), some (.value (some 7)), none]) := by
    decide
  obtain ⟨s, hrun, hs⟩ := Option.map_eq_some_iff.mp hend
  simp only [Prod.mk.injEq] at hs
  obtain ⟨hclosed, hpending, hfutures⟩ := hs
  refine ⟨s, hrun, hclosed, hpending, fun hall => ?_⟩
  have hnone : none ∈ s.returned.map fun x => (s.world.futures x.2).resolver := by simp [hfutures]
  obtain ⟨⟨h, f⟩, hf, hres⟩ := List.mem_map.mp hnone
  rw [hall f hf] at hres
  cases hres

end

end NodeNative.Base
