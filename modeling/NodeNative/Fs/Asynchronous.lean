import NodeNative.Fs.Operations
import NodeNative.Worker.Handlers

/-!
# The asynchronous operations and their synchronous forms

An operation is called on the thread of a loop, its callable ends later, on the loop or on a thread of
libuv's pool, and the run goes on (`Op.Run`). It refines its synchronous form when no exception leaves
the callable and, once nothing is left to do, its future has what the synchronous form would have
returned or thrown on the thread of the loop (`Op.Refines`).

A thread of the pool has no loop as a rule, so the lookup fails in the callables that `worker` runs, and
the failed assertion ends the process. `stat`, `fstat`, `lstat` and `exists` run on the loop, but an
`Error` leaves their callable. What is left is `Op.Meets` (`refines_sync_iff`).
-/

namespace NodeNative.Fs

open Transition

/-! ### The end of a callable -/

/-- How the callable ends: of what it throws, only a `FutureError` is caught by those who call it. -/
def returned : Except Thrown (Option Value) → CallbackReturn Value
  | .ok v => .value v
  | .error (.exn (.futureError e)) => .throws e
  | .error (.exn (.exception m)) | .error (.exn (.runtimeError m)) => .raises m
  | .error (.error e) => .raises e.text
  | .error .logicError => .raises "basic_string: construction from null is not valid"

/-- What the future of the operation is settled with. Source: `fs.cpp:562-566` for `exists`. -/
def Op.outcome (op : Op) (c : CallbackReturn Value) : Option (FutureSharedResolver Value) :=
  match op, c with
  | .exists _, .value _ => some (.value (some (.bool true)))
  | .exists _, .throws _ => some (.value (some (.bool false)))
  | _, .value v => some (.value v)
  | _, .throws e => some (.error e)
  | _, _ => none

section
variable {W : Type} (uv : Uv W) (loops : LoopMap) (t p : ThreadId) (fuel : Nat)

/-- When the operation does as its synchronous form. -/
def Op.Meets (w : W) : Op → Prop
  | .readdir .. => True
  | .stat path | .exists path => 0 ≤ (uv.fs (.stat path) w).1.result
  | .fstat fd => 0 ≤ (uv.fs (.fstat fd) w).1.result
  | .lstat path => 0 ≤ (uv.fs (.lstat path) w).1.result
  | .symlink _ _ type => symlinkFlags type = none ∨ (Loop.getInstance loops p).isSome
  | _ => (Loop.getInstance loops p).isSome

/-- An outcome is that of the synchronous form. -/
def Op.Agrees (op : Op) (w : W) (o : Option (FutureSharedResolver Value)) : Prop :=
  (∀ v w', (op.sync uv loops t fuel).exec w = some (.ok v, w') → o = some (.value v)) ∧
  ∀ e w', (op.sync uv loops t fuel).exec w = some (.error (.error e), w') →
    ∃ text, e.str uv = some text ∧ o = some (.error ⟨text⟩)

variable {uv loops t p fuel} {op : Op} {w w' : W} {r : Except Thrown (Option Value)}

/-- An operation of a worker meets its synchronous one exactly when it finds a loop, or fails before it
needs one. -/
theorem Op.meets_iff (hop : op.onLoop = false) : op.Meets uv loops p w ↔
    (Loop.getInstance loops p).isSome ∨
      ∃ srcpath dstpath type, op = .symlink srcpath dstpath type ∧ symlinkFlags type = none := by
  cases op with
  | symlink srcpath dstpath type => simp [Op.Meets, or_comm]
  | readdir | stat | fstat | lstat | «exists» => cases hop
  | _ => simp [Op.Meets]

/-- What the worker calls is the synchronous operation, with its errors translated. -/
theorem Op.callable_eq (hop : op.onLoop = false) :
    op.callable uv loops p fuel = inWorker uv (op.sync uv loops p fuel) := by
  cases op with
  | readdir | stat | fstat | lstat | «exists» => cases hop
  | _ => rfl

/-- The value of an operation arrives as it is, but for `exists`, -/
theorem Op.outcome_value (hop : ∀ path, op ≠ .exists path) (v : Option Value) :
    op.outcome (.value v) = some (.value v) := by
  cases op with
  | «exists» path => exact absurd rfl (hop path)
  | _ => rfl

/-- and so does its error. -/
theorem Op.outcome_throws (hop : ∀ path, op ≠ .exists path) (e : FutureError) :
    op.outcome (.throws e) = some (.error e) := by
  cases op with
  | «exists» path => exact absurd rfl (hop path)
  | _ => rfl

/-- Behind the handler of the macro an operation that throws nothing but an `Error` ends as its
synchronous form. -/
theorem Op.agrees_inWorker (hop : ∀ path, op ≠ .exists path)
    (herrors : ThrowsErrors uv (op.sync uv loops t fuel))
    (hexec : (inWorker uv (op.sync uv loops t fuel)).exec w = some (r, w')) :
    (∀ m, returned r ≠ .raises m) ∧ op.Agrees uv loops t fuel w (op.outcome (returned r)) := by
  rw [exec_inWorker] at hexec
  obtain ⟨⟨out, w₁⟩, hsync, heq⟩ := Option.map_eq_some_iff.mp hexec
  obtain ⟨rfl, rfl⟩ := Prod.mk.inj heq
  dsimp only at *
  rw [Op.Agrees, hsync]
  cases out with
  | ok v =>
    refine ⟨fun m hm => ?_, fun v' w₂ hv => ?_, fun e w₂ he => ?_⟩
    · cases hm
    · cases hv
      exact Op.outcome_value hop v
    · cases he
  | error e =>
    obtain ⟨err, rfl, hsome⟩ := herrors w e w₁ hsync
    obtain ⟨text, htext⟩ := Option.isSome_iff_exists.mp hsome
    have hreturned : returned ((Except.error (Thrown.error err)).mapError (Thrown.translated uv)) =
        .throws ⟨text⟩ := by
      simp [Except.mapError, Thrown.translated, htext, returned]
    rw [hreturned]
    refine ⟨fun m hm => ?_, fun v' w₂ hv => ?_, fun e w₂ he => ?_⟩
    · cases hm
    · cases hv
    · cases he
      exact ⟨text, htext, Op.outcome_throws hop _⟩

section
variable {l : LoopId} (hl : Loop.getInstance loops t = some l)
include hl

/-- A callable that reads the `uv_stat_t` of a file lets an `Error` out. -/
theorem ends_stat (req : UvRequest) (hexec : (valued .stats (do
      let answer ← uvFsCall uv loops t req
      pure answer.stat)).exec w = some (r, w')) :
    0 ≤ (uv.fs req w).1.result ∧ r = .ok (some (.stats (uv.fs req w).1.stat)) ∨
      (uv.fs req w).1.result < 0 ∧ r = .error (.error ⟨(uv.fs req w).1.result, ""⟩) := by
  rw [exec_stat hl] at hexec
  obtain ⟨hr, -⟩ := Prod.mk.inj (Option.some.inj hexec)
  rcases Int.lt_or_le (uv.fs req w).1.result 0 with hneg | hpos
  · rw [if_pos hneg] at hr
    exact .inr ⟨hneg, hr.symm⟩
  · rw [if_neg (Int.not_lt.mpr hpos)] at hr
    exact .inl ⟨hpos, hr.symm⟩

/-- Such an operation does as its synchronous form when the call succeeds. -/
theorem Op.ends_of_stat {req : UvRequest} (hsync : op.sync uv loops t fuel = valued .stats (do
      let answer ← uvFsCall uv loops t req
      pure answer.stat)) (hop : ∀ path, op ≠ .exists path)
    (hexec : (op.sync uv loops t fuel).exec w = some (r, w')) :
    ((∀ m, returned r ≠ .raises m) ↔ 0 ≤ (uv.fs req w).1.result) ∧
      ((∀ m, returned r ≠ .raises m) → op.Agrees uv loops t fuel w (op.outcome (returned r))) := by
  rw [hsync] at hexec
  rw [Op.Agrees, hsync, hexec]
  rcases ends_stat hl req hexec with ⟨hpos, rfl⟩ | ⟨hneg, rfl⟩
  · refine ⟨iff_of_true (fun m hm => by cases hm) hpos, fun _ => ⟨fun v w₁ hv => ?_, fun e w₁ he => ?_⟩⟩
    · cases hv
      exact Op.outcome_value hop _
    · cases he
  · refine ⟨iff_of_false (fun h => h _ rfl) (Int.not_le.mpr hneg), fun h => absurd rfl (h _)⟩

/-- How the callable of an operation ends. -/
theorem Op.ends_iff
    (hexec : (op.callable uv loops (if op.onLoop then t else p) fuel).exec w = some (r, w')) :
    ((∀ m, returned r ≠ .raises m) ↔ op.Meets uv loops p w) ∧
      ((∀ m, returned r ≠ .raises m) → op.Agrees uv loops t fuel w (op.outcome (returned r))) := by
  have herrors : ThrowsErrors uv (op.sync uv loops t fuel) := Op.throwsErrors hl fuel op
  by_cases hop : op.onLoop = true
  · rw [if_pos hop] at hexec
    cases op with
    | readdir path flags =>
      obtain ⟨hr, hagrees⟩ := Op.agrees_inWorker (by simp) herrors hexec
      exact ⟨iff_of_true hr trivial, fun _ => hagrees⟩
    | stat path => exact Op.ends_of_stat hl rfl (by simp) hexec
    | fstat fd => exact Op.ends_of_stat hl rfl (by simp) hexec
    | lstat path => exact Op.ends_of_stat hl rfl (by simp) hexec
    | «exists» path =>
      rcases ends_stat hl (.stat path) hexec with ⟨hpos, rfl⟩ | ⟨hneg, rfl⟩
      · have hsync : ((Op.exists path).sync uv loops t fuel).exec w =
            some (.ok (some (.bool true)), (uv.fs (.stat path) w).2) := by
          rw [Op.sync, valued, exec_bind, existsSync, exec_tryCatch, exec_bind, statSync, exec_bind,
            exec_uvFsCall uv hl rfl hpos]
          rfl
        rw [Op.Agrees, hsync]
        refine ⟨iff_of_true (fun m hm => by cases hm) hpos, fun _ => ⟨fun v w₁ hv => ?_, fun e w₁ he => ?_⟩⟩
        · cases hv
          rfl
        · cases he
      · exact ⟨iff_of_false (fun h => h _ rfl) (Int.not_le.mpr hneg), fun h => absurd rfl (h _)⟩
    | _ => cases hop
  · have hop := Bool.eq_false_iff.mpr hop
    have hnot : ∀ path, op ≠ .exists path := by
      rintro path rfl
      cases hop
    rw [hop, if_neg Bool.false_ne_true, Op.callable_eq hop] at hexec
    rw [Op.meets_iff hop]
    cases hp : Loop.getInstance loops p with
    | some l' =>
      rw [Op.sync_eq hl hp] at hexec
      obtain ⟨hr, hagrees⟩ := Op.agrees_inWorker hnot herrors hexec
      exact ⟨iff_of_true hr (.inl rfl), fun _ => hagrees⟩
    | none =>
      by_cases hlink : ∃ srcpath dstpath type, op = .symlink srcpath dstpath type ∧
        symlinkFlags type = none
      · obtain ⟨srcpath, dstpath, type, rfl, htype⟩ := hlink
        have hsync : (Op.symlink srcpath dstpath type).sync uv loops p fuel =
            (Op.symlink srcpath dstpath type).sync uv loops t fuel := by
          rw [Op.sync, Op.sync, symlinkSync, symlinkSync, htype]
        rw [hsync] at hexec
        obtain ⟨hr, hagrees⟩ := Op.agrees_inWorker hnot herrors hexec
        exact ⟨iff_of_true hr (.inr ⟨_, _, _, rfl, htype⟩), fun _ => hagrees⟩
      · have hfails : FailsLookup (op.sync uv loops p fuel) := by
          refine Op.failsLookup hp fuel hop ?_
          rintro srcpath dstpath type rfl htype
          exact hlink ⟨_, _, _, rfl, htype⟩
        rw [exec_inWorker, hfails w] at hexec
        obtain ⟨rfl, -⟩ := Prod.mk.inj (Option.some.inj hexec)
        refine ⟨iff_of_false (fun h => h _ rfl) ?_, fun h => absurd rfl (h _)⟩
        rintro (hsome | hsome)
        · cases hsome
        · exact hlink hsome

end

end

/-! ### Runs -/

/-- The calls of an operation for the loop `l`, on a thread that sees itself as `t`. -/
def Op.calls (op : Op) (l : LoopId) (t : Thread) (n : Nat → Nat) : List (WorkerLabel Value) :=
  match op with
  | .exists _ => [.core (.async l (n 0) .value), .core (.thenCb t (.user (n 0)) (n 1) .value),
      .core (.errorCb t (.user (n 1)) (n 2))]
  | op =>
    if op.onLoop then [.core (.async l (n 0) .value)]
    else [.worker l (n 0) (if op.isVoid then .void else .value)]

/-- What the callbacks of its nodes end with when the callable, that of the first node, ends with `c`.
Source: `fs.cpp:562-566`. -/
def Op.ends (op : Op) (c : CallbackReturn Value) : List (CallbackReturn Value) :=
  match op with
  | .exists _ => [c, .value (some (.bool true)), .value (some (.bool false))]
  | _ => [c]

/-- The node of the future that the operation returns. -/
def Op.last : Op → Nat
  | .exists _ => 2
  | _ => 0

/-- The callable of the operation, that of the node, ends in this step: on a thread of the pool, or on
the loop. -/
def Op.Ended (op : Op) (n : Nat) (s : Workers Value) : WorkerLabel Value → Prop
  | .worked m _ => op.onLoop = false ∧ m = n
  | .core (.ret l _) => op.onLoop = true ∧ s.world.running l = some (.user n)
  | _ => False

/-- The operation is called for the loop `l`, its callable ends with `c` in the step `lab` from `s₀` to
`s₁`, and the run goes on to `s`. The program has no promise of its futures. -/
structure Op.Run (uva : UvAsync) (uvw : UvWork) (op : Op) (l : LoopId) (n : Nat → Nat)
    (c : CallbackReturn Value) (ls₀ : List (WorkerLabel Value)) (lab : WorkerLabel Value)
    (ls₁ : List (WorkerLabel Value)) (s₀ s₁ s : Workers Value) : Prop where
  before : runWorkers uva uvw ls₀ = some s₀
  calls : ∃ t, ∀ lab ∈ op.calls l t n, lab ∈ ls₀
  ended : op.Ended (n 0) s₀ lab
  step : workerStep uva uvw s₀ lab = some s₁
  run : runWorkers uva uvw (ls₀ ++ lab :: ls₁) = some s
  returns : ∀ i c', (op.ends c)[i]? = some c' →
    Along (workerStep uva uvw) (fun s lab => lab.ReturnsOf (n i) c' s) {} (ls₀ ++ lab :: ls₁)
  leaves : ∀ i < (op.ends c).length, ∀ lab' ∈ ls₀ ++ lab :: ls₁, lab'.Leaves (n i)

section
variable {uva : UvAsync} {uvw : UvWork} {op : Op} {l : LoopId} {n : Nat → Nat}
  {c : CallbackReturn Value} {ls₀ ls₁ : List (WorkerLabel Value)} {lab : WorkerLabel Value}
  {s₀ s₁ s : Workers Value}

/-- The first future of an operation ends as its callback returns. -/
theorem Op.ends_zero (op : Op) (c : CallbackReturn Value) : (op.ends c)[0]? = some c := by
  cases op <;> rfl

/-- An operation makes as many futures as its chain has links, and one more. -/
theorem Op.length_ends (op : Op) (c : CallbackReturn Value) : (op.ends c).length = op.last + 1 := by
  cases op <;> rfl

/-- An operation of the loop is enqueued on it, -/
theorem Op.async_mem (hop : op.onLoop = true) (t : Thread) :
    .core (.async l (n 0) .value) ∈ op.calls l t n := by
  cases op with
  | readdir | stat | fstat | lstat | «exists» => exact .head _
  | _ => cases hop

/-- and one of a worker is given to the pool. -/
theorem Op.worker_mem (hop : op.onLoop = false) (t : Thread) :
    .worker l (n 0) (if op.isVoid then .void else .value) ∈ op.calls l t n := by
  cases op with
  | readdir | stat | fstat | lstat | «exists» => cases hop
  | _ => exact .head _

section
variable (huv : uva.Ok) (huw : uvw.Ok) (h : op.Run uva uvw l n c ls₀ lab ls₁ s₀ s₁ s)
include huv huw h

/-- The callable runs on the loop as that of an `async`. -/
theorem Op.Run.ofAsync (hop : op.onLoop = true) {ms : List (WorkerLabel Value)} {s' : Workers Value}
    (hpre : ls₀ <+: ms) (hms : ms <+: ls₀ ++ lab :: ls₁) (hrun : runWorkers uva uvw ms = some s')
    (hok : s'.world.aborted = none) : s'.world.OfAsync l (n 0) c := by
  obtain ⟨t, hcalls⟩ := h.calls
  obtain ⟨ms', hms⟩ := hms
  have hret := h.returns 0 c (op.ends_zero c)
  rw [← hms] at hret
  refine run_ofAsync huv huw hret.append.1 (fun lab' hlab' => ?_) hrun hok
    (hpre.subset (hcalls _ (Op.async_mem hop t)))
  have hlt : 0 < (op.ends c).length := by
    rw [op.length_ends]
    exact Nat.succ_pos _
  exact h.leaves 0 hlt lab' (hms ▸ List.mem_append_left _ hlab')

/-- What the callable throws, and nothing else, ends the process in its last step. -/
theorem Op.Run.contained_iff (hc : ∀ g, c ≠ .future g) :
    s₁.world.aborted = none ↔ ∀ m, c ≠ .raises m := by
  have haborted := workerStep_not_aborted h.step
  have hinv := runWorkers_inv huv huw h.before haborted
  have hret := ((h.returns 0 c (op.ends_zero c)).append.2 h.before).1
  have hcases := workerStep_cases huv huw hinv h.step
  have hended := h.ended
  cases lab with
  | worked m r =>
    obtain ⟨-, rfl⟩ := hended
    obtain rfl : r = c := hret rfl
    obtain ⟨-, -, ⟨hr, rfl⟩ | ⟨m', rfl, rfl⟩⟩ := hcases
    · exact iff_of_true haborted hr
    · exact iff_of_false (by simp) fun hall => hall m' rfl
  | core lab =>
    cases lab with
    | ret l' r =>
      obtain ⟨hop, hrun⟩ := hended
      obtain rfl : r = c := hret hrun
      obtain ⟨w', hstep, rfl⟩ := hcases
      have hasync := h.ofAsync huv huw hop (List.prefix_refl _) (List.prefix_append _ _) h.before
        haborted
      obtain ⟨R, hcls⟩ := hasync.cls
      have hl : l' = l := (hinv.world.running l' _ hrun).1.symm.trans hasync.loops.1
      by_cases hraises : ∃ m, r = .raises m
      · obtain ⟨m, rfl⟩ := hraises
        rw [step_ret_raises hinv.world hrun hstep]
        exact iff_of_false (by simp) fun hall => hall m rfl
      · have hall : ∀ m, r ≠ .raises m := fun m hm => hraises ⟨m, hm⟩
        obtain ⟨res, -, rfl⟩ := step_ret_settles huv hinv.world hrun (hasync.loops.2.trans hl.symm)
          (by simp [hcls]) (hasync.own _ (.inl rfl) (.inr ⟨l', hrun⟩)) hstep hall hc
        exact iff_of_true haborted hall
    | _ => cases hended
  | _ => cases hended

/-- The future that the callable settles. -/
theorem Op.Run.outcome_first (hq : s.Quiet) (hc : ∀ g, c ≠ .future g) :
    (s.world.futures (.user (n 0))).resolver = c.outcome s.world := by
  have hlt : 0 < (op.ends c).length := by
    rw [op.length_ends]
    exact Nat.succ_pos _
  have hended : s.world.Ended (.user (n 0)) c := by
    cases hop : op.onLoop with
    | true =>
      exact (h.ofAsync huv huw hop (List.prefix_append _ _) (List.prefix_refl _) h.run hq.aborted).ended
        hq.pending hq.running
    | false =>
      obtain ⟨t, hcalls⟩ := h.calls
      have hworker := List.mem_append_left (lab :: ls₁) (hcalls _ (Op.worker_mem hop t))
      exact (run_stage huv huw (h.returns 0 c (op.ends_zero c)) (h.leaves 0 hlt) h.run hq.aborted
        hworker).2.ended hq.requests
  exact hended.outcome hq.pending hq.aborted fun g hg => absurd hg (hc g)

/-- The future that the operation returns. -/
theorem Op.Run.outcome (hq : s.Quiet) (hc : ∀ g, c ≠ .future g) (hraises : ∀ m, c ≠ .raises m) :
    (s.world.futures (.user (n op.last))).resolver = op.outcome c := by
  have hfirst := h.outcome_first huv huw hq hc
  cases op with
  | «exists» path =>
    obtain ⟨t, hcalls⟩ := h.calls
    have hmem : ∀ lab' ∈ (Op.exists path).calls l t n, lab' ∈ ls₀ ++ lab :: ls₁ := fun lab' hlab' =>
      List.mem_append_left _ (hcalls lab' hlab')
    have hinv := (runWorkers_inv huv huw h.run hq.aborted).world
    have hthen : s.world.OfHandler (.user (n 0)) (n 1) true (some (.bool true)) :=
      run_ofHandler huv huw (h.returns 1 _ rfl) (h.leaves 1 (by simp [Op.ends])) h.run hq.aborted (t := t)
        (hmem _ (.tail _ (.head _)))
    have herror : s.world.OfHandler (.user (n 1)) (n 2) false (some (.bool false)) :=
      run_ofHandler huv huw (h.returns 2 _ rfl) (h.leaves 2 (by simp [Op.ends])) h.run hq.aborted (t := t)
        (hmem _ (.tail _ (.tail _ (.head _))))
    have hthenClass : (s.world.action (.user (n 1))).cls ≠ .actionCallbackError := by
      rw [hthen.cls, FutureShared.handlerClass, if_pos rfl, FutureShared.thenClass]
      split <;> simp
    have herrorClass : (s.world.action (.user (n 2))).cls ≠ .actionCallbackError := by
      simp [herror.cls, FutureShared.handlerClass, FutureShared.errorClass, hthen.isVoid rfl]
    have hsecond := fun r => hthen.outcome hinv hq.pending hq.running hthenClass (r := r)
    have hthird := fun r => herror.outcome hinv hq.pending hq.running herrorClass (r := r)
    cases c with
    | value v => exact hthird _ (hsecond _ hfirst)
    | throws e => exact hthird _ (hsecond _ hfirst)
    | raises m => exact absurd rfl (hraises m)
    | future g => exact absurd rfl (hc g)
  | _ =>
    refine hfirst.trans ?_
    cases c with
    | value v => rfl
    | throws e => rfl
    | raises m => exact absurd rfl (hraises m)
    | future g => exact absurd rfl (hc g)

end

end

/-! ### Refinement -/

section
variable {W : Type}

/-- No exception has left the callable by the state `s₁`, and when nothing is left to do in `s` the
future of the node has what the synchronous form returns or throws. -/
structure Op.Refines (uv : Uv W) (loops : LoopMap) (t : ThreadId) (fuel : Nat) (op : Op) (w : W)
    (n : Nat) (s₁ s : Workers Value) : Prop where
  contained : s₁.world.aborted = none
  agrees : s.Quiet → op.Agrees uv loops t fuel w (s.world.futures (.user n)).resolver

/-- No synchronous operation returns a future. -/
theorem returned_ne_future (r : Except Thrown (Option Value)) (g : NodeId) : returned r ≠ .future g := by
  rcases r with e | v
  · rcases e with e | e | _
    · simp [returned]
    · cases e <;> simp [returned]
    · simp [returned]
  · simp [returned]

/-- Source: `fs.cpp:136-158`, `:183-568`, `Loop.cpp:94-114`, `WorkerCallback.ipp:103-149`. An operation
is called for a loop. When its callable runs, from the state `w` of what is outside, that loop is the one
of the thread `t`; `p` is the thread of the pool that takes a worker. -/
theorem refines_sync_iff {uva : UvAsync} {uvw : UvWork} (huv : uva.Ok) (huw : uvw.Ok) {uv : Uv W}
    {op : Op} {loops : LoopMap} {t p : ThreadId} {l : LoopId} (hl : Loop.getInstance loops t = some l)
    {fuel : Nat} {w w' : W} {r : Except Thrown (Option Value)}
    (hexec : (op.callable uv loops (if op.onLoop then t else p) fuel).exec w = some (r, w'))
    {n : Nat → Nat} {ls₀ ls₁ : List (WorkerLabel Value)} {lab : WorkerLabel Value}
    {s₀ s₁ s : Workers Value} (h : op.Run uva uvw l n (returned r) ls₀ lab ls₁ s₀ s₁ s) :
    op.Refines uv loops t fuel w (n op.last) s₁ s ↔ op.Meets uv loops p w := by
  have hfuture := returned_ne_future r
  obtain ⟨hmeets, hagrees⟩ := Op.ends_iff hl hexec
  have hcontained := h.contained_iff huv huw hfuture
  rw [← hmeets]
  constructor
  · exact fun hrefines => hcontained.mp hrefines.contained
  · intro hraises
    refine ⟨hcontained.mpr hraises, fun hq => ?_⟩
    rw [h.outcome huv huw hq hfuture hraises]
    exact hagrees hraises

end

/-! ### Two runs -/

/-- A libuv with which every call succeeds. -/
def succeeding : Uv Unit where
  fs _ w := ({ result := 3 }, w)
  strerror _ := ""

/-- The loop 0 is that of the thread 0. -/
def oneLoop : LoopMap := registerLoop [] 0 0

/-- `exists` is called for the loop, and its callable is started, -/
def existsCalled : List (WorkerLabel Value) :=
  [.core (.async 0 0 .value), .core (.thenCb (Thread.ofLoop 0) (.user 0) 1 .value),
    .core (.errorCb (Thread.ofLoop 0) (.user 1) 2), .core (.fire (.user 0))]

/-- and after its end its handlers run. -/
def existsHandled : List (WorkerLabel Value) :=
  [.core (.fire (.user 1)), .core (.ret 0 (.value (some (.bool true)))), .core (.fire (.user 2))]

def existsEnds : WorkerLabel Value := .core (.ret 0 (.value (some (.stats {}))))

def existsRunning : Workers Value := (runWorkers {} (fun _ => 0) existsCalled).get (by decide +kernel)

def existsEnded : Workers Value :=
  (workerStep {} (fun _ => 0) existsRunning existsEnds).get (by decide +kernel)

def existsDone : Workers Value :=
  (runWorkers {} (fun _ => 0) (existsCalled ++ existsEnds :: existsHandled)).get (by decide +kernel)

/-- `exists` of a file that is there. -/
theorem refines_sync_exists :
    (Op.exists "a").Refines succeeding oneLoop 0 0 () 2 existsEnded existsDone := by
  have huv : UvAsync.Ok {} := fun _ => ⟨rfl, rfl⟩
  have huw : UvWork.Ok (fun _ => 0) := fun _ => rfl
  have hrun : (Op.exists "a").Run {} (fun _ => 0) 0 id (returned (.ok (some (.stats {})))) existsCalled
      existsEnds existsHandled existsRunning existsEnded existsDone := by
    refine
      { before := (Option.some_get _).symm, calls := ⟨Thread.ofLoop 0, ?_⟩, ended := ⟨rfl, ?_⟩,
        step := (Option.some_get _).symm, run := (Option.some_get _).symm, returns := ?_, leaves := ?_ }
    · simp [Op.calls, existsCalled]
    · decide +kernel
    · intro i c hi
      rcases i with _ | _ | _ | i <;> cases hi <;> decide +kernel
    · intro i _
      simp [existsCalled, existsEnds, existsHandled, WorkerLabel.Leaves, WorkerLabel.Settles,
        Label.Settles]
  have hpos : (0 : Int) ≤ 3 := by decide
  exact (refines_sync_iff huv huw (p := 1) (Loop.getInstance_registerLoop [] 0 0) rfl hrun).mpr hpos

/-- `open` is called for the loop, and a thread of the pool takes it. -/
def openCalled : List (WorkerLabel Value) := [.worker 0 0 .value, .work 0]

/-- Its callable finds no loop on the thread 1. -/
def openEnds : WorkerLabel Value := .worked 0 (returned (.error (.exn (assertionFailed "instance"))))

def openWorking : Workers Value := (runWorkers {} (fun _ => 0) openCalled).get (by decide +kernel)

def openEnded : Workers Value :=
  (workerStep {} (fun _ => 0) openWorking openEnds).get (by decide +kernel)

/-- `openSync` returns a descriptor, and the exception of `open` ends the process. -/
theorem open_not_refines :
    ((Op.open "a" 0 0).callable succeeding oneLoop 1 0).exec () =
      some (.error (.exn (assertionFailed "instance")), ()) ∧
    ((Op.open "a" 0 0).sync succeeding oneLoop 0 0).exec () = some (.ok (some (.handle 3)), ()) ∧
    (Op.open "a" 0 0).Run {} (fun _ => 0) 0 id (returned (.error (.exn (assertionFailed "instance"))))
      openCalled openEnds [] openWorking openEnded openEnded ∧
    ¬ (Op.open "a" 0 0).Refines succeeding oneLoop 0 0 () 0 openEnded openEnded := by
  refine ⟨rfl, rfl, ?_, fun hrefines => ?_⟩
  · refine
      { before := (Option.some_get _).symm, calls := ⟨Thread.ofLoop 0, ?_⟩, ended := ⟨rfl, rfl⟩,
        step := (Option.some_get _).symm, run := ?_, returns := ?_, leaves := ?_ }
    · simp [Op.calls, openCalled, Op.onLoop, Op.isVoid]
    · exact (Option.some_get _).symm
    · intro i c hi
      rcases i with _ | i <;> cases hi
      decide +kernel
    · intro i _
      simp [openCalled, openEnds, WorkerLabel.Leaves, WorkerLabel.Settles]
  · have haborted : openEnded.world.aborted ≠ none := by decide +kernel
    exact haborted hrefines.contained

end NodeNative.Fs
