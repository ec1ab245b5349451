import NodeNative.Base.Continuations

/-!
# Timers

A `Timer` is a `Handle`. `OnTimeout` closes a timer that does not repeat, or has no callback, before it
calls the callback. Each call of `Timer::close` chains a callback to the closing of the handle, and each
of these calls the callback of `onClose`.
-/

namespace NodeNative.Base

open Transition

/-- The fields of a `Timer` and of its `uv_timer_t`: the repeat value, whether `_callback` is set, which
function `_onClose` holds, whether `uv_timer_start` has set the callback of libuv, and whether the timer
runs. Source: `Timer.hpp:80-82`. -/
structure Timer where
  repeatValue : Nat := 0
  callback : Bool := false
  onClose : Option Nat := none
  started : Bool := false
  active : Bool := false

/-- The asynchronous core, the timers in it, the timer whose `_callback` is on the stack of a loop, and
the calls that were made of the functions in `_onClose`. -/
structure Timers (V : Type) where
  base : Handles Nat V := {}
  timer : Nat → Timer := fun _ => {}
  onStack : LoopId → Option Nat := fun _ => none
  closeCalls : List (Nat × Nat) := []

/-- The calls of a `Timer` that do not close it. -/
inductive TimerCall
  | start (repeatValue : Nat)
  | stop
  | setRepeat (repeatValue : Nat)
  | again
  | onTimeout (callback : Bool)
  | onClose (callback : Option Nat)

/-- What the calls do; libuv starts no closing handle. Source: `Timer.cpp:28-32`, `:48-50`, `:65` and
`Timer.hpp:33`. -/
def Timer.call (k : Timer) (isClosing : Bool) : TimerCall → Timer
  | .start n => if isClosing then k else { k with repeatValue := n, started := true, active := true }
  | .stop => { k with active := false }
  | .setRepeat n => { k with repeatValue := n }
  | .again => if k.started && k.repeatValue != 0 && !isClosing then { k with active := true } else k
  | .onTimeout callback => { k with callback := callback }
  | .onClose callback => { k with onClose := callback }

section
variable {V : Type}

/-- Source: `Timer.cpp:52`. -/
def Timer.close (uv : UvAsync) (t : Thread) (h : Nat) : HandleM Nat V Unit :=
  Handle.closeThen uv t h .value

/-- The callback of libuv up to the call of `_callback`. Source: `Timer.cpp:34-38`. -/
def Timer.OnTimeout (uv : UvAsync) (k : Timer) (h : Nat) : HandleM Nat V Unit := do
  if k.repeatValue = 0 || !k.callback then
    close uv (Thread.ofLoop ((← get).handle h).loop) h

/-- What can happen: a step of the core, `Timer::Create` on loop `l`, a call on a timer, `Timer::close`,
a timeout, the return of the `_callback` on the stack of `l`, and the callback of `uv_close`. -/
inductive TimerLabel (V : Type)
  | core (lab : Label V)
  | create (t : Thread) (h : Nat) (l : LoopId) (callback : Bool)
  | call (h : Nat) (c : TimerCall)
  | close (t : Thread) (h : Nat)
  | timeout (h : Nat)
  | returned (l : LoopId)
  | closed (h : Nat)

/-- A loop takes no step of its own while a `_callback` is on its stack. -/
def Timers.inTimeout (s : Timers V) : Label V → Bool
  | .fire a | .close a => (s.onStack (s.base.world.action a).loop).isSome
  | _ => false

/-- The callback chained by `Timer::close` calls the function in `_onClose`, when there is one. Source:
`Timer.cpp:54-60`. -/
def Timers.answer (s : Timers V) (h : Option Nat) : List (Nat × Nat) :=
  match h with
  | some h => ((s.timer h).onClose.map (h, ·)).toList
  | none => []

/-- One step; `none` when the label is not enabled. Libuv stops a timer whose time is over, and starts
it again when it repeats, before it calls `OnTimeout`. -/
def timerStep (uv : UvAsync) (inst : Nat → V) (s : Timers V) (lab : TimerLabel V) : Option (Timers V) :=
  if s.base.world.aborted.isSome then none else
  match lab with
  | .core lab =>
    if s.inTimeout lab then none
    else (handleStep uv inst s.base (.core lab)).map fun b =>
      { s with base := b, closeCalls := s.closeCalls ++ s.answer (s.base.answered lab b.world) }
  | .create t h l callback =>
    (handleStep uv inst s.base (.create t h l)).map fun b =>
      { s with base := b, timer := Function.update s.timer h { callback := callback } }
  | .call h c =>
    if s.base.created.contains h then
      some { s with timer := Function.update s.timer h ((s.timer h).call (s.base.handle h).isClosing c) }
    else none
  | .close t h =>
    if s.base.created.contains h then some { s with base := s.base.call (Timer.close uv t h) } else none
  | .timeout h =>
    let k := s.timer h
    let l := (s.base.handle h).loop
    if s.base.created.contains h && k.active && !(s.base.handle h).isClosing &&
        (s.base.world.running l).isNone && (s.onStack l).isNone then
      some { s with
        base := s.base.callback (Timer.OnTimeout uv k h)
        timer := Function.update s.timer h { k with active := k.repeatValue != 0 }
        onStack := if k.callback then Function.update s.onStack l (some h) else s.onStack }
    else none
  | .returned l =>
    if (s.onStack l).isSome then some { s with onStack := Function.update s.onStack l none } else none
  | .closed h =>
    if (s.onStack (s.base.handle h).loop).isSome then none
    else (handleStep uv inst s.base (.closed h)).map fun b => { s with base := b }

/-! ### The steps -/

section
variable {uv : UvAsync} {inst : Nat → V} {s s' : Timers V} {h k : Nat}

/-- The steps with what they do to the core and its handles. -/
inductive TimerStep (uv : UvAsync) (inst : Nat → V) (s : Timers V) : TimerLabel V → Timers V → Prop
  | core {lab : Label V} {b : Handles Nat V} (hbase : HandleStep uv inst s.base (.core lab) b) :
    TimerStep uv inst s (.core lab) { s with
      base := b, closeCalls := s.closeCalls ++ s.answer (s.base.answered lab b.world) }
  | create {t : Thread} {h : Nat} {l : LoopId} {callback : Bool} {b : Handles Nat V}
    (hbase : HandleStep uv inst s.base (.create t h l) b) :
    TimerStep uv inst s (.create t h l callback) { s with
      base := b, timer := Function.update s.timer h { callback := callback } }
  | call {h : Nat} {c : TimerCall} : TimerStep uv inst s (.call h c) { s with
      timer := Function.update s.timer h ((s.timer h).call (s.base.handle h).isClosing c) }
  | close {t : Thread} {h : Nat} {b : Handles Nat V}
    (hbase : HandleStep uv inst s.base (.closeThen t h .value) b) :
    TimerStep uv inst s (.close t h) { s with base := b }
  | timeout {h : Nat} {timer : Nat → Timer} {onStack : LoopId → Option Nat} {b : Handles Nat V}
    (hopen : (s.base.handle h).isClosing = false)
    (hbase : b = s.base ∨ ∃ t, HandleStep uv inst s.base (.closeThen t h .value) b) :
    TimerStep uv inst s (.timeout h) { s with base := b, timer := timer, onStack := onStack }
  | returned {l : LoopId} {onStack : LoopId → Option Nat} :
    TimerStep uv inst s (.returned l) { s with onStack := onStack }
  | closed {h : Nat} {b : Handles Nat V} (hbase : HandleStep uv inst s.base (.closed h) b) :
    TimerStep uv inst s (.closed h) { s with base := b }

/-- `OnTimeout` closes the timer, or does nothing. -/
theorem Timer.OnTimeout_step (huv : uv.Ok) {b : Handles Nat V} (hh : h ∈ b.created) (k : Timer) :
    b.callback (Timer.OnTimeout uv k h) = b ∨ ∃ t, HandleStep uv inst b (.closeThen t h .value)
      (b.callback (Timer.OnTimeout uv k h)) := by
  unfold Timer.OnTimeout
  split
  · have ht : Thread.ofLoop (b.handle h).loop (b.handle h).loop = true := Thread.ofLoop_self _
    refine .inr ⟨Thread.ofLoop (b.handle h).loop, ?_⟩
    rw [Handles.callback, EStateM.run_bind, EStateM.run_get]
    dsimp only
    rw [Timer.close, Handle.closeThen_run huv ht]
    exact .closeThen hh ht
  · exact .inl rfl

/-- Every step is one of `TimerStep`. -/
theorem timerStep_cases (huv : uv.Ok) (hs : s.base.Inv inst) {lab : TimerLabel V}
    (hstep : timerStep uv inst s lab = some s') :
    s.base.world.aborted = none ∧ TimerStep uv inst s lab s' := by
  unfold timerStep at hstep
  split at hstep
  · cases hstep
  · next habort =>
    refine ⟨by simpa using habort, ?_⟩
    cases lab with
    | core lab =>
      simp only [Option.ite_none_left_eq_some] at hstep
      obtain ⟨b, hb, rfl⟩ := Option.map_eq_some_iff.mp hstep.2
      exact .core (handleStep_cases huv hs hb).2
    | create t h l callback =>
      obtain ⟨b, hb, rfl⟩ := Option.map_eq_some_iff.mp hstep
      exact .create (handleStep_cases huv hs hb).2
    | call h c =>
      simp only [Option.ite_none_right_eq_some] at hstep
      cases hstep.2
      exact .call
    | close t h =>
      simp only [Option.ite_none_right_eq_some, List.contains_eq_mem, decide_eq_true_eq] at hstep
      obtain ⟨hh, hstep⟩ := hstep
      cases hstep
      exact .close (Handle.closeThen_step huv hh t .value)
    | timeout h =>
      simp only [Option.ite_none_right_eq_some, Bool.and_eq_true, List.contains_eq_mem,
        decide_eq_true_eq, Bool.not_eq_true'] at hstep
      obtain ⟨⟨⟨⟨⟨hh, -⟩, hopen⟩, -⟩, -⟩, hstep⟩ := hstep
      cases hstep
      exact .timeout hopen (Timer.OnTimeout_step huv hh _)
    | returned l =>
      simp only [Option.ite_none_right_eq_some] at hstep
      cases hstep.2
      exact .returned
    | closed h =>
      simp only [Option.ite_none_left_eq_some] at hstep
      obtain ⟨b, hb, rfl⟩ := Option.map_eq_some_iff.mp hstep.2
      exact .closed (handleStep_cases huv hs hb).2

/-! ### The calls of `_onClose` -/

/-- What holds between two steps: a closing timer is closed by `Timer::close`. -/
structure Timers.Inv (inst : Nat → V) (s : Timers V) : Prop where
  base : s.base.Continued inst
  requested : ∀ h, (s.base.handle h).isClosing = true → 0 < s.base.requests h

/-- The handles take a step, in which `close` is not called alone, or stay. -/
theorem TimerStep.base {lab : TimerLabel V} (hstep : TimerStep uv inst s lab s') : s'.base = s.base ∨
    ∃ blab, HandleStep uv inst s.base blab s'.base ∧ ∀ t h, blab ≠ .close t h := by
  cases hstep with
  | core hbase | create hbase | close hbase | closed hbase => exact .inr ⟨_, hbase, nofun⟩
  | timeout _ hbase => exact hbase.imp_right fun ⟨_, hbase⟩ => ⟨_, hbase, nofun⟩
  | call | returned => exact .inl rfl

/-- Every step keeps what holds of the timers, -/
theorem Timers.Inv.step (huv : uv.Ok) (habort : s.base.world.aborted = none) (hs : s.Inv inst)
    {lab : TimerLabel V} (hstep : TimerStep uv inst s lab s') : s'.Inv inst := by
  obtain hsame | ⟨blab, hbase, hlab⟩ := hstep.base
  · exact ⟨hsame ▸ hs.base, hsame ▸ hs.requested⟩
  · exact ⟨hs.base.step huv habort hbase,
      fun h => hs.base.requests_pos huv habort hbase (fun t => hlab t h) (hs.requested h)⟩

/-- and it holds before the first one. -/
theorem Timers.Inv.start : ({} : Timers V).Inv inst where
  base := Handles.Continued.start
  requested _ hclosing := nomatch hclosing

/-- No call of `Timer::close` on the timer while it is closing. -/
def ClosesOnce (h : Nat) (s : Timers V) : TimerLabel V → Prop
  | .close t h' => h' = h → t (s.base.handle h').loop = true → (s.base.handle h').isClosing = true →
      (s.base.handle h').closed = true
  | _ => True

/-- The function in `_onClose` of the timer is `k` from the callback of `uv_close` on. -/
def CallsBack (h k : Nat) (s : Timers V) (_ : TimerLabel V) : Prop :=
  (s.base.handle h).closed = true → (s.timer h).onClose = some k

/-- A second callback is chained in time exactly when the timer is closed while it is closing. -/
theorem Timers.Inv.requests_step (huv : uv.Ok) (habort : s.base.world.aborted = none)
    (hs : s.Inv inst) {lab : TimerLabel V} (hstep : TimerStep uv inst s lab s') :
    1 < s'.base.requests h ↔ 1 < s.base.requests h ∨ ¬ ClosesOnce h s lab := by
  have hsame : ∀ {blab : HandleLabel Nat V} {b : Handles Nat V}, HandleStep uv inst s.base blab b →
      ¬ Chains h s.base blab → b.requests h = s.base.requests h := by
    intro blab b hbase hchains
    rw [hs.base.requests_step huv habort hbase h, if_neg hchains, Nat.add_zero]
  cases hstep with
  | core hbase | create hbase | closed hbase => simp [hsame hbase id, ClosesOnce]
  | call | returned => simp [ClosesOnce]
  | @timeout h' _ _ b hopen hbase =>
    obtain rfl | ⟨t, hbase⟩ := hbase
    · simp [ClosesOnce]
    · rw [hs.base.requests_step huv habort hbase h]
      split
      · next hchains =>
        obtain ⟨rfl, -⟩ := hchains
        have hzero := hs.base.requests_eq_zero hopen
        simp [ClosesOnce, hzero]
      · simp [ClosesOnce]
  | @close t h' b hbase =>
    rw [hs.base.requests_step huv habort hbase h]
    split
    · next hchains =>
      obtain ⟨rfl, ht, hopen⟩ := hchains
      cases hclosing : (s.base.handle h').isClosing with
      | true =>
        have hpos := hs.requested h' hclosing
        simp only [ClosesOnce, ht, hclosing, hopen]
        simpa using hpos
      | false =>
        have hzero := hs.base.requests_eq_zero hclosing
        simp [ClosesOnce, hclosing, hzero]
    · next hchains =>
      have honce : ClosesOnce h s (.close t h') := fun hh ht _ =>
        eq_true_of_ne_false fun hopen => hchains ⟨hh, ht, hopen⟩
      simp [honce]

/-- The calls of the function in `_onClose` are the calls of the callbacks that `Timer::close` has
chained. -/
theorem Timers.Inv.closeCalls_step (huv : uv.Ok) (habort : s.base.world.aborted = none)
    (hs : s.Inv inst) {lab : TimerLabel V} (hstep : TimerStep uv inst s lab s')
    (hset : CallsBack h k s lab)
    (hcalls : s.closeCalls.filter (fun x => x.1 = h) = .replicate (s.base.answers h) (h, k)) :
    s'.closeCalls.filter (fun x => x.1 = h) = .replicate (s'.base.answers h) (h, k) := by
  have hsame : ∀ {blab : HandleLabel Nat V} {b : Handles Nat V}, HandleStep uv inst s.base blab b →
      (∀ clab, blab ≠ .core clab) →
      s.closeCalls.filter (fun x => x.1 = h) = .replicate (b.answers h) (h, k) := by
    intro blab b hbase hlab
    rw [hs.base.answers_same huv habort hbase hlab h, hcalls]
  cases hstep with
  | @core clab b hbase =>
    cases hbase with
    | @core _ w _ hcore =>
      rw [List.filter_append, hcalls, hs.base.answers_core huv hcore h]
      cases hanswered : s.base.answered clab w with
      | none => simp [Timers.answer]
      | some h' =>
        rcases eq_or_ne h' h with rfl | hne
        · have hk := hset (hs.base.closed_of_answered hcore hanswered)
          simp [Timers.answer, hk, List.replicate_succ']
        · cases (s.timer h').onClose <;> simp [Timers.answer, hne]
  | create hbase | close hbase | closed hbase => exact hsame hbase fun _ heq => by cases heq
  | call | returned => exact hcalls
  | timeout _ hbase =>
    obtain rfl | ⟨t, hbase⟩ := hbase
    · exact hcalls
    · exact hsame hbase fun _ heq => by cases heq

instance (h : Nat) (s : Timers V) : ∀ lab, Decidable (ClosesOnce h s lab)
  | .close t h' => inferInstanceAs (Decidable (h' = h → t (s.base.handle h').loop = true →
      (s.base.handle h').isClosing = true → (s.base.handle h').closed = true))
  | .core _ | .create .. | .call .. | .timeout _ | .returned _ | .closed _ => .isTrue trivial

instance (h k : Nat) (s : Timers V) (lab : TimerLabel V) : Decidable (CallsBack h k s lab) :=
  inferInstanceAs (Decidable (_ → _))

/-- Source: `Timer.cpp:34-65`. When a timer is closed and no async handle is in flight, the function
that was set with `onClose` has been called once, if and only if `Timer::close` was not called while the
timer was closing. -/
theorem onClose_once_iff (huv : uv.Ok) {ls : List (TimerLabel V)}
    (hrun : run (timerStep uv inst) {} ls = some s)
    (hset : Along (timerStep uv inst) (CallsBack h k) {} ls)
    (hclosed : (s.base.handle h).closed = true) (hpending : s.base.world.pending = []) :
    s.closeCalls.filter (fun x => x.1 = h) = [(h, k)] ↔
      Along (timerStep uv inst) (ClosesOnce h) {} ls := by
  have hinv : ∀ (s : Timers V) lab s', s.Inv inst → timerStep uv inst s lab = some s' → s'.Inv inst := by
    intro s lab s' hs hstep
    obtain ⟨habort, hcase⟩ := timerStep_cases huv hs.base.toInv hstep
    exact hs.step huv habort hcase
  have hs : s.Inv inst := run_invariant hinv Timers.Inv.start hrun
  have hcalls : ∀ (s : Timers V) lab s', CallsBack h k s lab →
      s.Inv inst ∧ s.closeCalls.filter (fun x => x.1 = h) = .replicate (s.base.answers h) (h, k) →
      timerStep uv inst s lab = some s' →
      s'.Inv inst ∧ s'.closeCalls.filter (fun x => x.1 = h) = .replicate (s'.base.answers h) (h, k) := by
    intro s lab s' hset hs hstep
    obtain ⟨habort, hcase⟩ := timerStep_cases huv hs.1.base.toInv hstep
    exact ⟨hinv s lab s' hs.1 hstep, hs.1.closeCalls_step huv habort hcase hset hs.2⟩
  obtain ⟨-, hcalls⟩ := run_invariant_along hcalls hset ⟨Timers.Inv.start, rfl⟩ hrun
  have honce : ¬ 1 < s.base.requests h ↔ Along (timerStep uv inst) (ClosesOnce h) {} ls := by
    have hflag : ∀ (s : Timers V) lab s', s.Inv inst → timerStep uv inst s lab = some s' →
        (1 < s'.base.requests h ↔ 1 < s.base.requests h ∨ ¬ ClosesOnce h s lab) := by
      intro s lab s' hs hstep
      obtain ⟨habort, hcase⟩ := timerStep_cases huv hs.base.toInv hstep
      exact hs.requests_step huv habort hcase
    rw [not_flag_iff_along hflag hinv Timers.Inv.start hrun]
    exact and_iff_right (Nat.not_lt_zero 1)
  have hclosing := (hs.base.handle h (hs.base.created_of_closed hclosed)).closing hclosed
  have hpos := hs.requested h hclosing
  rw [hcalls, hs.base.answers_eq hclosed hpending, ← honce]
  constructor
  · intro heq
    have hlength := congrArg List.length heq
    rw [List.length_replicate, List.length_singleton] at hlength
    omega
  · intro hle
    have hone : s.base.requests h = 1 := by omega
    rw [hone]
    rfl

end

/-- A timer without repeat, whose function in `_onClose` is 5, reaches its time. Its callback calls
nothing, or closes the timer; then libuv closes the handle and the chained callbacks run. -/
def oneShot (inCallback : List (TimerLabel Nat)) (chained : List NodeId) : List (TimerLabel Nat) :=
  [.create (Thread.ofLoop 0) 0 0 true, .call 0 (.onClose (some 5)), .call 0 (.start 0), .timeout 0] ++
    inCallback ++ [.returned 0, .closed 0] ++
    chained.flatMap fun a => [.core (.fire a), .core (.ret 0 (.value (some 0)))]

/-- A timer that fires once calls its `onClose` callback once. -/
theorem onClose_once_iff_oneShot : ∃ s, run (timerStep {} id) {} (oneShot [] [.user 2]) = some s ∧
    s.closeCalls.filter (fun x => x.1 = 0) = [(0, 5)] := by
  have hend : (run (timerStep {} id) {} (oneShot [] [.user 2])).map (fun s =>
      ((s.base.handle 0).closed, s.base.world.pending)) = some (true, []) := by
    decide +kernel
  obtain ⟨s, hrun, hs⟩ := Option.map_eq_some_iff.mp hend
  obtain ⟨hclosed, hpending⟩ := Prod.mk.inj hs
  exact ⟨s, hrun, (onClose_once_iff (fun _ => ⟨rfl, rfl⟩) hrun (by decide +kernel) hclosed
    hpending).mpr (by decide +kernel)⟩

/-- Closed in its callback, the timer calls the function in `_onClose` twice. -/
theorem onClose_twice : ∃ s, run (timerStep {} id) {}
    (oneShot [.close (Thread.ofLoop 0) 0] [.user 2, .user 3]) = some s ∧
      (s.base.handle 0).closed = true ∧ s.base.world.pending = [] ∧ s.closeCalls = [(0, 5), (0, 5)] := by
  have hend : (run (timerStep {} id) {} (oneShot [.close (Thread.ofLoop 0) 0] [.user 2, .user 3])).map
      (fun s => ((s.base.handle 0).closed, s.base.world.pending, s.closeCalls)) =
      some (true, [], [(0, 5), (0, 5)]) := by
    decide +kernel
  obtain ⟨s, hrun, hs⟩ := Option.map_eq_some_iff.mp hend
  simp only [Prod.mk.injEq] at hs
  exact ⟨s, hrun, hs⟩

end

end NodeNative.Base
