import NodeNative.Http.Server
import NodeNative.Http.Reading

/-!
# Expired connections

The callback of a timer erases the entries that have ended and calls nothing: no connection is closed
because its time is over. As long as no open connection has reached its deadline when the callback of
its loop's timer runs, every open connection has one entry, which ends at its deadline.
-/

namespace NodeNative.Http

open Transition

section
variable {P : HttpParser} {env : Nat → Env} {s s' : Servers P}

/-- An open connection has one entry in the list of its loop, which ends at its deadline, and is held
by its server. A connection that is not created has no entry. -/
structure Servers.Tracked (s : Servers P) : Prop where
  entry : ∀ c ∈ s.created, (s.connection c).closed = false →
    s.timeouts.entries c = [⟨c, s.deadline c⟩]
  held : ∀ c ∈ s.created, (s.connection c).closed = false →
    s.timeouts.expired c = false ∧ c ∈ s.connections (s.timeouts.server c)
  new : ∀ c, c ∉ s.created → s.timeouts.entries c = []

/-- When the callback of a timer runs, the deadline of every open connection on its loop lies
later. -/
def NoneDue (s : Servers P) : ServerLabel → Prop
  | .timer l => ∀ c ∈ s.created, (s.connection c).closed = false → s.timeouts.loop c = l →
      s.timeouts.now l < s.deadline c
  | _ => True

instance (s : Servers P) : ∀ lab, Decidable (NoneDue s lab)
  | .timer l => inferInstanceAs (Decidable (∀ c ∈ s.created, (s.connection c).closed = false →
      s.timeouts.loop c = l → s.timeouts.now l < s.deadline c))
  | .createConnection _ | .connection .. | .closed _ | .elapse .. | .setTimeouts .. | .destroy _ =>
    .isTrue trivial

/-- What is promised of a step: after the callback of a timer `close()` has been called on every
connection of its loop whose deadline was reached, and an open connection has one entry.
Source: `Server.hpp:64-90`. -/
def ClosesExpired (s : Servers P) (lab : ServerLabel) (s' : Servers P) : Prop :=
  (∀ l, lab = .timer l → ∀ c ∈ s.created, s.timeouts.expired c = false → s.timeouts.loop c = l →
    s.deadline c ≤ s.timeouts.now l → (s'.connection c).closed = true) ∧
  ∀ c ∈ s'.created, (s'.connection c).closed = false → (s'.timeouts.entries c).length = 1

/-- Before the first connection every one of them is tracked. -/
theorem Servers.tracked_start (env : Nat → Env) (servers : Nat → Server) (server : Nat → Nat)
    (now : LoopId → Nat) : (Servers.start env servers server now : Servers P).Tracked where
  entry _ hc := nomatch hc
  held _ hc := nomatch hc
  new _ _ := rfl

/-- The entries of the connections that stay open. -/
theorem Servers.Tracked.entry_step (h : s.Tracked) {lab : ServerLabel} (hlab : NoneDue s lab)
    (hstep : serverStep env s lab = some s') {c : Nat} (hc : c ∈ s.created)
    (hopen : (s'.connection c).closed = false) :
    s'.timeouts.entries c = [⟨c, s'.deadline c⟩] := by
  have hopen₀ := serverStep_open hc hstep hopen
  have hentry := h.entry c hc hopen₀
  cases serverStep_cases hstep with
  | createConnection c' hnew =>
    have hne : c ≠ c' := fun heq => hnew (heq ▸ hc)
    show (s.timeouts.addConnection c' true).entries c = [⟨c, Function.update s.deadline _ _ c⟩]
    rw [Timeouts.addConnection_entries_ne hne, Function.update_of_ne hne, hentry]
  | connection c' lab k' _ hexists =>
    rcases s.onConnection_cases c' lab k' with ⟨htimeouts, hdeadline⟩ |
      ⟨isIdle, htimeouts, hdeadline⟩
    · rw [htimeouts, hdeadline, hentry]
    · rw [htimeouts, hdeadline]
      rcases eq_or_ne c c' with rfl | hne
      · rw [Function.update_self]
        exact Timeouts.restartTime_entries_one hexists hentry isIdle
      · rw [Timeouts.restartTime_entries_ne hne, Function.update_of_ne hne, hentry]
  | closed c' _ _ hclosed =>
    have hne : c ≠ c' := fun heq => by
      subst heq
      exact absurd hclosed (Bool.eq_false_iff.mp hopen₀)
    exact (Timeouts.removeConnection_entries_ne hne (h.held c hc hopen₀).1).trans hentry
  | timer ht =>
    obtain ⟨e, he, rfl⟩ := Option.map_eq_some_iff.mp ht
    refine (Timeouts.timer_entries he (h.held c hc hopen₀).1 fun hloop x hx => ?_).trans hentry
    rw [hentry, List.mem_singleton] at hx
    rw [hx]
    exact hlab c hc hopen₀ hloop
  | elapse ht =>
    obtain ⟨-, rfl⟩ := by simpa [timeoutStep] using ht
    exact hentry
  | setTimeouts ht =>
    have hloop := timeoutStep_loop ht c
    obtain ⟨-, rfl⟩ := by simpa [timeoutStep] using ht
    exact (Timeouts.entries_of_lists hloop rfl).trans hentry
  | destroy c' _ _ ht =>
    cases ht
    exact hentry

/-- A server lets only a closed connection go. -/
theorem Servers.Tracked.held_step (h : s.Tracked) {lab : ServerLabel}
    (hstep : serverStep env s lab = some s') {c : Nat} (hc : c ∈ s.created)
    (hopen : (s'.connection c).closed = false) :
    s'.timeouts.expired c = false ∧ c ∈ s'.connections (s'.timeouts.server c) := by
  have hopen₀ := serverStep_open hc hstep hopen
  obtain ⟨hexpired, hheld⟩ := h.held c hc hopen₀
  rw [serverStep_server hstep]
  cases serverStep_cases hstep with
  | createConnection c' =>
    refine ⟨hexpired, ?_⟩
    show c ∈ Function.update s.connections _ _ _
    rw [Function.update_apply]
    split
    · rename_i hserver
      exact List.mem_append_left _ (hserver ▸ hheld)
    · exact hheld
  | connection c' lab k' =>
    rw [(s.onConnection_rest c' lab k').2.2.1]
    refine ⟨?_, hheld⟩
    rcases s.onConnection_cases c' lab k' with ⟨htimeouts, -⟩ | ⟨isIdle, htimeouts, -⟩
    · rw [htimeouts, hexpired]
    · rw [htimeouts]
      exact hexpired
  | closed c' _ _ hclosed =>
    have hne : c ≠ c' := fun heq => by
      subst heq
      exact absurd hclosed (Bool.eq_false_iff.mp hopen₀)
    refine ⟨hexpired, ?_⟩
    show c ∈ Function.update s.connections _ _ _
    rw [Function.update_apply]
    split
    · rename_i hserver
      exact List.mem_filter.mpr ⟨hserver ▸ hheld, by simpa using hne⟩
    · exact hheld
  | timer ht =>
    obtain ⟨e, -, rfl⟩ := Option.map_eq_some_iff.mp ht
    exact ⟨hexpired, hheld⟩
  | elapse ht | setTimeouts ht =>
    obtain ⟨-, rfl⟩ := by simpa [timeoutStep] using ht
    exact ⟨hexpired, hheld⟩
  | destroy c' _ hreleased ht =>
    cases ht
    have hne : c ≠ c' := fun heq => hreleased (heq ▸ hheld)
    exact ⟨(Function.update_of_ne hne ..).trans hexpired, hheld⟩

/-- A step of a run keeps track of the open connections while none of them is due. -/
theorem Servers.Tracked.step (h : s.Tracked) {lab : ServerLabel} (hlab : NoneDue s lab)
    (hstep : serverStep env s lab = some s') : s'.Tracked := by
  have hnew : ∀ c, lab = .createConnection c → s'.timeouts.entries c = [⟨c, s'.deadline c⟩] ∧
      s'.timeouts.expired c = false ∧ c ∈ s'.connections (s'.timeouts.server c) := by
    rintro c rfl
    cases serverStep_cases hstep with
    | createConnection _ hnew hexists =>
      refine ⟨?_, hexists, ?_⟩
      · show (s.timeouts.addConnection c true).entries c = [⟨c, Function.update s.deadline _ _ c⟩]
        rw [Timeouts.addConnection_entries (h.new c hnew), Function.update_self]
      · show c ∈ Function.update s.connections (s.timeouts.server c) _ (s.timeouts.server c)
        simp
  refine ⟨fun c hc hopen => ?_, fun c hc hopen => ?_, fun c hc => ?_⟩
  · rcases (serverStep_created hstep c).mp hc with hcreated | hcreate
    · exact h.entry_step hlab hstep hcreated hopen
    · exact (hnew c hcreate).1
  · rcases (serverStep_created hstep c).mp hc with hcreated | hcreate
    · exact h.held_step hstep hcreated hopen
    · exact (hnew c hcreate).2
  · rw [serverStep_created hstep, not_or] at hc
    exact serverStep_entries_nil (h.new c hc.1) hc.2 hstep

/-- A step does what is promised exactly when no open connection is due. -/
theorem Servers.Tracked.step_iff (h : s.Tracked) {lab : ServerLabel}
    (hstep : serverStep env s lab = some s') : NoneDue s lab ↔ ClosesExpired s lab s' := by
  constructor
  · intro hlab
    refine ⟨?_, fun c hc hopen => ?_⟩
    · rintro l rfl c hc _ hloop hdue
      rw [serverStep_closed_iff hc hstep]
      refine .inl (Bool.eq_true_of_not_eq_false fun hopen => ?_)
      exact absurd hdue (Nat.not_le.mpr (hlab c hc hopen hloop))
    · rw [(h.step hlab hstep).entry c hc hopen]
      rfl
  · rintro ⟨hcloses, -⟩
    cases lab with
    | timer l =>
      intro c hc hopen hloop
      refine Nat.lt_of_not_le fun hdue => ?_
      have hclosed := hcloses l rfl c hc (h.held c hc hopen).1 hloop hdue
      rw [serverStep_closed_iff hc hstep] at hclosed
      simp [hopen] at hclosed
    | _ => trivial

/-- Source: `Server.cpp:51-216`. From the start, in every step of a run the callback of a timer
closes the connections whose deadline is reached and an open connection keeps one timeout entry, if
and only if no open connection has reached its deadline at any of these callbacks. -/
theorem expired_connection_closed (servers : Nat → Server) (server : Nat → Nat) (now : LoopId → Nat)
    {ls : List ServerLabel} (hrun : run (serverStep env) (.start env servers server now) ls = some s) :
    Along (serverStep env) (NoneDue (P := P)) (.start env servers server now) ls ↔
      ∀ ls₀ lab ls₁ (s₀ s₁ : Servers P), ls = ls₀ ++ lab :: ls₁ →
        run (serverStep env) (.start env servers server now) ls₀ = some s₀ →
        serverStep env s₀ lab = some s₁ → ClosesExpired s₀ lab s₁ :=
  along_iff (fun _ _ _ hs hstep => hs.step_iff hstep)
    (fun _ _ _ hlab hs hstep => hs.step hlab hstep) (Servers.tracked_start env servers server now) hrun

/-- A server without handlers and with the default timeouts, at time 0. -/
def defaultServer : Servers twoRootsParser :=
  .start (fun _ => noHandlers) (fun _ => {}) (fun _ => 0) fun _ => 0

/-- A second after its connection a peer sends a request. -/
def requestInTime : List ServerLabel :=
  [.createConnection 0, .elapse 0 1000, .connection 0 (.read "GET / HTTP/1.1\r\n\r\n".toList), .elapse 0 30000,
    .timer 0]

/-- A connection that sends its request in time does not expire. -/
theorem expired_connection_closed_request :
    (run (serverStep fun _ => noHandlers) defaultServer requestInTime).isSome = true ∧
      ∀ ls₀ lab ls₁ (s₀ s₁ : Servers twoRootsParser), requestInTime = ls₀ ++ lab :: ls₁ →
        run (serverStep fun _ => noHandlers) defaultServer ls₀ = some s₀ →
        serverStep (fun _ => noHandlers) s₀ lab = some s₁ → ClosesExpired s₀ lab s₁ := by
  have hsome : (run (serverStep fun _ => noHandlers) defaultServer requestInTime).isSome = true := by
    decide
  exact ⟨hsome, (expired_connection_closed _ _ _ (Option.some_get hsome).symm).mp (by decide)⟩

/-- A peer that sends nothing stays connected when its 30 seconds are over, and has no entry left. -/
theorem expired_connection_open : ∃ s₀ s₁ : Servers twoRootsParser,
    run (serverStep fun _ => noHandlers) defaultServer [.createConnection 0, .elapse 0 30000] =
      some s₀ ∧ serverStep (fun _ => noHandlers) s₀ (.timer 0) = some s₁ ∧
    ¬ ClosesExpired s₀ (.timer 0) s₁ ∧ (s₁.connection 0).closed = false ∧
    s₁.timeouts.entries 0 = [] := by
  refine ⟨_, _, rfl, rfl, ?_, rfl, rfl⟩
  rintro ⟨hcloses, -⟩
  exact absurd (hcloses 0 rfl 0 (by decide) rfl rfl (by decide)) (by decide)

end

end NodeNative.Http
