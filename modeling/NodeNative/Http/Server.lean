import NodeNative.Http.Closing
import NodeNative.Http.Entries

/-!
# Servers

The connections of the servers, each a `Connection`, together with the timeout lists that
`Server::createConnection` enters them in. A connection calls back when it has received a request and
when a response is sent, which restarts its time, and when its socket is closed, which takes it out of
`Server::_connections` and of the list of its loop. `serverStep` is the transition function: what
happens to a connection (`Http.step`), the close callbacks, the timers and the passing of time.
-/

namespace NodeNative.Http

open Transition

/-- The state of all servers. `created` lists the connections created so far and `connections` those
that a server holds (`Server::_connections`). Two histories: `closeCbs` lists the connections whose
close callback has run, and `deadline` is the end time that was computed for a connection last. -/
structure Servers (P : HttpParser) where
  timeouts : Timeouts
  connection : Nat → Connection P
  created : List Nat
  connections : Nat → List Nat
  closeCbs : List Nat
  deadline : Nat → Nat

/-- What can happen: a peer connects, something happens to a connection, the close callback of the server
is called for a connection that is closing, the callback of a timer runs, time passes, a server gets other
timeouts, and the last reference to a connection goes. When the close callback is called, and how often,
is up to the sockets, which are not here (`ServerSockets`). -/
inductive ServerLabel
  | createConnection (c : Nat)
  | connection (c : Nat) (lab : Label)
  | closed (c : Nat)
  | timer (l : LoopId)
  | elapse (l : LoopId) (now : Nat)
  | setTimeouts (server idleSeconds responseSeconds : Nat)
  | destroy (c : Nat)
deriving Repr

section
variable {P : HttpParser} (env : Nat → Env) (s : Servers P)

/-- Before the first connection. -/
def Servers.start (servers : Nat → Server) (server : Nat → Nat) (now : LoopId → Nat) : Servers P where
  timeouts := .start servers server now
  connection c := Connection.start (env c)
  created := []
  connections _ := []
  closeCbs := []
  deadline _ := 0

/-- Nothing is on the stack of the loop, the connection `except` apart, and no exception has ended
the process. -/
def Servers.idle (l : LoopId) (except : Option Nat) : Bool :=
  s.created.all fun c => (s.connection c).crashed.isNone &&
    (some c == except || s.timeouts.loop c != l || (s.connection c).idle)

/-- `AddConnection` or `RestartTime` of the connection computes its end time. -/
def Servers.setTime (c : Nat) (isIdle : Bool) (timeouts : Timeouts) : Servers P :=
  { s with timeouts, deadline := Function.update s.deadline c (s.timeouts.setTime c isIdle) }

/-- Source: `Server.cpp:180` `Server::createConnection`. -/
def Servers.createConnection (c : Nat) : Servers P :=
  let server := s.timeouts.server c
  { s with
    connection := Function.update s.connection c (.start (env c))
    created := s.created ++ [c]
    connections := Function.update s.connections server (s.connections server ++ [c]) }.setTime
      c true (s.timeouts.addConnection c true)

/-- The callback of `Server::createConnection` that a step of the connection from `k` to `k'` calls:
`onRequestReceived` (`ServerConnection.cpp:125`) or `onResponseSent` (`ServerConnection.cpp:51`),
with the `isIdle` it passes to `RestartTime`. -/
def restarts (k k' : Connection P) : Label → Option Bool
  | .read _ => if k'.processed.length > k.processed.length then some false else none
  | .written _ true => if k.response.isSome then some true else none
  | _ => none

/-- A step of the connection from its state to `k'`. -/
def Servers.onConnection (c : Nat) (lab : Label) (k' : Connection P) : Servers P :=
  let s' := { s with connection := Function.update s.connection c k' }
  match restarts (s.connection c) k' lab with
  | some isIdle => s'.setTime c isIdle (s.timeouts.restartTime c isIdle)
  | none => s'

/-- The callback of `onClose`. Source: `Server.cpp:196-202`. -/
def Servers.onClose (c : Nat) : Servers P :=
  let server := s.timeouts.server c
  { s with
    connections := Function.update s.connections server
      ((s.connections server).filter fun c' => c' != c)
    timeouts := s.timeouts.removeConnection c
    closeCbs := s.closeCbs ++ [c] }

/-- One step; `none` when the label is not enabled. -/
def serverStep : ServerLabel → Option (Servers P)
  | .createConnection c =>
    if !s.created.contains c && !s.timeouts.expired c && s.idle (s.timeouts.loop c) none then
      some (s.createConnection env c)
    else none
  | .connection c lab =>
    if s.created.contains c && !s.timeouts.expired c && s.idle (s.timeouts.loop c) (some c) then
      (step (env c) (s.connection c) lab).map (s.onConnection c lab)
    else none
  | .closed c =>
    if s.created.contains c && !s.timeouts.expired c && s.idle (s.timeouts.loop c) none &&
        (s.connection c).closed then
      some (s.onClose c)
    else none
  | .timer l =>
    if s.idle l none then
      (timeoutStep s.timeouts (.timer l)).map fun timeouts => { s with timeouts }
    else none
  | .elapse l now =>
    (timeoutStep s.timeouts (.elapse l now)).map fun timeouts => { s with timeouts }
  | .setTimeouts server idleSeconds responseSeconds =>
    (timeoutStep s.timeouts (.setTimeouts server idleSeconds responseSeconds)).map
      fun timeouts => { s with timeouts }
  | .destroy c =>
    if s.created.contains c && !(s.connections (s.timeouts.server c)).contains c then
      (timeoutStep s.timeouts (.expire c)).map fun timeouts => { s with timeouts }
    else none

end

/-! ### The steps, one by one -/

section
variable {P : HttpParser} {env : Nat → Env} {s s' : Servers P}

/-- The steps of the servers with what each of them requires. -/
inductive ServerStep (env : Nat → Env) (s : Servers P) : ServerLabel → Servers P → Prop
  | createConnection (c : Nat) (hnew : c ∉ s.created) (hexists : s.timeouts.expired c = false) :
    ServerStep env s (.createConnection c) (s.createConnection env c)
  | connection (c : Nat) (lab : Label) (k' : Connection P) (hcreated : c ∈ s.created)
      (hexists : s.timeouts.expired c = false)
      (hstep : step (env c) (s.connection c) lab = some k') :
    ServerStep env s (.connection c lab) (s.onConnection c lab k')
  | closed (c : Nat) (hcreated : c ∈ s.created) (hexists : s.timeouts.expired c = false)
      (hclosed : (s.connection c).closed = true) : ServerStep env s (.closed c) (s.onClose c)
  | timer {l : LoopId} {t : Timeouts} (ht : timeoutStep s.timeouts (.timer l) = some t) :
    ServerStep env s (.timer l) { s with timeouts := t }
  | elapse {l : LoopId} {now : Nat} {t : Timeouts}
      (ht : timeoutStep s.timeouts (.elapse l now) = some t) :
    ServerStep env s (.elapse l now) { s with timeouts := t }
  | setTimeouts {server idleSeconds responseSeconds : Nat} {t : Timeouts}
      (ht : timeoutStep s.timeouts (.setTimeouts server idleSeconds responseSeconds) = some t) :
    ServerStep env s (.setTimeouts server idleSeconds responseSeconds) { s with timeouts := t }
  | destroy (c : Nat) {t : Timeouts} (hcreated : c ∈ s.created)
      (hreleased : c ∉ s.connections (s.timeouts.server c))
      (ht : timeoutStep s.timeouts (.expire c) = some t) :
    ServerStep env s (.destroy c) { s with timeouts := t }

/-- Every step is one of `ServerStep`. -/
theorem serverStep_cases {lab : ServerLabel} (h : serverStep env s lab = some s') :
    ServerStep env s lab s' := by
  cases lab with
  | createConnection c =>
    simp only [serverStep, Option.ite_none_right_eq_some, Bool.and_eq_true, Bool.not_eq_true',
      List.contains_eq_mem, decide_eq_false_iff_not] at h
    obtain ⟨⟨⟨hnew, hexists⟩, -⟩, h⟩ := h
    cases h
    exact .createConnection c hnew hexists
  | connection c lab =>
    simp only [serverStep, Option.ite_none_right_eq_some, Bool.and_eq_true, Bool.not_eq_true',
      List.contains_eq_mem, decide_eq_true_eq] at h
    obtain ⟨⟨⟨hcreated, hexists⟩, -⟩, h⟩ := h
    obtain ⟨k', hstep, rfl⟩ := Option.map_eq_some_iff.mp h
    exact .connection c lab k' hcreated hexists hstep
  | closed c =>
    simp only [serverStep, Option.ite_none_right_eq_some, Bool.and_eq_true, Bool.not_eq_true',
      List.contains_eq_mem, decide_eq_true_eq] at h
    obtain ⟨⟨⟨⟨hcreated, hexists⟩, -⟩, hclosed⟩, h⟩ := h
    cases h
    exact .closed c hcreated hexists hclosed
  | timer l =>
    simp only [serverStep, Option.ite_none_right_eq_some] at h
    obtain ⟨t, ht, rfl⟩ := Option.map_eq_some_iff.mp h.2
    exact .timer ht
  | elapse l now =>
    obtain ⟨t, ht, rfl⟩ := Option.map_eq_some_iff.mp h
    exact .elapse ht
  | setTimeouts server idleSeconds responseSeconds =>
    obtain ⟨t, ht, rfl⟩ := Option.map_eq_some_iff.mp h
    exact .setTimeouts ht
  | destroy c =>
    simp only [serverStep, Option.ite_none_right_eq_some, Bool.and_eq_true, Bool.not_eq_true',
      List.contains_eq_mem, decide_eq_true_eq, decide_eq_false_iff_not] at h
    obtain ⟨⟨hcreated, hreleased⟩, h⟩ := h
    obtain ⟨t, ht, rfl⟩ := Option.map_eq_some_iff.mp h
    exact .destroy c hcreated hreleased ht

/-- A step of a connection restarts its time or leaves all times. -/
theorem Servers.onConnection_cases (s : Servers P) (c : Nat) (lab : Label) (k' : Connection P) :
    ((s.onConnection c lab k').timeouts = s.timeouts ∧
      (s.onConnection c lab k').deadline = s.deadline) ∨
    ∃ isIdle, (s.onConnection c lab k').timeouts = s.timeouts.restartTime c isIdle ∧
      (s.onConnection c lab k').deadline =
        Function.update s.deadline c (s.timeouts.setTime c isIdle) := by
  unfold Servers.onConnection
  dsimp only
  split
  · rename_i isIdle _
    exact .inr ⟨isIdle, rfl, rfl⟩
  · exact .inl ⟨rfl, rfl⟩

/-- It changes nothing else, the connection apart. -/
theorem Servers.onConnection_rest (s : Servers P) (c : Nat) (lab : Label) (k' : Connection P) :
    (s.onConnection c lab k').connection = Function.update s.connection c k' ∧
      (s.onConnection c lab k').created = s.created ∧
      (s.onConnection c lab k').connections = s.connections ∧
      (s.onConnection c lab k').closeCbs = s.closeCbs := by
  unfold Servers.onConnection
  dsimp only
  split <;> exact ⟨rfl, rfl, rfl, rfl⟩

/-- A connection is created once. -/
theorem serverStep_created {lab : ServerLabel} (h : serverStep env s lab = some s') (c : Nat) :
    c ∈ s'.created ↔ c ∈ s.created ∨ lab = .createConnection c := by
  cases serverStep_cases h with
  | createConnection c' =>
    simp [Servers.createConnection, Servers.setTime, eq_comm]
  | connection c' lab k' =>
    rw [(s.onConnection_rest c' lab k').2.1]
    simp
  | closed | timer | elapse | setTimeouts | destroy => simp [Servers.onClose]

/-- The socket of a connection is closing after a step if it was before, or if the step is one of the
connection that calls `close()`. -/
theorem serverStep_closed_iff {lab : ServerLabel} {c : Nat} (hc : c ∈ s.created)
    (h : serverStep env s lab = some s') : (s'.connection c).closed = true ↔
      (s.connection c).closed = true ∨
        ∃ lab', lab = .connection c lab' ∧ (s.connection c).Closes (env c) lab' := by
  cases serverStep_cases h with
  | createConnection c' hnew =>
    have hne : c ≠ c' := fun heq => hnew (heq ▸ hc)
    simp [Servers.createConnection, Servers.setTime, Function.update_of_ne hne]
  | connection c' lab k' _ _ hstep =>
    rw [(s.onConnection_rest c' lab k').1]
    rcases eq_or_ne c c' with rfl | hne
    · rw [Function.update_self, step_closed_iff hstep]
      simp
    · simp [Function.update_of_ne hne, hne.symm]
  | closed | timer | elapse | setTimeouts | destroy => simp [Servers.onClose]

/-- So an open one was open. -/
theorem serverStep_open {lab : ServerLabel} {c : Nat} (hc : c ∈ s.created)
    (h : serverStep env s lab = some s') (hopen : (s'.connection c).closed = false) :
    (s.connection c).closed = false := by
  rw [← Bool.not_eq_true, serverStep_closed_iff hc h] at hopen
  exact Bool.eq_false_iff.mpr fun hclosed => hopen (.inl hclosed)

/-- The lists of the servers change by `createConnection` and by the close callback only. -/
theorem serverStep_connections {lab : ServerLabel} (h : serverStep env s lab = some s')
    (hcreate : ∀ c, lab ≠ .createConnection c) (hclosed : ∀ c, lab ≠ .closed c) :
    s'.connections = s.connections := by
  cases serverStep_cases h with
  | createConnection c => exact absurd rfl (hcreate c)
  | connection c lab k' => exact (s.onConnection_rest c lab k').2.2.1
  | closed c => exact absurd rfl (hclosed c)
  | timer | elapse | setTimeouts | destroy => rfl

/-- What a step does to the timeout lists is nothing or one of their steps, and only
`createConnection` adds a connection. -/
theorem serverStep_timeouts {lab : ServerLabel} (h : serverStep env s lab = some s') :
    s'.timeouts = s.timeouts ∨ ∃ lab', timeoutStep s.timeouts lab' = some s'.timeouts ∧
      ∀ c isIdle, lab' = .addConnection c isIdle → lab = .createConnection c := by
  cases serverStep_cases h with
  | createConnection c _ hexists =>
    refine .inr ⟨.addConnection c true, ?_, fun _ _ hadd => by cases hadd; rfl⟩
    rw [timeoutStep, hexists]
    rfl
  | connection c lab k' _ hexists =>
    rcases s.onConnection_cases c lab k' with ⟨htimeouts, -⟩ | ⟨isIdle, htimeouts, -⟩
    · exact .inl htimeouts
    · refine .inr ⟨.restartTime c isIdle, ?_, fun _ _ hadd => by cases hadd⟩
      rw [htimeouts, timeoutStep, hexists]
      rfl
  | closed c _ hexists =>
    refine .inr ⟨.removeConnection c, ?_, fun _ _ hadd => by cases hadd⟩
    rw [timeoutStep, hexists]
    rfl
  | timer ht => exact .inr ⟨_, ht, fun _ _ hadd => by cases hadd⟩
  | elapse ht => exact .inr ⟨_, ht, fun _ _ hadd => by cases hadd⟩
  | setTimeouts ht => exact .inr ⟨_, ht, fun _ _ hadd => by cases hadd⟩
  | destroy c _ _ ht => exact .inr ⟨_, ht, fun _ _ hadd => by cases hadd⟩

/-- The server of a connection stays, -/
theorem serverStep_server {lab : ServerLabel} (h : serverStep env s lab = some s') :
    s'.timeouts.server = s.timeouts.server := by
  rcases serverStep_timeouts h with htimeouts | ⟨lab', hstep, -⟩
  · rw [htimeouts]
  · exact timeoutStep_server hstep

/-- and no step but its creation gives a timeout entry to a connection that has none. -/
theorem serverStep_entries_nil {lab : ServerLabel} {c : Nat} (hnil : s.timeouts.entries c = [])
    (hlab : lab ≠ .createConnection c) (h : serverStep env s lab = some s') :
    s'.timeouts.entries c = [] := by
  rcases serverStep_timeouts h with htimeouts | ⟨lab', hstep, hadd⟩
  · rw [htimeouts, hnil]
  · exact timeoutStep_entries_nil hnil (fun isIdle heq => hlab (hadd c isIdle heq)) hstep

end

end NodeNative.Http
