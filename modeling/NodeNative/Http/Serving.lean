import NodeNative.Http.Server
import NodeNative.Http.Shutdown

/-!
# Servers with their sockets

`Servers` says what the connections read, answer and write, and which of them the timeout lists have;
`ServerSockets` says what `close` does with the socket of a connection and with the callbacks that wait
for it. `Serving` is both together: the connections of all servers, and for each server its sockets.
Where the code of a connection calls `close()`, its socket is asked to close; where the callback of the
server is called, the connection leaves the list of the server and the timeout list of its loop.

Nothing else joins the two: a connection is closed by its own code, or by a call of one of the two
`close` from elsewhere, which is a step of the sockets.
-/

namespace NodeNative.Http

open Transition
open Base

section
variable {P : HttpParser} {V : Type}

/-- The connections of all servers, and the sockets of each server. -/
structure Serving (P : HttpParser) (V : Type) where
  servers : Servers P
  sockets : Nat → ServerSockets V

/-- What can happen: a peer connects, to a connection with callbacks that the callback of
`onCreateConnection` has registered; something happens to a connection; a timer runs, time passes or a
server gets other timeouts; the last reference to a connection goes; and something happens to the sockets
of a server. -/
inductive ServingLabel (V : Type)
  | createConnection (c : Nat) (cbs : List Nat)
  | connection (c : Nat) (lab : Label)
  | timeouts (lab : ServerLabel)
  | destroy (c : Nat)
  | sockets (server : Nat) (lab : CloseLabel V)

/-! ### The code -/

/-- Before the first server. -/
def Serving.start (env : Nat → Env) (servers : Nat → Server) (server : Nat → Nat)
    (now : LoopId → Nat) : Serving P V where
  servers := .start env servers server now
  sockets _ := {}

/-- The sockets of the server of a connection. -/
def Serving.socketsOf (s : Serving P V) (c : Nat) : ServerSockets V :=
  s.sockets (s.servers.timeouts.server c)

/-- New sockets of a server. -/
def Serving.setSockets (s : Serving P V) (server : Nat) (k : ServerSockets V) : Nat → ServerSockets V :=
  Function.update s.sockets server k

@[simp] theorem Serving.setSockets_self (s : Serving P V) (server : Nat) (k : ServerSockets V) :
    s.setSockets server k server = k := Function.update_self ..

/-- The sockets of the other servers stay. -/
theorem Serving.setSockets_of_ne (s : Serving P V) {server server' : Nat} (h : server' ≠ server)
    (k : ServerSockets V) : s.setSockets server k server' = s.sockets server' :=
  Function.update_of_ne h ..

/-- An exception has ended the process, or an expired reference was dereferenced. -/
def Serving.ended (s : Serving P V) : Bool :=
  s.servers.created.any fun c => (s.servers.connection c).crashed.isSome ||
    (s.socketsOf c).base.world.aborted.isSome || (s.socketsOf c).expired

/-- No lambda of a connection is on the stack of the loop. -/
def Serving.stackFree (s : Serving P V) (l : LoopId) : Bool :=
  s.servers.created.all fun c => ((s.socketsOf c).onStack l).isNone

/-- A step of the timers and of the time, or of their settings. -/
def ServerLabel.isTimeouts : ServerLabel → Bool
  | .timer _ | .elapse .. | .setTimeouts .. => true
  | _ => false

/-- The step is a call that a callback on the stack can make, and none of the loop. -/
def Label.isCall : Label → Bool
  | .reply .. | .settle .. => true
  | _ => false

/-- The loop that calls the core or the callback of `uv_close` in a step of the sockets. -/
def ServerSockets.eventLoop (k : ServerSockets V) : CloseLabel V → Option LoopId
  | .core (.fire a) | .core (.close a) => some (k.base.world.action a).loop
  | .closed h => some (k.base.handle h).loop
  | _ => none

/-- The loop that takes the step, which takes none while something else is on its stack. -/
def Serving.eventLoop (s : Serving P V) : ServingLabel V → Option LoopId
  | .createConnection c _ => some (s.servers.timeouts.loop c)
  | .connection c lab => if lab.isCall then none else some (s.servers.timeouts.loop c)
  | .timeouts (.timer l) => some l
  | .timeouts _ | .destroy _ => none
  | .sockets server lab => (s.sockets server).eventLoop lab

/-- The connection whose callback of the server is the next that the lambda on the stack of `l` calls. -/
def ServerSockets.next (k : ServerSockets V) (l : LoopId) : Option Nat :=
  (k.onStack l).bind fun x =>
    if (k.connection x.1).closeCbs[x.2]? = some .server then some x.1 else none

/-- The connections whose sockets are closing. -/
def Serving.closing (s : Serving P V) (server : Nat) (k : ServerSockets V) : Servers P :=
  { s.servers with
    connection := fun c =>
      if s.servers.timeouts.server c = server ∧ (k.base.handle (some c)).isClosing = true then
        (s.servers.connection c).close
      else s.servers.connection c }

/-- What a step of the sockets to `k` does to the connections: a socket is closing, and the callback of
the server removes its connection. Source: `Server.cpp:196-202`. -/
def Serving.follow (s : Serving P V) (server : Nat) (k : ServerSockets V) : CloseLabel V → Servers P
  | .callback l =>
    match (s.sockets server).next l with
    | some c => if k.expired then s.closing server k else (s.closing server k).onClose c
    | none => s.closing server k
  | _ => s.closing server k

/-- The sockets of a server are on its loop, and connections are made by `createConnection`. -/
def Serving.allows (s : Serving P V) (server : Nat) : CloseLabel V → Bool
  | .create _ l => l == (s.servers.timeouts.servers server).loop
  | .createConnection .. => false
  | _ => true

/-- One step; `none` when the label is not enabled. Where the step of a connection calls `close()`, its
socket is asked to close. -/
def servingStep (env : Nat → Env) (uv : UvAsync) (inst : Option Nat → V) (s : Serving P V)
    (lab : ServingLabel V) : Option (Serving P V) :=
  if s.ended || (s.eventLoop lab).any fun l => !s.stackFree l then none else
  match lab with
  | .createConnection c cbs =>
    let server := s.servers.timeouts.server c
    let t := Thread.ofLoop ((s.sockets server).base.handle none).loop
    (serverStep env s.servers (.createConnection c)).bind fun servers =>
      (closeStep uv inst (s.sockets server) (.createConnection t c cbs)).map fun k =>
        { servers, sockets := s.setSockets server k }
  | .connection c lab =>
    if (s.socketsOf c).connectionAlive c then
      (serverStep env s.servers (.connection c lab)).bind fun servers =>
        if (s.servers.connection c).Closes (env c) lab then
          let server := s.servers.timeouts.server c
          let t := Thread.ofLoop ((s.sockets server).base.handle (some c)).loop
          (closeStep uv inst (s.sockets server) (.close t c)).map fun k =>
            { servers, sockets := s.setSockets server k }
        else some { s with servers }
    else none
  | .timeouts lab =>
    if lab.isTimeouts then (serverStep env s.servers lab).map fun servers => { s with servers }
    else none
  | .destroy c =>
    if (s.socketsOf c).connectionAlive c then none
    else (serverStep env s.servers (.destroy c)).map fun servers => { s with servers }
  | .sockets server lab =>
    if s.allows server lab && ((s.sockets server).eventLoop lab).all fun l => s.servers.idle l none then
      (closeStep uv inst (s.sockets server) lab).map fun k =>
        { servers := s.follow server k lab, sockets := s.setSockets server k }
    else none

end

/-! ### The steps, one by one -/

section
variable {P : HttpParser} {V : Type} {env : Nat → Env} {uv : UvAsync} {inst : Option Nat → V}
  {s s' : Serving P V} {c : Nat}

/-- The steps with what each of them requires, and what it does. -/
inductive ServingStep (env : Nat → Env) (uv : UvAsync) (inst : Option Nat → V) (s : Serving P V) :
    ServingLabel V → Serving P V → Prop
  | createConnection {c : Nat} {cbs : List Nat} {servers : Servers P} {k : ServerSockets V}
    (hserver : serverStep env s.servers (.createConnection c) = some servers)
    (hsockets : closeStep uv inst (s.socketsOf c)
      (.createConnection (Thread.ofLoop ((s.socketsOf c).base.handle none).loop) c cbs) = some k) :
    ServingStep env uv inst s (.createConnection c cbs)
      ⟨servers, s.setSockets (s.servers.timeouts.server c) k⟩
  | connection {c : Nat} {lab : Label} {servers : Servers P}
    (hserver : serverStep env s.servers (.connection c lab) = some servers)
    (hkeeps : ¬ (s.servers.connection c).Closes (env c) lab) :
    ServingStep env uv inst s (.connection c lab) ⟨servers, s.sockets⟩
  | closes {c : Nat} {lab : Label} {servers : Servers P} {k : ServerSockets V}
    (hserver : serverStep env s.servers (.connection c lab) = some servers)
    (hcloses : (s.servers.connection c).Closes (env c) lab)
    (hsockets : closeStep uv inst (s.socketsOf c)
      (.close (Thread.ofLoop ((s.socketsOf c).base.handle (some c)).loop) c) = some k) :
    ServingStep env uv inst s (.connection c lab)
      ⟨servers, s.setSockets (s.servers.timeouts.server c) k⟩
  | timeouts {lab : ServerLabel} {servers : Servers P} (hlab : lab.isTimeouts = true)
    (hserver : serverStep env s.servers lab = some servers) :
    ServingStep env uv inst s (.timeouts lab) ⟨servers, s.sockets⟩
  | destroy {c : Nat} {servers : Servers P}
    (hserver : serverStep env s.servers (.destroy c) = some servers) :
    ServingStep env uv inst s (.destroy c) ⟨servers, s.sockets⟩
  | sockets {server : Nat} {lab : CloseLabel V} {k : ServerSockets V}
    (hlab : ∀ t c cbs, lab ≠ .createConnection t c cbs)
    (hsockets : closeStep uv inst (s.sockets server) lab = some k) :
    ServingStep env uv inst s (.sockets server lab) ⟨s.follow server k lab, s.setSockets server k⟩

/-- Every step is one of `ServingStep`. -/
theorem servingStep_cases {lab : ServingLabel V} (h : servingStep env uv inst s lab = some s') :
    ServingStep env uv inst s lab s' := by
  unfold servingStep at h
  simp only [Option.ite_none_left_eq_some] at h
  obtain ⟨-, h⟩ := h
  cases lab with
  | createConnection c cbs =>
    obtain ⟨servers, hserver, h⟩ := Option.bind_eq_some_iff.mp h
    obtain ⟨k, hsockets, rfl⟩ := Option.map_eq_some_iff.mp h
    exact .createConnection hserver hsockets
  | connection c lab =>
    simp only [Option.ite_none_right_eq_some] at h
    obtain ⟨servers, hserver, h⟩ := Option.bind_eq_some_iff.mp h.2
    split at h
    · next hcloses =>
      obtain ⟨k, hsockets, rfl⟩ := Option.map_eq_some_iff.mp h
      exact .closes hserver hcloses hsockets
    · next hkeeps =>
      cases h
      exact .connection hserver hkeeps
  | timeouts lab =>
    simp only [Option.ite_none_right_eq_some] at h
    obtain ⟨servers, hserver, rfl⟩ := Option.map_eq_some_iff.mp h.2
    exact .timeouts h.1 hserver
  | destroy c =>
    simp only [Option.ite_none_left_eq_some] at h
    obtain ⟨servers, hserver, rfl⟩ := Option.map_eq_some_iff.mp h.2
    exact .destroy hserver
  | sockets server lab =>
    simp only [Option.ite_none_right_eq_some, Bool.and_eq_true] at h
    obtain ⟨⟨hallows, -⟩, h⟩ := h
    obtain ⟨k, hsockets, rfl⟩ := Option.map_eq_some_iff.mp h
    refine .sockets ?_ hsockets
    rintro t c cbs rfl
    cases hallows

end

end NodeNative.Http
