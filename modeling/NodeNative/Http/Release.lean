import NodeNative.Http.Agreement
import NodeNative.Http.Reading

/-!
# Releasing a connection

After an error or data that the parser does not accept a connection reads nothing more. What is left
of it in the server and in the timeout lists goes when its socket is closed, which `close()` starts:
at once after a reset or invalid data, and otherwise only if the end of a response is written that does
not keep the connection alive, or if other code closes the connection or its server. In particular the
end of the peer's stream calls nothing.
-/

namespace NodeNative.Http

open Transition
open Base

section
variable {P : HttpParser} {V : Type} {env : Nat → Env} {uv : UvAsync} {inst : Option Nat → V}
  {s s' : Serving P V} {c : Nat}

/-- The socket is closed, and neither a server nor a timeout list has the connection. -/
structure Serving.Released (s : Serving P V) (c : Nat) : Prop where
  closed : ((s.socketsOf c).base.handle (some c)).closed = true
  connections : ∀ server, c ∉ s.servers.connections server
  entries : s.servers.timeouts.entries c = []

/-- What `close()` has begun is done: libuv has closed the socket if it was asked to, no callback of the
server's sockets is in flight, and no lambda is on the stack. -/
structure Serving.CloseDone (s : Serving P V) (c : Nat) : Prop where
  closed : ((s.socketsOf c).base.handle (some c)).isClosing = true →
    ((s.socketsOf c).base.handle (some c)).closed = true
  pending : (s.socketsOf c).base.world.pending = []
  onStack : (s.socketsOf c).onStack ((s.socketsOf c).base.handle (some c)).loop = none

/-- All writes and callbacks of the connection have completed. -/
structure Serving.Quiet (s : Serving P V) (c : Nat) : Prop extends s.CloseDone c where
  crashed : (s.servers.connection c).crashed = none
  writes : ∀ w ∈ (s.servers.connection c).writes, w ≠ .pending
  chains : ∀ chain ∈ (s.servers.connection c).chains, chain.phase = .finished

/-- A read event that is the last one: an error, or data that the parser does not accept.
Source: `ServerConnection.cpp:83-112`. -/
def Connection.Terminal (env : Env) (k : Connection P) : Label → Prop
  | .read buf => k.invalid env buf = true
  | .readError _ => True
  | _ => False

/-- The read events of a connection. -/
def ServingLabel.IsReadOf (c : Nat) : ServingLabel V → Prop
  | .connection c' (.read _) => c' = c
  | .connection c' (.readError _) => c' = c
  | _ => False

/-- The write of a response's end is done, and the response does not keep the connection alive; or
`close()` is called on the connection, or on its server, by other code. -/
def Serving.EndsConnection (s : Serving P V) (c : Nat) : ServingLabel V → Prop
  | .connection c' (.written _ ok) => c' = c ∧ ok = true ∧
      ∃ res, (s.servers.connection c).response = some res ∧ res.shouldKeepAlive = false
  | .sockets server lab => server = s.servers.timeouts.server c ∧ (s.socketsOf c).Requests c lab
  | _ => False

/-- The step asks the socket of the connection to close: a step of the connection, or one of the sockets
of its server. -/
def Serving.Closes (env : Nat → Env) (s : Serving P V) (c : Nat) : ServingLabel V → Prop
  | .connection c' lab => c' = c ∧ (s.servers.connection c).Closes (env c) lab
  | .sockets server lab => server = s.servers.timeouts.server c ∧ (s.socketsOf c).Requests c lab
  | _ => False

/-- Reads apart, a step that closes the socket ends the connection. -/
theorem Serving.closes_iff {lab : ServingLabel V} (hread : ¬ lab.IsReadOf c) :
    s.Closes env c lab ↔ s.EndsConnection c lab := by
  cases lab with
  | connection c' lab =>
    cases lab with
    | written w ok => exact .rfl
    | read buf => exact iff_of_false (fun h => hread h.1) id
    | readError e => exact iff_of_false (fun h => hread h.1) id
    | _ => exact iff_of_false (fun h => h.2) id
  | _ => exact .rfl

/-- A connection that exists stays. -/
theorem servingStep_created {lab : ServingLabel V} (hc : c ∈ s.servers.created)
    (hstep : servingStep env uv inst s lab = some s') : c ∈ s'.servers.created := by
  cases servingStep_cases hstep with
  | createConnection hserver | connection hserver | closes hserver | timeouts _ hserver
  | destroy hserver => exact (serverStep_created hserver c).mpr (.inl hc)
  | @sockets server lab k =>
    show c ∈ (s.follow server k lab).created
    rw [(s.follow_rest server k lab).1]
    exact hc

/-- What holds of the connections and the existence of one are kept. -/
theorem Serving.Agrees.step_created (hs : s.Agrees inst ∧ c ∈ s.servers.created) (huv : uv.Ok)
    {lab : ServingLabel V} (hok : s.ClosesOnce env lab)
    (hstep : servingStep env uv inst s lab = some s') : s'.Agrees inst ∧ c ∈ s'.servers.created :=
  ⟨hs.1.step huv hok hstep, servingStep_created hs.2 hstep⟩

/-- The socket of a connection is closing after a step if it was before, or if the step asks it to
close. -/
theorem Serving.Agrees.closed_iff (hs : s.Agrees inst) (huv : uv.Ok) {lab : ServingLabel V}
    (hok : s.ClosesOnce env lab) (hstep : servingStep env uv inst s lab = some s')
    (hc : c ∈ s.servers.created) : (s'.servers.connection c).closed = true ↔
      (s.servers.connection c).closed = true ∨ s.Closes env c lab := by
  cases servingStep_cases hstep with
  | createConnection hserver | destroy hserver =>
    show (Servers.connection _ c).closed = true ↔ _
    rw [serverStep_closed_iff hc hserver]
    simp [Serving.Closes]
  | @connection c' lab servers hserver | @closes c' lab servers k hserver =>
    show (servers.connection c).closed = true ↔ _
    rw [serverStep_connection_closed hserver hc]
    refine or_congr_right ⟨?_, ?_⟩
    · rintro ⟨rfl, hcloses⟩
      exact ⟨rfl, hcloses⟩
    · rintro ⟨rfl, hcloses⟩
      exact ⟨rfl, hcloses⟩
  | @timeouts lab servers hlab hserver =>
    show (servers.connection c).closed = true ↔ _
    rw [serverStep_closed_iff hc hserver]
    refine or_congr_right (iff_of_false ?_ id)
    rintro ⟨lab', rfl, -⟩
    cases hlab
  | @sockets server lab k hlab hsockets =>
    show ((s.follow server k lab).connection c).closed = true ↔ _
    rw [s.follow_closed, hs.closed c hc]
    rcases eq_or_ne (s.servers.timeouts.server c) server with rfl | hne
    · have hmem := (hs.created _ c).mpr ⟨hc, rfl⟩
      rw [closeStep_isClosing_iff huv (hs.inv _) hok hsockets hmem]
      simp [Serving.Closes, Serving.socketsOf]
    · simp [Serving.Closes, hne, hne.symm]

/-- Once what `close()` has begun is done, a connection is released exactly when its socket is
closing. -/
theorem Serving.Agrees.released_iff (hs : s.Agrees inst) (hc : c ∈ s.servers.created)
    (hdone : s.CloseDone c) : s.Released c ↔ (s.servers.connection c).closed = true := by
  rw [hs.closed c hc]
  have hmem := (hs.created _ c).mpr ⟨hc, rfl⟩
  have hinv := hs.inv (s.servers.timeouts.server c)
  have hlisted := (hs.owned _).listed_iff hinv hdone.pending hmem hdone.onStack
  constructor
  · exact fun h => (hinv.base.handle _ hmem).closing h.closed
  · intro hclosing
    have hclosed := hdone.closed hclosing
    have hnone : ∀ server, c ∉ s.servers.connections server := by
      intro server hmem'
      rw [hs.connections] at hmem'
      obtain ⟨-, rfl⟩ := (hs.created server c).mp ((hs.inv server).listed c hmem')
      have hopen := hlisted.mp hmem'
      rw [show ((s.sockets _).base.handle (some c)).closed = true from hclosed] at hopen
      cases hopen
    exact ⟨hclosed, hnone, hs.entries c hc hnone⟩

/-- In a run that closes no socket again the socket of a connection is closed by the steps that ask it to
close. -/
theorem run_closed_iff (hs : s.Agrees inst) (huv : uv.Ok) {ls : List (ServingLabel V)}
    (hok : Along (servingStep env uv inst) (Serving.ClosesOnce env) s ls) (hc : c ∈ s.servers.created)
    (hrun : run (servingStep env uv inst) s ls = some s') : (s'.servers.connection c).closed = true ↔
      (s.servers.connection c).closed = true ∨ ∃ ls₀ lab ls₁ m, ls = ls₀ ++ lab :: ls₁ ∧
        run (servingStep env uv inst) s ls₀ = some m ∧ m.Closes env c lab :=
  run_flag_iff (fun _ _ _ hok hs hstep => hs.1.closed_iff huv hok hstep hs.2)
    (fun _ _ _ hok hs hstep => Serving.Agrees.step_created hs huv hok hstep) hok (And.intro hs hc) hrun

/-- A connection reads only while its socket is open. -/
theorem Connection.Terminal.open {env : Env} {k k' : Connection P} {lab : Label}
    (h : k.Terminal env lab) (hstep : step env k lab = some k') : k.closed = false := by
  cases step_cases env hstep with
  | read _ _ hopen => exact hopen
  | readError _ _ hopen => exact hopen
  | _ => exact h.elim

/-- The last read event calls `close()` unless it is an error other than a reset. -/
theorem Connection.Terminal.closes_iff {env : Env} {k : Connection P} {lab : Label}
    (h : k.Terminal env lab) :
    k.Closes env lab ↔ lab = .readError .connReset ∨ ∃ buf, lab = .read buf := by
  cases lab with
  | read buf => simpa [Connection.Closes] using show k.invalid env buf = true from h
  | readError e => simp [Connection.Closes]
  | _ => exact h.elim

/-- A step of a connection is one of a connection that exists. -/
theorem servingStep_connection {lab : Label}
    (hstep : servingStep env uv inst s (.connection c lab) = some s') :
    c ∈ s.servers.created ∧ ∃ k', Http.step (env c) (s.servers.connection c) lab = some k' := by
  have hserver : ∃ servers, serverStep env s.servers (.connection c lab) = some servers := by
    cases servingStep_cases hstep with
    | connection hserver | closes hserver => exact ⟨_, hserver⟩
  obtain ⟨servers, hserver⟩ := hserver
  cases serverStep_cases hserver with
  | connection _ _ k' hcreated _ hst => exact ⟨hcreated, k', hst⟩

/-- Source: `ServerConnection.cpp:61-122`, `Server.cpp:194-202`. In every run that closes no socket again
while it is closing, and in which the last read event of a connection is terminal: once what `close()` has
begun is done, the connection is released if and only if that event is a reset or invalid data, or, after
it, the end of a response is written that does not keep the connection alive, or other code closes the
connection or its server. -/
theorem gone_connection_released_iff (huv : uv.Ok) (servers : Nat → Server) (server : Nat → Nat)
    (now : LoopId → Nat) {ls₀ ls₁ : List (ServingLabel V)} {c : Nat} {lab : Label}
    {s₀ s₁ : Serving P V}
    (hrun₀ : run (servingStep env uv inst) (.start env servers server now) ls₀ = some s₀)
    (hterminal : (s₀.servers.connection c).Terminal (env c) lab)
    (hstep : servingStep env uv inst s₀ (.connection c lab) = some s₁)
    (hreads : ∀ l ∈ ls₁, ¬ l.IsReadOf c) (hrun₁ : run (servingStep env uv inst) s₁ ls₁ = some s)
    (honce : Along (servingStep env uv inst) (Serving.ClosesOnce env)
      (.start env servers server now : Serving P V) (ls₀ ++ .connection c lab :: ls₁))
    (hdone : s.CloseDone c) :
    s.Released c ↔ (lab = .readError .connReset ∨ ∃ buf, lab = .read buf) ∨
      ∃ ls₂ l ls₃ m, ls₁ = ls₂ ++ l :: ls₃ ∧ run (servingStep env uv inst) s₁ ls₂ = some m ∧
        m.EndsConnection c l := by
  obtain ⟨honce₀, hrest⟩ := honce.append
  obtain ⟨hok, hrest⟩ := hrest hrun₀
  have honce₁ := hrest s₁ hstep
  have hs₀ : s₀.Agrees inst := serving_agrees huv servers server now hrun₀ honce₀
  have hs₁ : s₁.Agrees inst := hs₀.step huv hok hstep
  obtain ⟨hcreated, k', hk'⟩ := servingStep_connection hstep
  have hcreated₁ := servingStep_created hcreated hstep
  have hclosed : (s₁.servers.connection c).closed = true ↔
      lab = .readError .connReset ∨ ∃ buf, lab = .read buf := by
    rw [hs₀.closed_iff huv hok hstep hcreated, ← hterminal.closes_iff, hterminal.open hk']
    simp [Serving.Closes]
  have hs : s.Agrees inst ∧ c ∈ s.servers.created :=
    run_invariant_along (fun _ _ _ hok hs hst => Serving.Agrees.step_created hs huv hok hst) honce₁
      ⟨hs₁, hcreated₁⟩ hrun₁
  rw [hs.1.released_iff hs.2 hdone, run_closed_iff hs₁ huv honce₁ hcreated₁ hrun₁, hclosed]
  refine or_congr_right ⟨?_, ?_⟩
  · rintro ⟨ls₂, l, ls₃, m, rfl, hrun, hcloses⟩
    exact ⟨ls₂, l, ls₃, m, rfl, hrun, (Serving.closes_iff (hreads l (by simp))).mp hcloses⟩
  · rintro ⟨ls₂, l, ls₃, m, rfl, hrun, hends⟩
    exact ⟨ls₂, l, ls₃, m, rfl, hrun, (Serving.closes_iff (hreads l (by simp))).mpr hends⟩

end

/-- A server without handlers and with the default timeouts, at time 0. -/
def noHandlersServing : Serving twoRootsParser Nat :=
  .start (fun _ => noHandlers) (fun _ => {}) (fun _ => 0) fun _ => 0

/-- A step of it. -/
def noHandlersStep : Serving twoRootsParser Nat → ServingLabel Nat → Option (Serving twoRootsParser Nat) :=
  servingStep (fun _ => noHandlers) {} fun _ => 0

/-- The server is made, and a peer connects. -/
def oneConnection : List (ServingLabel Nat) :=
  [.sockets 0 (.create (Thread.ofLoop 0) 0), .createConnection 0 []]

/-- libuv closes the socket, and its lambda calls the callback of the server. -/
def closedConnection : List (ServingLabel Nat) :=
  [.sockets 0 (.closed (some 0)), .sockets 0 (.core (.fire (.user 3))), .sockets 0 (.callback 0),
    .sockets 0 (.core (.ret 0 (.value none)))]

/-- The peer has connected. -/
def connected : Serving twoRootsParser Nat :=
  (run noHandlersStep noHandlersServing oneConnection).get (by decide +kernel)

/-- Then it has reset the connection, -/
def resetByPeer : Serving twoRootsParser Nat :=
  (noHandlersStep connected (.connection 0 (.readError .connReset))).get (by decide +kernel)

/-- and the socket is closed. -/
def closedAfterReset : Serving twoRootsParser Nat :=
  (run noHandlersStep resetByPeer closedConnection).get (by decide +kernel)

/-- Or it has closed its side of the stream. -/
def endedByPeer : Serving twoRootsParser Nat :=
  (noHandlersStep connected (.connection 0 (.readError .eof))).get (by decide +kernel)

/-- A connection that is reset is released when its socket is closed. -/
theorem gone_connection_released_reset :
    run noHandlersStep noHandlersServing oneConnection = some connected ∧
    noHandlersStep connected (.connection 0 (.readError .connReset)) = some resetByPeer ∧
    run noHandlersStep resetByPeer closedConnection = some closedAfterReset ∧
    closedAfterReset.Released 0 := by
  have hrun₀ : run noHandlersStep noHandlersServing oneConnection = some connected :=
    (Option.some_get _).symm
  have hstep : noHandlersStep connected (.connection 0 (.readError .connReset)) = some resetByPeer :=
    (Option.some_get _).symm
  have hrun₁ : run noHandlersStep resetByPeer closedConnection = some closedAfterReset :=
    (Option.some_get _).symm
  have honce : Along noHandlersStep (Serving.ClosesOnce fun _ => noHandlers) noHandlersServing
      (oneConnection ++ .connection 0 (.readError .connReset) :: closedConnection) := by decide +kernel
  have hreads : ∀ l ∈ closedConnection, ¬ l.IsReadOf 0 := by
    intro l hl
    simp only [closedConnection, List.mem_cons, List.not_mem_nil, or_false] at hl
    rcases hl with rfl | rfl | rfl | rfl <;> exact id
  have hdone : closedAfterReset.CloseDone 0 :=
    ⟨by decide +kernel, by decide +kernel, by decide +kernel⟩
  have hterminal : (connected.servers.connection 0).Terminal noHandlers (.readError .connReset) := trivial
  exact ⟨hrun₀, hstep, hrun₁, (gone_connection_released_iff (fun _ => ⟨rfl, rfl⟩) (fun _ => {})
    (fun _ => 0) (fun _ => 0) hrun₀ hterminal hstep hreads hrun₁ honce hdone).mpr (.inl (.inl rfl))⟩

/-- At the end of its peer's stream a connection stays: nothing is left to happen to it, its socket is
open, and its server and the timeout list of its loop still have it. -/
theorem gone_connection_kept_eof :
    run noHandlersStep noHandlersServing oneConnection = some connected ∧
    (connected.servers.connection 0).Terminal noHandlers (.readError .eof) ∧
    noHandlersStep connected (.connection 0 (.readError .eof)) = some endedByPeer ∧
    endedByPeer.Quiet 0 ∧ ¬ endedByPeer.Released 0 ∧ 0 ∈ endedByPeer.servers.connections 0 ∧
    endedByPeer.servers.timeouts.entries 0 ≠ [] := by
  have hquiet : endedByPeer.Quiet 0 :=
    ⟨⟨by decide +kernel, by decide +kernel, by decide +kernel⟩, by decide +kernel, by decide +kernel,
      by decide +kernel⟩
  have hlisted : 0 ∈ endedByPeer.servers.connections 0 := by decide +kernel
  refine ⟨(Option.some_get _).symm, trivial, (Option.some_get _).symm, hquiet, ?_, hlisted,
    by decide +kernel⟩
  exact fun hreleased => hreleased.connections 0 hlisted

end NodeNative.Http
