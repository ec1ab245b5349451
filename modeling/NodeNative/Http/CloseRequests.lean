import NodeNative.Base.Continuations

/-!
# Closing a server and its connections

`ServerConnection::close` closes the socket of the connection and chains a lambda, which locks a weak
reference to the connection and calls its close callbacks. One of these is that of the server, which
locks weak references to both and removes the connection from the list of the server. `Server::close`
calls `close` on the connections in its list, closes its own socket and chains a lambda, which locks a
weak reference to the server and resets the reference of the server to itself.
-/

namespace NodeNative.Http

open Base Transition

/-- A close callback: the one that `Server::createConnection` registers, or another. -/
inductive CloseCb
  | server
  | user (n : Nat)
  deriving DecidableEq

/-- A `ServerConnection`: its close callbacks, and whether a reference to it is held by others than the
list of its server and the lambda that calls the callbacks. Source: `ServerConnection.hpp:55`. -/
structure ServerConnection where
  closeCbs : List CloseCb := []
  held : Bool := false

/-- A server and its connections over the asynchronous core. The handle `none` is the socket of the
server, the handle `some c` that of the connection `c`. `serverInstance` and `connections` are fields
of the server, `held` says that others hold a reference to it. On the stack of a loop is the lambda of
a connection and the position of its iterator. `ran` is the history of the callbacks that were called,
and `expired` says that a weak reference was dereferenced behind its object's end. Source:
`Server.hpp:92-98`. -/
structure ServerSockets (V : Type) where
  base : Handles (Option Nat) V := {}
  serverInstance : Bool := false
  held : Bool := false
  connections : List Nat := []
  connection : Nat → ServerConnection := fun _ => {}
  onStack : LoopId → Option (Nat × Nat) := fun _ => none
  ran : List (Nat × Nat) := []
  expired : Bool := false

section
variable {V : Type}

/-! ### References -/

/-- The lambda of the connection is on the stack, with a reference to it. -/
def ServerSockets.running (s : ServerSockets V) (c : Nat) : Bool :=
  (s.onStack (s.base.handle (some c)).loop).any fun x => x.1 = c

/-- A reference to the connection exists. -/
def ServerSockets.connectionAlive (s : ServerSockets V) (c : Nat) : Bool :=
  s.base.created.contains (some c) &&
    (s.connections.contains c || (s.connection c).held || s.running c)

/-- A reference to the server exists; each connection holds one. -/
def ServerSockets.serverAlive (s : ServerSockets V) : Bool :=
  s.base.created.contains none && (s.serverInstance || s.held ||
    s.base.created.any fun h => h.any s.connectionAlive)

/-! ### The code -/

/-- Source: `ServerConnection.cpp:61`. -/
def ServerConnection.close (uv : UvAsync) (t : Thread) (c : Nat) : HandleM (Option Nat) V Unit :=
  Handle.closeThen uv t (some c) .void

/-- Source: `Server.cpp:247`. -/
def Server.close (uv : UvAsync) (t : Thread) (connections : List Nat) : HandleM (Option Nat) V Unit := do
  connections.forM fun c => ServerConnection.close uv t c
  Handle.closeThen uv t none .value

/-- The lambda that a step of the core has called: that of the server, or that of a connection up to its
first callback. Source: `Server.cpp:256-260`, `ServerConnection.cpp:64-65`. -/
def ServerSockets.answer (s : ServerSockets V) : Option (Option Nat) → ServerSockets V
  | none => s
  | some none => if s.serverAlive then { s with serverInstance := false } else { s with expired := true }
  | some (some c) =>
    if s.connectionAlive c then
      { s with onStack := Function.update s.onStack (s.base.handle (some c)).loop (some (c, 0)) }
    else { s with expired := true }

/-- The callback at position `i` of the list, which the iteration on the stack of `l` has reached. The
timeout entry that the callback of the server removes is left out. Source: `ServerConnection.cpp:66-68`
and `Server.cpp:196-202`. -/
def ServerSockets.callback (s : ServerSockets V) (l : LoopId) (c i : Nat) : CloseCb → ServerSockets V
  | .user _ => { s with onStack := Function.update s.onStack l (some (c, i + 1)), ran := s.ran ++ [(c, i)] }
  | .server =>
    if s.serverAlive && s.connectionAlive c then
      { s with
        onStack := Function.update s.onStack l (some (c, i + 1))
        ran := s.ran ++ [(c, i)]
        connections := s.connections.filter (· ≠ c) }
    else { s with expired := true }

/-- The callback has thrown. -/
def throwsOut : CallbackReturn V → Bool
  | .throws _ | .raises _ => true
  | .value _ | .future _ => false

/-- While a lambda is on its stack a loop takes no step of its own, and the lambda returns when every
callback has returned or one of them has thrown. -/
def ServerSockets.blocks (s : ServerSockets V) : Label V → Bool
  | .fire a | .close a => (s.onStack (s.base.world.action a).loop).isSome
  | .ret l r => (s.onStack l).any fun x =>
    if throwsOut r then x.2 = 0 else x.2 < (s.connection x.1).closeCbs.length
  | _ => false

/-- The stack after the return of a lambda. -/
def ServerSockets.popped (s : ServerSockets V) : Label V → LoopId → Option (Nat × Nat)
  | .ret l _ => Function.update s.onStack l none
  | _ => s.onStack

/-! ### The transition function -/

/-- What can happen: a step of the core, `Server::Create` on loop `l`, `createConnection` with callbacks
that the callback of `onCreateConnection` has registered, `onClose` on a connection, references to a
connection or the server are taken and dropped, calls of the two `close`, the callback of `uv_close`, and
the lambda on the stack of `l` calls a callback. -/
inductive CloseLabel (V : Type)
  | core (lab : Label V)
  | create (t : Thread) (l : LoopId)
  | createConnection (t : Thread) (c : Nat) (cbs : List Nat)
  | onClose (c n : Nat)
  | hold (c : Nat)
  | release (c : Nat)
  | holdServer
  | releaseServer
  | close (t : Thread) (c : Nat)
  | closeServer (t : Thread)
  | closed (h : Option Nat)
  | callback (l : LoopId)

/-- Modify the connection `c`. -/
def ServerSockets.setConnection (s : ServerSockets V) (c : Nat) (k : ServerConnection) :
    ServerSockets V :=
  { s with connection := Function.update s.connection c k }

/-- One step; `none` when the label is not enabled. A constructor on another thread than the loop's
throws before anything else happens. Nothing happens behind the dereference of an expired reference. -/
def closeStep (uv : UvAsync) (inst : Option Nat → V) (s : ServerSockets V) (lab : CloseLabel V) :
    Option (ServerSockets V) :=
  if s.base.world.aborted.isSome || s.expired then none else
  match lab with
  | .core lab =>
    if s.blocks lab then none
    else (handleStep uv inst s.base (.core lab)).map fun b =>
      { s with base := b, onStack := s.popped lab }.answer (s.base.answered lab b.world)
  | .create t l =>
    (handleStep uv inst s.base (.create t none l)).map fun b =>
      if t l then { s with base := b, serverInstance := true, held := true } else s
  | .createConnection t c cbs =>
    let l := (s.base.handle none).loop
    if s.serverAlive then
      (handleStep uv inst s.base (.create t (some c) l)).map fun b =>
        if t l then
          { s with base := b, connections := s.connections ++ [c] }.setConnection c
            { closeCbs := cbs.map CloseCb.user ++ [CloseCb.server] }
        else s
    else none
  | .onClose c n =>
    if s.connectionAlive c then
      some (s.setConnection c
        { s.connection c with closeCbs := (s.connection c).closeCbs ++ [.user n] })
    else none
  | .hold c =>
    if s.connectionAlive c then some (s.setConnection c { s.connection c with held := true }) else none
  | .release c => some (s.setConnection c { s.connection c with held := false })
  | .holdServer => if s.serverAlive then some { s with held := true } else none
  | .releaseServer => some { s with held := false }
  | .close t c =>
    if s.connectionAlive c then some { s with base := s.base.call (ServerConnection.close uv t c) }
    else none
  | .closeServer t =>
    if s.serverAlive then some { s with base := s.base.call (Server.close uv t s.connections) }
    else none
  | .closed h =>
    if (s.onStack (s.base.handle h).loop).isSome then none
    else (handleStep uv inst s.base (.closed h)).map fun b => { s with base := b }
  | .callback l =>
    (s.onStack l).bind fun x =>
      (s.connection x.1).closeCbs[x.2]?.map fun cb => s.callback l x.1 x.2 cb

/-! ### The steps of the sockets -/

section
variable {uv : UvAsync} {inst : Option Nat → V} {b b' : Handles (Option Nat) V} {c : Nat} {t : Thread}

/-- What holds of the sockets: a socket that is closing was closed by one of the two `close`, that of a
connection by one call only, and all are on the loop of the server. -/
structure SocketsInv (inst : Option Nat → V) (b : Handles (Option Nat) V) : Prop extends
    b.Continued inst where
  requested : ∀ h, (b.handle h).isClosing = true → 0 < b.requests h
  once : ∀ c, b.requests (some c) ≤ 1
  serverLoop : ∀ c, some c ∈ b.created →
    none ∈ b.created ∧ (b.handle (some c)).loop = (b.handle none).loop

/-- The sockets that exist stay on their loops, and no lambda of a connection is called. -/
structure SameSockets (b b' : Handles (Option Nat) V) : Prop where
  created : ∀ h ∈ b.created, h ∈ b'.created
  old : ∀ c, some c ∈ b'.created → some c ∈ b.created
  loop : ∀ h ∈ b.created, (b'.handle h).loop = (b.handle h).loop
  answers : ∀ c, b'.answers (some c) = b.answers (some c)

/-- The sockets stay when nothing happens, -/
theorem SameSockets.refl (b : Handles (Option Nat) V) : SameSockets b b :=
  ⟨fun _ hh => hh, fun _ hc => hc, fun _ _ => rfl, fun _ => rfl⟩

/-- and over steps in a row. -/
theorem SameSockets.trans {b₁ b₂ b₃ : Handles (Option Nat) V} (h : SameSockets b₁ b₂)
    (h' : SameSockets b₂ b₃) : SameSockets b₁ b₃ where
  created k hk := h'.created k (h.created k hk)
  old c hc := h.old c (h'.old c hc)
  loop k hk := (h'.loop k (h.created k hk)).trans (h.loop k hk)
  answers c := (h'.answers c).trans (h.answers c)

/-- The socket of a connection that is closing is not closed again before it is closed. -/
def OnlyOnce (b : Handles (Option Nat) V) (t : Thread) (c : Nat) : Prop :=
  t (b.handle (some c)).loop = true → (b.handle (some c)).isClosing = true →
    (b.handle (some c)).closed = true

/-- A step keeps what holds of the sockets when it closes none of the connections again. -/
theorem SocketsInv.step (huv : uv.Ok) (habort : b.world.aborted = none) (hb : SocketsInv inst b)
    {lab : HandleLabel (Option Nat) V} (hstep : HandleStep uv inst b lab b')
    (hlab : ∀ t h, lab ≠ .close t h) (honly : ∀ t c R, lab = .closeThen t (some c) R → OnlyOnce b t c)
    (hserver : ∀ c, some c ∈ b'.created →
      none ∈ b'.created ∧ (b'.handle (some c)).loop = (b'.handle none).loop) : SocketsInv inst b' where
  toContinued := hb.toContinued.step huv habort hstep
  requested h := hb.requests_pos huv habort hstep (fun t => hlab t h) (hb.requested h)
  once c := by
    rw [hb.requests_step huv habort hstep]
    have honce := hb.once c
    split
    · next hchains =>
      cases lab with
      | closeThen t h R =>
        obtain ⟨rfl, ht, hopen⟩ := hchains
        have hclosing : (b.handle (some c)).isClosing = false := by
          refine Bool.eq_false_iff.mpr fun hclosing => ?_
          rw [honly t c R rfl ht hclosing] at hopen
          cases hopen
        have hzero := hb.requests_eq_zero hclosing
        omega
      | _ => cases hchains
    · omega
  serverLoop := hserver

/-- A step that creates no socket. -/
theorem SocketsInv.step_created (huv : uv.Ok) (habort : b.world.aborted = none) (hb : SocketsInv inst b)
    {lab : HandleLabel (Option Nat) V} (hstep : HandleStep uv inst b lab b')
    (hlab : ∀ t h, lab ≠ .close t h) (honly : ∀ t c R, lab = .closeThen t (some c) R → OnlyOnce b t c)
    (hnew : ∀ t h l, lab ≠ .create t h l) : SocketsInv inst b' := by
  refine hb.step huv habort hstep hlab honly fun c hc => ?_
  rw [hstep.created_eq hnew] at hc ⊢
  obtain ⟨hserver, hloop⟩ := hb.serverLoop c hc
  exact ⟨hserver, by rw [(hstep.loop hc).2, (hstep.loop hserver).2, hloop]⟩

/-- A step that is none of the core, and creates no connection, calls no lambda of one. -/
theorem SocketsInv.same (huv : uv.Ok) (habort : b.world.aborted = none) (hb : SocketsInv inst b)
    {lab : HandleLabel (Option Nat) V} (hstep : HandleStep uv inst b lab b')
    (hlab : ∀ clab, lab ≠ .core clab) (hold : ∀ c, some c ∈ b'.created → some c ∈ b.created) :
    SameSockets b b' where
  created _ hh := (hstep.loop hh).1
  old := hold
  loop _ hh := (hstep.loop hh).2
  answers c := hb.answers_same huv habort hstep hlab (some c)

/-- A call of `close` with its lambda. -/
theorem SocketsInv.closeThen (huv : uv.Ok) (habort : b.world.aborted = none) (hb : SocketsInv inst b)
    {h : Option Nat} {R : RetType} (hstep : HandleStep uv inst b (.closeThen t h R) b')
    (honly : ∀ c, h = some c → OnlyOnce b t c) :
    b'.world.aborted = none ∧ SocketsInv inst b' ∧ SameSockets b b' := by
  have hcalled := (hstep.called huv habort hb.toInv).resolve_left nofun
  refine ⟨hcalled.aborted.trans habort, hb.step_created huv habort hstep nofun ?_ nofun,
    hb.same huv habort hstep nofun fun c hc => hstep.created_eq nofun ▸ hc⟩
  rintro t' c R' heq
  cases heq
  exact honly c rfl

/-- `Server::close` off the thread of its loop throws before it closes anything. -/
theorem Server.close_thread (hb : SocketsInv inst b) {cs : List Nat} (hcs : ∀ c ∈ cs, some c ∈ b.created)
    (ht : t (b.handle none).loop = false) : b.call (Server.close uv t cs) = b := by
  have hclose : ∀ h, t (b.handle h).loop = false → ∀ R, (Handle.closeThen uv t h R).run b =
      .error (.runtimeError "Not on the event Loop thread") b := by
    intro h ht R
    rw [Handle.closeThen, EStateM.run_bind, Handle.close_run_thread ht]
  rw [Handles.call, Server.close]
  cases cs with
  | nil => simp [hclose none ht]
  | cons c cs =>
    have htc : t (b.handle (some c)).loop = false := by
      rw [(hb.serverLoop c (hcs c (.head _))).2]
      exact ht
    simp [ServerConnection.close, hclose (some c) htc]

/-- The connections that `Server::close` closes. -/
theorem SocketsInv.closeEach (huv : uv.Ok) {cs : List Nat} (hnodup : cs.Nodup)
    (habort : b.world.aborted = none) (hb : SocketsInv inst b) (hcs : ∀ c ∈ cs, some c ∈ b.created)
    (ht : t (b.handle none).loop = true) (honly : ∀ c ∈ cs, OnlyOnce b t c) :
    ∃ b', (cs.forM fun c => ServerConnection.close uv t c).run b = .ok () b' ∧
      b'.world.aborted = none ∧ SocketsInv inst b' ∧ SameSockets b b' := by
  induction cs generalizing b with
  | nil => exact ⟨b, rfl, habort, hb, .refl b⟩
  | cons c cs ih =>
    obtain ⟨hc, hnodup⟩ := List.nodup_cons.mp hnodup
    have hcreated := hcs c (.head _)
    have htc : t (b.handle (some c)).loop = true := (hb.serverLoop c hcreated).2 ▸ ht
    have hstep : HandleStep uv inst b (.closeThen t (some c) .void) _ := .closeThen hcreated htc
    obtain ⟨habort₁, hb₁, hsame⟩ := hb.closeThen huv habort hstep fun c' heq =>
      Option.some.inj heq ▸ honly c (.head _)
    have hcs₁ : ∀ c' ∈ cs, some c' ∈ ((b.asked (some c)).chained t (some c) .void).created :=
      fun c' hc' => hsame.created _ (hcs c' (.tail _ hc'))
    have ht₁ := (hsame.loop none (hb.serverLoop c hcreated).1).symm ▸ ht
    -- Closing the socket of `c` leaves those of the others as they are.
    have honly₁ : ∀ c' ∈ cs, OnlyOnce ((b.asked (some c)).chained t (some c) .void) t c' := by
      intro c' hc'
      have hne : some c' ≠ some c := fun heq => hc (Option.some.inj heq ▸ hc')
      have hhandle : ((b.asked (some c)).chained t (some c) .void).handle (some c') =
          b.handle (some c') := Handles.requested_handle_of_ne hne
      rw [OnlyOnce, hhandle]
      exact honly c' (.tail _ hc')
    obtain ⟨b', hrun, habort', hb', hsame'⟩ := ih hnodup habort₁ hb₁ hcs₁ ht₁ honly₁
    refine ⟨b', ?_, habort', hb', hsame.trans hsame'⟩
    rw [List.forM, EStateM.run_bind, ServerConnection.close, Handle.closeThen_run huv htc]
    exact hrun

/-- `Server::close`, on the thread of its loop. -/
theorem SocketsInv.closeServer (huv : uv.Ok) {cs : List Nat} (hnodup : cs.Nodup)
    (habort : b.world.aborted = none) (hb : SocketsInv inst b) (hcs : ∀ c ∈ cs, some c ∈ b.created)
    (hserver : none ∈ b.created) (ht : t (b.handle none).loop = true)
    (honly : ∀ c ∈ cs, OnlyOnce b t c) : SocketsInv inst (b.call (Server.close uv t cs)) ∧
      SameSockets b (b.call (Server.close uv t cs)) := by
  obtain ⟨b₁, hrun, habort₁, hb₁, hsame⟩ := hb.closeEach huv hnodup habort hcs ht honly
  have ht₁ : t (b₁.handle none).loop = true := (hsame.loop none hserver).symm ▸ ht
  have hcall : b.call (Server.close uv t cs) = (b₁.asked none).chained t none .value := by
    rw [Handles.call, Server.close, EStateM.run_bind, hrun]
    dsimp only
    rw [Handle.closeThen_run huv ht₁]
  rw [hcall]
  have hstep : HandleStep uv inst b₁ (.closeThen t none .value) _ :=
    .closeThen (hsame.created _ hserver) ht₁
  obtain ⟨-, hb₂, hsame'⟩ := hb₁.closeThen huv habort₁ hstep fun c heq => by cases heq
  exact ⟨hb₂, hsame.trans hsame'⟩

end

/-! ### The steps of the server -/

section
variable {uv : UvAsync} {inst : Option Nat → V} {s s' : ServerSockets V} {b : Handles (Option Nat) V}
  {c : Nat}

/-- The steps with what each of them requires, and what it does. -/
inductive CloseStep (uv : UvAsync) (inst : Option Nat → V) (s : ServerSockets V) :
    CloseLabel V → ServerSockets V → Prop
  | core {lab : Label V} {b : Handles (Option Nat) V} (hblocks : s.blocks lab = false)
    (hbase : HandleStep uv inst s.base (.core lab) b) : CloseStep uv inst s (.core lab)
      ({ s with base := b, onStack := s.popped lab }.answer (s.base.answered lab b.world))
  | refused {lab : CloseLabel V} : CloseStep uv inst s lab s
  | create {t : Thread} {l : LoopId} {b : Handles (Option Nat) V}
    (hbase : HandleStep uv inst s.base (.create t none l) b) (ht : t l = true) :
    CloseStep uv inst s (.create t l) { s with base := b, serverInstance := true, held := true }
  | createConnection {t : Thread} {c : Nat} {cbs : List Nat} {b : Handles (Option Nat) V}
    (hserver : none ∈ s.base.created)
    (hbase : HandleStep uv inst s.base (.create t (some c) (s.base.handle none).loop) b)
    (ht : t (s.base.handle none).loop = true) : CloseStep uv inst s (.createConnection t c cbs)
      ({ s with base := b, connections := s.connections ++ [c] }.setConnection c
        { closeCbs := cbs.map CloseCb.user ++ [CloseCb.server] })
  | onClose {c n : Nat} : CloseStep uv inst s (.onClose c n) (s.setConnection c
      { s.connection c with closeCbs := (s.connection c).closeCbs ++ [.user n] })
  | held {lab : CloseLabel V} {c : Nat} {held : Bool} :
    CloseStep uv inst s lab (s.setConnection c { s.connection c with held := held })
  | serverHeld {lab : CloseLabel V} {held : Bool} : CloseStep uv inst s lab { s with held := held }
  | close {t : Thread} {c : Nat} (hc : some c ∈ s.base.created) : CloseStep uv inst s (.close t c)
      { s with base := s.base.call (ServerConnection.close uv t c) }
  | closeServer {t : Thread} (hserver : none ∈ s.base.created) : CloseStep uv inst s (.closeServer t)
      { s with base := s.base.call (Server.close uv t s.connections) }
  | closed {h : Option Nat} {b : Handles (Option Nat) V} (hbase : HandleStep uv inst s.base (.closed h) b) :
    CloseStep uv inst s (.closed h) { s with base := b }
  | callback {l : LoopId} {c i : Nat} {cb : CloseCb} (hstack : s.onStack l = some (c, i))
    (hcb : (s.connection c).closeCbs[i]? = some cb) :
    CloseStep uv inst s (.callback l) (s.callback l c i cb)

/-- A connection that is referred to exists, -/
theorem ServerSockets.created_of_alive (halive : s.connectionAlive c = true) :
    some c ∈ s.base.created := by
  simp only [ServerSockets.connectionAlive, Bool.and_eq_true, List.contains_eq_mem,
    decide_eq_true_eq] at halive
  exact halive.1

/-- and so does the server. -/
theorem ServerSockets.created_of_serverAlive (halive : s.serverAlive = true) :
    none ∈ s.base.created := by
  simp only [ServerSockets.serverAlive, Bool.and_eq_true, List.contains_eq_mem,
    decide_eq_true_eq] at halive
  exact halive.1

/-- Every step is one of `CloseStep`. -/
theorem closeStep_cases (huv : uv.Ok) (hs : s.base.Inv inst) {lab : CloseLabel V}
    (hstep : closeStep uv inst s lab = some s') :
    s.base.world.aborted = none ∧ CloseStep uv inst s lab s' := by
  unfold closeStep at hstep
  split at hstep
  · cases hstep
  · next hgo =>
    obtain ⟨habort, -⟩ : s.base.world.aborted = none ∧ s.expired = false := by simpa using hgo
    refine ⟨habort, ?_⟩
    cases lab with
    | core lab =>
      simp only [Option.ite_none_left_eq_some] at hstep
      obtain ⟨hblocks, hstep⟩ := hstep
      obtain ⟨b, hb, rfl⟩ := Option.map_eq_some_iff.mp hstep
      exact .core (by simpa using hblocks) (handleStep_cases huv hs hb).2
    | create t l =>
      obtain ⟨b, hb, rfl⟩ := Option.map_eq_some_iff.mp hstep
      split
      · next ht => exact .create (handleStep_cases huv hs hb).2 ht
      · exact .refused
    | createConnection t c cbs =>
      simp only [Option.ite_none_right_eq_some] at hstep
      obtain ⟨halive, hstep⟩ := hstep
      obtain ⟨b, hb, rfl⟩ := Option.map_eq_some_iff.mp hstep
      split
      · next ht =>
        exact .createConnection (s.created_of_serverAlive halive) (handleStep_cases huv hs hb).2 ht
      · exact .refused
    | onClose c n =>
      simp only [Option.ite_none_right_eq_some] at hstep
      cases hstep.2
      exact .onClose
    | hold c =>
      simp only [Option.ite_none_right_eq_some] at hstep
      cases hstep.2
      exact .held
    | release c =>
      cases hstep
      exact .held
    | holdServer =>
      simp only [Option.ite_none_right_eq_some] at hstep
      cases hstep.2
      exact .serverHeld
    | releaseServer =>
      cases hstep
      exact .serverHeld
    | close t c =>
      simp only [Option.ite_none_right_eq_some] at hstep
      obtain ⟨halive, hstep⟩ := hstep
      cases hstep
      exact .close (s.created_of_alive halive)
    | closeServer t =>
      simp only [Option.ite_none_right_eq_some] at hstep
      obtain ⟨halive, hstep⟩ := hstep
      cases hstep
      exact .closeServer (s.created_of_serverAlive halive)
    | closed h =>
      simp only [Option.ite_none_left_eq_some] at hstep
      obtain ⟨b, hb, rfl⟩ := Option.map_eq_some_iff.mp hstep.2
      exact .closed (handleStep_cases huv hs hb).2
    | callback l =>
      obtain ⟨⟨c, i⟩, hstack, hstep⟩ := Option.bind_eq_some_iff.mp hstep
      obtain ⟨cb, hcb, rfl⟩ := Option.map_eq_some_iff.mp hstep
      exact .callback hstack hcb

/-! ### The invariant -/

/-- The close callbacks of the connection that were called, by their positions in its list. -/
def ServerSockets.ranOf (s : ServerSockets V) (c : Nat) : List (Nat × Nat) :=
  s.ran.filter fun x => x.1 = c

/-- The first `n` close callbacks of `c`, in the order of their registration. -/
def firstCallbacks (c n : Nat) : List (Nat × Nat) := (List.range n).map fun i => (c, i)

/-- What holds between two steps: a connection is in the list of its server until its lambda is called,
the lambda on the stack has called the callbacks before its position, and a lambda that has returned
has called all. -/
structure ServerSockets.Inv (inst : Option Nat → V) (s : ServerSockets V) : Prop where
  base : SocketsInv inst s.base
  unexpired : s.expired = false
  listed : ∀ c ∈ s.connections, some c ∈ s.base.created
  nodup : s.connections.Nodup
  ran : ∀ x ∈ s.ran, some x.1 ∈ s.base.created
  waiting : ∀ c, some c ∈ s.base.created → s.base.answers (some c) = 0 →
    c ∈ s.connections ∧ s.ranOf c = []
  stack : ∀ l c i, s.onStack l = some (c, i) → some c ∈ s.base.created ∧
    l = (s.base.handle (some c)).loop ∧ 0 < s.base.answers (some c) ∧
    i ≤ (s.connection c).closeCbs.length ∧ s.ranOf c = firstCallbacks c i
  done : ∀ c, some c ∈ s.base.created → 0 < s.base.answers (some c) → s.running c = false →
    s.ranOf c = firstCallbacks c (s.connection c).closeCbs.length

/-- The step does not close a socket again that is closing, calls the lambda of the server while a
reference to the server exists, registers no callback behind the calls of the callbacks, and no close
callback but the last one throws in it. -/
def ClosedOnce (s : ServerSockets V) : CloseLabel V → Prop
  | .core (.fire a) => a ∈ s.base.continuations none → s.serverAlive = true
  | .core (.ret l _) => ∀ x ∈ s.onStack l, (s.connection x.1).closeCbs.length ≤ x.2
  | .onClose c _ => s.base.answers (some c) = 0 ∨ s.running c = true
  | .close t c => OnlyOnce s.base t c
  | .closeServer t => ∀ c ∈ s.connections, OnlyOnce s.base t c
  | _ => True

/-! ### What the steps keep -/

/-- The lambda of a connection runs on the loop of its socket. -/
theorem ServerSockets.running_iff :
    s.running c = true ↔ ∃ i, s.onStack (s.base.handle (some c)).loop = some (c, i) := by
  rw [ServerSockets.running, Option.any_eq_true]
  constructor
  · rintro ⟨⟨c', i⟩, hstack, hc⟩
    obtain rfl : c' = c := of_decide_eq_true hc
    exact ⟨i, hstack⟩
  · rintro ⟨i, hstack⟩
    exact ⟨(c, i), hstack, decide_eq_true rfl⟩

/-- Whether it runs is up to the stacks and to the loop of its socket. -/
theorem ServerSockets.running_eq (hloop : (b.handle (some c)).loop = (s.base.handle (some c)).loop) :
    { s with base := b }.running c = s.running c := by
  rw [ServerSockets.running, hloop, ServerSockets.running]

/-- What a loop has on its stack says nothing about the connections of the other loops. -/
theorem ServerSockets.running_update {l : LoopId} {x : Option (Nat × Nat)}
    (hne : (s.base.handle (some c)).loop ≠ l) :
    { s with onStack := Function.update s.onStack l x }.running c = s.running c :=
  congrArg (Option.any _) (Function.update_of_ne hne ..)

/-- On the stack of its loop it runs. -/
theorem ServerSockets.running_self {l : LoopId} (hl : l = (s.base.handle (some c)).loop) (i : Nat) :
    { s with onStack := Function.update s.onStack l (some (c, i)) }.running c = true :=
  ServerSockets.running_iff.mpr ⟨i, hl ▸ Function.update_self ..⟩

/-- References to the server are taken and dropped. -/
theorem ServerSockets.Inv.references (hs : s.Inv inst) (serverInstance held : Bool) :
    { s with serverInstance := serverInstance, held := held }.Inv inst :=
  ⟨hs.base, hs.unexpired, hs.listed, hs.nodup, hs.ran, hs.waiting, hs.stack, hs.done⟩

/-- Steps of the sockets that call no lambda of a connection. -/
theorem ServerSockets.Inv.sockets (hs : s.Inv inst) (hb : SocketsInv inst b)
    (hsame : SameSockets s.base b) : { s with base := b }.Inv inst where
  base := hb
  unexpired := hs.unexpired
  listed c hc := hsame.created _ (hs.listed c hc)
  nodup := hs.nodup
  ran x hx := hsame.created _ (hs.ran x hx)
  waiting c hc hzero := hs.waiting c (hsame.old c hc) ((hsame.answers c).symm.trans hzero)
  stack l c i hstack := by
    obtain ⟨hc, hl, hpos, hrest⟩ := hs.stack l c i hstack
    exact ⟨hsame.created _ hc, hl.trans (hsame.loop _ hc).symm, (hsame.answers c).symm ▸ hpos, hrest⟩
  done c hc hpos hrunning := by
    have hold := hsame.old c hc
    rw [ServerSockets.running_eq (hsame.loop _ hold)] at hrunning
    exact hs.done c hold (hsame.answers c ▸ hpos) hrunning

/-- A lambda returns when its callbacks have been called. -/
theorem ServerSockets.Inv.popped (hs : s.Inv inst) (l : LoopId)
    (hdone : ∀ x ∈ s.onStack l, (s.connection x.1).closeCbs.length ≤ x.2) :
    { s with onStack := Function.update s.onStack l none }.Inv inst where
  base := hs.base
  unexpired := hs.unexpired
  listed := hs.listed
  nodup := hs.nodup
  ran := hs.ran
  waiting := hs.waiting
  stack l' c i hstack := by
    have hupdate : Function.update s.onStack l none l' = some (c, i) := hstack
    rw [Function.update_apply] at hupdate
    split at hupdate
    · cases hupdate
    · exact hs.stack l' c i hupdate
  done c hc hpos hrunning := by
    cases hold : s.running c with
    | false => exact hs.done c hc hpos hold
    | true =>
      obtain ⟨i, hstack⟩ := ServerSockets.running_iff.mp hold
      obtain ⟨-, -, -, hle, hran⟩ := hs.stack _ c i hstack
      rcases eq_or_ne (s.base.handle (some c)).loop l with hl | hne
      · have hge := hdone (c, i) (hl ▸ hstack)
        exact hran.trans (congrArg (firstCallbacks c) (Nat.le_antisymm hle hge))
      · rw [ServerSockets.running_update hne, hold] at hrunning
        cases hrunning

@[simp] theorem ServerSockets.setConnection_self (s : ServerSockets V) (c : Nat) (k : ServerConnection) :
    (s.setConnection c k).connection c = k := Function.update_self ..

/-- The other connections are as they were. -/
theorem ServerSockets.setConnection_of_ne {c' : Nat} (hne : c' ≠ c) (k : ServerConnection) :
    (s.setConnection c k).connection c' = s.connection c' := Function.update_of_ne hne ..

/-- Data of a connection changes, but for its close callbacks. -/
theorem ServerSockets.Inv.held_step (hs : s.Inv inst) (held : Bool) :
    (s.setConnection c { s.connection c with held := held }).Inv inst := by
  have hcbs : ∀ c', ((s.setConnection c { s.connection c with held := held }).connection c').closeCbs =
      (s.connection c').closeCbs := by
    intro c'
    rcases eq_or_ne c' c with rfl | hne
    · rw [s.setConnection_self]
    · rw [ServerSockets.setConnection_of_ne hne]
  refine ⟨hs.base, hs.unexpired, hs.listed, hs.nodup, hs.ran, hs.waiting, fun l c' i hstack => ?_,
    fun c' hc hpos hrunning => ?_⟩
  · rw [hcbs c']
    exact hs.stack l c' i hstack
  · rw [hcbs c']
    exact hs.done c' hc hpos hrunning

/-- A callback that is registered in time keeps the invariant. -/
theorem ServerSockets.Inv.onClose (hs : s.Inv inst) {n : Nat}
    (hok : s.base.answers (some c) = 0 ∨ s.running c = true) : (s.setConnection c { s.connection c with
      closeCbs := (s.connection c).closeCbs ++ [.user n] }).Inv inst := by
  refine ⟨hs.base, hs.unexpired, hs.listed, hs.nodup, hs.ran, hs.waiting, fun l c' i hstack => ?_,
    fun c' hc hpos hrunning => ?_⟩
  · obtain ⟨hc, hl, hpos, hle, hran⟩ := hs.stack l c' i hstack
    refine ⟨hc, hl, hpos, ?_, hran⟩
    rcases eq_or_ne c' c with rfl | hne
    · rw [s.setConnection_self, List.length_append]
      omega
    · rw [ServerSockets.setConnection_of_ne hne]
      exact hle
  · rcases eq_or_ne c' c with rfl | hne
    · rcases hok with hzero | hrunning'
      · exact absurd hzero (Nat.pos_iff_ne_zero.mp hpos)
      · exact absurd hrunning' (Bool.eq_false_iff.mp hrunning)
    · rw [ServerSockets.setConnection_of_ne hne]
      exact hs.done c' hc hpos hrunning

/-- A call is one of its connection. -/
theorem ServerSockets.ranOf_append (s : ServerSockets V) (c c' i : Nat) :
    ((s.ran ++ [(c, i)]).filter fun x => x.1 = c') =
      s.ranOf c' ++ if c = c' then [(c, i)] else [] := by
  rw [List.filter_append]
  refine congrArg _ ?_
  split <;> simp [*]

/-- One more callback is the next one of the list. -/
theorem firstCallbacks_succ (c n : Nat) : firstCallbacks c (n + 1) = firstCallbacks c n ++ [(c, n)] := by
  simp [firstCallbacks, List.range_succ]

/-- The lambda on the stack calls a callback, which removes the connection at most. -/
theorem ServerSockets.Inv.called (hs : s.Inv inst) {l : LoopId} {i : Nat}
    (hstack : s.onStack l = some (c, i)) (hi : i < (s.connection c).closeCbs.length) {cs : List Nat}
    (hsub : cs.Sublist s.connections) (hcs : ∀ c' ∈ s.connections, c' ≠ c → c' ∈ cs) :
    { s with
      onStack := Function.update s.onStack l (some (c, i + 1))
      ran := s.ran ++ [(c, i)]
      connections := cs }.Inv inst := by
  obtain ⟨hc, hl, hpos, -, hran⟩ := hs.stack l c i hstack
  -- Another connection is neither called nor removed.
  have hother : ∀ c', c' ≠ c → ((s.ran ++ [(c, i)]).filter fun x => x.1 = c') = s.ranOf c' := by
    intro c' hne
    rw [s.ranOf_append, if_neg hne.symm, List.append_nil]
  have hself : ((s.ran ++ [(c, i)]).filter fun x => x.1 = c) = firstCallbacks c (i + 1) := by
    rw [s.ranOf_append, if_pos rfl, firstCallbacks_succ, hran]
  refine ⟨hs.base, hs.unexpired, fun c' hc' => hs.listed c' (hsub.subset hc'), hs.nodup.sublist hsub,
    fun x hx => ?_, fun c' hc' hzero => ?_, fun l' c' i' hstack' => ?_, fun c' hc' hpos' hrunning => ?_⟩
  · rcases List.mem_append.mp hx with hx | hx
    · exact hs.ran x hx
    · cases List.mem_singleton.mp hx
      exact hc
  · obtain ⟨hmem, hnil⟩ := hs.waiting c' hc' hzero
    have hne : c' ≠ c := by
      rintro rfl
      exact absurd hzero (Nat.pos_iff_ne_zero.mp hpos)
    exact ⟨hcs c' hmem hne, (hother c' hne).trans hnil⟩
  · have hupdate : Function.update s.onStack l (some (c, i + 1)) l' = some (c', i') := hstack'
    rw [Function.update_apply] at hupdate
    split at hupdate
    · next heq =>
      cases hupdate
      exact ⟨hc, heq.trans hl, hpos, hi, hself⟩
    · next hne =>
      obtain ⟨hc', hl', hpos', hle, hran'⟩ := hs.stack l' c' i' hupdate
      have hcne : c' ≠ c := by
        rintro rfl
        exact hne (hl'.trans hl.symm)
      exact ⟨hc', hl', hpos', hle, (hother c' hcne).trans hran'⟩
  · have hcne : c' ≠ c := by
      rintro rfl
      exact Bool.eq_false_iff.mp hrunning (ServerSockets.running_self hl (i + 1))
    refine (hother c' hcne).trans (hs.done c' hc' hpos' (Bool.eq_false_iff.mpr fun hold => ?_))
    obtain ⟨i', hstack'⟩ := ServerSockets.running_iff.mp hold
    have hlne : (s.base.handle (some c')).loop ≠ l := by
      intro heq
      rw [heq, hstack] at hstack'
      cases hstack'
      exact hcne rfl
    exact Bool.eq_false_iff.mp hrunning ((ServerSockets.running_update hlne).trans hold)

/-- On its stack the lambda holds a reference to the connection, and by it one to the server. -/
theorem ServerSockets.Inv.alive (hs : s.Inv inst) {l : LoopId} {i : Nat}
    (hstack : s.onStack l = some (c, i)) : s.connectionAlive c = true ∧ s.serverAlive = true := by
  obtain ⟨hc, hl, -⟩ := hs.stack l c i hstack
  have hrunning : s.running c = true := ServerSockets.running_iff.mpr ⟨i, hl ▸ hstack⟩
  have halive : s.connectionAlive c = true := by
    simp [ServerSockets.connectionAlive, hc, hrunning]
  refine ⟨halive, ?_⟩
  have hany : (s.base.created.any fun h => h.any s.connectionAlive) = true :=
    List.any_eq_true.mpr ⟨some c, hc, halive⟩
  simp [ServerSockets.serverAlive, (hs.base.serverLoop c hc).1, hany]

/-- The call of a close callback keeps the invariant. -/
theorem ServerSockets.Inv.callback (hs : s.Inv inst) {l : LoopId} {i : Nat} {cb : CloseCb}
    (hstack : s.onStack l = some (c, i)) (hcb : (s.connection c).closeCbs[i]? = some cb) :
    (s.callback l c i cb).Inv inst := by
  have hi := (List.getElem?_eq_some_iff.mp hcb).1
  cases cb with
  | user n => exact hs.called hstack hi (.refl _) fun c' hc' _ => hc'
  | server =>
    obtain ⟨halive, hserver⟩ := hs.alive hstack
    rw [ServerSockets.callback, hserver, halive]
    refine hs.called hstack hi List.filter_sublist fun c' hc' hne => ?_
    exact List.mem_filter.mpr ⟨hc', decide_eq_true hne⟩

/-- A new connection. -/
theorem ServerSockets.Inv.createConnection (huv : uv.Ok) (habort : s.base.world.aborted = none)
    (hs : s.Inv inst) (hserver : none ∈ s.base.created) (hnew : some c ∉ s.base.created)
    (cbs : List CloseCb) :
    ({ s with
      base := s.base.made (some c) (s.base.handle none).loop
      connections := s.connections ++ [c] }.setConnection c { closeCbs := cbs }).Inv inst := by
  have hstep : HandleStep uv inst s.base (.create (Thread.ofLoop (s.base.handle none).loop) (some c)
      (s.base.handle none).loop) (s.base.made (some c) (s.base.handle none).loop) :=
    .create hnew (Thread.ofLoop_self _)
  have hold : ∀ c', some c' ∈ (s.base.made (some c) (s.base.handle none).loop).created →
      some c' ∈ s.base.created ∨ c' = c := fun c' hc' =>
    (List.mem_append.mp hc').imp_right fun heq => Option.some.inj (List.mem_singleton.mp heq)
  have hne : ∀ {c'}, some c' ∈ s.base.created → c' ≠ c := fun hc' heq => hnew (heq ▸ hc')
  have hanswers := hs.base.answers_same huv habort hstep nofun
  have hzero : s.base.answers (some c) = 0 := by
    have hle := hs.base.answers_le (some c)
    rw [hs.base.requests_eq_zero (by rw [hs.base.initial _ hnew])] at hle
    omega
  have hb : SocketsInv inst (s.base.made (some c) (s.base.handle none).loop) := by
    refine hs.base.step huv habort hstep nofun nofun fun c' hc' => ?_
    refine ⟨List.mem_append_left _ hserver, ?_⟩
    rw [(hstep.loop hserver).2]
    rcases hold c' hc' with hc' | rfl
    · rw [(hstep.loop hc').2, (hs.base.serverLoop c' hc').2]
    · simp [Handles.made, Handles.renew]
  have hmem : c ∉ s.connections := fun hc => hnew (hs.listed c hc)
  refine ⟨hb, hs.unexpired, fun c' hc' => ?_, ?_, fun x hx => List.mem_append_left _ (hs.ran x hx),
    fun c' hc' hzero' => ?_, fun l c' i hstack => ?_, fun c' hc' hpos hrunning => ?_⟩
  · rcases List.mem_append.mp hc' with hc' | hc'
    · exact List.mem_append_left _ (hs.listed c' hc')
    · cases List.mem_singleton.mp hc'
      exact List.mem_append_right _ (.head _)
  · exact hs.nodup.append (List.nodup_singleton _) (List.disjoint_singleton.mpr hmem)
  · rcases hold c' hc' with hc' | rfl
    · obtain ⟨hc', hnil⟩ := hs.waiting c' hc' ((hanswers _).symm.trans hzero')
      exact ⟨List.mem_append_left _ hc', hnil⟩
    · refine ⟨List.mem_append_right _ (.head _), List.filter_eq_nil_iff.mpr fun x hx heq => ?_⟩
      exact hnew (of_decide_eq_true heq ▸ hs.ran x hx)
  · obtain ⟨hc', hl, hpos, hrest⟩ := hs.stack l c' i hstack
    rw [ServerSockets.setConnection_of_ne (hne hc')]
    exact ⟨List.mem_append_left _ hc', hl.trans (hstep.loop hc').2.symm, (hanswers _).symm ▸ hpos, hrest⟩
  · rcases hold c' hc' with hc' | rfl
    · rw [ServerSockets.setConnection_of_ne (hne hc')]
      refine hs.done c' hc' (hanswers _ ▸ hpos) ?_
      rw [← ServerSockets.running_eq (hstep.loop hc').2]
      exact hrunning
    · have hpos' : 0 < s.base.answers (some c') := hanswers _ ▸ hpos
      omega

/-- The lambda of a connection is called, which holds it from here on. -/
theorem ServerSockets.Inv.entered (hs : s.Inv inst) {w : World V}
    (hb : SocketsInv inst { s.base with world := w })
    (hanswers : ∀ c', { s.base with world := w }.answers (some c') =
      s.base.answers (some c') + if c = c' then 1 else 0)
    (hc : some c ∈ s.base.created) (hnil : s.ranOf c = [])
    (hstack : s.onStack (s.base.handle (some c)).loop = none) :
    { s with
      base := { s.base with world := w }
      onStack := Function.update s.onStack (s.base.handle (some c)).loop (some (c, 0)) }.Inv inst := by
  refine ⟨hb, hs.unexpired, hs.listed, hs.nodup, hs.ran, fun c' hc' hzero => ?_,
    fun l c' i hstack' => ?_, fun c' hc' hpos hrunning => ?_⟩
  · have hsum := (hanswers c').symm.trans hzero
    exact hs.waiting c' hc' (Nat.add_eq_zero_iff.mp hsum).1
  · have hupdate : Function.update s.onStack _ (some (c, 0)) l = some (c', i) := hstack'
    rw [Function.update_apply] at hupdate
    split at hupdate
    · next heq =>
      cases hupdate
      exact ⟨hc, heq, by rw [hanswers, if_pos rfl]; omega, Nat.zero_le _, hnil⟩
    · obtain ⟨hc', hl, hpos, hrest⟩ := hs.stack l c' i hupdate
      exact ⟨hc', hl, by rw [hanswers]; omega, hrest⟩
  · have hne : c ≠ c' := by
      rintro rfl
      exact Bool.eq_false_iff.mp hrunning (ServerSockets.running_self rfl 0)
    have hpos' := hanswers c'
    rw [if_neg hne, Nat.add_zero] at hpos'
    refine hs.done c' hc' (hpos' ▸ hpos) (Bool.eq_false_iff.mpr fun hold => ?_)
    obtain ⟨i, hstack'⟩ := ServerSockets.running_iff.mp hold
    have hlne : (s.base.handle (some c')).loop ≠ (s.base.handle (some c)).loop := by
      intro heq
      rw [heq, hstack] at hstack'
      cases hstack'
    exact Bool.eq_false_iff.mp hrunning ((ServerSockets.running_update hlne).trans hold)

/-- The core takes a step. -/
theorem ServerSockets.Inv.core (huv : uv.Ok) (habort : s.base.world.aborted = none) (hs : s.Inv inst)
    {lab : Label V} (hblocks : s.blocks lab = false) (hbase : HandleStep uv inst s.base (.core lab) b)
    (hok : ClosedOnce s (.core lab)) :
    ({ s with base := b, onStack := s.popped lab }.answer (s.base.answered lab b.world)).Inv inst := by
  have hb := hs.base.step_created huv habort hbase nofun nofun nofun
  cases hbase with
  | @core _ w hprivate hcore =>
    have hanswers := hs.base.answers_core huv hcore
    have hsame : (∀ c, s.base.answered lab w ≠ some (some c)) →
        SameSockets s.base { s.base with world := w } := fun hnot =>
      ⟨fun _ hh => hh, fun _ hc => hc, fun _ _ => rfl, fun c => by rw [hanswers, if_neg (hnot c)]; rfl⟩
    dsimp only
    cases hanswered : s.base.answered lab w with
    | none =>
      have hs₁ := hs.sockets hb (hsame fun c => by rw [hanswered]; nofun)
      cases lab with
      | ret l r => exact hs₁.popped l hok
      | _ => exact hs₁
    | some h =>
      obtain ⟨a, ha, rfl⟩ := (hs.base.answered_iff hcore).mp hanswered
      cases h with
      | none =>
        have hs₁ := hs.sockets hb (hsame fun c => by rw [hanswered]; nofun)
        have halive : { s with base := { s.base with world := w } }.serverAlive = true := hok ha
        show (if { s with base := { s.base with world := w } }.serverAlive then _ else _ :
          ServerSockets V).Inv inst
        rw [if_pos halive]
        exact hs₁.references false s.held
      | some c =>
        -- No other lambda of the connection was called, since one was chained in time only.
        have hzero : s.base.answers (some c) = 0 := by
          have hle := Nat.le_trans (hb.answers_le (some c)) (hb.once c)
          rw [hanswers, if_pos hanswered] at hle
          omega
        obtain ⟨f, hthen, -⟩ := Handles.mem_continuations.mp ha
        have hc := hs.base.returned _ f (hs.base.thens _ f a hthen).1
        obtain ⟨hmem, hnil⟩ := hs.waiting c hc hzero
        have halive : { s with base := { s.base with world := w } }.connectionAlive c = true := by
          simp [ServerSockets.connectionAlive, hc, hmem]
        have hstack : s.onStack (s.base.handle (some c)).loop = none := by
          rw [← hs.base.loop _ f a hthen]
          simpa [ServerSockets.blocks] using hblocks
        show (if { s with base := { s.base with world := w } }.connectionAlive c then _ else _ :
          ServerSockets V).Inv inst
        rw [if_pos halive]
        refine hs.entered hb (fun c' => ?_) hc hnil hstack
        rw [hanswers, hanswered]
        simp

/-- Every step that closes no socket again keeps the invariant. -/
theorem ServerSockets.Inv.step (huv : uv.Ok) (habort : s.base.world.aborted = none) (hs : s.Inv inst)
    {lab : CloseLabel V} (hok : ClosedOnce s lab) (hstep : CloseStep uv inst s lab s') :
    s'.Inv inst := by
  cases hstep with
  | core hblocks hbase => exact hs.core huv habort hblocks hbase hok
  | refused => exact hs
  | @create t l b hbase ht =>
    obtain ⟨hnew, rfl⟩ := hbase.create_eq ht
    have hold : ∀ c, some c ∈ (s.base.made none l).created → some c ∈ s.base.created := fun c hc =>
      (List.mem_append.mp hc).resolve_right fun heq => nomatch List.mem_singleton.mp heq
    have hb := hs.base.step huv habort hbase nofun nofun fun c hc =>
      absurd (hs.base.serverLoop c (hold c hc)).1 hnew
    exact (hs.sockets hb (hs.base.same huv habort hbase nofun hold)).references true true
  | createConnection hserver hbase ht =>
    obtain ⟨hnew, rfl⟩ := hbase.create_eq ht
    exact hs.createConnection huv habort hserver hnew _
  | onClose => exact hs.onClose hok
  | held => exact hs.held_step _
  | serverHeld => exact hs.references s.serverInstance _
  | @close t c hc =>
    obtain ⟨-, hb, hsame⟩ := hs.base.closeThen huv habort (Handle.closeThen_step huv hc t .void)
      fun c' heq => Option.some.inj heq ▸ hok
    exact hs.sockets hb hsame
  | @closeServer t hserver =>
    cases ht : t (s.base.handle none).loop with
    | true =>
      obtain ⟨hb, hsame⟩ := hs.base.closeServer huv hs.nodup habort hs.listed hserver ht hok
      exact hs.sockets hb hsame
    | false =>
      rw [Server.close_thread hs.base hs.listed ht]
      exact hs
  | closed hbase =>
    have hb := hs.base.step_created huv habort hbase nofun nofun nofun
    exact hs.sockets hb (hs.base.same huv habort hbase nofun fun c hc => hbase.created_eq nofun ▸ hc)
  | callback hstack hcb => exact hs.callback hstack hcb

/-- It holds before the first server. -/
theorem ServerSockets.Inv.start : ({} : ServerSockets V).Inv inst where
  base :=
    { toContinued := Handles.Continued.start
      requested := fun _ hclosing => nomatch hclosing
      once := fun _ => Nat.zero_le 1
      serverLoop := fun _ hc => nomatch hc }
  unexpired := rfl
  listed _ hc := nomatch hc
  nodup := List.nodup_nil
  ran _ hx := nomatch hx
  waiting _ hc := nomatch hc
  stack _ _ _ hstack := nomatch hstack
  done _ hc := nomatch hc

/-- The close callbacks of a connection are called in the order of their registration, each of them once
at most. -/
theorem ServerSockets.Inv.called_once (hs : s.Inv inst) (c : Nat) :
    ∃ n ≤ (s.connection c).closeCbs.length, s.ranOf c = firstCallbacks c n := by
  by_cases hc : some c ∈ s.base.created
  · rcases Nat.eq_zero_or_pos (s.base.answers (some c)) with hzero | hpos
    · exact ⟨0, Nat.zero_le _, (hs.waiting c hc hzero).2⟩
    · cases hrunning : s.running c with
      | false => exact ⟨_, Nat.le_refl _, hs.done c hc hpos hrunning⟩
      | true =>
        obtain ⟨i, hstack⟩ := ServerSockets.running_iff.mp hrunning
        obtain ⟨-, -, -, hle, hran⟩ := hs.stack _ c i hstack
        exact ⟨i, hle, hran⟩
  · refine ⟨0, Nat.zero_le _, List.filter_eq_nil_iff.mpr fun x hx heq => hc ?_⟩
    exact of_decide_eq_true heq ▸ hs.ran x hx

/-- Source: `ServerConnection.cpp:61-70`, `Server.cpp:191-202` and `:247-261`. In a run in which no
socket is closed again while it is closing, and the callbacks do not throw, no expired reference is
dereferenced and no close callback is called twice. When a connection is closed, no async handle is in
flight and its lambda is not on the stack, all of its close callbacks have been called. -/
theorem close_idempotent (huv : uv.Ok) {ls : List (CloseLabel V)}
    (hrun : run (closeStep uv inst) {} ls = some s) (hok : Along (closeStep uv inst) ClosedOnce {} ls) :
    s.expired = false ∧
      (∀ c, ∃ n ≤ (s.connection c).closeCbs.length, s.ranOf c = firstCallbacks c n) ∧
      ∀ c, (s.base.handle (some c)).closed = true → s.base.world.pending = [] → s.running c = false →
        s.ranOf c = firstCallbacks c (s.connection c).closeCbs.length := by
  have hs : s.Inv inst := by
    refine run_invariant_along (fun s lab s' hok hs hstep => ?_) hok ServerSockets.Inv.start hrun
    obtain ⟨habort, hcase⟩ := closeStep_cases huv hs.base.toInv hstep
    exact hs.step huv habort hok hcase
  refine ⟨hs.unexpired, hs.called_once, fun c hclosed hpending hrunning => ?_⟩
  have hc := hs.base.created_of_closed hclosed
  have hpos : 0 < s.base.answers (some c) := by
    rw [hs.base.answers_eq hclosed hpending]
    exact hs.base.requested _ ((hs.base.handle _ hc).closing hclosed)
  exact hs.done c hc hpos hrunning

end

instance (b : Handles (Option Nat) V) (t : Thread) (c : Nat) : Decidable (OnlyOnce b t c) :=
  inferInstanceAs (Decidable (_ → _ → _))

instance (s : ServerSockets V) : ∀ lab, Decidable (ClosedOnce s lab)
  | .core (.fire a) => inferInstanceAs (Decidable (a ∈ s.base.continuations none → s.serverAlive = true))
  | .core (.ret l _) => inferInstanceAs
      (Decidable (∀ x ∈ s.onStack l, (s.connection x.1).closeCbs.length ≤ x.2))
  | .onClose c _ => inferInstanceAs (Decidable (s.base.answers (some c) = 0 ∨ s.running c = true))
  | .close t c => inferInstanceAs (Decidable (OnlyOnce s.base t c))
  | .closeServer t => inferInstanceAs (Decidable (∀ c ∈ s.connections, OnlyOnce s.base t c))
  | .core (.promise ..) | .core (.resolve ..) | .core (.reject ..) | .core (.thenCb ..)
  | .core (.errorCb ..) | .core (.finallyCb ..) | .core (.async ..) | .core (.close _) | .create ..
  | .createConnection .. | .hold _ | .release _ | .holdServer | .releaseServer | .closed _
  | .callback _ => .isTrue trivial

/-- A peer resets its connection to a server on loop 0; then `requests` follow, libuv closes the socket
of the connection, and its lambda calls the callback of the server. -/
def resetConnection (requests : List (CloseLabel Nat)) : List (CloseLabel Nat) :=
  [.create (Thread.ofLoop 0) 0, .createConnection (Thread.ofLoop 0) 0 [], .close (Thread.ofLoop 0) 0] ++
    requests ++ [.closed (some 0), .core (.fire (.user 3)), .callback 0, .core (.ret 0 (.value none))]

/-- A connection that is reset is closed once, and its callback is called once. -/
theorem close_idempotent_reset : ∃ s, run (closeStep {} fun _ => 0) {} (resetConnection []) = some s ∧
    s.expired = false ∧ s.ranOf 0 = [(0, 0)] := by
  have hend : (run (closeStep {} fun _ => 0) {} (resetConnection [])).map (fun s =>
      ((s.base.handle (some 0)).closed, s.base.world.pending, s.running 0,
        (s.connection 0).closeCbs.length)) = some (true, [], false, 1) := by
    decide +kernel
  obtain ⟨s, hrun, hs⟩ := Option.map_eq_some_iff.mp hend
  simp only [Prod.mk.injEq] at hs
  obtain ⟨hclosed, hpending, hrunning, hlength⟩ := hs
  have hok : Along (closeStep {} fun _ => 0) ClosedOnce {} (resetConnection []) := by decide +kernel
  have honce := close_idempotent (fun _ => ⟨rfl, rfl⟩) hrun hok
  refine ⟨s, hrun, honce.1, ?_⟩
  rw [honce.2.2 0 hclosed hpending hrunning, hlength]
  rfl

/-- `Server::close` closes the connection again while it is closing. The second lambda finds it gone. -/
theorem close_expired : ∃ s, run (closeStep {} fun _ => 0) {}
    (resetConnection [.closeServer (Thread.ofLoop 0)] ++ [.core (.fire (.user 4))]) = some s ∧
      s.expired = true := by
  have hend : (run (closeStep {} fun _ => 0) {}
      (resetConnection [.closeServer (Thread.ofLoop 0)] ++ [.core (.fire (.user 4))])).map
      ServerSockets.expired = some true := by
    decide +kernel
  obtain ⟨s, hrun, hs⟩ := Option.map_eq_some_iff.mp hend
  exact ⟨s, hrun, hs⟩

end

end NodeNative.Http
