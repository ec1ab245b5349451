import NodeNative.Http.Serving

/-!
# Connections agree with their sockets

`Serving.Agrees` says what the connections and their sockets have in common along a run that closes no
socket again: the flag `closed` of a connection says that its socket is closing, the list of a server is
the same in both, and a connection that has left it is in no timeout list. What a step of the sockets
does to these three is said first (`closeStep_isClosing_iff`, `closeStep_created_iff`,
`closeStep_connections`).
-/

namespace NodeNative.Http

open Transition
open Base

/-! ### What a step of the sockets does -/

section
variable {V : Type} {uv : UvAsync} {inst : Option Nat → V} {k k' : ServerSockets V}
  {b b' : Handles (Option Nat) V} {t : Thread} {c : Nat}

/-- The step asks the socket of the connection to close: `close()` is called on it, or `Server::close`
while it is in the list of its server, on the thread of its loop. -/
def ServerSockets.Requests (k : ServerSockets V) (c : Nat) : CloseLabel V → Prop
  | .close t c' => c' = c ∧ t (k.base.handle (some c)).loop = true
  | .closeServer t => c ∈ k.connections ∧ t (k.base.handle none).loop = true
  | _ => False

/-- The lambda that a step of the core calls does nothing to the sockets, -/
@[simp] theorem ServerSockets.answer_base (k : ServerSockets V) (h : Option (Option Nat)) :
    (k.answer h).base = k.base := by
  unfold ServerSockets.answer
  split
  · rfl
  · split <;> rfl
  · split <;> rfl

/-- and neither does a callback. -/
@[simp] theorem ServerSockets.callback_base (k : ServerSockets V) (l : LoopId) (c i : Nat)
    (cb : CloseCb) : (k.callback l c i cb).base = k.base := by
  unfold ServerSockets.callback
  split
  · rfl
  · split <;> rfl

/-- The sockets that `Server::close` has asked to close. -/
theorem closeEach_isClosing (huv : uv.Ok) {cs : List Nat}
    (ht : ∀ c ∈ cs, t (b.handle (some c)).loop = true)
    (hrun : (cs.forM fun c => ServerConnection.close uv t c).run b = .ok () b') (h : Option Nat) :
    (b'.handle h).isClosing = true ↔ (b.handle h).isClosing = true ∨ ∃ c ∈ cs, some c = h := by
  induction cs generalizing b with
  | nil =>
    cases hrun
    simp
  | cons c cs ih =>
    have hloop (h : Option Nat) :
        (((b.asked (some c)).chained t (some c) .void).handle h).loop = (b.handle h).loop := by
      rcases eq_or_ne h (some c) with rfl | hne
      · exact b.requested_loop _
      · exact congrArg Handle.loop (Handles.requested_handle_of_ne hne)
    rw [List.forM, EStateM.run_bind, ServerConnection.close,
      Handle.closeThen_run huv (ht c (.head _))] at hrun
    rw [ih (fun c' hc' => (hloop _).symm ▸ ht c' (.tail _ hc')) hrun]
    show ((b.asked (some c)).handle h).isClosing = true ∨ _ ↔ _
    rw [b.asked_isClosing]
    simp [or_assoc]

/-- A call of `close` asks its socket to close when it is on the thread of the loop. -/
theorem closeStep_close_isClosing (huv : uv.Ok) (hstep : closeStep uv inst k (.close t c) = some k')
    (c' : Nat) : (k'.base.handle (some c')).isClosing = true ↔
      (k.base.handle (some c')).isClosing = true ∨ k.Requests c' (.close t c) := by
  unfold closeStep at hstep
  simp only [Option.ite_none_left_eq_some, Option.ite_none_right_eq_some] at hstep
  obtain ⟨-, -, hstep⟩ := hstep
  cases hstep
  rw [Handles.call, ServerConnection.close]
  cases ht : t (k.base.handle (some c)).loop with
  | true =>
    rw [Handle.closeThen_run huv ht]
    show ((k.base.asked (some c)).handle (some c')).isClosing = true ↔ _
    rw [k.base.asked_isClosing]
    refine or_congr_right ⟨fun heq => ?_, fun hrequests => congrArg some hrequests.1⟩
    cases heq
    exact ⟨rfl, ht⟩
  | false =>
    rw [Handle.closeThen, EStateM.run_bind, Handle.close_run_thread ht]
    refine (or_iff_left ?_).symm
    rintro ⟨rfl, ht'⟩
    rw [ht] at ht'
    cases ht'

/-- `Server::close` asks the sockets of its connections to close. -/
theorem closeStep_closeServer_isClosing (huv : uv.Ok) (hs : k.Inv inst)
    (hok : ClosedOnce k (.closeServer t)) (hstep : closeStep uv inst k (.closeServer t) = some k')
    (c : Nat) : (k'.base.handle (some c)).isClosing = true ↔
      (k.base.handle (some c)).isClosing = true ∨ k.Requests c (.closeServer t) := by
  unfold closeStep at hstep
  simp only [Option.ite_none_left_eq_some, Option.ite_none_right_eq_some] at hstep
  obtain ⟨hgo, halive, hstep⟩ := hstep
  cases hstep
  have hserver := k.created_of_serverAlive halive
  have habort : k.base.world.aborted = none := by
    simp only [Bool.or_eq_true, not_or, Option.not_isSome_iff_eq_none] at hgo
    exact hgo.1
  cases ht : t (k.base.handle none).loop with
  | true =>
    obtain ⟨b₁, hrun, -, -, hsame⟩ := hs.base.closeEach huv hs.nodup habort hs.listed ht hok
    have ht₁ : t (b₁.handle none).loop = true := (hsame.loop none hserver).symm ▸ ht
    have hcall : k.base.call (Server.close uv t k.connections) =
        (b₁.asked none).chained t none .value := by
      rw [Handles.call, Server.close, EStateM.run_bind, hrun]
      dsimp only
      rw [Handle.closeThen_run huv ht₁]
    have hthreads : ∀ c ∈ k.connections, t (k.base.handle (some c)).loop = true := fun c hc =>
      (hs.base.serverLoop c (hs.listed c hc)).2 ▸ ht
    show ((k.base.call (Server.close uv t k.connections)).handle (some c)).isClosing = true ↔ _
    rw [hcall]
    show ((b₁.asked none).handle (some c)).isClosing = true ↔ _
    rw [b₁.asked_isClosing, closeEach_isClosing huv hthreads hrun]
    simp [ServerSockets.Requests, ht]
  | false =>
    show ((k.base.call (Server.close uv t k.connections)).handle (some c)).isClosing = true ↔ _
    rw [Server.close_thread hs.base hs.listed ht]
    simp [ServerSockets.Requests, ht]

/-- After a step a socket is closing if it was before, or if the step asks it to close. -/
theorem closeStep_isClosing_iff (huv : uv.Ok) (hs : k.Inv inst) {lab : CloseLabel V}
    (hok : ClosedOnce k lab) (hstep : closeStep uv inst k lab = some k')
    (hc : some c ∈ k.base.created) : (k'.base.handle (some c)).isClosing = true ↔
      (k.base.handle (some c)).isClosing = true ∨ k.Requests c lab := by
  by_cases hclose : ∃ t c', lab = .close t c'
  · obtain ⟨t, c', rfl⟩ := hclose
    exact closeStep_close_isClosing huv hstep c
  by_cases hcloseServer : ∃ t, lab = .closeServer t
  · obtain ⟨t, rfl⟩ := hcloseServer
    exact closeStep_closeServer_isClosing huv hs hok hstep c
  have hnot : ¬ k.Requests c lab := by
    cases lab with
    | close t c' => exact absurd ⟨t, c', rfl⟩ hclose
    | closeServer t => exact absurd ⟨t, rfl⟩ hcloseServer
    | _ => exact id
  rw [or_iff_left hnot]
  have hhandle (hsame : (k'.base.handle (some c)).isClosing = (k.base.handle (some c)).isClosing) :
      (k'.base.handle (some c)).isClosing = true ↔ (k.base.handle (some c)).isClosing = true := by
    rw [hsame]
  obtain ⟨-, hcase⟩ := closeStep_cases huv hs.base.toInv hstep
  cases hcase with
  | close => exact absurd ⟨_, _, rfl⟩ hclose
  | closeServer => exact absurd ⟨_, rfl⟩ hcloseServer
  | refused | onClose | held | serverHeld => exact .rfl
  | callback =>
    refine hhandle ?_
    rw [ServerSockets.callback_base]
  | @core lab b hblocks hbase =>
    refine hhandle ?_
    rw [ServerSockets.answer_base]
    cases hbase with
    | core => rfl
  | create hbase ht | createConnection hserver hbase ht =>
    obtain ⟨hnew, rfl⟩ := hbase.create_eq ht
    have hne := ne_of_mem_of_not_mem hc hnew
    exact hhandle (congrArg Handle.isClosing (Handles.made_handle_of_ne hne))
  | @closed h b hbase =>
    refine hhandle ?_
    cases hbase with
    | closed _ hclosing =>
      rcases eq_or_ne (some c) h with rfl | hne
      · simp [Handles.ended, Handles.renew]
      · exact congrArg Handle.isClosing (Handles.ended_handle_of_ne hne)

/-- The sockets of the connections that exist: only `createConnection` makes one. -/
theorem closeStep_created_iff (huv : uv.Ok) (hs : k.Inv inst) {lab : CloseLabel V}
    (hok : ClosedOnce k lab) (hlab : ∀ t c cbs, lab ≠ .createConnection t c cbs)
    (hstep : closeStep uv inst k lab = some k') (c : Nat) :
    some c ∈ k'.base.created ↔ some c ∈ k.base.created := by
  obtain ⟨habort, hcase⟩ := closeStep_cases huv hs.base.toInv hstep
  cases hcase with
  | refused | onClose | held | serverHeld => exact .rfl
  | @callback l c' i cb hstack hcb =>
    rw [ServerSockets.callback_base]
  | core hblocks hbase =>
    rw [ServerSockets.answer_base]
    rw [hbase.created_eq (by simp)]
  | create hbase ht =>
    obtain ⟨hnew, rfl⟩ := hbase.create_eq ht
    simp [Handles.made, Handles.renew]
  | createConnection => exact absurd rfl (hlab _ _ _)
  | @close t c' hc =>
    have hbase : HandleStep uv inst k.base (.closeThen t (some c') .void) _ :=
      Handle.closeThen_step huv hc t .void
    exact iff_of_eq (congrArg (some c ∈ ·) (hbase.created_eq (by simp)))
  | @closeServer t hserver =>
    cases ht : t (k.base.handle none).loop with
    | true =>
      obtain ⟨-, hsame⟩ := hs.base.closeServer huv hs.nodup habort hs.listed hserver ht hok
      exact ⟨hsame.old c, hsame.created (some c)⟩
    | false =>
      rw [Server.close_thread hs.base hs.listed ht]
  | closed hbase =>
    show some c ∈ Handles.created _ ↔ _
    rw [hbase.created_eq (by simp)]

/-- The list of the server changes by `createConnection` and by the callback of the server. -/
theorem closeStep_connections (huv : uv.Ok) (hs : k.Inv inst) {lab : CloseLabel V}
    (hlab : ∀ t c cbs, lab ≠ .createConnection t c cbs) (hcallback : ∀ l, lab ≠ .callback l)
    (hstep : closeStep uv inst k lab = some k') : k'.connections = k.connections := by
  obtain ⟨-, hcase⟩ := closeStep_cases huv hs.base.toInv hstep
  cases hcase with
  | refused | onClose | held | serverHeld | create | close | closeServer | closed => rfl
  | callback => exact absurd rfl (hcallback _)
  | createConnection => exact absurd rfl (hlab _ _ _)
  | core =>
    unfold ServerSockets.answer
    split
    · rfl
    · split <;> rfl
    · split <;> rfl

/-- A callback removes its connection if it is that of the server, and dereferences no expired
reference. -/
theorem closeStep_callback (hs : k.Inv inst) {l : LoopId}
    (hstep : closeStep uv inst k (.callback l) = some k') : k'.expired = false ∧
      k'.connections = (k.next l).elim k.connections fun c => k.connections.filter (· ≠ c) := by
  unfold closeStep at hstep
  simp only [Option.ite_none_left_eq_some] at hstep
  obtain ⟨-, hstep⟩ := hstep
  obtain ⟨⟨c, i⟩, hstack, hstep⟩ := Option.bind_eq_some_iff.mp hstep
  obtain ⟨cb, hcb, rfl⟩ := Option.map_eq_some_iff.mp hstep
  refine ⟨(hs.callback hstack hcb).unexpired, ?_⟩
  unfold ServerSockets.next
  rw [hstack]
  dsimp only [Option.bind_some]
  rw [hcb]
  cases cb with
  | user n => rfl
  | server =>
    obtain ⟨halive, hserver⟩ := hs.alive hstack
    rw [ServerSockets.callback, hserver, halive]
    rfl

/-- A new connection, on the thread of the loop. -/
theorem closeStep_createConnection (huv : uv.Ok) (hs : k.Inv inst) {cbs : List Nat}
    (hstep : closeStep uv inst k
      (.createConnection (Thread.ofLoop (k.base.handle none).loop) c cbs) = some k') :
    some c ∉ k.base.created ∧ k'.base = k.base.made (some c) (k.base.handle none).loop ∧
      k'.connections = k.connections ++ [c] := by
  unfold closeStep at hstep
  simp only [Option.ite_none_left_eq_some, Option.ite_none_right_eq_some, Thread.ofLoop_self,
    if_true] at hstep
  obtain ⟨-, -, hstep⟩ := hstep
  obtain ⟨b, hb, rfl⟩ := Option.map_eq_some_iff.mp hstep
  obtain ⟨hnew, rfl⟩ := (handleStep_cases huv hs.base.toInv hb).2.create_eq (Thread.ofLoop_self _)
  exact ⟨hnew, rfl, rfl⟩

end

section
variable {P : HttpParser} {V : Type} {env : Nat → Env} {uv : UvAsync} {inst : Option Nat → V}
  {s s' : Serving P V} {c : Nat}

/-! ### The two parts agree -/

/-- No step closes a socket again that is closing, and the other conditions of `ClosedOnce` hold of the
steps of the sockets. -/
def Serving.ClosesOnce (env : Nat → Env) (s : Serving P V) : ServingLabel V → Prop
  | .connection c lab => (s.servers.connection c).Closes (env c) lab →
      OnlyOnce (s.socketsOf c).base (Thread.ofLoop ((s.socketsOf c).base.handle (some c)).loop) c
  | .sockets server lab => ClosedOnce (s.sockets server) lab
  | _ => True

instance (env : Nat → Env) (s : Serving P V) : ∀ lab, Decidable (s.ClosesOnce env lab)
  | .connection _ _ => inferInstanceAs (Decidable (_ → OnlyOnce _ _ _))
  | .sockets server lab => inferInstanceAs (Decidable (ClosedOnce (s.sockets server) lab))
  | .createConnection .. | .timeouts _ | .destroy _ => .isTrue trivial

/-- What holds of the connections and of their sockets: the connections are those whose sockets are on
their server, their flag says that the socket is closing, the lists of the servers are the same, and a
connection that no server has is in no timeout list. -/
structure Serving.Agrees (inst : Option Nat → V) (s : Serving P V) : Prop where
  inv : ∀ server, (s.sockets server).Inv inst
  owned : ∀ server, (s.sockets server).Owned
  created : ∀ server c, some c ∈ (s.sockets server).base.created ↔
    c ∈ s.servers.created ∧ s.servers.timeouts.server c = server
  closed : ∀ c ∈ s.servers.created,
    (s.servers.connection c).closed = ((s.socketsOf c).base.handle (some c)).isClosing
  connections : ∀ server, s.servers.connections server = (s.sockets server).connections
  entries : ∀ c ∈ s.servers.created, (∀ server, c ∉ s.servers.connections server) →
    s.servers.timeouts.entries c = []

/-- Before the first server. -/
theorem Serving.agrees_start (env : Nat → Env) (servers : Nat → Server) (server : Nat → Nat)
    (now : LoopId → Nat) :
    (Serving.start env servers server now : Serving P V).Agrees inst where
  inv _ := ServerSockets.Inv.start
  owned _ := ServerSockets.Owned.start
  created _ _ := iff_of_false (fun hc => nomatch hc) fun hc => nomatch hc.1
  closed _ hc := nomatch hc
  connections _ := rfl
  entries _ hc := nomatch hc

/-- A step of one server's sockets keeps what holds of them. -/
theorem Serving.Agrees.setSockets (hs : s.Agrees inst) (huv : uv.Ok) {server : Nat}
    {lab : CloseLabel V} {k : ServerSockets V} (hok : ClosedOnce (s.sockets server) lab)
    (hstep : closeStep uv inst (s.sockets server) lab = some k) (server' : Nat) :
    (s.setSockets server k server').Inv inst ∧ (s.setSockets server k server').Owned := by
  rcases eq_or_ne server' server with rfl | hne
  · rw [s.setSockets_self]
    have hinv := hs.inv server'
    obtain ⟨habort, hcase⟩ := closeStep_cases huv hinv.base.toInv hstep
    exact ⟨hinv.step huv habort hok hcase, (hs.owned server').step huv habort hinv hok hcase⟩
  · rw [s.setSockets_of_ne hne]
    exact ⟨hs.inv server', hs.owned server'⟩

/-- A step of the sockets does what it does to the connections and, when it calls the callback of the
server, removes its connection. -/
theorem Serving.Agrees.follow_eq (hs : s.Agrees inst) {server : Nat} {lab : CloseLabel V}
    {k : ServerSockets V} (hstep : closeStep uv inst (s.sockets server) lab = some k) :
    (∀ l, lab ≠ .callback l) ∧ s.follow server k lab = s.closing server k ∨
      ∃ l, lab = .callback l ∧ s.follow server k lab =
        ((s.sockets server).next l).elim (s.closing server k) (s.closing server k).onClose := by
  by_cases hcallback : ∃ l, lab = .callback l
  · obtain ⟨l, rfl⟩ := hcallback
    refine .inr ⟨l, rfl, ?_⟩
    have hexpired := (closeStep_callback (hs.inv server) hstep).1
    unfold Serving.follow
    dsimp only
    cases (s.sockets server).next l with
    | none => rfl
    | some c => simp [hexpired]
  · refine .inl ⟨fun l hl => hcallback ⟨l, hl⟩, ?_⟩
    cases lab with
    | callback l => exact absurd ⟨l, rfl⟩ hcallback
    | _ => rfl

/-- The connection whose callback of the server is called is one of its connections. -/
theorem Serving.Agrees.next_created (hs : s.Agrees inst) {server : Nat} {l : LoopId}
    (hnext : (s.sockets server).next l = some c) :
    c ∈ s.servers.created ∧ s.servers.timeouts.server c = server := by
  obtain ⟨⟨c', i⟩, hstack, hc'⟩ := Option.bind_eq_some_iff.mp hnext
  simp only [Option.ite_none_right_eq_some, Option.some.injEq] at hc'
  obtain ⟨-, rfl⟩ := hc'
  exact (hs.created server c').mp ((hs.inv server).stack l c' i hstack).1

/-- What the connections are after a step of the sockets. -/
theorem Serving.follow_rest (s : Serving P V) (server : Nat) (k : ServerSockets V)
    (lab : CloseLabel V) : (s.follow server k lab).created = s.servers.created ∧
      (s.follow server k lab).timeouts.server = s.servers.timeouts.server ∧
      (s.follow server k lab).connection = (s.closing server k).connection := by
  unfold Serving.follow
  split
  · split
    · split <;> exact ⟨rfl, rfl, rfl⟩
    · exact ⟨rfl, rfl, rfl⟩
  · exact ⟨rfl, rfl, rfl⟩

/-- The flag of a connection after a step of the sockets. -/
theorem Serving.follow_closed (s : Serving P V) (server : Nat) (k : ServerSockets V)
    (lab : CloseLabel V) (c : Nat) : ((s.follow server k lab).connection c).closed = true ↔
      (s.servers.connection c).closed = true ∨
        s.servers.timeouts.server c = server ∧ (k.base.handle (some c)).isClosing = true := by
  rw [(s.follow_rest server k lab).2.2, Serving.closing]
  dsimp only
  split
  · next hclosing => exact iff_of_true rfl (.inr hclosing)
  · next hopen => exact (or_iff_left hopen).symm

/-- The lists of the servers after a step of the sockets. -/
theorem Serving.Agrees.follow_connections (hs : s.Agrees inst) (huv : uv.Ok) {server : Nat}
    {lab : CloseLabel V} {k : ServerSockets V} (hlab : ∀ t c cbs, lab ≠ .createConnection t c cbs)
    (hstep : closeStep uv inst (s.sockets server) lab = some k) (server' : Nat) :
    (s.follow server k lab).connections server' = (s.setSockets server k server').connections := by
  rcases hs.follow_eq hstep with ⟨hcallback, hfollow⟩ | ⟨l, rfl, hfollow⟩
  · rw [hfollow]
    show s.servers.connections server' = _
    rw [hs.connections]
    rcases eq_or_ne server' server with rfl | hne
    · rw [s.setSockets_self, closeStep_connections huv (hs.inv server') hlab hcallback hstep]
    · rw [s.setSockets_of_ne hne]
  · rw [hfollow]
    have hk := (closeStep_callback (hs.inv server) hstep).2
    cases hnext : (s.sockets server).next l with
    | none =>
      rw [hnext] at hk
      show s.servers.connections server' = _
      rw [hs.connections]
      rcases eq_or_ne server' server with rfl | hne
      · rw [s.setSockets_self]
        exact hk.symm
      · rw [s.setSockets_of_ne hne]
    | some c =>
      rw [hnext] at hk
      obtain ⟨-, rfl⟩ := hs.next_created hnext
      show Function.update s.servers.connections (s.servers.timeouts.server c) _ server' = _
      rcases eq_or_ne server' (s.servers.timeouts.server c) with rfl | hne
      · rw [Function.update_self, s.setSockets_self, hk]
        show (s.servers.connections _).filter (fun x => x != c) =
          (s.sockets _).connections.filter fun x => x ≠ c
        rw [hs.connections]
        exact List.filter_congr fun x _ => by simp [bne, beq_eq_decide]
      · rw [Function.update_of_ne hne, s.setSockets_of_ne hne, hs.connections]

/-- A connection that leaves the lists of the servers leaves the timeout lists, and none joins them. -/
theorem Serving.Agrees.follow_entries (hs : s.Agrees inst) {server : Nat} {lab : CloseLabel V}
    {k : ServerSockets V} (hstep : closeStep uv inst (s.sockets server) lab = some k)
    (hc : c ∈ s.servers.created)
    (hnone : ∀ server', c ∉ (s.follow server k lab).connections server') :
    (s.follow server k lab).timeouts.entries c = [] := by
  rcases hs.follow_eq hstep with ⟨-, hfollow⟩ | ⟨l, rfl, hfollow⟩
  · rw [hfollow] at hnone ⊢
    exact hs.entries c hc hnone
  · rw [hfollow] at hnone ⊢
    cases hnext : (s.sockets server).next l with
    | none =>
      rw [hnext] at hnone
      exact hs.entries c hc hnone
    | some c' =>
      rw [hnext] at hnone
      show (s.servers.timeouts.removeConnection c').entries c = []
      rcases eq_or_ne c c' with rfl | hne
      · exact s.servers.timeouts.removeConnection_entries c
      · refine Timeouts.removeConnection_entries_nil (hs.entries c hc fun server' hmem => ?_) c'
        have hkept : c ∉ Function.update s.servers.connections (s.servers.timeouts.server c')
            ((s.servers.connections (s.servers.timeouts.server c')).filter fun x => x != c') server' :=
          hnone server'
        rw [Function.update_apply] at hkept
        split at hkept
        · next heq =>
          exact hkept (List.mem_filter.mpr ⟨heq ▸ hmem, bne_iff_ne.mpr hne⟩)
        · exact hkept hmem

/-- A step of the servers that makes no connection and calls no close callback keeps the agreement, with
the flag of its connection as the socket is then. -/
theorem Serving.Agrees.servers (hs : s.Agrees inst) {lab : ServerLabel} {servers : Servers P}
    {sockets : Nat → ServerSockets V} (hstep : serverStep env s.servers lab = some servers)
    (hcreate : ∀ c, lab ≠ .createConnection c) (hremove : ∀ c, lab ≠ .closed c)
    (hsockets : ∀ server, (sockets server).Inv inst ∧ (sockets server).Owned)
    (hcreated : ∀ server c, some c ∈ (sockets server).base.created ↔
      some c ∈ (s.sockets server).base.created)
    (hconnections : ∀ server, (sockets server).connections = (s.sockets server).connections)
    (hclosed : ∀ c ∈ s.servers.created, (servers.connection c).closed =
      ((sockets (s.servers.timeouts.server c)).base.handle (some c)).isClosing) :
    (⟨servers, sockets⟩ : Serving P V).Agrees inst := by
  have hsame : ∀ c, c ∈ servers.created ↔ c ∈ s.servers.created := fun c =>
    (serverStep_created hstep c).trans (or_iff_left (hcreate c))
  have hserver := serverStep_server hstep
  have hlists := serverStep_connections hstep hcreate hremove
  refine ⟨fun server => (hsockets server).1, fun server => (hsockets server).2, fun server c => ?_,
    fun c hc => ?_, fun server => ?_, fun c hc hnone => ?_⟩
  · show some c ∈ (sockets server).base.created ↔
      c ∈ servers.created ∧ servers.timeouts.server c = server
    rw [hcreated, hs.created, hsame, hserver]
  · show (servers.connection c).closed =
      ((sockets (servers.timeouts.server c)).base.handle (some c)).isClosing
    rw [hserver]
    exact hclosed c ((hsame c).mp hc)
  · show servers.connections server = (sockets server).connections
    rw [hlists, hs.connections, hconnections]
  · have hnone' : ∀ server, c ∉ s.servers.connections server := fun server hmem =>
      hnone server (hlists ▸ hmem)
    exact serverStep_entries_nil (hs.entries c ((hsame c).mp hc) hnone') (hcreate c) hstep

/-- A step of a connection sets its flag when the step calls `close()`. -/
theorem serverStep_connection_closed {lab : Label} {servers : Servers P}
    (hstep : serverStep env s.servers (.connection c lab) = some servers) {c' : Nat}
    (hc' : c' ∈ s.servers.created) : (servers.connection c').closed = true ↔
      (s.servers.connection c').closed = true ∨
        c' = c ∧ (s.servers.connection c).Closes (env c) lab := by
  rw [serverStep_closed_iff hc' hstep]
  refine or_congr_right ⟨?_, ?_⟩
  · rintro ⟨lab', heq, hcloses⟩
    cases heq
    exact ⟨rfl, hcloses⟩
  · rintro ⟨rfl, hcloses⟩
    exact ⟨lab, rfl, hcloses⟩

/-- A step of one server's sockets that makes none makes none on any, -/
theorem Serving.setSockets_created (s : Serving P V) {server : Nat} {k : ServerSockets V}
    (hcreated : ∀ c, some c ∈ k.base.created ↔ some c ∈ (s.sockets server).base.created)
    (server' c : Nat) : some c ∈ (s.setSockets server k server').base.created ↔
      some c ∈ (s.sockets server').base.created := by
  rcases eq_or_ne server' server with rfl | hne
  · rw [s.setSockets_self, hcreated]
  · rw [s.setSockets_of_ne hne]

/-- and one that leaves its list leaves all. -/
theorem Serving.setSockets_connections (s : Serving P V) {server : Nat} {k : ServerSockets V}
    (hconnections : k.connections = (s.sockets server).connections) (server' : Nat) :
    (s.setSockets server k server').connections = (s.sockets server').connections := by
  rcases eq_or_ne server' server with rfl | hne
  · rw [s.setSockets_self, hconnections]
  · rw [s.setSockets_of_ne hne]

/-- A new connection of a server has a new socket, and joins its list. -/
theorem Serving.Agrees.createConnection (hs : s.Agrees inst) {k : ServerSockets V}
    (hnew : some c ∉ (s.socketsOf c).base.created) (hnew' : c ∉ s.servers.created)
    (hbase : k.base = (s.socketsOf c).base.made (some c) ((s.socketsOf c).base.handle none).loop)
    (hlist : k.connections = (s.socketsOf c).connections ++ [c])
    (hkeeps : ∀ server, (s.setSockets (s.servers.timeouts.server c) k server).Inv inst ∧
      (s.setSockets (s.servers.timeouts.server c) k server).Owned) :
    (⟨s.servers.createConnection env c, s.setSockets (s.servers.timeouts.server c) k⟩ :
      Serving P V).Agrees inst := by
  have hne {c'} (hc' : c' ∈ s.servers.created) : c' ≠ c := ne_of_mem_of_not_mem hc' hnew'
  have hmem (c' : Nat) : c' ∈ s.servers.created ++ [c] ↔ c' ∈ s.servers.created ∨ c' = c := by
    rw [List.mem_append, List.mem_singleton]
  refine ⟨fun server => (hkeeps server).1, fun server => (hkeeps server).2, fun server c' => ?_,
    fun c' hc' => ?_, fun server => ?_, fun c' hc' hnone => ?_⟩
  · show some c' ∈ (s.setSockets _ k server).base.created ↔
      c' ∈ s.servers.created ++ [c] ∧ s.servers.timeouts.server c' = server
    rw [hmem]
    rcases eq_or_ne server (s.servers.timeouts.server c) with rfl | hother
    · rw [s.setSockets_self, hbase]
      show some c' ∈ (s.socketsOf c).base.created ++ [some c] ↔ _
      rw [List.mem_append, List.mem_singleton, Option.some_inj, Serving.socketsOf, hs.created]
      refine ⟨?_, ?_⟩
      · rintro (⟨hc', hserver⟩ | rfl)
        · exact ⟨.inl hc', hserver⟩
        · exact ⟨.inr rfl, rfl⟩
      · rintro ⟨hc' | rfl, hserver⟩
        · exact .inl ⟨hc', hserver⟩
        · exact .inr rfl
    · rw [s.setSockets_of_ne hother, hs.created]
      refine and_congr_left fun hserver => ⟨.inl, fun h => h.resolve_right ?_⟩
      rintro rfl
      exact hother hserver.symm
  · show (Function.update s.servers.connection c _ c').closed =
      ((s.setSockets _ k (s.servers.timeouts.server c')).base.handle (some c')).isClosing
    rcases (hmem c').mp hc' with hold | rfl
    · rw [Function.update_of_ne (hne hold), hs.closed c' hold]
      rcases eq_or_ne (s.servers.timeouts.server c') (s.servers.timeouts.server c) with heq | hother
      · have hhandle : some c' ≠ some c := fun h => hne hold (Option.some.inj h)
        rw [heq, s.setSockets_self, hbase, Handles.made_handle_of_ne hhandle, Serving.socketsOf,
          heq, Serving.socketsOf]
      · rw [s.setSockets_of_ne hother]
        rfl
    · rw [Function.update_self, s.setSockets_self, hbase]
      simp [Handles.made, Handles.renew, Connection.start]
  · show Function.update s.servers.connections (s.servers.timeouts.server c) _ server =
      (s.setSockets _ k server).connections
    rcases eq_or_ne server (s.servers.timeouts.server c) with rfl | hother
    · rw [Function.update_self, s.setSockets_self, hlist, hs.connections]
      rfl
    · rw [Function.update_of_ne hother, s.setSockets_of_ne hother, hs.connections]
  · have hlists (server : Nat) : c' ∉ Function.update s.servers.connections
        (s.servers.timeouts.server c) (s.servers.connections (s.servers.timeouts.server c) ++ [c]) server :=
      hnone server
    rcases (hmem c').mp hc' with hold | rfl
    · show (s.servers.timeouts.addConnection c true).entries c' = []
      rw [Timeouts.addConnection_entries_ne (hne hold)]
      refine hs.entries c' hold fun server hc' => hlists server ?_
      rw [Function.update_apply]
      split
      · next heq => exact List.mem_append_left _ (heq ▸ hc')
      · exact hc'
    · have hnot := hlists (s.servers.timeouts.server c')
      rw [Function.update_self] at hnot
      exact absurd (List.mem_append_right _ (.head _)) hnot

/-- Every step that closes no socket again keeps the agreement. -/
theorem Serving.Agrees.step (hs : s.Agrees inst) (huv : uv.Ok) {lab : ServingLabel V}
    (hok : s.ClosesOnce env lab) (hstep : servingStep env uv inst s lab = some s') :
    s'.Agrees inst := by
  have hkept : ∀ server, (s.sockets server).Inv inst ∧ (s.sockets server).Owned :=
    fun server => ⟨hs.inv server, hs.owned server⟩
  cases servingStep_cases hstep with
  | @createConnection c cbs servers k hserver hsockets =>
    obtain ⟨hnew, hbase, hlist⟩ := closeStep_createConnection huv (hs.inv _) hsockets
    have hkeeps := hs.setSockets huv (by trivial) hsockets
    cases serverStep_cases hserver with
    | createConnection _ hnew' =>
      exact hs.createConnection hnew hnew' hbase hlist hkeeps
  | @connection c lab servers hserver hkeeps =>
    refine hs.servers hserver nofun nofun hkept (fun _ _ => .rfl) (fun _ => rfl) fun c' hc' => ?_
    refine Eq.trans ?_ (hs.closed c' hc')
    rw [Bool.eq_iff_iff, serverStep_connection_closed hserver hc', or_iff_left fun h => hkeeps h.2]
  | @closes c lab servers k hserver hcloses hsockets =>
    have honce : ClosedOnce (s.socketsOf c)
        (.close (Thread.ofLoop ((s.socketsOf c).base.handle (some c)).loop) c) := hok hcloses
    have hcreated := closeStep_created_iff huv (hs.inv _) honce nofun hsockets
    have hlists := closeStep_connections huv (hs.inv _) (by simp) (by simp) hsockets
    refine hs.servers hserver nofun nofun (hs.setSockets huv honce hsockets)
      (s.setSockets_created hcreated) (s.setSockets_connections hlists) fun c' hc' => ?_
    rw [Bool.eq_iff_iff, serverStep_connection_closed hserver hc', hs.closed c' hc']
    rcases eq_or_ne (s.servers.timeouts.server c') (s.servers.timeouts.server c) with heq | hne
    · rw [heq, s.setSockets_self, closeStep_close_isClosing huv hsockets, Serving.socketsOf, heq]
      refine or_congr_right ⟨?_, fun h => ⟨h.1.symm, hcloses⟩⟩
      rintro ⟨rfl, -⟩
      exact ⟨rfl, Thread.ofLoop_self _⟩
    · rw [s.setSockets_of_ne hne]
      refine or_iff_left ?_
      rintro ⟨rfl, -⟩
      exact hne rfl
  | @timeouts lab servers hlab hserver =>
    have hother : (∀ c, lab ≠ .createConnection c) ∧ (∀ c, lab ≠ .closed c) ∧
        ∀ c lab', lab ≠ .connection c lab' := by
      cases lab with
      | timer | elapse | setTimeouts => exact ⟨nofun, nofun, nofun⟩
      | _ => cases hlab
    refine hs.servers hserver hother.1 hother.2.1 hkept (fun _ _ => .rfl) (fun _ => rfl)
      fun c' hc' => ?_
    refine Eq.trans ?_ (hs.closed c' hc')
    rw [Bool.eq_iff_iff, serverStep_closed_iff hc' hserver, or_iff_left]
    rintro ⟨lab', heq, -⟩
    exact hother.2.2 c' lab' heq
  | @destroy c servers hserver =>
    refine hs.servers hserver nofun nofun hkept (fun _ _ => .rfl) (fun _ => rfl) fun c' hc' => ?_
    refine Eq.trans ?_ (hs.closed c' hc')
    rw [Bool.eq_iff_iff, serverStep_closed_iff hc' hserver]
    simp
  | @sockets server lab k hlab hsockets =>
    obtain ⟨hsame, hserver, -⟩ := s.follow_rest server k lab
    have hcreated := closeStep_created_iff huv (hs.inv server) hok hlab hsockets
    refine ⟨fun server' => (hs.setSockets huv hok hsockets server').1,
      fun server' => (hs.setSockets huv hok hsockets server').2, fun server' c => ?_, fun c hc => ?_,
      hs.follow_connections huv hlab hsockets, fun c hc => ?_⟩
    · show some c ∈ (s.setSockets server k server').base.created ↔
        c ∈ (s.follow server k lab).created ∧ (s.follow server k lab).timeouts.server c = server'
      rw [s.setSockets_created hcreated, hs.created, hsame, hserver]
    · have hc' : c ∈ s.servers.created := hsame ▸ hc
      show ((s.follow server k lab).connection c).closed = ((s.setSockets server k
        ((s.follow server k lab).timeouts.server c)).base.handle (some c)).isClosing
      rw [Bool.eq_iff_iff, s.follow_closed, hserver, hs.closed c hc']
      rcases eq_or_ne (s.servers.timeouts.server c) server with rfl | hne
      · have hmem := (hs.created _ c).mpr ⟨hc', rfl⟩
        rw [s.setSockets_self]
        have hiff := closeStep_isClosing_iff huv (hs.inv _) hok hsockets hmem
        refine ⟨?_, fun hclosing => .inr ⟨rfl, hclosing⟩⟩
        rintro (hclosing | ⟨-, hclosing⟩)
        · exact hiff.mpr (.inl hclosing)
        · exact hclosing
      · rw [s.setSockets_of_ne hne, or_iff_left fun h => hne h.1]
        rfl
    · exact hs.follow_entries hsockets (hsame ▸ hc)

/-- In a run that closes no socket again the connections agree with their sockets. Source:
`ServerConnection.cpp:61-70`, `Server.cpp:194-202`. -/
theorem serving_agrees (huv : uv.Ok) (servers : Nat → Server) (server : Nat → Nat) (now : LoopId → Nat)
    {ls : List (ServingLabel V)}
    (hrun : run (servingStep env uv inst) (.start env servers server now) ls = some s)
    (hok : Along (servingStep env uv inst) (Serving.ClosesOnce env)
      (Serving.start env servers server now : Serving P V) ls) : s.Agrees inst :=
  run_invariant_along (fun _ _ _ hok hs hstep => hs.step huv hok hstep) hok
    (Serving.agrees_start env servers server now) hrun

end

end NodeNative.Http
