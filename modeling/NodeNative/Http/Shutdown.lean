import NodeNative.Http.CloseRequests

/-!
# The shutdown of a server

A server holds itself (`_instance`) and its connections (`_connections`), and each connection holds the
server. `Server::close` takes this apart: the lambda that it chains to the closing of the socket drops
`_instance`, and the close callback of each connection drops the connection. `ServerSockets.Owned` says
who holds whom along a run. When nothing is in flight, the server has exactly the connections with an
open socket, and itself as long as its own socket is open; so when all sockets are closed, nothing of it
is left but what other code still holds (`shutdown_releases`).
-/

namespace NodeNative.Http

open Transition
open Base

section
variable {V : Type} {uv : UvAsync} {inst : Option Nat → V} {b b' : Handles (Option Nat) V} {c : Nat}
  {t : Thread}

/-! ### The lambda of the server -/

/-- When the handle is closed and no async handle is in flight, its lambdas have been called. -/
theorem SocketsInv.answers_pos (hb : SocketsInv inst b) {h : Option Nat}
    (hclosed : (b.handle h).closed = true) (hpending : b.world.pending = []) : 0 < b.answers h := by
  rw [hb.answers_eq hclosed hpending]
  exact hb.requested h ((hb.handle h (hb.created_of_closed hclosed)).closing hclosed)

/-- Closing the connections calls no lambda, -/
theorem SocketsInv.closeEach_answers (huv : uv.Ok) {cs : List Nat} (hnodup : cs.Nodup)
    (habort : b.world.aborted = none) (hb : SocketsInv inst b) (hcs : ∀ c ∈ cs, some c ∈ b.created)
    (ht : t (b.handle none).loop = true) (honly : ∀ c ∈ cs, OnlyOnce b t c)
    (hrun : (cs.forM fun c => ServerConnection.close uv t c).run b = .ok () b') :
    b'.answers none = b.answers none := by
  induction cs generalizing b with
  | nil =>
    cases hrun
    rfl
  | cons c cs ih =>
    obtain ⟨hc, hnodup⟩ := List.nodup_cons.mp hnodup
    have hcreated := hcs c (.head _)
    have htc : t (b.handle (some c)).loop = true := (hb.serverLoop c hcreated).2 ▸ ht
    have hstep : HandleStep uv inst b (.closeThen t (some c) .void) _ := .closeThen hcreated htc
    obtain ⟨habort₁, hb₁, hsame⟩ := hb.closeThen huv habort hstep fun c' heq =>
      Option.some.inj heq ▸ honly c (.head _)
    have hother : ∀ c' ∈ cs, ((b.asked (some c)).chained t (some c) .void).handle (some c') =
        b.handle (some c') := fun c' hc' =>
      Handles.requested_handle_of_ne fun heq => hc (Option.some.inj heq ▸ hc')
    rw [List.forM, EStateM.run_bind, ServerConnection.close, Handle.closeThen_run huv htc] at hrun
    rw [ih hnodup habort₁ hb₁ (fun c' hc' => hsame.created _ (hcs c' (.tail _ hc')))
      ((hsame.loop none (hb.serverLoop c hcreated).1).symm ▸ ht) (fun c' hc' => ?_) hrun]
    · exact hb.answers_same huv habort hstep (by simp) none
    · rw [OnlyOnce, hother c' hc']
      exact honly c' (.tail _ hc')

/-- and so does `Server::close`. -/
theorem SocketsInv.closeServer_answers (huv : uv.Ok) {cs : List Nat} (hnodup : cs.Nodup)
    (habort : b.world.aborted = none) (hb : SocketsInv inst b) (hcs : ∀ c ∈ cs, some c ∈ b.created)
    (hserver : none ∈ b.created) (ht : t (b.handle none).loop = true)
    (honly : ∀ c ∈ cs, OnlyOnce b t c) :
    (b.call (Server.close uv t cs)).answers none = b.answers none := by
  obtain ⟨b₁, hrun, habort₁, hb₁, hsame⟩ := hb.closeEach huv hnodup habort hcs ht honly
  have ht₁ : t (b₁.handle none).loop = true := (hsame.loop none hserver).symm ▸ ht
  have hcall : b.call (Server.close uv t cs) = (b₁.asked none).chained t none .value := by
    rw [Handles.call, Server.close, EStateM.run_bind, hrun]
    dsimp only
    rw [Handle.closeThen_run huv ht₁]
  have hstep : HandleStep uv inst b₁ (.closeThen t none .value) _ :=
    .closeThen (hsame.created _ hserver) ht₁
  rw [hcall, hb₁.answers_same huv habort₁ hstep (by simp) none]
  exact hb.closeEach_answers huv hnodup habort hcs ht honly hrun

end

section
variable {V : Type} {uv : UvAsync} {inst : Option Nat → V} {s s' : ServerSockets V}
  {b : Handles (Option Nat) V} {c : Nat}

/-! ### Who holds whom -/

/-- The one position of the callback of the server in the list of a connection. -/
def ServerConnection.ServerAt (k : ServerConnection) (i : Nat) : Prop :=
  ∀ j, k.closeCbs[j]? = some .server ↔ j = i

/-- The server holds itself until its lambda is called, and a connection until it calls back. -/
structure ServerSockets.Owned (s : ServerSockets V) : Prop where
  server : s.serverInstance = true ↔ none ∈ s.base.created ∧ s.base.answers none = 0
  connection : ∀ c, some c ∈ s.base.created →
    ∃ i, (s.connection c).ServerAt i ∧ (c ∈ s.connections ↔ (c, i) ∉ s.ran)

/-- Steps of the sockets that create none and do not call the lambda of the server. -/
theorem ServerSockets.Owned.sockets (h : s.Owned) (hcreated : b.created = s.base.created)
    (hanswers : b.answers none = s.base.answers none) : { s with base := b }.Owned where
  server := by
    rw [hcreated, hanswers]
    exact h.server
  connection c hc := h.connection c (hcreated ▸ hc)

/-- A new list of close callbacks, with the one of the server where it was. -/
theorem ServerSockets.Owned.setConnection (h : s.Owned) (c : Nat) {k : ServerConnection}
    (hk : ∀ i, (s.connection c).ServerAt i → k.ServerAt i) : (s.setConnection c k).Owned where
  server := h.server
  connection c' hc' := by
    obtain ⟨i, hi, hlisted⟩ := h.connection c' hc'
    refine ⟨i, ?_, hlisted⟩
    rcases eq_or_ne c' c with rfl | hne
    · rw [ServerSockets.setConnection_self]
      exact hk i hi
    · rwa [ServerSockets.setConnection_of_ne hne]

/-- A callback that is registered later leaves the one of the server at its position, -/
theorem ServerConnection.ServerAt.append_user {k : ServerConnection} {i : Nat} (h : k.ServerAt i)
    (n : Nat) : ServerAt { k with closeCbs := k.closeCbs ++ [.user n] } i := by
  intro j
  rw [← h j]
  rcases Nat.lt_trichotomy j k.closeCbs.length with hlt | rfl | hgt
  · rw [List.getElem?_append_left hlt]
  · simp
  · rw [List.getElem?_eq_none (by simp; omega), List.getElem?_eq_none (by omega)]

/-- which is behind those that were registered before it. -/
theorem ServerConnection.serverAt_new (cbs : List Nat) :
    ServerAt { closeCbs := cbs.map CloseCb.user ++ [.server] } cbs.length := by
  intro j
  rcases Nat.lt_trichotomy j cbs.length with hlt | rfl | hgt
  · rw [List.getElem?_append_left (by simpa using hlt), List.getElem?_map]
    cases hj : cbs[j]? <;> simp [Nat.ne_of_lt hlt]
  · simp
  · rw [List.getElem?_eq_none (by simp; omega)]
    simp [Nat.ne_of_gt hgt]

/-- The lambda on the stack calls a callback. -/
theorem ServerSockets.Owned.callback (hs : s.Inv inst) (h : s.Owned) {l : LoopId} {i : Nat} {cb : CloseCb}
    (hstack : s.onStack l = some (c, i)) (hcb : (s.connection c).closeCbs[i]? = some cb) :
    (s.callback l c i cb).Owned := by
  obtain ⟨halive, hserver⟩ := hs.alive hstack
  cases cb with
  | user n =>
    refine ⟨h.server, fun c' hc' => ?_⟩
    obtain ⟨j, hj, hlisted⟩ := h.connection c' hc'
    refine ⟨j, hj, hlisted.trans (not_congr ?_)⟩
    have hne : (c', j) ≠ (c, i) := by
      rintro ⟨⟩
      have hself := (hj i).mpr rfl
      rw [hcb] at hself
      cases hself
    simp [ServerSockets.callback, hne]
  | server =>
    rw [ServerSockets.callback, hserver, halive]
    refine ⟨h.server, fun c' hc' => ?_⟩
    obtain ⟨j, hj, hlisted⟩ := h.connection c' hc'
    refine ⟨j, hj, ?_⟩
    show c' ∈ s.connections.filter (· ≠ c) ↔ (c', j) ∉ s.ran ++ [(c, i)]
    rcases eq_or_ne c' c with rfl | hne
    · have hji : i = j := (hj i).mp hcb
      simp [hji]
    · simp [hne, hlisted]

/-- The core takes a step. -/
theorem ServerSockets.Owned.core (huv : uv.Ok) (hs : s.Inv inst) (h : s.Owned) {lab : NodeNative.Label V}
    (hbase : HandleStep uv inst s.base (.core lab) b) (hok : ClosedOnce s (.core lab)) :
    ({ s with base := b, onStack := s.popped lab }.answer (s.base.answered lab b.world)).Owned := by
  cases hbase with
  | @core _ w hprivate hcore =>
    have hanswers := hs.base.answers_core huv hcore none
    dsimp only
    cases hanswered : s.base.answered lab w with
    | none =>
      have hsame : { s.base with world := w }.answers none = s.base.answers none := by
        rw [hanswers, hanswered]
        rfl
      have hs₁ := h.sockets (b := { s.base with world := w }) rfl hsame
      exact ⟨hs₁.server, hs₁.connection⟩
    | some k =>
      cases k with
      | none =>
        obtain ⟨a, ha, rfl⟩ := (hs.base.answered_iff hcore).mp hanswered
        have halive : { s with base := { s.base with world := w } }.serverAlive = true := hok ha
        show (if { s with base := { s.base with world := w } }.serverAlive then _ else _ :
          ServerSockets V).Owned
        rw [if_pos halive]
        refine ⟨?_, h.connection⟩
        show (false = true) ↔ none ∈ s.base.created ∧ { s.base with world := w }.answers none = 0
        rw [hanswers, if_pos hanswered]
        simp
      | some c =>
        have hsame : { s.base with world := w }.answers none = s.base.answers none := by
          rw [hanswers, hanswered]
          simp
        have hs₁ := h.sockets (b := { s.base with world := w }) rfl hsame
        show (if ({ s with
            base := { s.base with world := w }, onStack := s.popped lab } : ServerSockets V).connectionAlive c
          then _ else _ : ServerSockets V).Owned
        split
        · exact ⟨hs₁.server, hs₁.connection⟩
        · exact ⟨hs₁.server, hs₁.connection⟩

/-- A new socket is open. -/
theorem Handles.answers_made (huv : uv.Ok) (habort : s.base.world.aborted = none) (hs : s.Inv inst)
    {h : Option Nat} {l : LoopId} (hnew : h ∉ s.base.created) (h' : Option Nat) :
    (s.base.made h l).answers h' = s.base.answers h' :=
  hs.base.answers_same huv habort (.create (t := Thread.ofLoop l) hnew (Thread.ofLoop_self l)) (by simp) h'

/-- Every step that closes no socket again keeps this. -/
theorem ServerSockets.Owned.step (huv : uv.Ok) (habort : s.base.world.aborted = none) (hs : s.Inv inst)
    (h : s.Owned) {lab : CloseLabel V} (hok : ClosedOnce s lab) (hstep : CloseStep uv inst s lab s') :
    s'.Owned := by
  cases hstep with
  | core hblocks hbase => exact h.core huv hs hbase hok
  | refused => exact h
  | @create t l b hbase ht =>
    obtain ⟨hnew, rfl⟩ := hbase.create_eq ht
    have hzero : (s.base.made none l).answers none = 0 := by
      rw [Handles.answers_made huv habort hs hnew]
      exact hs.base.answers_open (by rw [hs.base.initial _ hnew])
    refine ⟨iff_of_true rfl ⟨List.mem_append_right _ (.head _), hzero⟩, fun c hc => ?_⟩
    exact h.connection c ((List.mem_append.mp hc).resolve_right fun heq =>
      absurd (List.mem_singleton.mp heq) (Option.some_ne_none c))
  | @createConnection t c cbs b hserver hbase ht =>
    obtain ⟨hnew, rfl⟩ := hbase.create_eq ht
    have hanswers := Handles.answers_made huv habort hs hnew (l := (s.base.handle none).loop) none
    refine ⟨?_, fun c' hc' => ?_⟩
    · show s.serverInstance = true ↔ none ∈ s.base.created ++ [some c] ∧
        (s.base.made (some c) (s.base.handle none).loop).answers none = 0
      rw [hanswers, h.server]
      simp
    · rcases eq_or_ne c' c with rfl | hne
      · refine ⟨cbs.length, ?_, iff_of_true (List.mem_append_right _ (.head _)) fun hran => ?_⟩
        · rw [ServerSockets.setConnection_self]
          exact ServerConnection.serverAt_new cbs
        · exact hnew (hs.ran _ hran)
      · have hold : some c' ∈ s.base.created := (List.mem_append.mp hc').resolve_right fun heq =>
          hne (Option.some.inj (List.mem_singleton.mp heq))
        obtain ⟨i, hi, hlisted⟩ := h.connection c' hold
        refine ⟨i, ?_, Iff.trans ?_ hlisted⟩
        · rwa [ServerSockets.setConnection_of_ne hne]
        · show c' ∈ s.connections ++ [c] ↔ c' ∈ s.connections
          simp [hne]
  | @onClose c n => exact h.setConnection c fun i hi => hi.append_user n
  | @held _ c held => exact h.setConnection c fun i hi => hi
  | serverHeld => exact ⟨h.server, h.connection⟩
  | @close t c hc =>
    have hbase : HandleStep uv inst s.base (.closeThen t (some c) .void) _ :=
      Handle.closeThen_step huv hc t .void
    exact h.sockets (hbase.created_eq (by simp)) (hs.base.answers_same huv habort hbase (by simp) none)
  | @closeServer t hserver =>
    cases ht : t (s.base.handle none).loop with
    | true =>
      obtain ⟨-, hsame⟩ := hs.base.closeServer huv hs.nodup habort hs.listed hserver ht hok
      have hanswers := hs.base.closeServer_answers huv hs.nodup habort hs.listed hserver ht hok
      refine ⟨?_, fun c hc => h.connection c (hsame.old c hc)⟩
      show s.serverInstance = true ↔ none ∈ (s.base.call _).created ∧ (s.base.call _).answers none = 0
      rw [hanswers, h.server]
      exact and_congr_left fun _ => iff_of_true hserver (hsame.created _ hserver)
    | false =>
      rw [Server.close_thread hs.base hs.listed ht]
      exact h
  | closed hbase =>
    exact h.sockets (hbase.created_eq (by simp)) (hs.base.answers_same huv habort hbase (by simp) none)
  | callback hstack hcb => exact h.callback hs hstack hcb

/-- Before the first server nothing is owned. -/
theorem ServerSockets.Owned.start : ({} : ServerSockets V).Owned where
  server := iff_of_false Bool.false_ne_true fun hc => nomatch hc.1
  connection _ hc := nomatch hc

/-! ### What is left -/

/-- When nothing is in flight, the server has exactly the connections whose socket is open. -/
theorem ServerSockets.Owned.listed_iff (hs : s.Inv inst) (h : s.Owned)
    (hpending : s.base.world.pending = []) (hc : some c ∈ s.base.created)
    (hstack : s.onStack (s.base.handle (some c)).loop = none) :
    c ∈ s.connections ↔ (s.base.handle (some c)).closed = false := by
  cases hclosed : (s.base.handle (some c)).closed with
  | false =>
    have hzero := hs.base.answers_open hclosed
    exact iff_of_true (hs.waiting c hc hzero).1 rfl
  | true =>
    refine iff_of_false (fun hmem => ?_) Bool.false_ne_true.symm
    obtain ⟨i, hi, hlisted⟩ := h.connection c hc
    have hrunning : s.running c = false := by
      rw [ServerSockets.running, hstack]
      rfl
    have hran := hs.done c hc (hs.base.answers_pos hclosed hpending) hrunning
    have hlt : i < (s.connection c).closeCbs.length :=
      (List.getElem?_eq_some_iff.mp ((hi i).mpr rfl)).1
    have hfirst : (c, i) ∈ s.ranOf c := by
      rw [hran]
      exact List.mem_map_of_mem (List.mem_range.mpr hlt)
    exact hlisted.mp hmem (List.mem_of_mem_filter hfirst)

/-- It holds itself as long as its own socket is open. -/
theorem ServerSockets.Owned.instance_iff (hs : s.Inv inst) (h : s.Owned)
    (hpending : s.base.world.pending = []) : s.serverInstance = true ↔
      none ∈ s.base.created ∧ (s.base.handle none).closed = false := by
  rw [h.server]
  refine and_congr_right fun _ => ?_
  cases hclosed : (s.base.handle none).closed with
  | false => exact iff_of_true (hs.base.answers_open hclosed) rfl
  | true =>
    have hpos := hs.base.answers_pos hclosed hpending
    exact iff_of_false (Nat.pos_iff_ne_zero.mp hpos) Bool.false_ne_true.symm

/-- Source: `Server.cpp:180-202` and `:247-261`, `ServerConnection.cpp:61-70`. In a run in which no socket
is closed again while it is closing, and the callbacks do not throw: when no async handle is in flight
and no lambda is on a stack, the server has exactly the connections whose socket is open, and holds
itself exactly as long as its own socket is. So when all sockets are closed and no other code holds the
server or a connection, nothing of them is left. -/
theorem shutdown_releases (huv : uv.Ok) {ls : List (CloseLabel V)}
    (hrun : run (closeStep uv inst) {} ls = some s) (hok : Along (closeStep uv inst) ClosedOnce {} ls)
    (hpending : s.base.world.pending = [])
    (hstack : ∀ h ∈ s.base.created, s.onStack (s.base.handle h).loop = none) :
    (∀ c, some c ∈ s.base.created →
      (c ∈ s.connections ↔ (s.base.handle (some c)).closed = false)) ∧
    (s.serverInstance = true ↔ none ∈ s.base.created ∧ (s.base.handle none).closed = false) ∧
    ((∀ h ∈ s.base.created, (s.base.handle h).closed = true) → s.held = false →
      (∀ c, some c ∈ s.base.created → (s.connection c).held = false) →
        s.serverAlive = false ∧ ∀ c, s.connectionAlive c = false) := by
  have hkeeps : ∀ (s : ServerSockets V) lab s', ClosedOnce s lab → s.Inv inst ∧ s.Owned →
      closeStep uv inst s lab = some s' → s'.Inv inst ∧ s'.Owned := by
    rintro s lab s' hok ⟨hs, h⟩ hstep
    obtain ⟨habort, hcase⟩ := closeStep_cases huv hs.base.toInv hstep
    exact ⟨hs.step huv habort hok hcase, h.step huv habort hs hok hcase⟩
  obtain ⟨hs, h⟩ := run_invariant_along hkeeps hok
    ⟨ServerSockets.Inv.start, ServerSockets.Owned.start⟩ hrun
  refine ⟨fun c hc => h.listed_iff hs hpending hc (hstack _ hc), h.instance_iff hs hpending,
    fun hclosed hheld hheldc => ?_⟩
  have hconnection : ∀ c, s.connectionAlive c = false := by
    intro c
    by_cases hc : some c ∈ s.base.created
    · have hlisted : c ∉ s.connections := by
        rw [h.listed_iff hs hpending hc (hstack _ hc), hclosed _ hc]
        exact Bool.false_ne_true.symm
      simp [ServerSockets.connectionAlive, hlisted, hheldc c hc, ServerSockets.running, hstack _ hc]
    · simp [ServerSockets.connectionAlive, hc]
  refine ⟨?_, hconnection⟩
  by_cases hserver : none ∈ s.base.created
  · have hinstance : s.serverInstance = false := by
      refine Bool.eq_false_iff.mpr fun hself => ?_
      have hopen := ((h.instance_iff hs hpending).mp hself).2
      rw [hclosed none hserver] at hopen
      cases hopen
    have hany : (s.base.created.any fun h => h.any s.connectionAlive) = false := by
      refine List.any_eq_false.mpr fun h _ => ?_
      cases h <;> simp [hconnection]
    simp [ServerSockets.serverAlive, hinstance, hheld, hany]
  · simp [ServerSockets.serverAlive, hserver]

end

/-- A server with a connection is closed and dropped. -/
def closedServer : List (CloseLabel Nat) :=
  [.create (Thread.ofLoop 0) 0, .createConnection (Thread.ofLoop 0) 0 [], .closeServer (Thread.ofLoop 0),
    .releaseServer, .closed (some 0), .core (.fire (.user 3)), .callback 0, .core (.ret 0 (.value none)),
    .closed none, .core (.fire (.user 5)), .core (.ret 0 (.value (some 0)))]

/-- What is left of it. -/
def shutDown : ServerSockets Nat := (run (closeStep {} fun _ => 0) {} closedServer).get (by decide +kernel)

/-- A server that is closed with its connection is gone. -/
theorem shutdown_releases_closed : shutDown.base.created = [none, some 0] ∧
    shutDown.serverAlive = false ∧ ∀ c, shutDown.connectionAlive c = false := by
  have hcreated : shutDown.base.created = [none, some 0] := by decide +kernel
  have hreleases := shutdown_releases (s := shutDown) (fun _ => ⟨rfl, rfl⟩) (Option.some_get _).symm
    (by decide +kernel) (by decide +kernel) (by decide +kernel)
  refine ⟨hcreated, hreleases.2.2 (by decide +kernel) (by decide +kernel) fun c hc => ?_⟩
  obtain rfl : c = 0 := by simpa [hcreated] using hc
  decide +kernel

end NodeNative.Http
