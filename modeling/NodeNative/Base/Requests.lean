import NodeNative.Base.Stream

/-!
# The futures of a stream's requests

The promise of a request is settled by the callback of the request only (`Awaited`), and that callback
comes before the one of `uv_close`. So in every run the future of a request is pending as long as libuv
has the request, and then settled with what came of it; no assertion of a callback fails; and when a
stream is closed the futures of its requests are settled (`requests_settled`).
-/

namespace NodeNative.Base

open Transition

/-! ### Promises of the core -/

section
variable {V : Type} {uv : UvAsync} {w w' : World V} {l : LoopId} {p : NodeId}

/-- A promise that only its owner settles, and has not settled yet. -/
structure Awaited (w : World V) (p : NodeId) : Prop where
  passive : w.Passive p
  relays : ∀ b, b = .relayThen p ∨ b = .relayError p → b ∉ w.created
  running : ∀ l, w.running l ≠ some p
  unsettled : (w.futures p).resolver = none

/-- Steps of the core that do not settle it leave it so. -/
theorem Awaited.step (huv : uv.Ok) (hinv : w.Inv) (hn : w.RelaysNamed) (h : Awaited w p) {lab : Label V}
    (hlab : ¬ lab.Settles p) (hstep : NodeNative.step uv w lab = some w') : Awaited w' p := by
  obtain ⟨hrelays, hrunning⟩ := h.passive.step_relays h.relays h.running huv hinv hn hstep
  refine ⟨h.passive.step huv hinv hstep, hrelays, hrunning, ?_⟩
  rw [h.passive.step_resolver h.relays h.running huv hinv hn hlab hstep, h.unsettled]

/-- A new promise. -/
theorem Awaited.new (hinv : w.Inv) (l : LoopId) (isVoid : Bool) :
    Awaited (w.createFuture (.user (fresh w)) l isVoid) (.user (fresh w)) := by
  have hnew := fresh_notMem w
  have hclosing := OpenPromise.new hinv l
  refine ⟨hinv.passive_createFuture hnew l isVoid, hclosing.relays, hclosing.running, ?_⟩
  simp [World.createFuture, World.setFuture]

/-- A promise that is awaited can be settled on the thread of its loop. -/
theorem settle_awaited (huv : uv.Ok) (hinv : w.Inv) (h : Awaited w p) (hl : (w.futures p).loop = l)
    (r : FutureSharedResolver V) :
    (FutureShared.settle uv (Thread.ofLoop l) p r).run w = .ok () (w.settled p r) := by
  have ht : Thread.ofLoop l (w.futures p).loop = true := hl ▸ Thread.ofLoop_self _
  exact FutureShared.settle_run huv ht h.unsettled (hinv.actions_nodup p)
    (fun a ha => hinv.actions_idle ha h.unsettled) r

/-- What settles a `Promise<void>`. -/
def FutureSharedResolver.ForVoid : FutureSharedResolver V → Prop
  | .value p => p = none
  | .error _ => True

/-- Settling it is a step of the core. -/
theorem Awaited.settle_step (huv : uv.Ok) (habort : w.aborted = none) (hinv : w.Inv) (h : Awaited w p)
    (hl : (w.futures p).loop = l) (hvoid : (w.futures p).isVoid = true) {r : FutureSharedResolver V}
    (hr : FutureSharedResolver.ForVoid r) :
    ∃ lab : Label V, (∀ f, lab.Settles f ↔ f = p) ∧
      NodeNative.step uv w lab = some (w.settled p r) := by
  have hsettle := settle_awaited huv hinv h hl r
  cases r with
  | value v =>
    cases hr
    refine ⟨.resolve (Thread.ofLoop l) p none, fun f => Iff.rfl, ?_⟩
    simp [NodeNative.step, habort, h.passive.created, hvoid, World.call, FutureShared.resolve, hsettle]
  | error e =>
    refine ⟨.reject (Thread.ofLoop l) p e, fun f => Iff.rfl, ?_⟩
    simp [NodeNative.step, habort, h.passive.created, World.call, FutureShared.reject, hsettle]

variable (uv) in
/-- The step of the core that a new promise without a value is. -/
theorem step_promiseVoid_eq (habort : w.aborted = none) (l : LoopId) :
    NodeNative.step uv w (.promise (fresh w) l true) =
      some (w.createFuture (.user (fresh w)) l true) := by
  simp [NodeNative.step, habort, fresh_notMem w, World.call, FutureShared.create_run]

end

/-- No request resolves its promise with a value. -/
theorem RequestKind.forVoid_result {V : Type} (uvs : UvStream) (status : Int) (kind : RequestKind) :
    FutureSharedResolver.ForVoid (kind.result uvs status : FutureSharedResolver V) := by
  cases kind <;> unfold result <;> dsimp only <;> split <;> trivial

/-! ### What the calls do -/

section
variable {ι V : Type} [DecidableEq ι]

/-- The world with the promise of a new request, rejected when libuv refuses the request. -/
def Streams.promised (s : Streams ι V) (h : ι) (refusal : Option FutureError) : World V :=
  let w := s.base.world.createFuture (.user (fresh s.base.world)) (s.base.handle h).loop true
  match refusal with
  | some e => w.settled (.user (fresh s.base.world)) (.error e)
  | none => w

/-- A new request. -/
def Streams.newRequest (s : Streams ι V) (kind : RequestKind) (h : ι) (refusal : Option FutureError) :
    Request ι :=
  ⟨kind, h, .user (fresh s.base.world), refusal.elim .pending .refused⟩

/-- After a call that makes a request. -/
def Streams.requested (s : Streams ι V) (kind : RequestKind) (h : ι) (refusal : Option FutureError) :
    Streams ι V :=
  { s with
    base := { s.base with world := s.promised h refusal }
    requests := s.requests ++ [s.newRequest kind h refusal] }

/-- After the callback of a request. -/
def Streams.completed (s : Streams ι V) (uvs : UvStream) (i : Nat) (r : Request ι) (status : Int) :
    Streams ι V :=
  { s with
    base := { s.base with world := s.base.world.settled r.promise (r.kind.result uvs status) }
    requests := s.requests.set i { r with status := .completed status }
    socket :=
      match r.kind with
      | .connect attempt =>
        Function.update s.socket r.stream ((s.socket r.stream).onConnect attempt status).2
      | _ => s.socket }

section
variable {uv : UvAsync} {uvs : UvStream} {inst : ι → V} {s s' : Streams ι V} {h : ι} {r : Request ι}
  {i : Nat} {status : Int} {kind : RequestKind} {refusal : Option FutureError}

omit [DecidableEq ι] in
/-- Code of the handles changes the handles alone. -/
theorem inBase_run {α : Type} (x : HandleM ι V α) (s : Streams ι V) : (inBase x).run s =
    match x.run s.base with
    | .ok a b => .ok a { s with base := b }
    | .error e b => .error e { s with base := b } := rfl

omit [DecidableEq ι] in
/-- A call that makes a request cannot fail, -/
theorem Stream.request_run (huv : uv.Ok) (hs : s.base.world.Inv) (habort : s.base.world.aborted = none) :
    (Stream.request uv kind h refusal).run s = .ok () (s.requested kind h refusal) := by
  have hcreate : (Promise.createVoid (s.base.handle h).loop).run s.base =
      .ok (.user (fresh s.base.world))
        { s.base with
          world := s.base.world.createFuture (.user (fresh s.base.world)) (s.base.handle h).loop true } :=
    rfl
  unfold Stream.request
  simp only [EStateM.run_bind, EStateM.run_get, inBase_run, hcreate]
  cases refusal with
  | none => rfl
  | some e =>
    have hstep := step_promiseVoid_eq uv habort (s.base.handle h).loop
    have hinv := (step_inv huv hs hstep).1
    have hsettle := settle_awaited huv hinv (Awaited.new hs (s.base.handle h).loop true)
      (l := (s.base.handle h).loop) (by simp [World.createFuture, World.setFuture]) (.error e)
    simp only [EStateM.run_bind, inBase_run, inWorld_run, FutureShared.reject, hsettle]
    rfl

/-- and neither can the callback of a request whose promise is awaited, on a handle that has its data.
-/
theorem Stream.onComplete_run (huv : uv.Ok) (hs : s.base.world.Inv) (hr : Awaited s.base.world r.promise)
    (hl : (s.base.world.futures r.promise).loop = (s.base.handle r.stream).loop)
    (hdata : (s.base.handle r.stream).data = true) :
    (Stream.onComplete uv uvs r status).run
        { s with requests := s.requests.set i { r with status := .completed status } } =
      .ok () (s.completed uvs i r status) := by
  have hsettle := settle_awaited huv hs hr hl (r.kind.result uvs status)
  unfold Stream.onComplete Streams.completed
  simp only [EStateM.run_bind, EStateM.run_get]
  cases hkind : r.kind with
  | connect attempt =>
    rw [hkind] at hsettle
    simp only [EStateM.run_bind, inBase_run, assert_run hdata, EStateM.run_modify, inWorld_run, hsettle]
  | write =>
    rw [hkind] at hsettle
    simp only [inBase_run, inWorld_run, hsettle]
  | shutdown =>
    rw [hkind] at hsettle
    simp only [inBase_run, inWorld_run, hsettle]

/-! ### The handles -/

/-- The promise that closes a handle is an old one or new. -/
theorem HandleStep.closingPromise {b b' : Handles ι V} {lab : HandleLabel ι V}
    (hstep : HandleStep uv inst b lab b') (hh : h ∈ b'.created) :
    (h ∈ b.created ∧ (b'.handle h).closingPromise = (b.handle h).closingPromise) ∨
      (b'.handle h).closingPromise ∉ b.world.created := by
  have hrequested : ∀ h', h ∈ b.created → (h ∈ b.created ∧
      ((b.requested h').handle h).closingPromise = (b.handle h).closingPromise) ∨
        ((b.requested h').handle h).closingPromise ∉ b.world.created := by
    intro h' hold
    unfold Handles.requested
    split
    · exact .inl ⟨hold, rfl⟩
    · rcases eq_or_ne h h' with rfl | hne
      · refine .inr ?_
        simpa [Handles.renew] using fresh_notMem b.world
      · exact .inl ⟨hold, congrArg Handle.closingPromise (Handles.renew_handle_of_ne hne _)⟩
  cases hstep with
  | core | refusedCreate | refused | refusedThen => exact .inl ⟨hh, rfl⟩
  | @create t h' l =>
    rcases eq_or_ne h h' with rfl | hne
    · refine .inr ?_
      simpa [Handles.made, Handles.renew] using fresh_notMem b.world
    · refine .inl ⟨(List.mem_append.mp hh).resolve_right fun hmem => hne (List.mem_singleton.mp hmem), ?_⟩
      exact congrArg Handle.closingPromise (Handles.made_handle_of_ne hne)
  | @close t h' => exact hrequested h' (b.requested_created h' ▸ hh)
  | @closeThen t h' => exact hrequested h' (b.requested_created h' ▸ hh)
  | @closed h' =>
    rcases eq_or_ne h h' with rfl | hne
    · have hself : ((b.ended inst h).handle h).closingPromise = .user (fresh
          (b.world.settled (b.handle h).closingPromise (.value (some (inst h))))) := by
        simp [Handles.ended, Handles.renew]
      rw [hself]
      exact .inr (fresh_notMem (b.world.settled _ _))
    · exact .inl ⟨hh, congrArg Handle.closingPromise (Handles.ended_handle_of_ne hne)⟩

/-- Only the callback of `uv_close` ends a handle. -/
theorem HandleStep.closed_eq {b b' : Handles ι V} {lab : HandleLabel ι V}
    (hstep : HandleStep uv inst b lab b') (hh : h ∈ b.created) (hlab : lab ≠ .closed h) :
    (b'.handle h).closed = (b.handle h).closed := by
  have hrequested : ∀ h', ((b.requested h').handle h).closed = (b.handle h).closed := by
    intro h'
    rcases eq_or_ne h h' with rfl | hne
    · exact b.requested_closed h
    · exact congrArg Handle.closed (Handles.requested_handle_of_ne hne)
  cases hstep with
  | core | refusedCreate | refused | refusedThen => rfl
  | create hnew =>
    exact congrArg Handle.closed (Handles.made_handle_of_ne (ne_of_mem_of_not_mem hh hnew))
  | close => exact hrequested _
  | closeThen => exact hrequested _
  | closed =>
    refine congrArg Handle.closed (Handles.ended_handle_of_ne ?_)
    rintro rfl
    exact hlab rfl

/-- A step of the handles is some steps of the core, which settle nothing but what closes a handle. -/
theorem HandleStep.run {b b' : Handles ι V} {lab : HandleLabel ι V} (huv : uv.Ok)
    (habort : b.world.aborted = none) (hb : b.Inv inst) (hstep : HandleStep uv inst b lab b') :
    ∃ clabs, Transition.run (step uv) b.world clabs = some b'.world ∧ ∀ clab ∈ clabs,
      lab = .core clab ∨ ∀ p, clab.Settles p → ∃ h ∈ b.created, p = (b.handle h).closingPromise := by
  have hpromise : ∀ {w : World V} (l : LoopId), w.aborted = none → Transition.run (step uv) w
      [.promise (fresh w) l false] = some (w.createFuture (.user (fresh w)) l false) := by
    intro w l habort
    rw [run_cons, step_promise_eq habort, Option.bind_some, run_nil]
  have hasked : ∀ h', ∃ clabs, Transition.run (step uv) b.world clabs = some (b.asked h').world ∧
      ∀ clab ∈ clabs, ∀ p, ¬ clab.Settles p := by
    intro h'
    show ∃ clabs, Transition.run (step uv) b.world clabs = some (b.requested h').world ∧ _
    unfold Handles.requested
    split
    · exact ⟨[], rfl, by simp⟩
    · refine ⟨_, hpromise _ habort, ?_⟩
      simp [Label.Settles]
  cases hstep with
  | core _ hcore =>
    refine ⟨[_], ?_, fun clab hclab => .inl (by rw [List.mem_singleton.mp hclab])⟩
    rw [run_cons, hcore, Option.bind_some, run_nil]
  | refusedCreate | refused | refusedThen => exact ⟨[], rfl, by simp⟩
  | create => exact ⟨_, hpromise _ habort, by simp [Label.Settles]⟩
  | @close t h' =>
    obtain ⟨clabs, hrun, hclabs⟩ := hasked h'
    exact ⟨clabs, hrun, fun clab hclab => .inr fun p hp => absurd hp (hclabs clab hclab p)⟩
  | @closeThen t h' R hh ht =>
    obtain ⟨clabs, hrun, hclabs⟩ := hasked h'
    have hcreated : h' ∈ (b.asked h').created := (b.requested_created h').symm ▸ hh
    have haborted : (b.asked h').world.aborted = none := (b.requested_aborted h').trans habort
    have hthen := step_then_eq huv haborted
      ((hb.asked huv habort hh).handle h' hcreated).promise.passive.created t R
    refine ⟨clabs ++ [.thenCb t ((b.asked h').handle h').closingPromise (fresh (b.asked h').world) R],
      ?_, fun clab hclab => .inr fun p hp => ?_⟩
    · rw [run_append, hrun, Option.bind_some, run_cons, hthen, Option.bind_some, run_nil]
      rfl
    · rcases List.mem_append.mp hclab with hclab | hclab
      · exact absurd hp (hclabs clab hclab p)
      · rw [List.mem_singleton.mp hclab] at hp
        exact hp.elim
  | @closed h' hh =>
    have hresolve := step_resolve_eq huv habort hb.world (hb.handle h' hh).promise (inst h')
    have hrun : Transition.run (step uv) b.world
        [.resolve (Thread.ofLoop (b.handle h').loop) (b.handle h').closingPromise (some (inst h')),
          .promise (fresh (b.world.settled (b.handle h').closingPromise (.value (some (inst h')))))
            (b.handle h').loop false] = some (b.ended inst h').world := by
      rw [run_cons, hresolve, Option.bind_some]
      exact hpromise _ habort
    refine ⟨_, hrun, fun clab hclab => .inr fun p hp => ?_⟩
    rcases List.mem_cons.mp hclab with rfl | hclab
    · exact ⟨h', hh, hp⟩
    · rw [List.mem_singleton.mp hclab] at hp
      exact hp.elim

/-! ### A request -/

/-- What the future of a request is settled with. -/
def Request.outcome (uvs : UvStream) (r : Request ι) : Option (FutureSharedResolver V) :=
  match r.status with
  | .pending => none
  | .refused e => some (.error e)
  | .completed status => some (r.kind.result uvs status)

/-- What holds of a request. -/
structure RequestInv (uvs : UvStream) (b : Handles ι V) (r : Request ι) : Prop where
  stream : r.stream ∈ b.created
  promise : r.promise ∈ b.world.created
  future : (b.world.futures r.promise).loop = (b.handle r.stream).loop ∧
    (b.world.futures r.promise).isVoid = true
  isPrivate : ∀ h ∈ b.created, (b.handle h).closingPromise ≠ r.promise
  pending : r.isPending = true → Awaited b.world r.promise ∧ (b.handle r.stream).closed = false
  settled : ∀ res, r.outcome uvs = some res → (b.world.futures r.promise).resolver = some res

/-- Steps of the core, which do not settle a promise that is awaited. -/
theorem Awaited.run {p : NodeId} (huv : uv.Ok) {w w' : World V} (hinv : w.Inv) (hn : w.RelaysNamed)
    (h : Awaited w p) {clabs : List (Label V)} (hlabs : ∀ clab ∈ clabs, ¬ clab.Settles p)
    (hrun : Transition.run (NodeNative.step uv) w clabs = some w') : Awaited w' p := by
  have hstep : ∀ (w : World V) (clab : Label V) (w' : World V), ¬ clab.Settles p →
      w.Inv ∧ w.RelaysNamed ∧ Awaited w p → NodeNative.step uv w clab = some w' →
      w'.Inv ∧ w'.RelaysNamed ∧ Awaited w' p := by
    rintro w clab w' hlab ⟨hinv, hn, h⟩ hstep
    exact ⟨(step_inv huv hinv hstep).1, hn.step huv hinv hstep, h.step huv hinv hn hlab hstep⟩
  exact (run_invariant_of hstep hlabs ⟨hinv, hn, h⟩ hrun).2.2

/-- The handles take a step that leaves the request. -/
theorem RequestInv.handleStep {b b' : Handles ι V} {lab : HandleLabel ι V} (huv : uv.Ok)
    (habort : b.world.aborted = none) (hb : b.Inv inst) (h : RequestInv uvs b r)
    (hcore : ∀ clab, lab = .core clab → ¬ clab.Settles r.promise)
    (hclosed : r.isPending = true → lab ≠ .closed r.stream) (hstep : HandleStep uv inst b lab b') :
    RequestInv uvs b' r := by
  have hext := hstep.extends huv habort hb
  obtain ⟨hstream, hloop⟩ := hstep.loop h.stream
  obtain ⟨clabs, hrun, hlabs⟩ := hstep.run huv habort hb
  have hnot : ∀ clab ∈ clabs, ¬ clab.Settles r.promise := by
    intro clab hclab hsettles
    rcases hlabs clab hclab with hlab | hprivate
    · exact hcore clab hlab hsettles
    · obtain ⟨h', hh', heq⟩ := hprivate _ hsettles
      exact h.isPrivate h' hh' heq.symm
  obtain ⟨hfloop, hvoid⟩ := hext.future r.promise h.promise
  refine ⟨hstream, hext.created _ h.promise, ⟨?_, hvoid.trans h.future.2⟩, fun h' hh' heq => ?_,
    fun hpending => ?_, fun res hres => hext.resolver _ _ (h.settled res hres)⟩
  · rw [hfloop, hloop, h.future.1]
  · rcases hstep.closingPromise hh' with ⟨hold, hsame⟩ | hnew
    · exact h.isPrivate h' hold (hsame.symm.trans heq)
    · exact hnew (heq ▸ h.promise)
  · obtain ⟨hawaited, hopen⟩ := h.pending hpending
    exact ⟨hawaited.run huv hb.world hb.named hnot hrun,
      (hstep.closed_eq h.stream (hclosed hpending)).trans hopen⟩

/-! ### The steps -/

/-- The request is an attempt to connect its socket. -/
def RequestKind.isConnect : RequestKind → Bool
  | .connect _ => true
  | _ => false

/-- Libuv has the request, and it connects this stream. -/
def Request.connects (h : ι) (r : Request ι) : Bool :=
  decide (r.stream = h) && r.isPending && r.kind.isConnect

/-- What a call makes of the sockets: one that was not connecting is, when libuv takes the attempt. -/
inductive SocketsAfter (s : Streams ι V) (kind : RequestKind) (h : ι) (refusal : Option FutureError) :
    (ι → Net.Socket) → Prop
  | same (hkind : kind.isConnect = false ∨ refusal ≠ none) : SocketsAfter s kind h refusal s.socket
  | connecting {socket : Net.Socket} (hkind : kind.isConnect = true) (hrefusal : refusal = none)
    (hbefore : (s.socket h).connecting = false) (hafter : socket.connecting = true) :
    SocketsAfter s kind h refusal (Function.update s.socket h socket)

/-- The steps with what each of them requires, and what it does. -/
inductive StreamStep (uv : UvAsync) (uvs : UvStream) (inst : ι → V) (s : Streams ι V) :
    Streams ι V → Prop
  | base {lab : HandleLabel ι V} {b : Handles ι V}
    (hcore : ∀ clab, lab = .core clab → ∀ r ∈ s.requests, ¬ clab.Settles r.promise)
    (hclosed : ∀ r ∈ s.requests, r.isPending = true → lab ≠ .closed r.stream)
    (hbase : HandleStep uv inst s.base lab b) : StreamStep uv uvs inst s { s with base := b }
  | request {kind : RequestKind} {h : ι} {refusal : Option FutureError} {socket : ι → Net.Socket}
    (hh : h ∈ s.base.created) (hopen : refusal = none → (s.base.handle h).isClosing = false)
    (hsocket : SocketsAfter s kind h refusal socket) :
    StreamStep uv uvs inst s { s.requested kind h refusal with socket := socket }
  | complete {i : Nat} {r : Request ι} (status : Int) (hr : s.requests[i]? = some r)
    (hpending : r.isPending = true) : StreamStep uv uvs inst s (s.completed uvs i r status)

/-- What holds in every state between two steps. -/
structure Streams.Inv (uvs : UvStream) (inst : ι → V) (s : Streams ι V) : Prop where
  base : s.base.Inv inst
  request : ∀ r ∈ s.requests, RequestInv uvs s.base r
  nodup : (s.requests.map Request.promise).Nodup
  connecting : ∀ h, s.requests.countP (Request.connects h) = if (s.socket h).connecting then 1 else 0

/-- What a call of `connect` makes of the socket. -/
theorem socketsAfter_connect {called : Net.Called} {socket : Net.Socket} {c : Net.ConnectCall}
    (hcall : (s.socket h).connect uvs.addr c = some (called, socket)) (attempt : Nat) :
    SocketsAfter s (.connect attempt) h (refusalOf called) (Function.update s.socket h socket) := by
  obtain ⟨request, hr, -⟩ := Net.Socket.connect_eq hcall
  have hsame : Function.update s.socket h (s.socket h) = s.socket := Function.update_eq_self h s.socket
  by_cases hbusy : (s.socket h).connected = true ∨ (s.socket h).connecting = true
  · rw [Net.Socket.request_of_busy hbusy] at hr
    cases hr
    rw [hsame]
    exact .same (.inr (by simp [refusalOf]))
  · have hconnecting : (s.socket h).connecting = false := by simpa using fun heq => hbusy (.inr heq)
    unfold Net.Socket.request at hr
    rw [if_neg (by simpa using hbusy)] at hr
    cases request with
    | error e =>
      cases hr
      rw [hsame]
      exact .same (.inr (by simp [refusalOf]))
    | ok u =>
      cases hr
      exact .connecting rfl rfl hconnecting rfl

/-- A step of the core that settles no request that is pending. -/
theorem RequestInv.core {b : Handles ι V} (h : RequestInv uvs b r) (huv : uv.Ok)
    (habort : b.world.aborted = none) (hb : b.Inv inst) {lab : Label V} {w : World V}
    (hprivate : ∀ h ∈ b.created, ¬ lab.Settles (b.handle h).closingPromise)
    (hlab : ¬ lab.Settles r.promise) (hstep : NodeNative.step uv b.world lab = some w) :
    RequestInv uvs { b with world := w } r := by
  refine h.handleStep huv habort hb ?_ (fun _ => by rintro ⟨⟩) (HandleStep.core hprivate hstep)
  rintro clab ⟨⟩
  exact hlab

/-- The world in which a request is made. -/
theorem Streams.Inv.promised (huv : uv.Ok) (habort : s.base.world.aborted = none) (hs : s.Inv uvs inst)
    (hh : h ∈ s.base.created) (hopen : refusal = none → (s.base.handle h).isClosing = false) :
    { s.base with world := s.promised h refusal }.Inv inst ∧
    (∀ r ∈ s.requests, RequestInv uvs { s.base with world := s.promised h refusal } r) ∧
    RequestInv uvs { s.base with world := s.promised h refusal } (s.newRequest kind h refusal) := by
  have hstep := step_promiseVoid_eq uv habort (s.base.handle h).loop
  have hnew := fresh_notMem s.base.world
  have hnone : ∀ f, ¬ (Label.promise (fresh s.base.world) (s.base.handle h).loop true : Label V).Settles f :=
    fun f hf => hf
  have hbase := hs.base.core huv (fun h' _ => hnone _) hstep
  have hold : ∀ r ∈ s.requests, RequestInv uvs _ r := fun r hr =>
    (hs.request r hr).core huv habort hs.base (fun h' _ => hnone _) (hnone _) hstep
  have hfuture : ((s.base.world.createFuture (.user (fresh s.base.world)) (s.base.handle h).loop
      true).futures (.user (fresh s.base.world))) = { loop := (s.base.handle h).loop, isVoid := true } := by
    simp [World.createFuture, World.setFuture]
  have hprivate : ∀ h' ∈ s.base.created,
      (s.base.handle h').closingPromise ≠ .user (fresh s.base.world) := by
    intro h' hh' heq
    exact hnew (heq ▸ (hs.base.handle h' hh').promise.passive.created)
  have hawaited := Awaited.new hs.base.world (s.base.handle h).loop true
  have haborted : (s.base.world.createFuture (.user (fresh s.base.world)) (s.base.handle h).loop
      true).aborted = none := habort
  cases refusal with
  | none =>
    refine ⟨hbase, hold, hh, .head _, ⟨?_, ?_⟩, hprivate, fun _ => ⟨hawaited, ?_⟩, by rintro res ⟨⟩⟩
    · exact congrArg FutureShared.loop hfuture
    · exact congrArg FutureShared.isVoid hfuture
    · refine Bool.eq_false_iff.mpr fun hclosed => ?_
      have hclosing := (hs.base.handle h hh).closing hclosed
      rw [hopen rfl] at hclosing
      cases hclosing
  | some e =>
    obtain ⟨lab, hsettles, hsettle⟩ := hawaited.settle_step huv haborted hbase.world
      (congrArg FutureShared.loop hfuture) (congrArg FutureShared.isVoid hfuture)
      (r := (.error e : FutureSharedResolver V)) trivial
    have hleaves : ∀ h' ∈ s.base.created, ¬ lab.Settles (s.base.handle h').closingPromise :=
      fun h' hh' hf => hprivate h' hh' ((hsettles _).mp hf)
    refine ⟨hbase.core huv hleaves hsettle, fun r hr => ?_, ?_⟩
    · refine (hold r hr).core huv haborted hbase hleaves (fun hf => hnew ?_) hsettle
      exact (hsettles _).mp hf ▸ (hs.request r hr).promise
    · have hext := (step_inv huv hbase.world hsettle).2
      obtain ⟨hloop, hvoid⟩ := hext.future _ (.head _)
      refine ⟨hh, hext.created _ (.head _), ⟨?_, ?_⟩, hprivate, by rintro ⟨⟩, ?_⟩
      · exact hloop.trans (congrArg FutureShared.loop hfuture)
      · exact hvoid.trans (congrArg FutureShared.isVoid hfuture)
      · rintro res ⟨⟩
        simp [Streams.promised, Streams.newRequest]

/-- A request that is over connects no socket. -/
theorem Request.connects_of_not_pending {r : Request ι} (h : ι) (hr : r.isPending = false) :
    r.connects h = false := by
  simp [Request.connects, hr]

/-- A call makes a pending connect request when it makes the socket connect. -/
theorem Streams.Inv.connecting_requested {socket : ι → Net.Socket} (hs : s.Inv uvs inst)
    (hsocket : SocketsAfter s kind h refusal socket) (h' : ι) :
    (s.requests ++ [s.newRequest kind h refusal]).countP (Request.connects h') =
      if (socket h').connecting then 1 else 0 := by
  rw [List.countP_append, hs.connecting h', List.countP_singleton]
  cases hsocket with
  | same hkind =>
    have hnot : (s.newRequest kind h refusal).connects h' = false := by
      rcases hkind with hkind | hrefusal
      · simp [Request.connects, Streams.newRequest, hkind]
      · obtain ⟨e, rfl⟩ := Option.ne_none_iff_exists'.mp hrefusal
        exact Request.connects_of_not_pending h' rfl
    simp [hnot]
  | connecting hkind hrefusal hbefore hafter =>
    subst hrefusal
    rcases eq_or_ne h' h with rfl | hne
    · have hnew : (s.newRequest kind h' none).connects h' = true := by
        simp [Request.connects, Streams.newRequest, Request.isPending, hkind]
      rw [hnew, hbefore, Function.update_self, hafter]
      rfl
    · have hother : (s.newRequest kind h none).connects h' = false := by
        simp [Request.connects, Streams.newRequest, hne.symm]
      rw [hother, Function.update_of_ne hne]
      simp

/-- The callback of a connect request ends the attempt of its socket. -/
theorem Streams.Inv.connecting_completed (hs : s.Inv uvs inst) (hr : s.requests[i]? = some r)
    (hpending : r.isPending = true) (status : Int) (h : ι) :
    (s.completed uvs i r status).requests.countP (Request.connects h) =
      if ((s.completed uvs i r status).socket h).connecting then 1 else 0 := by
  obtain ⟨hi, hget⟩ := List.getElem?_eq_some_iff.mp hr
  have hnew : ({ r with status := .completed status } : Request ι).connects h = false :=
    Request.connects_of_not_pending h rfl
  have hcount : (s.completed uvs i r status).requests.countP (Request.connects h) =
      (if (s.socket h).connecting then 1 else 0) - if r.connects h then 1 else 0 := by
    rw [← hs.connecting h]
    simp [Streams.completed, List.countP_set hi, hget, hnew]
  rw [hcount]
  unfold Streams.completed
  cases hkind : r.kind with
  | connect attempt =>
    rcases eq_or_ne h r.stream with rfl | hne
    · have hconnects : r.connects r.stream = true := by
        simp [Request.connects, RequestKind.isConnect, hpending, hkind]
      simp only [hconnects, Function.update_self, Net.Socket.onConnect]
      split <;> rfl
    · have hother : r.connects h = false := by simp [Request.connects, hne.symm]
      simp [hother, Function.update_of_ne hne]
  | write =>
    have hother : r.connects h = false := by simp [Request.connects, RequestKind.isConnect, hkind]
    simp [hother]
  | shutdown =>
    have hother : r.connects h = false := by simp [Request.connects, RequestKind.isConnect, hkind]
    simp [hother]

/-- A request that is completed has another promise than the others. -/
theorem Streams.Inv.other_promise (hs : s.Inv uvs inst) (hr : s.requests[i]? = some r) {j : Nat}
    {r' : Request ι} (hr' : s.requests[j]? = some r') (hne : j ≠ i) : r'.promise ≠ r.promise := by
  intro heq
  obtain ⟨hi, hgeti⟩ := List.getElem?_eq_some_iff.mp hr
  obtain ⟨hj, hgetj⟩ := List.getElem?_eq_some_iff.mp hr'
  have hleni : i < (s.requests.map Request.promise).length := by simpa using hi
  have hlenj : j < (s.requests.map Request.promise).length := by simpa using hj
  have hsame : (s.requests.map Request.promise)[j] = (s.requests.map Request.promise)[i] := by
    simp [hgeti, hgetj, heq]
  exact hne (hs.nodup.getElem_inj_iff.mp hsame)

/-- The callback of a request settles its promise and no other. -/
theorem Streams.Inv.completed (huv : uv.Ok) (habort : s.base.world.aborted = none) (hs : s.Inv uvs inst)
    (hr : s.requests[i]? = some r) (hpending : r.isPending = true) (status : Int) :
    (s.completed uvs i r status).Inv uvs inst := by
  have hmem := List.mem_of_getElem? hr
  have hreq := hs.request r hmem
  obtain ⟨hawaited, hopen⟩ := hreq.pending hpending
  obtain ⟨lab, hsettles, hstep⟩ := hawaited.settle_step huv habort hs.base.world hreq.future.1
    hreq.future.2 (r.kind.forVoid_result uvs status)
  have hleaves : ∀ h ∈ s.base.created, ¬ lab.Settles (s.base.handle h).closingPromise :=
    fun h hh hf => hreq.isPrivate h hh ((hsettles _).mp hf)
  have hext := (step_inv huv hs.base.world hstep).2
  refine ⟨hs.base.core huv hleaves hstep, fun r' hr' => ?_, ?_, hs.connecting_completed hr hpending status⟩
  · obtain ⟨j, hj⟩ := List.getElem?_of_mem hr'
    rcases eq_or_ne j i with rfl | hne
    · have hi := (List.getElem?_eq_some_iff.mp hr).1
      have hself : (s.completed uvs j r status).requests[j]? = some { r with status := .completed status } :=
        List.getElem?_set_self hi
      cases hself.symm.trans hj
      obtain ⟨hloop, hvoid⟩ := hext.future _ hreq.promise
      refine ⟨hreq.stream, hext.created _ hreq.promise, ⟨hloop.trans hreq.future.1,
        hvoid.trans hreq.future.2⟩, hreq.isPrivate, by rintro ⟨⟩, ?_⟩
      rintro res ⟨⟩
      simp [Streams.completed]
    · have hother : s.requests[j]? = some r' := by
        rw [← hj]
        exact (List.getElem?_set_ne hne.symm).symm
      refine (hs.request r' (List.mem_of_getElem? hother)).core huv habort hs.base hleaves ?_ hstep
      exact fun hf => hs.other_promise hr hother hne ((hsettles _).mp hf)
  · have hsame : (s.completed uvs i r status).requests.map Request.promise =
        s.requests.map Request.promise := by
      obtain ⟨hi, hget⟩ := List.getElem?_eq_some_iff.mp hr
      have hlen : i < (s.requests.map Request.promise).length := by simpa using hi
      have hself : r.promise = (s.requests.map Request.promise)[i] := by simp [hget]
      simp only [Streams.completed, List.map_set]
      rw [hself, List.set_getElem_self]
    rw [hsame]
    exact hs.nodup

/-- A step lemma: every step keeps what holds. -/
theorem Streams.Inv.step (huv : uv.Ok) (habort : s.base.world.aborted = none) (hs : s.Inv uvs inst)
    (hstep : StreamStep uv uvs inst s s') : s'.Inv uvs inst := by
  cases hstep with
  | base hcore hclosed hbase =>
    refine ⟨hs.base.step huv habort hbase, fun r hr => ?_, hs.nodup, hs.connecting⟩
    exact (hs.request r hr).handleStep huv habort hs.base (fun clab hlab => hcore clab hlab r hr)
      (hclosed r hr) hbase
  | request hh hopen hsocket =>
    obtain ⟨hbase, hold, hnew⟩ := hs.promised huv habort hh hopen
    refine ⟨hbase, fun r hr => ?_, ?_, hs.connecting_requested hsocket⟩
    · rcases List.mem_append.mp hr with hr | hr
      · exact hold r hr
      · exact List.mem_singleton.mp hr ▸ hnew
    · have hfresh : ∀ r ∈ s.requests, r.promise ≠ .user (fresh s.base.world) := fun r hr heq =>
        fresh_notMem s.base.world (heq ▸ (hs.request r hr).promise)
      simpa [Streams.requested, List.nodup_append, hs.nodup, Streams.newRequest] using hfresh
  | complete status hr hpending => exact hs.completed huv habort hr hpending status

/-! ### Every step is one of these -/

/-- The calls that the program can make on a stream. -/
theorem canCall_iff {taken : Bool} : s.canCall h taken = true ↔
    h ∈ s.base.created ∧ (taken = true → (s.base.handle h).isClosing = false) := by
  cases taken <;> simp [Streams.canCall]

/-- A call that makes a request. -/
theorem Streams.call_request (huv : uv.Ok) (habort : s.base.world.aborted = none) (hs : s.Inv uvs inst) :
    s.call (Stream.request uv kind h refusal) = s.requested kind h refusal := by
  rw [Streams.call, Stream.request_run huv hs.base.world habort]

/-- A call of `connect` makes its request, and changes the socket. -/
theorem Streams.call_connect (huv : uv.Ok) (habort : s.base.world.aborted = none) (hs : s.Inv uvs inst)
    (called : Net.Called) (socket : Net.Socket) :
    s.call (Stream.connect uv h called socket) =
      { s.requested (.connect (s.socket h).attempts.length) h (refusalOf called) with
        socket := Function.update s.socket h socket } := by
  unfold Streams.call Stream.connect
  simp only [EStateM.run_bind, EStateM.run_get, Stream.request_run huv hs.base.world habort,
    EStateM.run_modify]
  rfl

/-- No assertion of the callback of a request fails. -/
theorem Streams.callback_onComplete (huv : uv.Ok) (hs : s.Inv uvs inst) (hr : s.requests[i]? = some r)
    (hpending : r.isPending = true) (status : Int) :
    { s with requests := s.requests.set i { r with status := .completed status } }.callback
      (Stream.onComplete uv uvs r status) = s.completed uvs i r status := by
  have hreq := hs.request r (List.mem_of_getElem? hr)
  obtain ⟨hawaited, hopen⟩ := hreq.pending hpending
  have hdata := ((hs.base.handle r.stream hreq.stream).kept hopen).1
  rw [Streams.callback, Stream.onComplete_run huv hs.base.world hawaited hreq.future.1 hdata]

/-- The callback of a request comes when the request is pending. -/
theorem streamStep_complete (huv : uv.Ok) (hs : s.Inv uvs inst)
    (hstep : streamStep uv uvs inst s (.complete i status) = some s') :
    ∃ r, s.requests[i]? = some r ∧ r.isPending = true ∧ s' = s.completed uvs i r status := by
  unfold streamStep at hstep
  rw [Option.ite_none_left_eq_some] at hstep
  dsimp only at hstep
  obtain ⟨-, hstep⟩ := hstep
  split at hstep
  · next r hr =>
    simp only [Option.ite_none_right_eq_some, Bool.and_eq_true] at hstep
    obtain ⟨⟨hpending, -⟩, hstep⟩ := hstep
    rw [Streams.callback_onComplete huv hs hr hpending status] at hstep
    cases hstep
    exact ⟨r, hr, hpending, rfl⟩
  · cases hstep

/-- Every step is one of `StreamStep`. -/
theorem streamStep_cases (huv : uv.Ok) (hs : s.Inv uvs inst) {lab : StreamLabel ι V}
    (hstep : streamStep uv uvs inst s lab = some s') :
    s.base.world.aborted = none ∧ StreamStep uv uvs inst s s' := by
  have hlab := hstep
  unfold streamStep at hstep
  split at hstep
  · cases hstep
  · next hnot =>
    have habort : s.base.world.aborted = none := by simpa using hnot
    refine ⟨habort, ?_⟩
    cases lab with
    | base lab =>
      simp only [Option.ite_none_right_eq_some] at hstep
      obtain ⟨hleaves, hstep⟩ := hstep
      obtain ⟨b, hb, rfl⟩ := Option.map_eq_some_iff.mp hstep
      refine .base ?_ ?_ (handleStep_cases huv hs.base hb).2
      · rintro clab rfl r hr hsettles
        rw [settles_iff] at hsettles
        simp only [Streams.leaves, Bool.not_eq_true', List.any_eq_false] at hleaves
        exact hleaves r hr (by rw [hsettles]; exact beq_self_eq_true _)
      · rintro r hr hpending rfl
        simp only [Streams.leaves, Bool.not_eq_true', List.any_eq_false] at hleaves
        exact hleaves r hr (by simp [hpending])
    | write h answer =>
      simp only [Option.ite_none_right_eq_some] at hstep
      obtain ⟨hcan, hstep⟩ := hstep
      obtain ⟨hh, hopen⟩ := canCall_iff.mp hcan
      rw [Stream.write, Streams.call_request huv habort hs] at hstep
      cases hstep
      exact .request hh (fun hnone => hopen (by simpa using hnone)) (.same (.inl rfl))
    | shutdown h answer =>
      simp only [Option.ite_none_right_eq_some] at hstep
      obtain ⟨hcan, hstep⟩ := hstep
      obtain ⟨hh, hopen⟩ := canCall_iff.mp hcan
      rw [Stream.shutdown, Streams.call_request huv habort hs] at hstep
      cases hstep
      exact .request hh (fun hnone => hopen (by simpa using hnone)) (.same (.inl rfl))
    | connect h c =>
      dsimp only at hstep
      split at hstep
      · next called socket hcall =>
        rw [Option.ite_none_right_eq_some] at hstep
        obtain ⟨hcan, hstep⟩ := hstep
        obtain ⟨hh, hopen⟩ := canCall_iff.mp hcan
        rw [Streams.call_connect huv habort hs] at hstep
        cases hstep
        refine .request hh (fun hnone => hopen ?_) (socketsAfter_connect hcall _)
        cases called with
        | pending => exact decide_eq_true rfl
        | rejected e => cases hnone
      · cases hstep
    | complete i status =>
      obtain ⟨r, hr, hpending, rfl⟩ := streamStep_complete huv hs hlab
      exact .complete status hr hpending

/-! ### Runs -/

/-- The state before the first step, with the class of each socket. -/
def Streams.start (kind : ι → Net.SocketKind) : Streams ι V := { socket := fun h => { kind := kind h } }

/-- Before the first step there is no request. -/
theorem Streams.Inv.start (kind : ι → Net.SocketKind) :
    (Streams.start kind : Streams ι V).Inv uvs inst :=
  ⟨Handles.Inv.start, by simp [Streams.start], by simp [Streams.start], by simp [Streams.start]⟩

/-- A run lemma: what holds in every state that is reached. -/
theorem Streams.Inv.run (huv : uv.Ok) (hs : s.Inv uvs inst) {ls : List (StreamLabel ι V)}
    (hrun : Transition.run (streamStep uv uvs inst) s ls = some s') : s'.Inv uvs inst := by
  refine run_invariant (fun s lab s' hs hstep => ?_) hs hrun
  obtain ⟨habort, hcase⟩ := streamStep_cases huv hs hstep
  exact hs.step huv habort hcase

omit [DecidableEq ι] in
/-- A request that is not pending has come to its end. -/
theorem Request.outcome_isSome (uvs : UvStream) {r : Request ι} (hr : r.isPending = false) :
    ∃ res : FutureSharedResolver V, r.outcome uvs = some res := by
  unfold Request.isPending at hr
  unfold Request.outcome
  cases hstatus : r.status with
  | pending =>
    rw [hstatus] at hr
    cases hr
  | refused e => exact ⟨_, rfl⟩
  | completed status => exact ⟨_, rfl⟩

omit [DecidableEq ι] in
/-- The future of a request is settled as far as the request has come. -/
theorem RequestInv.resolver {b : Handles ι V} (h : RequestInv uvs b r) :
    (b.world.futures r.promise).resolver = r.outcome uvs := by
  cases hpending : r.isPending with
  | true =>
    rw [(h.pending hpending).1.unsettled]
    unfold Request.isPending at hpending
    unfold Request.outcome
    split at hpending
    · next hstatus => rw [hstatus]
    · cases hpending
  | false =>
    obtain ⟨res, hres⟩ := Request.outcome_isSome (V := V) uvs hpending
    rw [hres, h.settled res hres]

/-- In every run: the future of a request is settled with what came of the request, and not before; when
a stream is closed, the futures of its requests are settled; a socket is connecting when libuv has a
request that connects it, and only then; and no assertion fails in the callback of a request. -/
theorem requests_settled (huv : uv.Ok) (kind : ι → Net.SocketKind) {ls : List (StreamLabel ι V)}
    (hrun : Transition.run (streamStep uv uvs inst) (.start kind) ls = some s) :
    (∀ r ∈ s.requests, (s.base.world.futures r.promise).resolver = r.outcome uvs ∧
      ((s.base.handle r.stream).closed = true →
        (s.base.world.futures r.promise).resolver.isSome = true)) ∧
    (∀ h, (s.socket h).connecting = true ↔ ∃ r ∈ s.requests, r.connects h = true) ∧
    ∀ i status s', streamStep uv uvs inst s (.complete i status) = some s' →
      s'.base.world.aborted = none := by
  have hs : s.Inv uvs inst := (Streams.Inv.start kind).run huv hrun
  refine ⟨fun r hr => ⟨(hs.request r hr).resolver, fun hclosed => ?_⟩, fun h => ?_,
    fun i status s' hstep => ?_⟩
  · have hdone : r.isPending = false := by
      refine Bool.eq_false_iff.mpr fun hpending => ?_
      have hopen := ((hs.request r hr).pending hpending).2
      rw [hclosed] at hopen
      cases hopen
    obtain ⟨res, hres⟩ := Request.outcome_isSome (V := V) uvs hdone
    rw [(hs.request r hr).resolver, hres]
    rfl
  · have hcount := hs.connecting h
    rw [← List.countP_pos_iff, hcount]
    cases (s.socket h).connecting <;> simp
  · obtain ⟨habort, -⟩ := streamStep_cases huv hs hstep
    obtain ⟨r, -, -, rfl⟩ := streamStep_complete huv hs hstep
    exact habort

end

end

/-- What libuv says to a request that it gives up. -/
def canceled : UvStream := ⟨⟨fun _ _ => 0, fun _ _ => 0⟩, fun _ => "operation canceled"⟩

/-- A socket connects, writes, is written to again and closed, so that libuv gives up the second
request to write. -/
def closedInWrite : List (StreamLabel Nat Nat) :=
  [.base (.create (Thread.ofLoop 0) 0 0), .connect 0 (.tcp "127.0.0.1" 80 4 0), .write 0 (-9),
    .complete 0 0, .write 0 0, .base (.close (Thread.ofLoop 0) 0), .complete 2 (-125), .base (.closed 0)]

/-- A stream that is closed while it writes: one write is done, one is refused, and one is cancelled. -/
theorem requests_settled_closedInWrite : ∃ s : Streams Nat Nat,
    run (streamStep {} canceled id) (.start fun _ => .tcp) closedInWrite = some s ∧
    s.requests.map Request.status =
      [.completed 0, .refused ⟨"Error in uv_write, status: -9"⟩, .completed (-125)] ∧
    (s.base.handle 0).closed = true ∧
    ∀ r ∈ s.requests, (s.base.world.futures r.promise).resolver = r.outcome canceled := by
  have hend : (run (streamStep {} canceled id) (.start fun _ => .tcp) closedInWrite).map
      (fun s => (s.requests.map Request.status, (s.base.handle 0).closed)) =
      some ([.completed 0, .refused ⟨"Error in uv_write, status: -9"⟩, .completed (-125)], true) := by
    decide +kernel
  obtain ⟨s, hrun, hs⟩ := Option.map_eq_some_iff.mp hend
  obtain ⟨hstatus, hclosed⟩ := Prod.mk.inj hs
  have hsettled := requests_settled (fun _ => ⟨rfl, rfl⟩) (fun _ => .tcp) hrun
  exact ⟨s, hrun, hstatus, hclosed, fun r hr => (hsettled.1 r hr).1⟩

end NodeNative.Base
