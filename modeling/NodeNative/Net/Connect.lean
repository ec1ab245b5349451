import NodeNative.Async.Basic
import NodeNative.Lib.Transition

/-!
# Connecting a stream socket

`Tcp::connect` and `Pipe::connect` refuse a socket that is connecting or connected, and otherwise give
libuv a request, whose completion calls `Connect` with a status. `socketStep` is the transition function
of one object: a step is a call of `connect`, with what libuv answers to it, or the completion of a
request. The history `attempts` lists the requests that libuv has taken, with the status of those that
it has completed.

`Connect` sets `_connected` whatever the status is, so a failed attempt is the last one.
-/

namespace NodeNative.Net

open Transition

/-! ### The code -/

/-- What libuv makes of an address: the results of `uv_ip4_addr` and `uv_ip6_addr`. -/
structure UvAddr where
  ip4 : String → Int → Int
  ip6 : String → Int → Int

inductive SocketKind
  | tcp
  | pipe
deriving DecidableEq, Repr

/-- The two flags that `Tcp` and `Pipe` have in common. Source: `net/Tcp.hpp:50-51`, `Pipe.hpp`. -/
structure Socket where
  kind : SocketKind
  connecting : Bool := false
  connected : Bool := false
  attempts : List (Option Int) := []
deriving DecidableEq, Repr

/-- The future that a call of `connect` returns: rejected at once, or that of the new request. -/
inductive Called
  | rejected (e : FutureError)
  | pending
deriving DecidableEq, Repr

/-- The future of a socket that is connecting or connected. Source: `net/Tcp.cpp:83`. -/
def alreadyConnected : FutureError := ⟨"Already connected"⟩

/-- The part of `connect` that `Tcp` and `Pipe` have in common: `request` is the error on the way to
libuv's taking the request, if there is one. -/
def Socket.request (s : Socket) (request : Except FutureError Unit) : Called × Socket :=
  if s.connected || s.connecting then (.rejected alreadyConnected, s)
  else
    match request with
    | .error e => (.rejected e, s)
    | .ok () => (.pending, { s with connecting := true, attempts := s.attempts ++ [none] })

/-- The result of the conversion of the address. Source: `net/Tcp.cpp:89-99`. -/
def Tcp.address (uv : UvAddr) (ip : String) (port version : Int) : Except FutureError Int :=
  if version = 4 then .ok (uv.ip4 ip port)
  else if version = 6 then .ok (uv.ip6 ip port)
  else .error ⟨"wrong socket address"⟩

/-- The request of a `Tcp`; `answer` is what `uv_tcp_connect` returns. Source: `net/Tcp.cpp:89-111`. -/
def Tcp.request (uv : UvAddr) (ip : String) (port version answer : Int) : Except FutureError Unit :=
  match Tcp.address uv ip port version with
  | .error e => .error e
  | .ok currError =>
    if currError < 0 then .error ⟨"Error in to_ip4_addr/to_ip6_addr"⟩
    else if answer < 0 then .error ⟨"Error in uv_tcp_connect"⟩
    else .ok ()

/-- Source: `net/Tcp.cpp:81` `Tcp::connect`. -/
def Tcp.connect (uv : UvAddr) (s : Socket) (ip : String) (port version answer : Int) :
    Called × Socket :=
  s.request (Tcp.request uv ip port version answer)

/-- Source: `Pipe.cpp:61` `Pipe::connect`; `uv_pipe_connect` returns nothing. -/
def Pipe.connect (s : Socket) (_name : String) : Called × Socket := s.request (.ok ())

/-- Source: `net/Tcp.cpp:68` `Tcp::Connect` and `Pipe.cpp:48` `Pipe::Connect`, for the `i`-th request:
what its promise is settled with. -/
def Socket.onConnect (s : Socket) (i : Nat) (status : Int) : Except FutureError Unit × Socket :=
  (if status = 0 then .ok ()
    else .error ⟨"Error in uv_tcp_connect, non-zero status " ++ toString status⟩,
  { s with connected := true, connecting := false, attempts := s.attempts.set i (some status) })

/-! ### Runs -/

/-- A call of `connect`. -/
inductive ConnectCall
  | tcp (ip : String) (port version answer : Int)
  | pipe (name : String)
deriving DecidableEq, Repr

/-- A step of a socket. -/
inductive SocketLabel
  | connect (c : ConnectCall)
  | complete (i : Nat) (status : Int)
deriving DecidableEq, Repr

section
variable (uv : UvAddr)

/-- What a call on a socket returns and leaves; `none` when the object is of the other class. -/
def Socket.connect (s : Socket) : ConnectCall → Option (Called × Socket)
  | .tcp ip port version answer =>
    if s.kind = .tcp then some (Tcp.connect uv s ip port version answer) else none
  | .pipe name => if s.kind = .pipe then some (Pipe.connect s name) else none

/-- A step; `none` when the label cannot happen. -/
def socketStep (s : Socket) : SocketLabel → Option Socket
  | .connect c => (s.connect uv c).map Prod.snd
  | .complete i status => if s.attempts[i]? = some none then some (s.onConnect i status).2 else none

/-- A previous attempt is in progress or has succeeded. -/
def Socket.InUse (s : Socket) : Prop := none ∈ s.attempts ∨ some 0 ∈ s.attempts

/-- A previous attempt has failed. -/
def Socket.Failed (s : Socket) : Prop := ∃ status ≠ 0, some status ∈ s.attempts

/-- What a step is to do: a call is refused when the socket is in use, and only then. -/
def RefusesInUse (s : Socket) (l : SocketLabel) (_ : Socket) : Prop :=
  ∀ c, l = .connect c → ∀ r, s.connect uv c = some r → (r.1 = .rejected alreadyConnected ↔ s.InUse)

/-- The condition on a step: no call is made after an attempt has failed. -/
def NotAfterFailure (s : Socket) (l : SocketLabel) : Prop := ∀ c, l = .connect c → ¬ s.Failed

/-- The flags and the history: there is one attempt at most. -/
inductive Socket.Shape : Socket → Prop
  | idle (kind) : Shape ⟨kind, false, false, []⟩
  | connecting (kind) : Shape ⟨kind, true, false, [none]⟩
  | connected (kind) (status : Int) : Shape ⟨kind, false, true, [some status]⟩

variable {uv}

/-- No error on the way to libuv is the refusal. -/
theorem Tcp.request_ne (uv : UvAddr) (ip : String) (port version answer : Int) :
    Tcp.request uv ip port version answer ≠ .error alreadyConnected := by
  have haddress (e : FutureError) (h : Tcp.address uv ip port version = .error e) :
      e ≠ alreadyConnected := by
    unfold Tcp.address at h
    split at h
    · cases h
    · split at h <;> cases h
      decide
  unfold request
  split
  · rename_i e he
    exact fun h => haddress e he (Except.error.inj h)
  · split
    · simp [alreadyConnected]
    · split <;> simp [alreadyConnected]

/-- The calls of both classes are requests. -/
theorem Socket.connect_eq {s : Socket} {c : ConnectCall} {r : Called × Socket}
    (h : s.connect uv c = some r) :
    ∃ request, r = s.request request ∧ request ≠ .error alreadyConnected := by
  cases c with
  | tcp ip port version answer =>
    rw [connect, Option.ite_none_right_eq_some] at h
    obtain ⟨-, h⟩ := h
    cases h
    exact ⟨_, rfl, Tcp.request_ne uv ip port version answer⟩
  | pipe name =>
    rw [connect, Option.ite_none_right_eq_some] at h
    obtain ⟨-, h⟩ := h
    cases h
    exact ⟨.ok (), rfl, by rintro ⟨⟩⟩

/-- What a request does in each shape. -/
theorem Socket.request_of_busy {s : Socket} (h : s.connected = true ∨ s.connecting = true)
    (request : Except FutureError Unit) : s.request request = (.rejected alreadyConnected, s) := by
  unfold Socket.request
  rw [if_pos (Bool.or_eq_true _ _ ▸ h)]

/-- A connect on a socket that is open and has no request. -/
theorem Socket.request_idle (kind : SocketKind) (request : Except FutureError Unit) :
    Socket.request ⟨kind, false, false, []⟩ request =
      match request with
      | .error e => (.rejected e, ⟨kind, false, false, []⟩)
      | .ok () => (.pending, ⟨kind, true, false, [none]⟩) := by
  cases request <;> rfl

/-- A step keeps the shape. -/
theorem Socket.Shape.step {s s' : Socket} {l : SocketLabel} (h : s.Shape)
    (hstep : socketStep uv s l = some s') : s'.Shape := by
  cases l with
  | connect c =>
    obtain ⟨r, hr, rfl⟩ := Option.map_eq_some_iff.1 hstep
    obtain ⟨request, rfl, -⟩ := Socket.connect_eq hr
    cases h with
    | idle kind =>
      rw [Socket.request_idle]
      rcases request with e | -
      · exact .idle kind
      · exact .connecting kind
    | connecting kind =>
      rw [Socket.request_of_busy (.inr rfl)]
      exact .connecting kind
    | connected kind status =>
      rw [Socket.request_of_busy (.inl rfl)]
      exact .connected kind status
  | complete i status =>
    rw [socketStep, Option.ite_none_right_eq_some] at hstep
    obtain ⟨hi, hs'⟩ := hstep
    cases hs'
    cases h with
    | idle kind => cases hi
    | connecting kind =>
      cases i with
      | zero => exact .connected kind status
      | succ i => cases hi
    | connected kind st =>
      cases i with
      | zero => cases hi
      | succ i => cases hi

/-- A call does what it should exactly when it is not made after a failure. -/
theorem Socket.Shape.step_iff {s s' : Socket} {l : SocketLabel} (h : s.Shape)
    (hstep : socketStep uv s l = some s') : NotAfterFailure s l ↔ RefusesInUse uv s l s' := by
  cases l with
  | connect c =>
    obtain ⟨r, hr, -⟩ := Option.map_eq_some_iff.1 hstep
    obtain ⟨request, rfl, hne⟩ := Socket.connect_eq hr
    have hcond : NotAfterFailure s (.connect c) ↔ ¬ s.Failed :=
      ⟨fun h => h c rfl, fun h _ _ => h⟩
    have hdoes : RefusesInUse uv s (.connect c) s' ↔
        ((s.request request).1 = .rejected alreadyConnected ↔ s.InUse) := by
      refine ⟨fun h => h c rfl _ hr, fun h c' hc r' hr' => ?_⟩
      cases hc
      cases hr.symm.trans hr'
      exact h
    rw [hcond, hdoes]
    cases h with
    | idle kind =>
      have hrefused : ¬ (Socket.request ⟨kind, false, false, []⟩ request).1 =
          .rejected alreadyConnected := by
        rw [Socket.request_idle]
        rcases request with e | -
        · intro he
          cases he
          exact hne rfl
        · rintro ⟨⟩
      simp [Socket.Failed, Socket.InUse, hrefused]
    | connecting kind =>
      rw [Socket.request_of_busy (.inr rfl)]
      simp [Socket.Failed, Socket.InUse]
    | connected kind status =>
      rw [Socket.request_of_busy (.inl rfl)]
      simp [Socket.Failed, Socket.InUse, eq_comm]
  | complete i status =>
    exact iff_of_true (by rintro c ⟨⟩) (by rintro c ⟨⟩)

/-- In a run of a `Tcp` or a `Pipe` every call of `connect` is refused when an attempt is in progress or
has succeeded, and only then, if and only if no call is made after an attempt has failed. Source:
`net/Tcp.cpp:68-118`, `Pipe.cpp:48-77`. -/
theorem connect_refused_iff (kind : SocketKind) {ls : List SocketLabel} {s : Socket}
    (h : run (socketStep uv) ⟨kind, false, false, []⟩ ls = some s) :
    Along (socketStep uv) NotAfterFailure ⟨kind, false, false, []⟩ ls ↔
      ∀ ls₀ l ls₁ m m', ls = ls₀ ++ l :: ls₁ →
        run (socketStep uv) ⟨kind, false, false, []⟩ ls₀ = some m →
        socketStep uv m l = some m' → RefusesInUse uv m l m' := by
  have hiff (s : Socket) (l : SocketLabel) (s' : Socket) (hs : s.Shape)
      (hstep : socketStep uv s l = some s') : NotAfterFailure s l ↔ RefusesInUse uv s l s' :=
    hs.step_iff hstep
  exact along_iff hiff (fun _ _ _ _ hs hstep => hs.step hstep) (.idle kind) h

end

/-- Every address is good. -/
def anyAddr : UvAddr := ⟨fun _ _ => 0, fun _ _ => 0⟩

/-- A call of `connect` on a local address, which libuv takes. -/
def localCall : SocketKind → ConnectCall
  | .tcp => .tcp "127.0.0.1" 80 4 0
  | .pipe => .pipe "socket"

/-- A second call, after an attempt that has succeeded, is refused as it should be. -/
theorem connect_refused_after_success :
    ∃ m m', run (socketStep anyAddr) ⟨.tcp, false, false, []⟩
        [.connect (localCall .tcp), .complete 0 0] = some m ∧
      socketStep anyAddr m (.connect (localCall .tcp)) = some m' ∧
      RefusesInUse anyAddr m (.connect (localCall .tcp)) m' := by
  have hrun : run (socketStep anyAddr) ⟨.tcp, false, false, []⟩
      [.connect (localCall .tcp), .complete 0 0, .connect (localCall .tcp)] =
      some ⟨.tcp, false, true, [some 0]⟩ := rfl
  refine ⟨⟨.tcp, false, true, [some 0]⟩, ⟨.tcp, false, true, [some 0]⟩, rfl, rfl,
    (connect_refused_iff .tcp hrun).1 (.cons ?_ rfl (.cons ?_ rfl (.cons ?_ rfl trivial)))
      [.connect (localCall .tcp), .complete 0 0] _ [] _ _ rfl rfl rfl⟩
  · rintro c - ⟨status, -, hmem⟩
    cases hmem
  · rintro c ⟨⟩
  · rintro c - ⟨status, hne, hmem⟩
    cases hmem with
    | head => exact hne rfl
    | tail _ hmem => cases hmem

/-- After an attempt that has failed a call is refused, though the socket is not in use. -/
theorem connect_refused_after_failure :
    (∃ s, run (socketStep anyAddr) ⟨.tcp, false, false, []⟩
        [.connect (localCall .tcp), .complete 0 (-111)] = some s ∧
      s.connect anyAddr (localCall .tcp) = some (.rejected alreadyConnected, s) ∧ ¬ s.InUse) ∧
    ∃ s, run (socketStep anyAddr) ⟨.pipe, false, false, []⟩
        [.connect (localCall .pipe), .complete 0 (-2)] = some s ∧
      s.connect anyAddr (localCall .pipe) = some (.rejected alreadyConnected, s) ∧ ¬ s.InUse := by
  refine ⟨⟨⟨.tcp, false, true, [some (-111)]⟩, rfl, rfl, ?_⟩,
    ⟨⟨.pipe, false, true, [some (-2)]⟩, rfl, rfl, ?_⟩⟩ <;> simp [Socket.InUse]

end NodeNative.Net
