import NodeNative.Http.Connection

/-!
# Closing a connection

`ServerConnection::close` is called in three places: on a read that fails with `UV_ECONNRESET`, on
one that the parser does not accept, and when the end of a response that does not keep the connection
alive is written. No other step closes the socket, and none opens it again.
-/

namespace NodeNative.Http

section
variable {P : HttpParser} {env : Env} {s s' : Connection P}

/-- The parser stops inside the data, and it is no upgrade. Source: `ServerConnection.cpp:108`. -/
def Connection.invalid (env : Env) (s : Connection P) (buf : Str) : Bool :=
  match (s.currentRequest env).parse buf with
  | .error _ => false
  | .ok (parsed, req) => !req.upgrade && parsed != buf.length

/-- The step calls `close()`. Source: `ServerConnection.cpp:89`, `ServerConnection.cpp:111`,
`ServerResponse.cpp:58`. -/
def Connection.Closes (env : Env) (s : Connection P) : Label → Prop
  | .read buf => s.invalid env buf = true
  | .readError e => e = .connReset
  | .written _ ok => ok = true ∧ ∃ res, s.response = some res ∧ res.shouldKeepAlive = false
  | _ => False

instance (env : Env) (s : Connection P) : ∀ lab, Decidable (s.Closes env lab)
  | .read buf => inferInstanceAs (Decidable (s.invalid env buf = true))
  | .readError e => inferInstanceAs (Decidable (e = .connReset))
  | .written _ ok => decidable_of_iff
      (ok = true ∧ (s.response.any fun res => !res.shouldKeepAlive) = true)
      (by simp [Connection.Closes, Option.any_eq_true])
  | .reply .. | .handlerReturn .. | .settle .. | .settleEnd .. | .next _ | .error _ => .isFalse id

@[simp] theorem Connection.getRequest_closed (s : Connection P) :
    (s.getRequest env).closed = s.closed := by
  unfold Connection.getRequest
  split <;> rfl

@[simp] theorem Connection.getResponse_closed (s : Connection P) :
    (s.getResponse env).closed = s.closed := by
  unfold Connection.getResponse
  split
  · rfl
  · exact s.getRequest_closed

@[simp] theorem Connection.setChain_closed (s : Connection P) (c : Nat) (chain : Chain) :
    (s.setChain c chain).closed = s.closed := rfl

@[simp] theorem Connection.sendEnd_closed (s : Connection P) (who : Option Nat) (reply : Reply) :
    (s.sendEnd env who reply).closed = s.closed := by
  unfold Connection.sendEnd
  dsimp only
  split
  · exact s.getResponse_closed
  · exact s.getResponse_closed

@[simp] theorem Connection.processRequest_closed (s : Connection P) :
    (s.processRequest env).closed = s.closed := s.getRequest_closed

@[simp] theorem Connection.notFound_closed (s : Connection P) (c : Nat) :
    (s.notFound env c).closed = s.closed := by
  unfold Connection.notFound
  split <;> simp

@[simp] theorem Connection.internalError_closed (s : Connection P) (c : Nat) (e : FutureError) :
    (s.internalError env c e).closed = s.closed := by
  unfold Connection.internalError
  split <;> simp

@[simp] theorem Connection.onNext_closed (s : Connection P) (c : Nat) (chain : Chain) :
    (s.onNext env c chain).closed = s.closed := by
  unfold Connection.onNext
  split
  · simp
  · dsimp only
    split <;> simp

/-- Data close the connection when they are not accepted. -/
theorem Connection.onRead_closed (s : Connection P) (buf : Str) :
    (s.onRead env buf).closed = (s.closed || s.invalid env buf) := by
  have hif : ∀ (b : Bool) (k : Connection P),
      (if b = true then k.processRequest env else k).closed = k.closed := by
    intro b k
    split <;> simp
  unfold Connection.onRead Connection.invalid
  cases hparse : (s.currentRequest env).parse buf with
  | error e => simp
  | ok r =>
    dsimp only
    rw [hif]
    split
    · rename_i hinvalid
      simp [Connection.close, hinvalid]
    · rename_i hvalid
      simp [hvalid]

/-- Of the errors only a reset does. -/
theorem Connection.onReadError_closed (s : Connection P) (e : ReadError) :
    (s.onReadError env e).closed = (s.closed || decide (e = .connReset)) := by
  cases e with
  | eof => simp [Connection.onReadError]
  | connReset => simp [Connection.onReadError, Connection.close]
  | other name =>
    simp only [Connection.onReadError]
    split <;> simp

/-- A write that is done closes it when the response does not keep it alive. -/
theorem Connection.onWritten_closed (s : Connection P) (w : Nat) :
    (s.onWritten w).closed = true ↔
      s.closed = true ∨ ∃ res, s.response = some res ∧ res.shouldKeepAlive = false := by
  unfold Connection.onWritten
  split
  · rename_i hnone
    simp [hnone]
  · rename_i res hres
    dsimp only
    split
    · rename_i halive
      simp [hres, halive]
    · rename_i hclose
      simp [hres, hclose, Connection.close]

/-- After a step the socket is closing if it was before, or if the step calls `close()`. -/
theorem step_closed_iff {lab : Label} (h : step env s lab = some s') :
    s'.closed = true ↔ s.closed = true ∨ s.Closes env lab := by
  cases step_cases env h with
  | read buf => simp [Connection.onRead_closed, Connection.Closes]
  | readError e => simp [Connection.onReadError_closed, Connection.Closes]
  | written w => simp [Connection.onWritten_closed, Connection.Closes]
  | reply | returns | throws | settle | settleEnd | next | error | writeFailed =>
    simp [Connection.Closes]

end

end NodeNative.Http
