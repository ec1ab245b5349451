import NodeNative.Http.Reading

/-!
# Answering requests

What the chains of a connection write to it. A response is handed over once, so a second header
block of one chain needs a second response, which exists only after the first has been written and
dropped: `one_header_block` holds in runs in which this happens to chains that are finished. An
assertion of `OutgoingMessage` fails when a response is ended that something else has ended:
`no_failed_assertion` holds in runs in which requests are processed one after the other.
-/

namespace NodeNative.Http

open Transition

section
variable {P : HttpParser} (env : Env)

/-! ### The effect of `end` -/

/-- The connection has a response that is ended. -/
def Connection.Answered (s : Connection P) : Prop := ∃ res, s.response = some res ∧ res.Ended

/-- What a handler sets on a response leaves its progress as it is. -/
theorem Reply.prepare_eq (reply : Reply) (r : ServerResponse) :
    ∃ headers statusCode, reply.prepare r = { r with headers, statusCode } := by
  have hheaders : ∀ (es : Headers) (r : ServerResponse), ∃ headers,
      es.foldl (fun r e => r.setHeader e.1 e.2) r = { r with headers } := by
    intro es
    induction es with
    | nil => exact fun r => ⟨r.headers, rfl⟩
    | cons e es ih =>
      intro r
      obtain ⟨headers, hh⟩ := ih (r.setHeader e.1 e.2)
      exact ⟨headers, by rw [List.foldl_cons, hh]; rfl⟩
  obtain ⟨headers, hh⟩ := hheaders reply.headers (reply.statusCode.elim r r.setStatus)
  rw [prepare, hh]
  cases reply.statusCode with
  | none => exact ⟨headers, r.statusCode, rfl⟩
  | some statusCode => exact ⟨headers, statusCode, rfl⟩

/-- What a handler sets leaves a response unsent, -/
theorem ServerResponse.Unsent.prepare {r : ServerResponse} (h : r.Unsent) (reply : Reply) :
    (reply.prepare r).Unsent := by
  obtain ⟨headers, statusCode, heq⟩ := reply.prepare_eq r
  rw [heq]
  exact ⟨h.headerSent, h.closed, h.sent, h.last⟩

/-- or ended, as it was. -/
theorem ServerResponse.Ended.prepare {r : ServerResponse} (h : r.Ended) (reply : Reply) :
    (reply.prepare r).Ended := by
  obtain ⟨headers, statusCode, heq⟩ := reply.prepare_eq r
  rw [heq]
  exact ⟨h.closed, h.sent⟩

@[simp] theorem Connection.getResponse_response (s : Connection P) :
    (s.getResponse env).response = some (s.currentResponse env) := by
  cases h : s.response <;> simp [getResponse, currentResponse, h]

@[simp] theorem Connection.getResponse_chains (s : Connection P) :
    (s.getResponse env).chains = s.chains := by
  cases h : s.response <;> simp [getResponse, h]

@[simp] theorem Connection.getResponse_wire (s : Connection P) :
    (s.getResponse env).wire = s.wire := by
  cases h : s.response <;> simp [getResponse, h]

@[simp] theorem Connection.getResponse_crashed (s : Connection P) :
    (s.getResponse env).crashed = s.crashed := by
  cases h : s.response <;> simp [getResponse, h]

/-- The response that `getResponse()` returns is ended when there is one that is. -/
theorem Connection.Answered.currentResponse {s : Connection P} (h : s.Answered) :
    (s.currentResponse env).Ended := by
  obtain ⟨res, hres, hended⟩ := h
  rw [Connection.currentResponse, hres]
  exact hended

/-- A response that is ended is not replaced by `getResponse`. -/
theorem Connection.Answered.getResponse {s : Connection P} (h : s.Answered) :
    (s.getResponse env).Answered := ⟨_, getResponse_response env s, h.currentResponse env⟩

/-- `end` fails with an assertion, or it hands over a response that was not ended before. -/
theorem Connection.sendEnd_cases (s : Connection P) (who : Option Nat) (reply : Reply) :
    (s.sendEnd env who reply).chains = s.chains ∧
    ((s.sendEnd env who reply).wire = s.wire ∧ (s.Answered → (s.sendEnd env who reply).Answered) ∨
      ¬ s.Answered ∧ (s.sendEnd env who reply).Answered ∧
        ∃ packet, (s.sendEnd env who reply).wire = s.wire ++ [(who, packet)]) := by
  simp only [sendEnd]
  cases hend : (reply.prepare (s.currentResponse env)).endData reply.data with
  | error e =>
    refine ⟨getResponse_chains env s, .inl ⟨getResponse_wire env s, fun h => ?_⟩⟩
    exact ⟨_, rfl, (h.currentResponse env).prepare reply⟩
  | ok res =>
    refine ⟨getResponse_chains env s, .inr ⟨fun h => ?_, ⟨_, rfl, ?_⟩, res.2, ?_⟩⟩
    · -- an ended response cannot be ended again
      rw [((h.currentResponse env).prepare reply).endData] at hend
      cases hend
    · simp only [ServerResponse.endData] at hend
      split at hend
      · cases hend
      · split at hend
        · cases hend
        · split at hend
          · cases hend
          · cases hend
            exact ⟨rfl, rfl⟩
    · simp

/-- `end` on a response that has not been sent. -/
theorem Connection.sendEnd_of_unsent {s : Connection P} (h : (s.currentResponse env).Unsent)
    (who : Option Nat) (reply : Reply) :
    (s.sendEnd env who reply).crashed = s.crashed ∧ (s.sendEnd env who reply).chains = s.chains ∧
      (s.sendEnd env who reply).Answered := by
  obtain ⟨res, header, hend, hended⟩ := (h.prepare reply).endData reply.data
  simp only [sendEnd, hend]
  exact ⟨getResponse_crashed env s, getResponse_chains env s, res, rfl, hended⟩

/-! ### At most one header block -/

/-- The header blocks that the chain of the call number `c` of `processRequest` has written. -/
def Connection.headerBlocks (s : Connection P) (c : Nat) : Nat :=
  s.wire.countP fun e => e.1 == some c && e.2.header.isSome

/-- The handler number `i` of the chain is the last one called, and its future is pending or it is
on the stack. -/
def Chain.Active (chain : Chain) (i : Nat) : Prop :=
  chain.calls.length = i + 1 ∧ (chain.isRunning = true ∨ chain.phase = .waiting)

/-- The condition on a step: a handler ends the response while its future is pending, and a written
response is dropped when the chains that have written one are finished. -/
def DropsLate (s : Connection P) : Label → Prop
  | .reply c i _ => ∀ chain, s.chains[c]? = some chain → chain.Active i
  | .written _ ok => ok = true → ∀ res, s.response = some res → res.shouldKeepAlive = true →
    ∀ c chain, s.chains[c]? = some chain → 0 < s.headerBlocks c → chain.phase = .finished
  | _ => True

/-- What a run keeps: while a chain that has written a response goes on, that response is there. -/
structure OneBlock (s : Connection P) : Prop where
  le : ∀ c, s.headerBlocks c ≤ 1
  none : ∀ c, s.chains.length ≤ c → s.headerBlocks c = 0
  held : ∀ c chain, s.chains[c]? = some chain → 0 < s.headerBlocks c → chain.phase ≠ .finished →
    s.Answered

/-- Chains may start and go on as long as nothing is written and an ended response stays. -/
theorem OneBlock.mono {s s' : Connection P} (h : OneBlock s) (hwire : s'.wire = s.wire)
    (hlen : s.chains.length ≤ s'.chains.length)
    (hchains : ∀ c chain', c < s.chains.length → s'.chains[c]? = some chain' →
      chain'.phase ≠ .finished → ∃ chain, s.chains[c]? = some chain ∧ chain.phase ≠ .finished)
    (hans : s.Answered → s'.Answered) : OneBlock s' := by
  have hblocks : ∀ c, s'.headerBlocks c = s.headerBlocks c := by
    intro c
    rw [Connection.headerBlocks, hwire, Connection.headerBlocks]
  refine ⟨fun c => by rw [hblocks]; exact h.le c, fun c hc => ?_, fun c chain' hc hpos hphase => ?_⟩
  · rw [hblocks]
    exact h.none c (Nat.le_trans hlen hc)
  · rw [hblocks] at hpos
    by_cases hlt : c < s.chains.length
    · obtain ⟨chain, hchain, hunf⟩ := hchains c chain' hlt hc hphase
      exact hans (h.held c chain hchain hpos hunf)
    · rw [h.none c (Nat.le_of_not_lt hlt)] at hpos
      exact absurd hpos (Nat.lt_irrefl 0)

/-- A step that leaves the chains alone. -/
theorem OneBlock.congr {s s' : Connection P} (h : OneBlock s) (hwire : s'.wire = s.wire)
    (hchains : s'.chains = s.chains) (hans : s.Answered → s'.Answered) : OneBlock s' := by
  refine h.mono hwire (by rw [hchains]) ?_ hans
  intro c chain' _ hc hphase
  rw [hchains] at hc
  exact ⟨chain', hc, hphase⟩

/-- A chain that is not finished goes on. -/
theorem OneBlock.setChain {s : Connection P} (h : OneBlock s) {c : Nat} {chain chain' : Chain}
    (hchain : s.chains[c]? = some chain) (hphase : chain.phase ≠ .finished) :
    OneBlock (s.setChain c chain') := by
  refine h.mono rfl (by simp [Connection.setChain]) ?_ id
  intro c₁ chain₁ _ hc₁ hunf
  by_cases heq : c₁ = c
  · subst heq
    exact ⟨chain, hchain, hphase⟩
  · rw [Connection.setChain, List.getElem?_set_ne (Ne.symm heq)] at hc₁
    exact ⟨chain₁, hc₁, hunf⟩

/-- A chain that is not finished ends a response. -/
theorem OneBlock.sendEnd {s : Connection P} (h : OneBlock s) {who : Option Nat}
    (hwho : ∀ c, who = some c → ∃ chain, s.chains[c]? = some chain ∧ chain.phase ≠ .finished)
    (reply : Reply) : OneBlock (s.sendEnd env who reply) := by
  obtain ⟨hchains, ⟨hwire, hans⟩ | ⟨hnot, hans, packet, hwire⟩⟩ := s.sendEnd_cases env who reply
  · exact h.congr hwire hchains hans
  · have hzero : ∀ c, who = some c → s.headerBlocks c = 0 := by
      intro c hc
      obtain ⟨chain, hchain, hphase⟩ := hwho c hc
      by_contra hne
      exact hnot (h.held c chain hchain (Nat.pos_of_ne_zero hne) hphase)
    have hblocks : ∀ c, (s.sendEnd env who reply).headerBlocks c ≤
        s.headerBlocks c + if who = some c then 1 else 0 := by
      intro c
      rw [Connection.headerBlocks, hwire, List.countP_append, Connection.headerBlocks]
      by_cases hc : who = some c
      · rw [if_pos hc]
        exact Nat.add_le_add_left List.countP_le_length _
      · simp [hc]
    refine ⟨fun c => ?_, fun c hc => ?_, fun c chain hc hpos hphase => hans⟩
    · have hle := h.le c
      have hb := hblocks c
      by_cases hc : who = some c
      · rw [if_pos hc, hzero c hc] at hb
        exact hb
      · rw [if_neg hc] at hb
        omega
    · rw [hchains] at hc
      have hne : who ≠ some c := by
        rintro rfl
        obtain ⟨chain, hchain, -⟩ := hwho c rfl
        exact absurd (List.getElem?_eq_some_iff.1 hchain).1 (by omega)
      have hb := hblocks c
      rw [if_neg hne, h.none c hc] at hb
      omega

/-- The callbacks behind `execute` and the read callback ask whether the response is sent. -/
theorem OneBlock.getResponse {s : Connection P} (h : OneBlock s) : OneBlock (s.getResponse env) :=
  h.congr (Connection.getResponse_wire env s) (Connection.getResponse_chains env s)
    (Connection.Answered.getResponse env)

/-- The answers behind a chain are kept by the 404 callback, -/
theorem OneBlock.notFound {s : Connection P} (h : OneBlock s) {c : Nat} {chain : Chain}
    (hchain : s.chains[c]? = some chain) (hphase : chain.phase ≠ .finished) :
    OneBlock (s.notFound env c) := by
  simp only [Connection.notFound]
  split
  · exact h.getResponse env
  · exact h.sendEnd env (fun c' hc' => by cases hc'; exact ⟨chain, hchain, hphase⟩) _

/-- the error callback, -/
theorem OneBlock.internalError {s : Connection P} (h : OneBlock s) {c : Nat} {chain : Chain}
    (hchain : s.chains[c]? = some chain) (hphase : chain.phase ≠ .finished) (e : FutureError) :
    OneBlock (s.internalError env c e) := by
  simp only [Connection.internalError]
  split
  · exact h.getResponse env
  · exact h.sendEnd env (fun c' hc' => by cases hc'; exact ⟨chain, hchain, hphase⟩) _

@[simp] theorem Connection.notFound_chains (s : Connection P) (c : Nat) :
    (s.notFound env c).chains = s.chains := by
  simp only [notFound]
  split
  · exact getResponse_chains env s
  · exact (s.sendEnd_cases env _ _).1

@[simp] theorem Connection.internalError_chains (s : Connection P) (c : Nat) (e : FutureError) :
    (s.internalError env c e).chains = s.chains := by
  simp only [internalError]
  split
  · exact getResponse_chains env s
  · exact (s.sendEnd_cases env _ _).1

/-- What a read does to the responses and the chains: at most it starts a chain. -/
theorem Connection.onRead_chains (s : Connection P) (buf : Str) :
    (s.onRead env buf).response = s.response ∧ (s.onRead env buf).wire = s.wire ∧
      ((s.onRead env buf).chains = s.chains ∨
        ∃ entries, (s.onRead env buf).chains = s.chains ++ [Chain.start entries]) := by
  simp only [onRead]
  split
  · simp
  · split <;> split <;> simp [processRequest, close]

/-- the read callback on data, -/
theorem OneBlock.onRead {s : Connection P} (h : OneBlock s) (buf : Str) :
    OneBlock (s.onRead env buf) := by
  obtain ⟨hres, hwire, hchains⟩ := s.onRead_chains env buf
  have hans : s.Answered → (s.onRead env buf).Answered := by
    rintro ⟨res, hr, hended⟩
    exact ⟨res, by rw [hres, hr], hended⟩
  rcases hchains with hchains | ⟨entries, hchains⟩
  · exact h.congr hwire hchains hans
  · refine h.mono hwire (by simp [hchains]) ?_ hans
    intro c chain' hlt hc hphase
    rw [hchains, List.getElem?_append_left hlt] at hc
    exact ⟨chain', hc, hphase⟩

/-- that on an error, -/
theorem OneBlock.onReadError {s : Connection P} (h : OneBlock s) (e : ReadError) :
    OneBlock (s.onReadError env e) := by
  cases e with
  | eof => exact h
  | connReset => exact h.congr rfl rfl id
  | other name =>
    simp only [Connection.onReadError]
    split
    · exact h.getResponse env
    · exact h.sendEnd env (fun c hc => by cases hc) _

/-- and the next callback of the chain. -/
theorem OneBlock.onNext {s : Connection P} (h : OneBlock s) {c : Nat} {chain : Chain}
    (hchain : s.chains[c]? = some chain) (hphase : chain.phase = .ready) :
    OneBlock (s.onNext env c chain) := by
  have hunf : chain.phase ≠ .finished := by simp [hphase]
  have hget : (s.getResponse env).chains[c]? = some chain := by simpa using hchain
  simp only [Connection.onNext]
  split
  · exact (h.notFound env hchain hunf).setChain (by simpa using hchain) hunf
  · split <;> exact (h.getResponse env).setChain hget hunf

/-- A written response is dropped when the condition allows it. -/
theorem OneBlock.onWritten {s : Connection P} (h : OneBlock s) {w : Nat}
    (hok : DropsLate s (.written w true)) : OneBlock (s.onWritten w) := by
  simp only [Connection.onWritten]
  split
  · exact h.congr rfl rfl id
  · rename_i res hres
    split
    · rename_i hkeep
      refine ⟨h.le, h.none, fun c chain hc hpos hphase => ?_⟩
      exact absurd (hok rfl res hres hkeep c chain hc hpos) hphase
    · exact h.congr rfl rfl id

/-- Every step that meets the condition keeps the invariant. -/
theorem OneBlock.step {s s' : Connection P} {l : Label} (h : OneBlock s) (hok : DropsLate s l)
    (hstep : step env s l = some s') : OneBlock s' := by
  cases step_cases env hstep with
  | read buf => exact h.onRead env buf
  | readError e => exact h.onReadError env e
  | @reply c i chain reply hchain =>
    have hunf : chain.phase ≠ .finished := by
      intro hfin
      rcases (hok chain hchain).2 with hrun | hwait
      · simp [Chain.isRunning, hfin] at hrun
      · simp [hfin] at hwait
    refine (h.sendEnd env (fun c' hc' => by cases hc'; exact ⟨chain, hchain, hunf⟩) _).setChain ?_ hunf
    rw [(s.sendEnd_cases env _ _).1]
    exact hchain
  | returns _ hchain hphase => exact h.setChain hchain (by simp [hphase])
  | throws => exact h.congr rfl rfl id
  | settle _ _ hchain hphase => exact h.setChain hchain (by simp [hphase])
  | settleEnd _ _ hchain hphase => exact h.setChain hchain (by simp [hphase])
  | next _ hchain hphase => exact h.onNext env hchain hphase
  | @error c chain e _ hchain hphase =>
    have hunf : chain.phase ≠ .finished := by simp [hphase]
    exact (h.internalError env hchain hunf _).setChain (by simpa using hchain) hunf
  | written w => exact h.onWritten hok
  | writeFailed w => exact h.congr rfl rfl id

/-- In a run whose steps all meet the condition, at most one header block is written for each call
of `processRequest`. -/
theorem one_header_block (ls : List Label) (s : Connection P)
    (hrun : run (step env) (Connection.start env) ls = some s)
    (hok : Along (step env) DropsLate (Connection.start env : Connection P) ls) (c : Nat) :
    s.headerBlocks c ≤ 1 := by
  have hstart : OneBlock (Connection.start env : Connection P) :=
    ⟨fun _ => Nat.zero_le _, fun _ _ => rfl, fun c chain hc => by simp [Connection.start] at hc⟩
  have hstep : ∀ s l s', DropsLate s l → OneBlock s → step env s l = some s' →
      OneBlock (P := P) s' :=
    fun s l s' hok h hstep => h.step env hok hstep
  exact (run_invariant_along hstep hok hstart hrun).le c

end

/-- A server whose only handler matches every request. -/
def oneHandler : Env := ⟨fun _ => false, fun _ _ => [.handler]⟩

def getRootText : Str := "GET / HTTP/1.1\r\n\r\n".toList

/-- A handler ends its response and returns, the chain finds the response sent, and the response is
dropped when it has been written. -/
theorem one_header_block_kept :
    ∃ s : Connection twoRootsParser, run (step oneHandler) (Connection.start oneHandler)
        [.read getRootText, .reply 0 0 ⟨none, [], "ok".toList⟩, .handlerReturn 0 .resolved, .next 0,
          .written 0 true] = some s ∧ s.headerBlocks 0 ≤ 1 := by
  obtain ⟨s, hs⟩ : ∃ s : Connection twoRootsParser, run (step oneHandler)
      (Connection.start oneHandler) [.read getRootText, .reply 0 0 ⟨none, [], "ok".toList⟩,
        .handlerReturn 0 .resolved, .next 0, .written 0 true] = some s := ⟨_, rfl⟩
  refine ⟨s, hs, one_header_block oneHandler _ s hs ?_ 0⟩
  refine ⟨trivial, fun s₁ h₁ => ⟨?_, fun s₂ h₂ => ⟨trivial, fun s₃ h₃ => ⟨trivial, fun s₄ h₄ =>
    ⟨?_, fun _ _ => trivial⟩⟩⟩⟩⟩
  · cases h₁
    intro chain hchain
    cases hchain
    exact ⟨rfl, .inl rfl⟩
  · cases h₁
    cases h₂
    cases h₃
    cases h₄
    intro _ res _ _ c chain hchain _
    rcases c with _ | c
    · cases hchain
      rfl
    · cases hchain

/-- A handler that returns the future of `end` goes on with a new response: the 404 callback writes
a second header block. -/
theorem second_header_block : ¬ ∀ (P : HttpParser) (env : Env) (ls : List Label) (s : Connection P),
    run (step env) (Connection.start env) ls = some s → ∀ c, s.headerBlocks c ≤ 1 := by
  intro h
  obtain ⟨s, hs⟩ : ∃ s : Connection twoRootsParser, run (step oneHandler)
      (Connection.start oneHandler) [.read getRootText, .reply 0 0 ⟨none, [], "ok".toList⟩,
        .handlerReturn 0 .endFuture, .written 0 true, .settleEnd 0 ⟨""⟩, .next 0] = some s :=
    ⟨_, rfl⟩
  have hle := h twoRootsParser oneHandler _ s hs 0
  have htwo : s.headerBlocks 0 = 2 := by
    cases hs
    rfl
  omega

section
variable {P : HttpParser} (env : Env)

/-! ### No failed assertion -/

/-- The last handler called has not ended a response yet, and it still may. -/
def Chain.Owes (chain : Chain) : Prop :=
  chain.calls.getLast? = some none ∧ (chain.isRunning = true ∨ chain.phase = .waiting)

/-- The message is one that a read of `buf` gives to `processRequest`. -/
def Connection.Dispatches (s : Connection P) (buf : Str) : Prop :=
  ∃ parsed m, (s.currentRequest env).parse buf = .ok (parsed, m) ∧
    (m.upgrade || m.messageComplete) = true

/-- The condition on a step: a request is processed when the chains before it are finished and no
response is ended, an invalid read is not answered while a handler is to answer, and a handler ends
the response while its future is pending. -/
def OneByOne (s : Connection P) : Label → Prop
  | .read buf => s.Dispatches env buf →
    (∀ chain ∈ s.chains, chain.phase = .finished) ∧ ¬ s.Answered
  | .readError (.other _) => ∀ chain ∈ s.chains, ¬ chain.Owes
  | .reply c i _ => ∀ chain, s.chains[c]? = some chain → chain.Active i
  | _ => True

/-- What a run keeps: a response is unsent or ended, one chain goes on at a time, and no response is
ended while its handler may end one. -/
structure OneOwner (s : Connection P) : Prop where
  crash : ∀ e, s.crashed ≠ some (.response e)
  shape : ∀ res, s.response = some res → res.Unsent ∨ res.Ended
  single : ∀ (c c' : Nat) (chain chain' : Chain), s.chains[c]? = some chain → s.chains[c']? = some chain' →
    chain.phase ≠ .finished → chain'.phase ≠ .finished → c = c'
  owed : ∀ (c : Nat) (chain : Chain), s.chains[c]? = some chain → chain.Owes → ¬ s.Answered

/-- A chain whose handler is to answer is not finished. -/
theorem Chain.Owes.ne_finished {chain : Chain} (h : chain.Owes) : chain.phase ≠ .finished := by
  intro hfin
  rcases h.2 with hrun | hwait
  · simp [isRunning, hfin] at hrun
  · simp [hfin] at hwait

/-- The response that `getResponse()` returns is unsent when none is ended. -/
theorem OneOwner.currentResponse {s : Connection P} (h : OneOwner s) (hnot : ¬ s.Answered) :
    (s.currentResponse env).Unsent := by
  rw [Connection.currentResponse]
  cases hres : s.response with
  | none => exact ServerResponse.unsent_new _
  | some res =>
    rcases h.shape res hres with hu | he
    · exact hu
    · exact absurd ⟨res, hres, he⟩ hnot

/-- The response is unsent when `isSent()` says so. -/
theorem OneOwner.unsent_of_sent {s : Connection P} (h : OneOwner s)
    (hsent : ¬ (s.currentResponse env).sent = true) : (s.currentResponse env).Unsent ∧ ¬ s.Answered := by
  have hnot : ¬ s.Answered := fun ha => hsent (ha.currentResponse env).sent
  exact ⟨h.currentResponse env hnot, hnot⟩

/-- `getResponse()` does not end a response. -/
theorem OneOwner.getResponse {s : Connection P} (h : OneOwner s) :
    OneOwner (s.getResponse env) ∧ ((s.getResponse env).Answered → s.Answered) := by
  have hans : (s.getResponse env).Answered → s.Answered := by
    rintro ⟨res, hres, hended⟩
    rw [Connection.getResponse_response] at hres
    cases hres
    by_contra hnot
    have hsent := (h.currentResponse env hnot).sent
    rw [hended.sent] at hsent
    cases hsent
  refine ⟨⟨fun e => ?_, fun res hres => ?_, ?_, fun c chain hc howes ha => ?_⟩, hans⟩
  · rw [Connection.getResponse_crashed]
    exact h.crash e
  · rw [Connection.getResponse_response] at hres
    cases hres
    by_cases ha : s.Answered
    · exact .inr (ha.currentResponse env)
    · exact .inl (h.currentResponse env ha)
  · rw [Connection.getResponse_chains]
    exact h.single
  · rw [Connection.getResponse_chains] at hc
    exact h.owed c chain hc howes (hans ha)

/-- The chains may change as long as no more of them go on, and none is to answer an ended
response. -/
theorem OneOwner.mono {s s' : Connection P} (h : OneOwner s)
    (hcrash : ∀ e, s'.crashed ≠ some (.response e))
    (hshape : ∀ res, s'.response = some res → res.Unsent ∨ res.Ended)
    (hunf : ∀ (c : Nat) (chain' : Chain), s'.chains[c]? = some chain' → chain'.phase ≠ .finished →
      ∃ chain, s.chains[c]? = some chain ∧ chain.phase ≠ .finished)
    (howes : ∀ (c : Nat) (chain' : Chain), s'.chains[c]? = some chain' → chain'.Owes → ¬ s'.Answered) :
    OneOwner s' := by
  refine ⟨hcrash, hshape, fun c c' chain chain' hc hc' hp hp' => ?_, howes⟩
  obtain ⟨chain₁, hc₁, hp₁⟩ := hunf c chain hc hp
  obtain ⟨chain₂, hc₂, hp₂⟩ := hunf c' chain' hc' hp'
  exact h.single c c' chain₁ chain₂ hc₁ hc₂ hp₁ hp₂

/-- The chain that goes on takes its next step: it is to answer only if no response is ended. -/
theorem OneOwner.setChain {s : Connection P} (h : OneOwner s) {c : Nat}
    {chain chain' : Chain} (hchain : s.chains[c]? = some chain) (hphase : chain.phase ≠ .finished)
    (howes : chain'.Owes → ¬ s.Answered) : OneOwner (s.setChain c chain') := by
  refine h.mono h.crash h.shape ?_ ?_
  · intro c₁ chain₁ hc₁ hunf
    by_cases heq : c₁ = c
    · subst heq
      exact ⟨chain, hchain, hphase⟩
    · rw [Connection.setChain, List.getElem?_set_ne (Ne.symm heq)] at hc₁
      exact ⟨chain₁, hc₁, hunf⟩
  · intro c₁ chain₁ hc₁ howes₁
    by_cases heq : c₁ = c
    · subst heq
      have hlt := (List.getElem?_eq_some_iff.1 hchain).1
      rw [Connection.setChain, List.getElem?_set_self hlt] at hc₁
      cases hc₁
      exact howes howes₁
    · rw [Connection.setChain, List.getElem?_set_ne (Ne.symm heq)] at hc₁
      exact h.owed c₁ chain₁ hc₁ howes₁

/-- The chain that goes on ends a response that is not sent, and is to answer no more. -/
theorem OneOwner.sendEnd_setChain {s : Connection P} (h : OneOwner s)
    (hunsent : (s.currentResponse env).Unsent) {c : Nat} {chain chain' : Chain}
    (hchain : s.chains[c]? = some chain) (hphase : chain.phase ≠ .finished)
    (hnot : ¬ chain'.Owes) (who : Option Nat) (reply : Reply) :
    OneOwner ((s.sendEnd env who reply).setChain c chain') := by
  obtain ⟨hcrash, hchains, hans⟩ := Connection.sendEnd_of_unsent env hunsent who reply
  refine h.mono ?_ ?_ ?_ ?_
  · intro e
    have hset : ((s.sendEnd env who reply).setChain c chain').crashed = s.crashed := hcrash
    rw [hset]
    exact h.crash e
  · intro res hres
    obtain ⟨res', hres', hended⟩ := hans
    have hset : ((s.sendEnd env who reply).setChain c chain').response =
        (s.sendEnd env who reply).response := rfl
    rw [hset, hres'] at hres
    cases hres
    exact .inr hended
  · intro c₁ chain₁ hc₁ hunf
    rw [Connection.setChain, hchains] at hc₁
    by_cases heq : c₁ = c
    · subst heq
      exact ⟨chain, hchain, hphase⟩
    · rw [List.getElem?_set_ne (Ne.symm heq)] at hc₁
      exact ⟨chain₁, hc₁, hunf⟩
  · intro c₁ chain₁ hc₁ howes₁
    rw [Connection.setChain, hchains] at hc₁
    by_cases heq : c₁ = c
    · subst heq
      have hlt := (List.getElem?_eq_some_iff.1 hchain).1
      rw [List.getElem?_set_self hlt] at hc₁
      cases hc₁
      exact absurd howes₁ hnot
    · -- no other chain goes on
      rw [List.getElem?_set_ne (Ne.symm heq)] at hc₁
      exact absurd (h.single c₁ c chain₁ chain hc₁ hchain howes₁.ne_finished hphase) heq

/-- A chain without a handler that is on the stack or pending is not to answer. -/
theorem Chain.not_owes {chain : Chain} (hrun : chain.isRunning = false)
    (hwait : chain.phase ≠ .waiting) : ¬ chain.Owes := by
  rintro ⟨-, hr | hw⟩
  · rw [hrun] at hr
    cases hr
  · exact hwait hw

/-- The callbacks behind `execute` answer when nothing else has. -/
theorem OneOwner.notFound {s : Connection P} (h : OneOwner s) {c : Nat} {chain : Chain}
    (hchain : s.chains[c]? = some chain) (hphase : chain.phase ≠ .finished) :
    OneOwner ((s.notFound env c).setChain c { chain with phase := .finished }) := by
  have hnot : ¬ ({ chain with phase := .finished } : Chain).Owes :=
    Chain.not_owes rfl (by simp)
  simp only [Connection.notFound]
  split
  · exact (h.getResponse env).1.setChain (by simpa using hchain) hphase (fun ho => absurd ho hnot)
  · rename_i hsent
    exact h.sendEnd_setChain env (h.unsent_of_sent env hsent).1 hchain hphase hnot _ _

/-- One chain at a time goes on behind the error callback, -/
theorem OneOwner.internalError {s : Connection P} (h : OneOwner s) {c : Nat} {chain : Chain}
    (hchain : s.chains[c]? = some chain) (hphase : chain.phase ≠ .finished) (e : FutureError) :
    OneOwner ((s.internalError env c e).setChain c { chain with phase := .finished }) := by
  have hnot : ¬ ({ chain with phase := .finished } : Chain).Owes :=
    Chain.not_owes rfl (by simp)
  simp only [Connection.internalError]
  split
  · exact (h.getResponse env).1.setChain (by simpa using hchain) hphase (fun ho => absurd ho hnot)
  · rename_i hsent
    exact h.sendEnd_setChain env (h.unsent_of_sent env hsent).1 hchain hphase hnot _ _

/-- the next callback of the chain, -/
theorem OneOwner.onNext {s : Connection P} (h : OneOwner s) {c : Nat} {chain : Chain}
    (hchain : s.chains[c]? = some chain) (hphase : chain.phase = .ready) :
    OneOwner (s.onNext env c chain) := by
  have hunf : chain.phase ≠ .finished := by simp [hphase]
  have hget : (s.getResponse env).chains[c]? = some chain := by simpa using hchain
  obtain ⟨hinv, hback⟩ := h.getResponse env
  simp only [Connection.onNext]
  split
  · exact h.notFound env hchain hunf
  · split
    · exact hinv.setChain hget hunf fun ho =>
        absurd ho (Chain.not_owes rfl (by simp))
    · rename_i hsent
      exact hinv.setChain hget hunf fun _ ha => (h.unsent_of_sent env hsent).2 (hback ha)

/-- The handler that is to answer ends the response. -/
theorem OneOwner.reply {s : Connection P} (h : OneOwner s) {c i : Nat} {chain : Chain}
    (hchain : s.chains[c]? = some chain) (hactive : chain.Active i)
    (hcall : chain.calls[i]? = some none) (reply : Reply) (w : Nat) :
    OneOwner ((s.sendEnd env (some c) reply).setChain c
      { chain with calls := chain.calls.set i (some w) }) := by
  obtain ⟨hlen, hphase⟩ := hactive
  have howes : chain.Owes := by
    refine ⟨?_, hphase⟩
    rw [List.getLast?_eq_getElem?, hlen]
    exact hcall
  have hnot : ¬ ({ chain with calls := chain.calls.set i (some w) } : Chain).Owes := by
    rintro ⟨hlast, -⟩
    rw [List.getLast?_eq_getElem?, List.length_set, hlen, Nat.add_sub_cancel,
      List.getElem?_set_self (by omega)] at hlast
    cases hlast
  exact h.sendEnd_setChain env (h.currentResponse env (h.owed c chain hchain howes)) hchain
    howes.ne_finished hnot _ _

/-- A chain that starts is to answer its request. -/
theorem OneOwner.start {s s' : Connection P} (h : OneOwner s)
    (hcrash : ∀ e, s'.crashed ≠ some (.response e)) (hres : s'.response = s.response)
    {entries : List Entry} (hchains : s'.chains = s.chains ++ [Chain.start entries])
    (hfin : ∀ chain ∈ s.chains, chain.phase = .finished) (hnot : ¬ s.Answered) :
    OneOwner s' := by
  have hnot' : ¬ s'.Answered := by
    rintro ⟨res, hr, hended⟩
    exact hnot ⟨res, by rw [← hres, hr], hended⟩
  have hlast : ∀ c chain, s'.chains[c]? = some chain → chain.phase ≠ .finished →
      c = s.chains.length := by
    intro c chain hc hphase
    rw [hchains] at hc
    by_cases hlt : c < s.chains.length
    · rw [List.getElem?_append_left hlt] at hc
      exact absurd (hfin chain (List.mem_of_getElem? hc)) hphase
    · have hlen := (List.getElem?_eq_some_iff.1 hc).1
      rw [List.length_append, List.length_singleton] at hlen
      omega
  refine ⟨hcrash, by rw [hres]; exact h.shape, fun c c' chain chain' hc hc' hp hp' => ?_,
    fun _ _ _ _ => hnot'⟩
  rw [hlast c chain hc hp, hlast c' chain' hc' hp']

/-- a read that comes when no chain goes on, -/
theorem OneOwner.onRead {s : Connection P} (h : OneOwner s) (hidle : s.idle = true)
    {buf : Str} (hok : OneByOne env s (.read buf)) : OneOwner (s.onRead env buf) := by
  have hcrashed : s.crashed = none := by
    simp only [Connection.idle, Bool.and_eq_true, Option.isNone_iff_eq_none] at hidle
    exact hidle.1
  obtain ⟨hres, -, -⟩ := s.onRead_chains env buf
  cases hparse : (s.currentRequest env).parse buf with
  | error e =>
    have hstate : (s.onRead env buf).chains = s.chains ∧
        (s.onRead env buf).crashed = some (.read e.1) := by
      simp [Connection.onRead, hparse]
    have hans : (s.onRead env buf).Answered → s.Answered := by
      rintro ⟨res, hr, hended⟩
      exact ⟨res, by rw [← hres, hr], hended⟩
    refine h.mono (by simp [hstate.2]) (by rw [hres]; exact h.shape) ?_ ?_
    · intro c chain hc hphase
      rw [hstate.1] at hc
      exact ⟨chain, hc, hphase⟩
    · intro c chain hc howes ha
      rw [hstate.1] at hc
      exact h.owed c chain hc howes (hans ha)
  | ok r =>
    obtain ⟨parsed, m⟩ := r
    have hcrash' : ∀ e, (s.onRead env buf).crashed ≠ some (.response e) := by
      intro e
      simp only [Connection.onRead, hparse]
      split <;> split <;> simp [Connection.processRequest, Connection.close, hcrashed]
    by_cases hd : (m.upgrade || m.messageComplete) = true
    · obtain ⟨hfin, hnot⟩ := hok ⟨parsed, m, hparse, hd⟩
      have hchains : ∃ entries, (s.onRead env buf).chains = s.chains ++ [Chain.start entries] := by
        simp only [Connection.onRead, hparse, if_pos hd]
        split <;> simp [Connection.processRequest, Connection.close]
      obtain ⟨entries, hchains⟩ := hchains
      exact h.start hcrash' hres hchains hfin hnot
    · have hchains : (s.onRead env buf).chains = s.chains := by
        simp only [Connection.onRead, hparse, if_neg hd]
        split <;> simp [Connection.close]
      have hans : (s.onRead env buf).Answered → s.Answered := by
        rintro ⟨res, hr, hended⟩
        exact ⟨res, by rw [← hres, hr], hended⟩
      refine h.mono hcrash' (by rw [hres]; exact h.shape) ?_ ?_
      · intro c chain hc hphase
        rw [hchains] at hc
        exact ⟨chain, hc, hphase⟩
      · intro c chain hc howes ha
        rw [hchains] at hc
        exact h.owed c chain hc howes (hans ha)

/-- An invalid read is answered when no handler is to answer. -/
theorem OneOwner.onReadError {s : Connection P} (h : OneOwner s) {e : ReadError}
    (hok : OneByOne env s (.readError e)) : OneOwner (s.onReadError env e) := by
  cases e with
  | eof => exact h
  | connReset => exact ⟨h.crash, h.shape, h.single, h.owed⟩
  | other name =>
    simp only [Connection.onReadError]
    split
    · exact (h.getResponse env).1
    · rename_i hsent
      obtain ⟨hcrash, hchains, res', hres', hended⟩ :=
        Connection.sendEnd_of_unsent env (h.unsent_of_sent env hsent).1 none
          ⟨some 500, [], "Invalid request format.Name: ".toList ++ name⟩
      refine h.mono (by rw [hcrash]; exact h.crash) ?_ ?_ ?_
      · intro res hres
        rw [hres'] at hres
        cases hres
        exact .inr hended
      · intro c chain hc hphase
        rw [hchains] at hc
        exact ⟨chain, hc, hphase⟩
      · intro c chain hc howes
        rw [hchains] at hc
        exact absurd howes (hok chain (List.mem_of_getElem? hc))

/-- and the end of a write. -/
theorem OneOwner.onWritten {s : Connection P} (h : OneOwner s) (w : Nat) :
    OneOwner (s.onWritten w) := by
  simp only [Connection.onWritten]
  split
  · exact ⟨by simp, h.shape, h.single, h.owed⟩
  · split
    · refine ⟨h.crash, fun res hres => ?_, h.single, fun c chain _ _ ha => ?_⟩
      · cases hres
      · obtain ⟨res, hres, -⟩ := ha
        cases hres
    · exact ⟨h.crash, h.shape, h.single, h.owed⟩

/-- Every step that meets the condition keeps the invariant. -/
theorem OneOwner.step {s s' : Connection P} {l : Label} (h : OneOwner s) (hok : OneByOne env s l)
    (hstep : step env s l = some s') : OneOwner s' := by
  cases step_cases env hstep with
  | read buf hidle => exact h.onRead env hidle hok
  | readError e => exact h.onReadError env hok
  | reply reply hchain _ hcall => exact h.reply env hchain (hok _ hchain) hcall reply _
  | @returns c chain inline r phase _ hchain hphase hnew =>
    refine h.setChain hchain (by simp [hphase]) ?_
    rintro ⟨hlast, -⟩
    exact h.owed c chain hchain ⟨hlast, .inl (by simp [Chain.isRunning, hphase])⟩
  | throws => exact ⟨by simp, h.shape, h.single, h.owed⟩
  | @settle c chain e _ hchain hphase =>
    refine h.setChain hchain (by simp [hphase]) fun ho => absurd ho ?_
    cases e <;> exact Chain.not_owes rfl (by simp)
  | @settleEnd c w chain phase e _ hchain hphase hnew =>
    refine h.setChain hchain (by simp [hphase]) fun ho => absurd ho ?_
    rcases hnew with rfl | rfl <;> exact Chain.not_owes rfl (by simp)
  | next _ hchain hphase => exact h.onNext env hchain hphase
  | error _ hchain hphase => exact h.internalError env hchain (by simp [hphase]) _
  | written w => exact h.onWritten w
  | writeFailed w => exact ⟨h.crash, h.shape, h.single, h.owed⟩

/-- In a run whose steps all meet the condition, no assertion of a response fails. -/
theorem no_failed_assertion (ls : List Label) (s : Connection P)
    (hrun : run (step env) (Connection.start env) ls = some s)
    (hok : Along (step env) (OneByOne env) (Connection.start env : Connection P) ls) (e : Exn) :
    s.crashed ≠ some (.response e) := by
  have hstart : OneOwner (Connection.start env : Connection P) := by
    refine ⟨fun e he => ?_, fun res hres => ?_, fun c c' chain chain' hc => ?_,
      fun c chain hc => ?_⟩
    · cases he
    · cases hres
    · simp [Connection.start] at hc
    · simp [Connection.start] at hc
  have hinv : OneOwner s := by
    refine run_invariant_along ?_ hok hstart hrun
    exact fun s l s' hok h hstep => h.step env hok hstep
  exact hinv.crash e

end

/-- Two requests, the second one read after the first response has been written. -/
theorem no_failed_assertion_kept :
    ∃ s : Connection twoRootsParser, run (step oneHandler) (Connection.start oneHandler)
        [.read getRootText, .reply 0 0 ⟨none, [], "ok".toList⟩, .handlerReturn 0 .resolved, .next 0,
          .written 0 true, .read getRootText] = some s ∧
      s.crashed ≠ some (.response (assertionFailed "!_closed")) := by
  obtain ⟨s, hs⟩ : ∃ s : Connection twoRootsParser, run (step oneHandler)
      (Connection.start oneHandler) [.read getRootText, .reply 0 0 ⟨none, [], "ok".toList⟩,
        .handlerReturn 0 .resolved, .next 0, .written 0 true, .read getRootText] = some s := ⟨_, rfl⟩
  refine ⟨s, hs, no_failed_assertion oneHandler _ s hs ?_ _⟩
  refine ⟨fun _ => ⟨?_, ?_⟩, fun s₁ h₁ => ⟨?_, fun s₂ h₂ => ⟨trivial, fun s₃ h₃ => ⟨trivial,
    fun s₄ h₄ => ⟨trivial, fun s₅ h₅ => ⟨fun _ => ⟨?_, ?_⟩, fun _ _ => trivial⟩⟩⟩⟩⟩⟩
  · intro chain hchain
    cases hchain
  · rintro ⟨res, hres, -⟩
    cases hres
  · cases h₁
    intro chain hchain
    cases hchain
    exact ⟨rfl, .inl rfl⟩
  · cases h₁
    cases h₂
    cases h₃
    cases h₄
    cases h₅
    intro chain hchain
    rcases List.mem_singleton.1 hchain with rfl
    rfl
  · cases h₁
    cases h₂
    cases h₃
    cases h₄
    cases h₅
    rintro ⟨res, hres, -⟩
    cases hres

/-- A second request that is read before the first response has been written reaches its handler
with that response. -/
theorem failed_assertion : ¬ ∀ (P : HttpParser) (env : Env) (ls : List Label) (s : Connection P),
    run (step env) (Connection.start env) ls = some s → ∀ e, s.crashed ≠ some (.response e) := by
  intro h
  obtain ⟨s, hs⟩ : ∃ s : Connection twoRootsParser, run (step oneHandler)
      (Connection.start oneHandler) [.read getRootText, .reply 0 0 ⟨none, [], "ok".toList⟩,
        .handlerReturn 0 .resolved, .read getRootText, .reply 1 0 ⟨none, [], "ok".toList⟩] =
      some s := ⟨_, rfl⟩
  refine h twoRootsParser oneHandler _ s hs (assertionFailed "!_closed") ?_
  cases hs
  rfl

end NodeNative.Http
