import NodeNative.Http.Reassembly

/-!
# From the stream to the requests processed

The reads of a connection deliver a stream of requests. `Orderly` is the condition on a step under
which a connection takes the stream apart: a read stays inside one request and does not cut its
url, the body comes in one piece, the message that is being filled shows nothing of an earlier
request, and it is replaced only between two requests. In a run of such steps the requests
processed are those whose last byte has been read, in order, each as it was sent
(`requests_in_order`).
-/

namespace NodeNative.Http

open Fragments Transition

/-! ### Positions in the stream -/

/-- The request to which the byte number `n` of the stream belongs, and how many of its bytes come
before. -/
def locate : List Request → Nat → Option (Request × Nat)
  | [], _ => none
  | r :: rs, n => if n < r.size then some (r, n) else locate rs (n - r.size)

/-- The requests that end within the first `n` bytes of the stream. -/
def completed : List Request → Nat → List Request
  | [], _ => []
  | r :: rs, n => if r.size ≤ n then r :: completed rs (n - r.size) else []

@[simp] theorem marksOf_cons (r : Request) (rs : List Request) :
    marksOf (r :: rs) = r.marks ++ marksOf rs := List.flatMap_cons

/-- The bytes of requests in a row. -/
theorem marksOf_append (rs rs' : List Request) : marksOf (rs ++ rs') = marksOf rs ++ marksOf rs' :=
  List.flatMap_append

/-- After `n` bytes, `k` requests are complete and `o` bytes of the next one have been read. -/
structure Position (rs : List Request) (n k o : Nat) : Prop where
  le : k ≤ rs.length
  length : n = (marksOf (rs.take k)).length + o
  lt : ∀ r, rs[k]? = some r → o < r.size
  last : rs[k]? = none → o = 0

/-- Behind the first request the position is one among the others. -/
theorem Position.tail {r : Request} {rs : List Request} {n k o : Nat}
    (h : Position (r :: rs) n (k + 1) o) : r.size ≤ n ∧ Position rs (n - r.size) k o := by
  obtain ⟨hle, hlen, hlt, hlast⟩ := h
  simp only [List.take_succ_cons, marksOf_cons, List.length_append] at hlen
  simp only [List.length_cons, Nat.add_le_add_iff_right] at hle
  have hsize : r.marks.length = r.size := rfl
  exact ⟨by omega, hle, by omega, hlt, hlast⟩

/-- At a position the requests in front of it are complete, -/
theorem Position.completed {rs : List Request} {n k o : Nat} (h : Position rs n k o) :
    completed rs n = rs.take k := by
  induction k generalizing rs n with
  | zero =>
    cases rs with
    | nil => rfl
    | cons r rs =>
      have hlt := h.lt r rfl
      have hn : n = o := by simpa [marksOf] using h.length
      rw [NodeNative.Http.completed, if_neg (by omega), List.take_zero]
  | succ k ih =>
    cases rs with
    | nil => exact absurd h.le (by simp)
    | cons r rs =>
      obtain ⟨hle, htail⟩ := h.tail
      rw [NodeNative.Http.completed, if_pos hle, ih htail, List.take_succ_cons]

/-- and the next one is that which is being read. -/
theorem Position.locate {rs : List Request} {n k o : Nat} (h : Position rs n k o) :
    locate rs n = rs[k]?.map (·, o) := by
  induction k generalizing rs n with
  | zero =>
    cases rs with
    | nil => rfl
    | cons r rs =>
      have hlt := h.lt r rfl
      have hn : n = o := by simpa [marksOf] using h.length
      rw [NodeNative.Http.locate, if_pos (by omega), hn]
      rfl
  | succ k ih =>
    cases rs with
    | nil => exact absurd h.le (by simp)
    | cons r rs =>
      obtain ⟨hle, htail⟩ := h.tail
      rw [NodeNative.Http.locate, if_neg (by omega), ih htail]
      rfl

/-- Before the first byte nothing is complete. -/
theorem Position.zero {rs : List Request} : Position rs 0 0 0 where
  le := Nat.zero_le _
  length := by simp [marksOf]
  lt r _ := by
    have hne := r.url_ne
    have hpos : 0 < r.url.length := List.length_pos_of_ne_nil hne
    rw [r.size_eq, Request.headSize]
    omega
  last _ := rfl

/-- The marks that come after a position. -/
theorem Position.drop {rs : List Request} {n k o : Nat} {r : Request} (h : Position rs n k o)
    (hr : rs[k]? = some r) :
    (marksOf rs).drop n = r.marks.drop o ++ marksOf (rs.drop (k + 1)) := by
  obtain ⟨hk, rfl⟩ := List.getElem?_eq_some_iff.1 hr
  have ho : o ≤ rs[k].marks.length := Nat.le_of_lt (h.lt _ hr)
  have hsplit : marksOf rs = marksOf (rs.take k) ++ (rs[k].marks ++ marksOf (rs.drop (k + 1))) := by
    conv => lhs; rw [← List.take_append_drop k rs, marksOf_append, List.drop_eq_getElem_cons hk,
      marksOf_cons]
  rw [hsplit, h.length, List.drop_length_add_append, List.drop_append_of_le_length ho]

/-- The position after some more bytes of the same request. -/
theorem Position.add {rs : List Request} {n k o d : Nat} {r : Request} (h : Position rs n k o)
    (hr : rs[k]? = some r) (hd : o + d < r.size) : Position rs (n + d) k (o + d) where
  le := h.le
  length := by rw [h.length, Nat.add_assoc]
  lt r' hr' := by
    rw [hr] at hr'
    cases hr'
    exact hd
  last hnone := by rw [hr] at hnone; cases hnone

/-- The position after the last byte of a request. -/
theorem Position.next {rs : List Request} {n k o d : Nat} {r : Request} (h : Position rs n k o)
    (hr : rs[k]? = some r) (hd : o + d = r.size) : Position rs (n + d) (k + 1) 0 where
  le := (List.getElem?_eq_some_iff.1 hr).1
  length := by
    obtain ⟨hk, rfl⟩ := List.getElem?_eq_some_iff.1 hr
    rw [List.take_succ_eq_append_getElem hk, marksOf_append, List.length_append, h.length]
    simp only [marksOf_cons, Request.size] at hd ⊢
    simp only [marksOf, List.flatMap_nil, List.append_nil]
    omega
  lt r' _ := by
    have hpos : 0 < r'.url.length := List.length_pos_of_ne_nil r'.url_ne
    rw [r'.size_eq, Request.headSize]
    omega
  last _ := rfl

/-! ### The condition -/

section
variable {P : HttpParser} (env : Env)

/-- The reads deliver the stream, a non-empty piece each time. -/
def Delivers (rs : List Request) (s : Connection P) : Label → Prop
  | .read buf => buf ≠ [] ∧ s.received ++ buf <+: bytes (marksOf rs)
  | _ => True

/-- The condition on a read of `buf` when the next byte of the stream is the byte number `o` of the
request `r`, and `m` is the message that takes it. -/
structure ReadOk (m : IncomingMessage P) (r : Request) (o : Nat) (buf : Str) : Prop where
  within : o + buf.length ≤ r.size
  cut : CutOk (r.marks.take (o + buf.length)) (r.marks.drop (o + buf.length))
  accepts : P.Accepts r.url
  inOnePiece : r.body.InOnePiece
  clean : o = 0 → m.CleanFor r
  incomplete : o + buf.length < r.size → (o = 0 → m.messageComplete = false) ∧
    (if r.headSize ≤ o + buf.length then r.info.upgrade else m.upgrade) = false

/-- The condition on a step. -/
def Orderly (rs : List Request) (s : Connection P) : Label → Prop
  | .read buf => ∀ r o, locate rs s.received.length = some (r, o) →
    ReadOk (s.currentRequest env) r o buf
  | .written _ ok => ok = true → ∀ res, s.response = some res → res.shouldKeepAlive = true →
    ∀ r o, locate rs s.received.length = some (r, o) → o = 0
  | _ => True

/-! ### What a step does to the requests -/

@[simp] theorem Connection.getRequest_response (s : Connection P) :
    (s.getRequest env).response = s.response := by
  cases h : s.request <;> simp [getRequest, h]

@[simp] theorem Connection.getRequest_chains (s : Connection P) :
    (s.getRequest env).chains = s.chains := by
  cases h : s.request <;> simp [getRequest, h]

@[simp] theorem Connection.getRequest_wire (s : Connection P) :
    (s.getRequest env).wire = s.wire := by
  cases h : s.request <;> simp [getRequest, h]

@[simp] theorem Connection.getRequest_crashed (s : Connection P) :
    (s.getRequest env).crashed = s.crashed := by
  cases h : s.request <;> simp [getRequest, h]

/-- The part of a connection that its reads and its dispatches touch. -/
def Connection.inbox (s : Connection P) : IncomingMessage P × Str × List View :=
  (s.currentRequest env, s.received, s.processed)

@[simp] theorem Connection.inbox_getRequest (s : Connection P) :
    (s.getRequest env).inbox env = s.inbox env := by
  cases h : s.request <;> simp [getRequest, inbox, currentRequest, h]

@[simp] theorem Connection.inbox_getResponse (s : Connection P) :
    (s.getResponse env).inbox env = s.inbox env := by
  cases h : s.response with
  | some res => simp [getResponse, h]
  | none =>
    rw [← inbox_getRequest env s]
    simp [getResponse, h, inbox, currentRequest]

/-- What is read is not touched by the end of a response, -/
theorem Connection.inbox_sendEnd (s : Connection P) (who : Option Nat) (reply : Reply) :
    (s.sendEnd env who reply).inbox env = s.inbox env := by
  rw [← inbox_getResponse env s]
  simp only [sendEnd]
  split <;> rfl

/-- the 404 callback, -/
theorem Connection.inbox_notFound (s : Connection P) (c : Nat) :
    (s.notFound env c).inbox env = s.inbox env := by
  simp only [notFound]
  split
  · exact inbox_getResponse env s
  · exact inbox_sendEnd env s _ _

/-- the error callback, -/
theorem Connection.inbox_internalError (s : Connection P) (c : Nat) (e : FutureError) :
    (s.internalError env c e).inbox env = s.inbox env := by
  simp only [internalError]
  split
  · exact inbox_getResponse env s
  · exact inbox_sendEnd env s _ _

@[simp] theorem Connection.inbox_setChain (s : Connection P) (c : Nat) (chain : Chain) :
    (s.setChain c chain).inbox env = s.inbox env := rfl

/-- The completion of a write leaves the requests as they are, or replaces the current message when
the connection is kept alive. -/
theorem Connection.inbox_onWritten (s : Connection P) (w : Nat) :
    (s.onWritten w).inbox env = s.inbox env ∨
    (∃ res, s.response = some res ∧ res.shouldKeepAlive = true) ∧
      (s.onWritten w).inbox env = (.new (env.uninit s.created), s.received, s.processed) := by
  simp only [onWritten]
  cases hr : s.response with
  | none => exact .inl rfl
  | some res =>
    by_cases hk : res.shouldKeepAlive = true
    · refine .inr ⟨⟨res, rfl, hk⟩, ?_⟩
      simp only [if_pos hk]
      rfl
    · refine .inl ?_
      simp only [if_neg hk]
      rfl

/-- an error of the read callback, -/
theorem Connection.inbox_onReadError (s : Connection P) (e : ReadError) :
    (s.onReadError env e).inbox env = s.inbox env := by
  cases e with
  | eof => rfl
  | connReset => rfl
  | other name =>
    simp only [onReadError]
    split
    · exact inbox_getResponse env s
    · exact inbox_sendEnd env s _ _

/-- and the next callback of a chain. -/
theorem Connection.inbox_onNext (s : Connection P) (c : Nat) (chain : Chain) :
    (s.onNext env c chain).inbox env = s.inbox env := by
  simp only [onNext]
  split
  · rw [inbox_setChain, inbox_notFound]
  · split <;> rw [inbox_setChain, inbox_getResponse]

/-- Reads and completions of writes apart, no step touches the requests. -/
theorem step_inbox {s s' : Connection P} {l : Label} (h : step env s l = some s')
    (hread : ∀ buf, l ≠ .read buf) (hwritten : ∀ w, l ≠ .written w true) :
    s'.inbox env = s.inbox env := by
  cases step_cases env h with
  | read buf => exact absurd rfl (hread buf)
  | readError e => exact Connection.inbox_onReadError env s e
  | reply reply => rw [Connection.inbox_setChain, Connection.inbox_sendEnd]
  | returns => rfl
  | throws => rfl
  | settle => rfl
  | settleEnd => rfl
  | next => exact Connection.inbox_onNext env s _ _
  | error => rw [Connection.inbox_setChain, Connection.inbox_internalError]
  | written w => exact absurd rfl (hwritten w)
  | writeFailed => rfl

/-! ### One read -/

/-- The parser of the message has read the stream from some request on. -/
def IncomingMessage.ReadsFrom (m : IncomingMessage P) (rs : List Request) (received : Str) : Prop :=
  ∃ j bufs, (∀ b ∈ bufs, b ≠ []) ∧ m.parser.getD P.init = P.feed bufs ∧
    received = bytes (marksOf (rs.take j)) ++ bufs.flatten

/-- The message has taken the first `o` bytes of the request number `k`: between two requests it is
ready for a header field, inside a request it is what a message without traces became of them. -/
structure IncomingMessage.Filled (m : IncomingMessage P) (rs : List Request) (k o : Nat) : Prop where
  boundary : o = 0 → m.wasHeaderValue = true
  inside : o ≠ 0 → ∃ (r : Request) (m₀ : IncomingMessage P), rs[k]? = some r ∧ m₀.wasHeaderValue = true ∧ m₀.CleanFor r ∧
    m₀.messageComplete = false ∧ CutOk (r.marks.take o) (r.marks.drop o) ∧
    m₀.absorb (r.marks.take o) = .ok m

/-- A cut stays allowed when less follows it. -/
theorem CutOk.take {a b : List MessageMark} (h : CutOk a b) {n : Nat} (hn : n ≠ 0) :
    CutOk a (b.take n) := by
  intro p hopen hcont
  refine h p hopen ?_
  obtain ⟨n, rfl⟩ := Nat.exists_eq_succ_of_ne_zero hn
  cases b with
  | nil => cases hcont
  | cons m b => exact hcont

/-- Nothing comes before the first byte of a request. -/
theorem cutOk_nil (b : List MessageMark) : CutOk [] b := by
  intro p hopen
  cases hopen

/-- No bytes, no callbacks. -/
theorem IncomingMessage.absorb_nil (m : IncomingMessage P) : m.absorb [] = .ok m := rfl

/-- A filled message with the message that it was before its request. -/
theorem IncomingMessage.Filled.origin {m : IncomingMessage P} {rs : List Request} {k o : Nat}
    {r : Request} (h : m.Filled rs k o) (hr : rs[k]? = some r) (hclean : o = 0 → m.CleanFor r) :
    ∃ m₀ : IncomingMessage P, m₀.wasHeaderValue = true ∧ m₀.CleanFor r ∧
      (m₀.messageComplete = false ∨ o = 0 ∧ m₀ = m) ∧
      CutOk (r.marks.take o) (r.marks.drop o) ∧ m₀.absorb (r.marks.take o) = .ok m := by
  by_cases ho : o = 0
  · subst ho
    exact ⟨m, h.boundary rfl, hclean rfl, .inr ⟨rfl, rfl⟩, cutOk_nil _, absorb_nil m⟩
  · obtain ⟨r', m₀, hr', hv, hcl, hc, hcut, habs⟩ := h.inside ho
    rw [hr] at hr'
    cases hr'
    exact ⟨m₀, hv, hcl, .inl hc, hcut, habs⟩

/-- A read of the stream makes the callbacks of its bytes. -/
theorem IncomingMessage.parse_stream {rs : List Request} (hP : P.ConformsOn rs)
    {m m' : IncomingMessage P} {received buf : Str} (hfrom : m.ReadsFrom rs received)
    (hbuf : buf ≠ []) (hnext : received ++ buf <+: bytes (marksOf rs)) {k o : Nat}
    (hpos : Position rs received.length k o) {r : Request} (hr : rs[k]? = some r)
    (hwithin : o + buf.length ≤ r.size)
    (habs : m.absorb ((r.marks.drop o).take buf.length) = .ok m') :
    ∃ σ, m.parse buf = .ok (buf.length, { m' with parser := some σ }) ∧
      { m' with parser := some σ }.ReadsFrom rs (received ++ buf) := by
  obtain ⟨j, bufs, hne, hσ, rfl⟩ := hfrom
  have hall : marksOf rs = marksOf (rs.take j) ++ marksOf (rs.drop j) := by
    rw [← marksOf_append, List.take_append_drop]
  have hpre : bufs.flatten ++ buf <+: bytes (marksOf (rs.drop j)) := by
    rw [hall, bytes_append, List.append_assoc, List.prefix_append_right_inj] at hnext
    exact hnext
  have hslice : ((marksOf (rs.drop j)).drop bufs.flatten.length).take buf.length =
      (r.marks.drop o).take buf.length := by
    have hdrop := hpos.drop hr
    rw [List.length_append, length_bytes, hall, List.drop_length_add_append] at hdrop
    have hsize : r.marks.length = r.size := rfl
    rw [hdrop, List.take_append_of_le_length (by rw [List.length_drop]; omega)]
  have hexec := hP j bufs buf hne hbuf hpre
  rw [hslice, ← hσ] at hexec
  refine ⟨(P.execute (m.parser.getD P.init) buf).1, ?_, j, bufs ++ [buf], ?_, ?_, ?_⟩
  · rw [absorb] at habs
    simp only [parse, hexec, habs]
  · intro b hb
    rcases List.mem_append.1 hb with hb | hb
    · exact hne b hb
    · rw [List.mem_singleton.1 hb]
      exact hbuf
  · rw [hσ]
    simp [HttpParser.feed]
  · simp

/-- A read that meets the condition either leaves the request incomplete or completes it. -/
theorem IncomingMessage.Filled.read {rs : List Request} {m : IncomingMessage P} {k o : Nat}
    {r : Request} {buf : Str} (h : m.Filled rs k o) (hr : rs[k]? = some r) (hbuf : buf ≠ [])
    (hok : ReadOk m r o buf) :
    ∃ m', m.absorb ((r.marks.drop o).take buf.length) = .ok m' ∧
      ((o + buf.length < r.size ∧ m'.messageComplete = false ∧ m'.upgrade = false ∧
          m'.Filled rs k (o + buf.length)) ∨
        (o + buf.length = r.size ∧ m'.messageComplete = true ∧ m'.wasHeaderValue = true ∧
          m'.view = r.view)) := by
  obtain ⟨m₀, hv, hclean, hc, hcut, habs⟩ := h.origin hr hok.clean
  have hlen : buf.length ≠ 0 := fun h => hbuf (List.eq_nil_of_length_eq_zero h)
  have hsplit : r.marks.take (o + buf.length) =
      r.marks.take o ++ (r.marks.drop o).take buf.length := List.take_add ..
  have hread : m₀.absorb (r.marks.take (o + buf.length)) =
      m.absorb ((r.marks.drop o).take buf.length) := by
    rw [hsplit, absorb_append (hcut.take hlen), habs]
    rfl
  rw [← hread]
  by_cases hlt : o + buf.length < r.size
  · obtain ⟨hstale, hup⟩ := hok.incomplete hlt
    have hfalse : m₀.messageComplete = false := by
      rcases hc with hc | ⟨ho, rfl⟩
      · exact hc
      · exact hstale ho
    obtain ⟨m', habs', hc', hu'⟩ := absorb_take hok.accepts hv hlt hok.cut
    refine ⟨m', habs', .inl ⟨hlt, hc'.trans hfalse, ?_, ?_⟩⟩
    · -- before the end of the headers `_upgrade` is what it was before the read
      rw [hu']
      by_cases hhead : r.headSize ≤ o + buf.length
      · rwa [if_pos hhead] at hup ⊢
      · rw [if_neg hhead] at hup ⊢
        by_cases hsize : r.size ≤ o
        · omega
        · obtain ⟨m₁, habs₁, -, hu₁⟩ := absorb_take hok.accepts hv (Nat.lt_of_not_le hsize) hcut
          rw [habs] at habs₁
          cases habs₁
          rw [if_neg (by omega)] at hu₁
          rw [← hu₁]
          exact hup
    · exact ⟨fun h0 => absurd h0 (by omega),
        fun _ => ⟨r, m₀, hr, hv, hclean, hfalse, hok.cut, habs'⟩⟩
  · have heq : o + buf.length = r.size := Nat.le_antisymm hok.within (Nat.le_of_not_lt hlt)
    obtain ⟨m', habs', hc', hv', hview⟩ := absorb_marks hok.accepts hok.inOnePiece hv hclean
    refine ⟨m', ?_, .inr ⟨heq, hc', hv', hview⟩⟩
    rw [heq, Request.size, List.take_length]
    exact habs'

/-! ### Runs -/

/-- The state of a connection between two steps: where in the stream its reads are, what its message
holds, and that the complete requests have been processed. -/
structure Reading (rs : List Request) (s : Connection P) (k o : Nat) : Prop where
  position : Position rs s.received.length k o
  stream : s.received <+: bytes (marksOf rs)
  readsFrom : (s.currentRequest env).ReadsFrom rs s.received
  filled : (s.currentRequest env).Filled rs k o
  processed : s.processed = (rs.take k).map Request.view

/-- The invariant is about the inbox of the connection. -/
theorem Reading.congr {rs : List Request} {s s' : Connection P} {k o : Nat}
    (h : Reading env rs s k o) (heq : s'.inbox env = s.inbox env) : Reading env rs s' k o := by
  simp only [Connection.inbox, Prod.mk.injEq] at heq
  obtain ⟨h1, h2, h3⟩ := heq
  exact ⟨by rw [h2]; exact h.position, by rw [h2]; exact h.stream,
    by rw [h1, h2]; exact h.readsFrom, by rw [h1]; exact h.filled, by rw [h3]; exact h.processed⟩

/-- What a read does when the message takes it without an exception and without an error. -/
theorem Connection.inbox_onRead {s : Connection P} {buf : Str} {m' : IncomingMessage P}
    (h : (s.currentRequest env).parse buf = .ok (buf.length, m')) :
    (s.onRead env buf).inbox env = (m', s.received ++ buf,
      if m'.upgrade || m'.messageComplete then s.processed ++ [m'.view] else s.processed) := by
  have hproc : (s.getRequest env).processed = s.processed := by
    cases hs : s.request <;> simp [getRequest, hs]
  have hget : ∀ t : Connection P, t.request = some m' → t.getRequest env = t := by
    intro t ht
    simp [getRequest, ht]
  simp only [onRead, h, bne_self_eq_false, Bool.and_false, Bool.false_eq_true, if_false]
  split
  · simp [processRequest, inbox, currentRequest, hget, hproc]
  · simp [inbox, currentRequest, hproc]

/-- A read that meets the condition. -/
theorem Reading.read {rs : List Request} (hP : P.ConformsOn rs) {s : Connection P} {k o : Nat}
    {buf : Str} (h : Reading env rs s k o) (hbuf : buf ≠ [])
    (hnext : s.received ++ buf <+: bytes (marksOf rs))
    (hok : ∀ r o, locate rs s.received.length = some (r, o) →
      ReadOk (s.currentRequest env) r o buf) :
    ∃ k' o', Reading env rs (s.onRead env buf) k' o' := by
  have hloc := h.position.locate
  cases hr : rs[k]? with
  | none =>
    -- the stream has been read to its end
    have hlen := hnext.length_le
    have hk : k = rs.length := Nat.le_antisymm h.position.le (by simpa using hr)
    have hpos := h.position.length
    rw [h.position.last hr, hk, List.take_length] at hpos
    have hne : buf.length ≠ 0 := fun h => hbuf (List.eq_nil_of_length_eq_zero h)
    rw [List.length_append, length_bytes] at hlen
    omega
  | some r =>
    rw [hr] at hloc
    have hread := hok r o hloc
    obtain ⟨m', habs, hcase⟩ := h.filled.read hr hbuf hread
    obtain ⟨σ, hparse, hfrom⟩ :=
      IncomingMessage.parse_stream hP h.readsFrom hbuf hnext h.position hr hread.within habs
    have hinbox := Connection.inbox_onRead env hparse
    have hlen : (s.received ++ buf).length = s.received.length + buf.length := List.length_append
    simp only [Connection.inbox, Prod.mk.injEq] at hinbox
    obtain ⟨hreq, hrec, hproc⟩ := hinbox
    rcases hcase with ⟨hlt, hc, hu, hfilled⟩ | ⟨heq, hc, hv, hview⟩
    · refine ⟨k, o + buf.length, ?_, by rw [hrec]; exact hnext, ?_, ?_, ?_⟩
      · rw [hrec, hlen]
        exact h.position.add hr hlt
      · rw [hreq, hrec]
        exact hfrom
      · rw [hreq]
        refine ⟨fun h0 => absurd h0 (fun h0 => hbuf (List.eq_nil_of_length_eq_zero (by omega))),
          fun hne => ?_⟩
        obtain ⟨r', m₀, hr', hv, hclean, hc₀, hcut, habs₀⟩ := hfilled.inside hne
        exact ⟨r', { m₀ with parser := some σ }, hr', hv, hclean, hc₀, hcut,
          IncomingMessage.absorb_setParser habs₀ _⟩
      · rw [hproc, if_neg (by simp [hc, hu]), h.processed]
    · refine ⟨k + 1, 0, ?_, by rw [hrec]; exact hnext, ?_, ?_, ?_⟩
      · rw [hrec, hlen]
        exact h.position.next hr heq
      · rw [hreq, hrec]
        exact hfrom
      · rw [hreq]
        exact ⟨fun _ => hv, fun h0 => absurd rfl h0⟩
      · obtain ⟨hk, hget⟩ := List.getElem?_eq_some_iff.1 hr
        rw [hproc, if_pos (by simp [hc]), h.processed, List.take_succ_eq_append_getElem hk, hget,
          List.map_append, List.map_singleton, ← hview]
        rfl

/-- A new message between two requests. -/
theorem Reading.reset {rs : List Request} {s s' : Connection P} {k : Nat} {upgrade : Bool}
    (h : Reading env rs s k 0)
    (hinbox : s'.inbox env = (.new upgrade, s.received, s.processed)) : Reading env rs s' k 0 := by
  simp only [Connection.inbox, Prod.mk.injEq] at hinbox
  obtain ⟨hreq, hrec, hproc⟩ := hinbox
  refine ⟨by rw [hrec]; exact h.position, by rw [hrec]; exact h.stream, ?_, ?_,
    by rw [hproc]; exact h.processed⟩
  · rw [hreq, hrec]
    refine ⟨k, [], by simp, rfl, ?_⟩
    have hlen := h.position.length
    have hall : marksOf rs = marksOf (rs.take k) ++ marksOf (rs.drop k) := by
      rw [← marksOf_append, List.take_append_drop]
    have hstream := h.stream
    rw [hall, bytes_append] at hstream
    have heq := List.prefix_iff_eq_take.1 hstream
    rw [hlen, Nat.add_zero, ← length_bytes, List.take_left] at heq
    rw [List.flatten_nil, List.append_nil]
    exact heq
  · rw [hreq]
    exact ⟨fun _ => rfl, fun h0 => absurd rfl h0⟩

/-- Before the first read. -/
theorem Reading.start (rs : List Request) :
    Reading env rs (Connection.start env : Connection P) 0 0 where
  position := Position.zero
  stream := List.nil_prefix
  readsFrom := ⟨0, [], by simp, rfl, by simp [marksOf, bytes, Connection.start]⟩
  filled := ⟨fun _ => rfl, fun h => absurd rfl h⟩
  processed := rfl

/-- Every step that meets the condition keeps the connection in step with the stream. -/
theorem Reading.step {rs : List Request} (hP : P.ConformsOn rs) {s s' : Connection P} {l : Label}
    {k o : Nat} (h : Reading env rs s k o) (hdel : Delivers rs s l) (hok : Orderly env rs s l)
    (hstep : step env s l = some s') : ∃ k' o', Reading env rs s' k' o' := by
  by_cases hread : ∃ buf, l = .read buf
  · obtain ⟨buf, rfl⟩ := hread
    cases step_cases env hstep
    exact h.read env hP hdel.1 hdel.2 hok
  · by_cases hwritten : ∃ w, l = .written w true
    · obtain ⟨w, rfl⟩ := hwritten
      cases step_cases env hstep
      rcases Connection.inbox_onWritten env s w with heq | ⟨⟨res, hres, hkeep⟩, heq⟩
      · exact ⟨k, o, h.congr env heq⟩
      · -- the message is replaced, which the condition allows between two requests only
        have ho : o = 0 := by
          cases hr : rs[k]? with
          | none => exact h.position.last hr
          | some r => exact hok rfl res hres hkeep r o (by rw [h.position.locate, hr]; rfl)
        subst ho
        exact ⟨k, 0, h.reset env heq⟩
    · refine ⟨k, o, h.congr env (step_inbox env hstep ?_ ?_)⟩
      · exact fun buf heq => hread ⟨buf, heq⟩
      · exact fun w heq => hwritten ⟨w, heq⟩

/-- In a run whose reads deliver a stream of requests and whose steps all meet the condition, the
requests that have been processed are the complete ones, each once, in the order of the stream and
as it was sent. -/
theorem requests_in_order (rs : List Request) (hP : P.ConformsOn rs) (ls : List Label)
    (s : Connection P) (hrun : run (step env) (Connection.start env) ls = some s)
    (hdel : Along (step env) (Delivers rs) (Connection.start env : Connection P) ls)
    (hok : Along (step env) (Orderly env rs) (Connection.start env : Connection P) ls) :
    s.processed = (completed rs s.received.length).map Request.view := by
  have hstep : ∀ (s : Connection P) l s', Delivers rs s l ∧ Orderly env rs s l →
      (∃ k o, Reading env rs s k o) → step env s l = some s' →
      ∃ k o, Reading env rs s' k o := by
    rintro s l s' ⟨hd, ho⟩ ⟨k, o, h⟩ hstep
    exact h.step env hP hd ho hstep
  obtain ⟨k, o, h⟩ :=
    run_invariant_along hstep (hdel.and hok) ⟨0, 0, Reading.start env rs⟩ hrun
  rw [h.processed, h.position.completed]

end

/-! ### A parser for one stream -/

/-- What a parser does that knows the rest of its stream: it takes the bytes that come next, and
fails on others. -/
def scriptExecute (σ : Option (List MessageMark)) (buf : Str) :
    Option (List MessageMark) × List Callback × Nat :=
  match σ with
  | none => (none, [], 0)
  | some ms =>
    if buf <+: bytes ms then
      (some (ms.drop buf.length), (events (ms.take buf.length)).map toCallback, buf.length)
    else (none, [], 0)

/-- A parser that knows its stream. -/
def scriptParser (script : List MessageMark) : HttpParser where
  State := Option (List MessageMark)
  init := some script
  execute := scriptExecute
  parseUrl url _ _ := (0, ⟨fun f => f = .path, fun _ => 0, fun _ => url.length, 0⟩)
  methodStr _ := "GET".toList

/-- The state of the parser after some buffers of its stream. -/
theorem scriptExecute_foldl {bufs : List Str} {ms : List MessageMark}
    (hpre : bufs.flatten <+: bytes ms) :
    bufs.foldl (fun σ buf => (scriptExecute σ buf).1) (some ms) =
      some (ms.drop bufs.flatten.length) := by
  induction bufs generalizing ms with
  | nil => rfl
  | cons buf bufs ih =>
    rw [List.flatten_cons] at hpre
    have hbuf : buf <+: bytes ms := (List.prefix_append _ _).trans hpre
    have htail : bufs.flatten <+: bytes (ms.drop buf.length) := by
      obtain ⟨rest, hrest⟩ := hpre
      refine ⟨rest, ?_⟩
      have hdrop : bytes (ms.drop buf.length) = (bytes ms).drop buf.length := List.map_drop
      rw [hdrop, ← hrest, List.append_assoc, List.drop_left]
    have hexec : (scriptExecute (some ms) buf).1 = some (ms.drop buf.length) := by
      simp only [scriptExecute, if_pos hbuf]
    rw [List.foldl_cons, hexec, ih htail, List.drop_drop, List.flatten_cons, List.length_append]

/-- The parser of a script reads every sequence of requests whose ends begin the script. -/
theorem scriptParser_conformsOn {script : List MessageMark} {rs : List Request}
    (h : ∀ j, marksOf (rs.drop j) <+: script) : (scriptParser script).ConformsOn rs := by
  intro j bufs buf _ _ hpre
  obtain ⟨rest, hscript⟩ := h j
  have hbytes : bytes script = bytes (marksOf (rs.drop j)) ++ bytes rest := by
    rw [← hscript, bytes_append]
  have hall : bufs.flatten ++ buf <+: bytes script := by
    rw [hbytes]
    exact hpre.trans (List.prefix_append _ _)
  have hfeed : (scriptParser script).feed bufs = some (script.drop bufs.flatten.length) :=
    scriptExecute_foldl ((List.prefix_append _ _).trans hall)
  have hlen := hpre.length_le
  rw [List.length_append, length_bytes] at hlen
  have hslice : (script.drop bufs.flatten.length).take buf.length =
      ((marksOf (rs.drop j)).drop bufs.flatten.length).take buf.length := by
    rw [← hscript, List.drop_append_of_le_length (by omega),
      List.take_append_of_le_length (by rw [List.length_drop]; omega)]
  have hbuf : buf <+: bytes (script.drop bufs.flatten.length) := by
    obtain ⟨tail, htail⟩ := hall
    have hdrop : bytes (script.drop bufs.flatten.length) =
        (bytes script).drop bufs.flatten.length := List.map_drop
    rw [hdrop, ← htail, List.append_assoc, List.drop_left]
    exact List.prefix_append _ _
  rw [hfeed, ← hslice]
  simp only [scriptParser, scriptExecute, if_pos hbuf]

/-- A request for `/`. -/
def getRoot : Request where
  method := "GET".toList
  url := "/".toList
  version := "HTTP/1.1".toList
  info := ⟨false, 1, 1, 1⟩
  headers := []
  body := .none
  url_ne := by decide

/-- A server without handlers. -/
def noHandlers : Env := ⟨fun _ => false, fun _ _ => []⟩

/-- The parser of two requests for `/`. -/
def twoRootsParser : HttpParser := scriptParser (marksOf [getRoot, getRoot])

/-- The parser of the two requests reads them, -/
theorem twoRootsParser_conformsOn : twoRootsParser.ConformsOn [getRoot, getRoot] := by
  refine scriptParser_conformsOn fun j => ?_
  rcases j with _ | _ | j
  · exact List.prefix_refl _
  · exact List.prefix_append _ _
  · simp [marksOf]

/-- and it accepts every URL. -/
theorem accepts_twoRootsParser (url : Str) : twoRootsParser.Accepts url := fun _ => rfl

/-- The steps of a run that has two of them. -/
theorem along_pair {S L : Type} {step : S → L → Option S} {ok : S → L → Prop} {s s₁ : S} {l l₁ : L}
    (h : ok s l) (hs : step s l = some s₁) (h₁ : ok s₁ l₁) : Along step ok s [l, l₁] :=
  ⟨h, fun _ hs' => by
    rw [hs] at hs'
    cases hs'
    exact ⟨h₁, fun _ _ => trivial⟩⟩

/-- A request in two reads, cut behind its url. -/
theorem requests_in_order_getRoot :
    ∃ s : Connection twoRootsParser, run (step noHandlers) (Connection.start noHandlers)
        [.read "GET /".toList, .read " HTTP/1.1\r\n\r\n".toList] = some s ∧
      s.processed = [getRoot.view] := by
  obtain ⟨s₁, hs₁⟩ : ∃ s₁ : Connection twoRootsParser, step noHandlers
      (Connection.start noHandlers) (.read "GET /".toList) = some s₁ := ⟨_, rfl⟩
  have hrec₁ : s₁.received = "GET /".toList := by cases hs₁; rfl
  obtain ⟨s, hs⟩ : ∃ s : Connection twoRootsParser, step noHandlers s₁
      (.read " HTTP/1.1\r\n\r\n".toList) = some s := by cases hs₁; exact ⟨_, rfl⟩
  have hrec : s.received = "GET / HTTP/1.1\r\n\r\n".toList := by cases hs₁; cases hs; rfl
  have hrun : run (step noHandlers) (Connection.start noHandlers : Connection twoRootsParser)
      [.read "GET /".toList, .read " HTTP/1.1\r\n\r\n".toList] = some s := by
    rw [run_cons, hs₁, Option.bind_some, run_cons, hs]
    rfl
  have hdel : Along (step noHandlers) (Delivers [getRoot, getRoot])
      (Connection.start noHandlers : Connection twoRootsParser)
      [.read "GET /".toList, .read " HTTP/1.1\r\n\r\n".toList] := by
    refine along_pair ⟨by decide, by decide⟩ hs₁ ⟨by decide, ?_⟩
    rw [hrec₁]
    decide
  have hok : Along (step noHandlers) (Orderly noHandlers [getRoot, getRoot])
      (Connection.start noHandlers : Connection twoRootsParser)
      [.read "GET /".toList, .read " HTTP/1.1\r\n\r\n".toList] := by
    refine along_pair ?_ hs₁ ?_
    · intro r o hloc
      have hstart : locate [getRoot, getRoot] 0 = some (getRoot, 0) := rfl
      cases hstart.symm.trans hloc
      refine ⟨by decide, ?_, accepts_twoRootsParser _, trivial, fun _ => ⟨?_, fun _ => rfl⟩,
        fun _ => ⟨fun _ => rfl, by decide⟩⟩
      · intro p _ hcont
        cases p <;> exact absurd hcont (by decide)
      · intro key hkey
        cases hkey
    · intro r o hloc
      have hmiddle : locate [getRoot, getRoot] 5 = some (getRoot, 5) := rfl
      rw [hrec₁] at hloc
      cases hmiddle.symm.trans hloc
      refine ⟨by decide, ?_, accepts_twoRootsParser _, trivial, fun h => absurd h (by decide),
        fun h => absurd h (by decide)⟩
      intro p _ hcont
      cases p <;> exact absurd hcont (by decide)
  refine ⟨s, hrun, ?_⟩
  rw [requests_in_order noHandlers [getRoot, getRoot] twoRootsParser_conformsOn _ s hrun hdel hok,
    hrec]
  rfl

/-- Two requests in one read are processed as one. -/
theorem requests_not_in_order : ¬ ∀ (P : HttpParser) (env : Env) (rs : List Request),
    P.ConformsOn rs → ∀ (ls : List Label) (s : Connection P),
    run (step env) (Connection.start env) ls = some s →
    Along (step env) (Delivers rs) (Connection.start env : Connection P) ls →
    s.processed = (completed rs s.received.length).map Request.view := by
  intro h
  obtain ⟨s, hs⟩ : ∃ s : Connection twoRootsParser, step noHandlers (Connection.start noHandlers)
      (.read "GET / HTTP/1.1\r\n\r\nGET / HTTP/1.1\r\n\r\n".toList) = some s := ⟨_, rfl⟩
  have hlen : s.processed.length = 1 := by cases hs; rfl
  have hrec : s.received.length = 36 := by cases hs; rfl
  have heq := h twoRootsParser noHandlers [getRoot, getRoot] twoRootsParser_conformsOn
    [.read "GET / HTTP/1.1\r\n\r\nGET / HTTP/1.1\r\n\r\n".toList] s
    (by rw [run_cons, hs]; rfl)
    ⟨⟨by decide, by decide⟩, fun _ _ => trivial⟩
  have hcount : ((completed [getRoot, getRoot] 36).map Request.view).length = 2 := rfl
  rw [hrec] at heq
  rw [heq, hcount] at hlen
  cases hlen

end NodeNative.Http
