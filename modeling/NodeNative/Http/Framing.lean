import NodeNative.Http.Outgoing

/-!
# Framing of outgoing messages

`writeData` fixes with the header block how a recipient finds the end of the body: by the length of the
first text (`sendHeader_length`), or in chunks (`sendHeader_chunked`). Nothing in `writeData` writes the
chunks, and a message with a length is closed behind its first text. So a message of one text is framed
as its header block says and no other message is (`sendAll_framed_iff`).
-/

namespace NodeNative.Http

/-! ### What a header block announces -/

/-- The value of a hexadecimal digit. -/
def hexDigit? (c : Char) : Option Nat :=
  if c.isDigit then some (c.toNat - '0'.toNat)
  else if 'a' ≤ c ∧ c ≤ 'f' then some (c.toNat - 'a'.toNat + 10)
  else if 'A' ≤ c ∧ c ≤ 'F' then some (c.toNat - 'A'.toNat + 10)
  else none

/-- The size at the front of a chunk. -/
def chunkSize? (digits : Str) : Option Nat :=
  if digits = [] then none else digits.foldlM (fun n c => (hexDigit? c).map (16 * n + ·)) 0

/-- What may stand behind the size of a chunk. -/
def ChunkExtension (ext : Str) : Prop := ext = [] ∨ ext.head? = some ';' ∧ '\n' ∉ ext

/-- A body in the chunked transfer coding and what it decodes to: chunks with their sizes in front of
them, and a chunk of size 0 with the trailer lines. -/
inductive Chunked : Str → Str → Prop
  | last {size ext : Str} {trailer : List Str} (hsize : chunkSize? size = some 0)
      (hext : ChunkExtension ext) (htrailer : ∀ line ∈ trailer, line ≠ [] ∧ '\n' ∉ line) :
      Chunked (size ++ ext ++ MessageHead.crlf ++ trailer.flatMap (· ++ MessageHead.crlf) ++
        MessageHead.crlf) []
  | chunk {size ext data body payload : Str} (hsize : chunkSize? size = some data.length)
      (hext : ChunkExtension ext) (hdata : data ≠ []) (hbody : Chunked body payload) :
      Chunked (size ++ ext ++ MessageHead.crlf ++ data ++ MessageHead.crlf ++ body) (data ++ payload)

/-- The coding adds to the text. -/
theorem Chunked.length_lt {body payload : Str} (h : Chunked body payload) :
    payload.length < body.length := by
  induction h with
  | last =>
    simp only [List.length_append, MessageHead.crlf, List.length_cons, List.length_nil]
    omega
  | chunk hsize hext hdata hbody ih =>
    simp only [List.length_append]
    omega

example : Chunked "1f;x=1\r\nabcdefghijklmnopqrstuvwxyz01234\r\n0\r\n\r\n".toList
    "abcdefghijklmnopqrstuvwxyz01234".toList :=
  @Chunked.chunk "1f".toList ";x=1".toList "abcdefghijklmnopqrstuvwxyz01234".toList _ [] rfl
    (.inr ⟨rfl, by decide⟩) (by decide)
    (@Chunked.last ['0'] [] [] rfl (.inl rfl) fun _ => (absurd · List.not_mem_nil))

/-- The value of a `Content-Length`. -/
def parseLength (value : Str) : Option Nat :=
  if !value.isEmpty && value.all Char.isDigit then some (Nat.ofDigitChars 10 value 0) else none

/-- What `operator<<` writes for a number reads back as the number. -/
theorem parseLength_toString (n : Nat) : parseLength (toString n).toList = some n := by
  have hdigits : (toString n).toList = Nat.toDigits 10 n := Nat.toList_repr
  have hall : (Nat.toDigits 10 n).all Char.isDigit = true := List.all_eq_true.2 fun c hc =>
    Nat.isDigit_of_mem_toDigits (by omega) (by omega) hc
  have hne : (Nat.toDigits 10 n).isEmpty = false :=
    List.isEmpty_eq_false_iff.2 Nat.toDigits_ne_nil
  rw [hdigits, parseLength, hall, hne, Nat.ofDigitChars_ten_toDigits]
  rfl

/-- What a recipient takes from a body behind these headers. -/
def DecodesTo (headers : Headers) (body payload : Str) : Prop :=
  match headers.getHeader "Transfer-Encoding".toList with
  | some coding => coding = "chunked".toList ∧ Chunked body payload
  | none =>
    match headers.getHeader "Content-Length".toList with
    | some value => parseLength value = some body.length ∧ payload = body
    | none => False

/-- The bytes of the packets are one header block and a body that it describes. -/
def FramedAs (packets : List OutgoingPacket) (payload : Str) : Prop :=
  ∃ head body, packets.filterMap OutgoingPacket.head = [head] ∧
    (packets.map OutgoingPacket.bytes).flatten = head.getMessageHeaderRaw ++ body ∧
    DecodesTo head.headers body payload

/-- Texts that are sent as they are do not make a body in chunks. -/
theorem not_framedAs_of_chunked {head : MessageHead}
    (hencoding : head.headers.getHeader "Transfer-Encoding".toList = some "chunked".toList)
    (w : Str) (strs : List Str) :
    ¬ FramedAs (⟨some head, w⟩ :: strs.map (OutgoingPacket.mk none)) (w ++ strs.flatten) := by
  rintro ⟨head', body, hhead, hbytes, hdecode⟩
  have hnone : (strs.map (OutgoingPacket.mk none)).filterMap OutgoingPacket.head = [] := by
    simp [List.filterMap_map]
  have htexts : (strs.map (OutgoingPacket.mk none)).map OutgoingPacket.bytes = strs := by
    simp [Function.comp_def, OutgoingPacket.bytes]
  rw [List.filterMap_cons, hnone] at hhead
  cases hhead
  rw [List.map_cons, htexts, List.flatten_cons, OutgoingPacket.bytes, List.append_assoc] at hbytes
  -- the body is the texts, and a body in chunks is longer than what it decodes to
  obtain rfl := List.append_cancel_left hbytes
  rw [DecodesTo, hencoding] at hdecode
  exact absurd hdecode.2.length_lt (Nat.lt_irrefl _)

namespace OutgoingMessage

/-! ### The flags -/

/-- Setting headers is inserting them into the map. -/
theorem setHeaders_eq (m : OutgoingMessage) (es : List (Str × Str)) :
    m.setHeaders es = { m with headers := OrderedMap.insertAll ciLess m.headers es } := by
  induction es generalizing m with
  | nil => rfl
  | cons e es ih => exact ih (m.setHeader e.1 e.2)

/-- A header that is set is found under every spelling, and the others are as they were. -/
theorem getHeader_set (headers : Headers) (key key' value : Str) :
    (headers.set key value).getHeader key' =
      if OrderedMap.Equiv ciLess key key' then some value else headers.getHeader key' :=
  OrderedMap.find?_insert key key' value headers

/-- A header of a new message is the one set last, and `Content-Type` is there from the start. -/
theorem getHeader_setHeaders (line : FirstLine) (major minor : Nat) (es : List (Str × Str))
    (key : Str) : ((new line major minor).setHeaders es).headers.getHeader key =
      (OrderedMap.last? ciLess key es).or
        (Headers.getHeader [("Content-Type".toList, "text/html".toList)] key) := by
  rw [setHeaders_eq]
  exact OrderedMap.find?_insertAll key _ es

/-- A message that ends with its first text, or is not sent in chunks, is closed with the length of the
text in its header block. -/
theorem sendHeader_length {m : OutgoingMessage} (h : m.last = true ∨ m.chunkedEncoding = false)
    (hlength : m.headers.getHeader "Content-Length".toList = none) (str : Str) :
    (m.sendHeader str).closed = true ∧ ∃ connection, (m.sendHeader str).headers =
      (m.headers.set "Content-Length".toList (toString str.length).toList).set
        "Connection".toList connection := by
  have hnone : (m.headers.getHeader "Content-Length".toList).isNone = true := by rw [hlength]; rfl
  cases hlast : m.last <;> cases hchunked : m.chunkedEncoding <;>
    simp only [hlast, hchunked, Bool.false_eq_true, or_self, reduceCtorEq] at h <;>
    simp only [sendHeader, setHeader, hlast, hchunked, hnone, Bool.false_eq_true, if_true, if_false,
      Bool.not_false, Bool.true_and] <;>
    exact ⟨trivial, _, rfl⟩

/-- A message that is sent in chunks says so in its header block, and stays open. -/
theorem sendHeader_chunked {m : OutgoingMessage} (hlast : m.last = false)
    (hchunked : m.chunkedEncoding = true) (str : Str) :
    (m.sendHeader str).closed = m.closed ∧ (m.sendHeader str).last = false ∧
      ∃ headers, (m.sendHeader str).headers =
        Headers.set headers "Transfer-Encoding".toList "chunked".toList := by
  simp only [sendHeader, setHeader, hlast, hchunked, Bool.false_eq_true, if_true, if_false,
    Bool.not_true, Bool.false_and]
  exact ⟨trivial, trivial, _, rfl⟩

/-! ### Writing -/

/-- The first text goes with the header block. Only keep-alive may have changed before it. -/
theorem writeData_first {m : OutgoingMessage} (hsent : m.headerSent = false)
    (hclosed : m.closed = false) (str : Str) :
    ∃ m₁ : OutgoingMessage,
      m.writeData str = .ok (m₁.sendHeader str, ⟨some (m₁.sendHeader str).head, str⟩) ∧
      m₁.headers = m.headers ∧ m₁.closed = m.closed ∧ m₁.last = m.last ∧
      m₁.chunkedEncoding = m.chunkedEncoding := by
  have hwrite {m : OutgoingMessage} (hsent : m.headerSent = false) (hclosed : m.closed = false) :
      m.writeMessage str = .ok (m.sendHeader str, ⟨some (m.sendHeader str).head, str⟩) := by
    simp [writeMessage, hsent, hclosed]
  unfold writeData
  split
  · exact ⟨m, hwrite hsent hclosed, rfl, rfl, rfl, rfl⟩
  · split
    · exact ⟨_, hwrite hsent hclosed, rfl, rfl, rfl, rfl⟩
    · exact ⟨m, hwrite hsent hclosed, rfl, rfl, rfl, rfl⟩

/-- Behind the header block there is only text. -/
theorem writeData_headerSent {m : OutgoingMessage} (hsent : m.headerSent = true)
    (hclosed : m.closed = false) (str : Str) : m.writeData str = .ok (m, ⟨none, str⟩) := by
  have hwrite : m.writeMessage str = .ok (m, ⟨none, str⟩) := by simp [writeMessage, hsent, hclosed]
  unfold writeData
  split
  · exact hwrite
  · simpa [hsent] using hwrite

/-- Nothing is written to a message that is closed. -/
theorem writeData_closed {m : OutgoingMessage} (h : m.closed = true) (str : Str) :
    m.writeData str = .error (assertionFailed "!_closed") := by
  have hwrite {m : OutgoingMessage} (h : m.closed = true) :
      m.writeMessage str = .error (assertionFailed "!_closed") := by simp [writeMessage, h]
  unfold writeData
  split
  · exact hwrite h
  · split
    · exact hwrite h
    · exact hwrite h

/-- Ending an open message writes the last text. -/
theorem endData_eq {m m' : OutgoingMessage} {packet : OutgoingPacket} {s : Str}
    (hclosed : m.closed = false) (hlast : m.last = false)
    (hwrite : ({ m with last := true } : OutgoingMessage).writeData s = .ok (m', packet)) :
    m.endData s = .ok ({ m' with closed := true, sent := true }, packet) := by
  unfold endData
  rw [if_neg (by simp [hclosed]), if_neg (by simp [hlast]), hwrite]

/-- The texts behind the header block. -/
theorem sendAll_headerSent {m : OutgoingMessage} (hsent : m.headerSent = true)
    (hclosed : m.closed = false) (hlast : m.last = false) (writes : List Str) (s : Str) :
    m.sendAll writes s = .ok ((writes ++ [s]).map (OutgoingPacket.mk none)) := by
  induction writes with
  | nil =>
    have hwrite := writeData_headerSent (m := { m with last := true }) hsent hclosed s
    rw [sendAll, endData_eq hclosed hlast hwrite]
    rfl
  | cons w writes ih =>
    rw [sendAll, writeData_headerSent hsent hclosed]
    show (m.sendAll writes s >>= _) = _
    rw [ih]
    rfl

/-- Nothing is written to a message that is closed. -/
theorem sendAll_closed {m : OutgoingMessage} (h : m.closed = true) (writes : List Str) (s : Str) :
    m.sendAll writes s = .error (assertionFailed "!_closed") := by
  cases writes with
  | nil =>
    simp only [sendAll, endData, h, if_true]
    rfl
  | cons w writes =>
    rw [sendAll, writeData_closed h]
    rfl

/-! ### A message without headers that frame it -/

/-- Nothing is sent, and no header describes the body. -/
structure Unframed (m : OutgoingMessage) : Prop where
  headerSent : m.headerSent = false
  closed : m.closed = false
  last : m.last = false
  contentLength : m.headers.getHeader "Content-Length".toList = none
  transferEncoding : m.headers.getHeader "Transfer-Encoding".toList = none

/-- No entry sets a header that frames the body. -/
def SetsNoFraming (es : List (Str × Str)) : Prop :=
  ∀ e ∈ es, ¬ OrderedMap.Equiv ciLess e.1 "Content-Length".toList ∧
    ¬ OrderedMap.Equiv ciLess e.1 "Transfer-Encoding".toList

/-- Headers that frame no body leave a message unframed. -/
theorem unframed_setHeaders (line : FirstLine) (major minor : Nat) {es : List (Str × Str)}
    (hes : SetsNoFraming es) : ((new line major minor).setHeaders es).Unframed := by
  have hlast {key : Str} (hkey : ∀ e ∈ es, ¬ OrderedMap.Equiv ciLess e.1 key) :
      OrderedMap.last? ciLess key es = none := by
    rw [OrderedMap.last?, List.find?_eq_none.2, Option.map_none]
    exact fun e he => by simpa using hkey e (List.mem_reverse.1 he)
  have hheader (key : Str) := getHeader_setHeaders line major minor es key
  constructor
  · rw [setHeaders_eq]
    rfl
  · rw [setHeaders_eq]
    rfl
  · rw [setHeaders_eq]
    rfl
  · rw [hheader, hlast fun e he => (hes e he).1]
    rfl
  · rw [hheader, hlast fun e he => (hes e he).2]
    rfl

/-- A message that is ended with its first text is framed by the length of the text. -/
theorem Unframed.endData {m : OutgoingMessage} (h : m.Unframed) (s : Str) :
    ∃ m' head, m.endData s = .ok (m', ⟨some head, s⟩) ∧ DecodesTo head.headers s s := by
  obtain ⟨m₁, hwrite, hheaders, -, hlast, -⟩ :=
    writeData_first (m := { m with last := true }) h.headerSent h.closed s
  obtain ⟨-, connection, hset⟩ := sendHeader_length (m := m₁) (.inl hlast)
    (hheaders ▸ h.contentLength) s
  refine ⟨_, (m₁.sendHeader s).head, endData_eq h.closed h.last hwrite, ?_⟩
  have hencoding : (m₁.sendHeader s).headers.getHeader "Transfer-Encoding".toList = none := by
    rw [hset, getHeader_set, if_neg, getHeader_set, if_neg, hheaders]
    · exact h.transferEncoding
    · decide
    · decide
  have hlength : (m₁.sendHeader s).headers.getHeader "Content-Length".toList =
      some (toString s.length).toList := by
    rw [hset, getHeader_set, if_neg, getHeader_set, if_pos]
    · decide
    · decide
  show DecodesTo (m₁.sendHeader s).headers s s
  unfold DecodesTo
  rw [hencoding, hlength]
  exact ⟨parseLength_toString s.length, rfl⟩

/-- The first text of a message that is sent in chunks. -/
theorem Unframed.writeData_chunked {m : OutgoingMessage} (h : m.Unframed)
    (hchunked : m.chunkedEncoding = true) (w : Str) :
    ∃ m' head, m.writeData w = .ok (m', ⟨some head, w⟩) ∧
      head.headers.getHeader "Transfer-Encoding".toList = some "chunked".toList ∧
      m'.headerSent = true ∧ m'.closed = false ∧ m'.last = false := by
  obtain ⟨m₁, hwrite, -, hclosed, hlast, hencoding⟩ := writeData_first h.headerSent h.closed w
  obtain ⟨hopen, hmore, headers, hset⟩ := sendHeader_chunked (hlast.trans h.last)
    (hencoding.trans hchunked) w
  refine ⟨_, _, hwrite, ?_, rfl, hopen.trans (hclosed.trans h.closed), hmore⟩
  show (m₁.sendHeader w).headers.getHeader _ = _
  rw [hset, getHeader_set, if_pos]
  decide

/-- The first text of a message that is not sent in chunks closes it. -/
theorem Unframed.writeData_length {m : OutgoingMessage} (h : m.Unframed)
    (hchunked : m.chunkedEncoding = false) (w : Str) :
    ∃ m' packet, m.writeData w = .ok (m', packet) ∧ m'.closed = true := by
  obtain ⟨m₁, hwrite, hheaders, -, -, hencoding⟩ := writeData_first h.headerSent h.closed w
  obtain ⟨hclosed, -⟩ := sendHeader_length (m := m₁) (.inr (hencoding.trans hchunked))
    (hheaders ▸ h.contentLength) w
  exact ⟨_, _, hwrite, hclosed⟩

/-! ### The framing of a message -/

/-- A message is framed as announced exactly when its body is one text: with a `writeData` in front of
`endData`, a client request announces chunks and sends the texts as they are, and a response fails the
assertion that it is not closed. -/
theorem sendAll_framed_iff (line : FirstLine) (major minor : Nat) {es : List (Str × Str)}
    (hes : SetsNoFraming es) (writes : List Str) (s : Str) :
    (∃ packets, ((new line major minor).setHeaders es).sendAll writes s = .ok packets ∧
      FramedAs packets (writes.flatten ++ s)) ↔ writes = [] := by
  have hopen := unframed_setHeaders line major minor hes
  have hkind : ((new line major minor).setHeaders es).chunkedEncoding = line.isRequest := by
    rw [setHeaders_eq]
    rfl
  generalize (new line major minor).setHeaders es = m at hopen hkind
  constructor
  · rintro ⟨packets, hsend, head, body, hhead, hbytes, hdecode⟩
    cases writes with
    | nil => rfl
    | cons w writes =>
      exfalso
      cases hchunked : m.chunkedEncoding with
      | false =>
        obtain ⟨m', packet, hwrite, hclosed⟩ := hopen.writeData_length hchunked w
        rw [sendAll, hwrite] at hsend
        change (m'.sendAll writes s >>= _) = _ at hsend
        rw [sendAll_closed hclosed] at hsend
        cases hsend
      | true =>
        obtain ⟨m', head', hwrite, hencoding, hsent, hclosed, hlast⟩ :=
          hopen.writeData_chunked hchunked w
        rw [sendAll, hwrite] at hsend
        change (m'.sendAll writes s >>= _) = _ at hsend
        rw [sendAll_headerSent hsent hclosed hlast] at hsend
        cases hsend
        refine not_framedAs_of_chunked hencoding w (writes ++ [s]) ⟨head, body, hhead, hbytes, ?_⟩
        simpa using hdecode
  · rintro rfl
    obtain ⟨m', head, hend, hdecode⟩ := hopen.endData s
    refine ⟨[⟨some head, s⟩], ?_, head, s, rfl, ?_, hdecode⟩
    · rw [sendAll, hend]
      rfl
    · simp [OutgoingPacket.bytes]

/-- A response with a header and a text. -/
theorem sendAll_framed_of_end :
    ∃ packets, ((new (.response 200) 1 1).setHeaders [("X-Id".toList, "7".toList)]).sendAll []
      "ok".toList = .ok packets ∧ FramedAs packets "ok".toList := by
  have hes : SetsNoFraming [("X-Id".toList, "7".toList)] := fun e he => by
    cases List.mem_singleton.1 he
    decide
  exact (sendAll_framed_iff (.response 200) 1 1 hes [] "ok".toList).2 rfl

/-- A request and a response with a `writeData` in front of `endData`. -/
theorem sendAll_not_framed :
    (∃ packets, (ofRequest "POST".toList "/".toList).sendAll ["a".toList] "b".toList =
      .ok packets ∧ ¬ FramedAs packets "ab".toList) ∧
    (new (.response 200) 1 1).sendAll ["a".toList] "b".toList =
      .error (assertionFailed "!_closed") := by
  refine ⟨⟨_, rfl, ?_⟩, rfl⟩
  exact not_framedAs_of_chunked (by decide) "a".toList ["b".toList]

end OutgoingMessage

end NodeNative.Http
