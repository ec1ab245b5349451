import NodeNative.Http.Framing

/-!
# Reading a header block back

A recipient cuts a header block at its line ends and each line behind the first at its first `": "`.
`getMessageHeaderRaw` writes what `setHeader` was given as it is, so the lines are the headers of the
message exactly when no key or value holds a line end and no key holds `": "`
(`readHeaderBlock_iff`). A response's own first line never holds a line end (`lineEnd_firstLine_iff`).
-/

namespace NodeNative.Http

/-- The text holds a line end. -/
def LineEnd (str : Str) : Prop := ['\r', '\n'] <:+: str

instance (str : Str) : Decidable (LineEnd str) := inferInstanceAs (Decidable (_ <:+: _))

/-! ### The reader -/

/-- The headers in the lines up to the empty line, which ends the block. -/
def readLines : List Str → Option Headers
  | [] => none
  | line :: lines =>
    if line = [] then if lines = [[]] then some [] else none
    else do
      let e ← Cut.first? ':' ' ' line
      let headers ← readLines lines
      pure (e :: headers)

/-- The first line of a header block and its headers. -/
def readHeaderBlock (raw : Str) : Option (Str × Headers) :=
  match Cut.all '\r' '\n' raw with
  | [] => none
  | first :: lines => (readLines lines).map (first, ·)

/-- Every header that is read was cut from a line. -/
theorem first?_of_readLines {lines : List Str} {headers : Headers}
    (h : readLines lines = some headers) :
    ∀ e ∈ headers, ∃ line ∈ lines, Cut.first? ':' ' ' line = some e := by
  induction lines generalizing headers with
  | nil => cases h
  | cons line lines ih =>
    rw [readLines] at h
    split at h
    · split at h
      · cases h
        exact fun e he => absurd he List.not_mem_nil
      · cases h
    · obtain ⟨e, hfirst, hrest⟩ := Option.bind_eq_some_iff.1 h
      obtain ⟨headers', hread, hcons⟩ := Option.bind_eq_some_iff.1 hrest
      cases hcons
      intro e' he'
      rcases List.mem_cons.1 he' with rfl | he'
      · exact ⟨line, .head _, hfirst⟩
      · obtain ⟨line', hline', hcut⟩ := ih hread e' he'
        exact ⟨line', .tail _ hline', hcut⟩

/-! ### The lines of the headers -/

/-- A header that can be read back. -/
def Readable (e : Str × Str) : Prop :=
  ¬ LineEnd e.1 ∧ ¬ [':', ' '] <:+: e.1 ∧ ¬ LineEnd e.2

/-- The line of a header without its end. -/
def headerText (e : Str × Str) : Str := e.1 ++ ": ".toList ++ e.2

/-- A header line is not empty. -/
theorem headerText_ne_nil (e : Str × Str) : headerText e ≠ [] := by simp [headerText]

/-- The separator takes no part in a line end. -/
theorem lineEnd_headerText (e : Str × Str) : LineEnd (headerText e) ↔ LineEnd e.1 ∨ LineEnd e.2 :=
  Cut.infix_append_append (by decide) (by decide) (by decide)

/-- A field without a colon and a blank in it is read up to the first of them. -/
theorem first?_headerText {e : Str × Str} (h : ¬ [':', ' '] <:+: e.1) :
    Cut.first? ':' ' ' (headerText e) = some e := by
  rw [headerText, List.append_assoc]
  exact Cut.first?_append h (by decide) e.2

/-- The lines of such headers are read back. -/
theorem readLines_map {headers : Headers} (h : ∀ e ∈ headers, ¬ [':', ' '] <:+: e.1) :
    readLines (headers.map headerText ++ [[], []]) = some headers := by
  induction headers with
  | nil => rfl
  | cons e headers ih =>
    rw [List.map_cons, List.cons_append, readLines, if_neg (headerText_ne_nil e),
      first?_headerText (h e (.head _)), ih fun e' he' => h e' (.tail _ he')]
    rfl

/-- Headers without a line end in them are cut into their lines. -/
theorem all_headerLines {headers : Headers} (h : ∀ e ∈ headers, ¬ LineEnd (headerText e)) :
    Cut.all '\r' '\n' (headers.flatMap MessageHead.headerLine ++ MessageHead.crlf) =
      headers.map headerText ++ [[], []] := by
  induction headers with
  | nil => rfl
  | cons e headers ih =>
    have hline : (e :: headers).flatMap MessageHead.headerLine ++ MessageHead.crlf =
        headerText e ++ '\r' :: '\n' ::
          (headers.flatMap MessageHead.headerLine ++ MessageHead.crlf) := by
      simp [MessageHead.headerLine, MessageHead.crlf, headerText]
    rw [hline, Cut.all_append (h e (.head _)) (by decide), ih fun e' he' => h e' (.tail _ he')]
    rfl

/-- A header block reads back as its first line and its headers exactly when the line ends and the
separators in it are those of the block. -/
theorem readHeaderBlock_getMessageHeaderRaw (h : MessageHead) :
    readHeaderBlock h.getMessageHeaderRaw = some (h.firstLine, h.headers) ↔
      ¬ LineEnd h.firstLine ∧ ∀ e ∈ h.headers, Readable e := by
  constructor
  · intro hread
    unfold readHeaderBlock at hread
    split at hread
    · cases hread
    · rename_i first lines hall
      obtain ⟨headers, hlines, hpair⟩ := Option.map_eq_some_iff.1 hread
      have hclean {line : Str} (hline : line ∈ first :: lines) : ¬ LineEnd line :=
        Cut.not_infix_of_mem_all (hall ▸ hline)
      cases hpair
      refine ⟨hclean (.head _), fun e he => ?_⟩
      obtain ⟨line, hline, hcut⟩ := first?_of_readLines hlines e he
      obtain ⟨htext, hkey⟩ := Cut.first?_eq_some hcut
      have hnot := hclean (.tail _ hline)
      have heq : line = headerText e := by rw [htext]; simp [headerText]
      rw [heq, lineEnd_headerText, not_or] at hnot
      exact ⟨hnot.1, hkey, hnot.2⟩
  · rintro ⟨hfirst, hheaders⟩
    have hraw : h.getMessageHeaderRaw = h.firstLine ++ '\r' :: '\n' ::
        (h.headers.flatMap MessageHead.headerLine ++ MessageHead.crlf) := by
      simp [MessageHead.getMessageHeaderRaw, MessageHead.crlf]
    rw [readHeaderBlock, hraw, Cut.all_append hfirst (by decide), all_headerLines]
    · show (readLines _).map _ = _
      rw [readLines_map fun e he => (hheaders e he).2.1]
      rfl
    · intro e he
      rw [lineEnd_headerText, not_or]
      exact ⟨(hheaders e he).1, (hheaders e he).2.2⟩

/-! ### The first line -/

/-- A line end in what the first line is made of. -/
def FirstLine.LineEnd : FirstLine → Prop
  | .request method path => Http.LineEnd method ∨ Http.LineEnd path
  | .response _ => False

/-- A text without a carriage return has no line end. -/
theorem not_lineEnd_of_not_mem {str : Str} (h : '\r' ∉ str) : ¬ LineEnd str :=
  fun hend => h (hend.subset (.head _))

/-- A number has no carriage return in it, -/
theorem cr_not_mem_toString (n : Nat) : '\r' ∉ (toString n).toList := fun h => by
  have hdigit : '\r'.isDigit :=
    Nat.isDigit_of_mem_toDigits (b := 10) (by omega) (by omega) (Nat.toList_repr ▸ h)
  exact absurd hdigit (by decide)

/-- with a sign or without, -/
theorem cr_not_mem_toString_int (n : Int) : '\r' ∉ (toString n).toList := by
  cases n with
  | ofNat n => exact cr_not_mem_toString n
  | negSucc n =>
    show '\r' ∉ ("-" ++ toString (n + 1)).toList
    rw [String.toList_append, List.mem_append, not_or]
    exact ⟨by decide, cr_not_mem_toString (n + 1)⟩

/-- and neither has the version of the protocol. -/
theorem MessageHead.cr_not_mem_getHttpVersionString (h : MessageHead) :
    '\r' ∉ h.getHttpVersionString := by
  unfold getHttpVersionString
  rw [List.append_assoc, List.mem_append, List.mem_append, not_or, not_or]
  refine ⟨by decide, cr_not_mem_toString h.httpMajor, ?_⟩
  split
  · rw [List.mem_cons, not_or]
    exact ⟨by decide, cr_not_mem_toString h.httpMinor⟩
  · exact List.not_mem_nil

/-- No text of the table holds a line end. -/
theorem cr_not_mem_getStatusText (status : Int) : '\r' ∉ getStatusText status := by
  have hall : ∀ entry ∈ statusCodes, '\r' ∉ entry.2.toList := by decide +kernel
  unfold getStatusText
  cases hlookup : statusCodes.lookup status with
  | none => decide
  | some text =>
    obtain ⟨l, r, htable, -⟩ := List.lookup_eq_some_iff.1 hlookup
    exact hall (status, text) (htable ▸ List.mem_append_right l (.head r))

/-- Only the method and the path of a request can put a line end into the first line. -/
theorem lineEnd_firstLine_iff (h : MessageHead) : LineEnd h.firstLine ↔ h.line.LineEnd := by
  have hversion := not_lineEnd_of_not_mem h.cr_not_mem_getHttpVersionString
  unfold MessageHead.firstLine
  split
  · rename_i method path hline
    have hspace (l r : Str) : LineEnd (l ++ " ".toList ++ r) ↔ LineEnd l ∨ LineEnd r :=
      Cut.infix_append_append (by decide) (by decide) (by decide)
    rw [hspace, hspace, hline]
    simp [hversion, FirstLine.LineEnd]
  · rename_i statusCode hline
    rw [hline]
    refine ⟨fun hend => not_lineEnd_of_not_mem ?_ hend, False.elim⟩
    simp only [List.mem_append, not_or]
    exact ⟨⟨⟨⟨h.cr_not_mem_getHttpVersionString, by decide⟩, cr_not_mem_toString_int statusCode⟩,
      by decide⟩, cr_not_mem_getStatusText statusCode⟩

namespace OutgoingMessage

/-! ### What `setHeader` can do to the block -/

/-- A new message with some calls of `setHeader` has one header for each key, with the value set last,
and its header block reads back as the first line and these headers exactly when no key or value holds
a line end, no key holds `": "`, and the method and the path of a request hold no line end. -/
theorem readHeaderBlock_iff (line : FirstLine) (major minor : Nat) (es : List (Str × Str)) :
    OrderedMap.Sorted ciLess ((new line major minor).setHeaders es).headers ∧
    (∀ key, ((new line major minor).setHeaders es).headers.getHeader key =
      (OrderedMap.last? ciLess key es).or
        (Headers.getHeader [("Content-Type".toList, "text/html".toList)] key)) ∧
    (readHeaderBlock ((new line major minor).setHeaders es).head.getMessageHeaderRaw =
        some (((new line major minor).setHeaders es).head.firstLine,
          ((new line major minor).setHeaders es).headers) ↔
      ¬ line.LineEnd ∧ ∀ e ∈ ((new line major minor).setHeaders es).headers, Readable e) := by
  refine ⟨?_, getHeader_setHeaders line major minor es, ?_⟩
  · rw [setHeaders_eq]
    exact OrderedMap.Sorted.insertAll (List.pairwise_singleton _ _) es
  · have hline : ((new line major minor).setHeaders es).head.line = line := by
      rw [setHeaders_eq]
      rfl
    have hfirst := lineEnd_firstLine_iff ((new line major minor).setHeaders es).head
    rw [hline] at hfirst
    rw [← hfirst]
    exact readHeaderBlock_getMessageHeaderRaw ((new line major minor).setHeaders es).head

/-- A value with a line end adds a header that nobody set. -/
theorem setHeader_adds_line :
    readHeaderBlock ((new (.response 302) 1 1).setHeaders
        [("Location".toList, "/\r\nSet-Cookie: id=1".toList)]).head.getMessageHeaderRaw =
      some ("HTTP/1.1 302 Found".toList, [("Content-Type".toList, "text/html".toList),
        ("Location".toList, "/".toList), ("Set-Cookie".toList, "id=1".toList)]) ∧
    ((new (.response 302) 1 1).setHeaders
        [("Location".toList, "/\r\nSet-Cookie: id=1".toList)]).headers.getHeader
      "Set-Cookie".toList = none := by
  decide

end OutgoingMessage

end NodeNative.Http
