import NodeNative.Uri.Lossless

/-!
# The grammar of templates

`reference` reads a template from left to right by the grammar: a `:` at its start or behind a `/`
begins a parameter when a name follows, a `{` when a name and a `}` follow, and any other of these
characters is text. `getNextParameter` takes more `:` for the beginning of a parameter: also those
directly behind the place where it goes on to scan, that is behind a parameter or behind a `:` or `{`
that is text; and where no name follows it ends the scan.

`agrees` is the condition that no such `:` matters. `params_eq_reference` says that an accepted
template which meets it has the parameters of the grammar.
-/

namespace NodeNative.Uri

open Regex Http

/-! ### The grammar -/

/-- A name begins here. -/
def nameAt (text : Str) : Bool := text.head?.any isNameStart.accepts

/-- A name begins here, and a `}` follows later. -/
def bracedAt (text : Str) : Bool := nameAt text && text.tail.contains '\x7d'

/-- The names and formats of the parameters. The first `skip` characters belong to a parameter, and
`start` says that a `:` would be at the start or behind a `/`. -/
def referenceFrom : Nat → Bool → Str → List (Str × Str)
  | _, _, [] => []
  | skip + 1, _, c :: text => referenceFrom skip (c == '/') text
  | 0, start, c :: text =>
    if c == ':' && start && nameAt text then
      (upToChar '/' text, []) :: referenceFrom (upToChar '/' text).length false text
    else if c == '\x7b' && bracedAt text then
      splitFormat (upToChar '\x7d' text) :: referenceFrom ((upToChar '\x7d' text).length + 1) false text
    else referenceFrom 0 (c == '/') text

def reference (template : Str) : List (Str × Str) := referenceFrom 0 true template

/-- Whether `getNextParameter` reads the text as the grammar does. `behind` says that a `:` would be
directly behind a parameter, or behind a `:` or `{` that is text. Such a `:` in front of a name is
`wrong`; in front of anything else, and also at the start or behind a `/`, it must have no parameter
behind it. -/
def agreesFrom (wrong : Str → Bool) : Nat → Bool → Bool → Str → Bool
  | _, _, _, [] => true
  | skip + 1, _, _, c :: text => agreesFrom wrong skip (c == '/') true text
  | 0, start, behind, c :: text =>
    if c == ':' && (start || behind) then
      if nameAt text then
        if start then agreesFrom wrong (upToChar '/' text).length false true text else wrong text
      else (referenceFrom 0 false text).isEmpty
    else if c == '\x7b' && bracedAt text then
      agreesFrom wrong ((upToChar '\x7d' text).length + 1) false true text
    else agreesFrom wrong 0 (c == '/') (c == ':' || c == '\x7b') text

/-- No `:` that is directly behind a parameter, or behind a `:` or `{` that is text, is followed by a
name, and none that ends the scan has a parameter behind it. -/
def agrees (template : Str) : Bool := agreesFrom (fun _ => false) 0 true true template

/-- The name that a wrong `:` takes is the name of the next parameter of the grammar. -/
def repeatsName (text : Str) : Bool :=
  (referenceFrom 0 false text).head? == some (upToChar '/' text, [])

/-- The same up to a `:` whose name is the name of the next parameter of the grammar. -/
def agreesUpToNames (template : Str) : Bool := agreesFrom repeatsName 0 true true template

/-! ### Passing text -/

section
variable {wrong : Str → Bool} {start behind : Bool} {pre text rest : Str} {c : Char}

/-- A `:` behind the text would be at the start or behind a `/`. -/
def startAfter (start : Bool) (pre : Str) : Bool := pre.foldl (fun _ c => c == '/') start

/-- A `:` would be behind a `/` when the text ends with one. -/
theorem startAfter_of_ne_nil (h : pre ≠ []) : startAfter start pre = (pre.getLast? == some '/') := by
  obtain ⟨pre, c, rfl⟩ := List.eq_nil_or_concat pre |>.resolve_left h
  simp [startAfter]

/-- Any other character begins no parameter. -/
theorem not_start {c : Char} (hc : isStart.accepts c = false) : c ≠ ':' ∧ c ≠ '\x7b' := by
  rw [isStart_accepts, Bool.or_eq_false_iff] at hc
  exact ⟨by simpa using hc.2, by simpa using hc.1⟩

/-- The grammar passes a text without these characters, -/
theorem referenceFrom_text (hpre : ∀ c ∈ pre, isStart.accepts c = false) :
    referenceFrom 0 start (pre ++ text) = referenceFrom 0 (startAfter start pre) text := by
  induction pre generalizing start with
  | nil => rfl
  | cons c pre ih =>
    obtain ⟨hcolon, hbrace⟩ := not_start (hpre c (.head _))
    rw [List.cons_append, referenceFrom]
    simp only [beq_eq_false_iff_ne.mpr hcolon, beq_eq_false_iff_ne.mpr hbrace, Bool.false_and,
      Bool.false_eq_true, if_false]
    exact ih fun c hc => hpre c (.tail _ hc)

/-- and so does the condition. -/
theorem agreesFrom_text (hpre : ∀ c ∈ pre, isStart.accepts c = false) :
    agreesFrom wrong 0 start behind (pre ++ text) =
      agreesFrom wrong 0 (startAfter start pre) (behind && pre.isEmpty) text := by
  induction pre generalizing start behind with
  | nil => simp [startAfter]
  | cons c pre ih =>
    obtain ⟨hcolon, hbrace⟩ := not_start (hpre c (.head _))
    rw [List.cons_append, agreesFrom]
    simp only [beq_eq_false_iff_ne.mpr hcolon, beq_eq_false_iff_ne.mpr hbrace, Bool.false_and,
      Bool.false_eq_true, if_false, Bool.or_false]
    rw [ih fun c hc => hpre c (.tail _ hc)]
    simp [startAfter]

/-- The characters of a parameter are passed. -/
theorem referenceFrom_skip :
    referenceFrom (pre.length + 1) start (pre ++ c :: text) = referenceFrom 0 (c == '/') text := by
  induction pre generalizing start with
  | nil => rfl
  | cons c' pre ih => exact ih

/-- The condition passes the characters of a parameter, -/
theorem agreesFrom_skip : agreesFrom wrong (pre.length + 1) start behind (pre ++ c :: text) =
    agreesFrom wrong 0 (c == '/') true text := by
  induction pre generalizing start behind with
  | nil => rfl
  | cons c' pre ih => exact ih

/-- The characters of a name are passed. -/
theorem referenceFrom_name (hpre : '/' ∉ pre) :
    referenceFrom pre.length false (pre ++ text) = referenceFrom 0 false text := by
  induction pre with
  | nil => rfl
  | cons c pre ih =>
    have hc : (c == '/') = false := beq_eq_false_iff_ne.mpr fun heq => hpre (heq ▸ .head _)
    show referenceFrom pre.length (c == '/') (pre ++ text) = _
    rw [hc]
    exact ih fun hmem => hpre (.tail _ hmem)

/-- and those of a name. -/
theorem agreesFrom_name (hpre : '/' ∉ pre) :
    agreesFrom wrong pre.length false true (pre ++ text) = agreesFrom wrong 0 false true text := by
  induction pre with
  | nil => rfl
  | cons c pre ih =>
    have hc : (c == '/') = false := beq_eq_false_iff_ne.mpr fun heq => hpre (heq ▸ .head _)
    show agreesFrom wrong pre.length (c == '/') true (pre ++ text) = _
    rw [hc]
    exact ih fun hmem => hpre (.tail _ hmem)

/-- What begins at a character is not longer than the text. -/
theorem length_fromChar_le (b : Char) (text : Str) : (fromChar b text).length ≤ text.length :=
  (List.dropWhile_suffix _).length_le

/-- The text up to a character does not have it. -/
theorem not_mem_upToChar (b : Char) (text : Str) : b ∉ upToChar b text := by
  intro hmem
  simpa using List.mem_takeWhile_imp hmem

/-- Behind a parameter `:name`. -/
theorem referenceFrom_simple (text : Str) :
    referenceFrom (upToChar '/' text).length false text = referenceFrom 0 false (fromChar '/' text) := by
  have h : referenceFrom (upToChar '/' text).length false (upToChar '/' text ++ fromChar '/' text) =
      referenceFrom 0 false (fromChar '/' text) := referenceFrom_name (not_mem_upToChar '/' text)
  rwa [upToChar_append_fromChar] at h

/-- Behind a parameter that a `:` begins the condition goes on at the next `/`. -/
theorem agreesFrom_simple (text : Str) : agreesFrom wrong (upToChar '/' text).length false true text =
    agreesFrom wrong 0 false true (fromChar '/' text) := by
  have h : agreesFrom wrong (upToChar '/' text).length false true
      (upToChar '/' text ++ fromChar '/' text) = agreesFrom wrong 0 false true (fromChar '/' text) :=
    agreesFrom_name (not_mem_upToChar '/' text)
  rwa [upToChar_append_fromChar] at h

/-- Behind a parameter in braces. -/
theorem braced_eq (hmem : '\x7d' ∈ text) :
    upToChar '\x7d' text ++ '\x7d' :: (fromChar '\x7d' text).tail = text := by
  rcases fromChar_cases '\x7d' text with ⟨hnot, -⟩ | ⟨-, tail, htail⟩
  · exact absurd hmem hnot
  · have hall := upToChar_append_fromChar '\x7d' text
    rw [htail] at hall ⊢
    exact hall

/-- Behind a parameter in braces the grammar goes on behind the `}`, -/
theorem referenceFrom_braced (hmem : '\x7d' ∈ text) :
    referenceFrom ((upToChar '\x7d' text).length + 1) false text =
      referenceFrom 0 false (fromChar '\x7d' text).tail := by
  have h : referenceFrom ((upToChar '\x7d' text).length + 1) false
      (upToChar '\x7d' text ++ '\x7d' :: (fromChar '\x7d' text).tail) =
        referenceFrom 0 false (fromChar '\x7d' text).tail := referenceFrom_skip
  rwa [braced_eq hmem] at h

/-- and so does the condition. -/
theorem agreesFrom_braced (hmem : '\x7d' ∈ text) :
    agreesFrom wrong ((upToChar '\x7d' text).length + 1) false true text =
      agreesFrom wrong 0 false true (fromChar '\x7d' text).tail := by
  have h : agreesFrom wrong ((upToChar '\x7d' text).length + 1) false true
      (upToChar '\x7d' text ++ '\x7d' :: (fromChar '\x7d' text).tail) =
        agreesFrom wrong 0 false true (fromChar '\x7d' text).tail := agreesFrom_skip
  rwa [braced_eq hmem] at h

/-- Only the first character says whether a name begins. -/
theorem nameAt_cons : nameAt (c :: rest) = isNameStart.accepts c := rfl

/-- Where no name begins the first character is none of a name. -/
theorem not_nameAt (h : nameAt text = false) : ∀ c ∈ text.head?, isNameStart.accepts c = false := by
  intro c hc
  rw [nameAt, Option.mem_def.mp hc] at h
  exact h

/-- Without a parameter in braces either no name begins or no `}` follows. -/
theorem not_bracedAt (h : bracedAt text = false) : ∀ c rest, text = c :: rest →
    isNameStart.accepts c = true → '\x7d' ∉ rest := by
  rintro c rest rfl hc hmem
  simp [bracedAt, nameAt_cons, hc, hmem] at h

/-- A name begins with a character that ends neither a name nor braces. -/
theorem exists_of_nameAt (h : nameAt text = true) :
    ∃ c rest, text = c :: rest ∧ isNameStart.accepts c = true ∧
      upToChar '/' text = c :: upToChar '/' rest ∧ fromChar '/' text = fromChar '/' rest := by
  cases text with
  | nil => cases h
  | cons c rest =>
    have hc : c ≠ '/' := by
      rintro rfl
      cases h
    exact ⟨c, rest, rfl, h, by simp [upToChar, hc], by simp [fromChar, hc]⟩

/-- A parameter in braces has a name, and the `}` is behind its first character. -/
theorem exists_of_bracedAt (h : bracedAt text = true) :
    ∃ c rest, text = c :: rest ∧ isNameStart.accepts c = true ∧ '\x7d' ∈ rest ∧
      upToChar '\x7d' text = c :: upToChar '\x7d' rest ∧
      fromChar '\x7d' text = fromChar '\x7d' rest := by
  cases text with
  | nil => cases h
  | cons c rest =>
    rw [bracedAt, Bool.and_eq_true, nameAt_cons] at h
    have hc : c ≠ '\x7d' := by
      rintro rfl
      cases h.1
    exact ⟨c, rest, rfl, h.1, by simpa using h.2, by simp [upToChar, hc], by simp [fromChar, hc]⟩

end

/-! ### The parameters that are found -/

/-- The name, the format and the rest that `getNextParameter` returns. -/
def nameOf (found : Option (Parameter × Str)) : Option ((Str × Str) × Str) :=
  found.map fun e => ((e.1.iName, e.1.iFormat), e.2)

def nextName (text : Str) : Option ((Str × Str) × Str) := nameOf (getNextParameter text)

section
variable {pre text text' rest : Str} {c : Char}

/-- The text that was passed does not matter for the name. -/
theorem nameOf_loop (n : Nat) (iText iText' text : Str) :
    (getNextParameterLoop n iText text).map nameOf =
      (getNextParameterLoop n iText' text).map nameOf := by
  induction n generalizing iText iText' text with
  | zero => rfl
  | succ n ih =>
    rcases loop_cases text with hnone | ⟨p, spelling, rest, -, -, hsome⟩ | ⟨pre, c, rest, rfl, hloop⟩
    · rw [hnone, hnone]
    · rw [hsome, hsome]
      rfl
    · rw [hloop, hloop]
      exact ih ..

/-- The fuel of the scan does not matter when it is enough. -/
theorem nextName_eq (iText : Str) {n : Nat} {r : Option (Parameter × Str)} (hn : text.length < n)
    (h : getNextParameterLoop n iText text = some r) : nextName text = nameOf r := by
  have hsame := nameOf_loop n iText [] text
  rw [h, getNextParameter_eq hn] at hsame
  exact (Option.some.inj hsame).symm

/-- A round of the scan that only passes text. -/
theorem nextName_loop {n : Nat} {iText : Str} (hn : text.length < n + 1) (hn' : text'.length < n)
    (h : getNextParameterLoop (n + 1) [] text = getNextParameterLoop n iText text') :
    nextName text = nextName text' := by
  obtain ⟨r, hr, -⟩ := loop_enough hn' hn' iText
  rw [nextName_eq [] hn (h.trans hr), nextName_eq iText hn' hr]

/-- Without the beginning of a parameter there is none. -/
theorem nextName_none (h : ∀ c ∈ text, isStart.accepts c = false) : nextName text = none :=
  nextName_eq [] (Nat.lt_succ_self _) (loop_none h)

variable (hpre : ∀ c ∈ pre, isStart.accepts c = false)
include hpre

/-- A `:` at the start or behind a `/` takes the name up to the next `/`, -/
theorem nextName_colon (hstart : pre = [] ∨ pre.getLast? = some '/') (hname : nameAt text = true) :
    nextName (pre ++ ':' :: text) = some ((upToChar '/' text, []), fromChar '/' text) := by
  obtain ⟨c, rest, rfl, hc, hupTo, hfrom⟩ := exists_of_nameAt hname
  rw [nextName_eq [] (Nat.lt_succ_self _) (loop_colon hpre hstart hc), hupTo, hfrom]
  rfl

/-- and ends the scan when no name follows, -/
theorem nextName_malformed (hstart : pre = [] ∨ pre.getLast? = some '/')
    (hname : nameAt text = false) : nextName (pre ++ ':' :: text) = none :=
  nextName_eq [] (Nat.lt_succ_self _) (loop_colon_malformed hpre hstart (not_nameAt hname))

/-- and behind any other text the scan goes on behind it. -/
theorem nextName_colon_text (hstart : ¬ (pre = [] ∨ pre.getLast? = some '/')) :
    nextName (pre ++ ':' :: text) = nextName text := by
  refine nextName_loop (Nat.lt_succ_self _) ?_ (loop_colon_text hpre hstart)
  rw [List.length_append, List.length_cons]
  omega

/-- A `{` takes what stands up to the `}`, -/
theorem nextName_braces (hbraced : bracedAt text = true) : nextName (pre ++ '\x7b' :: text) =
    some (splitFormat (upToChar '\x7d' text), (fromChar '\x7d' text).tail) := by
  obtain ⟨c, rest, rfl, hc, hmem, hupTo, hfrom⟩ := exists_of_bracedAt hbraced
  rw [nextName_eq [] (Nat.lt_succ_self _) (loop_braces hpre hc hmem), hupTo, hfrom]
  rfl

/-- and without a name or a `}` the scan goes on behind it. -/
theorem nextName_braces_text (hbraced : bracedAt text = false) :
    nextName (pre ++ '\x7b' :: text) = nextName text := by
  refine nextName_loop (Nat.lt_succ_self _) ?_ (loop_braces_text hpre (not_bracedAt hbraced))
  rw [List.length_append, List.length_cons]
  omega

end

/-- The parameters that the loop of `parse` finds in a text. -/
inductive Scans : Str → List (Str × Str) → Prop
  | nil {text : Str} (h : nextName text = none) : Scans text []
  | cons {text rest : Str} {e : Str × Str} {l : List (Str × Str)}
    (h : nextName text = some (e, rest)) (hrest : Scans rest l) : Scans text (e :: l)

/-- Texts with the same next parameter are scanned alike. -/
theorem Scans.congr {text text' : Str} {l : List (Str × Str)} (h : Scans text l)
    (heq : nextName text = nextName text') : Scans text' l := by
  cases h with
  | nil h => exact .nil (heq ▸ h)
  | cons h hrest => exact .cons (heq ▸ h) hrest

/-- The parameters of a template that `parse` accepts. -/
theorem parseLoop_scans {formats : Formats} {n : Nat} {t t' : UriTemplate} {text : Str}
    (h : parseLoop formats n t text = some (.ok t')) : ∃ l, Scans text l ∧
      t'.params = t.params ++ l.map (·.1) ∧ t'.formatNames = t.formatNames ++ l.map (·.2) := by
  induction n generalizing t text with
  | zero => cases h
  | succ n ih =>
    rw [parseLoop] at h
    cases hnext : getNextParameter text with
    | none =>
      rw [hnext] at h
      cases h
      exact ⟨[], .nil (by rw [nextName, hnext]; rfl), by simp, by simp⟩
    | some next =>
      obtain ⟨p, rest⟩ := next
      rw [hnext] at h
      dsimp only at h
      split at h
      · cases h
      · split at h
        · cases h
        · obtain ⟨l, hl, hparams, hformats⟩ := ih h
          refine ⟨(p.iName, p.iFormat) :: l, .cons (by rw [nextName, hnext]; rfl) hl, ?_, ?_⟩
          · simp [hparams]
          · simp [hformats]

/-! ### The parameters of the grammar -/

section
variable {wrong : Str → Bool} {start behind : Bool} {pre text : Str}

/-- In the grammar a `:` at the start or behind a `/` begins a parameter, -/
theorem referenceFrom_colon (hname : nameAt text = true) : referenceFrom 0 true (':' :: text) =
    (upToChar '/' text, []) :: referenceFrom 0 false (fromChar '/' text) := by
  rw [referenceFrom, if_pos (by simp [hname]), referenceFrom_simple]

/-- and anywhere else, or with no name behind it, it is text. -/
theorem referenceFrom_colon_text (h : start = false ∨ nameAt text = false) :
    referenceFrom 0 start (':' :: text) = referenceFrom 0 false text := by
  have hnot : ¬ (':' == ':' && start && nameAt text) = true := by
    rcases h with h | h <;> simp [h]
  rw [referenceFrom, if_neg hnot, if_neg (by simp)]
  rfl

/-- A parameter in braces has its `}`. -/
theorem bracedAt_mem (hbraced : bracedAt text = true) : '\x7d' ∈ text := by
  obtain ⟨c, rest, rfl, -, hmem, -⟩ := exists_of_bracedAt hbraced
  exact .tail _ hmem

/-- In the grammar a `{` begins a parameter when a name and a `}` follow, -/
theorem referenceFrom_braces (hbraced : bracedAt text = true) :
    referenceFrom 0 start ('\x7b' :: text) =
      splitFormat (upToChar '\x7d' text) :: referenceFrom 0 false (fromChar '\x7d' text).tail := by
  rw [referenceFrom, if_neg (by simp), if_pos (by simp [hbraced]),
    referenceFrom_braced (bracedAt_mem hbraced)]

/-- and is text otherwise. -/
theorem referenceFrom_braces_text (hbraced : bracedAt text = false) :
    referenceFrom 0 start ('\x7b' :: text) = referenceFrom 0 false text := by
  rw [referenceFrom, if_neg (by simp), if_neg (by simp [hbraced])]
  rfl

/-- The condition passes a parameter that begins in both readings. -/
theorem agreesFrom_colon (hname : nameAt text = true) : agreesFrom wrong 0 true behind (':' :: text) =
    agreesFrom wrong 0 false true (fromChar '/' text) := by
  rw [agreesFrom, if_pos (by simp), if_pos hname, if_pos rfl, agreesFrom_simple]

/-- Directly behind a parameter a `:` in front of a name is taken for another one. -/
theorem agreesFrom_wrong (hname : nameAt text = true) :
    agreesFrom wrong 0 false true (':' :: text) = wrong text := by
  rw [agreesFrom, if_pos (by simp), if_pos hname, if_neg (by simp)]

/-- A `:` that ends the scan must have no parameter behind it. -/
theorem agreesFrom_malformed (h : (start || behind) = true) (hname : nameAt text = false) :
    agreesFrom wrong 0 start behind (':' :: text) = (referenceFrom 0 false text).isEmpty := by
  rw [agreesFrom, if_pos (by simpa using h), if_neg (by simp [hname])]

/-- Any other `:` is text in both readings. -/
theorem agreesFrom_colon_text :
    agreesFrom wrong 0 false false (':' :: text) = agreesFrom wrong 0 false true text := by
  rw [agreesFrom, if_neg (by simp), if_neg (by simp)]
  rfl

/-- The condition passes a parameter in braces, -/
theorem agreesFrom_braces (hbraced : bracedAt text = true) :
    agreesFrom wrong 0 start behind ('\x7b' :: text) =
      agreesFrom wrong 0 false true (fromChar '\x7d' text).tail := by
  rw [agreesFrom, if_neg (by simp), if_pos (by simp [hbraced]),
    agreesFrom_braced (bracedAt_mem hbraced)]

/-- and a `{` that is text. -/
theorem agreesFrom_braces_text (hbraced : bracedAt text = false) :
    agreesFrom wrong 0 start behind ('\x7b' :: text) = agreesFrom wrong 0 false true text := by
  rw [agreesFrom, if_neg (by simp), if_neg (by simp [hbraced])]
  rfl

/-- `getNextParameter` takes a `:` for the beginning of a parameter where it would be at the start or
behind a `/`, and where it goes on to scan. -/
theorem colon_start_iff (start : Bool) :
    (pre = [] ∨ pre.getLast? = some '/') ↔ (startAfter start pre || pre.isEmpty) = true := by
  by_cases hpre : pre = []
  · simp [hpre]
  · simp [startAfter_of_ne_nil hpre, hpre]

/-- The parameters that are found are those of the grammar when the text agrees with it, and only
then, up to repeated names. -/
theorem Scans.agrees {l : List (Str × Str)} (h : Scans text l) (start : Bool) :
    (agreesFrom (fun _ => false) 0 start true text = true → l = referenceFrom 0 start text) ∧
      (l = referenceFrom 0 start text → agreesFrom repeatsName 0 start true text = true) := by
  -- The induction is on the length of the text: a parameter, or a `:` or `{` that is text, is passed.
  induction hlen : text.length using Nat.strong_induction_on generalizing text l start with
  | h len ih =>
  subst hlen
  rcases start_cases text with hnone | ⟨pre, c, rest, rfl, rfl | rfl, hpre⟩
  · have hreference : referenceFrom 0 start (text ++ []) = [] := referenceFrom_text hnone
    have hagrees : agreesFrom repeatsName 0 start true (text ++ []) = true := agreesFrom_text hnone
    rw [List.append_nil] at hreference hagrees
    cases h with
    | nil => exact ⟨fun _ => hreference.symm, fun _ => hagrees⟩
    | cons hnext => rw [nextName_none hnone] at hnext; cases hnext
  · rw [referenceFrom_text hpre, agreesFrom_text hpre, agreesFrom_text hpre, Bool.true_and]
    have hshorter : ∀ {text' : Str}, text'.length ≤ rest.length →
        text'.length < (pre ++ ':' :: rest).length := by
      intro text' hle
      rw [List.length_append, List.length_cons]
      omega
    by_cases hstart : pre = [] ∨ pre.getLast? = some '/'
    · have hstart' := (colon_start_iff start).mp hstart
      cases hname : nameAt rest with
      | false =>
        cases h with
        | nil =>
          rw [referenceFrom_colon_text (.inr hname), agreesFrom_malformed hstart' hname,
            agreesFrom_malformed hstart' hname, List.isEmpty_iff]
          exact ⟨Eq.symm, Eq.symm⟩
        | cons hnext => rw [nextName_malformed hpre hstart hname] at hnext; cases hnext
      | true =>
        have hnext' := nextName_colon hpre hstart hname
        cases h with
        | nil hnext => rw [hnext'] at hnext; cases hnext
        | cons hnext hrest =>
          rw [hnext'] at hnext
          cases hnext
          cases hafter : startAfter start pre with
          | true =>
            rw [referenceFrom_colon hname, agreesFrom_colon hname, agreesFrom_colon hname]
            obtain ⟨hto, hfrom⟩ := ih _ (hshorter (length_fromChar_le _ _)) hrest false rfl
            exact ⟨fun hagrees => by rw [hto hagrees], fun heq => hfrom (List.cons.inj heq).2⟩
          | false =>
            -- A `:` where the scan goes on, but neither at the start nor behind a `/`.
            have hempty : pre.isEmpty = true := by simpa [hafter] using hstart'
            rw [hempty, agreesFrom_wrong hname, agreesFrom_wrong hname,
              referenceFrom_colon_text (.inl rfl)]
            refine ⟨nofun, fun heq => ?_⟩
            rw [repeatsName, ← heq]
            simp
    · have hstart' := mt (colon_start_iff start).mpr hstart
      rw [Bool.not_eq_true, Bool.or_eq_false_iff] at hstart'
      rw [hstart'.1, hstart'.2, referenceFrom_colon_text (.inl rfl), agreesFrom_colon_text,
        agreesFrom_colon_text]
      exact ih _ (hshorter (Nat.le_refl _)) (h.congr (nextName_colon_text hpre hstart)) false rfl
  · rw [referenceFrom_text hpre, agreesFrom_text hpre, agreesFrom_text hpre]
    have hshorter : ∀ {text' : Str}, text'.length ≤ rest.length →
        text'.length < (pre ++ '\x7b' :: rest).length := by
      intro text' hle
      rw [List.length_append, List.length_cons]
      omega
    cases hbraced : bracedAt rest with
    | false =>
      rw [referenceFrom_braces_text hbraced, agreesFrom_braces_text hbraced,
        agreesFrom_braces_text hbraced]
      exact ih _ (hshorter (Nat.le_refl _)) (h.congr (nextName_braces_text hpre hbraced)) false rfl
    | true =>
      have hnext' := nextName_braces hpre hbraced
      cases h with
      | nil hnext => rw [hnext'] at hnext; cases hnext
      | cons hnext hrest =>
        rw [hnext'] at hnext
        cases hnext
        rw [referenceFrom_braces hbraced, agreesFrom_braces hbraced, agreesFrom_braces hbraced]
        have hlen : (fromChar '\x7d' rest).tail.length ≤ rest.length :=
          ((List.tail_sublist _).length_le).trans (length_fromChar_le _ _)
        obtain ⟨hto, hfrom⟩ := ih _ (hshorter hlen) hrest false rfl
        exact ⟨fun hagrees => by rw [hto hagrees], fun heq => hfrom (List.cons.inj heq).2⟩

end

/-- A template that `parse` accepts and that agrees with the grammar has its parameters; one that
does not agree with it has others, but for a `:` that takes the name of the next parameter of the
grammar. -/
theorem params_eq_reference {formats : Formats} {iTemplate : Str} {t : UriTemplate}
    (ht : UriTemplate.parse formats iTemplate = .ok t) :
    (agrees iTemplate = true → t.params.zip t.formatNames = reference iTemplate) ∧
      (t.params.zip t.formatNames = reference iTemplate → agreesUpToNames iTemplate = true) := by
  obtain ⟨l, hl, hparams, hformats⟩ := parseLoop_scans (extends_of_parse ht).1
  have hzip : t.params.zip t.formatNames = l := by
    rw [hparams, hformats, List.nil_append, List.nil_append, List.zip_map']
    simp
  rw [hzip]
  exact hl.agrees true

def dashTemplate : UriTemplate where
  template := "/\x7bfrom\x7d-\x7bto\x7d".toList
  matchPattern := "/[^/]+-[^/]+".toList
  extractPattern := "/([^/]+)-([^/]+)".toList
  params := ["from".toList, "to".toList]
  formatNames := [[], []]

/-- A template with a text between two parameters in braces. -/
theorem params_eq_reference_dash : dashTemplate.params.zip dashTemplate.formatNames =
    reference "/\x7bfrom\x7d-\x7bto\x7d".toList := by
  have hparse : UriTemplate.parse [] "/\x7bfrom\x7d-\x7bto\x7d".toList = .ok dashTemplate := by
    decide +kernel
  exact (params_eq_reference hparse).1 (by decide +kernel)

def colonTemplate : UriTemplate where
  template := "/\x7bfrom\x7d:\x7bto\x7d".toList
  matchPattern := "/[^/]+:\x7bto\x7d".toList
  extractPattern := "/([^/]+):\x7bto\x7d".toList
  params := ["from".toList]
  formatNames := [[]]

/-- The scan of `/{from}:{to}` ends at the `:`. -/
theorem params_not_reference :
    UriTemplate.parse [] "/\x7bfrom\x7d:\x7bto\x7d".toList = .ok colonTemplate ∧
      reference "/\x7bfrom\x7d:\x7bto\x7d".toList = [("from".toList, []), ("to".toList, [])] ∧
      colonTemplate.params.zip colonTemplate.formatNames ≠
        reference "/\x7bfrom\x7d:\x7bto\x7d".toList := by
  decide +kernel

end NodeNative.Uri
