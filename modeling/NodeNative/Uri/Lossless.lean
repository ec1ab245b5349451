import NodeNative.Uri.Scan

/-!
# Parsing loses nothing

Each round of `getNextParameter` passes a character, and each parameter that it returns is behind the
text that was passed and in front of the text that is left (`loop_cases`). So the loops end, and a
template is its texts and parameters in sequence (`parse_lossless`), from which both patterns are
made.
-/

namespace NodeNative.Uri

open Regex Http

/-- How a parameter is written. -/
def Parameter.Spelled (p : Parameter) (spelling : Str) : Prop :=
  spelling = ':' :: p.iName ∧ p.iFormat = [] ∨
  spelling = '\x7b' :: p.iName ++ ['\x7d'] ∧ p.iFormat = [] ∨
  spelling = '\x7b' :: p.iName ++ ':' :: p.iFormat ++ ['\x7d']

variable {text rest : Str} {formats : Formats}

/-- A parameter is spelled with at least one character. -/
theorem Parameter.Spelled.length_pos {p : Parameter} {spelling : Str} (h : p.Spelled spelling) :
    0 < spelling.length := by
  rcases h with ⟨rfl, -⟩ | ⟨rfl, -⟩ | rfl <;> simp

/-- What stands in braces is a name, or a name and a format. -/
theorem spelled_splitFormat (iText nameAndFormat : Str) :
    (⟨iText, (splitFormat nameAndFormat).1, (splitFormat nameAndFormat).2⟩ : Parameter).Spelled
      ('\x7b' :: nameAndFormat ++ ['\x7d']) := by
  have hall := upToChar_append_fromChar ':' nameAndFormat
  rcases fromChar_cases ':' nameAndFormat with ⟨-, hnil⟩ | ⟨-, tail, htail⟩
  · rw [hnil, List.append_nil] at hall
    refine .inr (.inl ⟨?_, ?_⟩)
    · simp only [splitFormat, hall]
    · simp only [splitFormat, hnil, List.tail_nil]
  · refine .inr (.inr ?_)
    rw [htail] at hall
    simp only [splitFormat, htail, List.tail_cons, List.cons_append]
    rw [hall]

/-- What a round does: there is no parameter, or one is returned, or a character is passed. -/
theorem loop_cases (text : Str) :
    (∀ n iText, getNextParameterLoop (n + 1) iText text = some none) ∨
    (∃ (p : Parameter) (spelling rest : Str), text = p.iText ++ spelling ++ rest ∧ p.Spelled spelling ∧
      ∀ n iText, getNextParameterLoop (n + 1) iText text =
        some (some ({ p with iText := iText ++ p.iText }, rest))) ∨
    ∃ pre c rest, text = pre ++ c :: rest ∧ ∀ n iText, getNextParameterLoop (n + 1) iText text =
      getNextParameterLoop n (iText ++ pre ++ [c]) rest := by
  rcases start_cases text with hnone | ⟨pre, c, rest, rfl, rfl | rfl, hpre⟩
  · exact .inl fun n iText => loop_none hnone
  · by_cases hstart : pre = [] ∨ pre.getLast? = some '/'
    · rcases rest with _ | ⟨c, rest⟩
      · exact .inl fun n iText => loop_colon_malformed hpre hstart nofun
      · cases hc : isNameStart.accepts c with
        | false =>
          refine .inl fun n iText => loop_colon_malformed hpre hstart fun c' hc' => ?_
          cases hc'
          exact hc
        | true =>
          refine .inr (.inl ⟨⟨pre, c :: upToChar '/' rest, []⟩, ':' :: c :: upToChar '/' rest,
            fromChar '/' rest, ?_, .inl ⟨rfl, rfl⟩, fun n iText => loop_colon hpre hstart hc⟩)
          simp [upToChar_append_fromChar]
    · exact .inr (.inr ⟨pre, ':', rest, rfl, fun n iText => loop_colon_text hpre hstart⟩)
  · by_cases hparam : ∃ c rest₁, rest = c :: rest₁ ∧ isNameStart.accepts c = true ∧ '\x7d' ∈ rest₁
    · obtain ⟨c, rest, rfl, hc, hmem⟩ := hparam
      refine .inr (.inl ⟨_, _, _, ?_, spelled_splitFormat pre (c :: upToChar '\x7d' rest),
        fun n iText => loop_braces hpre hc hmem⟩)
      rcases fromChar_cases '\x7d' rest with ⟨hnot, -⟩ | ⟨-, tail, htail⟩
      · exact absurd hmem hnot
      · have hall := upToChar_append_fromChar '\x7d' rest
        rw [htail] at hall ⊢
        simp [hall]
    · refine .inr (.inr ⟨pre, '\x7b', rest, rfl, fun n iText => loop_braces_text hpre ?_⟩)
      exact fun c rest₁ heq hc hmem => hparam ⟨c, rest₁, heq, hc, hmem⟩

/-! ### The loops -/

/-- With more rounds than characters the loop of `getNextParameter` ends, and the number of rounds
does not matter. -/
theorem loop_enough {n m : Nat} (hn : text.length < n) (hm : text.length < m) (iText : Str) :
    ∃ r, getNextParameterLoop n iText text = some r ∧ getNextParameterLoop m iText text = some r := by
  induction n generalizing m iText text with
  | zero => omega
  | succ n ih =>
    obtain ⟨m, rfl⟩ : ∃ k, m = k + 1 := ⟨m - 1, by omega⟩
    rcases loop_cases text with hnone | ⟨p, spelling, rest, -, -, hsome⟩ | ⟨pre, c, rest, rfl, hloop⟩
    · exact ⟨none, hnone n iText, hnone m iText⟩
    · exact ⟨_, hsome n iText, hsome m iText⟩
    · rw [hloop n, hloop m]
      rw [List.length_append, List.length_cons] at hn hm
      exact ih (by omega) (by omega) _

/-- `getNextParameter` is its loop. -/
theorem getNextParameter_eq {n : Nat} (hn : text.length < n) :
    getNextParameterLoop n [] text = some (getNextParameter text) := by
  obtain ⟨r, hr, hr'⟩ := loop_enough hn (Nat.lt_succ_self text.length) []
  rw [hr, getNextParameter, hr']
  rfl

/-- A parameter that the loop returns is behind its text. -/
theorem loop_some {n : Nat} {iText : Str} {p : Parameter}
    (h : getNextParameterLoop n iText text = some (some (p, rest))) :
    ∃ pre spelling, p.iText = iText ++ pre ∧ text = pre ++ spelling ++ rest ∧ p.Spelled spelling := by
  induction n generalizing iText text with
  | zero => cases h
  | succ n ih =>
    rcases loop_cases text with hnone | ⟨p', spelling, rest', rfl, hspelled, hsome⟩ |
      ⟨pre, c, rest', rfl, hloop⟩
    · rw [hnone] at h
      cases h
    · rw [hsome] at h
      cases h
      exact ⟨p'.iText, spelling, rfl, rfl, hspelled⟩
    · rw [hloop] at h
      obtain ⟨pre', spelling, hp, rfl, hspelled⟩ := ih h
      exact ⟨pre ++ [c] ++ pre', spelling, by simp [hp], by simp, hspelled⟩

/-- A parameter of a template, how it is written and its format. -/
structure Parsed where
  parameter : Parameter
  spelling : Str
  globalFormat : UriTemplateFormat

/-- The text and the spelling of a parameter. -/
def Parsed.source (e : Parsed) : Str := e.parameter.iText ++ e.spelling

/-- The text of a parameter and the pattern of its format. -/
def Parsed.pattern (e : Parsed) (iForExtraction : Bool) : Str :=
  e.parameter.iText ++ e.globalFormat.getPattern iForExtraction

/-- The template `t'` is `t` with the parameters `ps` and the text `rest` behind them, which stand in
sequence in `text`. -/
structure Extends (formats : Formats) (t t' : UriTemplate) (text : Str) (ps : List Parsed)
    (rest : Str) : Prop where
  source : text = ps.flatMap Parsed.source ++ rest
  spelled : ∀ e ∈ ps, e.parameter.Spelled e.spelling
  formats : ∀ e ∈ ps, formatOf formats e.parameter.iFormat = .ok e.globalFormat
  template : t'.template = t.template
  params : t'.params = t.params ++ ps.map (·.parameter.iName)
  formatNames : t'.formatNames = t.formatNames ++ ps.map (·.parameter.iFormat)
  nodup : t.params.Nodup → t'.params.Nodup
  matchPattern : t'.matchPattern = t.matchPattern ++ ps.flatMap (·.pattern false) ++ rest
  extractPattern : t'.extractPattern = t.extractPattern ++ ps.flatMap (·.pattern true) ++ rest

/-- With more rounds than characters the loop of `parse` ends, and extends its template. -/
theorem parseLoop_enough (formats : Formats) {n m : Nat} (hn : text.length < n)
    (hm : text.length < m) (t : UriTemplate) :
    ∃ r, parseLoop formats n t text = some r ∧ parseLoop formats m t text = some r ∧
      ∀ t', r = .ok t' → ∃ ps rest, Extends formats t t' text ps rest := by
  induction n generalizing m t text with
  | zero => omega
  | succ n ih =>
    obtain ⟨m, rfl⟩ : ∃ k, m = k + 1 := ⟨m - 1, by omega⟩
    simp only [parseLoop]
    cases hnext : getNextParameter text with
    | none =>
      refine ⟨_, rfl, rfl, fun t' ht' => ⟨[], text, ?_⟩⟩
      cases ht'
      exact ⟨rfl, nofun, nofun, rfl, by simp, by simp, id, by simp, by simp⟩
    | some next =>
      obtain ⟨p, rest⟩ := next
      obtain ⟨pre, spelling, hp, rfl, hspelled⟩ :=
        loop_some ((getNextParameter_eq (Nat.lt_succ_self _)).trans (congrArg some hnext))
      have hpos := hspelled.length_pos
      simp only [List.length_append] at hn hm
      dsimp only
      split
      · exact ⟨_, rfl, rfl, nofun⟩
      · rename_i hnew
        cases hformat : formatOf formats p.iFormat with
        | error condition => exact ⟨_, rfl, rfl, nofun⟩
        | ok globalFormat =>
          obtain ⟨r, hr, hr', hextends⟩ := ih (show rest.length < n by omega)
            (show rest.length < m by omega) { t with
              params := t.params ++ [p.iName]
              formatNames := t.formatNames ++ [p.iFormat]
              matchPattern := t.matchPattern ++ (p.iText ++ globalFormat.getPattern false)
              extractPattern := t.extractPattern ++ (p.iText ++ globalFormat.getPattern true) }
          refine ⟨r, hr, hr', fun t' ht' => ?_⟩
          obtain ⟨ps, rest', h⟩ := hextends t' ht'
          rw [List.nil_append] at hp
          refine ⟨⟨p, spelling, globalFormat⟩ :: ps, rest', ?_⟩
          exact {
            source := by simp [Parsed.source, h.source, hp]
            spelled := List.forall_mem_cons.mpr ⟨hspelled, h.spelled⟩
            formats := List.forall_mem_cons.mpr ⟨hformat, h.formats⟩
            template := h.template
            params := by simp [h.params]
            formatNames := by simp [h.formatNames]
            nodup := fun hnodup => h.nodup (List.nodup_append.mpr ⟨hnodup, by simp,
              fun name hname name' hname' heq => hnew (List.mem_singleton.mp hname' ▸ heq ▸ hname)⟩)
            matchPattern := by simp [h.matchPattern, Parsed.pattern]
            extractPattern := by simp [h.extractPattern, Parsed.pattern] }

/-- A template that is accepted extends the empty one. -/
theorem extends_of_parse {formats : Formats} {iTemplate : Str} {t : UriTemplate}
    (ht : UriTemplate.parse formats iTemplate = .ok t) :
    parseLoop formats (iTemplate.length + 1) ⟨iTemplate, [], [], [], []⟩ iTemplate = some (.ok t) ∧
      ∃ ps rest, Extends formats ⟨iTemplate, [], [], [], []⟩ t iTemplate ps rest := by
  obtain ⟨r, hr, -, hextends⟩ := parseLoop_enough formats
    (Nat.lt_succ_self iTemplate.length) (Nat.lt_succ_self _) ⟨iTemplate, [], [], [], []⟩
  rw [UriTemplate.parse, hr] at ht
  split at ht
  · cases ht
  · obtain rfl : r = .ok t := ht
    exact ⟨hr, hextends t rfl⟩

/-- The loops of `getNextParameter` and `parse` end, with any number of rounds above the length of
the template, and a template that is accepted is its texts and parameters in sequence. -/
theorem parse_lossless (formats : Formats) (iTemplate : Str) :
    (∀ n, iTemplate.length < n →
      getNextParameterLoop n [] iTemplate = some (getNextParameter iTemplate)) ∧
    (∀ n, iTemplate.length < n → ∃ r, parseLoop formats n ⟨iTemplate, [], [], [], []⟩ iTemplate = some r ∧
      (containCapturingGroup iTemplate = false → UriTemplate.parse formats iTemplate = r)) ∧
    ∀ t, UriTemplate.parse formats iTemplate = .ok t → ∃ (ps : List Parsed) (rest : Str),
      iTemplate = ps.flatMap (fun e => e.parameter.iText ++ e.spelling) ++ rest ∧
      (∀ e ∈ ps, e.parameter.Spelled e.spelling ∧
        formatOf formats e.parameter.iFormat = .ok e.globalFormat) ∧
      t.template = iTemplate ∧
      t.params = ps.map (·.parameter.iName) ∧ t.formatNames = ps.map (·.parameter.iFormat) ∧
      t.params.Nodup ∧
      t.matchPattern = ps.flatMap (fun e =>
        e.parameter.iText ++ e.globalFormat.getPattern false) ++ rest ∧
      t.extractPattern = ps.flatMap (fun e =>
        e.parameter.iText ++ e.globalFormat.getPattern true) ++ rest := by
  refine ⟨fun n hn => getNextParameter_eq hn, fun n hn => ?_, fun t ht => ?_⟩
  · obtain ⟨r, hr, hr', -⟩ := parseLoop_enough formats hn (Nat.lt_succ_self _)
      ⟨iTemplate, [], [], [], []⟩
    refine ⟨r, hr, fun hgroup => ?_⟩
    rw [UriTemplate.parse, hgroup, hr']
    rfl
  · obtain ⟨-, ps, rest, h⟩ := extends_of_parse ht
    exact ⟨ps, rest, h.source, fun e he => ⟨h.spelled e he, h.formats e he⟩, h.template, h.params,
      h.formatNames, h.nodup .nil, h.matchPattern, h.extractPattern⟩

def keyTemplate : Str := "/\x7bkey\x7d/x".toList

def parsedKeyTemplate : UriTemplate where
  template := keyTemplate
  matchPattern := "/[^/]+/x".toList
  extractPattern := "/([^/]+)/x".toList
  params := ["key".toList]
  formatNames := [[]]

/-- The template as it is parsed. -/
theorem parse_keyTemplate : UriTemplate.parse [] keyTemplate = .ok parsedKeyTemplate := rfl

/-- A format that is spelled out between the name and the `}`. -/
theorem parse_lossless_key : ∃ (ps : List Parsed) (rest : Str),
    keyTemplate = ps.flatMap (fun e => e.parameter.iText ++ e.spelling) ++ rest ∧
    parsedKeyTemplate.params = ps.map (·.parameter.iName) := by
  obtain ⟨ps, rest, hsource, -, -, hparams, -⟩ :=
    (parse_lossless [] keyTemplate).2.2 _ parse_keyTemplate
  exact ⟨ps, rest, hsource, hparams⟩

end NodeNative.Uri
