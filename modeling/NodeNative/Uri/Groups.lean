import NodeNative.Uri.Extract

/-!
# The groups of a template

`getPattern` puts a group around each parameter, so a pattern should have as many groups as there are
parameters, and `saveValues` relies on it. It does exactly when each of these parentheses opens a
group where it stands (`groups_iff`): in a class, behind a `\` or in front of a `?` it does not.
-/

namespace NodeNative.Uri

open Regex Http

/-! ### The group of a parameter -/

/-- Where the parenthesis of a parameter stands: the path to the parameter, and the pattern before and
behind the `(`. -/
structure Start where
  path : List Str
  before : Str
  behind : Str

/-- The parentheses of all parameters, in the order of the pattern. -/
def Parts.starts (before behind : Str) : Parts → List Start
  | .last _ => []
  | .param text name inner rest =>
    ⟨[name], before ++ text, inner.pattern true ++ ')' :: (rest.pattern true ++ behind)⟩ ::
      (inner.starts (before ++ text ++ ['(']) (')' :: (rest.pattern true ++ behind))).map
        (fun s => { s with path := name :: s.path }) ++
      rest.starts (before ++ text ++ ['('] ++ inner.pattern true ++ [')']) behind

/-- The parenthesis opens a capturing group. -/
def Start.opens (s : Start) : Bool := (Lex.normal.after s.before).opens '(' s.behind

/-- The number of this group: groups are numbered by their opening parenthesis. -/
def Start.group (s : Start) : Nat := Lex.normal.openings s.before + 1

section
variable {parts : Parts} {before behind : Str}

/-- The parentheses stand in the order of the parameters, -/
theorem Parts.starts_path (parts : Parts) (before behind : Str) :
    (parts.starts before behind).map (·.path) = parts.paths := by
  induction parts generalizing before behind with
  | last text => rfl
  | param text name inner rest ihinner ihrest =>
    simp only [starts, paths, List.map_append, List.map_cons, List.map_map, ihrest]
    congr 2
    rw [← ihinner (before ++ text ++ ['(']) (')' :: (rest.pattern true ++ behind)), List.map_map]
    rfl

/-- one for each. -/
theorem Parts.length_starts (parts : Parts) (before behind : Str) :
    (parts.starts before behind).length = parts.count := by
  rw [← parts.length_paths, ← parts.starts_path before behind, List.length_map]

/-- No text of the template opens a capturing group. -/
def Parts.Plain (parts : Parts) : Prop := ∀ text ∈ parts.texts, Lex.normal.openings text = 0

/-- What holds of all texts holds of those of the format and of the rest. -/
theorem Parts.Plain.param {text name : Str} {inner rest : Parts}
    (h : (Parts.param text name inner rest).Plain) :
    Lex.normal.openings text = 0 ∧ inner.Plain ∧ rest.Plain := by
  refine ⟨h text (by simp [texts]), fun t ht => h t ?_, fun t ht => h t ?_⟩
  · simp [texts, ht]
  · simp [texts, ht]

/-- Outside or inside a class, and not behind a `\\`. -/
def Unescaped (q : Lex) : Prop := q = .normal ∨ q = .inClass

/-- A text without capturing groups has none in a class either. -/
theorem Unescaped.openings {q : Lex} (hq : Unescaped q) {text : Str}
    (h : Lex.normal.openings text = 0) : q.openings text = 0 := by
  rcases hq with rfl | rfl
  · exact h
  · exact (Lex.Beside.read (by decide) (by decide)).openings_eq_zero h

/-- Behind a parenthesis nothing is escaped. -/
theorem unescaped_step_paren (q : Lex) : Unescaped (q.step '(') ∧ Unescaped (q.step ')') := by
  cases q <;> simp [Unescaped, Lex.step]

/-- A `)` opens no group. -/
theorem opens_close (q : Lex) (text : Str) : q.opens ')' text = false := by
  simp [Lex.opens]

/-- The path to a parameter does not say whether its parenthesis opens a group. -/
theorem filter_opens_map (name : Str) (l : List Start) :
    ((l.map fun s => { s with path := name :: s.path }).filter Start.opens).length =
      (l.filter Start.opens).length := by
  rw [List.filter_map, List.length_map]
  rfl

/-- The pattern has as many openings as there are parentheses that open a group. -/
theorem Parts.openings_pattern (before behind : Str) (hplain : parts.Plain) (hq : Unescaped (Lex.normal.after before)) :
    (Lex.normal.after before).openings (parts.pattern true ++ behind) =
      ((parts.starts before behind).filter Start.opens).length +
        ((Lex.normal.after before).after (parts.pattern true)).openings behind := by
  induction parts generalizing before behind with
  | last text =>
    have htext : Lex.normal.openings text = 0 := hplain text (by simp [texts])
    rw [pattern, Lex.openings_append_of_eq_zero (hq.openings htext), starts]
    simp
  | param text name inner rest ihinner ihrest =>
    obtain ⟨htext, hinner, hrest⟩ := hplain.param
    have hpattern : (Parts.param text name inner rest).pattern true =
        text ++ '(' :: (inner.pattern true ++ ')' :: rest.pattern true) := by
      simp [pattern]
    -- The states behind the `(` and behind the `)`.
    have hopen : Lex.normal.after (before ++ text ++ ['(']) =
        ((Lex.normal.after before).after text).step '(' := by
      simp [Lex.after_append]
    have hclose : Lex.normal.after (before ++ text ++ ['('] ++ inner.pattern true ++ [')']) =
        ((Lex.normal.after (before ++ text ++ ['('])).after (inner.pattern true)).step ')' := by
      simp [Lex.after_append]
    have hqopen : Unescaped (Lex.normal.after (before ++ text ++ ['('])) :=
      hopen ▸ (unescaped_step_paren _).1
    have hqclose :
        Unescaped (Lex.normal.after (before ++ text ++ ['('] ++ inner.pattern true ++ [')'])) :=
      hclose ▸ (unescaped_step_paren _).2
    have hstart : ((Lex.normal.after before).after text).opens '('
        (inner.pattern true ++ ')' :: (rest.pattern true ++ behind)) =
          Start.opens ⟨[name], before ++ text,
            inner.pattern true ++ ')' :: (rest.pattern true ++ behind)⟩ := by
      rw [Start.opens, Lex.after_append]
    rw [hpattern, List.append_assoc, Lex.openings_append_of_eq_zero (hq.openings htext),
      List.cons_append, List.append_assoc, List.cons_append, Lex.openings_cons, ← hopen,
      ihinner _ _ hinner hqopen, Lex.openings_cons, opens_close, if_neg Bool.false_ne_true, Nat.zero_add,
      ← hclose, ihrest _ _ hrest hqclose, hstart, starts, List.cons_append, List.filter_cons, List.filter_append]
    have hend : (Lex.normal.after before).after
        (text ++ '(' :: (inner.pattern true ++ ')' :: rest.pattern true)) =
          (Lex.normal.after (before ++ text ++ ['('] ++ inner.pattern true ++ [')'])).after
            (rest.pattern true) := by
      simp [Lex.after_append]
    have hlength := filter_opens_map name
      (inner.starts (before ++ text ++ ['(']) (')' :: (rest.pattern true ++ behind)))
    rw [hend]
    split
    · rw [List.length_cons, List.length_append, hlength]
      omega
    · rw [List.length_append, hlength]
      omega

/-- Where every parenthesis opens a group, the pattern has as many openings as parameters. -/
theorem Parts.openings_eq_count (hplain : parts.Plain) (hq : Unescaped (Lex.normal.after before))
    (hopens : ∀ s ∈ parts.starts before (')' :: behind), s.opens = true) :
    (Lex.normal.after before).openings (parts.pattern true) = parts.count := by
  have hall : (parts.starts before (')' :: behind)).filter Start.opens =
      parts.starts before (')' :: behind) := List.filter_eq_self.mpr hopens
  have hopenings := Parts.openings_pattern before (')' :: behind) hplain hq
  rw [hall, parts.length_starts, Lex.openings_append (.inr (by simp))] at hopenings
  exact Nat.add_right_cancel hopenings

/-- A parenthesis opens a group outside classes, not escaped and not in front of a `?`. -/
theorem Start.opens_iff {s : Start} : s.opens = true ↔
    Lex.normal.after s.before = .normal ∧ s.behind.head? ≠ some '?' := by
  simp [opens, Lex.opens]

/-- A text begins like any text it is the beginning of. -/
theorem head?_ne_of_append {text : Str} (text' : Str) {c : Char} (h : (text ++ text').head? ≠ some c) :
    text.head? ≠ some c := by
  cases text with
  | nil => nofun
  | cons c' text => exact h

/-- Where every parenthesis opens a group, the groups of the parameters are numbered in the order of
the pattern. -/
theorem Parts.group_starts (before behind : Str) (hplain : parts.Plain) (hq : Unescaped (Lex.normal.after before))
    (hboundary : before.getLast? ≠ some '(' ∨ (parts.pattern true ++ behind).head? ≠ some '?')
    (hopens : ∀ s ∈ parts.starts before behind, s.opens = true) {i : Nat} {s : Start}
    (hs : (parts.starts before behind)[i]? = some s) :
    s.group = Lex.normal.openings before + 1 + i := by
  induction parts generalizing before behind i s with
  | last text => cases hs
  | param text name inner rest ihinner ihrest =>
    obtain ⟨htext, hinner, hrest⟩ := hplain.param
    rw [starts, List.cons_append] at hs hopens
    obtain ⟨hstart, hopens⟩ := List.forall_mem_cons.mp hopens
    obtain ⟨hopensInner, hopensRest⟩ := List.forall_mem_append.mp hopens
    obtain ⟨hnormal, hhead⟩ := Start.opens_iff.mp hstart
    have hbefore : Lex.normal.openings (before ++ text) = Lex.normal.openings before := by
      have hboundary' : before.getLast? ≠ some '(' ∨ text.head? ≠ some '?' := by
        refine hboundary.imp_right fun hhead => head?_ne_of_append
          ('(' :: (inner.pattern true ++ ')' :: (rest.pattern true ++ behind))) ?_
        simpa [pattern] using hhead
      rw [Lex.openings_append hboundary', hq.openings htext, Nat.add_zero]
    have hopen : Lex.normal.openings (before ++ text ++ ['(']) = Lex.normal.openings before + 1 := by
      rw [Lex.openings_append (.inr (by simp)), hbefore, hnormal]
      rfl
    have hqopen : Unescaped (Lex.normal.after (before ++ text ++ ['('])) := by
      rw [Lex.after_append, Lex.after_cons]
      exact (unescaped_step_paren _).1
    have hinnerOpens : ∀ s ∈ inner.starts (before ++ text ++ ['('])
        (')' :: (rest.pattern true ++ behind)), s.opens = true :=
      fun s hs => hopensInner { s with path := name :: s.path } (List.mem_map.mpr ⟨s, hs, rfl⟩)
    cases i with
    | zero =>
      cases hs
      rw [Start.group, hbefore, Nat.add_zero]
    | succ i =>
      rw [List.getElem?_cons_succ] at hs
      have hlength := inner.length_starts (before ++ text ++ ['('])
        (')' :: (rest.pattern true ++ behind))
      rcases Nat.lt_or_ge i inner.count with hi | hi
      · rw [List.getElem?_append_left (by rw [List.length_map]; omega), List.getElem?_map] at hs
        obtain ⟨s', hs', rfl⟩ := Option.map_eq_some_iff.mp hs
        have hgroup := ihinner _ _ hinner hqopen (.inr hhead) hinnerOpens hs'
        rw [hopen] at hgroup
        show s'.group = _
        omega
      · rw [List.getElem?_append_right (by rw [List.length_map]; omega), List.length_map, hlength] at hs
        have hclose : Lex.normal.openings (before ++ text ++ ['('] ++ inner.pattern true ++ [')']) =
            Lex.normal.openings before + 1 + inner.count := by
          rw [Lex.openings_append (.inr (by simp)),
            Lex.openings_append (.inr (head?_ne_of_append _ hhead)), hopen,
            Parts.openings_eq_count hinner hqopen hinnerOpens, Lex.openings_cons, opens_close]
          rfl
        have hqclose :
            Unescaped (Lex.normal.after (before ++ text ++ ['('] ++ inner.pattern true ++ [')'])) := by
          rw [Lex.after_append, Lex.after_cons]
          exact (unescaped_step_paren _).2
        have hlast : (before ++ text ++ ['('] ++ inner.pattern true ++ [')']).getLast? ≠ some '(' := by
          rw [List.getLast?_concat]
          decide
        have hgroup := ihrest _ _ hrest hqclose (.inl hlast) hopensRest hs
        rw [hclose] at hgroup
        omega

end

/-! ### Extraction -/

/-- The extraction pattern has a group for each parameter, and `saveValues` stores at the path of each
the text of its group and gets exactly the groups that there are, when every parenthesis that
`getPattern` puts around a parameter opens a group where it stands, and only then. -/
theorem groups_iff {formats : Formats} (hformats : Built formats) {iTemplate : Str} {t : UriTemplate}
    (ht : UriTemplate.parse formats iTemplate = .ok t) {parts : Parts}
    (hparts : t.HasParts formats parts) (hplain : parts.Plain) {iAddEndAnchor : Bool} {groups : Nat}
    (hgroups : groupCount (t.getPattern true iAddEndAnchor) = some groups) :
    (groups = parts.count ∧ ∀ iMatchResults : List Str, iMatchResults.length = groups + 1 →
      ∃ v, saveValues formats iMatchResults .empty 1 t.params t.formatNames = .ok (v, 1 + groups) ∧
        ∀ s ∈ parts.starts [] (if iAddEndAnchor then ['$'] else []),
          v.at? s.path = iMatchResults[s.group]?) ↔
      ∀ s ∈ parts.starts [] (if iAddEndAnchor then ['$'] else []), s.opens = true := by
  rw [hparts.getPattern] at hgroups
  generalize hend : (if iAddEndAnchor then ['$'] else [] : Str) = behind at hgroups ⊢
  have hnone : ∀ q : Lex, q.openings behind = 0 := by
    subst hend
    intro q
    split
    · simp [Lex.openings_cons, Lex.opens]
    · rfl
  have hcount : groups = ((parts.starts [] behind).filter Start.opens).length := by
    rw [groupCount_eq hgroups, ← Nat.add_zero (List.length _),
      ← hnone (Lex.normal.after (parts.pattern true))]
    exact Parts.openings_pattern [] behind hplain (.inl rfl)
  constructor
  · rintro ⟨heq, -⟩
    rw [hcount, ← parts.length_starts [] behind] at heq
    exact List.length_filter_eq_length_iff.mp heq
  · intro hopens
    have hgroups' : groups = parts.count := by
      rw [hcount, List.filter_eq_self.mpr hopens, parts.length_starts]
    refine ⟨hgroups', fun iMatchResults hsize => ?_⟩
    have hlength : parts.count < iMatchResults.length := by omega
    obtain ⟨v, hsave, -, hsaved⟩ := saveValues_eq hformats ht hparts .empty (fun _ _ => rfl) hlength
    refine ⟨v, hgroups' ▸ hsave, fun s hs => ?_⟩
    obtain ⟨i, hi⟩ := List.getElem?_of_mem hs
    have hpath : parts.paths[i]? = some s.path := by
      rw [← parts.starts_path [] behind, List.getElem?_map, hi]
      rfl
    have hgroup : s.group = 1 + i := by
      have hboundary : ([] : Str).getLast? ≠ some '(' := (Option.some_ne_none _).symm
      have hnumber := Parts.group_starts [] behind hplain (.inl rfl) (.inl hboundary) hopens hi
      simpa [Nat.add_comm] using hnumber
    rw [hsaved i s.path hpath, hgroup]

def codeFormat : UriTemplateFormat where
  name := "code".toList
  template := ⟨"[A-Z]\x7b2\x7d".toList, "[A-Z]\x7b2\x7d".toList, "[A-Z]\x7b2\x7d".toList, [], []⟩

def codeFormats : Formats := [("code".toList, codeFormat)]

def codeTemplate : UriTemplate where
  template := "/\x7bc:code\x7d".toList
  matchPattern := "/[A-Z]\x7b2\x7d".toList
  extractPattern := "/([A-Z]\x7b2\x7d)".toList
  params := ["c".toList]
  formatNames := ["code".toList]

/-- The table is the one that `AddGlobalFormat` makes. -/
theorem codeFormats_built : Built codeFormats := by
  have hadd : addGlobalFormat [] "code".toList "[A-Z]\x7b2\x7d".toList = .ok codeFormats := rfl
  exact .add .nil hadd

/-- The template is the one that is parsed. -/
theorem codeTemplate_parse :
    UriTemplate.parse codeFormats "/\x7bc:code\x7d".toList = .ok codeTemplate := rfl

/-- A format with parameters of its own. -/
def complexFormat : UriTemplateFormat where
  name := "complex".toList
  template := {
    template := "\x7bformat1:code\x7d_\x7bnumber:code\x7d".toList
    matchPattern := "[A-Z]\x7b2\x7d_[A-Z]\x7b2\x7d".toList
    extractPattern := "([A-Z]\x7b2\x7d)_([A-Z]\x7b2\x7d)".toList
    params := ["format1".toList, "number".toList]
    formatNames := ["code".toList, "code".toList]
  }

def complexFormats : Formats := ("complex".toList, complexFormat) :: codeFormats

def complexTemplate : UriTemplate where
  template := "/\x7bc:complex\x7d/\x7bd:code\x7d".toList
  matchPattern := "/[A-Z]\x7b2\x7d_[A-Z]\x7b2\x7d/[A-Z]\x7b2\x7d".toList
  extractPattern := "/(([A-Z]\x7b2\x7d)_([A-Z]\x7b2\x7d))/([A-Z]\x7b2\x7d)".toList
  params := ["c".toList, "d".toList]
  formatNames := ["complex".toList, "code".toList]

def complexParts : Parts :=
  .param "/".toList "c".toList
    (.param [] "format1".toList (.last "[A-Z]\x7b2\x7d".toList)
      (.param "_".toList "number".toList (.last "[A-Z]\x7b2\x7d".toList) (.last [])))
    (.param "/".toList "d".toList (.last "[A-Z]\x7b2\x7d".toList) (.last []))

/-- `AddGlobalFormat` makes this table too. -/
theorem complexFormats_built : Built complexFormats := by
  have hadd : addGlobalFormat codeFormats "complex".toList
      "\x7bformat1:code\x7d_\x7bnumber:code\x7d".toList = .ok complexFormats := rfl
  exact .add codeFormats_built hadd

/-- The template is the one that is parsed. -/
theorem complexTemplate_parse :
    UriTemplate.parse complexFormats "/\x7bc:complex\x7d/\x7bd:code\x7d".toList =
      .ok complexTemplate := rfl

/-- Its parts. -/
theorem complexTemplate_hasParts : complexTemplate.HasParts complexFormats complexParts := by
  have hcode : Made complexFormats [] [] "[A-Z]\x7b2\x7d".toList "[A-Z]\x7b2\x7d".toList
      (.last "[A-Z]\x7b2\x7d".toList) := .last _
  have hcomplex : Made complexFormats complexFormat.template.params complexFormat.template.formatNames
      complexFormat.template.matchPattern complexFormat.template.extractPattern
      (.param [] "format1".toList (.last "[A-Z]\x7b2\x7d".toList)
        (.param "_".toList "number".toList (.last "[A-Z]\x7b2\x7d".toList) (.last []))) := by
    show Made complexFormats ["format1".toList, "number".toList] ["code".toList, "code".toList]
      ([] ++ codeFormat.getPattern false ++ ("_".toList ++ codeFormat.getPattern false ++ []))
      ([] ++ codeFormat.getPattern true ++ ("_".toList ++ codeFormat.getPattern true ++ [])) _
    exact .param (by decide) rfl hcode (.param List.not_mem_nil rfl hcode (.last []))
  show Made complexFormats ["c".toList, "d".toList] ["complex".toList, "code".toList]
    ("/".toList ++ complexFormat.getPattern false ++ ("/".toList ++ codeFormat.getPattern false ++ []))
    ("/".toList ++ complexFormat.getPattern true ++ ("/".toList ++ codeFormat.getPattern true ++ []))
    complexParts
  exact .param (by decide) rfl hcomplex (.param List.not_mem_nil rfl hcode (.last []))

/-- A template whose first format has parameters of its own: four groups, two of them inside the first.
-/
theorem groups_code : 4 = complexParts.count ∧
    ∀ iMatchResults : List Str, iMatchResults.length = 5 →
    ∃ v, saveValues complexFormats iMatchResults .empty 1 complexTemplate.params
        complexTemplate.formatNames = .ok (v, 5) ∧
      ∀ s ∈ complexParts.starts [] ['$'], v.at? s.path = iMatchResults[s.group]? := by
  have hplain : complexParts.Plain := by
    simp only [Parts.Plain, complexParts, Parts.texts]
    decide
  have hgroups : groupCount (complexTemplate.getPattern true true) = some 4 := by decide +kernel
  exact (groups_iff complexFormats_built complexTemplate_parse complexTemplate_hasParts hplain
    hgroups).mpr (by decide)

def abFormat : UriTemplateFormat where
  name := "ab".toList
  template := ⟨"ab".toList, "ab".toList, "ab".toList, [], []⟩

def abFormats : Formats := [("ab".toList, abFormat)]

def classTemplate : UriTemplate where
  template := "[\x7bx:ab\x7d]".toList
  matchPattern := "[ab]".toList
  extractPattern := "[(ab)]".toList
  params := ["x".toList]
  formatNames := ["ab".toList]

/-- The parentheses of a parameter in a class are characters of the class. -/
theorem groups_class : Built abFormats ∧
    UriTemplate.parse abFormats "[\x7bx:ab\x7d]".toList = .ok classTemplate ∧
    classTemplate.HasParts abFormats
      (.param "[".toList "x".toList (.last "ab".toList) (.last "]".toList)) ∧
    ["[".toList, "ab".toList, "]".toList].map Lex.normal.openings = [0, 0, 0] ∧
    groupCount (classTemplate.getPattern true true) = some 0 ∧
    classTemplate.extract abFormats .empty "a".toList true =
      .error "iMatchResults->size() - ioPosition >= static_cast<int>(iParams.size())" := by
  have hadd : addGlobalFormat [] "ab".toList "ab".toList = .ok abFormats := by decide +kernel
  have hparts : Made abFormats ["x".toList] ["ab".toList]
      ("[".toList ++ abFormat.getPattern false ++ "]".toList)
      ("[".toList ++ abFormat.getPattern true ++ "]".toList)
      (.param "[".toList "x".toList (.last "ab".toList) (.last "]".toList)) :=
    .param List.not_mem_nil rfl (.last _) (.last _)
  refine ⟨.add .nil hadd, by decide +kernel, hparts, by decide, by decide +kernel, ?_⟩
  rfl

end NodeNative.Uri
