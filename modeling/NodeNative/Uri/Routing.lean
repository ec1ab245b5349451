import NodeNative.Uri.Extract
import NodeNative.Uri.Precedence
import NodeNative.Uri.PrefixMount

/-!
# Routing and extraction

`matchUri` asks the pattern for the end of the path, and the extraction that follows it does not. They
are about the same text when the template, as a matcher tries its choices, comes to the whole path
before any shorter text (`agrees_iff`). With a choice that is content with less, extraction stops there
(`not_agrees`).
-/

namespace NodeNative.Uri

open Regex Http

/-! ### What the code relies on -/

/-- What is extracted after `matchUri` is the text that it has matched. Source: `ServerPlugin.cpp:79`
`ServerPlugin::execute`. -/
def CallbackDataBase.Agrees (c : CallbackDataBase) (formats : Formats) (values : UriTemplateValue)
    (u : Str) : Prop :=
  ∀ oLength, c.matchUri u = .ok (some oLength) →
    ∃ values', c.uri.extract formats values u false = .ok (some values') ∧
      values'.value = u.take oLength

/-! ### What is meant -/

/-- When the template takes the whole path, this is what it takes first. -/
def Parts.PrefersWhole (parts : Parts) (u : Str) : Prop :=
  ∀ r, parts.expression = some r → (∃ s ∈ r.ends ⟨0, u, []⟩, s.rest = []) →
    ∃ s, (r.ends ⟨0, u, []⟩).head? = some s ∧ s.rest = []

/-- An alternative of the template in front of its last `|` takes some start of the path. The `$` is not
for these. -/
def Parts.TakesEarlier (parts : Parts) (u : Str) : Prop :=
  ∃ p, parts.readInPlace .init = some p ∧ p.current.done ⟨0, u, []⟩ ≠ []

section
variable {formats : Formats} {parts : Parts} {u : Str} {r : Re}

/-! ### The code -/

/-- An end anchor takes nothing, at the end of the text. -/
theorem mem_ends_eol {s s' : State} : s' ∈ Re.eol.ends s ↔ s' = s ∧ s.rest = [] := by
  show s' ∈ ite (s.rest = []) [s] [] ↔ _
  split <;> simp [*]

/-- The expression of `matchUri`: the end of the path is asked for behind the last alternative. -/
theorem parse_getPattern_anchored {t : UriTemplate} (hparts : t.HasParts formats parts)
    (hr : parts.expression = some r) (hkeeps : parts.keeps .init = true) :
    ∃ p r', parts.readInPlace .init = some p ∧ Regex.parse (t.getPattern false true) = some r' ∧
      r.ends = p.current.done.alt p.current.next ∧
      r'.ends = p.current.done.alt (p.current.next.seq Re.eol.ends) := by
  obtain ⟨p, hfeed, hready, -, houter, hends, -⟩ :=
    parts.feed_pattern hr false fun _ => hkeeps
  have hpattern : t.getPattern false true = parts.pattern false ++ ['$'] := by
    rw [hparts.getPattern, if_pos rfl]
  have hstep : p.feed ['$'] = some { p.push .eol with mode := .quantified none } := by
    rw [Parser.feed_cons, hready.step]
    rfl
  have hfinish : Parser.finish { p.push .eol with mode := .quantified none } =
      some (p.push .eol).current.re :=
    Parser.finish_of_ready (.inr ⟨none, rfl⟩) houter
  refine ⟨p, (p.push .eol).current.re, (parts.readInPlace_eq _).trans hfeed, ?_, hends.symm.trans (Open.ends_re _), ?_⟩
  · rw [hpattern, Regex.parse, Parser.feed_append, hfeed, Option.bind_some, hstep, Option.bind_some,
      hfinish]
  · rw [Open.ends_re]
    exact congrArg _ (ends_seqOf_cons _ _)

/-- `matchUri` of an entry that is anchored at both ends. -/
theorem matchUri_both {c : CallbackDataBase} (hwhole : c.uriRegexMatchWholePath = false)
    (hparse : Regex.parse (c.uri.getPattern false true) = some r) (oLength : Nat) :
    c.matchUri u = .ok (some oLength) ↔
      (∃ s ∈ r.ends ⟨0, u, []⟩, s.rest = []) ∧ u ≠ [] ∧ oLength = u.length := by
  rw [matchUri_eq_some hparse, hwhole, if_neg Bool.false_ne_true, ← matchWhole_isSome_iff,
    Option.isSome_iff_exists]
  have hlength : ∀ m, r.matchWhole u = some m → m.length = u.length :=
    fun m hm => congrArg List.length (matchWhole_text hm)
  constructor
  · rintro ⟨m, hm, hsome⟩
    rw [hlength m hm] at hsome
    split at hsome
    · rename_i hpos
      cases hsome
      exact ⟨⟨m, hm⟩, List.ne_nil_of_length_pos hpos.1, rfl⟩
    · cases hsome
  · rintro ⟨⟨m, hm⟩, hne, rfl⟩
    exact ⟨m, hm, by rw [hlength m hm, if_pos ⟨List.length_pos_of_ne_nil hne, .inl rfl⟩]⟩

/-- `matchUri` of an entry that is anchored at the start. -/
theorem matchUri_start {c : CallbackDataBase} (hwhole : c.uriRegexMatchWholePath = true)
    (hparse : Regex.parse (c.uri.getPattern false true) = some r) (oLength : Nat) :
    c.matchUri u = .ok (some oLength) ↔
      ∃ s, (r.ends ⟨0, u, []⟩).head? = some s ∧ oLength = s.pos ∧ 0 < s.pos ∧
        (s.pos = u.length ∨ u[s.pos]? = some '/') := by
  have hfirst := matchStart_text r u
  have hlength : ∀ s ∈ r.ends ⟨0, u, []⟩, (u.take s.pos).length = s.pos := by
    intro s hs
    obtain ⟨n, hn, rfl⟩ := advance_of_mem_ends hs
    rw [State.advance_pos, Nat.zero_add]
    exact List.length_take_of_le hn
  rw [matchUri_eq_some hparse, hwhole, if_pos rfl]
  cases hhead : (r.ends ⟨0, u, []⟩).head? with
  | none =>
    rw [hhead, Option.map_none, Option.map_eq_none_iff] at hfirst
    simp [matchRegex, hfirst]
  | some s =>
    rw [hhead, Option.map_some] at hfirst
    obtain ⟨m, hm, htext⟩ := Option.map_eq_some_iff.mp hfirst
    have hm' : m.length = s.pos := by
      rw [Match.length, htext, hlength s (List.mem_of_head? hhead)]
    constructor
    · rintro ⟨m', hmatch, hsome⟩
      cases hm.symm.trans hmatch
      rw [hm'] at hsome
      split at hsome
      · rename_i hcond
        cases hsome
        exact ⟨s, rfl, rfl, hcond.1, hcond.2⟩
      · cases hsome
    · rintro ⟨s', hs', rfl, hpos, hend⟩
      cases hs'
      exact ⟨m, hm, by rw [hm', if_pos ⟨hpos, hend⟩]⟩

/-- Extraction takes what the template takes first. -/
theorem extract_first (hformats : Built formats) {iTemplate : Str} {t : UriTemplate}
    (ht : UriTemplate.parse formats iTemplate = .ok t) (hparts : t.HasParts formats parts)
    (hr : parts.expression = some r) {values : UriTemplateValue}
    (hnew : ∀ name ∈ t.params, values.child? name = none) {n : Nat} (hn : n ≤ u.length) :
    (∃ values', t.extract formats values u false = .ok (some values') ∧ values'.value = u.take n) ↔
      ∃ s, (r.ends ⟨0, u, []⟩).head? = some s ∧ s.pos = n := by
  obtain ⟨p, hfeed, -, hfinish, -, hends, hcount⟩ := parts.feed_pattern hr true nofun
  have hpattern : t.extractPattern = parts.pattern true := (Made.patterns hparts).2
  have hparse : Regex.parse t.extractPattern = some p.current.re := by
    rw [hpattern, Regex.parse, hfeed, Option.bind_some, hfinish]
  have hgroups : groupCount t.extractPattern = some p.groups := by
    rw [hpattern, groupCount, hfeed, Option.bind_some, hfinish, Option.map_some]
  have hfirst := matchStart_text p.current.re u
  rw [hends] at hfirst
  rw [UriTemplate.extract, hparse, hgroups]
  dsimp only
  rw [if_neg Bool.false_ne_true, matchRegex]
  cases hhead : (r.ends ⟨0, u, []⟩).head? with
  | none =>
    rw [hhead, Option.map_none, Option.map_eq_none_iff] at hfirst
    rw [hfirst]
    simp
  | some s =>
    rw [hhead, Option.map_some] at hfirst
    obtain ⟨m, hm, htext⟩ := Option.map_eq_some_iff.mp hfirst
    have hpiece : str (pieces p.groups m) 0 = .ok m.text := by
      simp [str, pieces, Match.str]
    have hlength : parts.count < (pieces p.groups m).length := by
      rw [pieces, List.length_map, List.length_range]
      exact Nat.lt_succ_of_le (hcount rfl)
    obtain ⟨values', hsave, hvalue, -⟩ :=
      saveValues_eq hformats ht hparts { values with value := m.text } hnew hlength
    rw [hm]
    simp only [hpiece, hsave, bind, Except.bind, pure, Except.pure, Except.ok.injEq,
      Option.some.injEq, exists_eq_left']
    rw [hvalue]
    show m.text = u.take n ↔ s.pos = n
    rw [htext]
    -- Two starts of the path are the same text when they are as long.
    obtain ⟨k, hk, rfl⟩ := advance_of_mem_ends (List.mem_of_head? hhead)
    rw [State.advance_pos, Nat.zero_add]
    have hk' : k ≤ u.length := hk
    constructor
    · intro heq
      have hlen := congrArg List.length heq
      rwa [List.length_take_of_le hk', List.length_take_of_le hn] at hlen
    · rintro rfl
      rfl

/-- The whole path is what ends at its length. -/
theorem rest_eq_nil_iff {s : State} (hs : s ∈ r.ends ⟨0, u, []⟩) : s.rest = [] ↔ s.pos = u.length := by
  obtain ⟨n, hn, rfl⟩ := advance_of_mem_ends hs
  have hn' : n ≤ u.length := hn
  rw [State.advance_rest, State.advance_pos, List.drop_eq_nil_iff]
  show u.length ≤ n ↔ 0 + n = u.length
  omega

/-- A first match that is the whole path. -/
def FirstIsWhole (r : Re) (u : Str) : Prop :=
  ∃ s, (r.ends ⟨0, u, []⟩).head? = some s ∧ s.pos = u.length

/-- Preferring the whole path is a property of the expression. -/
theorem prefersWhole_iff (hr : parts.expression = some r) : parts.PrefersWhole u ↔
    ((∃ s ∈ r.ends ⟨0, u, []⟩, s.rest = []) → u ≠ [] → FirstIsWhole r u) := by
  have hfirst : (∃ s, (r.ends ⟨0, u, []⟩).head? = some s ∧ s.rest = []) ↔ FirstIsWhole r u := by
    refine exists_congr fun s => and_congr_right fun hs => ?_
    exact rest_eq_nil_iff (List.mem_of_head? hs)
  constructor
  · intro h hwhole _
    exact hfirst.mp (h r hr hwhole)
  · intro h r' hr' hwhole
    cases hr.symm.trans hr'
    refine hfirst.mpr ?_
    by_cases hu : u = []
    · -- There is nothing else to take.
      subst hu
      obtain ⟨s, hs, -⟩ := hwhole
      obtain ⟨s₀, l, hlist⟩ := List.exists_cons_of_ne_nil (List.ne_nil_of_mem hs)
      obtain ⟨n, hn, rfl⟩ := advance_of_mem_ends (hlist ▸ List.mem_cons_self : s₀ ∈ r.ends ⟨0, [], []⟩)
      refine ⟨_, by rw [hlist]; rfl, ?_⟩
      rw [Nat.le_zero.mp hn]
      rfl
    · exact h hwhole hu

/-- Where the end of the path is asked for, the whole path is what `matchUri` matches. -/
theorem matchUri_whole_iff {c : CallbackDataBase} (hparts : c.uri.HasParts formats parts)
    (hr : parts.expression = some r) (hkeeps : parts.keeps .init = true)
    (hearlier : ¬ (c.uriRegexMatchWholePath = true ∧ parts.TakesEarlier u)) (oLength : Nat) :
    c.matchUri u = .ok (some oLength) ↔
      (∃ s ∈ r.ends ⟨0, u, []⟩, s.rest = []) ∧ u ≠ [] ∧ oLength = u.length := by
  obtain ⟨p, r', hread, hparse, hends, hends'⟩ :=
    parse_getPattern_anchored hparts hr hkeeps
  have hlist' : r'.ends ⟨0, u, []⟩ =
      p.current.done ⟨0, u, []⟩ ++ (p.current.next ⟨0, u, []⟩).flatMap Re.eol.ends :=
    congrFun hends' _
  have hwhole : (∃ s ∈ r'.ends ⟨0, u, []⟩, s.rest = []) ↔ ∃ s ∈ r.ends ⟨0, u, []⟩, s.rest = [] := by
    rw [hlist', hends, Matcher.alt]
    refine exists_congr fun s => and_congr_left fun hs => ?_
    rw [List.mem_append, List.mem_append, List.mem_flatMap]
    refine or_congr_right ⟨?_, fun hmem => ⟨s, hmem, mem_ends_eol.mpr ⟨rfl, hs⟩⟩⟩
    rintro ⟨s₁, hs₁, hmem⟩
    obtain ⟨rfl, -⟩ := mem_ends_eol.mp hmem
    exact hs₁
  rw [← hwhole]
  cases hanchor : c.uriRegexMatchWholePath with
  | false => exact matchUri_both hanchor hparse oLength
  | true =>
    rw [matchUri_start hanchor hparse]
    have hdone : p.current.done ⟨0, u, []⟩ = [] :=
      Decidable.not_not.mp fun hne => hearlier ⟨hanchor, p, hread, hne⟩
    have hend : ∀ s ∈ r'.ends ⟨0, u, []⟩, s.rest = [] ∧ s.pos = u.length := by
      intro s hs
      have hrest : s.rest = [] := by
        rw [hlist', hdone, List.nil_append, List.mem_flatMap] at hs
        obtain ⟨s₁, -, hs₁⟩ := hs
        obtain ⟨rfl, hrest⟩ := mem_ends_eol.mp hs₁
        exact hrest
      exact ⟨hrest, (rest_eq_nil_iff hs).mp hrest⟩
    constructor
    · rintro ⟨s, hs, rfl, hpos, -⟩
      have hmem := List.mem_of_head? hs
      obtain ⟨hrest, hlength⟩ := hend s hmem
      exact ⟨⟨s, hmem, hrest⟩, List.ne_nil_of_length_pos (hlength ▸ hpos), hlength⟩
    · rintro ⟨⟨s₁, hs₁, -⟩, hne, rfl⟩
      obtain ⟨s, l, hcons⟩ := List.exists_cons_of_ne_nil (List.ne_nil_of_mem hs₁)
      have hfirst : (r'.ends ⟨0, u, []⟩).head? = some s := by rw [hcons]; rfl
      obtain ⟨-, hlength⟩ := hend s (List.mem_of_head? hfirst)
      exact ⟨s, hfirst, hlength.symm, hlength ▸ List.length_pos_of_ne_nil hne, .inl hlength⟩

/-- Where an earlier alternative takes a start of the path, `matchUri` matches what the template takes
first. -/
theorem matchUri_earlier {c : CallbackDataBase} (hparts : c.uri.HasParts formats parts)
    (hr : parts.expression = some r) (hkeeps : parts.keeps .init = true)
    (hanchor : c.uriRegexMatchWholePath = true) (hearlier : parts.TakesEarlier u) {oLength : Nat}
    (h : c.matchUri u = .ok (some oLength)) :
    ∃ s, (r.ends ⟨0, u, []⟩).head? = some s ∧ s.pos = oLength := by
  obtain ⟨p, r', hread, hparse, hends, hends'⟩ :=
    parse_getPattern_anchored hparts hr hkeeps
  obtain ⟨p₁, hread₁, hne⟩ := hearlier
  cases hread.symm.trans hread₁
  obtain ⟨s₀, l, hdone⟩ := List.exists_cons_of_ne_nil hne
  obtain ⟨s, hs, rfl, -⟩ := (matchUri_start hanchor hparse oLength).mp h
  have hfirst : s = s₀ := by
    rw [hends', Matcher.alt, hdone] at hs
    exact (Option.some.inj hs).symm
  exact ⟨s, by rw [hends, Matcher.alt, hdone, hfirst]; rfl, rfl⟩

/-! ### Agreement -/

section
variable {c : CallbackDataBase} {iTemplate : Str} {values : UriTemplateValue}

/-- Where an earlier alternative takes the whole path, a handler for whole paths agrees. -/
theorem agrees_of_earlier (hformats : Built formats)
    (ht : UriTemplate.parse formats iTemplate = .ok c.uri) (hparts : c.uri.HasParts formats parts)
    (hregular : parts.Regular) (hkeeps : parts.keeps .init = true)
    (hnew : ∀ name ∈ c.uri.params, values.child? name = none)
    (hanchor : c.uriRegexMatchWholePath = true) (hearlier : parts.TakesEarlier u) :
    c.Agrees formats values u := by
  obtain ⟨r, hr⟩ := Option.isSome_iff_exists.mp hregular
  intro oLength h
  obtain ⟨s, hs, rfl⟩ := matchUri_earlier hparts hr hkeeps hanchor hearlier h
  have hle : s.pos ≤ u.length := by
    obtain ⟨n, hn, rfl⟩ := advance_of_mem_ends (List.mem_of_head? hs)
    exact (Nat.zero_add n).trans_le hn
  exact (extract_first hformats ht hparts hr hnew hle).mpr ⟨s, hs, rfl⟩

/-- Anywhere else the answers agree when the expression prefers the whole path. -/
theorem agrees_iff_prefersWhole (hformats : Built formats)
    (ht : UriTemplate.parse formats iTemplate = .ok c.uri) (hparts : c.uri.HasParts formats parts)
    (hregular : parts.Regular) (hkeeps : parts.keeps .init = true)
    (hnew : ∀ name ∈ c.uri.params, values.child? name = none)
    (hearlier : ¬ (c.uriRegexMatchWholePath = true ∧ parts.TakesEarlier u)) :
    c.Agrees formats values u ↔ parts.PrefersWhole u := by
  obtain ⟨r, hr⟩ := Option.isSome_iff_exists.mp hregular
  have hmatch := matchUri_whole_iff hparts hr hkeeps hearlier
  have hextract :=
    extract_first (u := u) hformats ht hparts hr hnew (Nat.le_refl u.length)
  rw [prefersWhole_iff hr]
  constructor
  · intro h hmem hne
    exact hextract.mp (h u.length ((hmatch _).mpr ⟨hmem, hne, rfl⟩))
  · intro h oLength hmatched
    obtain ⟨hmem, hne, rfl⟩ := (hmatch oLength).mp hmatched
    exact hextract.mpr (h hmem hne)

/-- What is extracted is what was matched when the template takes the whole path first, if it takes it
at all. For an entry anchored at the start this also holds where an alternative in front of the last `|`
takes a start of the path. -/
theorem agrees_iff (hformats : Built formats)
    (ht : UriTemplate.parse formats iTemplate = .ok c.uri) (hparts : c.uri.HasParts formats parts)
    (hregular : parts.Regular) (hkeeps : parts.keeps .init = true)
    (hnew : ∀ name ∈ c.uri.params, values.child? name = none) (u : Str) :
    c.Agrees formats values u ↔
      (c.uriRegexMatchWholePath = true ∧ parts.TakesEarlier u) ∨ parts.PrefersWhole u := by
  by_cases hearlier : c.uriRegexMatchWholePath = true ∧ parts.TakesEarlier u
  · have hagrees := agrees_of_earlier hformats ht hparts hregular hkeeps hnew hearlier.1 hearlier.2
    exact iff_of_true hagrees (.inl hearlier)
  · rw [agrees_iff_prefersWhole hformats ht hparts hregular hkeeps hnew hearlier]
    exact (or_iff_right hearlier).symm

end

end

def codePattern : Str := "(?:[A-Z0-9\\-]\x7b2\x7d|[A-Z]\x7b3\x7d)".toList

/-- Source: `UriTemplate_test.cpp:16`. -/
def formatName1 : UriTemplateFormat where
  name := "formatName1".toList
  template := ⟨codePattern, codePattern, codePattern, [], []⟩

def formatName1Formats : Formats := [("formatName1".toList, formatName1)]

/-- The table is the one that `AddGlobalFormat` makes. -/
theorem formatName1Formats_built : Built formatName1Formats := by
  have hadd : addGlobalFormat [] "formatName1".toList codePattern = .ok formatName1Formats := rfl
  exact .add .nil hadd

def formatName1Template : UriTemplate where
  template := "/\x7bc:formatName1\x7d".toList
  matchPattern := '/' :: codePattern
  extractPattern := "/(".toList ++ codePattern ++ [')']
  params := ["c".toList]
  formatNames := ["formatName1".toList]

/-- The template as it is parsed. -/
theorem parse_formatName1Template : UriTemplate.parse formatName1Formats
    "/\x7bc:formatName1\x7d".toList = .ok formatName1Template := rfl

def formatName1Parts : Parts := .param "/".toList "c".toList (.last codePattern) (.last [])

/-- Its parts. -/
theorem formatName1Template_hasParts :
    formatName1Template.HasParts formatName1Formats formatName1Parts := by
  show Made formatName1Formats ["c".toList] ["formatName1".toList]
    ("/".toList ++ formatName1.getPattern false ++ []) ("/".toList ++ formatName1.getPattern true ++ [])
    formatName1Parts
  exact .param List.not_mem_nil rfl (.last _) (.last [])

/-- Its texts and its format are expressions. -/
theorem formatName1Parts_regular : formatName1Parts.Regular := by decide +kernel

/-- A code of two characters is what the format takes first. -/
theorem agrees_code : (CallbackDataBase.mk formatName1Template false).Agrees formatName1Formats .empty
    "/AB".toList := by
  refine (agrees_iff formatName1Formats_built parse_formatName1Template formatName1Template_hasParts
    formatName1Parts_regular (by decide +kernel) (fun _ _ => rfl) _).mpr (.inr fun r hr _ => ?_)
  have hfirst : (formatName1Parts.expression.bind fun r => (r.ends ⟨0, "/AB".toList, []⟩).head?) =
      some ⟨3, [], []⟩ := by
    decide +kernel
  rw [hr] at hfirst
  exact ⟨_, hfirst, rfl⟩

/-- With a third letter the format still takes two characters first, and extraction stops there. -/
theorem not_agrees : Built formatName1Formats ∧
    UriTemplate.parse formatName1Formats "/\x7bc:formatName1\x7d".toList = .ok formatName1Template ∧
    formatName1Template.HasParts formatName1Formats formatName1Parts ∧ formatName1Parts.Regular ∧
    formatName1Parts.keeps .init = true ∧
    (CallbackDataBase.mk formatName1Template false).matchUri "/ABC".toList = .ok (some 4) ∧
    ¬ (CallbackDataBase.mk formatName1Template false).Agrees formatName1Formats .empty "/ABC".toList := by
  have hmatch : (CallbackDataBase.mk formatName1Template false).matchUri "/ABC".toList = .ok (some 4) := by
    decide +kernel
  have hextract : ((formatName1Template.extract formatName1Formats .empty "/ABC".toList
      false).toOption.bind fun values => values.map (·.value)) = some "/AB".toList := by
    decide +kernel
  refine ⟨formatName1Formats_built, parse_formatName1Template, formatName1Template_hasParts,
    formatName1Parts_regular, by decide +kernel, hmatch, fun h => ?_⟩
  obtain ⟨values', hvalues, hvalue⟩ := h 4 hmatch
  have hboth : some values'.value = some "/AB".toList := by
    rw [← hextract, show formatName1Template.extract formatName1Formats .empty "/ABC".toList false =
      .ok (some values') from hvalues]
    rfl
  rw [hvalue] at hboth
  exact absurd hboth (by decide)

end NodeNative.Uri
