import NodeNative.Lib.RegexLanguage
import NodeNative.Lib.RegexNesting
import NodeNative.Uri.Routing

/-!
# The paths of a template

A template of literal texts around its parameters stands for a language of paths that is made of the
texts and of the languages of its formats (`Parts.words`): a format is such a template again, or an
expression of its own without capturing groups and anchors (`Parts.simple`). Routing accepts exactly
these paths (`matchUri_words`).
-/

namespace NodeNative.Uri

open Regex Http

/-! ### The language -/

/-- The texts around parameters are literal, and a format without parameters, or the `whole` template
when it has none, is an expression of its own without capturing groups and anchors. -/
def Parts.simple (whole : Bool) : Parts → Bool
  | .last text =>
    if whole then groupCount text == some 0 && (Regex.parse text).any Re.anchorFree
    else text.all (!isMeta ·)
  | .param text _ inner rest =>
    text.all (!isMeta ·) && inner.simple true && rest.simple false

/-- The paths of a template, and the values of a format. -/
def Parts.words (whole : Bool) : Parts → Language Char
  | .last text => if whole then (Regex.parse text).elim 0 Re.language else {text}
  | .param text _ inner rest => {text} * inner.words true * rest.words false

section
variable {parts inner rest : Parts} {whole : Bool} {text name u : Str} {ps : List Str}

/-- A parameter is simple when its text, its format and the rest are. -/
theorem Parts.simple_param (h : (Parts.param text name inner rest).simple whole = true) :
    (∀ c ∈ text, isMeta c = false) ∧ inner.simple true = true ∧ rest.simple false = true := by
  rw [simple, Bool.and_eq_true, Bool.and_eq_true, List.all_eq_true] at h
  exact ⟨fun c hc => by simpa using h.1.1 c hc, h.1.2, h.2⟩

/-- The last text of a template has no metacharacter, -/
theorem Parts.simple_text (h : (Parts.last text).simple false = true) :
    ∀ c ∈ text, isMeta c = false := by
  rw [simple, if_neg Bool.false_ne_true, List.all_eq_true] at h
  exact fun c hc => by simpa using h c hc

/-- and that of a format is an expression without groups and anchors. -/
theorem Parts.simple_format (h : (Parts.last text).simple true = true) :
    groupCount text = some 0 ∧ ∃ r, Regex.parse text = some r ∧ r.anchorFree = true ∧
      r.groupFree = true := by
  rw [simple, if_pos rfl, Bool.and_eq_true, beq_iff_eq] at h
  obtain ⟨hgroups, hany⟩ := h
  obtain ⟨r, hr, hfree⟩ := (Option.any_eq_true _ _).mp hany
  exact ⟨hgroups, r, hr, hfree, groupFree_of_groupCount hr hgroups⟩

/-! ### Reading the patterns -/

variable {p : Parser}

/-- Items that were read alone. -/
theorem finish_items (rs : List Re) {mode : Mode} (hready : (Parser.init.add rs mode).Ready) :
    (Parser.init.add rs mode).finish = some (seqOf rs.reverse) := by
  rw [Parser.finish_of_ready hready rfl]
  simp [Parser.add, Parser.init, Open.re, altOf]

/-- What is meant by a template takes its paths. -/
theorem Parts.read_words (parts : Parts) :
    (parts.simple false = true → ∀ p : Parser, p.Ready → ∃ rs mode,
      parts.read p = some (p.add rs mode) ∧ (p.add rs mode).Ready ∧
        languageAll rs = parts.words false ∧ rs.all Re.anchorFree = true) ∧
    (parts.simple true = true → ∃ r, parts.expression = some r ∧ r.language = parts.words true ∧
      r.anchorFree = true) := by
  induction parts with
  | last text =>
    refine ⟨fun h p hp => ?_, fun h => ?_⟩
    · obtain ⟨mode, hfeed, hready⟩ := Parser.feed_text hp (simple_text h)
      refine ⟨textItems text, mode, hfeed, hready, ?_, ?_⟩
      · rw [languageAll_text, words, if_neg Bool.false_ne_true]
      · simp [textItems, Re.anchorFree]
    · obtain ⟨-, r, hr, hfree, -⟩ := simple_format h
      refine ⟨r, hr, ?_, hfree⟩
      rw [words, if_pos rfl, hr, Option.elim_some]
  | param text name inner rest ihinner ihrest =>
    have hread : (Parts.param text name inner rest).simple false = true → ∀ p : Parser, p.Ready →
        ∃ rs mode, (Parts.param text name inner rest).read p = some (p.add rs mode) ∧
          (p.add rs mode).Ready ∧ languageAll rs = (Parts.param text name inner rest).words false ∧
          rs.all Re.anchorFree = true := by
      intro h p hp
      obtain ⟨htext, hinner, hrest⟩ := simple_param h
      obtain ⟨mode₁, hfeed, hready₁⟩ := Parser.feed_text hp htext
      obtain ⟨r, hr, hlanguage, hfree⟩ := ihinner.2 hinner
      obtain ⟨rs, mode, hreadRest, hready, hwords, hfrees⟩ :=
        ihrest.1 hrest ((p.add (textItems text) mode₁).push r) (.inl rfl)
      have hitems : ((p.add (textItems text) mode₁).push r).add rs mode =
          p.add (textItems text ++ r :: rs) mode := by
        simp [Parser.push, Parser.add]
      rw [hitems] at hreadRest hready
      refine ⟨textItems text ++ r :: rs, mode, ?_, hready, ?_, ?_⟩
      · rw [read, hfeed, Option.bind_some, if_pos (Parser.ready_iff.mpr hready₁)]
        exact (congrArg (Option.bind · _) hr).trans hreadRest
      · rw [languageAll_append, languageAll_cons, languageAll_text, hlanguage, hwords, words, mul_assoc]
      · rw [List.all_append, List.all_cons, hfree, hfrees]
        simp [textItems, Re.anchorFree]
    refine ⟨hread, fun h => ?_⟩
    obtain ⟨rs, mode, hreadAll, hready, hwords, hfrees⟩ := hread h .init (.inl rfl)
    refine ⟨seqOf rs.reverse, ?_, (language_seqOf rs).trans hwords, ?_⟩
    · rw [expression, hreadAll, Option.bind_some, finish_items rs hready]
    · rw [anchorFree_seqOf, List.all_reverse, hfrees]

end

/-! ### Routing -/

section
variable {formats : Formats} {iTemplate u : Str} {parts : Parts}

/-- An entry takes exactly the paths of its template, when its formats keep their scope and none of
their alternatives ends before a `/`. -/
theorem matchUri_words {c : CallbackDataBase} (hparts : c.uri.HasParts formats parts)
    (hsimple : parts.simple true = true) (hkeeps : parts.keeps .init = true)
    (hearlier : ¬ (c.uriRegexMatchWholePath = true ∧ parts.TakesEarlier u)) (oLength : Nat) :
    c.matchUri u = .ok (some oLength) ↔ u ∈ parts.words true ∧ u ≠ [] ∧ oLength = u.length := by
  obtain ⟨r, hr, hlanguage, hfree⟩ := parts.read_words.2 hsimple
  rw [matchUri_whole_iff hparts hr hkeeps hearlier, ← matchWhole_isSome_iff,
    matchWhole_isSome_iff_mem hfree, hlanguage]

/-- A path of one code is routed, so it is one of the paths of the template. -/
theorem matchUri_words_code : "/ABC".toList ∈ formatName1Parts.words true :=
  ((matchUri_words (c := ⟨formatName1Template, false⟩) formatName1Template_hasParts
    rfl rfl (fun h => Bool.false_ne_true h.1) 4).mp
    rfl).1

end

end NodeNative.Uri
