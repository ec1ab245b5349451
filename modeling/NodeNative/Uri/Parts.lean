import NodeNative.Uri.Lossless

/-!
# The parts of a template

A template whose formats are in a table is a tree: texts, and parameters that each have the template
of their format (`Parts`). Its two patterns are the texts and the formats in sequence, the formats of
the extraction in parentheses (`Parts.pattern`).

`HasParts` reads the tree from the template and the table, as `parse` wrote the template and as
`saveValues` reads it again. In a table that is `Built` by `AddGlobalFormat` every accepted template has
its parts (`exists_parts`), and they are not deeper than the table is long.
-/

namespace NodeNative.Uri

open Http

/-! ### Trees -/

/-- Texts and parameters, each with its name and the parts of its format. -/
inductive Parts
  | last (text : Str)
  | param (text name : Str) (inner rest : Parts)

/-- The pattern of a template, for extraction or for a match. -/
def Parts.pattern (iForExtraction : Bool) : Parts → Str
  | .last text => text
  | .param text _ inner rest =>
    text ++ (if iForExtraction then ['('] ++ inner.pattern true ++ [')'] else inner.pattern false) ++
      rest.pattern iForExtraction

/-- All texts, those of the formats included. -/
def Parts.texts : Parts → List Str
  | .last text => [text]
  | .param text _ inner rest => text :: inner.texts ++ rest.texts

/-- The number of parameters: each counts as one, and with the parameters of its format. -/
def Parts.count : Parts → Nat
  | .last _ => 0
  | .param _ _ inner rest => 1 + inner.count + rest.count

/-- How deep parameters are in the formats of others. -/
def Parts.depth : Parts → Nat
  | .last _ => 0
  | .param _ _ inner rest => max (inner.depth + 1) rest.depth

/-! ### The parts of a template -/

/-- The parts of a template by its names, formats and patterns. -/
inductive Made (formats : Formats) : List Str → List Str → Str → Str → Parts → Prop
  | last (text : Str) : Made formats [] [] text text (.last text)
  | param {text name formatName matchPattern extractPattern : Str} {params formatNames : List Str}
      {f : UriTemplateFormat} {inner rest : Parts} (hnew : name ∉ params)
      (hformat : formatOf formats formatName = .ok f)
      (hinner : Made formats f.template.params f.template.formatNames f.template.matchPattern
        f.template.extractPattern inner)
      (hrest : Made formats params formatNames matchPattern extractPattern rest) :
      Made formats (name :: params) (formatName :: formatNames)
        (text ++ f.getPattern false ++ matchPattern) (text ++ f.getPattern true ++ extractPattern)
        (.param text name inner rest)

def UriTemplate.HasParts (formats : Formats) (t : UriTemplate) (parts : Parts) : Prop :=
  Made formats t.params t.formatNames t.matchPattern t.extractPattern parts

/-- A table that calls of `AddGlobalFormat` have built. -/
inductive Built : Formats → Prop
  | nil : Built []
  | add {formats formats' : Formats} {iFormatName iTemplate : Str} (h : Built formats)
      (hadd : addGlobalFormat formats iFormatName iTemplate = .ok formats') : Built formats'

section
variable {formats formats' : Formats} {params formatNames : List Str}
  {matchPattern extractPattern : Str} {parts : Parts}

/-- The two patterns of a template are those of its parts. -/
theorem Made.patterns (h : Made formats params formatNames matchPattern extractPattern parts) :
    matchPattern = parts.pattern false ∧ extractPattern = parts.pattern true := by
  induction h with
  | last text => exact ⟨rfl, rfl⟩
  | param _ _ _ _ ihinner ihrest =>
    simp [Parts.pattern, UriTemplateFormat.getPattern, UriTemplate.getPattern, ← ihinner.1,
      ← ihinner.2, ← ihrest.1, ← ihrest.2]

/-- `getPattern` gives the pattern of the parts, with the end anchor when it is asked for. -/
theorem UriTemplate.HasParts.getPattern {t : UriTemplate} (h : t.HasParts formats parts)
    (iForExtraction iAddEndAnchor : Bool) : t.getPattern iForExtraction iAddEndAnchor =
      parts.pattern iForExtraction ++ if iAddEndAnchor then ['$'] else [] := by
  cases iForExtraction
  · rw [UriTemplate.getPattern, if_neg Bool.false_ne_true, Made.patterns h |>.1]
  · rw [UriTemplate.getPattern, if_pos rfl, Made.patterns h |>.2]

/-- The names and formats decide how deep the parts are. -/
theorem Made.depth_eq {matchPattern' extractPattern' : Str} {parts' : Parts}
    (h : Made formats params formatNames matchPattern extractPattern parts)
    (h' : Made formats params formatNames matchPattern' extractPattern' parts') :
    parts.depth = parts'.depth := by
  induction h generalizing matchPattern' extractPattern' parts' with
  | last text =>
    cases h'
    rfl
  | param _ hformat _ _ ihinner ihrest =>
    cases h' with
    | param _ hformat' hinner' hrest' =>
      cases hformat.symm.trans hformat'
      rw [Parts.depth, Parts.depth, ihinner hinner', ihrest hrest']

/-- The format that is added has a new name and a template of the formats before it. -/
theorem addGlobalFormat_eq_ok {iFormatName iTemplate : Str}
    (h : addGlobalFormat formats iFormatName iTemplate = .ok formats') :
    formats.lookup iFormatName = none ∧ ∃ t, UriTemplate.parse formats iTemplate = .ok t ∧
      formats' = (iFormatName, ⟨iFormatName, t⟩) :: formats := by
  unfold addGlobalFormat at h
  split at h
  · cases h
  · rename_i hnew
    cases ht : UriTemplate.parse formats iTemplate with
    | error condition => rw [ht] at h; cases h
    | ok t =>
      rw [ht] at h
      cases h
      exact ⟨hnew, t, rfl, rfl⟩

/-- A format is the one for no name or one of the table. -/
theorem formatOf_eq_ok {formatName : Str} {f : UriTemplateFormat}
    (h : formatOf formats formatName = .ok f) :
    (formatName = [] ∧ f = simpleFormat) ∨ (formatName ≠ [] ∧ formats.lookup formatName = some f) := by
  unfold formatOf at h
  split at h
  · rename_i hempty
    cases h
    exact .inl ⟨List.isEmpty_iff.mp hempty, rfl⟩
  · rename_i hempty
    refine .inr ⟨fun heq => hempty (List.isEmpty_iff.mpr heq), ?_⟩
    unfold getGlobalFormat at h
    split at h
    · cases h
    · rename_i f' hlookup
      cases h
      exact hlookup

/-- A format keeps its name when others are added. -/
theorem formatOf_add {iFormatName iTemplate formatName : Str} {f : UriTemplateFormat}
    (hadd : addGlobalFormat formats iFormatName iTemplate = .ok formats')
    (h : formatOf formats formatName = .ok f) : formatOf formats' formatName = .ok f := by
  obtain ⟨hnew, t, -, rfl⟩ := addGlobalFormat_eq_ok hadd
  rcases formatOf_eq_ok h with ⟨rfl, rfl⟩ | ⟨hne, hlookup⟩
  · rfl
  · have hother : (formatName == iFormatName) = false := by
      refine beq_eq_false_iff_ne.mpr ?_
      rintro rfl
      rw [hnew] at hlookup
      cases hlookup
    have hempty : ¬ formatName.isEmpty = true := fun hempty => hne (List.isEmpty_iff.mp hempty)
    rw [formatOf, if_neg hempty, getGlobalFormat, List.lookup_cons, hother, hlookup]

/-- A new format does not change the parts of a template. -/
theorem Made.add {iFormatName iTemplate : Str}
    (h : Made formats params formatNames matchPattern extractPattern parts)
    (hadd : addGlobalFormat formats iFormatName iTemplate = .ok formats') :
    Made formats' params formatNames matchPattern extractPattern parts := by
  induction h with
  | last text => exact .last text
  | param hnew hformat _ _ ihinner ihrest =>
    exact .param hnew (formatOf_add hadd hformat) ihinner ihrest

/-- The parameters that `parse` read, with the parts of their formats. -/
theorem made_of_parsed {n : Nat} {ps : List Parsed} (rest : Str)
    (hnodup : (ps.map (·.parameter.iName)).Nodup)
    (hformats : ∀ e ∈ ps, formatOf formats e.parameter.iFormat = .ok e.globalFormat)
    (hinner : ∀ e ∈ ps, ∃ inner, e.globalFormat.template.HasParts formats inner ∧ inner.depth ≤ n) :
    ∃ parts, Made formats (ps.map (·.parameter.iName)) (ps.map (·.parameter.iFormat))
      (ps.flatMap (·.pattern false) ++ rest) (ps.flatMap (·.pattern true) ++ rest) parts ∧
      parts.depth ≤ n + 1 := by
  induction ps with
  | nil => exact ⟨.last rest, .last rest, Nat.zero_le _⟩
  | cons e ps ih =>
    obtain ⟨hnew, hnodup⟩ := List.nodup_cons.mp hnodup
    obtain ⟨hformat, hformats⟩ := List.forall_mem_cons.mp hformats
    obtain ⟨⟨inner, hmade, hdepth⟩, hinner⟩ := List.forall_mem_cons.mp hinner
    obtain ⟨parts, hparts, hle⟩ := ih hnodup hformats hinner
    refine ⟨.param e.parameter.iText e.parameter.iName inner parts, ?_, ?_⟩
    · simpa [Parsed.pattern] using Made.param hnew hformat hmade hparts
    · rw [Parts.depth]
      omega

/-- The format for no name has no parameters. -/
theorem simpleFormat_hasParts : simpleFormat.template.HasParts formats (.last simplePattern) :=
  .last simplePattern

/-- A template of formats that have their parts has its own. -/
theorem hasParts_of_parse {n : Nat} {iTemplate : Str} {t : UriTemplate}
    (hinner : ∀ formatName f, formatOf formats formatName = .ok f →
      ∃ inner, f.template.HasParts formats inner ∧ inner.depth ≤ n)
    (ht : UriTemplate.parse formats iTemplate = .ok t) :
    ∃ parts, t.HasParts formats parts ∧ parts.depth ≤ n + 1 := by
  obtain ⟨-, ps, rest, h⟩ := extends_of_parse ht
  have hnodup : (ps.map (·.parameter.iName)).Nodup := by
    have hparams := h.nodup .nil
    rwa [h.params, List.nil_append] at hparams
  obtain ⟨parts, hparts, hdepth⟩ := made_of_parsed rest hnodup h.formats fun e he =>
    hinner _ _ (h.formats e he)
  refine ⟨parts, ?_, hdepth⟩
  rw [UriTemplate.HasParts, h.params, h.formatNames, h.matchPattern, h.extractPattern]
  exact hparts

/-- A template and a format of a table that was built have their parts. -/
theorem Built.exists_parts (h : Built formats) :
    (∀ formatName f, formatOf formats formatName = .ok f →
      ∃ inner, f.template.HasParts formats inner ∧ inner.depth ≤ formats.length) ∧
    ∀ iTemplate t, UriTemplate.parse formats iTemplate = .ok t →
      ∃ parts, t.HasParts formats parts ∧ parts.depth ≤ formats.length + 1 := by
  have htemplates : ∀ {formats : Formats}, (∀ formatName f, formatOf formats formatName = .ok f →
      ∃ inner, f.template.HasParts formats inner ∧ inner.depth ≤ formats.length) →
      ∀ iTemplate t, UriTemplate.parse formats iTemplate = .ok t →
        ∃ parts, t.HasParts formats parts ∧ parts.depth ≤ formats.length + 1 :=
    fun hformats _ _ ht => hasParts_of_parse hformats ht
  induction h with
  | nil =>
    refine ⟨fun formatName f hf => ?_, htemplates fun formatName f hf => ?_⟩
    all_goals
      rcases formatOf_eq_ok hf with ⟨-, rfl⟩ | ⟨-, hlookup⟩
      · exact ⟨_, simpleFormat_hasParts, Nat.le_refl _⟩
      · cases hlookup
  | @add formats formats' iFormatName iTemplate _ hadd ih =>
    have hall : ∀ formatName f, formatOf formats' formatName = .ok f →
        ∃ inner, f.template.HasParts formats' inner ∧ inner.depth ≤ formats'.length := by
      intro formatName f hf
      obtain ⟨-, t, ht, rfl⟩ := addGlobalFormat_eq_ok hadd
      rcases formatOf_eq_ok hf with ⟨-, rfl⟩ | ⟨hne, hlookup⟩
      · exact ⟨_, simpleFormat_hasParts, Nat.zero_le _⟩
      · rw [List.lookup_cons] at hlookup
        split at hlookup
        · cases hlookup
          obtain ⟨inner, hinner, hdepth⟩ := ih.2 _ _ ht
          exact ⟨inner, Made.add hinner hadd, hdepth⟩
        · have hempty : ¬ formatName.isEmpty = true := fun hempty => hne (List.isEmpty_iff.mp hempty)
          have hold : formatOf formats formatName = .ok f := by
            rw [formatOf, if_neg hempty, getGlobalFormat, hlookup]
          obtain ⟨inner, hinner, hdepth⟩ := ih.1 _ _ hold
          exact ⟨inner, Made.add hinner hadd, Nat.le_succ_of_le hdepth⟩
    exact ⟨hall, htemplates hall⟩

end

end NodeNative.Uri
