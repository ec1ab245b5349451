import NodeNative.Lib.RegexSplicing
import NodeNative.Uri.Parts

/-!
# The scope of a format

`getPattern` puts a format in parentheses for extraction, and without any for a match. What is meant is
the first: a parameter is one item of the template, whatever its format is made of (`Parts.read`). The
pattern for extraction always takes what is meant. The one for a match does while the format keeps its
scope (`Parts.keeps`): a `|` in it ends only its own alternatives, and a quantifier behind it is for
all of it.
-/

namespace NodeNative.Uri

open Regex Http

/-! ### What is meant -/

/-- The template as an expression in which each parameter is one item. -/
def Parts.read : Parts → Parser → Option Parser
  | .last text, p => p.feed text
  | .param text _ inner rest, p =>
    (p.feed text).bind fun p =>
      if p.mode.ready then
        ((inner.read .init).bind Parser.finish).bind fun r => rest.read (p.push r)
      else none

def Parts.expression (parts : Parts) : Option Re := (parts.read .init).bind Parser.finish

/-- The texts and formats are expressions around their parameters. -/
def Parts.Regular (parts : Parts) : Prop := parts.expression.isSome = true

instance (parts : Parts) : Decidable parts.Regular :=
  inferInstanceAs (Decidable (parts.expression.isSome = true))

/-- The pattern matches the whole path. -/
def MatchesWhole (pattern u : Str) : Prop :=
  ∃ r m, Regex.parse pattern = some r ∧ matchRegex r u .ANCHOR_BOTH = some m

/-! ### What is kept -/

/-- The texts of the template and of its formats, one after the other. -/
def Parts.readInPlace : Parts → Parser → Option Parser
  | .last text, p => p.feed text
  | .param text _ inner rest, p => ((p.feed text).bind inner.readInPlace).bind rest.readInPlace

/-- The text in front of the first parameter. -/
def Parts.front : Parts → Str
  | .last text => text
  | .param text _ _ _ => text

/-- An alternative ends where they begin. -/
def Parts.closes : Parts → Bool
  | .last [] => true
  | .last (c :: _) | .param (c :: _) _ _ _ => c == '|' || c == ')'
  | .param [] _ _ _ => false

/-- They begin with a quantifier. -/
def Parts.quantified (parts : Parts) : Bool := parts.front.head?.any isQuantifier

/-- What was read is one item, without a quantifier. -/
def isUnit (p : Parser) : Bool :=
  match p.mode, p.current.alts, p.current.items with
  | .normal, [], [_] => true
  | _, _, _ => false

/-- Each format keeps its scope without parentheses: when it has a `|` outside parentheses and brackets
it stands alone in an alternative, and when a quantifier follows it is one item. -/
def Parts.keeps : Parts → Parser → Bool
  | .last _, _ => true
  | .param text _ inner rest, p =>
    inner.keeps .init &&
      (p.feed text).any fun before =>
        (inner.readInPlace .init).any fun format =>
          (format.current.alts.isEmpty || (before.current.items.isEmpty && rest.closes)) &&
            (!rest.quantified || isUnit format) && (inner.readInPlace before).any rest.keeps

section
variable {parts : Parts} {m m' p p' : Parser} {r : Re}

/-- The parts are read in place as the match pattern. -/
theorem Parts.readInPlace_eq (parts : Parts) (p : Parser) :
    parts.readInPlace p = p.feed (parts.pattern false) := by
  induction parts generalizing p with
  | last text => rfl
  | param text name inner rest ihinner ihrest =>
    rw [readInPlace, pattern, if_neg Bool.false_ne_true, List.append_assoc, Parser.feed_append]
    cases hfeed : p.feed text with
    | none => rfl
    | some p₁ =>
      rw [Option.bind_some, Option.bind_some, Parser.feed_append, ihinner]
      exact congrArg _ (funext ihrest)

/-! ### Reading a pattern -/

/-- The parser `p` of a pattern in front of the rest of a template, and `m` that has read what is
meant. What a format in place leaves behind decides how the template may go on. -/
inductive Parts.Follows (rest : Parts) (m p : Parser) : Prop
  | tracks (h : m.Tracks .fresh [] p)
  | placed (h : m.Over .fresh [] p) (hp : p.Ready) (hrest : rest.quantified = false)
  | covers (h : m.Covers .fresh [] p) (hp : p.Ready) (hrest : rest.closes = true)

/-- Both readings begin with the text in front of the first parameter. -/
theorem Parts.Follows.front (h : parts.Follows m p) (hm : m.Ready)
    (hfeed : m.feed parts.front = some m') :
    ∃ p', p.feed parts.front = some p' ∧
      (m'.Tracks .fresh [] p' ∨ parts.front = [] ∧ m' = m ∧ p' = p) := by
  cases hfront : parts.front with
  | nil =>
    rw [hfront] at hfeed
    cases hfeed
    exact ⟨p, rfl, .inr ⟨rfl, rfl, rfl⟩⟩
  | cons c text =>
    rw [hfront] at hfeed
    suffices htracks : ∃ p', p.feed (c :: text) = some p' ∧ m'.Tracks .fresh [] p' by
      obtain ⟨p', hfeed', htracks⟩ := htracks
      exact ⟨p', hfeed', .inl htracks⟩
    cases h with
    | tracks h => exact h.feed hfeed
    | placed h hp hrest =>
      have hquantifier : isQuantifier c = false := by
        simpa [Parts.quantified, hfront] using hrest
      exact h.feed hm hp hquantifier hfeed
    | covers h hp hrest =>
      have hc : c = '|' ∨ c = ')' := by
        cases parts with
        | last text' | param text' _ _ _ =>
          obtain rfl : text' = c :: text := hfront
          simpa [Parts.closes] using hrest
      exact h.feed hm hp hc hfeed

/-- In front of a parameter. -/
theorem Parts.Follows.before {text name : Str} {inner rest : Parts}
    (h : (Parts.param text name inner rest).Follows m p) (hm : m.Ready) (hfeed : m.feed text = some m')
    (hm' : m'.Ready) : ∃ p', p.feed text = some p' ∧ m'.Over .fresh [] p' ∧ p'.Ready := by
  obtain ⟨p', hfeed', hend⟩ := h.front hm hfeed
  refine ⟨p', hfeed', ?_⟩
  rcases hend with htracks | ⟨hnil, rfl, rfl⟩
  · obtain ⟨-, -, mode⟩ := id htracks
    exact ⟨htracks.over, mode.ready hm'⟩
  · obtain rfl : text = [] := hnil
    cases h with
    | tracks h =>
      obtain ⟨-, -, mode⟩ := id h
      exact ⟨h.over, mode.ready hm⟩
    | placed h hp => exact ⟨h, hp⟩
    | covers _ _ hcloses => cases hcloses

/-- At the end both take the same. -/
theorem Parts.Follows.finish (h : (Parts.last []).Follows m p) (hr : m.finish = some r) :
    p.Ready ∧ p.outer = [] ∧ p.finish = some p.current.re ∧ p.current.re.ends = r.ends := by
  obtain ⟨hm, houter, rfl⟩ := Parser.finish_eq_some hr
  have hend : ∀ {l : List Open} {base : Open}, Below .fresh [] base m.outer l → l = [] := by
    intro l base below
    rw [houter] at below
    cases below
    rfl
  have hover : m.Over .fresh [] p → p.outer = [] ∧ p.current.re.ends = m.current.re.ends := by
    rintro ⟨below, level⟩
    obtain rfl := below.base_eq
    exact ⟨hend below, level.ends_re rfl rfl⟩
  have hall : p.Ready ∧ p.outer = [] ∧ p.current.re.ends = m.current.re.ends := by
    cases h with
    | tracks h =>
      obtain ⟨-, -, mode⟩ := id h
      exact ⟨mode.ready hm, hover h.over⟩
    | placed h hp hrest => exact ⟨hp, hover h⟩
    | covers h hp hrest =>
      obtain ⟨below, ends⟩ := h
      exact ⟨hp, hend below, ends⟩
  obtain ⟨hp, hnil, hends⟩ := hall
  exact ⟨hp, hnil, Parser.finish_of_ready hp hnil, hends⟩

/-- The format of a parameter in the pattern. -/
def formatPattern (iForExtraction : Bool) (inner : Parts) : Str :=
  if iForExtraction then ['('] ++ inner.pattern true ++ [')'] else inner.pattern false

/-- In parentheses a format is one item. In place it is when it keeps its scope. -/
theorem Parts.Follows.param {rest inner : Parts} {q : Parser} (h : m.Over .fresh [] p) (hp : p.Ready)
    (iForExtraction : Bool)
    (hfeed : Parser.init.feed (inner.pattern iForExtraction) = some q) (hq : q.Ready)
    (houter : q.outer = []) (hends : q.current.re.ends = r.ends)
    (hkeeps : iForExtraction = false →
      ((q.current.alts.isEmpty || (p.current.items.isEmpty && rest.closes)) &&
        (!rest.quantified || isUnit q) && (inner.readInPlace p).any rest.keeps) = true) :
    ∃ p', p.feed (formatPattern iForExtraction inner) = some p' ∧ rest.Follows (m.push r) p' ∧
      (iForExtraction = false → rest.keeps p' = true) ∧
      (iForExtraction = true → p'.groups = p.groups + 1 + q.groups) := by
  cases iForExtraction with
  | true =>
    obtain ⟨r', hfeed', hends'⟩ := Parser.feed_inParens hp hfeed hq houter
    exact ⟨_, hfeed', .tracks ((h.push (hends'.trans hends)).groups _), nofun, fun _ => rfl⟩
  | false =>
    obtain ⟨p', hfeed', hp', houter', hlevel, hlast⟩ := Parser.feed_inPlace hp hfeed hq houter
    have hconditions := hkeeps rfl
    rw [Parts.readInPlace_eq, hfeed', Option.any_some, Bool.and_eq_true, Bool.and_eq_true] at hconditions
    obtain ⟨⟨hscope, hquantifier⟩, hrest⟩ := hconditions
    refine ⟨p', hfeed', ?_, fun _ => hrest, nofun⟩
    cases hquantified : rest.quantified with
    | true =>
      -- A quantifier follows: the format is one item.
      have hunit : isUnit q = true := by simpa [hquantified] using hquantifier
      unfold isUnit at hunit
      split at hunit
      · rename_i hmode halts hitem
        have hne : inner.pattern false ≠ [] := by
          intro hnil
          rw [hnil] at hfeed
          cases hfeed
          cases hitem
        obtain ⟨hsame, hsameLast⟩ := hlast hne
        have hmode' : p'.mode = .normal := (hsame.eq_of_ne (by simp [hmode])).trans hmode
        exact .tracks (h.inPlace_unit hlevel hsameLast houter' hmode' halts hitem hends)
      · cases hunit
    | false =>
      rcases Bool.or_eq_true_iff.mp hscope with halts | halone
      · exact .placed (h.inPlace hlevel houter' (List.isEmpty_iff.mp halts) hends) hp' hquantified
      · obtain ⟨hempty, hcloses⟩ := Bool.and_eq_true_iff.mp halone
        exact .covers (h.inPlace_alternatives hlevel houter' (List.isEmpty_iff.mp hempty) hends) hp'
          hcloses

/-- A pattern takes what is meant, the one for a match where the formats keep their scope. -/
theorem Parts.Follows.pattern (iForExtraction : Bool) (h : parts.Follows m p) (hm : m.Ready)
    (hkeeps : iForExtraction = false → parts.keeps p = true) (hread : parts.read m = some m') :
    ∃ p', p.feed (parts.pattern iForExtraction) = some p' ∧ (Parts.last []).Follows m' p' ∧
      (iForExtraction = true → p.groups + parts.count ≤ p'.groups) := by
  induction parts generalizing m m' p with
  | last text =>
    obtain ⟨p', hfeed, hend⟩ := h.front hm hread
    refine ⟨p', hfeed, ?_, fun _ => Parser.feed_groups_le hfeed⟩
    rcases hend with htracks | ⟨hnil, rfl, rfl⟩
    · exact .tracks htracks
    · obtain rfl : text = [] := hnil
      exact h
  | param text name inner rest ihinner ihrest =>
    obtain ⟨m₁, hfeed, hread⟩ := Option.bind_eq_some_iff.mp hread
    split at hread
    · rename_i hready
      have hm₁ : m₁.Ready := Parser.ready_iff.mp hready
      obtain ⟨r, hformat, hread⟩ := Option.bind_eq_some_iff.mp hread
      obtain ⟨mq, hinner, hr⟩ := Option.bind_eq_some_iff.mp hformat
      -- The text in front of the parameter.
      obtain ⟨p₁, hfeed₁, hover, hp₁⟩ := h.before hm hfeed hm₁
      -- The format on its own.
      have hinnerKeeps : iForExtraction = false → inner.keeps .init = true :=
        fun hb => (Bool.and_eq_true_iff.mp (hkeeps hb)).1
      obtain ⟨q, hq, hqend, hqGroups⟩ :=
        ihinner (.tracks Parser.tracks_init) (.inl rfl) hinnerKeeps hinner
      obtain ⟨hqReady, hqOuter, -, hends⟩ := hqend.finish hr
      -- The format in the template.
      have hscope : iForExtraction = false →
          ((q.current.alts.isEmpty || (p₁.current.items.isEmpty && rest.closes)) &&
            (!rest.quantified || isUnit q) && (inner.readInPlace p₁).any rest.keeps) = true := by
        rintro rfl
        have hafter := (Bool.and_eq_true_iff.mp (hkeeps rfl)).2
        rw [hfeed₁, Option.any_some,
          (inner.readInPlace_eq _).trans hq, Option.any_some] at hafter
        exact hafter
      obtain ⟨p₂, hformat₂, hfollows, hrestKeeps, hgroups⟩ :=
        Follows.param hover hp₁ iForExtraction hq hqReady hqOuter hends hscope
      obtain ⟨p', hp', hend', hrestGroups⟩ := ihrest hfollows (.inl rfl) hrestKeeps hread
      have hpattern : (Parts.param text name inner rest).pattern iForExtraction =
          text ++ (formatPattern iForExtraction inner ++ rest.pattern iForExtraction) :=
        List.append_assoc ..
      refine ⟨p', ?_, hend', fun hb => ?_⟩
      · rw [hpattern, Parser.feed_append, hfeed₁, Option.bind_some,
          Parser.feed_append, hformat₂, Option.bind_some, hp']
      · have htextGroups := Parser.feed_groups_le hfeed₁
        have hformatGroups := hgroups hb
        have hinnerGroups := hqGroups hb
        have hlastGroups := hrestGroups hb
        rw [show Parser.init.groups = 0 from rfl] at hinnerGroups
        rw [count]
        omega
    · cases hread

/-- The expression of a pattern takes what is meant, and the one for extraction has a group for each
parameter. -/
theorem Parts.feed_pattern (hr : parts.expression = some r)
    (iForExtraction : Bool) (hkeeps : iForExtraction = false → parts.keeps .init = true) :
    ∃ p, Parser.init.feed (parts.pattern iForExtraction) = some p ∧ p.Ready ∧
      p.finish = some p.current.re ∧ p.outer = [] ∧ p.current.re.ends = r.ends ∧
      (iForExtraction = true → parts.count ≤ p.groups) := by
  obtain ⟨m, hread, hfinish⟩ := Option.bind_eq_some_iff.mp hr
  obtain ⟨p, hfeed, hend, hgroups⟩ :=
    Follows.pattern iForExtraction (.tracks Parser.tracks_init) (.inl rfl) hkeeps hread
  obtain ⟨hready, houter, hparse, hends⟩ := hend.finish hfinish
  refine ⟨p, hfeed, hready, hparse, houter, hends, fun hb => ?_⟩
  exact (Nat.zero_add _).symm.trans_le (hgroups hb)

/-- The pattern takes what the expression of the parts takes. -/
theorem Parts.parse_pattern (hr : parts.expression = some r)
    (iForExtraction : Bool) (hkeeps : iForExtraction = false → parts.keeps .init = true) :
    ∃ r', Regex.parse (parts.pattern iForExtraction) = some r' ∧ r'.ends = r.ends := by
  obtain ⟨p, hfeed, -, hparse, -, hends, -⟩ := parts.feed_pattern hr iForExtraction hkeeps
  exact ⟨_, by rw [Regex.parse, hfeed, Option.bind_some, hparse], hends⟩

end

/-- A whole match is one that ends where the path ends. -/
theorem matchesWhole_iff {pattern u : Str} {r : Re} (h : Regex.parse pattern = some r) :
    MatchesWhole pattern u ↔ ∃ s ∈ r.ends ⟨0, u, []⟩, s.rest = [] := by
  rw [← matchWhole_isSome_iff, Option.isSome_iff_exists]
  constructor
  · rintro ⟨r', m, hr', hm⟩
    cases h.symm.trans hr'
    exact ⟨m, hm⟩
  · rintro ⟨m, hm⟩
    exact ⟨r, m, h, hm⟩

/-- Where each format keeps its scope without parentheses, the two patterns of a template match the
same paths. -/
theorem patterns_match_same {formats : Formats} (hformats : Built formats) {iTemplate : Str}
    {t : UriTemplate} (ht : UriTemplate.parse formats iTemplate = .ok t) :
    (∃ parts, t.HasParts formats parts) ∧
      ∀ parts, t.HasParts formats parts → parts.Regular → parts.keeps .init = true →
        ∀ u, MatchesWhole (t.getPattern false false) u ↔ MatchesWhole (t.getPattern true false) u := by
  obtain ⟨parts₀, hparts₀, -⟩ := hformats.exists_parts.2 iTemplate t ht
  refine ⟨⟨parts₀, hparts₀⟩, fun parts hparts hregular hkeeps u => ?_⟩
  obtain ⟨r, hr⟩ := Option.isSome_iff_exists.mp hregular
  obtain ⟨rm, hparseMatch, hendsMatch⟩ := parts.parse_pattern hr false fun _ => hkeeps
  obtain ⟨re, hparseExtract, hendsExtract⟩ := parts.parse_pattern hr true nofun
  have hpattern : ∀ b, t.getPattern b false = parts.pattern b := by
    intro b
    rw [hparts.getPattern, if_neg Bool.false_ne_true, List.append_nil]
  rw [hpattern, hpattern, matchesWhole_iff hparseMatch, matchesWhole_iff hparseExtract, hendsMatch,
    hendsExtract]

def typeFormat : UriTemplateFormat where
  name := "type".toList
  template := ⟨"html|json".toList, "html|json".toList, "html|json".toList, [], []⟩

def typeFormats : Formats := [("type".toList, typeFormat)]

/-- The table is the one that `AddGlobalFormat` makes. -/
theorem typeFormats_built : Built typeFormats := by
  have hadd : addGlobalFormat [] "type".toList "html|json".toList = .ok typeFormats := rfl
  exact .add .nil hadd

def groupedTemplate : UriTemplate where
  template := "/page/(?:\x7bt:type\x7d)".toList
  matchPattern := "/page/(?:html|json)".toList
  extractPattern := "/page/(?:(html|json))".toList
  params := ["t".toList]
  formatNames := ["type".toList]

def groupedParts : Parts :=
  .param "/page/(?:".toList "t".toList (.last "html|json".toList) (.last ")".toList)

/-- A group of the template keeps the format together. -/
theorem patterns_match_same_grouped :
    groupedTemplate.HasParts typeFormats groupedParts ∧
      ∀ u, MatchesWhole "/page/(?:html|json)".toList u ↔
        MatchesWhole "/page/(?:(html|json))".toList u := by
  have ht : UriTemplate.parse typeFormats "/page/(?:\x7bt:type\x7d)".toList = .ok groupedTemplate := by
    decide +kernel
  have hparts : Made typeFormats ["t".toList] ["type".toList]
      ("/page/(?:".toList ++ typeFormat.getPattern false ++ ")".toList)
      ("/page/(?:".toList ++ typeFormat.getPattern true ++ ")".toList) groupedParts :=
    .param List.not_mem_nil rfl (.last _) (.last _)
  have hregular : groupedParts.Regular := by decide +kernel
  exact ⟨hparts, (patterns_match_same typeFormats_built ht).2 groupedParts hparts hregular
    (by decide +kernel)⟩

def pageTemplate : UriTemplate where
  template := "/page/\x7bt:type\x7d".toList
  matchPattern := "/page/html|json".toList
  extractPattern := "/page/(html|json)".toList
  params := ["t".toList]
  formatNames := ["type".toList]

def pageParts : Parts := .param "/page/".toList "t".toList (.last "html|json".toList) (.last [])

/-- Without parentheses the first alternative of the format goes with the text in front of it, and the
second one stands alone. -/
theorem patterns_not_match_same : Built typeFormats ∧
    UriTemplate.parse typeFormats "/page/\x7bt:type\x7d".toList = .ok pageTemplate ∧
    pageTemplate.HasParts typeFormats pageParts ∧ pageParts.Regular ∧
    MatchesWhole (pageTemplate.getPattern true false) "/page/json".toList ∧
    ¬ MatchesWhole (pageTemplate.getPattern false false) "/page/json".toList := by
  have hparts : Made typeFormats ["t".toList] ["type".toList]
      ("/page/".toList ++ typeFormat.getPattern false ++ [])
      ("/page/".toList ++ typeFormat.getPattern true ++ []) pageParts :=
    .param List.not_mem_nil rfl (.last _) (.last _)
  have hregular : pageParts.Regular := by decide +kernel
  have hextract : ((Regex.parse "/page/(html|json)".toList).bind fun r =>
      matchRegex r "/page/json".toList .ANCHOR_BOTH) =
        some ⟨0, "/page/json".toList, [(1, "json".toList)]⟩ := by
    decide +kernel
  have hmatch : ((Regex.parse "/page/html|json".toList).bind fun r =>
      matchRegex r "/page/json".toList .ANCHOR_BOTH) = none := by
    decide +kernel
  refine ⟨typeFormats_built, by decide +kernel, hparts, hregular, ?_, ?_⟩
  · obtain ⟨r, hr, hm⟩ := Option.bind_eq_some_iff.mp hextract
    exact ⟨r, _, hr, hm⟩
  · rintro ⟨r, m, hr, hm⟩
    have hsome := hmatch
    rw [show Regex.parse "/page/html|json".toList = some r from hr, Option.bind_some, hm] at hsome
    cases hsome

end NodeNative.Uri
