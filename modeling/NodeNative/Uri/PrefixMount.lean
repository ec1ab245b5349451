import NodeNative.Uri.Lossless

/-!
# Mounting on a prefix

A plugin or a `use` callback is meant to match a prefix of the path that ends at a `/` or at the end,
a method callback the whole path. `matchUri` uses the pattern with its `$` for both, so it never
matches less than the whole path (`matchUri_iff`), and an entry for prefixes does what is meant
exactly on the paths without a proper prefix to match (`mounts_iff`).

The templates here are made of text without characters that have a meaning in an expression, and of
parameters without a format, as `getNextParameter` reads them (`Reads`).
-/

namespace NodeNative.Uri

open Regex Http

/-! ### The code -/

/-- Source: `ServerPlugin.hpp:57`. -/
structure CallbackDataBase where
  uri : UriTemplate
  uriRegexMatchWholePath : Bool

/-- The length of the match, if there is one. The library refuses a pattern that is no expression.
Source: `ServerPlugin.cpp:9` `CallbackDataBase::matchUri`. -/
def CallbackDataBase.matchUri (c : CallbackDataBase) (iUri : Str) : Except String (Option Nat) :=
  match Regex.parse (c.uri.getPattern false true) with
  | none => .error "std::regex_error"
  | some uriRegex =>
    .ok ((matchRegex uriRegex iUri
      (if c.uriRegexMatchWholePath then .ANCHOR_START else .ANCHOR_BOTH)).bind fun m =>
        if 0 < m.length ∧ (m.length = iUri.length ∨ iUri[m.length]? = some '/') then some m.length
        else none)

/-! ### What is meant -/

/-- `getNextParameter` reads the template as these texts, each with a parameter without a format
behind it, and a last text. None of the texts has a character with a meaning in an expression. -/
inductive Reads : Str → List Str → Str → Prop
  | nil {iTemplate : Str} (h : getNextParameter iTemplate = none)
    (hplain : ∀ c ∈ iTemplate, isMeta c = false) : Reads iTemplate [] iTemplate
  | cons {iTemplate rest last : Str} {p : Parameter} {texts : List Str}
    (h : getNextParameter iTemplate = some (p, rest)) (hformat : p.iFormat = [])
    (hplain : ∀ c ∈ p.iText, isMeta c = false) (hrest : Reads rest texts last) :
    Reads iTemplate (p.iText :: texts) last

/-- The path is made of the texts in sequence with a value for each parameter: one or more characters
other than `/`. -/
def IsInstance : List Str → Str → Str → Prop
  | [], last, u => u = last
  | text :: texts, last, u => ∃ value rest, u = text ++ value ++ rest ∧ value ≠ [] ∧ '/' ∉ value ∧
      IsInstance texts last rest

/-- `matchUri` of the entry does what is meant on the path: for an entry of the whole path it matches
exactly the instances, with their length, and for another one exactly the paths that have a non-empty
instance for a prefix, up to their end or to a `/`, with the length of that prefix. -/
def CallbackDataBase.Mounts (c : CallbackDataBase) (isInstance : Str → Prop) (u : Str) : Prop :=
  ∀ oLength, c.matchUri u = .ok (some oLength) ↔
    if c.uriRegexMatchWholePath then isInstance u ∧ oLength = u.length
    else ∃ p, p ≠ [] ∧ p <+: u ∧ isInstance p ∧ (p = u ∨ u[p.length]? = some '/') ∧
      oLength = p.length

/-! ### The expression of a pattern -/

/-- The item of a parameter without a format. -/
def segment : Re := .seq (.char isSegment) (.star true (.char isSegment))

/-- The items of a template. -/
def items (texts : List Str) (last : Str) : List Re :=
  texts.flatMap (fun text => textItems text ++ [segment]) ++ textItems last

/-- The items of a template begin with those of its first text and a segment. -/
theorem items_cons (text : Str) (texts : List Str) (last : Str) :
    items (text :: texts) last = textItems text ++ segment :: items texts last := by
  simp [items]

section
variable {p : Parser} {texts : List Str} {last : Str}

/-- The pattern of a parameter without a format adds its item. -/
theorem feed_simplePattern (hp : p.Ready) : ∃ mode, p.feed simplePattern =
    some (p.add [segment] mode) ∧ (p.add [segment] mode).Ready := by
  obtain ⟨groups, outer, current, mode⟩ := p
  rcases hp with hmode | ⟨r, hmode⟩
  · cases hmode
    exact ⟨.quantified _, rfl, .inr ⟨_, rfl⟩⟩
  · cases hmode
    exact ⟨.quantified _, rfl, .inr ⟨_, rfl⟩⟩

/-- Texts without metacharacters are read as they are, with a segment behind each. -/
theorem feed_texts (hp : p.Ready) (htexts : ∀ text ∈ texts, ∀ c ∈ text, isMeta c = false)
    (hlast : ∀ c ∈ last, isMeta c = false) :
    ∃ mode, p.feed (texts.flatMap (· ++ simplePattern) ++ last) =
      some (p.add (items texts last) mode) ∧ (p.add (items texts last) mode).Ready := by
  induction texts generalizing p with
  | nil => exact Parser.feed_text hp hlast
  | cons text texts ih =>
    obtain ⟨mode₁, htext, hready₁⟩ := Parser.feed_text hp (htexts text (.head _))
    obtain ⟨mode₂, hsegment, hready₂⟩ := feed_simplePattern hready₁
    obtain ⟨mode, hrest, hready⟩ := ih hready₂ fun text' h => htexts text' (.tail _ h)
    have hitems : ((p.add (textItems text) mode₁).add [segment] mode₂).add (items texts last) mode =
        p.add (items (text :: texts) last) mode := by
      simp [Parser.add_add, items]
    rw [hitems] at hrest hready
    refine ⟨mode, ?_, hready⟩
    rw [List.flatMap_cons, List.append_assoc, List.append_assoc, Parser.feed_append, htext,
      Option.bind_some, Parser.feed_append, hsegment, Option.bind_some, hrest]

end

/-- The pattern that `parse` makes. -/
theorem parseLoop_matchPattern {formats : Formats} {n : Nat} {t t' : UriTemplate}
    {text last : Str} {texts : List Str} (hreads : Reads text texts last)
    (h : parseLoop formats n t text = some (.ok t')) :
    t'.matchPattern = t.matchPattern ++ (texts.flatMap (· ++ simplePattern) ++ last) := by
  induction hreads generalizing n t with
  | nil hnext _ =>
    cases n with
    | zero => cases h
    | succ n =>
      rw [parseLoop, hnext] at h
      cases h
      rfl
  | cons hnext hformat _ _ ih =>
    cases n with
    | zero => cases h
    | succ n =>
      have hsimple : ∀ formats, formatOf formats [] = .ok simpleFormat := fun _ => rfl
      rw [parseLoop, hnext] at h
      dsimp only at h
      split at h
      · cases h
      · rw [hformat, hsimple] at h
        have hpattern : simpleFormat.getPattern false = simplePattern := rfl
        rw [ih h, hpattern]
        simp only [List.flatMap_cons, List.append_assoc]

/-- The texts of a template that reads as plain have no metacharacter. -/
theorem Reads.plain {text last : Str} {texts : List Str} (h : Reads text texts last) :
    (∀ text ∈ texts, ∀ c ∈ text, isMeta c = false) ∧ ∀ c ∈ last, isMeta c = false := by
  induction h with
  | nil _ hplain => exact ⟨nofun, hplain⟩
  | cons _ _ hplain _ ih => exact ⟨List.forall_mem_cons.mpr ⟨hplain, ih.1⟩, ih.2⟩

/-- The expression of `matchUri`. -/
theorem parse_getPattern {formats : Formats} {iTemplate last : Str} {texts : List Str}
    {t : UriTemplate} (ht : UriTemplate.parse formats iTemplate = .ok t)
    (hreads : Reads iTemplate texts last) :
    Regex.parse (t.getPattern false true) = some (seqOf (items texts last ++ [Re.eol]).reverse) := by
  obtain ⟨htexts, hlast⟩ := hreads.plain
  obtain ⟨mode, hfeed, hready⟩ := feed_texts (p := .init) (.inl rfl) htexts hlast
  have hpattern : t.getPattern false true =
      texts.flatMap (· ++ simplePattern) ++ last ++ ['$'] := by
    rw [UriTemplate.getPattern, parseLoop_matchPattern hreads (extends_of_parse ht).1]
    rfl
  rw [hpattern, Regex.parse, Parser.feed_append, hfeed, Option.bind_some, Parser.feed_cons,
    hready.step]
  simp [Parser.stepNormal, Parser.push, Parser.finish, Parser.add, Parser.init, Open.re, altOf]

/-! ### The matches of the expression -/

/-- A segment is a text without `/`. -/
theorem forall_isSegment {value : Str} :
    (∀ c ∈ value, isSegment.accepts c = true) ↔ '/' ∉ value := by
  simp only [isSegment_accepts, bne_iff_ne]
  exact ⟨fun h hmem => h _ hmem rfl, fun h c hc heq => h (heq ▸ hc)⟩

/-- A parameter takes one or more characters other than `/`. -/
theorem mem_run_segment {s s' : State} : s' ∈ segment.run s ↔
    ∃ value rest, s.rest = value ++ rest ∧ value ≠ [] ∧ '/' ∉ value ∧ s' = s.advance value.length := by
  simp only [segment, mem_run_char_star, forall_isSegment]

/-- The items of a template match the starts of the text that are instances. -/
theorem mem_runAll_items_prefix {texts : List Str} {last : Str} {s s' : State} :
    s' ∈ runAll (items texts last) s ↔
      ∃ u rest, s.rest = u ++ rest ∧ IsInstance texts last u ∧ s' = s.advance u.length := by
  induction texts generalizing s with
  | nil =>
    rw [show items [] last = textItems last from rfl, mem_runAll_text]
    constructor
    · rintro ⟨rest, hrest, rfl⟩
      exact ⟨last, rest, hrest, rfl, rfl⟩
    · rintro ⟨u, rest, hrest, rfl, rfl⟩
      exact ⟨rest, hrest, rfl⟩
  | cons text texts ih =>
    rw [items_cons, runAll_append, List.mem_flatMap]
    simp only [runAll, List.mem_flatMap, mem_runAll_text, mem_run_segment, ih]
    constructor
    · rintro ⟨s₁, ⟨rest₁, hrest₁, rfl⟩, s₂, ⟨value, rest₂, hrest₂, hne, hslash, rfl⟩, u, rest, hrest,
        hinstance, rfl⟩
      rw [State.advance_rest_append hrest₁] at hrest₂
      have hbehind : ((s.advance text.length).advance value.length).rest = rest₂ :=
        State.advance_rest_append ((State.advance_rest_append hrest₁).trans hrest₂)
      rw [hbehind] at hrest
      refine ⟨text ++ value ++ u, rest, ?_, ⟨value, u, rfl, hne, hslash, hinstance⟩, ?_⟩
      · rw [hrest₁, hrest₂, hrest, List.append_assoc, List.append_assoc]
      · simp [State.advance_advance, Nat.add_assoc]
    · rintro ⟨u, rest, hrest, ⟨value, u', rfl, hne, hslash, hinstance⟩, rfl⟩
      have hrest₁ : s.rest = text ++ (value ++ (u' ++ rest)) := by
        rw [hrest, List.append_assoc, List.append_assoc]
      have hrest₂ := State.advance_rest_append hrest₁
      refine ⟨_, ⟨_, hrest₁, rfl⟩, _, ⟨value, _, hrest₂, hne, hslash, rfl⟩, u', rest,
        State.advance_rest_append hrest₂, hinstance, ?_⟩
      simp [State.advance_advance, Nat.add_assoc]

/-- The `$` behind the items asks for the end of the text. -/
theorem mem_runAll_items {texts : List Str} {last : Str} {s s' : State} :
    s' ∈ runAll (items texts last ++ [Re.eol]) s ↔
      IsInstance texts last s.rest ∧ s' = s.advance s.rest.length := by
  rw [runAll_append, List.mem_flatMap]
  have hend : ∀ s₁ : State, s' ∈ runAll [Re.eol] s₁ ↔ s' = s₁ ∧ s₁.rest = [] := by
    intro s₁
    rw [show runAll [Re.eol] s₁ = Re.eol.run s₁ from List.flatMap_singleton' _, Re.run]
    split <;> simp [*]
  constructor
  · rintro ⟨s₁, hs₁, hs'⟩
    obtain ⟨u, rest, hrest, hinstance, rfl⟩ := mem_runAll_items_prefix.mp hs₁
    obtain ⟨rfl, hnil⟩ := (hend _).mp hs'
    obtain rfl : rest = [] := (State.advance_rest_append hrest).symm.trans hnil
    rw [List.append_nil] at hrest
    rw [hrest]
    exact ⟨hinstance, rfl⟩
  · rintro ⟨hinstance, rfl⟩
    refine ⟨_, mem_runAll_items_prefix.mpr ⟨s.rest, [], (List.append_nil _).symm, hinstance, rfl⟩, ?_⟩
    exact (hend _).mpr ⟨rfl, by rw [State.advance_rest, List.drop_length]⟩

/-! ### What `matchUri` does -/

section
variable {formats : Formats} {iTemplate last : Str} {texts : List Str}

/-- The first match is the whole text when every match is. -/
theorem matchRegex_whole {r : Re} {text : Str} {P : Prop}
    (hrun : ∀ s, s ∈ r.run ⟨0, text, []⟩ ↔ P ∧ s = State.advance ⟨0, text, []⟩ text.length)
    {anchor : Anchor} (hanchor : anchor ≠ .UNANCHORED) (n : Nat) :
    (∃ m, matchRegex r text anchor = some m ∧ m.length = n) ↔ P ∧ n = text.length := by
  cases hlist : r.run ⟨0, text, []⟩ with
  | nil =>
    have hnot : ¬ P := fun h => by simpa [hlist] using (hrun _).mpr ⟨h, rfl⟩
    have hnone : matchRegex r text anchor = none := by
      cases anchor with
      | ANCHOR_BOTH => rw [matchRegex, Re.matchWhole, hlist]; rfl
      | ANCHOR_START => rw [matchRegex, Re.matchStart, Re.matchAt, hlist]; rfl
      | UNANCHORED => exact absurd rfl hanchor
    simp [hnone, hnot]
  | cons s l =>
    obtain ⟨hP, rfl⟩ := (hrun s).mp (by simp [hlist])
    have hsome : matchRegex r text anchor = some ⟨0, text, []⟩ := by
      cases anchor with
      | ANCHOR_BOTH => simp [matchRegex, Re.matchWhole, hlist, matchBetween]
      | ANCHOR_START => simp [matchRegex, Re.matchStart, Re.matchAt, hlist, matchBetween]
      | UNANCHORED => exact absurd rfl hanchor
    simp [hsome, hP, Match.length, eq_comm]

/-- `matchUri` with a pattern that is an expression. -/
theorem matchUri_eq_some {c : CallbackDataBase} {r : Re}
    (hparse : Regex.parse (c.uri.getPattern false true) = some r) (u : Str) (oLength : Nat) :
    c.matchUri u = .ok (some oLength) ↔
      ∃ m, matchRegex r u (if c.uriRegexMatchWholePath then .ANCHOR_START else .ANCHOR_BOTH) = some m ∧
        (if 0 < m.length ∧ (m.length = u.length ∨ u[m.length]? = some '/') then some m.length
          else none) = some oLength := by
  rw [CallbackDataBase.matchUri, hparse, Except.ok.injEq, Option.bind_eq_some_iff]

/-- `matchUri` matches the whole path or nothing. -/
theorem matchUri_iff {c : CallbackDataBase} (ht : UriTemplate.parse formats iTemplate = .ok c.uri)
    (hreads : Reads iTemplate texts last) (u : Str) (oLength : Nat) :
    c.matchUri u = .ok (some oLength) ↔ u ≠ [] ∧ IsInstance texts last u ∧ oLength = u.length := by
  have hrun : ∀ s, s ∈ (seqOf (items texts last ++ [Re.eol]).reverse).run ⟨0, u, []⟩ ↔
      IsInstance texts last u ∧ s = State.advance ⟨0, u, []⟩ u.length := by
    intro s
    rw [run_seqOf, mem_runAll_items]
  have hanchor : (if c.uriRegexMatchWholePath then Anchor.ANCHOR_START else .ANCHOR_BOTH) ≠
      .UNANCHORED := by
    split <;> decide
  have hmatch := matchRegex_whole hrun hanchor
  rw [matchUri_eq_some (parse_getPattern ht hreads)]
  constructor
  · rintro ⟨m, hm, hlength⟩
    obtain ⟨hinstance, hlen⟩ := (hmatch m.length).mp ⟨m, hm, rfl⟩
    split at hlength
    · rename_i hpos
      cases hlength
      exact ⟨List.ne_nil_of_length_pos (hlen ▸ hpos.1), hinstance, hlen⟩
    · cases hlength
  · rintro ⟨hne, hinstance, rfl⟩
    obtain ⟨m, hm, hlen⟩ := (hmatch u.length).mpr ⟨hinstance, rfl⟩
    exact ⟨m, hm, by rw [hlen, if_pos ⟨List.length_pos_of_ne_nil hne, .inl rfl⟩]⟩

/-- An entry of the whole path does what is meant on every path but the empty one, which is an
instance of the empty template only. An entry for prefixes does it on the paths without a non-empty
instance in front of a `/`. -/
theorem mounts_iff {c : CallbackDataBase} (ht : UriTemplate.parse formats iTemplate = .ok c.uri)
    (hreads : Reads iTemplate texts last) (u : Str) :
    c.Mounts (IsInstance texts last) u ↔
      if c.uriRegexMatchWholePath then ¬ (u = [] ∧ IsInstance texts last [])
      else ∀ p, p ≠ [] → p <+: u → IsInstance texts last p → u[p.length]? ≠ some '/' := by
  simp only [CallbackDataBase.Mounts, matchUri_iff ht hreads]
  cases hwhole : c.uriRegexMatchWholePath with
  | true =>
    rw [if_pos rfl]
    constructor
    · rintro h ⟨rfl, hinstance⟩
      exact ((h 0).mpr ⟨hinstance, rfl⟩).1 rfl
    · intro h oLength
      refine ⟨fun hmatch => hmatch.2, fun hmeant => ⟨?_, hmeant⟩⟩
      rintro rfl
      exact h ⟨rfl, hmeant.1⟩
  | false =>
    rw [if_neg Bool.false_ne_true]
    constructor
    · intro h p hne hprefix hinstance hslash
      obtain ⟨-, -, hlen⟩ := (h p.length).mpr ⟨p, hne, hprefix, hinstance, .inr hslash, rfl⟩
      rw [hlen, List.getElem?_length] at hslash
      cases hslash
    · intro h oLength
      constructor
      · rintro ⟨hne, hinstance, hlen⟩
        exact ⟨u, hne, List.prefix_rfl, hinstance, .inl rfl, hlen⟩
      · rintro ⟨p, hne, hprefix, hinstance, rfl | hslash, hlen⟩
        · exact ⟨hne, hinstance, hlen⟩
        · exact absurd hslash (h p hne hprefix hinstance)

end

def userTemplate : UriTemplate where
  template := "/users/:id".toList
  matchPattern := "/users/[^/]+".toList
  extractPattern := "/users/([^/]+)".toList
  params := ["id".toList]
  formatNames := [[]]

/-- The template as it is parsed. -/
theorem parse_userTemplate : UriTemplate.parse [] "/users/:id".toList = .ok userTemplate := rfl

/-- Its text in front of the parameter. -/
theorem reads_userTemplate : Reads "/users/:id".toList ["/users/".toList] [] := by
  have hid : getNextParameter "/users/:id".toList =
      some (⟨"/users/".toList, "id".toList, []⟩, []) := rfl
  have hplain : ("/users/".toList.all fun c => !isMeta c) = true := by decide
  simp only [List.all_eq_true, Bool.not_eq_true'] at hplain
  exact .cons hid rfl hplain (.nil (by decide) nofun)

/-- A path without a prefix to match. -/
theorem mounts_user : (CallbackDataBase.mk userTemplate false).Mounts
    (IsInstance ["/users/".toList] []) "/users/7".toList := by
  refine (mounts_iff parse_userTemplate reads_userTemplate _).mpr fun p _ _ hinstance hslash => ?_
  obtain ⟨value, rest, rfl, hvalue, -, -⟩ := hinstance
  have hpos : 0 < value.length := List.length_pos_of_ne_nil hvalue
  have hend : "/users/7".toList.length ≤ ("/users/".toList ++ value ++ rest).length := by
    simp only [List.length_append]
    show 8 ≤ 7 + value.length + rest.length
    omega
  rw [List.getElem?_eq_none hend] at hslash
  cases hslash

/-- The prefix `/users/7` is an instance, and a `/` follows it. -/
theorem not_mounts_user : Reads "/users/:id".toList ["/users/".toList] [] ∧
    UriTemplate.parse [] "/users/:id".toList = .ok userTemplate ∧
    ¬ (CallbackDataBase.mk userTemplate false).Mounts (IsInstance ["/users/".toList] [])
      "/users/7/posts".toList := by
  refine ⟨reads_userTemplate, parse_userTemplate, fun h => ?_⟩
  have hinstance : IsInstance ["/users/".toList] [] "/users/7".toList :=
    ⟨"7".toList, [], rfl, by decide, by decide, rfl⟩
  have hmatch : (CallbackDataBase.mk userTemplate false).matchUri "/users/7/posts".toList =
      .ok none := by
    decide +kernel
  have hmeant := (h 8).mpr ⟨"/users/7".toList, by decide, by decide, hinstance, .inr (by decide), rfl⟩
  rw [hmatch] at hmeant
  cases hmeant

end NodeNative.Uri
