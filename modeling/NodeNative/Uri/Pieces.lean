import NodeNative.Lib.RegexNesting
import NodeNative.Uri.Language
import NodeNative.Uri.PrefixMount

/-!
# The pieces of a path

What extraction does with a path of a template is said by `Parts.Splits`: the pattern with its groups
takes the texts and one piece for each parameter, which is a path of its format, and captures the
pieces in the order of the groups (`run_groupItems`). What is extracted is a split of the path
(`extract_splits`), there is something to extract from each path (`extract_whole_iff`), and a template
whose texts delimit its parameters gives the values back that it was filled with (`extract_delimited`).
-/

namespace NodeNative.Uri

open Regex Http

/-- The expression with its groups, the first of which has the number `groups + 1`. -/
def Parts.groupItems (whole : Bool) (groups : Nat) : Parts → List Re
  | .last text => if whole then (Regex.parse text).toList else textItems text
  | .param text _ inner rest =>
    textItems text ++ .group (groups + 1) (seqOf (inner.groupItems true (groups + 1)).reverse) ::
      rest.groupItems false (groups + 1 + inner.count)

/-- The path `u` is made of the texts and the pieces `ps`, one for each parameter, and the pieces of a
parameter's format behind it. -/
def Parts.Splits : Bool → Parts → Str → List Str → Prop
  | whole, .last text, u, ps => u ∈ (Parts.last text).words whole ∧ ps = []
  | _, .param text _ inner rest, u, ps => ∃ value tail qs rs, u = text ++ value ++ tail ∧
      inner.Splits true value qs ∧ rest.Splits false tail rs ∧ ps = value :: (qs ++ rs)

/-- The text in front of the first parameter. -/
def Parts.text : Parts → Str
  | .last text => text
  | .param text _ _ _ => text

/-- Each parameter is at the end, or the text behind it starts with a character that no value of its
format has. -/
def Parts.Delimited : Parts → Prop
  | .last _ => True
  | .param _ _ inner rest => inner.Delimited ∧ rest.Delimited ∧
      (rest = .last [] ∨
        ∃ c, rest.text.head? = some c ∧ ∀ value ∈ inner.words true, c ∉ value)

section
variable {parts inner rest : Parts} {whole : Bool} {text name u : Str} {ps : List Str} {p : Parser}

/-- A path has a piece for each parameter. -/
theorem Parts.Splits.length (h : parts.Splits whole u ps) : ps.length = parts.count := by
  induction parts generalizing whole u ps with
  | last text => rw [h.2]; rfl
  | param text name inner rest ihinner ihrest =>
    obtain ⟨value, tail, qs, rs, -, hinner, hrest, rfl⟩ := h
    rw [count, List.length_cons, List.length_append, ihinner hinner, ihrest hrest]
    omega

/-- The paths are those that can be split. -/
theorem Parts.mem_words_iff : u ∈ parts.words whole ↔ ∃ ps, parts.Splits whole u ps := by
  induction parts generalizing whole u with
  | last text => exact ⟨fun h => ⟨[], h, rfl⟩, fun ⟨_, h, _⟩ => h⟩
  | param text name inner rest ihinner ihrest =>
    rw [words, Language.mem_mul]
    constructor
    · rintro ⟨x, hx, tail, htail, rfl⟩
      obtain ⟨t, rfl, value, hvalue, rfl⟩ := Language.mem_mul.mp hx
      obtain ⟨qs, hqs⟩ := ihinner.mp hvalue
      obtain ⟨rs, hrs⟩ := ihrest.mp htail
      exact ⟨_, value, tail, qs, rs, rfl, hqs, hrs, rfl⟩
    · rintro ⟨-, value, tail, qs, rs, rfl, hqs, hrs, -⟩
      refine ⟨text ++ value, Language.mem_mul.mpr ⟨text, rfl, value, ihinner.mpr ⟨qs, hqs⟩, rfl⟩,
        tail, ihrest.mpr ⟨rs, hrs⟩, rfl⟩

/-- A path that is cut along a template begins with its first text. -/
theorem Parts.Splits.text_prefix (h : parts.Splits false u ps) : parts.text <+: u := by
  cases parts with
  | last text =>
    obtain rfl : u = text := h.1
    exact List.prefix_rfl
  | param text name inner rest =>
    obtain ⟨value, tail, qs, rs, rfl, -⟩ := h
    exact ⟨value ++ tail, by rw [List.append_assoc]; rfl⟩

/-- Two texts without the character that comes behind them. -/
theorem eq_of_delimiter {c : Char} {x y v w : Str} (hx : c ∉ x) (hy : c ∉ y)
    (h : x ++ c :: v = y ++ c :: w) : x = y := by
  have htake : ∀ {x v : Str}, c ∉ x → (x ++ c :: v).takeWhile (· != c) = x := fun {x v} hx => by
    have hall : ∀ a ∈ x, (a != c) = true := fun a ha => by
      simpa using ne_of_mem_of_not_mem ha hx
    rw [List.takeWhile_append_of_pos hall]
    simp
  rw [← htake (v := v) hx, h, htake hy]

/-- A path of a delimited template can be split in one way only. -/
theorem Parts.Delimited.splits_unique (hdelimited : parts.Delimited) {ps' : List Str}
    (h : parts.Splits whole u ps) (h' : parts.Splits whole u ps') : ps = ps' := by
  induction parts generalizing whole u ps ps' with
  | last text => exact h.2.trans h'.2.symm
  | param text name inner rest ihinner ihrest =>
    obtain ⟨value, tail, qs, rs, rfl, hinner, hrest, rfl⟩ := h
    obtain ⟨value', tail', qs', rs', hu, hinner', hrest', rfl⟩ := h'
    obtain ⟨hformat, hnext, hbetween⟩ := hdelimited
    have hpath : value ++ tail = value' ++ tail' := by
      simpa using hu
    have hvalue : value = value' := by
      rcases hbetween with rfl | ⟨c, hc, hfree⟩
      · obtain ⟨rfl, -⟩ := show tail = [] ∧ rs = [] from hrest
        obtain ⟨rfl, -⟩ := show tail' = [] ∧ rs' = [] from hrest'
        simpa using hpath
      · have hhead : ∀ {tail rs}, rest.Splits false tail rs → ∃ v, tail = c :: v := fun hs => by
          obtain ⟨v, hv⟩ := hs.text_prefix
          obtain ⟨v', hv'⟩ := List.head?_eq_some_iff.mp hc
          exact ⟨v' ++ v, by rw [← hv, hv']; rfl⟩
        obtain ⟨v, rfl⟩ := hhead hrest
        obtain ⟨v', rfl⟩ := hhead hrest'
        exact eq_of_delimiter (hfree _ (Parts.mem_words_iff.mpr ⟨qs, hinner⟩))
          (hfree _ (Parts.mem_words_iff.mpr ⟨qs', hinner'⟩)) hpath
    subst hvalue
    obtain rfl : tail = tail' := List.append_cancel_left hpath
    rw [ihinner hformat hinner hinner', ihrest hnext hrest hrest']

/-- The values of a parameter without a format. -/
theorem mem_words_simplePattern {value : Str} :
    value ∈ (Parts.last simplePattern).words true ↔ value ≠ [] ∧ '/' ∉ value := by
  have hparse : Regex.parse simplePattern = some segment := by
    rfl
  rw [Parts.words, if_pos rfl, hparse, Option.elim_some,
    ← matchWhole_isSome_iff_mem (r := segment) rfl, matchWhole_isSome_iff,
    ← Re.run_of_groupFree (r := segment) rfl]
  constructor
  · rintro ⟨s, hs, hend⟩
    obtain ⟨w, rest, hw, hne, hslash, rfl⟩ := mem_run_segment.mp hs
    obtain rfl : rest = [] := (State.advance_rest_append hw).symm.trans hend
    obtain rfl : value = w := (List.append_nil w) ▸ hw
    exact ⟨hne, hslash⟩
  · rintro ⟨hne, hslash⟩
    refine ⟨_, mem_run_segment.mpr ⟨value, [], (List.append_nil _).symm, hne, hslash, rfl⟩, ?_⟩
    exact State.advance_rest_append (List.append_nil _).symm

/-! ### The pattern with its groups -/

/-- The pattern for extraction is read to the items, with a group for each parameter. -/
theorem Parts.feed_groupPattern (parts : Parts) :
    (parts.simple false = true → ∀ p : Parser, p.Ready → ∃ mode,
      p.feed (parts.pattern true) =
        some { p.add (parts.groupItems false p.groups) mode with groups := p.groups + parts.count } ∧
      (p.add (parts.groupItems false p.groups) mode).Ready) ∧
    (parts.simple true = true → ∀ p : Parser, p.Ready →
      p.feed ('(' :: (parts.pattern true ++ [')'])) =
        some { p.push (.group (p.groups + 1) (seqOf (parts.groupItems true (p.groups + 1)).reverse)) with
          groups := p.groups + 1 + parts.count }) := by
  induction parts with
  | last text =>
    refine ⟨fun h p hp => ?_, fun h p hp => ?_⟩
    · obtain ⟨mode, hfeed, hready⟩ := Parser.feed_text hp (simple_text h)
      exact ⟨mode, hfeed, hready⟩
    · obtain ⟨hgroups, r, hr, -, -⟩ := simple_format h
      rw [pattern, Parser.feed_capture hp hr hgroups, groupItems, if_pos rfl, hr]
      rfl
  | param text name inner rest ihinner ihrest =>
    have hfeed : (Parts.param text name inner rest).simple false = true → ∀ p : Parser, p.Ready →
        ∃ mode, p.feed ((Parts.param text name inner rest).pattern true) =
            some { p.add ((Parts.param text name inner rest).groupItems false p.groups) mode with
              groups := p.groups + (Parts.param text name inner rest).count } ∧
          (p.add ((Parts.param text name inner rest).groupItems false p.groups) mode).Ready := by
      intro h p hp
      obtain ⟨htext, hinner, hrest⟩ := simple_param h
      obtain ⟨mode₁, hfeed₁, hready₁⟩ := Parser.feed_text hp htext
      have hformat := ihinner.2 hinner _ hready₁
      obtain ⟨mode, hfeedRest, hready⟩ := ihrest.1 hrest
        { (p.add (textItems text) mode₁).push
            (.group (p.groups + 1) (seqOf (inner.groupItems true (p.groups + 1)).reverse)) with
          groups := p.groups + 1 + inner.count } (.inl rfl)
      refine ⟨mode, ?_, hready⟩
      have hsplit : (Parts.param text name inner rest).pattern true =
          text ++ ('(' :: (inner.pattern true ++ [')']) ++ rest.pattern true) := by
        simp [pattern]
      rw [hsplit, Parser.feed_append, hfeed₁, Option.bind_some, Parser.feed_append]
      show (Parser.feed _ _).bind _ = _
      rw [hformat, Option.bind_some]
      refine hfeedRest.trans ?_
      simp [Parser.add, Parser.push, groupItems, count, Nat.add_assoc]
    refine ⟨hfeed, fun h p hp => ?_⟩
    have hquestion : ((Parts.param text name inner rest).pattern true ++ [')']).head? ≠ some '?' := by
      cases text with
      | nil => simp [pattern]
      | cons c text =>
        intro hc
        cases Option.some.inj hc
        exact absurd ((simple_param h).1 '?' List.mem_cons_self) (by decide)
    obtain ⟨mode, hfeed', hready⟩ := hfeed h (p.openGroup (p.groups + 1) (some (p.groups + 1)))
      (.inl rfl)
    have hready' : Parser.Ready
        { (p.openGroup (p.groups + 1) (some (p.groups + 1))).add
            ((Parts.param text name inner rest).groupItems false (p.groups + 1)) mode with
          groups := p.groups + 1 + (Parts.param text name inner rest).count } := hready
    rw [Parser.feed_openParen hp (by simp) hquestion, Parser.feed_append, hfeed', Option.bind_some,
      Parser.feed_cons]
    refine (congrArg (Option.bind · fun p' => p'.feed []) (hready'.step ')')).trans ?_
    simp [Parser.stepNormal, Parser.closeGroup, Parser.add, Parser.openGroup, Parser.push, Open.re,
      altOf, groupItems]

/-- The expression of the pattern for extraction. -/
theorem Parts.parse_groupPattern (h : parts.simple true = true) :
    Regex.parse (parts.pattern true) = some (seqOf (parts.groupItems true 0).reverse) ∧
      groupCount (parts.pattern true) = some parts.count := by
  cases parts with
  | last text =>
    obtain ⟨hgroups, r, hr, -, -⟩ := simple_format h
    refine ⟨?_, hgroups⟩
    rw [pattern, groupItems, if_pos rfl, hr]
    rfl
  | param text name inner rest =>
    obtain ⟨mode, hfeed, hready⟩ :=
      (Parts.param text name inner rest).feed_groupPattern.1 h .init (.inl rfl)
    have hfinish := Parser.finish_of_ready (p := { Parser.init.add
      ((Parts.param text name inner rest).groupItems false 0) mode with
        groups := 0 + (Parts.param text name inner rest).count }) hready rfl
    refine ⟨?_, ?_⟩
    · rw [Regex.parse, hfeed]
      refine hfinish.trans ?_
      simp [Parser.add, Parser.init, Open.re, altOf, groupItems]
    · rw [groupCount, hfeed]
      refine (congrArg (Option.map _) hfinish).trans ?_
      exact congrArg some (Nat.zero_add _)

/-- The items with groups take the paths of the template too. -/
theorem Parts.language_groupItems (parts : Parts) (h : parts.simple whole = true) (groups : Nat) :
    languageAll (parts.groupItems whole groups) = parts.words whole := by
  induction parts generalizing whole groups with
  | last text =>
    cases whole with
    | false => rw [groupItems, words, if_neg Bool.false_ne_true, if_neg Bool.false_ne_true, languageAll_text]
    | true =>
      obtain ⟨-, r, hr, -, -⟩ := simple_format h
      rw [groupItems, words, if_pos rfl, if_pos rfl, hr, Option.elim_some]
      exact mul_one _
  | param text name inner rest ihinner ihrest =>
    obtain ⟨-, hinner, hrest⟩ := simple_param h
    have hgroup : (Re.group (groups + 1) (seqOf (inner.groupItems true (groups + 1)).reverse)).language =
        inner.words true :=
      (language_seqOf _).trans (ihinner hinner _)
    rw [groupItems, languageAll_append, languageAll_cons, languageAll_text, hgroup, ihrest hrest, words,
      mul_assoc]

/-- No item of a simple template is an anchor. -/
theorem Parts.anchorFree_groupItems (parts : Parts) (h : parts.simple whole = true) (groups : Nat) :
    (parts.groupItems whole groups).all Re.anchorFree = true := by
  have htext : ∀ text : Str, (textItems text).all Re.anchorFree = true := fun text => by
    simp [textItems, Re.anchorFree]
  induction parts generalizing whole groups with
  | last text =>
    cases whole with
    | false => exact htext text
    | true =>
      obtain ⟨-, r, hr, hfree, -⟩ := simple_format h
      rw [groupItems, if_pos rfl, hr]
      simp [hfree]
  | param text name inner rest ihinner ihrest =>
    obtain ⟨-, hinner, hrest⟩ := simple_param h
    rw [groupItems, List.all_append, htext, List.all_cons, Re.anchorFree, anchorFree_seqOf,
      List.all_reverse, ihinner hinner, ihrest hrest]
    rfl

/-! ### Captures -/

/-- The pieces `ps` are the texts of the groups behind number `groups`, and there are no others. -/
structure Numbered (groups : Nat) (ps : List Str) (captures : List (Nat × Str)) : Prop where
  lookup : ∀ (i : Nat) (piece : Str), ps[i]? = some piece →
    captures.lookup (groups + 1 + i) = some piece
  range : ∀ e ∈ captures, groups < e.1 ∧ e.1 ≤ groups + ps.length

/-- No groups are numbered. -/
theorem Numbered.nil (groups : Nat) : Numbered groups [] [] :=
  ⟨by simp, by simp⟩

/-- A number out of the range. -/
theorem Numbered.lookup_none {groups n : Nat} {captures : List (Nat × Str)}
    (h : Numbered groups ps captures) (hn : n ≤ groups ∨ groups + ps.length < n) :
    captures.lookup n = none := by
  rw [List.lookup_eq_none_iff]
  intro e he
  have hrange := h.range e he
  exact bne_iff_ne.mpr (by omega)

/-- The pieces of a parameter: its value, those of its format, and those of the rest. -/
theorem Numbered.param {groups : Nat} {value : Str} {qs rs : List Str}
    {captures captures' : List (Nat × Str)} (hinner : Numbered (groups + 1) qs captures)
    (hrest : Numbered (groups + 1 + qs.length) rs captures') :
    Numbered groups (value :: (qs ++ rs)) (captures' ++ (groups + 1, value) :: captures) := by
  refine ⟨fun i piece hpiece => ?_, fun e he => ?_⟩
  · rw [List.lookup_append]
    cases i with
    | zero =>
      obtain rfl : value = piece := Option.some.inj hpiece
      rw [hrest.lookup_none (.inl (by omega)), Option.none_or, List.lookup_cons]
      simp
    | succ i =>
      rw [List.getElem?_cons_succ] at hpiece
      by_cases hi : i < qs.length
      · rw [List.getElem?_append_left hi] at hpiece
        have hne : (groups + 1 + (i + 1) == groups + 1) = false := beq_eq_false_iff_ne.mpr (by omega)
        have hlookup := hinner.lookup i piece hpiece
        rw [show groups + 1 + 1 + i = groups + 1 + (i + 1) by omega] at hlookup
        rw [hrest.lookup_none (.inl (by omega)), Option.none_or, List.lookup_cons, hne]
        exact hlookup
      · rw [List.getElem?_append_right (by omega)] at hpiece
        have hlookup := hrest.lookup (i - qs.length) piece hpiece
        rw [show groups + 1 + qs.length + 1 + (i - qs.length) = groups + 1 + (i + 1) by omega]
          at hlookup
        rw [hlookup, Option.some_or]
  · rw [List.length_cons, List.length_append]
    rcases List.mem_append.mp he with he | he
    · have := hrest.range e he
      omega
    · rcases List.mem_cons.mp he with rfl | he
      · exact ⟨Nat.lt_succ_self _, by omega⟩
      · have := hinner.range e he
        omega

/-- What a run of the items leaves behind: it took a path of the template, and captured its pieces. -/
theorem Parts.run_groupItems (h : parts.simple whole = true) {groups : Nat} {s s' : State}
    (hs' : s' ∈ runAll (parts.groupItems whole groups) s) :
    ∃ u ps captures, parts.Splits whole u ps ∧ u <+: s.rest ∧ Numbered groups ps captures ∧
      s' = { s.advance u.length with captures := captures ++ s.captures } := by
  induction parts generalizing whole groups s s' with
  | last text =>
    cases whole with
    | false =>
      rw [groupItems, if_neg Bool.false_ne_true] at hs'
      obtain ⟨tail, hrest, rfl⟩ := mem_runAll_text.mp hs'
      exact ⟨text, [], [], ⟨rfl, rfl⟩, ⟨tail, hrest.symm⟩, .nil groups, rfl⟩
    | true =>
      obtain ⟨-, r, hr, hfree, hgroup⟩ := simple_format h
      rw [groupItems, if_pos rfl, hr] at hs'
      have hrun : s' ∈ r.ends s := by
        rw [← Re.run_of_groupFree hgroup]
        simpa [runAll] using hs'
      obtain ⟨w, hw, hpre, rfl⟩ := (mem_ends_iff hfree).mp hrun
      refine ⟨w, [], [], ⟨?_, rfl⟩, hpre, .nil groups, rfl⟩
      rw [words, if_pos rfl, hr]
      exact hw
  | param text name inner rest ihinner ihrest =>
    obtain ⟨-, hinner, hrest⟩ := simple_param h
    rw [groupItems, runAll_append, List.mem_flatMap] at hs'
    obtain ⟨s₁, hs₁, hs'⟩ := hs'
    obtain ⟨tail₁, htail₁, rfl⟩ := mem_runAll_text.mp hs₁
    rw [runAll, List.mem_flatMap] at hs'
    obtain ⟨s₂, hs₂, hs'⟩ := hs'
    obtain ⟨s₃, hs₃, rfl⟩ := List.mem_map.mp hs₂
    rw [run_seqOf] at hs₃
    obtain ⟨value, qs, captures, hqs, ⟨tail₂, htail₂⟩, hnumbered, rfl⟩ := ihinner hinner hs₃
    obtain ⟨tail, rs, captures', hrs, ⟨tail₃, htail₃⟩, hnumbered', rfl⟩ := ihrest hrest hs'
    have hrest₁ : (s.advance text.length).rest = tail₁ := State.advance_rest_append htail₁
    rw [hrest₁] at htail₂ htail₃
    have hvalue : (s.advance text.length).rest.take
        (((s.advance text.length).advance value.length).pos - (s.advance text.length).pos) = value := by
      rw [hrest₁, ← htail₂, State.advance_pos, Nat.add_sub_cancel_left, List.take_left]
    have htail : tail ++ tail₃ = tail₂ := by
      refine htail₃.trans ?_
      rw [State.advance_rest (s.advance text.length), hrest₁, ← htail₂, List.drop_left]
    refine ⟨text ++ value ++ tail, value :: (qs ++ rs), captures' ++ (groups + 1, value) :: captures,
      ⟨value, tail, qs, rs, rfl, hqs, hrs, rfl⟩, ⟨tail₃, ?_⟩, ?_, ?_⟩
    · rw [htail₁, ← htail₂, ← htail]
      simp
    · rw [hqs.length.symm] at hnumbered'
      exact hnumbered.param hnumbered'
    · refine State.mk.injEq .. ▸ ⟨?_, ?_, ?_⟩
      · simp only [State.advance_pos, List.length_append]
        omega
      · simp only [State.advance_rest, List.drop_drop, List.length_append, Nat.add_assoc]
      · show captures' ++ ((groups + 1, _) :: (captures ++ s.captures)) = _
        rw [hvalue]
        simp

end

section
variable {formats : Formats} {iTemplate u : Str} {parts : Parts}

/-! ### Extraction -/

/-- What a match of the expression for extraction says: its text is a path of the template, or the start
of one, and its groups are the pieces. -/
theorem Parts.matchRegex_splits (hsimple : parts.simple true = true) {iAnchorEnd : Bool} {m : Match}
    (hm : matchRegex (seqOf (parts.groupItems true 0).reverse) u
      (if iAnchorEnd then .ANCHOR_BOTH else .ANCHOR_START) = some m) :
    m.text <+: u ∧ (iAnchorEnd = true → m.text = u) ∧ ∃ ps, parts.Splits true m.text ps ∧
      ∀ i piece, ps[i]? = some piece → m.str (i + 1) = piece := by
  have hrun : ∃ s' ∈ (seqOf (parts.groupItems true 0).reverse).run ⟨0, u, []⟩,
      matchBetween ⟨0, u, []⟩ s' = m ∧ (iAnchorEnd = true → s'.rest = []) := by
    cases iAnchorEnd with
    | true =>
      rw [if_pos rfl, matchRegex, Re.matchWhole] at hm
      obtain ⟨s', hs', hbetween⟩ := Option.map_eq_some_iff.mp hm
      exact ⟨s', List.mem_of_find?_eq_some hs', hbetween, fun _ => by
        simpa using List.find?_some hs'⟩
    | false =>
      rw [if_neg Bool.false_ne_true, matchRegex, Re.matchStart, Re.matchAt] at hm
      obtain ⟨s', hs', hbetween⟩ := Option.map_eq_some_iff.mp hm
      exact ⟨s', List.mem_of_head? hs', hbetween, fun hfalse => by cases hfalse⟩
  obtain ⟨s', hs', rfl, hend⟩ := hrun
  rw [run_seqOf] at hs'
  obtain ⟨w, ps, captures, hsplits, hpre, hnumbered, rfl⟩ := parts.run_groupItems hsimple hs'
  have htext : (matchBetween ⟨0, u, []⟩ { State.advance ⟨0, u, []⟩ w.length with
      captures := captures ++ [] }).text = w := by
    obtain ⟨tail, htail⟩ := hpre
    show u.take (0 + w.length - 0) = w
    rw [Nat.zero_add, Nat.sub_zero, ← show w ++ tail = u from htail, List.take_left]
  rw [htext]
  refine ⟨hpre, fun hanchor => ?_, ps, hsplits, fun i piece hpiece => ?_⟩
  · exact hpre.eq_of_length_le (List.drop_eq_nil_iff.mp (hend hanchor))
  · have hlookup := hnumbered.lookup i piece hpiece
    rw [show 0 + 1 + i = i + 1 by omega] at hlookup
    show ((captures ++ []).lookup (i + 1)).getD [] = piece
    rw [List.append_nil, hlookup, Option.getD_some]

/-- The expression for extraction matches the whole path exactly when it is a path of the template. -/
theorem matchWhole_groupItems_iff (hsimple : parts.simple true = true) :
    (matchRegex (seqOf (parts.groupItems true 0).reverse) u .ANCHOR_BOTH).isSome ↔ u ∈ parts.words true := by
  have hfree : (seqOf (parts.groupItems true 0).reverse).anchorFree = true := by
    rw [anchorFree_seqOf, List.all_reverse, parts.anchorFree_groupItems hsimple 0]
  rw [matchRegex, matchWhole_isSome_iff_mem hfree, language_seqOf, parts.language_groupItems hsimple 0]

section
variable {t : UriTemplate} {values : UriTemplateValue} (hformats : Built formats)
  (ht : UriTemplate.parse formats iTemplate = .ok t) (hparts : t.HasParts formats parts)
  (hsimple : parts.simple true = true) (hnew : ∀ name ∈ t.params, values.child? name = none)
include hformats ht hparts hsimple hnew

/-- Extraction is a match of the expression, whose groups are saved in the order of the parameters. -/
theorem extract_match (iAnchorEnd : Bool) :
    match matchRegex (seqOf (parts.groupItems true 0).reverse) u
        (if iAnchorEnd then .ANCHOR_BOTH else .ANCHOR_START) with
    | none => t.extract formats values u iAnchorEnd = .ok none
    | some m => ∃ v, t.extract formats values u iAnchorEnd = .ok (some v) ∧ v.value = m.text ∧
        ∀ i path, parts.paths[i]? = some path → v.at? path = some (m.str (i + 1)) := by
  obtain ⟨hparse, hgroups⟩ := parts.parse_groupPattern hsimple
  rw [← (Made.patterns hparts).2] at hparse hgroups
  rw [UriTemplate.extract, hparse, hgroups]
  dsimp only
  cases hmatch : matchRegex (seqOf (parts.groupItems true 0).reverse) u
      (if iAnchorEnd then .ANCHOR_BOTH else .ANCHOR_START) with
  | none => rfl
  | some m =>
    dsimp only
    have hpiece : str (pieces parts.count m) 0 = .ok m.text := by
      simp [str, pieces, Match.str]
    have hlength : parts.count < (pieces parts.count m).length := by
      simp [pieces]
    obtain ⟨v, hsave, hvalue, hsaved⟩ :=
      saveValues_eq hformats ht hparts { values with value := m.text } hnew hlength
    refine ⟨v, ?_, hvalue, fun i path hpath => ?_⟩
    · simp only [hpiece, hsave, bind, Except.bind, pure, Except.pure]
    · have hi : i < parts.count := by
        rw [← parts.length_paths]
        exact (List.getElem?_eq_some_iff.mp hpath).1
      rw [hsaved i path hpath, pieces, List.getElem?_map, List.getElem?_range (by omega)]
      simp [Nat.add_comm]

/-- What is extracted is a split of the start of the path, or of the whole one: each value is one of
its format, the pieces of a format make up the value, and the texts with the values between them make
up what was matched. -/
theorem extract_splits {iAnchorEnd : Bool} {v : UriTemplateValue}
    (h : t.extract formats values u iAnchorEnd = .ok (some v)) :
    v.value <+: u ∧ (iAnchorEnd = true → v.value = u) ∧
      ∃ ps : List Str, parts.Splits true v.value ps ∧
        ∀ (i : Nat) (path : List Str), parts.paths[i]? = some path → v.at? path = ps[i]? := by
  have hmatch := extract_match hformats ht hparts hsimple hnew (u := u) iAnchorEnd
  cases hm : matchRegex (seqOf (parts.groupItems true 0).reverse) u
      (if iAnchorEnd then .ANCHOR_BOTH else .ANCHOR_START) with
  | none =>
    rw [hm] at hmatch
    cases hmatch.symm.trans h
  | some m =>
    rw [hm] at hmatch
    obtain ⟨v', hv', hvalue, hat⟩ := hmatch
    cases hv'.symm.trans h
    obtain ⟨hpre, hwhole, ps, hsplits, hpieces⟩ := Parts.matchRegex_splits hsimple hm
    rw [hvalue]
    refine ⟨hpre, hwhole, ps, hsplits, fun i path hpath => ?_⟩
    have hi : i < ps.length := by
      rw [hsplits.length, ← parts.length_paths]
      exact (List.getElem?_eq_some_iff.mp hpath).1
    rw [hat i path hpath, List.getElem?_eq_getElem hi,
      hpieces i ps[i] (List.getElem?_eq_getElem hi)]

/-- The whole path can be extracted exactly when it is a path of the template. -/
theorem extract_whole_iff :
    (∃ v, t.extract formats values u true = .ok (some v)) ↔ u ∈ parts.words true := by
  have hmatch := extract_match hformats ht hparts hsimple hnew (u := u) true
  rw [if_pos rfl] at hmatch
  rw [← matchWhole_groupItems_iff hsimple]
  cases hm : matchRegex (seqOf (parts.groupItems true 0).reverse) u .ANCHOR_BOTH with
  | none =>
    rw [hm] at hmatch
    simp [hmatch]
  | some m =>
    rw [hm] at hmatch
    obtain ⟨v, hv, -⟩ := hmatch
    simp [hv]

/-- The values that a delimited template was filled with are what is extracted from the path. -/
theorem extract_delimited (hdelimited : parts.Delimited) {ps : List Str}
    (hsplits : parts.Splits true u ps) :
    ∃ v, t.extract formats values u true = .ok (some v) ∧ v.value = u ∧
      ∀ (i : Nat) (path : List Str), parts.paths[i]? = some path → v.at? path = ps[i]? := by
  have hmatch := extract_match hformats ht hparts hsimple hnew (u := u) true
  have hsome := (matchWhole_groupItems_iff hsimple).mpr (Parts.mem_words_iff.mpr ⟨ps, hsplits⟩)
  obtain ⟨m, hm⟩ := Option.isSome_iff_exists.mp hsome
  rw [if_pos rfl, hm] at hmatch
  obtain ⟨v, hv, hvalue, hat⟩ := hmatch
  obtain ⟨-, hwhole, ps', hsplits', hpieces⟩ := @Parts.matchRegex_splits _ _ hsimple true m hm
  rw [hwhole rfl] at hvalue hsplits'
  refine ⟨v, hv, hvalue, fun i path hpath => ?_⟩
  obtain rfl : ps' = ps := hdelimited.splits_unique hsplits' hsplits
  have hi : i < ps'.length := by
    rw [hsplits.length, ← parts.length_paths]
    exact (List.getElem?_eq_some_iff.mp hpath).1
  rw [hat i path hpath, List.getElem?_eq_getElem hi,
    hpieces i ps'[i] (List.getElem?_eq_getElem hi)]

end

end

/-! ### Posts of a user -/

def userPostTemplate : UriTemplate where
  template := "/users/:id/posts/:post".toList
  matchPattern := "/users/[^/]+/posts/[^/]+".toList
  extractPattern := "/users/([^/]+)/posts/([^/]+)".toList
  params := ["id".toList, "post".toList]
  formatNames := [[], []]

/-- The template as it is parsed. -/
theorem parse_userPostTemplate :
    UriTemplate.parse [] "/users/:id/posts/:post".toList = .ok userPostTemplate := rfl

def userPostParts : Parts :=
  .param "/users/".toList "id".toList (.last simplePattern)
    (.param "/posts/".toList "post".toList (.last simplePattern) (.last []))

/-- Its parts. -/
theorem userPostTemplate_hasParts : userPostTemplate.HasParts [] userPostParts := by
  have hpost : Made [] ["post".toList] [[]] ("/posts/".toList ++ simpleFormat.getPattern false ++ [])
      ("/posts/".toList ++ simpleFormat.getPattern true ++ [])
      (.param "/posts/".toList "post".toList (.last simplePattern) (.last [])) :=
    .param List.not_mem_nil rfl simpleFormat_hasParts (.last [])
  show Made [] ["id".toList, "post".toList] [[], []]
    ("/users/".toList ++ simpleFormat.getPattern false ++ _)
    ("/users/".toList ++ simpleFormat.getPattern true ++ _) userPostParts
  exact .param (by decide) rfl simpleFormat_hasParts hpost

/-- Its segments are delimited by `/`. -/
theorem userPostParts_delimited : userPostParts.Delimited :=
  ⟨trivial, ⟨trivial, trivial, .inl rfl⟩,
    .inr ⟨'/', rfl, fun _ hvalue => (mem_words_simplePattern.mp hvalue).2⟩⟩

/-- A path is cut at its two segments. -/
theorem userPostParts_splits (user post : Str) (huser : user ≠ []) (huser' : '/' ∉ user)
    (hpost : post ≠ []) (hpost' : '/' ∉ post) : userPostParts.Splits true
      ("/users/".toList ++ user ++ ("/posts/".toList ++ post ++ [])) [user, post] :=
  ⟨user, _, [], _, rfl, ⟨mem_words_simplePattern.mpr ⟨huser, huser'⟩, rfl⟩,
    ⟨post, [], [], [], rfl, ⟨mem_words_simplePattern.mpr ⟨hpost, hpost'⟩, rfl⟩, ⟨rfl, rfl⟩, rfl⟩, rfl⟩

/-- A path with the two segments. -/
theorem extract_splits_post : ∃ v ps, userPostTemplate.extract [] .empty "/users/7/posts/x".toList false =
    .ok (some v) ∧ userPostParts.Splits true v.value ps := by
  have hextract : ((userPostTemplate.extract [] .empty "/users/7/posts/x".toList false).toOption.bind
      id).isSome = true := rfl
  cases h : userPostTemplate.extract [] .empty "/users/7/posts/x".toList false with
  | error message =>
    rw [h] at hextract
    cases hextract
  | ok found =>
    cases found with
    | none =>
      rw [h] at hextract
      cases hextract
    | some v =>
      obtain ⟨-, -, ps, hsplits, -⟩ := extract_splits .nil parse_userPostTemplate
        userPostTemplate_hasParts rfl (fun _ _ => rfl) h
      exact ⟨v, ps, rfl, hsplits⟩

/-- A path with an empty segment. -/
theorem extract_whole_iff_post :
    (∃ v, userPostTemplate.extract [] .empty "/users//posts/x".toList true = .ok (some v)) ↔
      "/users//posts/x".toList ∈ userPostParts.words true :=
  extract_whole_iff .nil parse_userPostTemplate userPostTemplate_hasParts rfl
    fun _ _ => rfl

/-- The segments stand under the two names. -/
theorem extract_delimited_post : ∃ v, userPostTemplate.extract [] .empty "/users/7/posts/x".toList true =
    .ok (some v) ∧ v.value = "/users/7/posts/x".toList ∧
      ∀ (i : Nat) (path : List Str), userPostParts.paths[i]? = some path →
        v.at? path = ["7".toList, "x".toList][i]? :=
  extract_delimited .nil parse_userPostTemplate userPostTemplate_hasParts rfl
    (fun _ _ => rfl) userPostParts_delimited
    (userPostParts_splits "7".toList "x".toList (by decide) (by decide) (by decide) (by decide))

end NodeNative.Uri
