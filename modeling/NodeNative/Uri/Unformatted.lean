import NodeNative.Uri.Routing

/-!
# Templates without formats

A parameter without a format takes as much of its segment of the path as it can. So when the template
takes the whole path, it takes it first (`first_whole`): a parameter that takes more than in the whole
path leaves a start of what is left, and then it could take the whole as well (`IsInstance.of_later`).
Extraction and routing agree for these templates (`agrees_of_reads`).
-/

namespace NodeNative.Uri

open Regex Http

/-! ### Instances -/

section
variable {texts : List Str} {last : Str}

/-- When an instance begins further on, the instance of the whole can begin there. -/
theorem IsInstance.of_later {x y w z : Str} (hx : x ≠ []) (hy : y = w ++ z)
    (hwhole : IsInstance texts last (x ++ y)) (hw : IsInstance texts last w) :
    IsInstance texts last y := by
  induction texts generalizing x y w z with
  | nil =>
    obtain rfl : w = last := hw
    have hlen := congrArg List.length (show x ++ y = w from hwhole)
    rw [hy, List.length_append, List.length_append] at hlen
    have hpos := List.length_pos_of_ne_nil hx
    omega
  | cons text texts ih =>
    obtain ⟨value₀, rest₀, heq, hne₀, hslash₀, hrest₀⟩ := hwhole
    obtain ⟨value, rest, rfl, hne, hslash, hrest⟩ := hw
    have hy' : y = text ++ (value ++ (rest ++ z)) := by rw [hy]; simp only [List.append_assoc]
    have hsplit : (x ++ text) ++ (value ++ (rest ++ z)) = (text ++ value₀) ++ rest₀ := by
      rw [← heq, hy', List.append_assoc]
    rcases List.append_eq_append_iff.mp hsplit with ⟨d, hd, hrestEq⟩ | ⟨d, hd, hrestEq⟩
    · cases d with
      | nil =>
        -- The value of the whole ends where the later one begins.
        rw [List.nil_append] at hrestEq
        have hlater : IsInstance texts last (rest ++ z) :=
          ih hne rfl (hrestEq ▸ hrest₀) hrest
        exact ⟨value, rest ++ z, by rw [hy', List.append_assoc], hne, hslash, hlater⟩
      | cons c d =>
        -- What is left of the value of the whole is a value for the later one.
        have hsuffix : c :: d <:+ value₀ := by
          have hleft : c :: d <:+ text ++ value₀ := ⟨x ++ text, hd.symm⟩
          have hlen := congrArg List.length hd
          rw [List.length_append, List.length_append, List.length_append] at hlen
          have hpos := List.length_pos_of_ne_nil hx
          exact List.suffix_of_suffix_length_le hleft (List.suffix_append ..) (by omega)
        refine ⟨c :: d, rest₀, ?_, List.cons_ne_nil _ _, fun hmem => hslash₀ (hsuffix.subset hmem),
          hrest₀⟩
        rw [hy', hrestEq, List.append_assoc]
    · -- The value of the whole ends before the later one begins.
      have hlater : IsInstance texts last (rest ++ z) := by
        refine ih (x := d ++ value) ?_ rfl ?_ hrest
        · exact fun hnil => hne (List.append_eq_nil_iff.mp hnil).2
        · rw [List.append_assoc, ← hrestEq]
          exact hrest₀
      exact ⟨value, rest ++ z, by rw [hy', List.append_assoc], hne, hslash, hlater⟩

/-! ### The first match -/

/-- Among numbers in descending order the first with a value is at least `n₀`. -/
theorem findSome?_range_reverse {α : Type} {f : Nat → Option α} {w : α} {k n₀ : Nat} (hn₀ : n₀ ≤ k)
    (hf : f n₀ = some w) (h : ∀ n, n₀ < n → n ≤ k → f n = none ∨ f n = some w) :
    (List.range (k + 1)).reverse.findSome? f = some w := by
  induction k with
  | zero =>
    obtain rfl := Nat.le_zero.mp hn₀
    simpa using hf
  | succ k ih =>
    rw [List.range_succ, List.reverse_append, List.reverse_singleton, List.singleton_append,
      List.findSome?_cons]
    rcases Nat.eq_or_lt_of_le hn₀ with rfl | hlt
    · rw [hf]
    · rcases h (k + 1) hlt (Nat.le_refl _) with hnone | hsome
      · rw [hnone]
        exact ih (Nat.le_of_lt_succ hlt) fun n hn hk => h n hn (Nat.le_succ_of_le hk)
      · rw [hsome]

/-- A parameter takes as much as it can, then less and less. -/
theorem run_segment {s : State} {c : Char} {rest : Str} (hrest : s.rest = c :: rest)
    (hc : isSegment.accepts c = true) :
    segment.run s =
      (List.range ((s.advance 1).taken isSegment + 1)).reverse.map (s.advance 1).advance := by
  rw [segment, run_char_star hrest hc, run_star_char_greedy, List.range_succ, List.reverse_append,
    List.reverse_singleton, List.singleton_append, List.map_cons, List.map_reverse]

/-- The instance that begins in `rest` leaves one in all of which less is left. -/
theorem IsInstance.of_drop {rest w z : Str} {n : Nat} (hpos : 0 < n) (hn : n ≤ rest.length)
    (hwhole : IsInstance texts last rest) (hdrop : rest.drop n = w ++ z)
    (hw : IsInstance texts last w) : IsInstance texts last (rest.drop n) := by
  have htake : rest.take n ≠ [] := by
    refine List.ne_nil_of_length_pos ?_
    rwa [List.length_take_of_le hn]
  refine IsInstance.of_later htake hdrop ?_ hw
  rwa [List.take_append_drop]

/-- Of what a parameter can take behind its first character, the first that lets the template go on
leaves the rest of the whole text. -/
theorem first_value {s : State} {value rest : Str} (hrest : s.rest = value ++ rest)
    (hvalue : ∀ c ∈ value, isSegment.accepts c = true) (hinstance : IsInstance texts last rest)
    (hfirst : ∀ s : State, IsInstance texts last s.rest →
      (runAll (items texts last) s).head? = some (s.advance s.rest.length)) :
    (List.range (s.taken isSegment + 1)).reverse.findSome?
      (fun n => (runAll (items texts last) (s.advance n)).head?) = some (s.advance s.rest.length) := by
  have hend : ∀ n ≤ s.rest.length, IsInstance texts last (s.rest.drop n) →
      (runAll (items texts last) (s.advance n)).head? = some (s.advance s.rest.length) := by
    intro n hn hdrop
    rw [hfirst (s.advance n) hdrop, State.advance_advance, State.advance_rest, List.length_drop,
      Nat.add_sub_of_le hn]
  have htaken : value.length ≤ s.taken isSegment := by
    rw [State.taken, hrest, List.takeWhile_append_of_pos hvalue, List.length_append]
    exact Nat.le_add_right ..
  have hlength : s.rest.length = value.length + rest.length := by rw [hrest, List.length_append]
  refine findSome?_range_reverse htaken ?_ fun n hn hk => ?_
  · refine hend _ (by omega) ?_
    rwa [hrest, List.drop_left]
  · have hle : n ≤ s.rest.length := hk.trans s.taken_le
    cases hlist : runAll (items texts last) (s.advance n) with
    | nil => exact .inl rfl
    | cons s' l =>
      -- More than in the whole text was taken, and still an instance is left.
      refine .inr ?_
      obtain ⟨w, z, hw, hinstance', -⟩ := mem_runAll_items_prefix.mp
        (hlist ▸ List.mem_cons_self : s' ∈ runAll (items texts last) _)
      have hdrop : s.rest.drop n = rest.drop (n - value.length) := by
        rw [hrest, List.drop_append, List.drop_of_length_le hn.le, List.nil_append]
      have hlater : IsInstance texts last (s.rest.drop n) := by
        rw [hdrop]
        rw [State.advance_rest, hdrop] at hw
        exact hinstance.of_drop (by omega) (by omega) hw hinstance'
      rw [← hlist, hend n hle hlater]

/-- A template that takes the whole text takes it first. -/
theorem first_whole {s : State} (h : IsInstance texts last s.rest) :
    (runAll (items texts last) s).head? = some (s.advance s.rest.length) := by
  induction texts generalizing s with
  | nil =>
    have hrest : s.rest = last ++ [] := by
      rw [List.append_nil]
      exact h
    rw [show items [] last = textItems last from rfl, runAll_text hrest, hrest, List.append_nil]
    rfl
  | cons text texts ih =>
    obtain ⟨value, rest, hrest, hne, hslash, hinstance⟩ := h
    obtain ⟨c, value, rfl⟩ := List.exists_cons_of_ne_nil hne
    rw [List.append_assoc] at hrest
    have hbehind : (s.advance text.length).rest = c :: (value ++ rest) :=
      State.advance_rest_append hrest
    obtain ⟨hc, hvalue⟩ := List.forall_mem_cons.mp (forall_isSegment.mpr hslash)
    have hrest₁ : ((s.advance text.length).advance 1).rest = value ++ rest := by
      rw [State.advance_rest, hbehind]
      rfl
    have hend : ((s.advance text.length).advance 1).advance (value ++ rest).length =
        s.advance s.rest.length := by
      have hlength := congrArg List.length hrest
      rw [List.length_append, List.cons_append, List.length_cons] at hlength
      rw [State.advance_advance, State.advance_advance]
      congr 1
      omega
    rw [items_cons, runAll_append, runAll_text hrest, List.flatMap_singleton, runAll,
      run_segment hbehind hc, List.flatMap_map, List.head?_flatMap, ← hend, ← hrest₁]
    exact first_value hrest₁ hvalue hinstance fun _ => ih

end

/-! ### Their parts -/

/-- The parameters have no format, and no text has a character with a meaning in an expression. -/
inductive Parts.Unformatted : Parts → List Str → Str → Prop
  | last {text : Str} (hplain : ∀ c ∈ text, isMeta c = false) : Unformatted (.last text) [] text
  | param {text name last : Str} {rest : Parts} {texts : List Str}
      (hplain : ∀ c ∈ text, isMeta c = false) (hrest : rest.Unformatted texts last) :
      Unformatted (.param text name (.last simplePattern) rest) (text :: texts) last

section
variable {parts : Parts} {texts : List Str} {last : Str} {p : Parser}

/-- The pattern of a parameter without a format is a segment. -/
theorem finish_simplePattern :
    ((Parts.last simplePattern).read .init).bind Parser.finish = some segment := by
  rfl

/-- A parameter is read as its segment. -/
theorem Parts.Unformatted.read (h : parts.Unformatted texts last) (hp : p.Ready) :
    ∃ mode, parts.read p = some (p.add (items texts last) mode) ∧
      (p.add (items texts last) mode).Ready := by
  induction h generalizing p with
  | last hplain => exact Parser.feed_text hp hplain
  | @param text name last rest texts hplain hrest ih =>
    obtain ⟨mode₁, htext, hready₁⟩ := Parser.feed_text hp hplain
    obtain ⟨mode, hread, hready⟩ := ih (p := (p.add (textItems text) mode₁).push segment) (.inl rfl)
    have hitems : ((p.add (textItems text) mode₁).push segment).add (items texts last) mode =
        p.add (items (text :: texts) last) mode := by
      simp [Parser.push, Parser.add, items]
    rw [hitems] at hread hready
    refine ⟨mode, ?_, hready⟩
    rw [Parts.read, htext, Option.bind_some, if_pos (Parser.ready_iff.mpr hready₁),
      finish_simplePattern, Option.bind_some, hread]

/-- Without formats the expression of the parts is that of its texts and segments, -/
theorem Parts.Unformatted.expression (h : parts.Unformatted texts last) :
    parts.expression = some (seqOf (items texts last).reverse) := by
  obtain ⟨mode, hread, hready⟩ := h.read (p := .init) (.inl rfl)
  rw [Parts.expression, hread, Option.bind_some, Parser.finish_of_ready hready rfl]
  simp [Parser.add, Parser.init, Open.re, altOf]

/-- its texts are expressions, -/
theorem Parts.Unformatted.regular (h : parts.Unformatted texts last) : parts.Regular := by
  rw [Parts.Regular, h.expression]
  rfl

/-- no parameter is quantified, -/
theorem Parts.Unformatted.quantified (h : parts.Unformatted texts last) :
    parts.quantified = false := by
  have hfront : ∀ c ∈ parts.front, isMeta c = false := by
    cases h with
    | last hplain => exact hplain
    | param hplain => exact hplain
  rw [Parts.quantified]
  cases hlist : parts.front with
  | nil => rfl
  | cons c l =>
    have hc : isMeta c = false := hfront c (hlist ▸ List.mem_cons_self)
    refine Bool.eq_false_iff.mpr fun hquantifier => ?_
    rcases isQuantifier_iff.mp hquantifier with rfl | rfl | rfl | rfl <;> cases hc

/-- and all is read in its place. -/
theorem Parts.Unformatted.keeps (h : parts.Unformatted texts last) (hp : p.Ready) :
    parts.keeps p = true := by
  induction h generalizing p with
  | last => rfl
  | @param text name last rest texts hplain hrest ih =>
    obtain ⟨mode₁, htext, hready₁⟩ := Parser.feed_text hp hplain
    obtain ⟨mode₂, hsegment, hready₂⟩ := feed_simplePattern hready₁
    obtain ⟨mode₃, hsimple, -⟩ := feed_simplePattern (p := .init) (.inl rfl)
    have hinit : (Parts.last simplePattern).readInPlace .init =
        some (Parser.init.add [segment] mode₃) := hsimple
    have hplace : (Parts.last simplePattern).readInPlace (p.add (textItems text) mode₁) = _ := hsegment
    rw [Parts.keeps, htext, Option.any_some, hinit, Option.any_some, hrest.quantified, hplace,
      Option.any_some, ih hready₂]
    rfl

/-- Texts and segments have no groups. -/
theorem plain_items : (items texts last).map Re.plain = items texts last := by
  have htext : ∀ text : Str, (textItems text).map Re.plain = textItems text := by
    intro text
    rw [textItems, List.map_map]
    rfl
  induction texts with
  | nil => exact htext last
  | cons text texts ih =>
    rw [items_cons, List.map_append, List.map_cons, htext, ih]
    rfl

/-- When it takes the whole path, it takes it first. -/
theorem Parts.Unformatted.prefersWhole (h : parts.Unformatted texts last) (u : Str) :
    parts.PrefersWhole u := by
  intro r hr hwhole
  cases h.expression.symm.trans hr
  have hends : ∀ s, (seqOf (items texts last).reverse).ends s = runAll (items texts last) s := by
    intro s
    rw [Re.ends, plain_seqOf, List.map_reverse, plain_items, run_seqOf]
  obtain ⟨s, hs, hnil⟩ := hwhole
  rw [hends] at hs ⊢
  obtain ⟨w, z, hw, hinstance, rfl⟩ := mem_runAll_items_prefix.mp hs
  obtain rfl : z = [] := (State.advance_rest_append hw).symm.trans hnil
  rw [List.append_nil] at hw
  refine ⟨_, first_whole (by rw [hw]; exact hinstance), ?_⟩
  rw [State.advance_rest, List.drop_length]

end

/-! ### What the code does -/

section
variable {formats : Formats} {texts : List Str} {last : Str}

/-- The parts of what `parse` reads. -/
theorem parseLoop_unformatted {n : Nat} {t t' : UriTemplate} {text : Str}
    (hreads : Reads text texts last) (h : parseLoop formats n t text = some (.ok t')) :
    ∃ (parts : Parts) (names : List Str), t'.params = t.params ++ names ∧
      t'.formatNames = t.formatNames ++ names.map (fun _ => []) ∧
      t'.matchPattern = t.matchPattern ++ parts.pattern false ∧
      t'.extractPattern = t.extractPattern ++ parts.pattern true ∧
      Made formats names (names.map fun _ => []) (parts.pattern false) (parts.pattern true) parts ∧
      parts.Unformatted texts last ∧ ∀ name ∈ names, name ∉ t.params := by
  induction hreads generalizing n t with
  | @nil text hnext hplain =>
    cases n with
    | zero => cases h
    | succ n =>
      rw [parseLoop, hnext] at h
      cases h
      exact ⟨.last text, [], by simp, by simp, rfl, rfl, .last text, .last hplain, by simp⟩
  | @cons text rest last p texts hnext hformat hplain hrest ih =>
    cases n with
    | zero => cases h
    | succ n =>
      have hsimple : ∀ formats, formatOf formats [] = .ok simpleFormat := fun _ => rfl
      rw [parseLoop, hnext] at h
      dsimp only at h
      split at h
      · cases h
      · rename_i hname
        rw [hformat, hsimple] at h
        obtain ⟨parts, names, hparams, hformatNames, hmatch, hextract, hmade, hunformatted, hnew⟩ :=
          ih h
        refine ⟨.param p.iText p.iName (.last simplePattern) parts, p.iName :: names, ?_, ?_, ?_, ?_,
          ?_, .param hplain hunformatted, ?_⟩
        · rw [hparams, List.append_assoc, List.singleton_append]
        · rw [hformatNames, List.append_assoc, List.singleton_append, List.map_cons]
        · rw [hmatch, List.append_assoc]
          rfl
        · rw [hextract, List.append_assoc]
          rfl
        · refine .param (fun hmem => ?_) rfl simpleFormat_hasParts hmade
          exact hnew _ hmem (by simp)
        · refine List.forall_mem_cons.mpr ⟨hname, fun name hmem hold => hnew name hmem ?_⟩
          exact List.mem_append_left _ hold

/-- A template that reads as plain has parts without formats. -/
theorem unformatted_of_reads {iTemplate : Str} {t : UriTemplate}
    (ht : UriTemplate.parse formats iTemplate = .ok t) (hreads : Reads iTemplate texts last) :
    ∃ parts, t.HasParts formats parts ∧ parts.Unformatted texts last := by
  obtain ⟨parts, names, hparams, hformatNames, hmatch, hextract, hmade, hunformatted, -⟩ :=
    parseLoop_unformatted hreads (extends_of_parse ht).1
  refine ⟨parts, ?_, hunformatted⟩
  rw [UriTemplate.HasParts, hparams, hformatNames, hmatch, hextract]
  exact hmade

/-- Without formats what is extracted is what was matched, on every path. -/
theorem agrees_of_reads (hformats : Built formats) {c : CallbackDataBase} {iTemplate : Str}
    (ht : UriTemplate.parse formats iTemplate = .ok c.uri) (hreads : Reads iTemplate texts last)
    {values : UriTemplateValue} (hnew : ∀ name ∈ c.uri.params, values.child? name = none) (u : Str) :
    c.Agrees formats values u := by
  obtain ⟨parts, hparts, hunformatted⟩ := unformatted_of_reads ht hreads
  have hkeeps : parts.keeps .init = true := hunformatted.keeps (.inl rfl)
  by_cases hearlier : c.uriRegexMatchWholePath = true ∧ parts.TakesEarlier u
  · exact agrees_of_earlier hformats ht hparts hunformatted.regular hkeeps hnew hearlier.1 hearlier.2
  · exact (agrees_iff_prefersWhole hformats ht hparts hunformatted.regular hkeeps hnew hearlier).mpr
      (hunformatted.prefersWhole u)

/-- A handler for whole paths. -/
theorem agrees_of_reads_user :
    (CallbackDataBase.mk userTemplate true).Agrees [] .empty "/users/7".toList :=
  agrees_of_reads .nil parse_userTemplate reads_userTemplate (by decide) _

end

end NodeNative.Uri
