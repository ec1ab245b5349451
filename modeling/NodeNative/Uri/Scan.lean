import NodeNative.Uri.Template

/-!
# Scanning a template

What the expressions of `getNextParameter` match, and from that what each round of its loop does with
the text that is left: `loop_none`, `loop_colon`, `loop_colon_malformed`, `loop_colon_text`,
`loop_braces` and `loop_braces_text` are its cases. No other fact about the matcher is used behind
them.
-/

namespace NodeNative.Uri

open Regex Http

/-! ### The classes -/

/-- A parameter begins with `{` or `:`, -/
theorem isStart_accepts (c : Char) : isStart.accepts c = (c == '\x7b' || c == ':') := by
  simp [isStart, CharClass.accepts, inRange_self]

/-- a simple one goes up to a `/`, -/
theorem isSegment_accepts (c : Char) : isSegment.accepts c = (c != '/') := accepts_not_literal '/' c

/-- one in braces up to a `}`, -/
theorem isInBraces_accepts (c : Char) : isInBraces.accepts c = (c != '\x7d') :=
  accepts_not_literal '\x7d' c

/-- and the name in it up to a `:`. -/
theorem isFormatName_accepts (c : Char) : isFormatName.accepts c = (c != ':') :=
  accepts_not_literal ':' c

/-- The characters up to the next `b`. -/
def upToChar (b : Char) (text : Str) : Str := text.takeWhile (· != b)

/-- The next `b` and what is behind it. -/
def fromChar (b : Char) (text : Str) : Str := text.dropWhile (· != b)

/-- The text up to a character and from it on is the text. -/
theorem upToChar_append_fromChar (b : Char) (text : Str) : upToChar b text ++ fromChar b text = text :=
  List.takeWhile_append_dropWhile

/-- A class of all characters but one. -/
theorem accepts_eq_not {k : CharClass} {b : Char} (hk : ∀ c, k.accepts c = (c != b)) :
    k.accepts = (· != b) := funext hk

/-! ### The expressions -/

variable {c : Char} {text rest pre : Str}

/-- `:name`: a name begins with a letter and ends before the next `/`. -/
theorem search_simpleEnd (hc : isNameStart.accepts c = true) :
    reParamSimpleEnd.search (c :: rest) =
      some ⟨0, c :: upToChar '/' rest, [(1, c :: upToChar '/' rest)]⟩ := by
  rw [search_bol fun s hs => by simp [reParamSimpleEnd, Re.run, hs]]
  have htaken := State.take_taken (k := isSegment) (State.advance ⟨0, c :: rest, []⟩ 1)
  rw [accepts_eq_not isSegment_accepts] at htaken
  simp only [State.advance_rest, List.drop_succ_cons, List.drop_zero] at htaken
  rw [Re.matchAt, reParamSimpleEnd, run_seq, Re.run, if_pos rfl, List.flatMap_singleton, Re.run,
    run_char_star rfl hc, run_star_char_greedy, List.map_cons, List.head?_cons]
  simp [matchBetween, Nat.add_comm 1, htaken, upToChar]

/-- Where no name begins there is no simple parameter. -/
theorem search_simpleEnd_none (hc : ∀ c ∈ text.head?, isNameStart.accepts c = false) :
    reParamSimpleEnd.search text = none := by
  rw [search_bol fun s hs => by simp [reParamSimpleEnd, Re.run, hs]]
  cases text with
  | nil => rfl
  | cons c text => simp [Re.matchAt, reParamSimpleEnd, Re.run, hc c rfl]

/-- The text from a character on begins with it, or is empty. -/
theorem fromChar_cases (b : Char) (text : Str) :
    b ∉ text ∧ fromChar b text = [] ∨ b ∈ text ∧ ∃ tail, fromChar b text = b :: tail := by
  induction text with
  | nil => exact .inl ⟨nofun, rfl⟩
  | cons c text ih =>
    by_cases hc : c = b
    · subst hc
      exact .inr ⟨.head _, text, by simp [fromChar]⟩
    · have hnext : fromChar b (c :: text) = fromChar b text := by simp [fromChar, hc]
      rw [hnext]
      rcases ih with ⟨hnot, hnil⟩ | ⟨hmem, htail⟩
      · exact .inl ⟨by simp [hnot, Ne.symm hc], hnil⟩
      · exact .inr ⟨.tail _ hmem, htail⟩

/-- A text up to the next `b`, which follows it. -/
theorem run_upTo {k : CharClass} {b : Char} (hk : ∀ c, k.accepts c = (c != b)) (text : Str)
    {s : State} (hs : s.rest = text) {capture : State → State} (hcapture : ∀ s, (capture s).rest = s.rest) :
    ((Re.star true (.char k)).run s).flatMap (fun s' => (Re.char (literal b)).run (capture s')) =
      if b ∈ text then [(capture (s.advance (upToChar b text).length)).advance 1] else [] := by
  subst hs
  have htaken : s.taken k = (upToChar b s.rest).length := by
    rw [State.taken, accepts_eq_not hk, upToChar]
  have hdrop : (capture (s.advance (s.taken k))).rest = fromChar b s.rest := by
    rw [hcapture, State.advance_rest, s.drop_taken, accepts_eq_not hk, fromChar]
  rw [flatMap_star_char_of_disjoint (literal b), htaken]
  · rcases fromChar_cases b s.rest with ⟨hnot, hnil⟩ | ⟨hmem, tail, htail⟩
    · rw [if_neg hnot]
      exact run_char_nil (htaken ▸ hdrop.trans hnil)
    · rw [if_pos hmem]
      have hb : (literal b).accepts b = true := by simp [literal, accepts_literal]
      exact run_char_of_accepts (htaken ▸ hdrop.trans htail) hb
  · intro c hc
    rw [hk] at hc
    simpa [literal, accepts_literal] using hc
  · intro s' c rest hrest hc
    exact run_char_of_not_accepts ((hcapture s').trans hrest) hc

/-- The beginning of the text that long is the text up to the character, -/
theorem take_upToChar (b : Char) (text : Str) :
    text.take (upToChar b text).length = upToChar b text :=
  (List.prefix_iff_eq_take.mp (List.takeWhile_prefix _)).symm

/-- and the rest is the text from it on. -/
theorem drop_upToChar (b : Char) (text : Str) :
    text.drop (upToChar b text).length = fromChar b text := by
  have hsplit := List.take_append_drop (upToChar b text).length text
  rw [take_upToChar] at hsplit
  exact List.append_cancel_left (hsplit.trans (upToChar_append_fromChar b text).symm)

/-- One more character than up to the next `b`. -/
theorem take_upToChar_succ {b : Char} (hmem : b ∈ text) :
    text.take ((upToChar b text).length + 1) = upToChar b text ++ [b] := by
  rcases fromChar_cases b text with ⟨hnot, -⟩ | ⟨-, tail, htail⟩
  · exact absurd hmem hnot
  · rw [List.take_add, take_upToChar, drop_upToChar, htail]
    rfl

/-- `{name:format}`: after the brace a letter, and everything up to the next brace. -/
theorem search_paramEnd (hc : isNameStart.accepts c = true) (hmem : '\x7d' ∈ rest) :
    reParamEnd.search (c :: rest) = some ⟨0, c :: (upToChar '\x7d' rest ++ ['\x7d']),
      [(1, c :: upToChar '\x7d' rest)]⟩ := by
  rw [search_bol fun s hs => by simp [reParamEnd, Re.run, hs]]
  rw [Re.matchAt, reParamEnd, run_seq, run_seq, Re.run, if_pos rfl, List.flatMap_singleton, Re.run,
    run_char_star rfl hc, List.flatMap_map, run_upTo isInBraces_accepts rest rfl,
    if_pos hmem]
  · simp [matchBetween, State.advance, Nat.add_comm 1, take_upToChar, take_upToChar_succ hmem]
  · exact fun s => rfl

/-- Without a name or a `}` there is no parameter in braces. -/
theorem search_paramEnd_none (h : ∀ c rest, text = c :: rest → isNameStart.accepts c = true →
    '\x7d' ∉ rest) : reParamEnd.search text = none := by
  rw [search_bol fun s hs => by simp [reParamEnd, Re.run, hs]]
  cases text with
  | nil => rfl
  | cons c rest =>
    cases hc : isNameStart.accepts c with
    | false => simp [Re.matchAt, reParamEnd, Re.run, hc]
    | true =>
      rw [Re.matchAt, reParamEnd, run_seq, run_seq, Re.run, if_pos rfl, List.flatMap_singleton, Re.run,
        run_char_star rfl hc, List.flatMap_map, run_upTo isInBraces_accepts rest rfl,
        if_neg (h c rest rfl hc)]
      · rfl
      · exact fun s => rfl

/-- The match of `reParamNameEnd` behind a first character. -/
theorem matchAt_nameEnd (hc : c ≠ ':') (pos : Nat) :
    reParamNameEnd.matchAt pos (c :: rest) = if ':' ∈ rest then
      some ⟨pos, c :: (upToChar ':' rest ++ [':']), [(1, c :: upToChar ':' rest)]⟩ else none := by
  have haccepts : isFormatName.accepts c = true := by simpa [isFormatName_accepts] using hc
  rw [Re.matchAt, reParamNameEnd, run_seq, Re.run, run_char_star rfl haccepts, List.flatMap_map,
    run_upTo isFormatName_accepts rest rfl]
  · split
    · rename_i hmem
      simp [matchBetween, State.advance, take_upToChar, Nat.add_assoc,
        Nat.add_comm 1, take_upToChar_succ hmem]
    · rfl
  · exact fun s => rfl

/-- A name and a format behind a `:`. -/
theorem search_nameEnd (hc : c ≠ ':') (hmem : ':' ∈ rest) : reParamNameEnd.search (c :: rest) =
    some ⟨0, c :: (upToChar ':' rest ++ [':']), [(1, c :: upToChar ':' rest)]⟩ := by
  rw [Re.search, Re.searchFrom, matchAt_nameEnd hc, if_pos hmem, Option.some_or]

/-- Without a `:` there is no name of a format. -/
theorem search_nameEnd_none (hnot : ':' ∉ text) : reParamNameEnd.search text = none := by
  refine search_eq_none fun pos text₁ hsuffix => ?_
  cases text₁ with
  | nil => rfl
  | cons c rest =>
    have hc : c ≠ ':' := fun heq => hnot (hsuffix.subset (heq ▸ .head _))
    have hrest : ':' ∉ rest := fun hmem => hnot (hsuffix.subset (.tail _ hmem))
    rw [matchAt_nameEnd hc, if_neg hrest]

/-- What stands in braces up to its first `:`, and behind it. -/
def splitFormat (nameAndFormat : Str) : Str × Str :=
  (upToChar ':' nameAndFormat, (fromChar ':' nameAndFormat).tail)

/-- What stands behind the character. -/
theorem tail_fromChar (b : Char) (text : Str) :
    (fromChar b text).tail = text.drop ((upToChar b text).length + 1) := by
  rw [← List.drop_drop, drop_upToChar, List.drop_one]

/-- The name goes up to the `:`, and the format stands behind it. -/
theorem splitFormat_cons (hc : c ≠ ':') : splitFormat (c :: text) =
    (c :: upToChar ':' text, text.drop ((upToChar ':' text).length + 1)) := by
  rw [splitFormat, tail_fromChar]
  simp [upToChar, hc]

/-- Without a `:` all of it is the name. -/
theorem splitFormat_of_not_mem (hc : c ≠ ':') (hnot : ':' ∉ text) :
    splitFormat (c :: text) = (c :: text, []) := by
  rcases fromChar_cases ':' (c :: text) with ⟨-, hnil⟩ | ⟨hmem, -⟩
  · have hall := upToChar_append_fromChar ':' (c :: text)
    rw [hnil, List.append_nil] at hall
    rw [splitFormat, hnil, hall]
    rfl
  · exact absurd hmem (by simp [hnot, Ne.symm hc])

/-! ### The rounds of the loop -/

/-- The first `:` or `{` of a text. -/
theorem start_cases (text : Str) : (∀ c ∈ text, isStart.accepts c = false) ∨
    ∃ pre c rest, text = pre ++ c :: rest ∧ (c = ':' ∨ c = '\x7b') ∧
      ∀ c ∈ pre, isStart.accepts c = false := by
  induction text with
  | nil => exact .inl nofun
  | cons c text ih =>
    cases hc : isStart.accepts c with
    | true =>
      rw [isStart_accepts, Bool.or_eq_true, beq_iff_eq, beq_iff_eq] at hc
      exact .inr ⟨[], c, text, rfl, hc.symm, nofun⟩
    | false =>
      have hcons : ∀ {pre : Str}, (∀ c ∈ pre, isStart.accepts c = false) →
          ∀ c' ∈ c :: pre, isStart.accepts c' = false := fun hpre c' hc' => by
        rcases List.mem_cons.mp hc' with rfl | hmem
        · exact hc
        · exact hpre c' hmem
      rcases ih with hnone | ⟨pre, c', rest, rfl, hc', hpre⟩
      · exact .inl (hcons hnone)
      · exact .inr ⟨c :: pre, c', rest, rfl, hc', hcons hpre⟩

section
variable {n : Nat} {iText : Str} (hpre : ∀ c ∈ pre, isStart.accepts c = false)

/-- Without the beginning of a parameter the scan ends. -/
theorem loop_none (h : ∀ c ∈ text, isStart.accepts c = false) :
    getNextParameterLoop (n + 1) iText text = some none := by
  have hsearch : reParamStart.search text = none := search_group_char_none h
  rw [getNextParameterLoop, matchRegex, hsearch]

include hpre

/-- The first beginning of a parameter is a `:`, -/
theorem search_colon :
    reParamStart.search (pre ++ ':' :: text) = some ⟨pre.length, [':'], [(1, [':'])]⟩ :=
  search_group_char hpre rfl

/-- or a `{`. -/
theorem search_brace :
    reParamStart.search (pre ++ '\x7b' :: text) = some ⟨pre.length, ['\x7b'], [(1, ['\x7b'])]⟩ :=
  search_group_char hpre rfl

/-- A `:` at the start or behind a `/`, with a name. -/
theorem loop_colon (hstart : pre = [] ∨ pre.getLast? = some '/')
    (hc : isNameStart.accepts c = true) :
    getNextParameterLoop (n + 1) iText (pre ++ ':' :: c :: rest) =
      some (some (⟨iText ++ pre, c :: upToChar '/' rest, []⟩, fromChar '/' rest)) := by
  rw [getNextParameterLoop, matchRegex, search_colon hpre]
  simp [Match.str, Match.length, matchRegex, search_simpleEnd hc, drop_upToChar]
  exact fun hne hlast => absurd hstart (not_or.mpr ⟨hne, hlast⟩)

/-- A `:` at the start or behind a `/` without a name ends the scan. -/
theorem loop_colon_malformed (hstart : pre = [] ∨ pre.getLast? = some '/')
    (hc : ∀ c ∈ text.head?, isNameStart.accepts c = false) :
    getNextParameterLoop (n + 1) iText (pre ++ ':' :: text) = some none := by
  rw [getNextParameterLoop, matchRegex, search_colon hpre]
  simp [Match.str, Match.length, matchRegex, search_simpleEnd_none hc]
  exact fun hne hlast => absurd hstart (not_or.mpr ⟨hne, hlast⟩)

/-- Any other `:` is text. -/
theorem loop_colon_text (hstart : ¬ (pre = [] ∨ pre.getLast? = some '/')) :
    getNextParameterLoop (n + 1) iText (pre ++ ':' :: text) =
      getNextParameterLoop n (iText ++ pre ++ [':']) text := by
  rw [getNextParameterLoop, matchRegex, search_colon hpre]
  simp only [Match.str, Match.length]
  simp
  exact fun h => absurd h hstart

/-- A `{` with a name and a `}`. -/
theorem loop_braces (hc : isNameStart.accepts c = true) (hmem : '\x7d' ∈ rest) :
    getNextParameterLoop (n + 1) iText (pre ++ '\x7b' :: c :: rest) =
      some (some (⟨iText ++ pre, (splitFormat (c :: upToChar '\x7d' rest)).1,
        (splitFormat (c :: upToChar '\x7d' rest)).2⟩, (fromChar '\x7d' rest).tail)) := by
  have hcolon : c ≠ ':' := by
    rintro rfl
    cases hc
  rw [getNextParameterLoop, matchRegex, search_brace hpre]
  by_cases hformat : ':' ∈ upToChar '\x7d' rest
  · simp [Match.str, Match.length, matchRegex, search_paramEnd hc hmem,
      search_nameEnd hcolon hformat, splitFormat_cons hcolon, tail_fromChar]
  · have hsplit := splitFormat_of_not_mem hcolon hformat
    have hnone : reParamNameEnd.search (c :: upToChar '\x7d' rest) = none :=
      search_nameEnd_none (by simp [hformat, Ne.symm hcolon])
    simp [Match.str, Match.length, matchRegex, search_paramEnd hc hmem, hnone, hsplit, tail_fromChar]

/-- Any other `{` is text. -/
theorem loop_braces_text (h : ∀ c rest, text = c :: rest → isNameStart.accepts c = true →
    '\x7d' ∉ rest) : getNextParameterLoop (n + 1) iText (pre ++ '\x7b' :: text) =
      getNextParameterLoop n (iText ++ pre ++ ['\x7b']) text := by
  rw [getNextParameterLoop, matchRegex, search_brace hpre]
  simp [Match.str, Match.length, matchRegex, search_paramEnd_none h]

end

end NodeNative.Uri
