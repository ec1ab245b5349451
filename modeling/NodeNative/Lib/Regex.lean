import Mathlib.Data.List.TakeWhile

/-!
# Backtracking matchers

Regular expressions with groups and anchors, and the matches that a backtracking matcher finds on a
text, in the order in which it finds them (`Re.run`). The left alternative comes before the right one,
and a greedy repetition takes as many rounds as it can before it takes fewer. A round of a repetition
that takes no text is not made.

`matchWhole`, `matchStart` and `search` give the first match: of the whole text, at its start, and at
the first position where there is one.
-/

namespace Regex

/-- A set of characters, by ranges. -/
structure CharClass where
  negated : Bool
  ranges : List (Char × Char)
  deriving DecidableEq

def CharClass.accepts (k : CharClass) (c : Char) : Bool :=
  (k.ranges.any fun r => decide (r.1 ≤ c ∧ c ≤ r.2)) != k.negated

/-- Groups carry their number. -/
inductive Re
  | empty
  | char (k : CharClass)
  | seq (a b : Re)
  | alt (a b : Re)
  | star (greedy : Bool) (a : Re)
  | group (i : Nat) (a : Re)
  | bol
  | eol
  deriving DecidableEq

/-- Where a matcher is in the text: its position, the rest of the text, and the texts of the groups,
the latest first. -/
structure State where
  pos : Nat
  rest : List Char
  captures : List (Nat × List Char)
  deriving DecidableEq

/-- `n` characters on. -/
def State.advance (s : State) (n : Nat) : State :=
  { s with pos := s.pos + n, rest := s.rest.drop n }

/-- At most `n` rounds that each take some text. -/
def iterate (m : State → List State) (greedy : Bool) : Nat → State → List State
  | 0, s => [s]
  | n + 1, s =>
    let more := ((m s).filter fun s' => s.pos < s'.pos).flatMap (iterate m greedy n)
    if greedy then more ++ [s] else s :: more

/-- The matches at a position. -/
def Re.run : Re → State → List State
  | .empty, s => [s]
  | .char k, s =>
    match s.rest with
    | [] => []
    | c :: _ => if k.accepts c then [s.advance 1] else []
  | .seq a b, s => (a.run s).flatMap b.run
  | .alt a b, s => a.run s ++ b.run s
  | .star greedy a, s => iterate a.run greedy s.rest.length s
  | .group i a, s => (a.run s).map fun s' =>
    { s' with captures := (i, s.rest.take (s'.pos - s.pos)) :: s'.captures }
  | .bol, s => if s.pos = 0 then [s] else []
  | .eol, s => if s.rest = [] then [s] else []

/-- A match: where it begins, its text, and the texts of the groups. -/
structure Match where
  position : Nat
  text : List Char
  captures : List (Nat × List Char)
  deriving DecidableEq

/-- The text of a group, or of the whole match. A group without a match has the empty text. -/
def Match.str (m : Match) : Nat → List Char
  | 0 => m.text
  | i + 1 => (m.captures.lookup (i + 1)).getD []

def Match.length (m : Match) : Nat := m.text.length

/-- The match between two states. -/
def matchBetween (s s' : State) : Match :=
  ⟨s.pos, s.rest.take (s'.pos - s.pos), s'.captures⟩

/-- The first match at a position. -/
def Re.matchAt (r : Re) (pos : Nat) (text : List Char) : Option Match :=
  (r.run ⟨pos, text, []⟩).head?.map (matchBetween ⟨pos, text, []⟩)

/-- The first match at the start of the text. -/
def Re.matchStart (r : Re) (text : List Char) : Option Match := r.matchAt 0 text

/-- The first match of the whole text. -/
def Re.matchWhole (r : Re) (text : List Char) : Option Match :=
  ((r.run ⟨0, text, []⟩).find? fun s => s.rest.isEmpty).map (matchBetween ⟨0, text, []⟩)

/-- The first match at a position from `pos` on. -/
def Re.searchFrom (r : Re) (pos : Nat) : List Char → Option Match
  | [] => r.matchAt pos []
  | c :: text => (r.matchAt pos (c :: text)).or (r.searchFrom (pos + 1) text)

/-- The first match at the first position that has one. -/
def Re.search (r : Re) (text : List Char) : Option Match := r.searchFrom 0 text

/-! ### Moving on -/

@[simp] theorem State.advance_zero (s : State) : s.advance 0 = s := rfl

@[simp] theorem State.advance_pos (s : State) (n : Nat) : (s.advance n).pos = s.pos + n := rfl

@[simp] theorem State.advance_rest (s : State) (n : Nat) : (s.advance n).rest = s.rest.drop n := rfl

@[simp] theorem State.advance_captures (s : State) (n : Nat) :
    (s.advance n).captures = s.captures := rfl

/-- One advance after the other, -/
theorem State.advance_advance (s : State) (m n : Nat) :
    (s.advance m).advance n = s.advance (m + n) := by
  simp [State.advance, Nat.add_assoc]

/-- over the characters in front of the rest. -/
theorem State.advance_rest_append {s : State} {pre rest : List Char} (h : s.rest = pre ++ rest) :
    (s.advance pre.length).rest = rest := by
  rw [advance_rest, h, List.drop_left]

/-! ### Repetitions of a class -/

section
variable {k : CharClass} {s s' : State}

@[simp] theorem run_seq (a b : Re) (s : State) : (Re.seq a b).run s = (a.run s).flatMap b.run := rfl

@[simp] theorem run_alt (a b : Re) (s : State) : (Re.alt a b).run s = a.run s ++ b.run s := rfl

/-- A class reads a character that it accepts, -/
theorem run_char_of_accepts {c : Char} {rest : List Char} (hrest : s.rest = c :: rest)
    (hc : k.accepts c = true) : (Re.char k).run s = [s.advance 1] := by
  rw [Re.run, hrest]
  simp [hc]

/-- no other one, -/
theorem run_char_of_not_accepts {c : Char} {rest : List Char} (hrest : s.rest = c :: rest)
    (hc : k.accepts c = false) : (Re.char k).run s = [] := by
  rw [Re.run, hrest]
  simp [hc]

/-- and none at the end. -/
theorem run_char_nil (hrest : s.rest = []) : (Re.char k).run s = [] := by
  rw [Re.run, hrest]

/-- The characters that a repetition of the class can take. -/
def State.taken (k : CharClass) (s : State) : Nat := (s.rest.takeWhile k.accepts).length

/-- The characters that a class takes are there, -/
theorem State.taken_le (s : State) : s.taken k ≤ s.rest.length := by
  exact (List.takeWhile_prefix k.accepts).length_le

/-- one more in front is taken too, -/
theorem State.taken_succ {c : Char} {rest : List Char} (hrest : s.rest = c :: rest)
    (hc : k.accepts c = true) : s.taken k = (s.advance 1).taken k + 1 := by
  simp [taken, hrest, hc]

/-- they are the first ones that it accepts, -/
theorem State.take_taken (s : State) : s.rest.take (s.taken k) = s.rest.takeWhile k.accepts :=
  (List.prefix_iff_eq_take.mp (List.takeWhile_prefix k.accepts)).symm

/-- and what is left are the others. -/
theorem State.drop_taken (s : State) : s.rest.drop (s.taken k) = s.rest.dropWhile k.accepts := by
  have hsplit : s.rest.takeWhile k.accepts ++ s.rest.drop (s.taken k) = s.rest := by
    rw [← s.take_taken, List.take_append_drop]
  exact List.append_cancel_left (hsplit.trans List.takeWhile_append_dropWhile.symm)

/-- The rounds of a repetition of a class: each of them takes one character. -/
theorem iterate_char (greedy : Bool) {n : Nat} (hn : s.taken k ≤ n) :
    iterate (Re.char k).run greedy n s =
      if greedy then ((List.range (s.taken k + 1)).map s.advance).reverse
      else (List.range (s.taken k + 1)).map s.advance := by
  induction n generalizing s with
  | zero =>
    rw [Nat.le_zero.mp hn]
    cases greedy <;> rfl
  | succ n ih =>
    rw [iterate]
    cases hrest : s.rest with
    | nil =>
      have hzero : s.taken k = 0 := by simp [State.taken, hrest]
      rw [run_char_nil hrest, hzero]
      cases greedy <;> rfl
    | cons c rest =>
      cases hc : k.accepts c with
      | false =>
        have hzero : s.taken k = 0 := by simp [State.taken, hrest, hc]
        rw [run_char_of_not_accepts hrest hc, hzero]
        cases greedy <;> rfl
      | true =>
        have hsucc := State.taken_succ hrest hc
        have hstep : (List.range ((s.advance 1).taken k + 1)).map (s.advance 1).advance =
            ((List.range ((s.advance 1).taken k + 1)).map Nat.succ).map s.advance := by
          rw [List.map_map]
          refine List.map_congr_left fun i _ => ?_
          rw [State.advance_advance, Nat.add_comm]
          rfl
        have hround : ([s.advance 1].filter fun s' => decide (s.pos < s'.pos)) = [s.advance 1] := by
          simp
        rw [run_char_of_accepts hrest hc, hround, List.flatMap_singleton, ih (by omega), hsucc,
          List.range_succ_eq_map (n := (s.advance 1).taken k + 1), List.map_cons, ← hstep]
        cases greedy <;> simp

/-- A greedy repetition of a class takes as many characters as it can first. -/
theorem run_star_char_greedy : (Re.star true (.char k)).run s =
    s.advance (s.taken k) :: ((List.range (s.taken k)).map s.advance).reverse := by
  rw [Re.run, iterate_char true s.taken_le, if_pos rfl, List.range_succ, List.map_append,
    List.reverse_append]
  rfl

/-- A star over a class stops behind any number of the characters it can take. -/
theorem mem_run_star_char {greedy : Bool} :
    s' ∈ (Re.star greedy (.char k)).run s ↔ ∃ n ≤ s.taken k, s' = s.advance n := by
  have hmem : s' ∈ (List.range (s.taken k + 1)).map s.advance ↔
      ∃ n ≤ s.taken k, s' = s.advance n := by
    simp only [List.mem_map, List.mem_range, Nat.lt_succ_iff, eq_comm]
  rw [Re.run, iterate_char greedy s.taken_le]
  cases greedy
  · exact hmem
  · exact List.mem_reverse.trans hmem

/-- What a class reads is one character. -/
theorem mem_run_char : s' ∈ (Re.char k).run s ↔
    ∃ c rest, s.rest = c :: rest ∧ k.accepts c = true ∧ s' = s.advance 1 := by
  cases hrest : s.rest with
  | nil => simp [run_char_nil hrest]
  | cons c rest =>
    cases hc : k.accepts c with
    | false => simp [run_char_of_not_accepts hrest hc, hc]
    | true => simp [run_char_of_accepts hrest hc, hc]

/-- A repetition of a class takes a text of its characters. -/
theorem mem_run_star_char_text {greedy : Bool} : s' ∈ (Re.star greedy (.char k)).run s ↔
    ∃ text rest, s.rest = text ++ rest ∧ (∀ c ∈ text, k.accepts c = true) ∧
      s' = s.advance text.length := by
  rw [mem_run_star_char]
  constructor
  · rintro ⟨n, hn, rfl⟩
    have hlen : (s.rest.take n).length = n := List.length_take_of_le (hn.trans s.taken_le)
    have hpre : s.rest.take n <+: s.rest.takeWhile k.accepts :=
      List.prefix_of_prefix_length_le (List.take_prefix ..) (List.takeWhile_prefix _)
        (hlen.trans_le hn)
    refine ⟨s.rest.take n, s.rest.drop n, (List.take_append_drop ..).symm, fun c hc => ?_, by rw [hlen]⟩
    exact List.mem_takeWhile_imp (hpre.subset hc)
  · rintro ⟨text, rest, hrest, htext, rfl⟩
    refine ⟨text.length, ?_, rfl⟩
    rw [State.taken, hrest, List.takeWhile_append_of_pos htext, List.length_append]
    exact Nat.le_add_right ..

/-- One or more characters of a class. -/
theorem mem_run_char_star {greedy : Bool} :
    s' ∈ (Re.seq (.char k) (.star greedy (.char k))).run s ↔
      ∃ text rest, s.rest = text ++ rest ∧ text ≠ [] ∧ (∀ c ∈ text, k.accepts c = true) ∧
        s' = s.advance text.length := by
  rw [run_seq, List.mem_flatMap]
  constructor
  · rintro ⟨s₁, hs₁, hs'⟩
    obtain ⟨c, rest₁, hrest, hc, rfl⟩ := mem_run_char.mp hs₁
    obtain ⟨text, rest, hrest', htext, rfl⟩ := mem_run_star_char_text.mp hs'
    rw [State.advance_rest, hrest, List.drop_succ_cons, List.drop_zero] at hrest'
    refine ⟨c :: text, rest, by rw [hrest, hrest', List.cons_append], List.cons_ne_nil _ _, ?_, ?_⟩
    · exact List.forall_mem_cons.mpr ⟨hc, htext⟩
    · rw [State.advance_advance, List.length_cons, Nat.add_comm]
  · rintro ⟨text, rest, hrest, hne, htext, rfl⟩
    obtain ⟨c, text, rfl⟩ := List.exists_cons_of_ne_nil hne
    obtain ⟨hc, htext⟩ := List.forall_mem_cons.mp htext
    refine ⟨s.advance 1, mem_run_char.mpr ⟨c, text ++ rest, hrest, hc, rfl⟩, ?_⟩
    refine mem_run_star_char_text.mpr ⟨text, rest, by rw [State.advance_rest, hrest]; rfl, htext, ?_⟩
    rw [State.advance_advance, List.length_cons, Nat.add_comm]

/-- The next character after fewer characters than can be taken is one that can be taken. -/
theorem State.accepts_of_lt_taken {n : Nat} (h : n < s.taken k) :
    ∃ c rest, (s.advance n).rest = c :: rest ∧ k.accepts c = true := by
  have hlen : n < s.rest.length := Nat.lt_of_lt_of_le h s.taken_le
  refine ⟨s.rest[n], s.rest.drop (n + 1), List.drop_eq_getElem_cons hlen, ?_⟩
  have hget : (s.rest.takeWhile k.accepts)[n] = s.rest[n] :=
    (List.takeWhile_prefix k.accepts).getElem h
  exact hget ▸ List.mem_takeWhile_imp (List.getElem_mem h)

/-- What follows a repetition of a class and begins with another class follows all the characters
that can be taken. -/
theorem flatMap_star_char_of_disjoint (k' : CharClass)
    (hdisjoint : ∀ c, k.accepts c = true → k'.accepts c = false) {f : State → List State}
    (hf : ∀ (s : State) (c : Char) (rest : List Char), s.rest = c :: rest → k'.accepts c = false →
      f s = []) :
    ((Re.star true (.char k)).run s).flatMap f = f (s.advance (s.taken k)) := by
  rw [run_star_char_greedy, List.flatMap_cons]
  have hnone : ((List.range (s.taken k)).map s.advance).reverse.flatMap f = [] := by
    refine List.flatMap_eq_nil_iff.mpr fun s₁ hs₁ => ?_
    obtain ⟨n, hn, rfl⟩ := List.mem_map.mp (List.mem_reverse.mp hs₁)
    obtain ⟨c, rest, hrest, hc⟩ := State.accepts_of_lt_taken (List.mem_range.mp hn)
    exact hf _ c rest hrest (hdisjoint c hc)
  rw [hnone, List.append_nil]

end

/-! ### Searching -/

section
variable {r : Re} {k : CharClass}

/-- A range of one character is that character, -/
theorem inRange_self (a c : Char) : (decide (a ≤ c) && decide (c ≤ a)) = (c == a) := by
  rw [Bool.eq_iff_iff, Bool.and_eq_true, decide_eq_true_iff, decide_eq_true_iff, beq_iff_eq]
  exact ⟨fun h => Char.le_antisymm h.2 h.1, fun h => h ▸ ⟨Char.le_refl _, Char.le_refl _⟩⟩

/-- A class of one range that is a single character. -/
theorem accepts_literal (a c : Char) : CharClass.accepts ⟨false, [(a, a)]⟩ c = (c == a) := by
  simp [CharClass.accepts, inRange_self]

/-- and the class of all others does not accept it. -/
theorem accepts_not_literal (a c : Char) : CharClass.accepts ⟨true, [(a, a)]⟩ c = (c != a) := by
  rw [bne, ← accepts_literal]
  simp [CharClass.accepts]

/-- Where there is no match the search goes on. -/
theorem searchFrom_append {pre text : List Char} {pos : Nat}
    (h : ∀ pre₁ c pre₂, pre = pre₁ ++ c :: pre₂ →
      r.matchAt (pos + pre₁.length) (c :: pre₂ ++ text) = none) :
    r.searchFrom pos (pre ++ text) = r.searchFrom (pos + pre.length) text := by
  induction pre generalizing pos with
  | nil => rfl
  | cons c pre ih =>
    have hfirst : r.matchAt pos (c :: (pre ++ text)) = none := h [] c pre rfl
    rw [List.cons_append, Re.searchFrom, hfirst, Option.none_or, ih]
    · congr 1
      rw [List.length_cons]
      omega
    · rintro pre₁ c' pre₂ rfl
      have hnext := h (c :: pre₁) c' pre₂ rfl
      rw [List.length_cons] at hnext
      rw [← hnext]
      congr 1
      omega

/-- There is no match where none is found at any position. -/
theorem search_eq_none {text : List Char} (h : ∀ pos text₁, text₁ <:+ text → r.matchAt pos text₁ = none) :
    r.search text = none := by
  have hfrom : ∀ pos text₁, text₁ <:+ text → r.searchFrom pos text₁ = none := by
    intro pos text₁
    induction text₁ generalizing pos with
    | nil => exact h pos []
    | cons c text₁ ih =>
      intro hsuffix
      rw [Re.searchFrom, h pos _ hsuffix, Option.none_or]
      exact ih (pos + 1) ((List.suffix_cons c text₁).trans hsuffix)
  exact hfrom 0 text List.suffix_rfl

/-- A match is found exactly where one begins at some position. -/
theorem search_isSome_iff {text : List Char} :
    (r.search text).isSome ↔ ∃ pre rest, text = pre ++ rest ∧ (r.matchAt pre.length rest).isSome := by
  have hfrom : ∀ pos text₁, (r.searchFrom pos text₁).isSome ↔
      ∃ pre rest, text₁ = pre ++ rest ∧ (r.matchAt (pos + pre.length) rest).isSome := by
    intro pos text₁
    induction text₁ generalizing pos with
    | nil =>
      constructor
      · exact fun hmatch => ⟨[], [], rfl, hmatch⟩
      · rintro ⟨pre, rest, htext, hmatch⟩
        obtain ⟨rfl, rfl⟩ := List.append_eq_nil_iff.mp htext.symm
        exact hmatch
    | cons c text₁ ih =>
      rw [Re.searchFrom, Option.isSome_or, Bool.or_eq_true, ih]
      constructor
      · rintro (hfirst | ⟨pre, rest, rfl, hlater⟩)
        · exact ⟨[], c :: text₁, rfl, hfirst⟩
        · refine ⟨c :: pre, rest, rfl, ?_⟩
          rwa [List.length_cons, Nat.add_comm pre.length, ← Nat.add_assoc]
      · rintro ⟨pre, rest, htext, hmatch⟩
        cases pre with
        | nil =>
          obtain rfl : c :: text₁ = rest := htext
          exact .inl hmatch
        | cons c' pre =>
          obtain ⟨rfl, rfl⟩ := List.cons.inj htext
          refine .inr ⟨pre, rest, rfl, ?_⟩
          rwa [List.length_cons, Nat.add_comm pre.length, ← Nat.add_assoc] at hmatch
  rw [Re.search, hfrom]
  simp only [Nat.zero_add]

/-- An expression that begins with `^` matches at the start only. -/
theorem search_bol (hr : ∀ s : State, s.pos ≠ 0 → r.run s = []) (text : List Char) :
    r.search text = r.matchAt 0 text := by
  cases text with
  | nil => rfl
  | cons c text =>
    have hlater : ∀ pos text₁, r.searchFrom (pos + 1) text₁ = none := by
      intro pos text₁
      induction text₁ generalizing pos with
      | nil => rw [Re.searchFrom, Re.matchAt, hr _ (Nat.succ_ne_zero pos)]; rfl
      | cons c text₁ ih =>
        rw [Re.searchFrom, Re.matchAt, hr _ (Nat.succ_ne_zero pos), ih]
        rfl
    rw [Re.search, Re.searchFrom, hlater, Option.or_none]

/-- A group of one character. -/
theorem matchAt_group_char (i pos : Nat) (c : Char) (text : List Char) :
    (Re.group i (.char k)).matchAt pos (c :: text) =
      if k.accepts c then some ⟨pos, [c], [(i, [c])]⟩ else none := by
  cases hc : k.accepts c <;> simp [Re.matchAt, Re.run, hc, matchBetween]

/-- A class finds nothing in a text without its characters, -/
theorem search_group_char_none {i : Nat} {text : List Char}
    (h : ∀ c ∈ text, k.accepts c = false) : (Re.group i (.char k)).search text = none := by
  refine search_eq_none fun pos text₁ hsuffix => ?_
  cases text₁ with
  | nil => rfl
  | cons c text₁ => rw [matchAt_group_char, h c (hsuffix.subset (.head _)), if_neg Bool.false_ne_true]

/-- and the first of them in others. -/
theorem search_group_char {i : Nat} {pre text : List Char} {c : Char}
    (hpre : ∀ c ∈ pre, k.accepts c = false) (hc : k.accepts c = true) :
    (Re.group i (.char k)).search (pre ++ c :: text) = some ⟨pre.length, [c], [(i, [c])]⟩ := by
  rw [Re.search, searchFrom_append, Re.searchFrom, matchAt_group_char, if_pos hc, Option.some_or,
    Nat.zero_add]
  intro pre₁ c' pre₂ heq
  rw [List.cons_append, matchAt_group_char, hpre c' (by simp [heq]), if_neg Bool.false_ne_true]

/-- A character of one class and then as many as possible of another. -/
theorem run_char_star {k' : CharClass} {s : State} {c : Char} {rest : List Char}
    (hrest : s.rest = c :: rest) (hc : k.accepts c = true) (greedy : Bool) :
    (Re.seq (.char k) (.star greedy (.char k'))).run s =
      (Re.star greedy (.char k')).run (s.advance 1) := by
  rw [run_seq, run_char_of_accepts hrest hc, List.flatMap_singleton]

end

end Regex
