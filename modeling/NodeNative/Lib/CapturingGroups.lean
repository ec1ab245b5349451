import NodeNative.Lib.RegexSyntax

/-!
# Capturing groups of a text

A capturing group opens at a `(` that is not escaped, not in a class and not followed by `?`.
`openings` counts them from left to right, and the groups of a text that the parser accepts are as many
(`groupCount_eq`): each has the number of the openings before it and itself.
-/

namespace Regex

/-! ### Openings -/

/-- What the next character belongs to. -/
inductive Lex
  | normal
  | escape
  | inClass
  | classEscape
  deriving DecidableEq

def Lex.step : Lex → Char → Lex
  | .normal, c => if c = '[' then .inClass else if c = '\\' then .escape else .normal
  | .escape, _ => .normal
  | .inClass, c => if c = ']' then .normal else if c = '\\' then .classEscape else .inClass
  | .classEscape, _ => .inClass

def Lex.after (q : Lex) (text : List Char) : Lex := text.foldl Lex.step q

/-- A capturing group opens at `c`, with `text` behind it. -/
def Lex.opens (q : Lex) (c : Char) (text : List Char) : Bool :=
  q == .normal && c == '(' && text.head? != some '?'

/-- The number of capturing groups that open in a text. -/
def Lex.openings : Lex → List Char → Nat
  | _, [] => 0
  | q, c :: text => (if q.opens c text then 1 else 0) + (q.step c).openings text

/-- The number of capturing groups of an expression. -/
def groupCount (text : List Char) : Option Nat :=
  (Parser.init.feed text).bind fun p => p.finish.map fun _ => p.groups

section
variable {q : Lex} {c : Char} {text text' : List Char}

@[simp] theorem Lex.after_nil : q.after [] = q := rfl

@[simp] theorem Lex.after_cons : q.after (c :: text) = (q.step c).after text := rfl

@[simp] theorem Lex.openings_nil : q.openings [] = 0 := rfl

/-- The openings are counted character by character, -/
theorem Lex.openings_cons :
    q.openings (c :: text) = (if q.opens c text then 1 else 0) + (q.step c).openings text := rfl

/-- and the lexer reads on from where it is. -/
theorem Lex.after_append : q.after (text ++ text') = (q.after text).after text' := by
  simp only [after, List.foldl_append]

/-- A group opens at some `(` of the text. -/
theorem Lex.openings_pos_iff : 0 < q.openings text ↔
    ∃ pre rest, text = pre ++ '(' :: rest ∧ q.after pre = .normal ∧ rest.head? ≠ some '?' := by
  induction text generalizing q with
  | nil => simp
  | cons c text ih =>
    have hfirst : q.opens c text = true ↔ q = .normal ∧ c = '(' ∧ text.head? ≠ some '?' := by
      simp [opens, and_assoc]
    have hsum : 0 < q.openings (c :: text) ↔ q.opens c text = true ∨ 0 < (q.step c).openings text := by
      rw [openings_cons, Nat.add_pos_iff_pos_or_pos]
      refine or_congr_left ?_
      split <;> simp [*]
    rw [hsum, hfirst, ih]
    constructor
    · rintro (⟨hq, rfl, hhead⟩ | ⟨pre, rest, rfl, hafter, hhead⟩)
      · exact ⟨[], text, rfl, hq, hhead⟩
      · exact ⟨c :: pre, rest, rfl, hafter, hhead⟩
    · rintro ⟨pre, rest, htext, hafter, hhead⟩
      cases pre with
      | nil =>
        obtain ⟨rfl, rfl⟩ := List.cons.inj htext
        exact .inl ⟨hafter, rfl, hhead⟩
      | cons c' pre =>
        obtain ⟨rfl, rfl⟩ := List.cons.inj htext
        exact .inr ⟨pre, rest, rfl, hafter, hhead⟩

/-- A text in which no group opens does not matter for the openings behind it. -/
theorem Lex.openings_append_of_eq_zero (h : q.openings text = 0) :
    q.openings (text ++ text') = (q.after text).openings text' := by
  induction text generalizing q with
  | nil => rfl
  | cons c text ih =>
    rw [openings_cons, Nat.add_eq_zero_iff] at h
    have hopens : q.opens c (text ++ text') = false := by
      cases text with
      | nil =>
        -- A `(` at the end of the text would open a group.
        have hlast : q.opens c [] = false := by simpa using h.1
        have hnot : (q == .normal && c == '(') = false := by simpa [opens] using hlast
        rw [opens, hnot, Bool.false_and]
      | cons c' text => simpa [opens] using h.1
    rw [List.cons_append, openings_cons, hopens, ih h.2]
    simp

/-- Texts in sequence, where no `?` moves behind a `(`. -/
theorem Lex.openings_append (h : text.getLast? ≠ some '(' ∨ text'.head? ≠ some '?') :
    q.openings (text ++ text') = q.openings text + (q.after text).openings text' := by
  induction text generalizing q with
  | nil => simp
  | cons c text ih =>
    have hopens : q.opens c (text ++ text') = q.opens c text := by
      cases text with
      | nil =>
        rcases h with h | h
        · have hc : (c == '(') = false := by simpa using h
          simp [opens, hc]
        · have hhead : (text'.head? != some '?') = true := bne_iff_ne.mpr h
          rw [opens, opens, List.nil_append, hhead]
          rfl
      | cons c' text => rfl
    have htail : text.getLast? ≠ some '(' ∨ text'.head? ≠ some '?' := by
      refine h.imp_left fun hlast heq => hlast ?_
      rw [List.getLast?_cons, heq]
      rfl
    rw [List.cons_append, openings_cons, openings_cons, hopens, ih htail, after_cons, Nat.add_assoc]

/-- The states at a place inside a class, when the text is read as one of its own and as what is
behind the bracket: both have read an escape or neither. -/
inductive Lex.Beside : Lex → Lex → Prop
  | read {q : Lex} (hescape : q ≠ .escape) (hclass : q ≠ .classEscape) : Beside q .inClass
  | escape : Beside .escape .classEscape
  | classEscape : Beside .classEscape .classEscape

/-- Inside a class no more groups open than in the text itself. -/
theorem Lex.Beside.openings_eq_zero {q q' : Lex} (h : q.Beside q') (hzero : q.openings text = 0) :
    q'.openings text = 0 := by
  induction text generalizing q q' with
  | nil => rfl
  | cons c text ih =>
    rw [openings_cons, Nat.add_eq_zero_iff] at hzero
    have hopens : q'.opens c text = false := by cases h <;> rfl
    rw [openings_cons, hopens]
    suffices hrest : (q'.step c).openings text = 0 by simpa using hrest
    cases h with
    | read hescape hclass =>
      cases q with
      | escape => exact absurd rfl hescape
      | classEscape => exact absurd rfl hclass
      | inClass => exact hzero.2
      | normal =>
        simp only [step] at hzero ⊢
        split
        · rename_i hclose
          simpa [hclose] using hzero.2
        · split
          · rename_i hbackslash
            refine ih .escape ?_
            simpa [hbackslash] using hzero.2
          · rename_i hclose hbackslash
            refine ih (q := if c = '[' then .inClass else .normal) ?_ ?_
            · split <;> exact .read (by decide) (by decide)
            · simpa [hbackslash] using hzero.2
    | escape => exact ih (.read (q := .normal) (by decide) (by decide)) hzero.2
    | classEscape => exact hzero.2

end

/-! ### The groups of the parser -/

/-- Where the parser is in the text. -/
def Mode.lex : Mode → Lex
  | .escape => .escape
  | .inClass k => if k.escape then .classEscape else .inClass
  | _ => .normal

/-- The parser is directly behind a `(`. -/
def Mode.behindParen : Mode → Bool
  | .paren => true
  | _ => false

section
variable {p p' : Parser} {c : Char} {text : List Char}

/-- The end of a group leaves the parser between two terms, -/
theorem Parser.closeGroup_lex (h : p.closeGroup = some p') :
    p'.mode = .normal ∧ p'.groups = p.groups := by
  unfold Parser.closeGroup at h
  split at h
  · cases h
  · cases h
    exact ⟨rfl, rfl⟩

/-- a character there moves it as it moves the lexer, -/
theorem Parser.stepNormal_lex (h : p.stepNormal c = some p') :
    p'.mode.lex = Lex.normal.step c ∧ p'.mode.behindParen = (c == '(') ∧ p'.groups = p.groups := by
  have hquantified : ∀ {min max}, p.quantifiable.map (p.quantifyLast · min max) = some p' →
      p'.mode.lex = .normal ∧ p'.mode.behindParen = false ∧ p'.groups = p.groups := by
    intro min max h
    obtain ⟨r, -, rfl⟩ := Option.map_eq_some_iff.mp h
    exact ⟨rfl, rfl, rfl⟩
  unfold Parser.stepNormal at h
  split at h
  case h_1 => cases h; exact ⟨rfl, rfl, rfl⟩
  case h_2 => exact hquantified h
  case h_3 => exact hquantified h
  case h_4 => exact hquantified h
  case h_5 =>
    obtain ⟨r, -, rfl⟩ := Option.map_eq_some_iff.mp h
    exact ⟨rfl, rfl, rfl⟩
  case h_7 =>
    obtain ⟨hmode, hgroups⟩ := Parser.closeGroup_lex h
    rw [hmode]
    exact ⟨rfl, rfl, hgroups⟩
  case h_14 =>
    rename_i hparen _ _ hclass hescape _ _ _ _
    cases h
    refine ⟨?_, ?_, rfl⟩
    · rw [Lex.step, if_neg hclass, if_neg hescape]
      rfl
    · exact (beq_eq_false_iff_ne.mpr hparen).symm
  all_goals
    cases h
    exact ⟨rfl, rfl, rfl⟩

/-- a character of a class ends an escape, -/
theorem OpenClass.add_escape {k k' : OpenClass} (h : k.add c = some k') : k'.escape = false := by
  unfold OpenClass.add at h
  split at h
  · split at h
    · cases h
      rfl
    · cases h
  · cases h
    rfl

/-- as an escaped one does, -/
theorem OpenClass.addEscape_escape {k k' : OpenClass} (h : k.addEscape c = some k') :
    k'.escape = false := by
  unfold OpenClass.addEscape at h
  split at h
  · split at h
    · obtain ⟨k₁, hk₁, rfl⟩ := Option.map_eq_some_iff.mp h
      show k₁.escape = false
      exact OpenClass.add_escape hk₁
    · cases h
      rfl
  · cases h
    rfl
  · cases h

/-- a character inside a class moves the parser as the lexer, -/
theorem Parser.stepClass_lex {k : OpenClass} (h : p.stepClass k c = some p') :
    p'.mode.lex = (Mode.inClass k).lex.step c ∧ p'.mode.behindParen = false ∧ p'.groups = p.groups := by
  have hadded : ∀ k' : OpenClass, k'.escape = false → p' = { p with mode := .inClass k' } →
      p'.mode.lex = .inClass ∧ p'.mode.behindParen = false ∧ p'.groups = p.groups := by
    rintro k' hescape rfl
    exact ⟨by simp [Mode.lex, hescape], rfl, rfl⟩
  have hadd : ∀ {c : Char}, (k.add c).map (fun k => { p with mode := .inClass k }) = some p' →
      p'.mode.lex = .inClass ∧ p'.mode.behindParen = false ∧ p'.groups = p.groups := by
    intro c h
    obtain ⟨k', hk', heq⟩ := Option.map_eq_some_iff.mp h
    exact hadded k' (OpenClass.add_escape hk') heq.symm
  unfold Parser.stepClass at h
  cases hescape : k.escape with
  | true =>
    have hlex : (Mode.inClass k).lex = .classEscape := by simp [Mode.lex, hescape]
    rw [if_pos hescape] at h
    obtain ⟨k', hk', heq⟩ := Option.map_eq_some_iff.mp h
    rw [hlex]
    exact hadded k' (OpenClass.addEscape_escape hk') heq.symm
  | false =>
    have hlex : (Mode.inClass k).lex = .inClass := by simp [Mode.lex, hescape]
    rw [if_neg (by simp [hescape]), Option.ite_none_left_eq_some] at h
    obtain ⟨-, h⟩ := h
    rw [hlex]
    split at h
    · cases h
      exact ⟨rfl, rfl, rfl⟩
    · split at h
      · cases h
      · cases h
        exact ⟨rfl, rfl, rfl⟩
    · split at h
      · exact hadded { k with negated := true } hescape (Option.some.inj h).symm
      · exact hadd h
    · split at h
      · exact hadded { k with dash := true, bracket := false } hescape (Option.some.inj h).symm
      · exact hadd h
    · rename_i hbackslash hclose _ _
      rw [Lex.step, if_neg hclose, if_neg hbackslash]
      exact hadd h

/-- a digit leaves the lexer where it is, -/
theorem lex_step_digit (hc : c.isDigit = true) : Lex.normal.step c = .normal ∧ (c == '(') = false := by
  have hne : ∀ d : Char, d.isDigit = false → c ≠ d := by
    rintro d hd rfl
    rw [hc] at hd
    cases hd
  exact ⟨by rw [Lex.step, if_neg (hne _ (by decide)), if_neg (hne _ (by decide))],
    beq_eq_false_iff_ne.mpr (hne _ (by decide))⟩

/-- and what is read as one is one, -/
theorem isDigit_of_digit? {n : Option Nat} {m : Nat} (h : digit? n c = some m) : c.isDigit = true := by
  unfold digit? at h
  split at h
  · assumption
  · cases h

/-- so that a bound of a quantifier leaves it there, -/
theorem Parser.stepBounds_lex {min : Option Nat} (h : p.stepBounds min c = some p') :
    p'.mode.lex = Lex.normal.step c ∧ p'.mode.behindParen = (c == '(') ∧ p'.groups = p.groups := by
  unfold Parser.stepBounds at h
  split at h
  · cases h
    exact ⟨rfl, rfl, rfl⟩
  · obtain ⟨r, -, rfl⟩ := Option.map_eq_some_iff.mp h
    exact ⟨rfl, rfl, rfl⟩
  · obtain ⟨m, hm, rfl⟩ := Option.map_eq_some_iff.mp h
    obtain ⟨hlex, hparen⟩ := lex_step_digit (isDigit_of_digit? hm)
    rw [hlex, hparen]
    exact ⟨rfl, rfl, rfl⟩

/-- and a second bound does. -/
theorem Parser.stepBoundsTo_lex {min : Nat} {max : Option Nat}
    (h : p.stepBoundsTo min max c = some p') :
    p'.mode.lex = Lex.normal.step c ∧ p'.mode.behindParen = (c == '(') ∧ p'.groups = p.groups := by
  unfold Parser.stepBoundsTo at h
  split at h
  · split at h
    · obtain ⟨r, -, rfl⟩ := Option.map_eq_some_iff.mp h
      exact ⟨rfl, rfl, rfl⟩
    · cases h
  · obtain ⟨m, hm, rfl⟩ := Option.map_eq_some_iff.mp h
    obtain ⟨hlex, hparen⟩ := lex_step_digit (isDigit_of_digit? hm)
    rw [hlex, hparen]
    exact ⟨rfl, rfl, rfl⟩

/-- A character moves the parser as it moves in the text, and a group opens behind its `(`. -/
theorem Parser.step_lex (h : p.step c = some p') :
    p'.mode.lex = p.mode.lex.step c ∧
      p'.mode.behindParen = (p.mode.lex == .normal && c == '(') ∧
      p'.groups = p.groups + if p.mode.behindParen && c != '?' then 1 else 0 := by
  cases hmode : p.mode with
  | normal | quantified r =>
    simp only [Parser.step, hmode] at h
    exact Parser.stepNormal_lex h
  | escape =>
    simp only [Parser.step, hmode] at h
    obtain ⟨k, -, rfl⟩ := Option.map_eq_some_iff.mp h
    exact ⟨rfl, rfl, rfl⟩
  | paren =>
    simp only [Parser.step, hmode] at h
    split at h
    · rename_i hc
      cases h
      subst hc
      exact ⟨rfl, rfl, rfl⟩
    · rename_i hc
      obtain ⟨hlex, hparen, hgroups⟩ := Parser.stepNormal_lex h
      refine ⟨hlex, hparen, ?_⟩
      rw [hgroups, if_pos (by simpa [Mode.behindParen] using hc)]
      rfl
  | parenQuestion =>
    simp only [Parser.step, hmode] at h
    split at h
    · rename_i hc
      cases h
      subst hc
      exact ⟨rfl, rfl, rfl⟩
    · cases h
  | inClass k =>
    simp only [Parser.step, hmode] at h
    obtain ⟨hlex, hparen, hgroups⟩ := Parser.stepClass_lex h
    have hclass : ((Mode.inClass k).lex == .normal) = false := by
      rw [Mode.lex]
      split <;> rfl
    exact ⟨hlex, by rw [hparen, hclass, Bool.false_and], hgroups⟩
  | bounds min =>
    simp only [Parser.step, hmode] at h
    exact Parser.stepBounds_lex h
  | boundsTo min max =>
    simp only [Parser.step, hmode] at h
    exact Parser.stepBoundsTo_lex h

/-- The groups behind a text are those before it and its openings. A `(` directly before the text opens
one as well, unless a `?` follows. -/
theorem Parser.feed_groups (h : p.feed text = some p') (hend : p'.mode.behindParen = false) :
    p'.groups = p.groups + (if p.mode.behindParen && text.head? != some '?' then 1 else 0) +
      p.mode.lex.openings text := by
  induction text generalizing p with
  | nil =>
    cases h
    simp [hend]
  | cons c text ih =>
    rw [Parser.feed_cons] at h
    obtain ⟨p₁, hstep, hfeed⟩ := Option.bind_eq_some_iff.mp h
    obtain ⟨hlex, hparen, hgroups⟩ := Parser.step_lex hstep
    have hhead : ((c :: text).head? != some '?') = (c != '?') := by simp [bne]
    have hopens : (p₁.mode.behindParen && text.head? != some '?') = p.mode.lex.opens c text := by
      rw [hparen]
      rfl
    rw [ih hfeed, hgroups, hlex, hopens, hhead, Lex.openings_cons, ← Nat.add_assoc]

/-- An accepted text has as many groups as openings. -/
theorem groupCount_eq {n : Nat} (h : groupCount text = some n) : n = Lex.normal.openings text := by
  obtain ⟨p, hfeed, h⟩ := Option.bind_eq_some_iff.mp h
  obtain ⟨r, hfinish, rfl⟩ := Option.map_eq_some_iff.mp h
  have hend : p.mode.behindParen = false := by
    cases hmode : p.mode with
    | paren => simp [Parser.finish, hmode] at hfinish
    | _ => rfl
  have hgroups := Parser.feed_groups hfeed hend
  simpa [Parser.init, Mode.behindParen, Mode.lex] using hgroups

end

end Regex
