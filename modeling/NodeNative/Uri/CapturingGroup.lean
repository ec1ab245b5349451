import NodeNative.Lib.CapturingGroups
import NodeNative.Uri.Template

/-!
# Looking for a capturing group

`containCapturingGroup` looks for a `(` with two characters and a `)` behind it (`Seen`), wherever it
stands in the pattern. A group of one character or none and a named group are not found, and an escaped
`(` or one in a class is taken for a group. It answers as it should exactly when neither decides
(`detects_iff`).
-/

namespace NodeNative.Uri

open Regex Http

/-! ### Groups of a pattern -/

/-- What is behind the `(` of a named group; `(?<=` and `(?<!` look behind. -/
def IsNamed (rest : Str) : Prop :=
  "?P<".toList <+: rest ∨ "?'".toList <+: rest ∨
    "?<".toList <+: rest ∧ ¬ "?<=".toList <+: rest ∧ ¬ "?<!".toList <+: rest

/-- A capturing group opens at a `(` that is not escaped and not in a class, and that has no `?` behind
it or opens a named group. -/
def HasCapturingGroup (iPattern : Str) : Prop :=
  ∃ pre rest, iPattern = pre ++ '(' :: rest ∧ Lex.normal.after pre = .normal ∧
    (rest.head? ≠ some '?' ∨ IsNamed rest)

/-- The groups that a pattern has of its own are found. -/
theorem HasCapturingGroup.of_groupCount {iPattern : Str} {n : Nat}
    (h : groupCount iPattern = some (n + 1)) : HasCapturingGroup iPattern := by
  have hopenings : 0 < Lex.normal.openings iPattern := by
    rw [← groupCount_eq h]
    exact n.succ_pos
  obtain ⟨pre, rest, htext, hafter, hhead⟩ := Lex.openings_pos_iff.mp hopenings
  exact ⟨pre, rest, htext, hafter, .inl hhead⟩

/-! ### What is looked for -/

/-- Behind the `(` there are a character other than `?`, one other than `)`, and a `)` further on. -/
def Seen (rest : Str) : Prop :=
  ∃ c d behind, rest = c :: d :: behind ∧ c ≠ '?' ∧ d ≠ ')' ∧ ')' ∈ behind

/-- The characters up to the first `)`. -/
theorem seen_iff {rest : Str} : Seen rest ↔
    ∃ c body behind, rest = c :: (body ++ ')' :: behind) ∧ c ≠ '?' ∧ body ≠ [] ∧ ')' ∉ body := by
  constructor
  · rintro ⟨c, d, behind, rfl, hc, hd, hmem⟩
    obtain ⟨body, behind, rfl, hbody⟩ := List.eq_append_cons_of_mem hmem
    refine ⟨c, d :: body, behind, rfl, hc, List.cons_ne_nil _ _, ?_⟩
    simp [hd.symm, hbody]
  · rintro ⟨c, body, behind, rfl, hc, hne, hbody⟩
    obtain ⟨d, body, rfl⟩ := List.exists_cons_of_ne_nil hne
    have hd : ')' ≠ d := List.ne_of_not_mem_cons hbody
    exact ⟨c, d, body ++ ')' :: behind, rfl, hc, hd.symm, by simp⟩

/-- The expression matches at a `(` that it sees. -/
theorem matchAt_reCapturingGroup {pos : Nat} {text : Str} :
    (reCapturingGroup.matchAt pos text).isSome ↔ ∃ rest, text = '(' :: rest ∧ Seen rest := by
  have hrun : (reCapturingGroup.matchAt pos text).isSome ↔
      ∃ s', s' ∈ reCapturingGroup.run ⟨pos, text, []⟩ := by
    rw [Re.matchAt, Option.isSome_map, List.isSome_head?]
    simp [List.eq_nil_iff_forall_not_mem]
  rw [hrun]
  simp only [reCapturingGroup, quantify, times, Option.elim_none, run_seq (Re.seq _ _), List.mem_flatMap,
    run_seq (Re.char _) (Re.char _), mem_run_char_star, mem_run_char, seen_iff]
  constructor
  · rintro ⟨s', s₃, ⟨s₂, ⟨s₁, ⟨c₀, rest₀, hrest₀, hc₀, rfl⟩, c, rest₁, hrest₁, hc, rfl⟩,
      body, behind, hbehind, hne, hbody, rfl⟩, c₁, rest₂, hrest₂, hc₁, -⟩
    obtain rfl : c₀ = '(' := by simpa [literal, accepts_literal] using hc₀
    obtain rfl : c₁ = ')' := by simpa [literal, accepts_literal] using hc₁
    subst hrest₀
    obtain rfl : rest₀ = c :: rest₁ := hrest₁
    obtain rfl : rest₁ = body ++ behind := hbehind
    obtain rfl : behind = ')' :: rest₂ := by simpa [State.advance] using hrest₂
    refine ⟨_, rfl, c, body, rest₂, rfl, by simpa [accepts_not_literal] using hc, hne, fun hmem => ?_⟩
    simpa [accepts_not_literal] using hbody _ hmem
  · rintro ⟨rest, rfl, c, body, behind, rfl, hc, hne, hbody⟩
    refine ⟨_, _, ⟨_, ⟨_, ⟨'(', _, rfl, by simp [literal, accepts_literal], rfl⟩, c, _, rfl, ?_, rfl⟩, body,
      ')' :: behind, rfl, hne, fun c' hc' => ?_, rfl⟩, ')', behind, ?_, by simp [literal, accepts_literal], rfl⟩
    · simpa [accepts_not_literal] using hc
    · have hc'ne : c' ≠ ')' := fun heq => hbody (heq ▸ hc')
      simpa [accepts_not_literal] using hc'ne
    · simp [State.advance]

/-- The check finds a pattern with such a `(` anywhere. -/
theorem containCapturingGroup_iff {iPattern : Str} : containCapturingGroup iPattern = true ↔
    ∃ pre rest, iPattern = pre ++ '(' :: rest ∧ Seen rest := by
  rw [containCapturingGroup, matchRegex, search_isSome_iff]
  simp only [matchAt_reCapturingGroup]
  constructor
  · rintro ⟨pre, _, rfl, rest, rfl, hseen⟩
    exact ⟨pre, rest, rfl, hseen⟩
  · rintro ⟨pre, rest, rfl, hseen⟩
    exact ⟨pre, _, rfl, rest, rfl, hseen⟩

/-! ### Templates -/

/-- The loop fails for other reasons. -/
theorem parseLoop_error {formats : Formats} {n : Nat} {t : UriTemplate} {iBegin : Str}
    {message : String} (h : parseLoop formats n t iBegin = some (.error message)) :
    message = "0" := by
  induction n generalizing t iBegin with
  | zero => cases h
  | succ n ih =>
    rw [parseLoop] at h
    split at h
    · cases h
    · split at h
      · cases h
        rfl
      · split at h
        · next hformat =>
          cases h
          rw [formatOf] at hformat
          split at hformat
          · cases hformat
          · rw [getGlobalFormat] at hformat
            split at hformat
            · cases hformat
              rfl
            · cases hformat
        · exact ih h

/-- A template is rejected for a capturing group when the check finds one. -/
theorem parse_error_iff {formats : Formats} {iTemplate : Str} :
    UriTemplate.parse formats iTemplate = .error "!ContainCapturingGroup(_template)" ↔
      containCapturingGroup iTemplate = true := by
  rw [UriTemplate.parse]
  split
  · simp [*]
  · refine iff_of_false (fun hparse => ?_) (by assumption)
    cases hloop : parseLoop formats (iTemplate.length + 1) ⟨iTemplate, [], [], [], []⟩ iTemplate with
    | none =>
      rw [hloop] at hparse
      exact absurd (Except.error.inj hparse) (by decide)
    | some result =>
      have hresult : result = .error "!ContainCapturingGroup(_template)" := by
        simpa [hloop] using hparse
      rw [hresult] at hloop
      exact absurd (parseLoop_error hloop) (by decide)

/-! ### Detection -/

/-- `ContainCapturingGroup` says whether a pattern has a capturing group, and so a template is rejected
exactly when it has one. -/
def Detects (formats : Formats) (iPattern : Str) : Prop :=
  (containCapturingGroup iPattern = true ↔ HasCapturingGroup iPattern) ∧
    (UriTemplate.parse formats iPattern = .error "!ContainCapturingGroup(_template)" ↔
      HasCapturingGroup iPattern)

/-- No `(` of the pattern has, behind a first character other than `?`, a second one other than `)` and
then a `)`. -/
def NoneSeen (iPattern : Str) : Prop :=
  ∀ pre c d behind, iPattern = pre ++ '(' :: c :: d :: behind → c ≠ '?' → d ≠ ')' → ')' ∉ behind

/-- Some escaped `(`, or one in a class, has these characters behind it. -/
def LiteralSeen (iPattern : Str) : Prop :=
  ∃ pre c d behind, iPattern = pre ++ '(' :: c :: d :: behind ∧ Lex.normal.after pre ≠ .normal ∧
    c ≠ '?' ∧ d ≠ ')' ∧ ')' ∈ behind

/-- A pattern is told wrong exactly when it has groups but none that is seen, or has none and a literal
`(` that is. -/
theorem detects_iff (formats : Formats) (iPattern : Str) : Detects formats iPattern ↔
    ¬ (HasCapturingGroup iPattern ∧ NoneSeen iPattern) ∧
      ¬ (¬ HasCapturingGroup iPattern ∧ LiteralSeen iPattern) := by
  have hnone : NoneSeen iPattern ↔ containCapturingGroup iPattern = false := by
    rw [← Bool.not_eq_true, containCapturingGroup_iff]
    constructor
    · rintro hnone ⟨pre, _, heq, c, d, behind, rfl, hc, hd, hmem⟩
      exact hnone pre c d behind heq hc hd hmem
    · intro hnone pre c d behind heq hc hd hmem
      exact hnone ⟨pre, _, heq, c, d, behind, rfl, hc, hd, hmem⟩
  -- Where no group opens, a `(` that is seen is a literal one.
  have hliteral : ¬ HasCapturingGroup iPattern →
      (LiteralSeen iPattern ↔ containCapturingGroup iPattern = true) := by
    intro hnogroup
    rw [containCapturingGroup_iff]
    constructor
    · rintro ⟨pre, c, d, behind, heq, -, hc, hd, hmem⟩
      exact ⟨pre, _, heq, c, d, behind, rfl, hc, hd, hmem⟩
    · rintro ⟨pre, _, heq, c, d, behind, rfl, hc, hd, hmem⟩
      refine ⟨pre, c, d, behind, heq, fun hafter => ?_, hc, hd, hmem⟩
      refine hnogroup ⟨pre, _, heq, hafter, .inl ?_⟩
      simpa using hc
  rw [Detects, parse_error_iff, and_self_iff, hnone]
  rcases Classical.em (HasCapturingGroup iPattern) with hgroup | hnogroup
  · simp [hgroup]
  · simp [hnogroup, hliteral hnogroup]

/-- The group of this template is not found, and its text is taken for the value of the parameter. -/
theorem not_detects : ¬ Detects [] "/(a)/\x7bx\x7d".toList := by
  rintro ⟨hcontain, -⟩
  have hgroup : HasCapturingGroup "/(a)/\x7bx\x7d".toList :=
    ⟨"/".toList, "a)/\x7bx\x7d".toList, rfl, rfl, .inl (by decide)⟩
  have hmissed : containCapturingGroup "/(a)/\x7bx\x7d".toList = false := by decide
  rw [← hcontain, hmissed] at hgroup
  exact Bool.false_ne_true hgroup

/-- Parentheses that stand for themselves are taken for a group. -/
example : containCapturingGroup "/\\(ab\\)".toList = true ∧
    groupCount "/\\(ab\\)".toList = some 0 := by decide

end NodeNative.Uri
