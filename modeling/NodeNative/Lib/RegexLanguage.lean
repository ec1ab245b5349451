import Mathlib.Computability.Language
import NodeNative.Lib.RegexMeaning

/-!
# The language of an expression

A backtracking matcher tries its choices in an order and makes no round that takes no text, but whether
it can take a text at all does not depend on either: an expression without anchors takes exactly the
words of its language (`mem_ends_iff`), which is made of the languages of its parts by union, product
and Kleene star. What the matcher finds first is one of them (`matchStart_mem`), and it can take the
whole text when that is one (`matchWhole_isSome_iff_mem`).
-/

namespace Regex

open scoped Computability

/-- The words that an expression stands for, groups and the order of choices apart. Anchors stand for a
place, not for a word. -/
def Re.language : Re → Language Char
  | .empty => 1
  | .char k => {w | ∃ c, w = [c] ∧ k.accepts c = true}
  | .seq a b => a.language * b.language
  | .alt a b => a.language + b.language
  | .star _ a => a.language∗
  | .group _ a => a.language
  | .bol => 1
  | .eol => 1

/-- No anchor. -/
def Re.anchorFree : Re → Bool
  | .empty | .char _ => true
  | .seq a b | .alt a b => a.anchorFree && b.anchorFree
  | .star _ a | .group _ a => a.anchorFree
  | .bol | .eol => false

section
variable {s s' : State} {f : Matcher} {l : Language Char} {r : Re}

/-- The matcher takes exactly the words of the language. -/
def Matcher.Takes (f : Matcher) (l : Language Char) : Prop :=
  ∀ s s', s' ∈ f s ↔ ∃ w ∈ l, w <+: s.rest ∧ s' = s.advance w.length

/-- The empty matcher takes the empty word, -/
theorem Matcher.takes_empty : Matcher.empty.Takes 1 := by
  intro s s'
  simp [Matcher.empty, Language.mem_one]

/-- two matchers take the words of either, -/
theorem Matcher.Takes.alt {g : Matcher} {m : Language Char} (hf : f.Takes l) (hg : g.Takes m) :
    (f.alt g).Takes (l + m) := by
  intro s s'
  rw [Matcher.alt, List.mem_append, hf s s', hg s s']
  constructor
  · rintro (⟨w, hw, hpre⟩ | ⟨w, hw, hpre⟩)
    · exact ⟨w, (Language.mem_add ..).mpr (.inl hw), hpre⟩
    · exact ⟨w, (Language.mem_add ..).mpr (.inr hw), hpre⟩
  · rintro ⟨w, hw, hpre⟩
    rcases (Language.mem_add ..).mp hw with hw | hw
    · exact .inl ⟨w, hw, hpre⟩
    · exact .inr ⟨w, hw, hpre⟩

/-- A word in front, then another one behind it. -/
theorem prefix_append_iff {v w : List Char} :
    v ++ w <+: s.rest ↔ v <+: s.rest ∧ w <+: (s.advance v.length).rest := by
  constructor
  · rintro ⟨rest, hrest⟩
    rw [List.append_assoc] at hrest
    exact ⟨⟨w ++ rest, hrest⟩, ⟨rest, (State.advance_rest_append hrest.symm).symm⟩⟩
  · rintro ⟨⟨tail, htail⟩, ⟨rest, hrest⟩⟩
    rw [State.advance_rest_append htail.symm] at hrest
    exact ⟨rest, by rw [List.append_assoc, hrest, htail]⟩

/-- one behind the other those of both in a row, -/
theorem Matcher.Takes.seq {g : Matcher} {m : Language Char} (hf : f.Takes l) (hg : g.Takes m) :
    (f.seq g).Takes (l * m) := by
  intro s s'
  rw [Matcher.seq, List.mem_flatMap]
  constructor
  · rintro ⟨s₁, hs₁, hs'⟩
    obtain ⟨v, hv, hpre, rfl⟩ := (hf s s₁).mp hs₁
    obtain ⟨w, hw, hpre', rfl⟩ := (hg _ s').mp hs'
    refine ⟨v ++ w, Language.mem_mul.mpr ⟨v, hv, w, hw, rfl⟩, prefix_append_iff.mpr ⟨hpre, hpre'⟩, ?_⟩
    rw [State.advance_advance, List.length_append]
  · rintro ⟨x, hx, hpre, rfl⟩
    obtain ⟨v, hv, w, hw, rfl⟩ := Language.mem_mul.mp hx
    obtain ⟨hpre, hpre'⟩ := prefix_append_iff.mp hpre
    refine ⟨s.advance v.length, (hf _ _).mpr ⟨v, hv, hpre, rfl⟩, (hg _ _).mpr ⟨w, hw, hpre', ?_⟩⟩
    rw [State.advance_advance, List.length_append]

/-- The rounds of a repetition take the words of the star, each round a word that is not empty. -/
theorem Matcher.Takes.iterate (hf : f.Takes l) (greedy : Bool) {n : Nat} :
    s' ∈ Regex.iterate f greedy n s ↔ ∃ ws : List (List Char), ws.length ≤ n ∧
      (∀ w ∈ ws, w ∈ l ∧ w ≠ []) ∧ ws.flatten <+: s.rest ∧ s' = s.advance ws.flatten.length := by
  induction n generalizing s with
  | zero =>
    rw [Regex.iterate, List.mem_singleton]
    constructor
    · rintro rfl
      exact ⟨[], Nat.le_refl _, by simp, List.nil_prefix, rfl⟩
    · rintro ⟨ws, hlen, -, -, rfl⟩
      obtain rfl := List.length_eq_zero_iff.mp (Nat.le_zero.mp hlen)
      rfl
  | succ n ih =>
    have hstep : s' ∈ Regex.iterate f greedy (n + 1) s ↔
        s' = s ∨ ∃ s₁ ∈ f s, s.pos < s₁.pos ∧ s' ∈ Regex.iterate f greedy n s₁ := by
      have hmore : s' ∈ ((f s).filter fun s₁ => s.pos < s₁.pos).flatMap (Regex.iterate f greedy n) ↔
          ∃ s₁ ∈ f s, s.pos < s₁.pos ∧ s' ∈ Regex.iterate f greedy n s₁ := by
        simp only [List.mem_flatMap, List.mem_filter, decide_eq_true_eq, and_assoc]
      cases greedy with
      | true =>
        simp only [Regex.iterate, if_true, List.mem_append, List.mem_singleton]
        rw [hmore, or_comm]
      | false =>
        simp only [Regex.iterate, Bool.false_eq_true, if_false, List.mem_cons]
        rw [hmore]
    rw [hstep]
    constructor
    · rintro (rfl | ⟨s₁, hs₁, hpos, hs'⟩)
      · exact ⟨[], Nat.zero_le _, by simp, List.nil_prefix, rfl⟩
      · obtain ⟨w, hw, hpre, rfl⟩ := (hf s s₁).mp hs₁
        obtain ⟨ws, hlen, hws, hpre', rfl⟩ := ih.mp hs'
        have hne : w ≠ [] := by
          rintro rfl
          exact Nat.lt_irrefl _ hpos
        refine ⟨w :: ws, Nat.succ_le_succ hlen, List.forall_mem_cons.mpr ⟨⟨hw, hne⟩, hws⟩, ?_, ?_⟩
        · exact prefix_append_iff.mpr ⟨hpre, hpre'⟩
        · rw [State.advance_advance, List.flatten_cons, List.length_append]
    · rintro ⟨ws, hlen, hws, hpre, rfl⟩
      cases ws with
      | nil => exact .inl rfl
      | cons w ws =>
        obtain ⟨⟨hw, hne⟩, hws⟩ := List.forall_mem_cons.mp hws
        obtain ⟨hpre, hpre'⟩ := prefix_append_iff.mp hpre
        refine .inr ⟨s.advance w.length, (hf _ _).mpr ⟨w, hw, hpre, rfl⟩, ?_, ?_⟩
        · exact Nat.lt_add_of_pos_right (List.length_pos_iff.mpr hne)
        · refine ih.mpr ⟨ws, Nat.le_of_succ_le_succ hlen, hws, hpre', ?_⟩
          rw [State.advance_advance, List.flatten_cons, List.length_append]

/-- No more words than characters. -/
theorem length_le_flatten {ws : List (List Char)} (h : ∀ w ∈ ws, w ≠ []) :
    ws.length ≤ ws.flatten.length := by
  induction ws with
  | nil => exact Nat.le_refl _
  | cons w ws ih =>
    obtain ⟨hw, hws⟩ := List.forall_mem_cons.mp h
    have hpos := List.length_pos_iff.mpr hw
    have hle := ih hws
    rw [List.flatten_cons, List.length_append, List.length_cons]
    omega

/-- and one again and again those of the star. -/
theorem Matcher.Takes.star (hf : f.Takes l) (greedy : Bool) :
    Matcher.Takes (fun s => Regex.iterate f greedy s.rest.length s) l∗ := by
  intro s s'
  rw [hf.iterate greedy]
  constructor
  · rintro ⟨ws, -, hws, hpre, rfl⟩
    exact ⟨ws.flatten, Language.join_mem_kstar fun w hw => (hws w hw).1, hpre, rfl⟩
  · rintro ⟨w, hw, hpre, rfl⟩
    obtain ⟨ws, rfl, hws⟩ := Language.mem_kstar_iff_exists_nonempty.mp hw
    refine ⟨ws, ?_, hws, hpre, rfl⟩
    exact (length_le_flatten fun w hw => (hws w hw).2).trans hpre.length_le

/-- An expression without anchors takes exactly the words of its language. -/
theorem takes_language (h : r.anchorFree = true) : r.ends.Takes r.language := by
  induction r with
  | empty => exact Matcher.takes_empty
  | char k =>
    intro s s'
    constructor
    · intro hs'
      obtain ⟨c, rest, hrest, hc, rfl⟩ := mem_run_char.mp hs'
      exact ⟨[c], ⟨c, rfl, hc⟩, ⟨rest, hrest.symm⟩, rfl⟩
    · rintro ⟨w, ⟨c, rfl, hc⟩, ⟨rest, hrest⟩, rfl⟩
      exact mem_run_char.mpr ⟨c, rest, hrest.symm, hc, rfl⟩
  | seq a b iha ihb =>
    obtain ⟨ha, hb⟩ := Bool.and_eq_true_iff.mp h
    exact (iha ha).seq (ihb hb)
  | alt a b iha ihb =>
    obtain ⟨ha, hb⟩ := Bool.and_eq_true_iff.mp h
    exact (iha ha).alt (ihb hb)
  | star greedy a ih => exact (ih h).star greedy
  | group i a ih => exact ih h
  | bol => cases h
  | eol => cases h

/-- An expression stops behind the words of its language. -/
theorem mem_ends_iff (h : r.anchorFree = true) :
    s' ∈ r.ends s ↔ ∃ w ∈ r.language, w <+: s.rest ∧ s' = s.advance w.length :=
  takes_language h s s'

/-- The whole text can be taken when it is a word. -/
theorem matchWhole_isSome_iff_mem (h : r.anchorFree = true) {text : List Char} :
    (r.matchWhole text).isSome ↔ text ∈ r.language := by
  rw [matchWhole_isSome_iff]
  constructor
  · rintro ⟨s, hs, hrest⟩
    obtain ⟨w, hw, ⟨tail, htail⟩, rfl⟩ := (mem_ends_iff h).mp hs
    rw [State.advance_rest_append htail.symm] at hrest
    have hwhole : w ++ [] = text := hrest ▸ htail
    rw [List.append_nil] at hwhole
    exact hwhole ▸ hw
  · intro htext
    refine ⟨_, (mem_ends_iff h).mpr ⟨text, htext, List.prefix_rfl, rfl⟩, ?_⟩
    exact List.drop_length

end

/-! ### Sequences -/

section
variable {rs : List Re} {r : Re}

/-- The words of a sequence of expressions, given in reverse like to `seqOf`. -/
theorem language_seqOf_cons (r : Re) (rs : List Re) :
    (seqOf (r :: rs)).language = (seqOf rs).language * r.language := by
  cases rs with
  | nil => exact (one_mul _).symm
  | cons r' rs => rfl

/-- The product of the languages of some expressions. -/
def languageAll (rs : List Re) : Language Char := (rs.map Re.language).prod

@[simp] theorem languageAll_nil : languageAll [] = 1 := rfl

@[simp] theorem languageAll_cons (r : Re) (rs : List Re) :
    languageAll (r :: rs) = r.language * languageAll rs := List.prod_cons

@[simp] theorem languageAll_append (rs rs' : List Re) :
    languageAll (rs ++ rs') = languageAll rs * languageAll rs' := by
  rw [languageAll, List.map_append, List.prod_append]
  rfl

/-- A literal text stands for itself. -/
theorem languageAll_text (text : List Char) :
    languageAll (textItems text) = ({text} : Language Char) := by
  induction text with
  | nil => rfl
  | cons c text ih =>
    have hliteral : (Re.char (literal c)).language = ({[c]} : Language Char) := by
      ext w
      constructor
      · rintro ⟨c', rfl, hc'⟩
        rw [literal, accepts_literal, beq_iff_eq] at hc'
        exact congrArg (fun c => [c]) hc'
      · rintro rfl
        exact ⟨c, rfl, (accepts_literal c c).trans (beq_self_eq_true c)⟩
    have hitems : textItems (c :: text) = .char (literal c) :: textItems text := rfl
    rw [hitems, languageAll_cons, ih, hliteral]
    ext w
    rw [Language.mem_mul]
    constructor
    · rintro ⟨x, rfl, y, rfl, rfl⟩
      rfl
    · rintro rfl
      exact ⟨[c], rfl, text, rfl, rfl⟩

/-- The language of terms in a row, -/
theorem language_seqOf (rs : List Re) : (seqOf rs.reverse).language = languageAll rs := by
  induction rs using List.reverseRecOn with
  | nil => rfl
  | append_singleton rs r ih =>
    rw [List.reverse_append, List.reverse_singleton, List.singleton_append, language_seqOf_cons, ih,
      languageAll_append, languageAll_cons, languageAll_nil, mul_one]

/-- which are without anchors when each of them is. -/
theorem anchorFree_seqOf (rs : List Re) :
    (seqOf rs).anchorFree = rs.all Re.anchorFree := by
  induction rs with
  | nil => rfl
  | cons r rs ih =>
    cases rs with
    | nil => simp [seqOf]
    | cons r' rs =>
      change ((seqOf (r' :: rs)).anchorFree && r.anchorFree) = _
      rw [ih, Bool.and_comm]
      rfl

end

end Regex
