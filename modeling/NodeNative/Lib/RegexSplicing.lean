import NodeNative.Lib.CapturingGroups
import NodeNative.Lib.RegexMeaning

/-!
# Expressions in front of and behind other text

A text that is an expression of its own can be put into another one. `Parser.Tracks` relates the
parser that reads the text on its own with one that reads it at some place: above the alternatives and
items that were there before (`b`), both have open groups that take the same.
-/

namespace Regex

/-! ### Quantifiers -/

/-- The character quantifies the last item. -/
def isQuantifier (c : Char) : Bool := c == '?' || c == '*' || c == '+' || c == '\x7b'

/-- The characters that begin a quantifier. -/
theorem isQuantifier_iff {c : Char} :
    isQuantifier c = true ↔ c = '?' ∨ c = '*' ∨ c = '+' ∨ c = '\x7b' := by
  simp [isQuantifier, or_assoc]

section
variable {p : Parser} {r : Re} {rs : List Re}

/-- A quantifier finds the last item, and never directly behind another quantifier. -/
theorem Parser.quantifiable_eq_some (h : p.quantifiable = some r) :
    (∀ l, p.mode ≠ .quantified l) ∧ ∃ rs, p.current.items = r :: rs := by
  unfold Parser.quantifiable at h
  split at h
  · cases h
  · cases h
  · rename_i hitems hmode
    cases h
    exact ⟨fun l hl => hmode l hl, _, hitems⟩

/-- Anywhere else it finds the last item. -/
theorem Parser.quantifiable_of_items (hmode : ∀ l, p.mode ≠ .quantified l)
    (hitems : p.current.items = r :: rs) : p.quantifiable = some r := by
  unfold Parser.quantifiable
  split
  · rename_i hl
    exact absurd hl (hmode _)
  · rename_i hnil _
    cases hitems.symm.trans hnil
  · rename_i hcons _
    cases hitems.symm.trans hcons
    rfl

end

/-! ### Open groups -/

/-- An alternative or a group begins. -/
def Open.fresh : Open := ⟨none, [], []⟩

/-- What is read on its own in `o` can be put behind `b`: a `|` in it would move items of `b`. -/
def Open.Joins (b o : Open) : Prop := o.alts = [] ∨ b.items = []

/-- `o'` has read behind `b` what `o` has read on its own. -/
structure Level (b o o' : Open) : Prop where
  done : b.Joins o → o'.done = b.done.alt o.done
  next : b.Joins o → o'.next = b.next.seq o.next

/-- The last items take the same, and so do the items before them. -/
def SameLast (b o o' : Open) : Prop :=
  ∀ r rs, o.items = r :: rs → ∃ r' rs', o'.items = r' :: rs' ∧ r'.ends = r.ends ∧
    (b.Joins o → (seqOf rs').ends = b.next.seq (seqOf rs).ends)

section
variable {b o o' : Open} {r r' : Re}

/-- Without a `|` so far there is no finished alternative. -/
theorem Open.done_of_nil {o : Open} (h : o.alts = []) : o.done = .none := by
  rw [done, h]
  rfl

/-- Without items the alternative takes the empty text. -/
theorem Open.next_of_nil {o : Open} (h : o.items = []) : o.next = .empty := by
  rw [next, h]
  rfl

/-- Without a `|` the expression takes what its items take. -/
theorem Open.ends_re_of_nil {o : Open} (h : o.alts = []) : o.re.ends = o.next := by
  rw [ends_re, done_of_nil h, Matcher.none_alt]

/-- Behind nothing the whole takes what it takes on its own. -/
theorem Level.ends_re (h : Level b o o') (halts : b.alts = []) (hitems : b.items = []) :
    o'.re.ends = o.re.ends := by
  rw [Open.ends_re, Open.ends_re, h.done (.inr hitems), h.next (.inr hitems), Open.done_of_nil halts,
    Open.next_of_nil hitems, Matcher.none_alt, Matcher.empty_seq]

/-- Nothing has been read yet. -/
theorem Level.start (b : Open) (group : Option Nat) : Level b ⟨group, [], []⟩ b := by
  refine ⟨fun _ => ?_, fun _ => ?_⟩
  · exact (Matcher.alt_none _).symm
  · exact (Matcher.seq_empty _).symm

/-- An open group begins with nothing, whatever its number is. -/
theorem Level.group (group group' : Option Nat) : Level .fresh ⟨group, [], []⟩ ⟨group', [], []⟩ := by
  refine ⟨fun _ => rfl, fun _ => ?_⟩
  exact (Matcher.seq_empty _).symm

/-- Items that take the same keep the levels alike, -/
theorem Level.push (h : Level b o o') (hends : r'.ends = r.ends) :
    Level b { o with items := r :: o.items } { o' with items := r' :: o'.items } := by
  refine ⟨fun hjoins => h.done hjoins, fun hjoins => ?_⟩
  have hnext : (seqOf o'.items).ends = b.next.seq (seqOf o.items).ends := h.next hjoins
  show (seqOf (r' :: o'.items)).ends = b.next.seq (seqOf (r :: o.items)).ends
  rw [ends_seqOf_cons, ends_seqOf_cons, hnext, hends, Matcher.seq_assoc]

/-- and then they are the last ones. -/
theorem SameLast.push (h : Level b o o') (hends : r'.ends = r.ends) :
    SameLast b { o with items := r :: o.items } { o' with items := r' :: o'.items } := by
  rintro r₁ rs₁ hitems
  cases hitems
  exact ⟨r', o'.items, rfl, hends, fun hjoins => h.next hjoins⟩

/-- Behind a `|` the items before it are an alternative. -/
theorem Level.bar (h : Level b o o') :
    Level b { o with alts := seqOf o.items :: o.alts, items := [] }
      { o' with alts := seqOf o'.items :: o'.alts, items := [] } := by
  have hitems : b.Joins { o with alts := seqOf o.items :: o.alts, items := [] } → b.items = [] :=
    fun hjoins => hjoins.resolve_left (List.cons_ne_nil _ _)
  refine ⟨fun hjoins => ?_, fun hjoins => ?_⟩
  · have hb := hitems hjoins
    have hdone := h.done (.inr hb)
    have hnext := h.next (.inr hb)
    rw [Open.next_of_nil hb, Matcher.empty_seq] at hnext
    show o'.done.alt o'.next = b.done.alt (o.done.alt o.next)
    rw [hdone, hnext, Matcher.alt_assoc]
  · rw [Open.next_of_nil (hitems hjoins), Matcher.empty_seq]
    rfl

/-- The last items are replaced. -/
theorem Level.replace (h : Level b o o') (hlast : SameLast b o o') {l l' : Re}
    (hitems : o.items ≠ []) (hends : l'.ends = l.ends) :
    Level b { o with items := l :: o.items.tail } { o' with items := l' :: o'.items.tail } ∧
      SameLast b { o with items := l :: o.items.tail } { o' with items := l' :: o'.items.tail } := by
  obtain ⟨r, rs, hcons⟩ := List.exists_cons_of_ne_nil hitems
  obtain ⟨r', rs', hcons', -, hrest⟩ := hlast r rs hcons
  rw [hcons, hcons', List.tail_cons, List.tail_cons]
  refine ⟨⟨fun hjoins => h.done hjoins, fun hjoins => ?_⟩, ?_⟩
  · show (seqOf (l' :: rs')).ends = b.next.seq (seqOf (l :: rs)).ends
    rw [ends_seqOf_cons, ends_seqOf_cons, hrest hjoins, hends, Matcher.seq_assoc]
  · rintro r₁ rs₁ hitems₁
    cases hitems₁
    exact ⟨l', rs', rfl, hends, hrest⟩

end

/-! ### Parsers -/

/-- The open groups below the current one. `base` is what the current one is read behind: `b` when it is
the place itself, nothing when it is a group that was opened there. -/
inductive Below (b : Open) (outer : List Open) : Open → List Open → List Open → Prop
  | place : Below b outer b [] outer
  | group {base o o' : Open} {l l' : List Open} (level : Level base o o')
      (below : Below b outer base l l') : Below b outer .fresh (o :: l) (o' :: l')

inductive Mode.Same : Mode → Mode → Prop
  | same {mode : Mode} (h : ∀ l, mode ≠ .quantified (some l)) : Same mode mode
  | quantified {l l' : Re} (hends : l'.ends = l.ends) :
      Same (.quantified (some l)) (.quantified (some l'))

/-- The next character may quantify the last item. -/
def Mode.quantifies : Mode → Bool
  | .normal | .quantified _ | .bounds _ | .boundsTo _ _ => true
  | _ => false

/-- `p'` has read above `b` and `outer` what `p` has read on its own. -/
inductive Parser.Over (b : Open) (outer : List Open) (p p' : Parser) : Prop
  | intro {base : Open} (below : Below b outer base p.outer p'.outer)
      (level : Level base p.current p'.current)

/-- Also what they read next is the same: their modes agree, and where the next character may quantify
an item, their last items do. -/
inductive Parser.Tracks (b : Open) (outer : List Open) (p p' : Parser) : Prop
  | intro {base : Open} (below : Below b outer base p.outer p'.outer)
      (level : Level base p.current p'.current) (mode : p.mode.Same p'.mode)
      (last : p.mode.quantifies = true → SameLast base p.current p'.current)
      (items : ∀ l, p.mode = .quantified l → p.current.items ≠ [])

/-- Only all alternatives of the group together take the same. -/
inductive Parser.Covers (b : Open) (outer : List Open) (p p' : Parser) : Prop
  | intro (below : Below b outer .fresh p.outer p'.outer)
      (ends : p'.current.re.ends = p.current.re.ends)

section
variable {b : Open} {outer : List Open} {p p' q : Parser} {r r' : Re} {c : Char} {text : List Char}

/-- What is alike in all is alike in what has been read. -/
theorem Parser.Tracks.over (h : p.Tracks b outer p') : p.Over b outer p' := by
  obtain ⟨below, level⟩ := h
  exact .intro below level

/-- A parser is like itself at the start. -/
theorem Parser.tracks_init : Parser.init.Tracks .fresh [] Parser.init :=
  .intro .place (.group none none) (.same nofun) (fun _ => nofun) nofun

/-- The number of groups does not matter. -/
theorem Parser.Tracks.groups (h : p.Tracks b outer p') (groups : Nat) :
    p.Tracks b outer { p' with groups := groups } := by
  obtain ⟨below, level, mode, last, items⟩ := h
  exact .intro below level mode last items

/-- Items that take the same make the parsers alike. -/
theorem Parser.Over.push (h : p.Over b outer p') (hends : r'.ends = r.ends) :
    (p.push r).Tracks b outer (p'.push r') := by
  obtain ⟨below, level⟩ := h
  exact .intro below (level.push hends) (.same nofun) (fun _ => .push level hends) nofun

/-- Behind an anchor nothing can be quantified. -/
theorem Parser.Over.pushAnchor (h : p.Over b outer p') (r : Re) :
    Parser.Tracks b outer { p.push r with mode := .quantified none }
      { p'.push r with mode := .quantified none } := by
  obtain ⟨below, level⟩ := h
  exact .intro below (level.push rfl) (.same nofun) (fun _ => .push level rfl)
    fun _ _ => List.cons_ne_nil _ _

/-- Both open a group. -/
theorem Parser.Over.openGroup (h : p.Over b outer p') (groups groups' : Nat)
    (group group' : Option Nat) :
    (p.openGroup groups group).Tracks b outer (p'.openGroup groups' group') := by
  obtain ⟨below, level⟩ := h
  exact .intro (.group level below) (.group group group') (.same nofun) (fun _ => nofun) nofun

/-- The number of a group does not change where its text ends. -/
theorem ends_elim_group (group : Option Nat) (r : Re) : (group.elim r (Re.group · r)).ends = r.ends := by
  cases group <;> rfl

/-- A group that is closed is an item of the one below it. -/
theorem Below.closeGroup {base : Open} (h : Below b outer base p.outer p'.outer)
    (hends : base = .fresh → p'.current.re.ends = p.current.re.ends)
    (hclose : p.closeGroup = some q) :
    ∃ q', p'.closeGroup = some q' ∧ q.Tracks b outer q' := by
  obtain ⟨groups, pouter, current, mode⟩ := p
  obtain ⟨groups', pouter', current', mode'⟩ := p'
  cases h with
  | place => cases hclose
  | @group base o o' l l' level below =>
    cases hclose
    refine ⟨_, rfl, ?_⟩
    have hre : (current'.group.elim current'.re (Re.group · current'.re)).ends =
        (current.group.elim current.re (Re.group · current.re)).ends := by
      rw [ends_elim_group, ends_elim_group, hends rfl]
    exact .intro below (level.push hre) (.same nofun) (fun _ => .push level hre) nofun

/-- When the text closes a group, so does the parser that reads it in its place. -/
theorem Parser.Over.closeGroup (h : p.Over b outer p') (hclose : p.closeGroup = some q) :
    ∃ q', p'.closeGroup = some q' ∧ q.Tracks b outer q' := by
  obtain ⟨below, level⟩ := h
  refine below.closeGroup (fun hbase => ?_) hclose
  subst hbase
  exact level.ends_re rfl rfl

/-- A `|` ends an alternative of both. -/
theorem Parser.Over.bar (h : p.Over b outer p') :
    Parser.Tracks b outer
      { p with
        current := { p.current with alts := seqOf p.current.items :: p.current.alts, items := [] }
        mode := .normal }
      { p' with
        current := { p'.current with alts := seqOf p'.current.items :: p'.current.alts, items := [] }
        mode := .normal } := by
  obtain ⟨below, level⟩ := h
  exact .intro below level.bar (.same nofun) (fun _ => nofun) nofun

/-- A character that does not quantify the last item. -/
theorem Parser.Over.stepNormal (h : p.Over b outer p') (hquantifier : isQuantifier c = false)
    (hstep : p.stepNormal c = some q) :
    ∃ q', p'.stepNormal c = some q' ∧ q.Tracks b outer q' := by
  have hmode : ∀ mode : Mode, (∀ l, mode ≠ .quantified l) → mode.quantifies = false →
      Parser.Tracks b outer { p with mode := mode } { p' with mode := mode } := by
    intro mode hne hlast
    obtain ⟨below, level⟩ := h
    refine .intro below level (.same fun l => hne (some l)) (fun htrue => ?_) fun l hl => absurd hl (hne l)
    rw [hlast] at htrue
    cases htrue
  unfold Parser.stepNormal at hstep
  split at hstep
  case h_1 | h_2 | h_3 | h_4 | h_5 => cases hquantifier
  case h_6 =>
    cases hstep
    exact ⟨_, rfl, hmode .paren nofun rfl⟩
  case h_7 => exact h.closeGroup hstep
  case h_8 =>
    cases hstep
    exact ⟨_, rfl, h.bar⟩
  case h_9 =>
    cases hstep
    exact ⟨_, rfl, hmode (.inClass _) nofun rfl⟩
  case h_10 =>
    cases hstep
    exact ⟨_, rfl, hmode .escape nofun rfl⟩
  case h_11 | h_12 =>
    cases hstep
    exact ⟨_, rfl, h.pushAnchor _⟩
  case h_13 =>
    cases hstep
    exact ⟨_, rfl, h.push rfl⟩
  case h_14 =>
    cases hstep
    refine ⟨_, ?_, h.push rfl⟩
    unfold Parser.stepNormal
    split <;> first | rfl | contradiction

/-- The modes are equal where no quantifier has just been read, -/
theorem Mode.Same.eq_of_ne {mode mode' : Mode} (h : mode.Same mode')
    (hnot : ∀ l, mode ≠ .quantified (some l)) : mode' = mode := by
  cases h with
  | same => rfl
  | quantified => exact absurd rfl (hnot _)

/-- and behind a quantifier they hold items that take the same. -/
theorem Mode.Same.lazy {mode mode' : Mode} (h : mode.Same mode') {l : Re}
    (hl : mode = .quantified (some l)) :
    ∃ l', mode' = .quantified (some l') ∧ l'.ends = l.ends := by
  cases h with
  | same hnot => exact absurd hl (hnot l)
  | quantified hends =>
    cases hl
    exact ⟨_, rfl, hends⟩

/-- A `?` that is not behind a quantifier is a quantifier. -/
theorem Parser.stepNormal_question (h : ∀ l, p.mode ≠ .quantified (some l)) :
    p.stepNormal '?' = p.quantifiable.map (p.quantifyLast · 0 (some 1)) := by
  unfold Parser.stepNormal
  split
  · rename_i hmode
    exact absurd hmode (h _)
  · rfl
  all_goals contradiction

/-- A quantifier for the last item. -/
theorem Parser.Tracks.quantifyLast (h : p.Tracks b outer p') (hmode : p.mode.quantifies = true)
    {rs : List Re} (hitems : p.current.items = r :: rs) :
    ∃ r' rs', p'.current.items = r' :: rs' ∧ ∀ min max,
      (p.quantifyLast r min max).Tracks b outer (p'.quantifyLast r' min max) := by
  obtain ⟨below, level, -, last⟩ := h
  have hne : p.current.items ≠ [] := by simp [hitems]
  obtain ⟨r', rs', hitems', hends, -⟩ := last hmode r rs hitems
  refine ⟨r', rs', hitems', fun min max => ?_⟩
  obtain ⟨hlevel, hlast⟩ := level.replace (last hmode) hne (ends_quantify hends true min max)
  exact .intro below hlevel (.quantified (ends_quantify hends false min max)) (fun _ => hlast)
    fun _ _ => List.cons_ne_nil _ _

/-- Both find an item to quantify, and what they read stays alike. -/
theorem Parser.Tracks.quantifiable (h : p.Tracks b outer p') (hmode : p.mode.quantifies = true)
    (hr : p.quantifiable = some r) :
    ∃ r', p'.quantifiable = some r' ∧ ∀ min max,
      (p.quantifyLast r min max).Tracks b outer (p'.quantifyLast r' min max) := by
  obtain ⟨hnot, rs, hitems⟩ := Parser.quantifiable_eq_some hr
  obtain ⟨r', rs', hitems', htracks⟩ := h.quantifyLast hmode hitems
  refine ⟨r', Parser.quantifiable_of_items ?_ hitems', htracks⟩
  obtain ⟨-, -, mode⟩ := h
  rwa [mode.eq_of_ne fun l => hnot (some l)]

/-- A `?` behind a quantifier makes it lazy. -/
theorem Parser.Tracks.stepNormal_lazy (h : p.Tracks b outer p') {l : Re}
    (hp : p.mode = .quantified (some l)) (hstep : p.stepNormal '?' = some q) :
    ∃ q', p'.stepNormal '?' = some q' ∧ q.Tracks b outer q' := by
  obtain ⟨below, level, mode, last, items⟩ := h
  obtain ⟨l', hp', hends⟩ := mode.lazy hp
  have hquantifies : p.mode.quantifies = true := by rw [hp]; rfl
  obtain ⟨hlevel, hlast⟩ := level.replace (last hquantifies) (items _ hp) hends
  unfold Parser.stepNormal at hstep ⊢
  rw [hp] at hstep
  rw [hp']
  cases hstep
  exact ⟨_, rfl, .intro below hlevel (.same nofun) (fun _ => hlast) fun _ _ => List.cons_ne_nil _ _⟩

/-- The same as one step of the parsers. -/
theorem Parser.Tracks.map_quantifyLast (h : p.Tracks b outer p') (hmode : p.mode.quantifies = true)
    {min : Nat} {max : Option Nat} (hq : p.quantifiable.map (p.quantifyLast · min max) = some q) :
    ∃ q', p'.quantifiable.map (p'.quantifyLast · min max) = some q' ∧ q.Tracks b outer q' := by
  obtain ⟨r, hr, rfl⟩ := Option.map_eq_some_iff.mp hq
  obtain ⟨r', hr', htracks⟩ := h.quantifiable hmode hr
  exact ⟨_, by rw [hr']; rfl, htracks min max⟩

/-- A character outside a bracket or a bound. -/
theorem Parser.Tracks.stepNormal (h : p.Tracks b outer p') (hmode : p.mode.quantifies = true)
    (hstep : p.stepNormal c = some q) :
    ∃ q', p'.stepNormal c = some q' ∧ q.Tracks b outer q' := by
  cases hquantifier : isQuantifier c with
  | false => exact h.over.stepNormal hquantifier hstep
  | true =>
    rcases isQuantifier_iff.mp hquantifier with rfl | rfl | rfl | rfl
    · by_cases hlazy : ∃ l, p.mode = .quantified (some l)
      · obtain ⟨l, hp⟩ := hlazy
        exact h.stepNormal_lazy hp hstep
      · have hnot : ∀ l, p.mode ≠ .quantified (some l) := fun l hl => hlazy ⟨l, hl⟩
        have hsame : p'.mode = p.mode := by
          obtain ⟨-, -, mode⟩ := id h
          exact mode.eq_of_ne hnot
        rw [Parser.stepNormal_question hnot] at hstep
        rw [Parser.stepNormal_question (hsame ▸ hnot)]
        exact h.map_quantifyLast hmode hstep
    · exact h.map_quantifyLast hmode hstep
    · exact h.map_quantifyLast hmode hstep
    · obtain ⟨r, hr, rfl⟩ := Option.map_eq_some_iff.mp hstep
      obtain ⟨r', hr', -⟩ := h.quantifiable hmode hr
      obtain ⟨below, level, -, last⟩ := h
      refine ⟨{ p' with mode := .bounds none }, ?_, .intro below level (.same nofun) (fun _ => last hmode)
        nofun⟩
      show p'.quantifiable.map _ = _
      rw [hr']
      rfl

/-- Whether a parser can begin with an item depends on what the modes share. -/
theorem Mode.Same.ready (h : p.mode.Same p'.mode) (hready : p.Ready) : p'.Ready := by
  by_cases hlazy : ∃ l, p.mode = .quantified (some l)
  · obtain ⟨l, hp⟩ := hlazy
    obtain ⟨l', hp', -⟩ := h.lazy hp
    exact .inr ⟨_, hp'⟩
  · have hsame : p'.mode = p.mode := h.eq_of_ne fun l hl => hlazy ⟨l, hl⟩
    unfold Parser.Ready
    rwa [hsame]

def Mode.ready : Mode → Bool
  | .normal | .quantified _ => true
  | _ => false

/-- `Ready` as a decision. -/
theorem Parser.ready_iff : p.mode.ready = true ↔ p.Ready := by
  unfold Parser.Ready
  cases p.mode <;> simp [Mode.ready]

/-- A text ends where an item could begin and no group is open. -/
theorem Parser.finish_eq_some (h : p.finish = some r) :
    p.Ready ∧ p.outer = [] ∧ r = p.current.re := by
  unfold Parser.finish at h
  split at h
  · rename_i hmode houter
    cases h
    exact ⟨.inl hmode, houter, rfl⟩
  · rename_i hmode houter
    cases h
    exact ⟨.inr ⟨_, hmode⟩, houter, rfl⟩
  · cases h

/-- There it does end. -/
theorem Parser.finish_of_ready (h : p.Ready) (houter : p.outer = []) :
    p.finish = some p.current.re := by
  rcases h with h | ⟨l, h⟩ <;> rw [finish, h, houter]

/-- Where an item can begin, a quantifier can stand, -/
theorem Parser.Ready.quantifies (h : p.Ready) : p.mode.quantifies = true := by
  rcases h with h | ⟨l, h⟩ <;> rw [h] <;> rfl

/-- it is not directly behind a `(`, -/
theorem Parser.Ready.behindParen (h : p.Ready) : p.mode.behindParen = false := by
  rcases h with h | ⟨l, h⟩ <;> rw [h] <;> rfl

/-- and the scan for groups is outside classes and escapes. -/
theorem Parser.Ready.lex (h : p.Ready) : p.mode.lex = .normal := by
  rcases h with h | ⟨l, h⟩ <;> rw [h] <;> rfl

/-- What a bracket reads does not depend on the parser around it. -/
theorem Parser.stepClass_cases {k : OpenClass} (h : p.stepClass k c = some q) :
    (∃ k', q = { p with mode := .inClass k' } ∧
      ∀ p' : Parser, p'.stepClass k c = some { p' with mode := .inClass k' }) ∨
    ∃ k', q = p.push (.char k') ∧ ∀ p' : Parser, p'.stepClass k c = some (p'.push (.char k')) := by
  have hadd : ∀ {k' : Option OpenClass}, k'.map (fun k => { p with mode := .inClass k }) = some q →
      ∃ k₁, q = { p with mode := .inClass k₁ } ∧
        ∀ p' : Parser, k'.map (fun k => { p' with mode := .inClass k }) =
          some { p' with mode := .inClass k₁ } := by
    intro k' hk'
    obtain ⟨k₁, rfl, rfl⟩ := Option.map_eq_some_iff.mp hk'
    exact ⟨k₁, rfl, fun _ => rfl⟩
  unfold Parser.stepClass at h ⊢
  split at h
  · rename_i hescape
    simp only [if_pos hescape]
    exact .inl (hadd h)
  · rename_i hescape
    rw [Option.ite_none_left_eq_some] at h
    obtain ⟨hname, h⟩ := h
    simp only [if_neg hescape, if_neg hname]
    split at h
    · cases h
      exact .inl ⟨_, rfl, fun _ => rfl⟩
    · split at h
      · cases h
      · rename_i hfirst
        cases h
        simp only [if_neg hfirst]
        exact .inr ⟨_, rfl, fun _ => rfl⟩
    · split at h
      · rename_i hfirst
        cases h
        simp only [if_pos hfirst]
        exact .inl ⟨_, rfl, fun _ => rfl⟩
      · rename_i hfirst
        simp only [if_neg hfirst]
        exact .inl (hadd h)
    · split at h
      · rename_i hdash
        cases h
        simp only [if_pos hdash]
        exact .inl ⟨_, rfl, fun _ => rfl⟩
      · rename_i hdash
        simp only [if_neg hdash]
        exact .inl (hadd h)
    · exact .inl (hadd h)

/-- A mode with other data than the current one, in which the items are as before. -/
theorem Parser.Tracks.move (h : p.Tracks b outer p') {mode : Mode} (hne : ∀ l, mode ≠ .quantified l)
    (hlast : mode.quantifies = true → p.mode.quantifies = true) :
    Parser.Tracks b outer { p with mode := mode } { p' with mode := mode } := by
  obtain ⟨below, level, -, last⟩ := h
  exact .intro below level (.same fun l => hne (some l)) (fun hmode => last (hlast hmode))
    fun l hl => absurd hl (hne l)

/-- The end of a bound quantifies the last item. -/
theorem Parser.Tracks.endBounds (h : p.Tracks b outer p') (hmode : p.mode.quantifies = true)
    {min : Nat} {max : Option Nat}
    (hq : p.current.items.head?.map (p.quantifyLast · min max) = some q) :
    ∃ q', p'.current.items.head?.map (p'.quantifyLast · min max) = some q' ∧ q.Tracks b outer q' := by
  obtain ⟨r, hr, rfl⟩ := Option.map_eq_some_iff.mp hq
  obtain ⟨rs, hitems⟩ := List.head?_eq_some_iff.mp hr
  obtain ⟨r', rs', hitems', htracks⟩ := h.quantifyLast hmode hitems
  exact ⟨_, by rw [hitems']; rfl, htracks min max⟩

/-- One character of a bound in front of its comma. -/
theorem Parser.Tracks.stepBounds (h : p.Tracks b outer p') (hmode : p.mode.quantifies = true)
    {min : Option Nat} (hstep : p.stepBounds min c = some q) :
    ∃ q', p'.stepBounds min c = some q' ∧ q.Tracks b outer q' := by
  unfold Parser.stepBounds at hstep ⊢
  split at hstep
  · cases hstep
    exact ⟨_, rfl, h.move (by simp) fun _ => hmode⟩
  · exact h.endBounds hmode hstep
  · obtain ⟨m, hm, rfl⟩ := Option.map_eq_some_iff.mp hstep
    exact ⟨_, by rw [hm]; rfl, h.move (by simp) fun _ => hmode⟩

/-- One character of a bound behind its comma. -/
theorem Parser.Tracks.stepBoundsTo (h : p.Tracks b outer p') (hmode : p.mode.quantifies = true)
    {min : Nat} {max : Option Nat} (hstep : p.stepBoundsTo min max c = some q) :
    ∃ q', p'.stepBoundsTo min max c = some q' ∧ q.Tracks b outer q' := by
  unfold Parser.stepBoundsTo at hstep ⊢
  split at hstep
  · split at hstep
    · rename_i hmax
      rw [if_pos hmax]
      exact h.endBounds hmode hstep
    · cases hstep
  · obtain ⟨m, hm, rfl⟩ := Option.map_eq_some_iff.mp hstep
    exact ⟨_, by rw [hm]; rfl, h.move (by simp) fun _ => hmode⟩

/-- What is read next is the same. -/
theorem Parser.Tracks.step (h : p.Tracks b outer p') (hstep : p.step c = some q) :
    ∃ q', p'.step c = some q' ∧ q.Tracks b outer q' := by
  have hmode : p.mode.Same p'.mode := by
    obtain ⟨-, -, mode⟩ := h
    exact mode
  cases hp : p.mode with
  | normal | quantified l =>
    have hready : p.Ready := by simp [Parser.Ready, hp]
    rw [hready.step] at hstep
    rw [(hmode.ready hready).step]
    exact h.stepNormal hready.quantifies hstep
  | escape =>
    have hp' := (hmode.eq_of_ne (by simp [hp])).trans hp
    simp only [Parser.step, hp, hp'] at hstep ⊢
    obtain ⟨k, hk, rfl⟩ := Option.map_eq_some_iff.mp hstep
    exact ⟨_, by rw [hk]; rfl, h.over.push rfl⟩
  | paren =>
    have hp' := (hmode.eq_of_ne (by simp [hp])).trans hp
    simp only [Parser.step, hp, hp'] at hstep ⊢
    split at hstep
    · rename_i hc
      cases hstep
      rw [if_pos hc]
      exact ⟨_, rfl, h.move (by simp) (by simp [Mode.quantifies])⟩
    · rename_i hc
      rw [if_neg hc]
      exact (h.over.openGroup _ _ _ _).stepNormal rfl hstep
  | parenQuestion =>
    have hp' := (hmode.eq_of_ne (by simp [hp])).trans hp
    simp only [Parser.step, hp, hp'] at hstep ⊢
    split at hstep
    · rename_i hc
      cases hstep
      rw [if_pos hc]
      exact ⟨_, rfl, h.over.openGroup _ _ _ _⟩
    · cases hstep
  | inClass k =>
    have hp' := (hmode.eq_of_ne (by simp [hp])).trans hp
    simp only [Parser.step, hp, hp'] at hstep ⊢
    rcases Parser.stepClass_cases hstep with ⟨k', rfl, hclass⟩ | ⟨k', rfl, hclass⟩
    · exact ⟨_, hclass p', h.move (by simp) (by simp [Mode.quantifies])⟩
    · exact ⟨_, hclass p', h.over.push rfl⟩
  | bounds min =>
    have hp' := (hmode.eq_of_ne (by simp [hp])).trans hp
    have hquantifies : p.mode.quantifies = true := by rw [hp]; rfl
    simp only [Parser.step, hp, hp'] at hstep ⊢
    exact h.stepBounds hquantifies hstep
  | boundsTo min max =>
    have hp' := (hmode.eq_of_ne (by simp [hp])).trans hp
    have hquantifies : p.mode.quantifies = true := by rw [hp]; rfl
    simp only [Parser.step, hp, hp'] at hstep ⊢
    exact h.stepBoundsTo hquantifies hstep

/-- A text that the parser reads on its own is read in its place, and what is read stays alike. -/
theorem Parser.Tracks.feed (h : p.Tracks b outer p') (hfeed : p.feed text = some q) :
    ∃ q', p'.feed text = some q' ∧ q.Tracks b outer q' := by
  induction text generalizing p p' with
  | nil =>
    cases hfeed
    exact ⟨p', rfl, h⟩
  | cons c text ih =>
    rw [Parser.feed_cons] at hfeed
    obtain ⟨p₁, hstep, hfeed⟩ := Option.bind_eq_some_iff.mp hfeed
    obtain ⟨p₁', hstep', htracks⟩ := h.step hstep
    obtain ⟨q', hfeed', htracks'⟩ := ih htracks hfeed
    exact ⟨q', by rw [Parser.feed_cons, hstep', Option.bind_some, hfeed'], htracks'⟩

/-- A text that ends the alternative first. -/
theorem Parser.Covers.feed (h : p.Covers b outer p') (hready : p.Ready) (hready' : p'.Ready)
    (hc : c = '|' ∨ c = ')') (hfeed : p.feed (c :: text) = some q) :
    ∃ q', p'.feed (c :: text) = some q' ∧ q.Tracks b outer q' := by
  obtain ⟨below, ends⟩ := h
  have hfirst : ∀ {q₁}, p.stepNormal c = some q₁ →
      ∃ q₁', p'.stepNormal c = some q₁' ∧ q₁.Tracks b outer q₁' := by
    intro q₁ hstep
    rcases hc with rfl | rfl
    · cases hstep
      refine ⟨_, rfl, .intro below ⟨fun _ => ?_, fun _ => rfl⟩ (.same nofun) (fun _ => nofun) nofun⟩
      show p'.current.done.alt p'.current.next = p.current.done.alt p.current.next
      rw [← Open.ends_re, ← Open.ends_re, ends]
    · exact below.closeGroup (fun _ => ends) hstep
  rw [Parser.feed_cons, hready.step] at hfeed
  obtain ⟨p₁, hstep, hfeed⟩ := Option.bind_eq_some_iff.mp hfeed
  obtain ⟨p₁', hstep', htracks⟩ := hfirst hstep
  obtain ⟨q', hfeed', htracks'⟩ := htracks.feed hfeed
  exact ⟨q', by rw [Parser.feed_cons, hready'.step, hstep', Option.bind_some, hfeed'], htracks'⟩

/-- A text that begins with no quantifier is read in the same way, whatever the last items are. -/
theorem Parser.Over.feed (h : p.Over b outer p') (hready : p.Ready) (hready' : p'.Ready)
    (hquantifier : isQuantifier c = false) (hfeed : p.feed (c :: text) = some q) :
    ∃ q', p'.feed (c :: text) = some q' ∧ q.Tracks b outer q' := by
  rw [Parser.feed_cons, hready.step] at hfeed
  obtain ⟨p₁, hstep, hfeed⟩ := Option.bind_eq_some_iff.mp hfeed
  obtain ⟨p₁', hstep', htracks⟩ := h.stepNormal hquantifier hstep
  obtain ⟨q', hfeed', htracks'⟩ := htracks.feed hfeed
  exact ⟨q', by rw [Parser.feed_cons, hready'.step, hstep', Option.bind_some, hfeed'], htracks'⟩

end

/-- Reading only adds groups. -/
theorem Parser.feed_groups_le {p q : Parser} {text : List Char} (h : p.feed text = some q) :
    p.groups ≤ q.groups := by
  induction text generalizing p with
  | nil =>
    cases h
    exact Nat.le_refl _
  | cons c text ih =>
    rw [Parser.feed_cons] at h
    obtain ⟨p₁, hstep, hfeed⟩ := Option.bind_eq_some_iff.mp h
    refine Nat.le_trans ?_ (ih hfeed)
    rw [(Parser.step_lex hstep).2.2]
    exact Nat.le_add_right ..

/-! ### An expression in another -/

section
variable {p q : Parser} {text : List Char}

/-- An expression does not begin with a quantifier. -/
theorem isQuantifier_of_feed {c : Char} (h : Parser.init.feed (c :: text) = some q) :
    isQuantifier c = false := by
  rw [Parser.feed_cons] at h
  obtain ⟨p₁, hstep, -⟩ := Option.bind_eq_some_iff.mp h
  refine Bool.eq_false_iff.mpr fun hquantifier => ?_
  rcases isQuantifier_iff.mp hquantifier with rfl | rfl | rfl | rfl <;> cases hstep

/-- A text that is an expression of its own is read in the middle of another one as on its own. -/
theorem Parser.feed_inPlace (hp : p.Ready) (hfeed : Parser.init.feed text = some q) (hq : q.Ready)
    (houter : q.outer = []) :
    ∃ q', p.feed text = some q' ∧ q'.Ready ∧ q'.outer = p.outer ∧ Level p.current q.current q'.current ∧
      (text ≠ [] → q.mode.Same q'.mode ∧ SameLast p.current q.current q'.current) := by
  have hstart : Level p.current Parser.init.current p.current := .start p.current none
  cases text with
  | nil =>
    cases hfeed
    exact ⟨p, rfl, hp, rfl, hstart, fun hne => absurd rfl hne⟩
  | cons c text =>
    have hover : Parser.init.Over p.current p.outer p := .intro .place hstart
    obtain ⟨q', hfeed', htracks⟩ :=
      hover.feed (.inl rfl) hp (isQuantifier_of_feed hfeed) hfeed
    obtain ⟨below, level, mode, last⟩ := htracks
    rw [houter] at below
    generalize hlist : q'.outer = l at below
    cases below
    exact ⟨q', hfeed', mode.ready hq, hlist, level, fun _ => ⟨mode, last hq.quantifies⟩⟩

/-- In parentheses it is one item. -/
theorem Parser.feed_inParens (hp : p.Ready) (hfeed : Parser.init.feed text = some q) (hq : q.Ready)
    (houter : q.outer = []) :
    ∃ r, p.feed ('(' :: (text ++ [')'])) =
        some { p.push r with groups := p.groups + 1 + q.groups } ∧
      r.ends = q.current.re.ends := by
  have hbehind : ∀ {c : Char} {text : List Char}, c ≠ '?' →
      Parser.feed { p with mode := .paren } (c :: text) =
        (p.openGroup (p.groups + 1) (some (p.groups + 1))).feed (c :: text) := by
    intro c text hc
    have hstep : Parser.step { p with mode := .paren } c =
        (p.openGroup (p.groups + 1) (some (p.groups + 1))).stepNormal c := if_neg hc
    rw [Parser.feed_cons, hstep]
    rfl
  have hopen : p.feed ('(' :: (text ++ [')'])) =
      (p.openGroup (p.groups + 1) (some (p.groups + 1))).feed (text ++ [')']) := by
    rw [Parser.feed_cons, hp.step]
    cases text with
    | nil => exact hbehind (by decide)
    | cons c text =>
      refine hbehind ?_
      rintro rfl
      cases isQuantifier_of_feed hfeed
  have hfresh : (p.openGroup (p.groups + 1) (some (p.groups + 1))).Ready := .inl rfl
  obtain ⟨q', hfeed', hready, houter', level, -⟩ :=
    Parser.feed_inPlace hfresh hfeed hq houter
  have hgroups : q'.groups = p.groups + 1 + q.groups := by
    rw [Parser.feed_groups hfeed' hready.behindParen, Parser.feed_groups hfeed hq.behindParen,
      hfresh.lex]
    simp [Parser.init, Parser.openGroup, Mode.behindParen, Mode.lex]
  have hclose : q'.closeGroup = some { p.push (q'.current.group.elim q'.current.re (.group · q'.current.re))
      with groups := p.groups + 1 + q.groups } := by
    rw [Parser.closeGroup, houter', ← hgroups]
    rfl
  refine ⟨q'.current.group.elim q'.current.re (.group · q'.current.re), ?_, ?_⟩
  · rw [hopen, Parser.feed_append, hfeed', Option.bind_some, Parser.feed_cons, hready.step]
    show q'.closeGroup.bind _ = _
    rw [hclose]
    rfl
  · rw [ends_elim_group, level.ends_re rfl rfl]

end

/-! ### An expression as an item -/

section
variable {b : Open} {outer : List Open} {m p q p' : Parser} {r : Re}

/-- The items of an expression without a `|` take what the expression takes as one item. -/
theorem Level.inPlace {base o o₁ o₂ o' : Open} (h : Level base o o₁) (hplace : Level o₁ o₂ o')
    (halts : o₂.alts = []) (hends : o₂.re.ends = r.ends) :
    Level base { o with items := r :: o.items } o' := by
  refine ⟨fun hjoins => ?_, fun hjoins => ?_⟩
  · rw [hplace.done (.inl halts), Open.done_of_nil halts, Matcher.alt_none]
    exact h.done hjoins
  · have hpush : (seqOf (r :: o.items)).ends = o.next.seq r.ends := ends_seqOf_cons r o.items
    rw [hplace.next (.inl halts), ← Open.ends_re_of_nil halts, hends, h.next hjoins,
      Matcher.seq_assoc, ← hpush]
    rfl

/-- An expression read in place of one item takes the same as that item. -/
theorem Parser.Over.inPlace (h : m.Over b outer p) (hplace : Level p.current q.current p'.current)
    (houter : p'.outer = p.outer) (halts : q.current.alts = []) (hends : q.current.re.ends = r.ends) :
    (m.push r).Over b outer p' := by
  obtain ⟨below, level⟩ := h
  rw [← houter] at below
  exact .intro below (level.inPlace hplace halts hends)

/-- One item may be quantified. -/
theorem Parser.Over.inPlace_unit (h : m.Over b outer p)
    (hplace : Level p.current q.current p'.current) (hlast : SameLast p.current q.current p'.current)
    (houter : p'.outer = p.outer) (hmode : p'.mode = .normal) (halts : q.current.alts = []) {x : Re}
    (hitems : q.current.items = [x]) (hends : q.current.re.ends = r.ends) :
    (m.push r).Tracks b outer p' := by
  obtain ⟨below, level⟩ := h
  rw [← houter] at below
  refine .intro below (level.inPlace hplace halts hends) (hmode ▸ .same nofun) (fun _ => ?_) nofun
  obtain ⟨x', rs', hitems', hx, hrest⟩ := hlast x [] hitems
  rintro r₁ rs₁ hcons
  cases hcons
  refine ⟨x', rs', hitems', ?_, fun hjoins => ?_⟩
  · rw [hx, ← hends, Open.ends_re_of_nil halts, Open.next, hitems]
    rfl
  · rw [hrest (.inl halts)]
    exact (Matcher.seq_empty _).trans (level.next hjoins)

/-- Above nothing the parser reads an expression of its own. -/
theorem Below.base_eq {base : Open} {l l' : List Open} (h : Below .fresh outer base l l') :
    base = .fresh := by
  cases h <;> rfl

/-- Where nothing stands in front, the alternatives of an expression may be those of the group. -/
theorem Parser.Over.inPlace_alternatives (h : m.Over .fresh outer p)
    (hplace : Level p.current q.current p'.current) (houter : p'.outer = p.outer)
    (hitems : p.current.items = []) (hends : q.current.re.ends = r.ends) :
    (m.push r).Covers .fresh outer p' := by
  obtain ⟨below, level⟩ := h
  obtain rfl := below.base_eq
  rw [← houter] at below
  have hdone : p.current.done = m.current.done := level.done (.inr rfl)
  have hnext : p.current.next = m.current.next :=
    (level.next (.inr rfl)).trans (Matcher.empty_seq _)
  have hempty : m.current.next = .empty := hnext ▸ Open.next_of_nil hitems
  refine .intro below ?_
  have hpush : (m.push r).current.next = r.ends := by
    show (seqOf (r :: m.current.items)).ends = r.ends
    rw [ends_seqOf_cons]
    show m.current.next.seq r.ends = r.ends
    rw [hempty, Matcher.empty_seq]
  rw [Open.ends_re, Open.ends_re, hplace.done (.inr hitems), hplace.next (.inr hitems), hnext, hempty,
    Matcher.empty_seq, Matcher.alt_assoc, ← Open.ends_re, hends, hdone, hpush]
  rfl

end

end Regex
