import NodeNative.Lib.RegexSplicing

/-!
# Reading inside an open group

A text without capturing groups that is an expression of its own is read the same way inside an open
group (`Parser.within`): what the parser has open below does not matter, because the text closes no
group it did not open, and the number the enclosing group has got does not either. In parentheses the
text is one item, the group around its expression (`feed_capture`).
-/

namespace Regex

/-- The stack of open expressions on top of `l`, with the group of the lowest one. -/
def nest (group : Option Nat) (l : List Open) : Open → List Open → Open × List Open
  | o, [] => ({ o with group := group }, l)
  | o, o' :: os => (o, (nest group l o' os).1 :: (nest group l o' os).2)

/-- The parser inside group `group`, with `l` open around it and `groups` groups so far. -/
def Parser.within (groups : Nat) (group : Option Nat) (l : List Open) (p : Parser) : Parser :=
  ⟨groups, (nest group l p.current p.outer).2, (nest group l p.current p.outer).1, p.mode⟩

section
variable {group : Option Nat} {l : List Open} {groups : Nat} {p q : Parser} {c : Char}
  {text : List Char}

/-- Only the group of the lowest expression is another one. -/
theorem nest_update (f : Open → Open)
    (hf : ∀ o, f { o with group := group } = { f o with group := group }) (o : Open)
    (os : List Open) : nest group l (f o) os = (f (nest group l o os).1, (nest group l o os).2) := by
  cases os with
  | nil => rw [nest, nest, hf]
  | cons o' os => rfl

@[simp] theorem nest_alts (o : Open) (os : List Open) : (nest group l o os).1.alts = o.alts := by
  cases os <;> rfl

@[simp] theorem nest_items (o : Open) (os : List Open) : (nest group l o os).1.items = o.items := by
  cases os <;> rfl

@[simp] theorem within_mode : (p.within groups group l).mode = p.mode := rfl

@[simp] theorem within_alts : (p.within groups group l).current.alts = p.current.alts :=
  nest_alts ..

@[simp] theorem within_items : (p.within groups group l).current.items = p.current.items :=
  nest_items ..

/-- An update of the current expression that keeps its group. -/
theorem within_update (alts items : List Re) (mode : Mode) :
    Parser.within groups group l
        { p with current := ⟨p.current.group, alts, items⟩, mode := mode } =
      { p.within groups group l with
        current := ⟨(p.within groups group l).current.group, alts, items⟩
        mode := mode } := by
  unfold Parser.within
  rw [nest_update (fun o => ⟨o.group, alts, items⟩) fun _ => rfl]

/-- An item is added inside the group as on its own. -/
theorem within_push (r : Re) :
    (p.push r).within groups group l = (p.within groups group l).push r := by
  refine (within_update p.current.alts (r :: p.current.items) .normal).trans ?_
  simp only [Parser.push, within_alts, within_items]

/-- What the next character may quantify is the same inside the group. -/
theorem within_quantifiable : (p.within groups group l).quantifiable = p.quantifiable := by
  unfold Parser.quantifiable
  rw [within_mode, within_items]

/-- The last item is quantified inside the group as on its own. -/
theorem within_quantifyLast (r : Re) (min : Nat) (max : Option Nat) :
    (p.quantifyLast r min max).within groups group l =
      (p.within groups group l).quantifyLast r min max := by
  refine (within_update p.current.alts (quantify true r min max :: p.current.items.tail) _).trans ?_
  simp only [Parser.quantifyLast, within_alts, within_items]

/-- The group that is closed was opened inside. -/
theorem within_closeGroup (h : p.closeGroup = some q) :
    (p.within groups group l).closeGroup = some (q.within groups group l) := by
  unfold Parser.closeGroup at h
  cases houter : p.outer with
  | nil => simp [houter] at h
  | cons o os =>
    rw [houter] at h
    cases h
    have hnest := @nest_update group l
      (fun o => { o with items := p.current.group.elim p.current.re (.group · p.current.re) :: o.items })
      (fun _ => rfl) o os
    simp only [Parser.closeGroup, Parser.within, houter, nest]
    rw [hnest]

/-- A `|` ends an alternative inside the group as on its own. -/
theorem within_bar : Parser.within groups group l
      { p with
        current := { p.current with alts := seqOf p.current.items :: p.current.alts, items := [] }
        mode := .normal } =
    { p.within groups group l with
      current := { (p.within groups group l).current with
        alts := seqOf (p.within groups group l).current.items ::
          (p.within groups group l).current.alts
        items := [] }
      mode := .normal } := by
  rw [within_update, within_alts, within_items]

/-- So is the item that `?`, `*` or `+` finds. -/
theorem within_map_quantifyLast {min : Nat} {max : Option Nat}
    (h : p.quantifiable.map (p.quantifyLast · min max) = some q) :
    (p.within groups group l).quantifiable.map ((p.within groups group l).quantifyLast · min max) =
      some (q.within groups group l) := by
  obtain ⟨r, hr, rfl⟩ := Option.map_eq_some_iff.mp h
  rw [within_quantifiable, hr, within_quantifyLast]
  rfl

/-- The closing brace of a bound does the same inside the group. -/
theorem within_endBounds {min : Nat} {max : Option Nat}
    (h : p.current.items.head?.map (p.quantifyLast · min max) = some q) :
    (p.within groups group l).current.items.head?.map
        ((p.within groups group l).quantifyLast · min max) =
      some (q.within groups group l) := by
  obtain ⟨r, hr, rfl⟩ := Option.map_eq_some_iff.mp h
  rw [within_items, hr, within_quantifyLast]
  rfl

/-! ### Steps -/

/-- A character outside a bracket or a bound. -/
theorem Parser.stepNormal_within (h : p.stepNormal c = some q) :
    (p.within groups group l).stepNormal c = some (q.within groups group l) := by
  unfold Parser.stepNormal at h
  split at h
  case h_1 r hmode =>
    cases h
    have hmode' : (p.within groups group l).mode = .quantified (some r) := hmode
    refine Eq.trans ?_ (congrArg some (within_update _ _ _).symm)
    simp only [Parser.stepNormal, hmode', within_alts, within_items]
  case h_2 hmode =>
    have hquestion : ∀ r, (p.within groups group l).mode ≠ .quantified (some r) := fun r hr => hmode r hr
    rw [Parser.stepNormal_question hquestion]
    exact within_map_quantifyLast h
  case h_3 => exact within_map_quantifyLast h
  case h_4 => exact within_map_quantifyLast h
  case h_5 =>
    obtain ⟨r, hr, rfl⟩ := Option.map_eq_some_iff.mp h
    have hbound : (p.within groups group l).stepNormal '\x7b' =
        (p.within groups group l).quantifiable.map fun _ =>
          { p.within groups group l with mode := .bounds none } := rfl
    rw [hbound, within_quantifiable, hr]
    rfl
  case h_7 => exact within_closeGroup h
  case h_8 =>
    cases h
    rw [within_bar]
    rfl
  case h_11 =>
    cases h
    exact congrArg (fun p' : Parser => some { p' with mode := .quantified none }) (within_push .bol).symm
  case h_12 =>
    cases h
    exact congrArg (fun p' : Parser => some { p' with mode := .quantified none }) (within_push .eol).symm
  case h_13 =>
    cases h
    rw [within_push]
    rfl
  case h_14 =>
    cases h
    rw [within_push]
    unfold Parser.stepNormal
    split <;> first | rfl | contradiction
  all_goals
    cases h
    rfl

/-- A character. It does not open a capturing group. -/
theorem Parser.step_within (h : p.step c = some q) (hgroups : q.groups = p.groups) :
    (p.within groups group l).step c = some (q.within groups group l) := by
  have hopens := (Parser.step_lex h).2.2
  unfold Parser.step at h ⊢
  rw [within_mode]
  cases hm : p.mode with
  | normal | quantified r =>
    rw [hm] at h
    exact Parser.stepNormal_within h
  | escape =>
    rw [hm] at h
    obtain ⟨k, hk, rfl⟩ := Option.map_eq_some_iff.mp h
    rw [hk, within_push]
    rfl
  | paren =>
    rw [hm] at h hopens
    dsimp only at h ⊢
    split at h
    · rename_i hc
      cases h
      rw [if_pos hc]
      rfl
    · rename_i hc
      rw [if_pos (by simpa [Mode.behindParen] using hc)] at hopens
      omega
  | parenQuestion =>
    rw [hm] at h
    dsimp only at h ⊢
    split at h
    · rename_i hc
      cases h
      rw [if_pos hc]
      rfl
    · cases h
  | inClass k =>
    rw [hm] at h
    rcases Parser.stepClass_cases h with ⟨k', rfl, hk⟩ | ⟨k', rfl, hk⟩
    · exact hk _
    · rw [within_push]
      exact hk _
  | bounds min =>
    rw [hm] at h
    dsimp only at h ⊢
    unfold Parser.stepBounds at h ⊢
    split at h
    · cases h
      rfl
    · exact within_endBounds h
    · obtain ⟨n, hn, rfl⟩ := Option.map_eq_some_iff.mp h
      rw [hn]
      rfl
  | boundsTo min max =>
    rw [hm] at h
    dsimp only at h ⊢
    unfold Parser.stepBoundsTo at h ⊢
    split at h
    · split at h
      · rename_i hmax
        rw [if_pos hmax]
        exact within_endBounds h
      · cases h
    · obtain ⟨n, hn, rfl⟩ := Option.map_eq_some_iff.mp h
      rw [hn]
      rfl

/-- A step of a text that opens no capturing group opens none. -/
theorem Parser.step_groups {p₁ : Parser} (hstep : p.step c = some p₁) (hfeed : p₁.feed text = some q)
    (hgroups : q.groups = p.groups) : p₁.groups = p.groups := by
  have hle := Parser.feed_groups_le hfeed
  rw [(Parser.step_lex hstep).2.2] at hle ⊢
  omega

/-- The groups that the parser counts are those of the text. -/
theorem groups_of_groupCount {r : Re} {n : Nat} (hfeed : Parser.init.feed text = some q)
    (hfinish : q.finish = some r) (h : groupCount text = some n) : q.groups = n := by
  rw [groupCount, hfeed, Option.bind_some, hfinish] at h
  exact Option.some.inj h

/-- A text without capturing groups. -/
theorem Parser.feed_within (h : p.feed text = some q) (hgroups : q.groups = p.groups) :
    (p.within groups group l).feed text = some (q.within groups group l) := by
  induction text generalizing p with
  | nil =>
    cases h
    rfl
  | cons c text ih =>
    rw [Parser.feed_cons] at h
    obtain ⟨p₁, hstep, hfeed⟩ := Option.bind_eq_some_iff.mp h
    have hfirst : p₁.groups = p.groups := Parser.step_groups hstep hfeed hgroups
    rw [Parser.feed_cons, Parser.step_within hstep hfirst, Option.bind_some]
    exact ih hfeed (hgroups.trans hfirst.symm)

/-! ### A capturing group -/

/-- The parenthesis in front of a text opens a capturing group. -/
theorem Parser.feed_openParen (hp : p.Ready) (htext : text ≠ []) (hquestion : text.head? ≠ some '?') :
    p.feed ('(' :: text) = (p.openGroup (p.groups + 1) (some (p.groups + 1))).feed text := by
  obtain ⟨c, text, rfl⟩ := List.exists_cons_of_ne_nil htext
  have hc : c ≠ '?' := fun hc => hquestion (by rw [hc]; rfl)
  have hstep : Parser.step { p with mode := .paren } c =
      (p.openGroup (p.groups + 1) (some (p.groups + 1))).stepNormal c := if_neg hc
  rw [Parser.feed_cons, hp.step]
  show Parser.feed { p with mode := .paren } (c :: text) = _
  rw [Parser.feed_cons, hstep]
  rfl

/-- The expression in parentheses is one item, the group around it. -/
theorem Parser.feed_capture {r : Re} (hp : p.Ready) (hparse : parse text = some r)
    (hgroups : groupCount text = some 0) :
    p.feed ('(' :: (text ++ [')'])) =
      some { p.push (.group (p.groups + 1) r) with groups := p.groups + 1 } := by
  obtain ⟨q, hfeed, hfinish⟩ := Option.bind_eq_some_iff.mp hparse
  obtain ⟨hready, houter, rfl⟩ := Parser.finish_eq_some hfinish
  have hcount : q.groups = 0 := groups_of_groupCount hfeed hfinish hgroups
  have hquestion : (text ++ [')']).head? ≠ some '?' := by
    cases text with
    | nil => decide
    | cons c text =>
      intro hc
      cases Option.some.inj hc
      cases isQuantifier_of_feed hfeed
  have hinside : p.openGroup (p.groups + 1) (some (p.groups + 1)) =
      Parser.init.within (p.groups + 1) (some (p.groups + 1)) (p.current :: p.outer) := rfl
  have hready' : (q.within (p.groups + 1) (some (p.groups + 1)) (p.current :: p.outer)).Ready := hready
  rw [Parser.feed_openParen hp (by simp) hquestion, Parser.feed_append, hinside,
    Parser.feed_within hfeed hcount, Option.bind_some, Parser.feed_cons, hready'.step]
  simp only [Parser.within, houter, nest]
  rfl

end

/-! ### Expressions without groups -/

/-- No group. -/
def Re.groupFree : Re → Bool
  | .empty | .char _ | .bol | .eol => true
  | .seq a b | .alt a b => a.groupFree && b.groupFree
  | .star _ a => a.groupFree
  | .group _ _ => false

/-- Without groups there is nothing to take away. -/
theorem Re.plain_of_groupFree {r : Re} (h : r.groupFree = true) : r.plain = r := by
  induction r with
  | seq a b iha ihb | alt a b iha ihb =>
    obtain ⟨ha, hb⟩ := Bool.and_eq_true_iff.mp h
    rw [Re.plain, iha ha, ihb hb]
  | star greedy a ih => rw [Re.plain, ih h]
  | group i a ih => cases h
  | _ => rfl

/-- Nothing is captured, so a match is where it ends. -/
theorem Re.run_of_groupFree {r : Re} (h : r.groupFree = true) : r.run = r.ends := by
  rw [Re.ends, Re.plain_of_groupFree h]

section
variable {r : Re} {rs : List Re}

/-- A sequence has no groups when its items have none. -/
theorem groupFree_seqOf (h : ∀ r ∈ rs, r.groupFree = true) : (seqOf rs).groupFree = true := by
  induction rs with
  | nil => rfl
  | cons r rs ih =>
    obtain ⟨hr, hrs⟩ := List.forall_mem_cons.mp h
    cases rs with
    | nil => exact hr
    | cons r' rs => exact Bool.and_eq_true_iff.mpr ⟨ih hrs, hr⟩

/-- Alternatives have no groups when each of them has none. -/
theorem groupFree_altOf (hr : r.groupFree = true) (h : ∀ r ∈ rs, r.groupFree = true) :
    (altOf rs r).groupFree = true := by
  induction rs generalizing r with
  | nil => exact hr
  | cons r' rs ih =>
    obtain ⟨hr', hrs⟩ := List.forall_mem_cons.mp h
    exact Bool.and_eq_true_iff.mpr ⟨ih hr' hrs, hr⟩

/-- A quantifier adds no group. -/
theorem groupFree_quantify (hr : r.groupFree = true) (greedy : Bool) (min : Nat)
    (max : Option Nat) : (quantify greedy r min max).groupFree = true := by
  have hupTo : ∀ m, (upTo greedy r m).groupFree = true := by
    intro m
    induction m with
    | zero => rfl
    | succ m ih =>
      cases greedy <;> simp [upTo, optional, Re.groupFree, hr, ih]
  have htimes : ∀ rest : Re, rest.groupFree = true → (times r min rest).groupFree = true := by
    intro rest hrest
    induction min with
    | zero => exact hrest
    | succ n ih => exact Bool.and_eq_true_iff.mpr ⟨hr, ih⟩
  refine htimes _ ?_
  cases max with
  | none => exact hr
  | some max => exact hupTo _

/-- Neither a group nor anything with one in it. -/
structure Open.GroupFree (o : Open) : Prop where
  group : o.group = none
  alts : ∀ r ∈ o.alts, r.groupFree = true
  items : ∀ r ∈ o.items, r.groupFree = true

/-- The expression of an open level without groups has none. -/
theorem Open.GroupFree.re {o : Open} (h : o.GroupFree) : o.re.groupFree = true :=
  groupFree_altOf (groupFree_seqOf h.items) h.alts

/-- No group is open, and none was read. -/
structure Parser.GroupFree (p : Parser) : Prop where
  current : p.current.GroupFree
  outer : ∀ o ∈ p.outer, o.GroupFree
  mode : ∀ r, p.mode = .quantified (some r) → r.groupFree = true

variable {p q : Parser} {c : Char} {text : List Char}

/-- An item without groups can be added. -/
theorem Parser.GroupFree.push (h : p.GroupFree) (hr : r.groupFree = true) : (p.push r).GroupFree :=
  ⟨⟨h.current.group, h.current.alts, List.forall_mem_cons.mpr ⟨hr, h.current.items⟩⟩, h.outer,
    fun _ hmode => by cases hmode⟩

/-- The mode says nothing about groups, but for the item it holds. -/
theorem Parser.GroupFree.move (h : p.GroupFree) {mode : Mode}
    (hmode : ∀ r, mode ≠ .quantified (some r)) : Parser.GroupFree { p with mode := mode } :=
  ⟨h.current, h.outer, fun r hr => absurd hr (hmode r)⟩

/-- A quantified item keeps the parser free of groups. -/
theorem Parser.GroupFree.quantifyLast (h : p.GroupFree) (hr : r.groupFree = true) (min : Nat)
    (max : Option Nat) : (p.quantifyLast r min max).GroupFree := by
  refine ⟨⟨h.current.group, h.current.alts, List.forall_mem_cons.mpr ⟨groupFree_quantify hr .., ?_⟩⟩,
    h.outer, ?_⟩
  · exact fun r' hr' => h.current.items r' (List.mem_of_mem_tail hr')
  · intro r' hr'
    cases hr'
    exact groupFree_quantify hr ..

/-- So does the quantifier where an item is found. -/
theorem Parser.GroupFree.map_quantifyLast (h : p.GroupFree) {min : Nat} {max : Option Nat}
    {last : Option Re} (hlast : ∀ r, last = some r → r ∈ p.current.items)
    (hq : last.map (p.quantifyLast · min max) = some q) : q.GroupFree := by
  obtain ⟨r, hr, rfl⟩ := Option.map_eq_some_iff.mp hq
  exact h.quantifyLast (h.current.items r (hlast r hr)) min max

/-- The item that is quantified is one of the items. -/
theorem Parser.quantifiable_mem (h : p.quantifiable = some r) : r ∈ p.current.items := by
  obtain ⟨-, rs, hitems⟩ := Parser.quantifiable_eq_some h
  rw [hitems]
  exact List.mem_cons_self

/-- A group that does not capture is closed. -/
theorem Parser.GroupFree.closeGroup (h : p.GroupFree) (hq : p.closeGroup = some q) :
    q.GroupFree := by
  unfold Parser.closeGroup at hq
  split at hq
  · cases hq
  · rename_i o outer houter
    cases hq
    rw [h.current.group]
    have ho : o.GroupFree := h.outer o (by rw [houter]; exact List.mem_cons_self)
    refine ⟨⟨ho.group, ho.alts, List.forall_mem_cons.mpr ⟨h.current.re, ho.items⟩⟩, ?_, ?_⟩
    · exact fun o' ho' => h.outer o' (by rw [houter]; exact List.mem_cons_of_mem _ ho')
    · intro r hr
      cases hr

/-- One character outside escapes, classes and bounds. -/
theorem Parser.GroupFree.stepNormal (h : p.GroupFree) (hq : p.stepNormal c = some q) :
    q.GroupFree := by
  unfold Parser.stepNormal at hq
  split at hq
  case h_1 r hmode =>
    cases hq
    refine ⟨⟨h.current.group, h.current.alts, List.forall_mem_cons.mpr ⟨h.mode r hmode, ?_⟩⟩, h.outer,
      fun r' hr' => by cases hr'⟩
    exact fun r' hr' => h.current.items r' (List.mem_of_mem_tail hr')
  case h_2 => exact h.map_quantifyLast (fun _ => Parser.quantifiable_mem) hq
  case h_3 => exact h.map_quantifyLast (fun _ => Parser.quantifiable_mem) hq
  case h_4 => exact h.map_quantifyLast (fun _ => Parser.quantifiable_mem) hq
  case h_5 =>
    obtain ⟨r, -, rfl⟩ := Option.map_eq_some_iff.mp hq
    exact h.move (by simp)
  case h_7 => exact h.closeGroup hq
  case h_8 =>
    cases hq
    refine ⟨⟨h.current.group, List.forall_mem_cons.mpr ⟨groupFree_seqOf h.current.items,
      h.current.alts⟩, by simp⟩, h.outer, fun r hr => by cases hr⟩
  case h_11 =>
    cases hq
    exact (h.push (r := .bol) rfl).move (by simp)
  case h_12 =>
    cases hq
    exact (h.push (r := .eol) rfl).move (by simp)
  case h_13 =>
    cases hq
    exact h.push rfl
  case h_14 =>
    cases hq
    exact h.push rfl
  all_goals
    cases hq
    exact h.move (by simp)

/-- A character that does not open a capturing group. -/
theorem Parser.GroupFree.step (h : p.GroupFree) (hq : p.step c = some q)
    (hgroups : q.groups = p.groups) : q.GroupFree := by
  have hopens := (Parser.step_lex hq).2.2
  unfold Parser.step at hq
  split at hq
  · exact h.stepNormal hq
  · exact h.stepNormal hq
  · obtain ⟨k, -, rfl⟩ := Option.map_eq_some_iff.mp hq
    exact h.push rfl
  · rename_i hm
    split at hq
    · cases hq
      exact h.move (by simp)
    · rename_i hc
      rw [hm, if_pos (by simpa [Mode.behindParen] using hc)] at hopens
      omega
  · split at hq
    · cases hq
      refine ⟨⟨rfl, by simp [Parser.openGroup], by simp [Parser.openGroup]⟩, ?_, fun r hr => by cases hr⟩
      exact List.forall_mem_cons.mpr ⟨h.current, h.outer⟩
    · cases hq
  · rcases Parser.stepClass_cases hq with ⟨k', rfl, -⟩ | ⟨k', rfl, -⟩
    · exact h.move (by simp)
    · exact h.push rfl
  · unfold Parser.stepBounds at hq
    split at hq
    · cases hq
      exact h.move (by simp)
    · exact h.map_quantifyLast (fun _ => List.mem_of_mem_head?) hq
    · obtain ⟨n, -, rfl⟩ := Option.map_eq_some_iff.mp hq
      exact h.move (by simp)
  · unfold Parser.stepBoundsTo at hq
    split at hq
    · split at hq
      · exact h.map_quantifyLast (fun _ => List.mem_of_mem_head?) hq
      · cases hq
    · obtain ⟨n, -, rfl⟩ := Option.map_eq_some_iff.mp hq
      exact h.move (by simp)

/-- A text that opens no capturing group leaves the parser free of groups. -/
theorem Parser.GroupFree.feed (h : p.GroupFree) (hq : p.feed text = some q)
    (hgroups : q.groups = p.groups) : q.GroupFree := by
  induction text generalizing p with
  | nil =>
    cases hq
    exact h
  | cons c text ih =>
    rw [Parser.feed_cons] at hq
    obtain ⟨p₁, hstep, hfeed⟩ := Option.bind_eq_some_iff.mp hq
    have hfirst : p₁.groups = p.groups := Parser.step_groups hstep hfeed hgroups
    exact ih (h.step hstep hfirst) hfeed (hgroups.trans hfirst.symm)

/-- An expression without capturing groups has no group in it. -/
theorem groupFree_of_groupCount (hparse : parse text = some r) (hgroups : groupCount text = some 0) :
    r.groupFree = true := by
  obtain ⟨q, hfeed, hfinish⟩ := Option.bind_eq_some_iff.mp hparse
  obtain ⟨-, -, rfl⟩ := Parser.finish_eq_some hfinish
  have hcount : q.groups = 0 := groups_of_groupCount hfeed hfinish hgroups
  have hinit : Parser.init.GroupFree :=
    ⟨⟨rfl, by simp [Parser.init], by simp [Parser.init]⟩, by simp [Parser.init],
      fun r hr => by cases hr⟩
  exact (hinit.feed hfeed hcount).current.re

end

end Regex
