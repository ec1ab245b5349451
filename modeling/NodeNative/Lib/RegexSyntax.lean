import Mathlib.Data.List.Induction
import Mathlib.Data.Option.Basic
import NodeNative.Lib.Regex

/-!
# The syntax of regular expressions

A parser for the ECMAScript syntax: alternatives, groups, classes, escapes, anchors and
quantifiers. It reads one character after the other (`Parser.step`), so what it reads of an append is
what it reads of one part and then of the other (`Parser.feed_append`).

`none` stands for an error, and for what the grammar here leaves out: lookahead, back references,
word boundaries, empty classes and what stands in a class between `[:` and `:]`, `[.` and `.]` or `[=`
and `=]`.
-/

namespace Regex

/-! ### The state of the parser -/

/-- An open group, or the whole expression: its number, the alternatives that are complete and the
items of the next one, the latest first. -/
structure Open where
  group : Option Nat
  alts : List Re
  items : List Re

/-- A class whose bracket is open: `last` is a character that may begin a range, `dash` says that a
`-` follows it, and `bracket` that the last character is a `[`, which `:`, `.` and `=` make the beginning
of a name. -/
structure OpenClass where
  negated : Bool
  first : Bool
  ranges : List (Char × Char)
  last : Option Char
  dash : Bool
  escape : Bool
  bracket : Bool

/-- What the next character belongs to. `quantified` is behind a quantifier, which a `?` makes lazy:
`lazyItem` is the item then. Behind a lazy quantifier and behind an anchor there is none. -/
inductive Mode
  | normal
  | quantified (lazyItem : Option Re)
  | escape
  | paren
  | parenQuestion
  | inClass (k : OpenClass)
  | bounds (min : Option Nat)
  | boundsTo (min : Nat) (max : Option Nat)

structure Parser where
  groups : Nat
  outer : List Open
  current : Open
  mode : Mode

def Parser.init : Parser := ⟨0, [], ⟨none, [], []⟩, .normal⟩

/-! ### Expressions -/

/-- The items of an alternative, the latest first. -/
def seqOf : List Re → Re
  | [] => .empty
  | [r] => r
  | r :: rs => .seq (seqOf rs) r

/-- Complete alternatives, the latest first, and the last one. -/
def altOf : List Re → Re → Re
  | [], last => last
  | r :: rs, last => .alt (altOf rs r) last

def Open.re (o : Open) : Re := altOf o.alts (seqOf o.items)

def literal (c : Char) : CharClass := ⟨false, [(c, c)]⟩

/-- A round that may be left out. -/
def optional (greedy : Bool) (r : Re) : Re := if greedy then .alt r .empty else .alt .empty r

/-- `n` rounds, and up to `m` more. -/
def upTo (greedy : Bool) (r : Re) : Nat → Re
  | 0 => .empty
  | m + 1 => optional greedy (.seq r (upTo greedy r m))

def times (r : Re) : Nat → Re → Re
  | 0, rest => rest
  | n + 1, rest => .seq r (times r n rest)

/-- A quantified item. -/
def quantify (greedy : Bool) (r : Re) (min : Nat) (max : Option Nat) : Re :=
  times r min (max.elim (.star greedy r) fun max => upTo greedy r (max - min))

def digits : List (Char × Char) := [('0', '9')]

def wordCharacters : List (Char × Char) := [('a', 'z'), ('A', 'Z'), ('0', '9'), ('_', '_')]

def spaces : List (Char × Char) := [('\t', '\r'), (' ', ' ')]

/-- An escaped character. -/
def escapeClass : Char → Option CharClass
  | 'd' => some ⟨false, digits⟩
  | 'D' => some ⟨true, digits⟩
  | 'w' => some ⟨false, wordCharacters⟩
  | 'W' => some ⟨true, wordCharacters⟩
  | 's' => some ⟨false, spaces⟩
  | 'S' => some ⟨true, spaces⟩
  | 'n' => some (literal '\n')
  | 'r' => some (literal '\r')
  | 't' => some (literal '\t')
  | c => if c.isAlphanum then none else some (literal c)

/-- The characters with a meaning of their own. -/
def isMeta (c : Char) : Bool := "\\^$.|?*+()[]\x7b\x7d".toList.contains c

/-! ### Reading -/

/-- A further item. -/
def Parser.push (p : Parser) (r : Re) : Parser :=
  { p with current := { p.current with items := r :: p.current.items }, mode := .normal }

/-- A group begins. -/
def Parser.openGroup (p : Parser) (groups : Nat) (group : Option Nat) : Parser :=
  ⟨groups, p.current :: p.outer, ⟨group, [], []⟩, .normal⟩

/-- A group ends. -/
def Parser.closeGroup (p : Parser) : Option Parser :=
  match p.outer with
  | [] => none
  | o :: outer =>
    let r := p.current.group.elim p.current.re (.group · p.current.re)
    some { p with outer := outer, current := { o with items := r :: o.items }, mode := .normal }

/-- The last item, when it can be quantified. -/
def Parser.quantifiable (p : Parser) : Option Re :=
  match p.mode, p.current.items with
  | .quantified _, _ | _, [] => none
  | _, r :: _ => some r

/-- The last item is quantified. -/
def Parser.quantifyLast (p : Parser) (r : Re) (min : Nat) (max : Option Nat) : Parser :=
  { p with
    current := { p.current with items := quantify true r min max :: p.current.items.tail }
    mode := .quantified (some (quantify false r min max)) }

/-- A character outside a bracket or a bound. -/
def Parser.stepNormal (p : Parser) (c : Char) : Option Parser :=
  match c, p.mode with
  | '?', .quantified (some r) =>
    some { p with
      current := { p.current with items := r :: p.current.items.tail }
      mode := .quantified none }
  | '?', _ => p.quantifiable.map (p.quantifyLast · 0 (some 1))
  | '*', _ => p.quantifiable.map (p.quantifyLast · 0 none)
  | '+', _ => p.quantifiable.map (p.quantifyLast · 1 none)
  | '\x7b', _ => p.quantifiable.map fun _ => { p with mode := .bounds none }
  | '(', _ => some { p with mode := .paren }
  | ')', _ => p.closeGroup
  | '|', _ => some { p with
      current := { p.current with alts := seqOf p.current.items :: p.current.alts, items := [] }
      mode := .normal }
  | '[', _ => some { p with mode := .inClass ⟨false, true, [], none, false, false, false⟩ }
  | '\\', _ => some { p with mode := .escape }
  | '^', _ => some { p.push .bol with mode := .quantified none }
  | '$', _ => some { p.push .eol with mode := .quantified none }
  | '.', _ => some (p.push (.char ⟨true, [('\n', '\n'), ('\r', '\r')]⟩))
  | c, _ => some (p.push (.char (literal c)))

/-- The characters that are not yet part of a range. -/
def OpenClass.flush (k : OpenClass) : List (Char × Char) :=
  k.last.elim [] (fun c => [(c, c)]) ++ if k.dash then [('-', '-')] else []

/-- A character of a class. -/
def OpenClass.add (k : OpenClass) (c : Char) : Option OpenClass :=
  match k.last, k.dash with
  | some a, true =>
    if a ≤ c then
      some { k with first := false, ranges := k.ranges ++ [(a, c)], last := none, dash := false
                    escape := false, bracket := c == '[' }
    else none
  | _, _ =>
    some { k with first := false, ranges := k.ranges ++ k.flush, last := some c, dash := false
                  escape := false, bracket := c == '[' }

/-- An escape of a class. -/
def OpenClass.addEscape (k : OpenClass) (c : Char) : Option OpenClass :=
  match escapeClass c with
  | some ⟨false, [(a, b)]⟩ =>
    if a = b then (k.add a).map fun k => { k with bracket := false }
    else some { k with first := false, ranges := k.ranges ++ k.flush ++ [(a, b)], last := none
                       dash := false, escape := false, bracket := false }
  | some ⟨false, ranges⟩ =>
    some { k with first := false, ranges := k.ranges ++ k.flush ++ ranges, last := none
                  dash := false, escape := false, bracket := false }
  | _ => none

/-- A character inside a bracket. -/
def Parser.stepClass (p : Parser) (k : OpenClass) (c : Char) : Option Parser :=
  if k.escape then (k.addEscape c).map fun k => { p with mode := .inClass k }
  else if k.bracket && (c == ':' || c == '.' || c == '=') then none
  else match c with
    | '\\' => some { p with mode := .inClass { k with escape := true } }
    | ']' =>
      if k.first then none else some (p.push (.char ⟨k.negated, k.ranges ++ k.flush⟩))
    | '^' =>
      if k.first && !k.negated then some { p with mode := .inClass { k with negated := true } }
      else (k.add c).map fun k => { p with mode := .inClass k }
    | '-' =>
      if k.last.isSome && !k.dash then
        some { p with mode := .inClass { k with dash := true, bracket := false } }
      else (k.add c).map fun k => { p with mode := .inClass k }
    | c => (k.add c).map fun k => { p with mode := .inClass k }

/-- A decimal digit behind others. -/
def digit? (n : Option Nat) (c : Char) : Option Nat :=
  if c.isDigit then some (n.getD 0 * 10 + (c.toNat - '0'.toNat)) else none

/-- A character of a bound. -/
def Parser.stepBounds (p : Parser) (min : Option Nat) (c : Char) : Option Parser :=
  match c, min with
  | ',', some min => some { p with mode := .boundsTo min none }
  | '\x7d', some min => p.current.items.head?.map (p.quantifyLast · min (some min))
  | _, _ => (digit? min c).map fun min => { p with mode := .bounds (some min) }

/-- A character of an upper bound. -/
def Parser.stepBoundsTo (p : Parser) (min : Nat) (max : Option Nat) (c : Char) : Option Parser :=
  match c with
  | '\x7d' =>
    if max.elim true (min ≤ ·) then p.current.items.head?.map (p.quantifyLast · min max) else none
  | _ => (digit? max c).map fun max => { p with mode := .boundsTo min (some max) }

/-- One character. -/
def Parser.step (p : Parser) (c : Char) : Option Parser :=
  match p.mode with
  | .normal | .quantified _ => p.stepNormal c
  | .escape => (escapeClass c).map fun k => p.push (.char k)
  | .paren =>
    if c = '?' then some { p with mode := .parenQuestion }
    else (p.openGroup (p.groups + 1) (some (p.groups + 1))).stepNormal c
  | .parenQuestion => if c = ':' then some (p.openGroup p.groups none) else none
  | .inClass k => p.stepClass k c
  | .bounds min => p.stepBounds min c
  | .boundsTo min max => p.stepBoundsTo min max c

/-- The characters of a text. -/
def Parser.feed (p : Parser) (text : List Char) : Option Parser := text.foldlM Parser.step p

/-- The end of the text. -/
def Parser.finish (p : Parser) : Option Re :=
  match p.mode, p.outer with
  | .normal, [] | .quantified _, [] => some p.current.re
  | _, _ => none

def parse (text : List Char) : Option Re := (Parser.init.feed text).bind Parser.finish

/-! ### Texts in sequence -/

@[simp] theorem Parser.feed_nil (p : Parser) : p.feed [] = some p := rfl

@[simp] theorem Parser.feed_cons (p : Parser) (c : Char) (text : List Char) :
    p.feed (c :: text) = (p.step c).bind (·.feed text) := by
  simp only [feed, List.foldlM_cons, Option.bind_eq_bind]

/-- A text is read piece by piece. -/
theorem Parser.feed_append (p : Parser) (text text' : List Char) :
    p.feed (text ++ text') = (p.feed text).bind (·.feed text') := by
  simp only [feed, List.foldlM_append, Option.bind_eq_bind]

/-! ### Items in sequence -/

/-- The matches of some items in sequence. -/
def runAll : List Re → State → List State
  | [], s => [s]
  | r :: rs, s => (r.run s).flatMap (runAll rs)

/-- Items are run one list after the other. -/
theorem runAll_append (rs rs' : List Re) (s : State) :
    runAll (rs ++ rs') s = (runAll rs s).flatMap (runAll rs') := by
  induction rs generalizing s with
  | nil => simp [runAll]
  | cons r rs ih =>
    rw [List.cons_append, runAll, runAll, List.flatMap_assoc, funext ih]

/-- A sequence runs its items in order. -/
theorem run_seqOf (rs : List Re) (s : State) : (seqOf rs.reverse).run s = runAll rs s := by
  have hcons : ∀ (r : Re) (rs : List Re) (s : State),
      (seqOf (r :: rs)).run s = ((seqOf rs).run s).flatMap r.run := by
    intro r rs s
    cases rs with
    | nil => simp [seqOf, Re.run]
    | cons r' rs => rfl
  induction rs using List.reverseRecOn generalizing s with
  | nil => rfl
  | append_singleton rs r ih =>
    have hlast : runAll [r] = r.run := funext fun s => List.flatMap_singleton' _
    rw [List.reverse_append, List.reverse_singleton, List.singleton_append, hcons, ih, runAll_append,
      hlast]

/-! ### Text -/

/-- The next character is not part of a bracket, a bound or an escape. -/
def Parser.Ready (p : Parser) : Prop := p.mode = .normal ∨ ∃ r, p.mode = .quantified r

/-- Where an item can begin, the next character has no special reading. -/
theorem Parser.Ready.step {p : Parser} (h : p.Ready) (c : Char) : p.step c = p.stepNormal c := by
  rcases h with h | ⟨r, h⟩ <;> simp only [Parser.step, h]

/-- A character without a meaning of its own is an item. -/
theorem Parser.stepNormal_literal (p : Parser) {c : Char} (hc : isMeta c = false) :
    p.stepNormal c = some (p.push (.char (literal c))) := by
  unfold Parser.stepNormal
  split <;> first | rfl | exact absurd hc (by decide)

/-- The items of a text. -/
def textItems (text : List Char) : List Re := text.map fun c => .char (literal c)

/-- Some items are added. -/
def Parser.add (p : Parser) (rs : List Re) (mode : Mode) : Parser :=
  { p with current := { p.current with items := rs.reverse ++ p.current.items }, mode := mode }

/-- Items are added list by list. -/
theorem Parser.add_add (p : Parser) (rs rs' : List Re) (mode mode' : Mode) :
    (p.add rs mode).add rs' mode' = p.add (rs ++ rs') mode' := by
  simp [add]

/-- A text without characters that have a meaning adds its characters. -/
theorem Parser.feed_text {p : Parser} (hp : p.Ready) {text : List Char}
    (htext : ∀ c ∈ text, isMeta c = false) :
    ∃ mode, p.feed text = some (p.add (textItems text) mode) ∧ (p.add (textItems text) mode).Ready := by
  induction text generalizing p with
  | nil => exact ⟨p.mode, rfl, hp⟩
  | cons c text ih =>
    have hready : (p.push (.char (literal c))).Ready := .inl rfl
    obtain ⟨mode, hfeed, hready'⟩ := ih hready fun c' hc' => htext c' (.tail _ hc')
    refine ⟨mode, ?_, hready'⟩
    rw [Parser.feed_cons, hp.step, p.stepNormal_literal (htext c (.head _)), Option.bind_some, hfeed]
    simp [Parser.add, Parser.push, textItems]

/-- The matches of a text. -/
theorem mem_runAll_text {text : List Char} {s s' : State} : s' ∈ runAll (textItems text) s ↔
    ∃ rest, s.rest = text ++ rest ∧ s' = s.advance text.length := by
  induction text generalizing s with
  | nil => simp [textItems, runAll]
  | cons c text ih =>
    rw [textItems, List.map_cons, runAll, List.mem_flatMap]
    constructor
    · rintro ⟨s₁, hs₁, hs'⟩
      obtain ⟨c', rest', hrest, hc, rfl⟩ := mem_run_char.mp hs₁
      obtain rfl : c' = c := by simpa [literal, accepts_literal] using hc
      obtain ⟨rest, hrest', rfl⟩ := ih.mp hs'
      rw [State.advance_rest, hrest, List.drop_succ_cons, List.drop_zero] at hrest'
      refine ⟨rest, by rw [hrest, hrest', List.cons_append], ?_⟩
      rw [State.advance_advance, List.length_cons, Nat.add_comm]
    · rintro ⟨rest, hrest, rfl⟩
      have hc : (literal c).accepts c = true := by simp [literal, accepts_literal]
      refine ⟨s.advance 1, mem_run_char.mpr ⟨c, text ++ rest, hrest, hc, rfl⟩, ih.mpr ⟨rest, ?_, ?_⟩⟩
      · rw [State.advance_rest, hrest]
        rfl
      · rw [State.advance_advance, List.length_cons, Nat.add_comm]

/-- A text as items takes exactly itself. -/
theorem runAll_text {text rest : List Char} {s : State} (hrest : s.rest = text ++ rest) :
    runAll (textItems text) s = [s.advance text.length] := by
  induction text generalizing s with
  | nil => rfl
  | cons c text ih =>
    have hc : (literal c).accepts c = true := by simp [literal, accepts_literal]
    have hnext : (s.advance 1).rest = text ++ rest := by
      rw [State.advance_rest, hrest]
      rfl
    rw [textItems, List.map_cons, runAll, run_char_of_accepts hrest hc, List.flatMap_singleton]
    refine (ih hnext).trans ?_
    rw [State.advance_advance, List.length_cons, Nat.add_comm]

end Regex
