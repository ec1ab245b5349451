import NodeNative.Lib.RegexSyntax

/-!
# What an expression takes

Without back references the groups of an expression only record texts: where its matches end, and in
which order they are found, does not depend on them (`map_place_run`). `Re.ends` is the part of a
matcher that is left without the groups. It is made of the same part of the expressions in it, so an
expression may be replaced by any other with the same ends.

Sequences and alternatives are associative here, so it does not matter how the parser brackets them
(`ends_seqOf_cons`, `ends_altOf`).
-/

namespace Regex

/-! ### Matchers -/

/-- The places where a match can end, the preferred one first. -/
abbrev Matcher := State → List State

def Matcher.empty : Matcher := fun s => [s]

def Matcher.none : Matcher := fun _ => []

def Matcher.seq (f g : Matcher) : Matcher := fun s => (f s).flatMap g

def Matcher.alt (f g : Matcher) : Matcher := fun s => f s ++ g s

section
variable (f g h : Matcher)

@[simp] theorem Matcher.empty_seq : empty.seq f = f := by
  funext s
  simp [seq, empty]

@[simp] theorem Matcher.seq_empty : f.seq empty = f := by
  funext s
  exact List.flatMap_singleton' _

/-- Matchers in a row associate, -/
theorem Matcher.seq_assoc : (f.seq g).seq h = f.seq (g.seq h) := by
  funext s
  exact List.flatMap_assoc

@[simp] theorem Matcher.none_alt : none.alt f = f := rfl

@[simp] theorem Matcher.alt_none : f.alt none = f := by
  funext s
  exact List.append_nil _

/-- and so do alternatives. -/
theorem Matcher.alt_assoc : (f.alt g).alt h = f.alt (g.alt h) := by
  funext s
  exact List.append_assoc ..

end

/-! ### The ends of an expression -/

/-- The expression without its groups. -/
def Re.plain : Re → Re
  | .empty => .empty
  | .char k => .char k
  | .seq a b => .seq a.plain b.plain
  | .alt a b => .alt a.plain b.plain
  | .star greedy a => .star greedy a.plain
  | .group _ a => a.plain
  | .bol => .bol
  | .eol => .eol

/-- Where the matches end. -/
def Re.ends (r : Re) : Matcher := r.plain.run

/-- The state without the texts of the groups. -/
def State.place (s : State) : State := { s with captures := [] }

section
variable {r r' : Re} {s : State}

@[simp] theorem ends_empty : Re.empty.ends = Matcher.empty := rfl

@[simp] theorem ends_seq (a b : Re) : (Re.seq a b).ends = a.ends.seq b.ends := rfl

@[simp] theorem ends_alt (a b : Re) : (Re.alt a b).ends = a.ends.alt b.ends := rfl

/-- Where a star stops. -/
theorem ends_star (greedy : Bool) (a : Re) :
    (Re.star greedy a).ends = fun s => iterate a.ends greedy s.rest.length s := rfl

@[simp] theorem ends_group (i : Nat) (a : Re) : (Re.group i a).ends = a.ends := rfl

/-- The places of a matcher's repetitions are up to its places. -/
theorem map_place_iterate {f g : Matcher} (hfg : ∀ s, (f s).map State.place = g s.place)
    (greedy : Bool) (n : Nat) (s : State) :
    (iterate f greedy n s).map State.place = iterate g greedy n s.place := by
  induction n generalizing s with
  | zero => rfl
  | succ n ih =>
    have hmore : (((f s).filter fun s' => s.pos < s'.pos).flatMap (iterate f greedy n)).map State.place =
        ((g s.place).filter fun s' => s.place.pos < s'.pos).flatMap (iterate g greedy n) := by
      rw [List.map_flatMap, funext ih, ← hfg s, List.filter_map, List.flatMap_map]
      rfl
    rw [iterate, iterate]
    cases greedy
    · simpa using hmore
    · simpa using hmore

/-- The groups of an expression do not change where its matches end. -/
theorem map_place_run (r : Re) (s : State) : (r.run s).map State.place = r.ends s.place := by
  induction r generalizing s with
  | empty => rfl
  | char k =>
    show ((Re.char k).run s).map State.place = (Re.char k).run s.place
    cases hrest : s.rest with
    | nil => rw [run_char_nil hrest, run_char_nil (s := s.place) hrest, List.map_nil]
    | cons c rest =>
      cases hc : k.accepts c with
      | true =>
        rw [run_char_of_accepts hrest hc, run_char_of_accepts (s := s.place) hrest hc]
        rfl
      | false =>
        rw [run_char_of_not_accepts hrest hc, run_char_of_not_accepts (s := s.place) hrest hc,
          List.map_nil]
  | seq a b iha ihb =>
    rw [run_seq, List.map_flatMap, funext ihb, ends_seq, Matcher.seq, ← iha, List.flatMap_map]
  | alt a b iha ihb => rw [run_alt, List.map_append, iha, ihb, ends_alt, Matcher.alt]
  | star greedy a ih => exact map_place_iterate ih greedy _ s
  | group i a ih =>
    rw [Re.run, List.map_map, ends_group, ← ih]
    rfl
  | bol =>
    unfold Re.ends Re.plain Re.run
    show List.map State.place _ = if s.pos = 0 then [s.place] else []
    split <;> rfl
  | eol =>
    unfold Re.ends Re.plain Re.run
    show List.map State.place _ = if s.rest = [] then [s.place] else []
    split <;> rfl

/-- Where an expression stops is where its run does. -/
theorem ends_eq_map_place {text : List Char} :
    r.ends ⟨0, text, []⟩ = (r.run ⟨0, text, []⟩).map State.place := by
  rw [map_place_run]
  rfl

/-- The whole text is matched exactly when some match ends at its end. -/
theorem matchWhole_isSome_iff {text : List Char} :
    (r.matchWhole text).isSome ↔ ∃ s ∈ r.ends ⟨0, text, []⟩, s.rest = [] := by
  rw [Re.matchWhole, Option.isSome_map, List.find?_isSome, ends_eq_map_place]
  simp [State.place]

/-! ### The text of a match -/

/-- A repetition moves forward inside the text. -/
theorem advance_of_mem_iterate {f : Matcher}
    (hf : ∀ s, ∀ s' ∈ f s, ∃ n ≤ s.rest.length, s' = s.advance n) (greedy : Bool) (k : Nat) {s' : State}
    (h : s' ∈ iterate f greedy k s) : ∃ n ≤ s.rest.length, s' = s.advance n := by
  induction k generalizing s with
  | zero => exact ⟨0, Nat.zero_le _, by simpa [iterate] using h⟩
  | succ k ih =>
    have hcases : s' = s ∨ ∃ s₁ ∈ f s, s' ∈ iterate f greedy k s₁ := by
      rw [iterate] at h
      cases greedy
      · rcases List.mem_cons.mp h with hself | hmore
        · exact .inl hself
        · obtain ⟨s₁, hs₁, hs'⟩ := List.mem_flatMap.mp hmore
          exact .inr ⟨s₁, (List.mem_filter.mp hs₁).1, hs'⟩
      · rcases List.mem_append.mp h with hmore | hself
        · obtain ⟨s₁, hs₁, hs'⟩ := List.mem_flatMap.mp hmore
          exact .inr ⟨s₁, (List.mem_filter.mp hs₁).1, hs'⟩
        · exact .inl (List.mem_singleton.mp hself)
    rcases hcases with rfl | ⟨s₁, hs₁, hs'⟩
    · exact ⟨0, Nat.zero_le _, rfl⟩
    · obtain ⟨n, hn, rfl⟩ := hf s s₁ hs₁
      obtain ⟨m, hm, rfl⟩ := ih hs'
      rw [State.advance_rest, List.length_drop] at hm
      exact ⟨n + m, by omega, State.advance_advance ..⟩

/-- A match ends some characters on. -/
theorem advance_of_mem_ends {s' : State} (h : s' ∈ r.ends s) :
    ∃ n ≤ s.rest.length, s' = s.advance n := by
  induction r generalizing s s' with
  | empty => exact ⟨0, Nat.zero_le _, List.mem_singleton.mp h⟩
  | char k =>
    obtain ⟨c, rest, hrest, -, rfl⟩ := mem_run_char.mp h
    exact ⟨1, by simp [hrest], rfl⟩
  | seq a b iha ihb =>
    obtain ⟨s₁, hs₁, hs'⟩ := List.mem_flatMap.mp h
    obtain ⟨n, hn, rfl⟩ := iha hs₁
    obtain ⟨m, hm, rfl⟩ := ihb hs'
    rw [State.advance_rest, List.length_drop] at hm
    exact ⟨n + m, by omega, State.advance_advance ..⟩
  | alt a b iha ihb =>
    rcases List.mem_append.mp h with h | h
    · exact iha h
    · exact ihb h
  | star greedy a ih => exact advance_of_mem_iterate (fun _ _ h => ih h) greedy _ h
  | group i a ih => exact ih h
  | bol | eol =>
    have hself : s' = s := by
      change s' ∈ ite _ _ _ at h
      split at h
      · exact List.mem_singleton.mp h
      · cases h
    exact ⟨0, Nat.zero_le _, hself⟩

/-- The first match ends at the first place. -/
theorem matchStart_text (r : Re) (text : List Char) : (r.matchStart text).map Match.text =
    (r.ends ⟨0, text, []⟩).head?.map fun s => text.take s.pos := by
  rw [ends_eq_map_place, Re.matchStart, Re.matchAt, Option.map_map, List.head?_map, Option.map_map]
  rfl

/-- A whole match has the whole text. -/
theorem matchWhole_text {text : List Char} {m : Match} (h : r.matchWhole text = some m) :
    m.text = text := by
  obtain ⟨s, hs, rfl⟩ := Option.map_eq_some_iff.mp h
  have hend : s.rest = [] := by simpa using List.find?_some hs
  have hmem : s.place ∈ r.ends ⟨0, text, []⟩ := by
    rw [ends_eq_map_place]
    exact List.mem_map_of_mem (List.mem_of_find?_eq_some hs)
  obtain ⟨n, hn, hplace⟩ := advance_of_mem_ends hmem
  have hpos : s.pos = n := (congrArg State.pos hplace).trans (Nat.zero_add n)
  have hrest : text.drop n = [] := (congrArg State.rest hplace).symm.trans hend
  show text.take (s.pos - 0) = text
  rw [Nat.sub_zero, hpos, List.take_of_length_le (List.drop_eq_nil_iff.mp hrest)]

/-! ### Repetitions -/

/-- Expressions that stop at the same places do so repeated, -/
theorem ends_times (hends : r'.ends = r.ends) {rest rest' : Re} (hrest : rest'.ends = rest.ends)
    (n : Nat) : (times r' n rest').ends = (times r n rest).ends := by
  induction n with
  | zero => exact hrest
  | succ n ih => rw [times, times, ends_seq, ends_seq, hends, ih]

/-- optional, -/
theorem ends_optional (hends : r'.ends = r.ends) (greedy : Bool) :
    (optional greedy r').ends = (optional greedy r).ends := by
  cases greedy <;> simp [optional, hends]

/-- up to a number of times, -/
theorem ends_upTo (hends : r'.ends = r.ends) (greedy : Bool) (m : Nat) :
    (upTo greedy r' m).ends = (upTo greedy r m).ends := by
  induction m with
  | zero => rfl
  | succ m ih =>
    rw [upTo, upTo]
    refine ends_optional ?_ greedy
    rw [ends_seq, ends_seq, hends, ih]

/-- and under any quantifier. -/
theorem ends_quantify (hends : r'.ends = r.ends) (greedy : Bool) (min : Nat) (max : Option Nat) :
    (quantify greedy r' min max).ends = (quantify greedy r min max).ends := by
  refine ends_times hends ?_ min
  cases max with
  | none => simp only [Option.elim_none, ends_star, hends]
  | some max => exact ends_upTo hends greedy _

/-! ### Alternatives and items -/

/-- Complete alternatives, the latest first. -/
def doneOf : List Re → Matcher
  | [] => .none
  | r :: rs => (doneOf rs).alt r.ends

/-- Where alternatives stop, -/
theorem ends_altOf (alts : List Re) (last : Re) :
    (altOf alts last).ends = (doneOf alts).alt last.ends := by
  induction alts generalizing last with
  | nil => rfl
  | cons r alts ih => rw [altOf, ends_alt, ih, doneOf]

/-- and terms in a row. -/
theorem ends_seqOf_cons (r : Re) (rs : List Re) :
    (seqOf (r :: rs)).ends = (seqOf rs).ends.seq r.ends := by
  cases rs with
  | nil => simp [seqOf]
  | cons r' rs => rfl

/-- Terms in a row without their groups. -/
theorem plain_seqOf (rs : List Re) : (seqOf rs).plain = seqOf (rs.map Re.plain) := by
  induction rs with
  | nil => rfl
  | cons r rs ih =>
    cases rs with
    | nil => rfl
    | cons r' rs => exact congrArg (Re.seq · r.plain) ih

/-- What the complete alternatives take. -/
def Open.done (o : Open) : Matcher := doneOf o.alts

/-- What the last alternative takes so far. -/
def Open.next (o : Open) : Matcher := (seqOf o.items).ends

/-- Where an open group stops, as far as it is read. -/
theorem Open.ends_re (o : Open) : o.re.ends = o.done.alt o.next := ends_altOf ..

end

end Regex
