import Mathlib.Data.List.Basic

/-!
# Cutting a list at a pair of elements

A separator of two elements that differ, such as a line end of two characters. Its occurrences do not
overlap, so cutting at the first one (`first?`) or at each of them (`all`) undoes an append exactly when
the part in front of the separator does not hold one itself.
-/

namespace Cut

section
variable {α : Type _} [DecidableEq α] (x y : α)

/-- The parts in front of the first separator and behind it. -/
def first? : List α → Option (List α × List α)
  | a :: b :: l =>
    if a = x ∧ b = y then some ([], l) else (first? (b :: l)).map fun parts => (a :: parts.1, parts.2)
  | _ => none

/-- The parts between the separators. -/
def all : List α → List (List α)
  | a :: b :: l => if a = x ∧ b = y then [] :: all l else (all (b :: l)).modifyHead (a :: ·)
  | l => [l]

variable {x y}

section
omit [DecidableEq α]

/-- The separator at the front of a list, or further behind. -/
theorem infix_cons_cons {a b : α} {l : List α} :
    [x, y] <:+: a :: b :: l ↔ a = x ∧ b = y ∨ [x, y] <:+: b :: l := by
  rw [List.infix_cons_iff, List.cons_prefix_cons, List.cons_prefix_cons]
  simp [eq_comm]

/-- A list of one element has no two in it. -/
theorem not_infix_singleton {a : α} : ¬ [x, y] <:+: [a] := fun h => by
  have := h.length_le
  simp at this

/-- A separator in an append is in one of the lists, or one half of it in each. -/
theorem infix_append {l r : List α} : [x, y] <:+: l ++ r ↔
    [x, y] <:+: l ∨ [x, y] <:+: r ∨ l.getLast? = some x ∧ r.head? = some y := by
  induction l with
  | nil => simp
  | cons a l ih =>
    cases l with
    | nil =>
      cases r with
      | nil => simp
      | cons b r =>
        rw [List.cons_append, List.nil_append, infix_cons_cons]
        simp only [not_infix_singleton, false_or, List.getLast?_singleton, List.head?_cons,
          Option.some.injEq]
        exact or_comm
    | cons b l =>
      rw [List.cons_append, List.cons_append, infix_cons_cons, ← List.cons_append, ih,
        infix_cons_cons, List.getLast?_cons_cons, or_assoc]

/-- A separator around a list that cannot take part in one is on one side of it. -/
theorem infix_append_append {l c r : List α} (hx : x ∉ c) (hy : c.head? ≠ some y) (hne : c ≠ []) :
    [x, y] <:+: l ++ c ++ r ↔ [x, y] <:+: l ∨ [x, y] <:+: r := by
  have hc : ¬ [x, y] <:+: c := fun h => hx (h.subset (.head _))
  have hlast : c.getLast? ≠ some x := fun h => hx (List.mem_of_getLast? h)
  have hlast' : (l ++ c).getLast? = c.getLast? := by
    rw [List.getLast?_append_of_ne_nil _ hne]
  rw [infix_append, infix_append, hlast']
  simp only [hc, hy, hlast, or_false, and_false, false_and]

end

/-! ### The first separator -/

/-- Cutting in front of a part without a separator. -/
theorem first?_append {l : List α} (h : ¬ [x, y] <:+: l) (hxy : x ≠ y) (r : List α) :
    first? x y (l ++ x :: y :: r) = some (l, r) := by
  induction l with
  | nil => simp [first?]
  | cons a l ih =>
    cases l with
    | nil =>
      have hne : ¬ (a = x ∧ x = y) := fun h => hxy h.2
      rw [List.cons_append, List.nil_append, first?, if_neg hne, first?, if_pos ⟨rfl, rfl⟩]
      rfl
    | cons b l =>
      rw [infix_cons_cons, not_or] at h
      rw [List.cons_append, List.cons_append, first?, if_neg h.1, ← List.cons_append, ih h.2]
      rfl

/-- The part in front holds no separator. -/
theorem first?_eq_some {l p r : List α} (h : first? x y l = some (p, r)) :
    l = p ++ x :: y :: r ∧ ¬ [x, y] <:+: p := by
  induction l generalizing p with
  | nil => cases h
  | cons a l ih =>
    cases l with
    | nil => cases h
    | cons b l =>
      rw [first?] at h
      split at h
      · obtain ⟨rfl, rfl⟩ := ‹_ ∧ _›
        cases h
        exact ⟨rfl, by simp⟩
      · rename_i hne
        obtain ⟨⟨p', r'⟩, hrest, hparts⟩ := Option.map_eq_some_iff.1 h
        cases hparts
        obtain ⟨heq, hnot⟩ := ih hrest
        refine ⟨by rw [heq]; rfl, ?_⟩
        cases p' with
        | nil => exact not_infix_singleton
        | cons c p' =>
          cases heq
          rw [infix_cons_cons, not_or]
          exact ⟨hne, hnot⟩

/-! ### All separators -/

/-- A list without the separator is the first part in front of it. -/
theorem all_append {l : List α} (h : ¬ [x, y] <:+: l) (hxy : x ≠ y) (r : List α) :
    all x y (l ++ x :: y :: r) = l :: all x y r := by
  induction l with
  | nil => simp [all]
  | cons a l ih =>
    cases l with
    | nil =>
      have hne : ¬ (a = x ∧ x = y) := fun h => hxy h.2
      rw [List.cons_append, List.nil_append, all, if_neg hne, all, if_pos ⟨rfl, rfl⟩]
      rfl
    | cons b l =>
      rw [infix_cons_cons, not_or] at h
      rw [List.cons_append, List.cons_append, all, if_neg h.1, ← List.cons_append, ih h.2]
      rfl

/-- The first part is empty or starts where the list does. -/
theorem all_cons (a : α) (l : List α) :
    ∃ p ps, all x y (a :: l) = p :: ps ∧ (p = [] ∨ ∃ q, p = a :: q) := by
  induction l generalizing a with
  | nil => exact ⟨[a], [], rfl, .inr ⟨[], rfl⟩⟩
  | cons b l ih =>
    rw [all]
    split
    · exact ⟨[], _, rfl, .inl rfl⟩
    · obtain ⟨p, ps, hall, -⟩ := ih b
      exact ⟨a :: p, ps, by rw [hall]; rfl, .inr ⟨p, rfl⟩⟩

/-- No part holds a separator. -/
theorem not_infix_of_mem_all {l p : List α} (hp : p ∈ all x y l) : ¬ [x, y] <:+: p := by
  induction l using all.induct x y generalizing p with
  | case1 a b l hsep ih =>
    rw [all, if_pos hsep] at hp
    rcases List.mem_cons.1 hp with rfl | hp
    · simp
    · exact ih hp
  | case2 a b l hsep ih =>
    obtain ⟨q, qs, hall, hq⟩ := all_cons (x := x) (y := y) b l
    rw [all, if_neg hsep, hall] at hp
    rw [hall] at ih
    rcases List.mem_cons.1 hp with rfl | hp
    · rcases hq with rfl | ⟨q, rfl⟩
      · exact not_infix_singleton
      · rw [infix_cons_cons, not_or]
        exact ⟨hsep, ih (.head _)⟩
    · exact ih (.tail _ hp)
  | case3 l hshort =>
    rcases l with _ | ⟨a, _ | ⟨b, l⟩⟩
    · cases List.mem_singleton.1 hp
      simp
    · cases List.mem_singleton.1 hp
      exact not_infix_singleton
    · exact absurd rfl (hshort a b l)

end

end Cut
