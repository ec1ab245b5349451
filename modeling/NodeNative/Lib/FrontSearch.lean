import Mathlib.Data.List.Sort

/-!
# Lists that are kept in order by a search from the front

A list is kept in order by inserting each new element in front of the first one that it may precede,
which is `List.orderedInsert`. An element whose key changes can be moved the same way: a copy is
inserted and the original is erased afterwards. When the search runs over the list with the new key
already in place it never passes the original (`eraseIdx_insertIdx_findIdx`), so the element can move
to the front only, and the list stays in order exactly when nothing behind the element should precede
it (`pairwise_moved_iff`).
-/

namespace FrontSearch

section
variable {α : Type _} (r : α → α → Prop) [DecidableRel r]

/-- Inserting in front of the first element found is Mathlib's ordered insertion. -/
theorem insertIdx_findIdx (a : α) (l : List α) :
    l.insertIdx (l.findIdx fun b => decide (r a b)) a = l.orderedInsert r a := by
  induction l with
  | nil => rfl
  | cons b l ih =>
    rw [List.orderedInsert_cons, List.findIdx_cons]
    by_cases h : r a b
    · simp [h]
    · simp [h, ih]

/-- Inserting an element leaves the others. -/
theorem filter_orderedInsert {p : α → Bool} {a : α} (ha : ¬ p a = true) (l : List α) :
    (l.orderedInsert r a).filter p = l.filter p := by
  rw [List.orderedInsert_eq_take_drop, List.filter_append, List.filter_cons_of_neg ha,
    ← List.filter_append, List.takeWhile_append_dropWhile]

section
variable [Std.Refl r]

/-- The search does not pass an element with the same key. -/
theorem findIdx_le (a : α) (pre post : List α) :
    ((pre ++ a :: post).findIdx fun b => decide (r a b)) ≤ pre.length := by
  induction pre with
  | nil => simp [List.findIdx_cons, Std.Refl.refl (r := r) a]
  | cons b pre ih =>
    rw [List.cons_append, List.findIdx_cons]
    cases h : decide (r a b) with
    | true => exact Nat.zero_le _
    | false => exact Nat.succ_le_succ ih

/-- A copy is inserted and the original erased: the element moves inside what is in front of it. -/
theorem eraseIdx_insertIdx_findIdx (a : α) (pre post : List α) :
    ((pre ++ a :: post).insertIdx ((pre ++ a :: post).findIdx fun b => decide (r a b)) a).eraseIdx
      (pre.length + 1) = pre.orderedInsert r a ++ post := by
  rw [insertIdx_findIdx]
  induction pre with
  | nil =>
    have hrefl : r a a := Std.Refl.refl a
    simp [hrefl]
  | cons b pre ih =>
    by_cases h : r a b
    · simp [h, List.eraseIdx_append_of_length_le]
    · simpa [h] using ih

end

/-- Moving an element of an ordered list keeps the order exactly when nothing behind it should
precede it. -/
theorem pairwise_moved_iff [Std.Total r] [IsTrans α r] {x a : α} {pre post : List α}
    (h : (pre ++ x :: post).Pairwise r) :
    (pre.orderedInsert r a ++ post).Pairwise r ↔ ∀ b ∈ post, r a b := by
  obtain ⟨hpre, hcons, hbetween⟩ := List.pairwise_append.mp h
  obtain ⟨-, hpost⟩ := List.pairwise_cons.mp hcons
  rw [List.pairwise_append]
  constructor
  · rintro ⟨-, -, hall⟩ b hb
    exact hall a (by simp) b hb
  · intro hall
    refine ⟨hpre.orderedInsert a, hpost, fun c hc b hb => ?_⟩
    rcases (List.mem_orderedInsert r).mp hc with rfl | hc
    · exact hall b hb
    · exact hbetween c hc b (.tail _ hb)

end

/-- Dropping from the front of an ordered list stops at an element that does not satisfy `p`; what
holds of it and goes up along the order holds of all that is left. -/
theorem dropWhile_forall {α : Type _} {r : α → α → Prop} {p : α → Bool} {q : α → Prop}
    (hp : ∀ a, p a = false → q a) (hq : ∀ a b, r a b → q a → q b) {l : List α}
    (h : l.Pairwise r) : ∀ b ∈ l.dropWhile p, q b := by
  induction l with
  | nil => simp
  | cons a l ih =>
    obtain ⟨ha, hl⟩ := List.pairwise_cons.mp h
    rw [List.dropWhile_cons]
    cases hpa : p a with
    | true => exact ih hl
    | false =>
      intro b hb
      rcases List.mem_cons.mp hb with rfl | hb
      · exact hp b hpa
      · exact hq a b (ha b hb) (hp a hpa)

/-- Dropping from the front leaves the elements that do not satisfy `p`. -/
theorem filter_dropWhile {α : Type _} {p q : α → Bool} {l : List α}
    (h : ∀ a ∈ l, q a = true → p a = false) : (l.dropWhile p).filter q = l.filter q := by
  induction l with
  | nil => rfl
  | cons a l ih =>
    rw [List.dropWhile_cons]
    split
    · rename_i hp
      have hq : ¬ q a = true := fun hq => by simp [h a (.head _) hq] at hp
      rw [ih fun b hb => h b (.tail _ hb), List.filter_cons_of_neg hq]
    · rfl

end FrontSearch
