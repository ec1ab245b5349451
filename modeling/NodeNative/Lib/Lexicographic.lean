import Mathlib.Data.List.Forall2
import Mathlib.Data.List.Lex
import NodeNative.Lib.OrderedMap

/-!
# Lexicographic comparison

`lexicographicalCompare lt` scans two lists for the first place where they differ in the sense of
`lt` on their elements; a proper prefix comes first. When `lt` is a strict weak order the comparison
is one (`isStrictWeakOrder`), and two lists are incomparable exactly when they are as long as each
other and their elements are incomparable place by place (`equiv_iff_forall₂`). Over the natural
order of the elements it is the lexicographic order of the lists (`lexicographicalCompare_lt`), and
comparing the images under a map is comparing by the pulled back order
(`lexicographicalCompare_map`).
-/

namespace Lexicographic

/-- Lists that a transitive relation relates place by place. -/
theorem forall₂_trans {α : Type _} {R : α → α → Prop} (hR : ∀ {a b c}, R a b → R b c → R a c)
    {as bs cs : List α} (hab : List.Forall₂ R as bs) (hbc : List.Forall₂ R bs cs) :
    List.Forall₂ R as cs := by
  induction hab generalizing cs with
  | nil => exact hbc
  | cons h _ ih =>
    cases hbc with
    | cons h' hbc => exact .cons (hR h h') (ih hbc)

section
variable {α : Type _} (lt : α → α → Prop) [DecidableRel lt]

/-- The first list is less at the first place where one of the two is, or it ends before. -/
def lexicographicalCompare : List α → List α → Bool
  | _, [] => false
  | [], _ :: _ => true
  | a :: as, b :: bs =>
    if lt a b then true else if lt b a then false else lexicographicalCompare as bs

@[simp] theorem lexicographicalCompare_nil (as : List α) :
    lexicographicalCompare lt as [] = false := by
  cases as <;> rfl

@[simp] theorem lexicographicalCompare_nil_cons (b : α) (bs : List α) :
    lexicographicalCompare lt [] (b :: bs) = true := rfl

/-- Comparing the images is comparing by the pulled back order. -/
theorem lexicographicalCompare_map {β : Type _} (f : β → α) (as bs : List β) :
    lexicographicalCompare lt (as.map f) (bs.map f) =
      lexicographicalCompare (fun a b => lt (f a) (f b)) as bs := by
  induction as generalizing bs with
  | nil => cases bs <;> rfl
  | cons a as ih =>
    cases bs with
    | nil => rfl
    | cons b bs =>
      simp only [List.map_cons, lexicographicalCompare, ih]

end

section
variable {α : Type _} {lt : α → α → Prop} [DecidableRel lt]

/-- The heads decide unless neither is less. -/
theorem lexicographicalCompare_cons {a b : α} {as bs : List α} :
    lexicographicalCompare lt (a :: as) (b :: bs) = true ↔
      lt a b ∨ OrderedMap.Equiv lt a b ∧ lexicographicalCompare lt as bs = true := by
  rw [lexicographicalCompare]
  split
  · rename_i hab
    exact ⟨fun _ => .inl hab, fun _ => rfl⟩
  · rename_i hab
    split
    · rename_i hba
      exact ⟨fun h => absurd h Bool.false_ne_true,
        fun h => h.elim (absurd · hab) fun heq => absurd hba heq.1.2⟩
    · rename_i hba
      exact ⟨fun h => .inr ⟨⟨hab, hba⟩, h⟩, fun h => h.elim (absurd · hab) And.right⟩

/-- Neither list is less exactly when they have the same length and neither element is less at any
place. -/
theorem equiv_iff_forall₂ {as bs : List α} :
    OrderedMap.Equiv (lexicographicalCompare lt · · = true) as bs ↔
      List.Forall₂ (OrderedMap.Equiv lt) as bs := by
  induction as generalizing bs with
  | nil =>
    cases bs with
    | nil => simp [OrderedMap.Equiv]
    | cons => simp [OrderedMap.Equiv]
  | cons a as ih =>
    cases bs with
    | nil => simp [OrderedMap.Equiv]
    | cons b bs =>
      rw [List.forall₂_cons, ← ih]
      simp only [OrderedMap.Equiv, lexicographicalCompare_cons]
      tauto

variable [IsStrictWeakOrder α lt]

/-- No list is less than itself. -/
theorem lexicographicalCompare_irrefl (as : List α) : ¬ lexicographicalCompare lt as as = true := by
  induction as with
  | nil => exact Bool.false_ne_true
  | cons a as ih =>
    rw [lexicographicalCompare_cons]
    rintro (h | ⟨-, h⟩)
    · exact irrefl a h
    · exact ih h

/-- The comparison is transitive: at the first place where one of the two steps is strict, the
elements before are incomparable on both sides. -/
theorem lexicographicalCompare_trans {as bs cs : List α}
    (hab : lexicographicalCompare lt as bs = true) (hbc : lexicographicalCompare lt bs cs = true) :
    lexicographicalCompare lt as cs = true := by
  induction as generalizing bs cs with
  | nil =>
    cases cs with
    | nil => rwa [lexicographicalCompare_nil] at hbc
    | cons => rfl
  | cons a as ih =>
    cases bs with
    | nil => rw [lexicographicalCompare_nil] at hab; cases hab
    | cons b bs =>
      cases cs with
      | nil => rw [lexicographicalCompare_nil] at hbc; cases hbc
      | cons c cs =>
        rw [lexicographicalCompare_cons] at hab hbc ⊢
        rcases hab with hab | ⟨heq, hab⟩
        · rcases hbc with hbc | ⟨heq', -⟩
          · exact .inl (IsTrans.trans a b c hab hbc)
          · exact .inl (heq'.lt_of_lt hab)
        · rcases hbc with hbc | ⟨heq', hbc⟩
          · exact .inl (heq.symm.lt_of_gt hbc)
          · exact .inr ⟨heq.trans heq', ih hab hbc⟩

/-- A strict weak order of the elements orders the lists strictly and weakly. -/
theorem isStrictWeakOrder : IsStrictWeakOrder (List α) (lexicographicalCompare lt · · = true) where
  irrefl := lexicographicalCompare_irrefl
  trans _ _ _ := lexicographicalCompare_trans
  incomp_trans _ _ _ hab hbc :=
    equiv_iff_forall₂.mpr (forall₂_trans .trans (equiv_iff_forall₂.mp hab) (equiv_iff_forall₂.mp hbc))

end

/-- Over a linear order it is the order of the lists. -/
theorem lexicographicalCompare_lt {α : Type _} [LinearOrder α] (as bs : List α) :
    lexicographicalCompare (· < ·) as bs = true ↔ as < bs := by
  induction as generalizing bs with
  | nil => cases bs <;> simp
  | cons a as ih =>
    cases bs with
    | nil => simp
    | cons b bs =>
      rw [lexicographicalCompare_cons, ih, OrderedMap.equiv_iff_eq, List.cons_lt_cons_iff]

end Lexicographic
