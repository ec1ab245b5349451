import Mathlib.Data.List.Basic
import Mathlib.Data.List.Nodup

/-!
# A pass through a list that changes

A cursor goes through a list without repeats while elements are added at its end and removed. `Pass` says
that it has visited, of the elements that have been in the list since the pass began, those up to where
it stands, each of them once and in their order. This holds whatever happens to the list as long as the
cursor stands on an element of it, so a pass that comes to the end has visited all that were kept
(`Pass.done`).
-/

namespace Cursor

section
variable {α : Type} [DecidableEq α]

/-- What comes behind an element. -/
def following (current : α) (xs : List α) : List α := (xs.dropWhile (· ≠ current)).tail

/-- The elements behind one that stands in the list, -/
theorem following_append {current : α} {before after : List α} (hbefore : current ∉ before) :
    following current (before ++ current :: after) = after := by
  have hdrop : (before ++ current :: after).dropWhile (· ≠ current) = current :: after := by
    rw [List.dropWhile_append_of_pos, List.dropWhile_cons_of_neg (by simp)]
    intro b hb
    simpa using ne_of_mem_of_not_mem hb hbefore
  rw [following, hdrop, List.tail_cons]

/-- which are elements of the list. -/
theorem following_subset {current b : α} {xs : List α} (h : b ∈ following current xs) : b ∈ xs :=
  (List.dropWhile_sublist _).subset (List.mem_of_mem_tail h)

/-- The cursor stands on `current`, has visited these elements, and these ones have been in the list
since the pass began. -/
structure Pass (xs : List α) (current : α) (visited kept : List α) : Prop where
  sublist : kept.Sublist xs
  visits : ∀ before after, xs = before ++ current :: after →
    visited.filter (· ∈ kept) = kept.filter (· ∉ after)

variable {xs before after visited kept : List α} {a b current : α}

/-- In a list without repeats an element has one place. -/
theorem split_unique (hnodup : (before ++ current :: after).Nodup) {before' after' : List α}
    (heq : before ++ current :: after = before' ++ current :: after') :
    before = before' ∧ after = after' := by
  have hnot : current ∉ before := fun hmem =>
    (List.nodup_append.mp hnodup).2.2 current hmem current (.head _) rfl
  have hnot' : current ∉ before' := fun hmem =>
    (List.nodup_append.mp (heq ▸ hnodup)).2.2 current hmem current (.head _) rfl
  have hafter : after = after' := by
    have hfollowing := congrArg (following current) heq
    rwa [following_append hnot, following_append hnot'] at hfollowing
  subst hafter
  exact ⟨List.append_cancel_right heq, rfl⟩

/-- A pass begins with the first element. -/
theorem Pass.start (hnodup : (a :: xs).Nodup) : Pass (a :: xs) a [a] (a :: xs) where
  sublist := .refl _
  visits before after heq := by
    have hnodup' : ([] ++ a :: xs).Nodup := hnodup
    obtain ⟨-, rfl⟩ := split_unique hnodup' heq
    have hself : a ∉ xs := (List.nodup_cons.mp hnodup).1
    simp [hself]

/-- An element is added. -/
theorem Pass.append (h : Pass xs current visited kept) (hnodup : (xs ++ [b]).Nodup)
    (hne : current ≠ b) : Pass (xs ++ [b]) current visited kept where
  sublist := h.sublist.trans (List.sublist_append_left xs [b])
  visits before after heq := by
    have hnew : b ∉ xs := fun hmem => (List.nodup_append.mp hnodup).2.2 b hmem b (.head _) rfl
    rcases List.eq_nil_or_concat after with rfl | ⟨after, c, rfl⟩
    · have hlast := List.append_inj_right' heq rfl
      cases hlast
      exact absurd rfl hne
    · have hsplit : xs ++ [b] = (before ++ current :: after) ++ [c] := by simp [heq]
      obtain ⟨rfl, hlast⟩ := List.append_inj' hsplit rfl
      cases hlast
      rw [h.visits before after rfl]
      refine List.filter_congr fun d hd => ?_
      have hdb : d ≠ b := fun heq => hnew (heq ▸ h.sublist.subset hd)
      simp [hdb]

/-- Where nothing is twice, erasing an element is filtering it out. -/
theorem erase_eq_filter (hnodup : xs.Nodup) (b : α) : xs.erase b = xs.filter (· ≠ b) := by
  rw [hnodup.erase_eq_filter]
  refine List.filter_congr fun c _ => ?_
  by_cases hcb : c = b <;> simp [hcb]

/-- An element is removed. -/
theorem Pass.erase (h : Pass xs current visited kept) (hnodup : xs.Nodup) (b : α) :
    Pass (xs.erase b) current visited (kept.erase b) where
  sublist := h.sublist.erase b
  visits before' after' heq := by
    have hmem : current ∈ xs.erase b := by simp [heq]
    obtain ⟨hne, hcurrent⟩ := hnodup.mem_erase_iff.mp hmem
    obtain ⟨before, after, rfl⟩ := List.append_of_mem hcurrent
    have herase : (before ++ current :: after).erase b =
        before.filter (· ≠ b) ++ current :: after.filter (· ≠ b) := by
      rw [erase_eq_filter hnodup, List.filter_append, List.filter_cons_of_pos (by simpa using hne)]
    have hnodup' := hnodup.erase b
    rw [herase] at heq hnodup'
    obtain ⟨-, rfl⟩ := split_unique hnodup' heq
    have hkept : kept.erase b = kept.filter (· ≠ b) := erase_eq_filter (hnodup.sublist h.sublist) b
    have hvisited := congrArg (List.filter (· ≠ b)) (h.visits before after rfl)
    rw [List.filter_filter, List.filter_filter] at hvisited
    rw [hkept, List.filter_filter]
    calc visited.filter (· ∈ kept.filter (· ≠ b))
        = visited.filter fun c => decide (c ≠ b) && decide (c ∈ kept) := by
          refine List.filter_congr fun c _ => ?_
          simp [and_comm]
      _ = kept.filter fun c => decide (c ≠ b) && decide (c ∉ after) := hvisited
      _ = kept.filter fun c => decide (c ∉ after.filter (· ≠ b)) && decide (c ≠ b) := by
          refine List.filter_congr fun c _ => ?_
          by_cases hcb : c = b <;> simp [hcb]

/-- All elements are removed. -/
theorem Pass.clear (current : α) (visited : List α) : Pass [] current visited [] where
  sublist := .refl _
  visits before after heq := by simp at heq

/-- The cursor goes to the next element. -/
theorem Pass.next (h : Pass (before ++ current :: a :: after) current visited kept)
    (hnodup : (before ++ current :: a :: after).Nodup) :
    Pass (before ++ current :: a :: after) a (visited ++ [a]) kept where
  sublist := h.sublist
  visits before' after' heq := by
    have hsplit : before ++ current :: a :: after = (before ++ [current]) ++ a :: after := by simp
    obtain ⟨-, rfl⟩ := split_unique (hsplit ▸ hnodup) (hsplit ▸ heq)
    have hsub := h.sublist
    rw [hsplit] at hsub hnodup
    obtain ⟨first, rest, rfl, hfirst, hrest⟩ := List.sublist_append_iff.mp hsub
    obtain ⟨hdisjoint, hafter⟩ : (∀ c ∈ first, c ∉ a :: after) ∧ a ∉ after := by
      obtain ⟨-, hnodup', hne⟩ := List.nodup_append.mp hnodup
      exact ⟨fun c hc hmem => hne c (hfirst.subset hc) c hmem rfl, (List.nodup_cons.mp hnodup').1⟩
    have hfirst' : first.filter (· ∉ a :: after) = first :=
      List.filter_eq_self.mpr fun c hc => decide_eq_true (hdisjoint c hc)
    have hfirst'' : first.filter (· ∉ after) = first :=
      List.filter_eq_self.mpr fun c hc => decide_eq_true fun hmem => hdisjoint c hc (.tail _ hmem)
    have hrest' : rest.filter (· ∉ a :: after) = [] :=
      List.filter_eq_nil_iff.mpr fun c hc => by
        simp only [decide_eq_true_eq, not_not]
        exact hrest.subset hc
    have hvisited := h.visits before (a :: after) rfl
    rw [List.filter_append, hfirst', hrest', List.append_nil] at hvisited
    rw [List.filter_append, hvisited, List.filter_append, hfirst'']
    congr 1
    have hnot : a ∉ first := fun hmem => hdisjoint a hmem (.head _)
    rcases List.sublist_cons_iff.mp hrest with hlater | ⟨later, rfl, hlater⟩
    · have hnot' : a ∉ rest := fun hmem => hafter (hlater.subset hmem)
      have hnone : rest.filter (· ∉ after) = [] :=
        List.filter_eq_nil_iff.mpr fun c hc => by simpa using hlater.subset hc
      rw [hnone, List.filter_eq_nil_iff]
      simp [hnot, hnot']
    · have hnone : later.filter (· ∉ after) = [] :=
        List.filter_eq_nil_iff.mpr fun c hc => by simpa using hlater.subset hc
      rw [List.filter_cons_of_pos (by simp), List.filter_cons_of_pos (by simpa using hafter), hnone,
        List.filter_nil]

/-- A pass that comes to the end has visited the elements that were kept, each of them once and in
their order. -/
theorem Pass.done (h : Pass (before ++ [current]) current visited kept) :
    visited.filter (· ∈ kept) = kept := by
  rw [h.visits before [] rfl]
  simp

end

end Cursor
