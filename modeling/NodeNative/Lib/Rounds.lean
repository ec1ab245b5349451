import Mathlib.Data.Nat.Find

/-!
# Loops through numbered states

A loop is given by a bound on its rounds: `loop fuel s` is `none` when the bound is reached first. Where
the states that it passes can be numbered, so that the round in `state i` goes on to `state (i + 1)` or
ends the loop with `final i`, what the loop does is known from the rounds that go on alone: it ends
exactly when some round does not go on, and then with what the first such round ends with (`ends_iff`).
-/

namespace Rounds

/-- `n` is the first round that does not go on. -/
def First (goes : Nat → Prop) (n : Nat) : Prop := (∀ i < n, goes i) ∧ ¬ goes n

/-- There is a first number that ends the rounds when one ends them. -/
theorem exists_first_iff {goes : Nat → Prop} : (∃ n, First goes n) ↔ ∃ n, ¬ goes n := by
  classical
  refine ⟨fun ⟨n, h⟩ => ⟨n, h.2⟩, fun h => ⟨Nat.find h, fun i hi => ?_, Nat.find_spec h⟩⟩
  exact Classical.not_not.1 (Nat.find_min h hi)

/-- There is one first round that does not go on. -/
theorem First.unique {goes : Nat → Prop} {m n : Nat} (hm : First goes m) (hn : First goes n) :
    m = n := by
  rcases Nat.lt_trichotomy m n with h | h | h
  · exact absurd (hn.1 m h) hm.2
  · exact h
  · exact absurd (hm.1 n h) hn.2

end Rounds

/-- The rounds of a loop in the states that it passes. -/
structure Rounds {σ ρ : Type _} (loop : Nat → σ → Option ρ) (state : Nat → σ) (goes : Nat → Prop)
    (final : Nat → ρ) : Prop where
  out_of_fuel : ∀ s, loop 0 s = none
  goes_on : ∀ i fuel, goes i → loop (fuel + 1) (state i) = loop fuel (state (i + 1))
  ends : ∀ i fuel, ¬ goes i → loop (fuel + 1) (state i) = some (final i)

namespace Rounds

section
variable {σ ρ : Type _} {loop : Nat → σ → Option ρ} {state : Nat → σ} {goes : Nat → Prop}
  {final : Nat → ρ}

/-- The loop passes the states of the rounds that go on. -/
theorem skip (h : Rounds loop state goes final) (fuel : Nat) {n : Nat} (hgoes : ∀ i < n, goes i) :
    loop (fuel + n) (state 0) = loop fuel (state n) := by
  induction n generalizing fuel with
  | zero => rfl
  | succ n ih =>
    calc loop (fuel + (n + 1)) (state 0)
        = loop (fuel + 1 + n) (state 0) := by rw [Nat.add_right_comm, Nat.add_assoc]
      _ = loop (fuel + 1) (state n) := ih (fuel + 1) fun i hi => hgoes i (Nat.lt_succ_of_lt hi)
      _ = loop fuel (state (n + 1)) := h.goes_on n fuel (hgoes n (Nat.lt_succ_self n))

/-- One round more than those that go on is enough. -/
theorem result (h : Rounds loop state goes final) {n : Nat} (hn : First goes n) :
    loop (n + 1) (state 0) = some (final n) := by
  rw [Nat.add_comm, h.skip 1 hn.1]
  exact h.ends n 0 hn.2

/-- A result is that of the first round from here on that does not go on. -/
theorem exists_of_eq_some (h : Rounds loop state goes final) {fuel i : Nat} {r : ρ}
    (hr : loop fuel (state i) = some r) (hgoes : ∀ j < i, goes j) :
    ∃ n, First goes n ∧ r = final n := by
  induction fuel generalizing i with
  | zero =>
    rw [h.out_of_fuel] at hr
    cases hr
  | succ fuel ih =>
    by_cases hi : goes i
    · rw [h.goes_on i fuel hi] at hr
      exact ih hr fun j hj => (Nat.lt_succ_iff_lt_or_eq.1 hj).elim (hgoes j) (· ▸ hi)
    · rw [h.ends i fuel hi] at hr
      exact ⟨i, ⟨hgoes, hi⟩, (Option.some.inj hr).symm⟩

/-- What the loop gives, at some bound on its rounds. -/
theorem ends_iff (h : Rounds loop state goes final) {r : ρ} :
    (∃ fuel, loop fuel (state 0) = some r) ↔ ∃ n, First goes n ∧ r = final n := by
  refine ⟨fun ⟨_, hr⟩ => h.exists_of_eq_some hr fun j hj => absurd hj (Nat.not_lt_zero j), ?_⟩
  rintro ⟨n, hn, rfl⟩
  exact ⟨n + 1, h.result hn⟩

end

end Rounds
