import Mathlib.Data.List.Basic

/-!
# Reference counting

Objects that own objects. An object is destroyed when no strong reference to it is left, and its own
references go with it, which may destroy further objects (`collect`). A weak reference is expired
when its object is destroyed.

`holds o` lists the objects that `o` owns, and `roots` the references from outside. Objects on a
cycle of references keep each other, as counted objects do; what is reachable from the roots stays
in any case (`Closed.reaches`).
-/

namespace RefCount

section
variable {O : Type _} [DecidableEq O] (holds : O → List O) (roots : List O)

/-- Some reference to the object is left. -/
def counted (alive : List O) (o : O) : Bool :=
  roots.contains o || alive.any fun owner => (holds owner).contains o

/-- `n` rounds, each of which destroys the objects without a reference. -/
def release : Nat → List O → List O
  | 0, alive => alive
  | n + 1, alive => release n (alive.filter (counted holds roots alive))

/-- The objects that stay. There are no more rounds than objects. -/
def collect (alive : List O) : List O := release holds roots alive.length alive

/-- The references from outside, and those of the objects, are to objects that are alive. -/
structure Closed (alive : List O) : Prop where
  roots : ∀ o ∈ roots, o ∈ alive
  holds : ∀ owner ∈ alive, ∀ o ∈ holds owner, o ∈ alive

/-- Some path of references leads to the object. -/
inductive Reaches : O → Prop
  | root {o : O} (h : o ∈ roots) : Reaches o
  | step {owner o : O} (h : Reaches owner) (ho : o ∈ holds owner) : Reaches o

variable {holds roots} {holds' : O → List O} {roots' alive : List O} {o : O}

omit [DecidableEq O] in
/-- More references reach more objects. -/
theorem Reaches.mono (h : Reaches holds roots o) (hroots : roots ⊆ roots')
    (hholds : ∀ owner, holds owner ⊆ holds' owner) : Reaches holds' roots' o := by
  induction h with
  | root hr => exact .root (hroots hr)
  | step _ ho ih => exact .step ih (hholds _ ho)

omit [DecidableEq O] in
/-- What is reachable is alive. -/
theorem Closed.reaches (h : Closed holds roots alive) (ho : Reaches holds roots o) : o ∈ alive := by
  induction ho with
  | root hr => exact h.roots _ hr
  | step _ ho ih => exact h.holds _ ih _ ho

omit [DecidableEq O] in
/-- Taking references away leaves the others valid. -/
theorem Closed.mono (h : Closed holds roots alive) (hroots : roots' ⊆ roots)
    (hholds : ∀ owner ∈ alive, holds' owner ⊆ holds owner) : Closed holds' roots' alive :=
  ⟨fun o ho => h.roots o (hroots ho), fun owner hown o ho => h.holds owner hown o (hholds owner hown ho)⟩

/-- An object is counted when a root or an object that is alive holds it. -/
theorem counted_iff : counted holds roots alive o = true ↔
    o ∈ roots ∨ ∃ owner ∈ alive, o ∈ holds owner := by
  simp [counted]

/-- More references count it too. -/
theorem counted_mono {alive' : List O} (h : counted holds roots alive o = true)
    (hroots : roots ⊆ roots') (hholds : ∀ owner, holds owner ⊆ holds' owner)
    (halive : alive ⊆ alive') : counted holds' roots' alive' o = true := by
  refine counted_iff.mpr ((counted_iff.mp h).imp (hroots ·) ?_)
  rintro ⟨owner, hown, ho⟩
  exact ⟨owner, halive hown, hholds owner ho⟩

/-- A round destroys no object to which a reference is left. -/
theorem Closed.round (h : Closed holds roots alive) :
    Closed holds roots (alive.filter (counted holds roots alive)) where
  roots o ho := List.mem_filter.mpr ⟨h.roots o ho, counted_iff.mpr (.inl ho)⟩
  holds owner hown o ho := by
    have halive := (List.mem_filter.mp hown).1
    exact List.mem_filter.mpr ⟨h.holds owner halive o ho, counted_iff.mpr (.inr ⟨owner, halive, ho⟩)⟩

/-- Releasing objects leaves the rest closed. -/
theorem Closed.release (h : Closed holds roots alive) (n : Nat) :
    Closed holds roots (release holds roots n alive) := by
  induction n generalizing alive with
  | zero => exact h
  | succ n ih => exact ih h.round

/-- The references that are left when an object is destroyed are to objects that stay. -/
theorem Closed.collect (h : Closed holds roots alive) :
    Closed holds roots (collect holds roots alive) :=
  h.release _

/-- No object comes to life. -/
theorem mem_of_mem_release {n : Nat} (ho : o ∈ release holds roots n alive) : o ∈ alive := by
  induction n generalizing alive with
  | zero => exact ho
  | succ n ih => exact List.mem_of_mem_filter (ih ho)

/-- The rounds end with objects that all have a reference. -/
theorem counted_of_mem_release {n : Nat} (hn : alive.length ≤ n)
    (ho : o ∈ release holds roots n alive) :
    counted holds roots (release holds roots n alive) o = true := by
  induction n generalizing alive with
  | zero =>
    rw [List.length_eq_zero_iff.mp (Nat.le_zero.mp hn)] at ho
    cases ho
  | succ n ih =>
    rcases Nat.lt_or_eq_of_le (List.length_filter_le (counted holds roots alive) alive) with hlt | heq
    · exact ih (by omega) ho
    · -- A round that destroys nothing is the last one that does anything.
      have hall : alive.filter (counted holds roots alive) = alive :=
        List.filter_sublist.eq_of_length heq
      have hstay : ∀ m, release holds roots m alive = alive := fun m => by
        induction m with
        | zero => rfl
        | succ m ih => rw [release, hall, ih]
      rw [hstay] at ho ⊢
      exact List.filter_eq_self.mp hall o ho

/-- What has a reference is alive. -/
theorem Closed.mem_of_counted (h : Closed holds roots alive)
    (ho : counted holds roots alive o = true) : o ∈ alive := by
  rcases counted_iff.mp ho with hroot | ⟨owner, hown, ho⟩
  · exact h.roots o hroot
  · exact h.holds owner hown o ho

end

end RefCount
