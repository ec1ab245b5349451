import Mathlib.Data.List.FinRange
import Mathlib.Data.List.OfFn
import Mathlib.Data.List.Perm.Subperm
import Mathlib.Data.Nat.Init

/-!
# Breadth-first order

`level children roots k` lists the nodes at depth `k` below `roots`, from left to right.
`Traverses children q out` is the loop that takes the first node of a queue, visits it and puts its
children at the end. Started with the roots it visits the nodes level by level (`traverses_levels`).
When no node has two parents, the levels below a node without one are disjoint, so there are at most
as many as there are nodes (`level_eq_nil`).
-/

namespace BreadthFirst

section
variable {α : Type _} (children : α → List α)

/-- The nodes at depth `k`. -/
def level (roots : List α) : Nat → List α
  | 0 => roots
  | k + 1 => (level roots k).flatMap children

/-- The nodes at the depths below `d`, level by level. -/
def order (roots : List α) (d : Nat) : List α := (List.range d).flatMap (level children roots)

/-- The queue `q` visits the nodes `out`. -/
inductive Traverses : List α → List α → Prop
  | nil : Traverses [] []
  | cons {a : α} {q out : List α} (h : Traverses (q ++ children a) out) :
      Traverses (a :: q) (a :: out)

variable {children}

/-- The levels below the children of the roots. -/
theorem level_flatMap (roots : List α) (k : Nat) :
    level children (roots.flatMap children) k = level children roots (k + 1) := by
  induction k with
  | zero => rfl
  | succ k ih =>
    show (level children (roots.flatMap children) k).flatMap children = _
    rw [ih]
    rfl

/-- The order begins with the roots. -/
theorem order_succ (roots : List α) (d : Nat) :
    order children roots (d + 1) = roots ++ order children (roots.flatMap children) d := by
  unfold order
  rw [List.range_succ_eq_map, List.flatMap_cons, List.flatMap_map]
  congr 2
  funext k
  exact (level_flatMap roots k).symm

/-- A queue visits its nodes before the ones they put at its end. -/
theorem Traverses.append {q q' out : List α} (h : Traverses children (q' ++ q.flatMap children) out) :
    Traverses children (q ++ q') (q ++ out) := by
  induction q generalizing q' with
  | nil => simpa using h
  | cons a q ih =>
    have hrest : Traverses children (q ++ (q' ++ children a)) (q ++ out) := ih (by simpa using h)
    rw [← List.append_assoc] at hrest
    exact .cons hrest

/-- A queue with the roots of trees of depth at most `d` visits them in breadth-first order. -/
theorem traverses_levels {roots : List α} {d : Nat} (hd : level children roots d = []) :
    Traverses children roots (order children roots d) := by
  induction d generalizing roots with
  | zero =>
    cases show roots = [] from hd
    exact .nil
  | succ d ih =>
    have hempty : level children (roots.flatMap children) d = [] := by rw [level_flatMap, hd]
    have hall : Traverses children (roots ++ []) (roots ++ order children _ d) :=
      .append (ih hempty)
    rw [order_succ]
    rwa [List.append_nil] at hall

/-- A node of the order is a root or a child of another one. -/
theorem mem_order {roots : List α} {d : Nat} {a : α} (ha : a ∈ order children roots d) :
    a ∈ roots ∨ ∃ b ∈ order children roots d, a ∈ children b := by
  obtain ⟨k, hk, ha⟩ := List.mem_flatMap.mp ha
  cases k with
  | zero => exact .inl ha
  | succ k =>
    obtain ⟨b, hb, hab⟩ := List.mem_flatMap.mp ha
    refine .inr ⟨b, List.mem_flatMap.mpr ⟨k, ?_, hb⟩, hab⟩
    rw [List.mem_range] at hk ⊢
    omega

/-- The order has the children of its nodes when the last level is empty. -/
theorem children_mem_order {roots : List α} {d : Nat} (hd : level children roots d = []) {a b : α}
    (ha : a ∈ order children roots d) (hb : b ∈ children a) : b ∈ order children roots d := by
  obtain ⟨k, hk, ha⟩ := List.mem_flatMap.mp ha
  have hnext : b ∈ level children roots (k + 1) := List.mem_flatMap.mpr ⟨a, ha, hb⟩
  refine List.mem_flatMap.mpr ⟨k + 1, ?_, hnext⟩
  rw [List.mem_range] at hk ⊢
  rcases Nat.lt_or_ge (k + 1) d with hlt | hge
  · exact hlt
  · obtain rfl : k + 1 = d := by omega
    rw [hd] at hnext
    cases hnext

/-- So has it the roots. -/
theorem roots_mem_order {roots : List α} {d : Nat} (hd : level children roots d = []) {a : α}
    (ha : a ∈ roots) : a ∈ order children roots d := by
  cases d with
  | zero =>
    cases show roots = [] from hd
    cases ha
  | succ d =>
    rw [order_succ]
    exact List.mem_append_left _ ha

/-- What holds of the roots and of the children of each node that it holds of holds of the order. -/
theorem order_induction {P : α → Prop} {roots : List α} {d : Nat} (hroots : ∀ a ∈ roots, P a)
    (hchildren : ∀ a, P a → ∀ b ∈ children a, P b) {a : α} (ha : a ∈ order children roots d) :
    P a := by
  obtain ⟨k, -, hk⟩ := List.mem_flatMap.mp ha
  clear ha
  induction k generalizing a with
  | zero => exact hroots a hk
  | succ k ih =>
    obtain ⟨b, hb, hab⟩ := List.mem_flatMap.mp hk
    exact hchildren b (ih hb) a hab

/-! ## Finite trees -/

section
variable {root : α} (hroot : ∀ a, root ∉ children a)
  (hparent : ∀ a b c, c ∈ children a → c ∈ children b → a = b)
include hroot hparent

/-- No node is on two levels. -/
theorem level_unique {i j : Nat} {a : α} (hi : a ∈ level children [root] i)
    (hj : a ∈ level children [root] j) : i = j := by
  induction i generalizing a j with
  | zero =>
    cases List.mem_singleton.mp hi
    cases j with
    | zero => rfl
    | succ j =>
      obtain ⟨b, -, hb⟩ := List.mem_flatMap.mp hj
      exact absurd hb (hroot b)
  | succ i ih =>
    obtain ⟨b, hb, hab⟩ := List.mem_flatMap.mp hi
    cases j with
    | zero =>
      cases List.mem_singleton.mp hj
      exact absurd hab (hroot b)
    | succ j =>
      obtain ⟨c, hc, hac⟩ := List.mem_flatMap.mp hj
      cases hparent b c a hab hac
      rw [ih hb hc]

/-- The tree below a node without a parent has no more levels than there are nodes. -/
theorem level_eq_nil {nodes : List α} (hmem : root ∈ nodes)
    (hchildren : ∀ a, ∀ b ∈ children a, b ∈ nodes) :
    level children (children root) nodes.length = [] := by
  have hbelow : ∀ k, level children (children root) k = level children [root] (k + 1) := by
    intro k
    rw [← level_flatMap, List.flatMap_singleton]
  have hnodes : ∀ k, ∀ a ∈ level children [root] k, a ∈ nodes := by
    rintro (_ | k) a ha
    · cases List.mem_singleton.mp ha
      exact hmem
    · obtain ⟨b, -, hb⟩ := List.mem_flatMap.mp ha
      exact hchildren b a hb
  by_contra hne
  rw [hbelow] at hne
  -- A level that is not empty has none above it that is.
  have habove : ∀ k ≤ nodes.length + 1, ∃ a, a ∈ level children [root] k := by
    intro k hk
    induction hk using Nat.decreasingInduction with
    | self => exact List.exists_mem_of_ne_nil _ hne
    | of_succ k _ ih =>
      obtain ⟨a, ha⟩ := ih
      obtain ⟨b, hb, -⟩ := List.mem_flatMap.mp ha
      exact ⟨b, hb⟩
  have hpick : ∀ k : Fin (nodes.length + 1), ∃ a, a ∈ level children [root] k :=
    fun k => habove k (by omega)
  choose pick hpicked using hpick
  have hinj : pick.Injective := by
    intro i j hij
    have hj := hpicked j
    rw [← hij] at hj
    exact Fin.ext (level_unique hroot hparent (hpicked i) hj)
  have hnd : (List.ofFn pick).Nodup := List.nodup_ofFn.mpr hinj
  have hsub : List.ofFn pick ⊆ nodes := by
    intro a ha
    obtain ⟨k, rfl⟩ := List.mem_ofFn.mp ha
    exact hnodes k _ (hpicked k)
  have hle := (List.subperm_of_subset hnd hsub).length_le
  rw [List.length_ofFn] at hle
  omega

end

end

end BreadthFirst
