import Mathlib.Order.Lattice
import Mathlib.Order.RelClasses

/-!
# Maps ordered by a strict weak order

A map is the list of its entries in key order, and two keys are the same key when neither is less
than the other. `insert` assigns to a key as `operator[]` of an ordered container does: an entry
that is there keeps its key and takes the new value.
-/

namespace OrderedMap

section
variable {K : Type _} {lt : K → K → Prop}

/-- Neither key is less than the other. -/
def Equiv (lt : K → K → Prop) (a b : K) : Prop := ¬ lt a b ∧ ¬ lt b a

instance [DecidableRel lt] (a b : K) : Decidable (Equiv lt a b) :=
  inferInstanceAs (Decidable (_ ∧ _))

/-- Equivalent keys are so both ways, -/
theorem Equiv.symm {a b : K} (h : Equiv lt a b) : Equiv lt b a := ⟨h.2, h.1⟩

variable [IsStrictWeakOrder K lt]

/-- and in a row. -/
theorem Equiv.trans {a b c : K} (hab : Equiv lt a b) (hbc : Equiv lt b c) : Equiv lt a c :=
  IsStrictWeakOrder.incomp_trans a b c hab hbc

/-- Keys that are the same key are interchangeable on the left of `Equiv`. -/
theorem Equiv.congr_left {a b : K} (h : Equiv lt a b) (c : K) : Equiv lt a c ↔ Equiv lt b c :=
  ⟨h.symm.trans, h.trans⟩

end

section
variable {K V : Type _} {lt : K → K → Prop} [DecidableRel lt]

/-- The value of a key. -/
def find? (lt : K → K → Prop) [DecidableRel lt] (k : K) : List (K × V) → Option V
  | [] => none
  | (k', v') :: m => if Equiv lt k' k then some v' else find? lt k m

/-- Assignment to a key. -/
def insert (lt : K → K → Prop) [DecidableRel lt] (k : K) (v : V) : List (K × V) → List (K × V)
  | [] => [(k, v)]
  | (k', v') :: m =>
    if lt k k' then (k, v) :: (k', v') :: m
    else if lt k' k then (k', v') :: insert lt k v m
    else (k', v) :: m

/-- Assignments in the order of a list of entries. -/
def insertAll (lt : K → K → Prop) [DecidableRel lt] (m es : List (K × V)) : List (K × V) :=
  es.foldl (fun m e => insert lt e.1 e.2 m) m

@[simp] theorem find?_nil (k : K) : find? lt k ([] : List (K × V)) = none := rfl

@[simp] theorem insertAll_nil (m : List (K × V)) : insertAll lt m [] = m := rfl

@[simp] theorem insertAll_cons (m : List (K × V)) (e : K × V) (es : List (K × V)) :
    insertAll lt m (e :: es) = insertAll lt (insert lt e.1 e.2 m) es := rfl

variable [IsStrictWeakOrder K lt]

/-- The value of a key after an assignment: the assigned value for the same key, and what it was
for every other. -/
theorem find?_insert (k k' : K) (v : V) (m : List (K × V)) :
    find? lt k' (insert lt k v m) = if Equiv lt k k' then some v else find? lt k' m := by
  induction m with
  | nil => simp [insert, find?]
  | cons e m ih =>
    obtain ⟨k₀, v₀⟩ := e
    by_cases h1 : lt k k₀
    · simp [insert, h1, find?]
    · by_cases h2 : lt k₀ k
      · simp only [insert, h1, h2, if_false, if_true, find?, ih]
        by_cases h0 : Equiv lt k₀ k'
        · have hne : ¬ Equiv lt k k' := fun h => (h0.trans h.symm).1 h2
          simp [h0, hne]
        · simp [h0]
      · have heq : Equiv lt k k₀ := ⟨h1, h2⟩
        simp only [insert, h1, h2, if_false, find?, heq.congr_left]
        by_cases h0 : Equiv lt k₀ k' <;> simp [h0]

/-- Two maps with the same value at a key have the same value there after the same assignments. -/
theorem find?_insertAll_congr {k : K} {m m' : List (K × V)} (es : List (K × V))
    (h : find? lt k m = find? lt k m') :
    find? lt k (insertAll lt m es) = find? lt k (insertAll lt m' es) := by
  induction es generalizing m m' with
  | nil => exact h
  | cons e es ih =>
    refine ih ?_
    rw [find?_insert, find?_insert, h]

/-- Assignments decide the value of every key they assign to, whatever was there. -/
theorem find?_insertAll_of_mem {k : K} {es : List (K × V)} (m m' : List (K × V))
    (h : ∃ e ∈ es, Equiv lt e.1 k) :
    find? lt k (insertAll lt m es) = find? lt k (insertAll lt m' es) := by
  induction es generalizing m m' with
  | nil =>
    obtain ⟨e, he, _⟩ := h
    cases he
  | cons e es ih =>
    by_cases hk : Equiv lt e.1 k
    · exact find?_insertAll_congr es (by rw [find?_insert, find?_insert, if_pos hk, if_pos hk])
    · obtain ⟨e', he', hk'⟩ := h
      rcases List.mem_cons.1 he' with rfl | hmem
      · exact absurd hk' hk
      · exact ih _ _ ⟨e', hmem, hk'⟩

/-- The value that a list of entries assigns to a key last. -/
def last? (lt : K → K → Prop) [DecidableRel lt] (k : K) (es : List (K × V)) : Option V :=
  (es.reverse.find? fun e => Equiv lt e.1 k).map (·.2)

section
omit [IsStrictWeakOrder K lt]

@[simp] theorem last?_singleton (k : K) (e : K × V) :
    last? lt k [e] = if Equiv lt e.1 k then some e.2 else none := by
  by_cases he : Equiv lt e.1 k <;> simp [last?, he]

/-- The entries behind decide, if one of them has the key. -/
theorem last?_append (k : K) (es es' : List (K × V)) :
    last? lt k (es ++ es') = (last? lt k es').or (last? lt k es) := by
  unfold last?
  rw [List.reverse_append, List.find?_append, Option.map_or]

end

/-- After some assignments a key has the value that was assigned last, and its old one if none was. -/
theorem find?_insertAll (k : K) (m es : List (K × V)) :
    find? lt k (insertAll lt m es) = (last? lt k es).or (find? lt k m) := by
  induction es generalizing m with
  | nil => rfl
  | cons e es ih =>
    rw [insertAll_cons, ih, find?_insert, ← List.singleton_append, last?_append, last?_singleton,
      Option.or_assoc]
    split <;> rfl

/-- The same key has the same last value. -/
theorem last?_congr {k k' : K} (h : Equiv lt k k') (es : List (K × V)) :
    last? lt k es = last? lt k' es := by
  have hsame : (fun e : K × V => decide (Equiv lt e.1 k)) = fun e => decide (Equiv lt e.1 k') := by
    funext e
    exact decide_eq_decide.mpr ⟨fun he => he.trans h, fun he => he.trans h.symm⟩
  unfold last?
  rw [hsame]

/-- The keys of a map ascend. -/
def Sorted (lt : K → K → Prop) (m : List (K × V)) : Prop := m.Pairwise fun a b => lt a.1 b.1

/-- The same key is on the same side of another. -/
theorem Equiv.lt_of_lt {a b c : K} (hbc : Equiv lt b c) (hab : lt a b) : lt a c := by
  by_contra hac
  have hca : ¬ lt c a := fun hca => hbc.2 (IsTrans.trans c a b hca hab)
  exact (Equiv.trans ⟨hac, hca⟩ hbc.symm).1 hab

/-- A key below one of two equivalent keys is below the other. -/
theorem Equiv.lt_of_gt {a b c : K} (hbc : Equiv lt b c) (hba : lt b a) : lt c a := by
  by_contra hca
  have hac : ¬ lt a c := fun hac => hbc.1 (IsTrans.trans b a c hba hac)
  exact (Equiv.trans hbc ⟨hca, hac⟩).1 hba

/-- An assignment keeps the keys that are there and adds its own. -/
theorem equiv_or_mem_of_mem_insert {k : K} {v : V} {m : List (K × V)} {e : K × V}
    (he : e ∈ insert lt k v m) : Equiv lt k e.1 ∨ e ∈ m := by
  induction m with
  | nil =>
    cases List.mem_singleton.mp he
    exact .inl ⟨irrefl k, irrefl k⟩
  | cons e₀ m ih =>
    unfold insert at he
    split at he
    · rcases List.mem_cons.mp he with rfl | he
      · exact .inl ⟨irrefl k, irrefl k⟩
      · exact .inr he
    · split at he
      · rcases List.mem_cons.mp he with rfl | he
        · exact .inr (.head _)
        · exact (ih he).imp_right (.tail _)
      · rename_i hlt hgt
        rcases List.mem_cons.mp he with rfl | he
        · exact .inl ⟨hlt, hgt⟩
        · exact .inr (.tail _ he)

/-- The keys still ascend after an assignment. -/
theorem Sorted.insert {m : List (K × V)} (h : Sorted lt m) (k : K) (v : V) :
    Sorted lt (insert lt k v m) := by
  induction m with
  | nil => exact List.pairwise_singleton _ _
  | cons e m ih =>
    obtain ⟨hhead, htail⟩ := List.pairwise_cons.mp h
    unfold OrderedMap.insert
    split
    · rename_i hlt
      refine List.pairwise_cons.mpr ⟨fun e' he' => ?_, h⟩
      rcases List.mem_cons.mp he' with rfl | he'
      · exact hlt
      · exact IsTrans.trans _ _ _ hlt (hhead e' he')
    · split
      · rename_i hgt
        refine List.pairwise_cons.mpr ⟨fun e' he' => ?_, ih htail⟩
        rcases equiv_or_mem_of_mem_insert he' with hk | he'
        · exact hk.lt_of_lt hgt
        · exact hhead e' he'
      · exact List.pairwise_cons.mpr ⟨hhead, htail⟩

/-- The value of a key is the one of the entry that has it. -/
theorem Sorted.find?_eq_some_iff {m : List (K × V)} (h : Sorted lt m) {k : K} {v : V} :
    find? lt k m = some v ↔ ∃ k', Equiv lt k' k ∧ (k', v) ∈ m := by
  induction m with
  | nil => simp
  | cons e m ih =>
    obtain ⟨hhead, htail⟩ := List.pairwise_cons.mp h
    have hih := ih htail
    rw [find?]
    split
    · rename_i hk
      constructor
      · rintro ⟨⟩
        exact ⟨e.1, hk, .head _⟩
      · rintro ⟨k', hk', hmem⟩
        rcases List.mem_cons.mp hmem with rfl | hmem
        · rfl
        · exact absurd (hhead _ hmem) (hk.trans hk'.symm).1
    · rename_i hk
      rw [hih]
      constructor
      · rintro ⟨k', hk', hmem⟩
        exact ⟨k', hk', .tail _ hmem⟩
      · rintro ⟨k', hk', hmem⟩
        rcases List.mem_cons.mp hmem with rfl | hmem
        · exact absurd hk' hk
        · exact ⟨k', hk', hmem⟩

/-- Entries that are inserted into a sorted map leave it sorted. -/
theorem Sorted.insertAll {m : List (K × V)} (h : Sorted lt m) (es : List (K × V)) :
    Sorted lt (insertAll lt m es) := by
  induction es generalizing m with
  | nil => exact h
  | cons e es ih => exact ih (h.insert e.1 e.2)

/-- An entry behind all others. -/
theorem insert_of_forall_lt {m : List (K × V)} {k : K} (h : ∀ e ∈ m, lt e.1 k) (v : V) :
    insert lt k v m = m ++ [(k, v)] := by
  induction m with
  | nil => rfl
  | cons e m ih =>
    obtain ⟨hlt, hm⟩ := List.forall_mem_cons.mp h
    rw [OrderedMap.insert, if_neg (asymm hlt), if_pos hlt, ih hm]
    rfl

/-- A map is what its entries make, one after the other. -/
theorem Sorted.insertAll_append {m es : List (K × V)} (h : Sorted lt (m ++ es)) :
    OrderedMap.insertAll lt m es = m ++ es := by
  induction es generalizing m with
  | nil => rw [insertAll_nil, List.append_nil]
  | cons e es ih =>
    have hlt : ∀ e' ∈ m, lt e'.1 e.1 := fun e' he' =>
      (List.pairwise_append.mp h).2.2 e' he' e List.mem_cons_self
    rw [List.append_cons] at h ⊢
    rw [insertAll_cons, insert_of_forall_lt hlt]
    exact ih h

end

/-! ### Maps of lists -/

section
variable {K V : Type _} [LinearOrder K]

instance isStrictWeakOrder_lt : IsStrictWeakOrder K (· < ·) := isStrictWeakOrder_of_isOrderConnected

/-- The keys of a map ascend. -/
def Ascending (m : List (K × V)) : Prop := m.Pairwise fun a b => a.1 < b.1

/-- The keys still ascend after an assignment. -/
theorem Ascending.insert {m : List (K × V)} (h : Ascending m) (k : K) (v : V) :
    Ascending (insert (· < ·) k v m) := Sorted.insert h k v

/-- Append a value to the list of its key. -/
def pushBack (m : List (K × List V)) (e : K × V) : List (K × List V) :=
  insert (· < ·) e.1 ((find? (· < ·) e.1 m).getD [] ++ [e.2]) m

/-- All values in the order of the map. -/
def flatten (m : List (K × List V)) : List (K × V) := m.flatMap fun e => e.2.map (e.1, ·)

/-- In a linear order equivalent keys are equal. -/
theorem equiv_iff_eq {a b : K} : Equiv (· < ·) a b ↔ a = b := by
  constructor
  · rintro ⟨hab, hba⟩
    exact le_antisymm (not_lt.mp hba) (not_lt.mp hab)
  · rintro rfl
    exact ⟨lt_irrefl a, lt_irrefl a⟩

/-- The values come in ascending order of their keys. -/
theorem Ascending.flatten_sorted {m : List (K × List V)} (h : Ascending m) :
    (flatten m).Pairwise fun a b => a.1 ≤ b.1 := by
  induction m with
  | nil => exact List.Pairwise.nil
  | cons e m ih =>
    obtain ⟨hhead, htail⟩ := List.pairwise_cons.mp h
    refine List.pairwise_append.mpr ⟨?_, ih htail, fun a ha b hb => ?_⟩
    · exact List.pairwise_map.mpr (List.pairwise_of_forall fun _ _ => le_refl e.1)
    · obtain ⟨v, -, rfl⟩ := List.mem_map.mp ha
      obtain ⟨e', hmem, hb⟩ := List.mem_flatMap.mp hb
      obtain ⟨v', -, rfl⟩ := List.mem_map.mp hb
      exact (hhead e' hmem).le

/-- The values of one key are those of its list. -/
theorem Ascending.filter_flatten {m : List (K × List V)} (h : Ascending m) (k : K) :
    (flatten m).filter (·.1 = k) = ((find? (· < ·) k m).getD []).map (k, ·) := by
  induction m with
  | nil => rfl
  | cons e m ih =>
    obtain ⟨hhead, htail⟩ := List.pairwise_cons.mp h
    show List.filter _ (e.2.map (e.1, ·) ++ flatten m) = _
    rw [List.filter_append, find?, ih htail]
    by_cases hk : e.1 = k
    · subst hk
      have hrest : find? (· < ·) e.1 m = none := by
        clear ih htail h
        induction m with
        | nil => rfl
        | cons e' m ih =>
          have hne : ¬ Equiv (· < ·) e'.1 e.1 := fun heq => heq.2 (hhead e' (.head _))
          rw [find?, if_neg hne]
          exact ih fun e'' he'' => hhead e'' (.tail _ he'')
      rw [if_pos (equiv_iff_eq.mpr rfl), hrest]
      simp
    · rw [if_neg fun heq => hk (equiv_iff_eq.mp heq)]
      simp [hk]

/-- Values that are appended one after the other come in a stable order by their keys: they ascend,
and those of one key stay as they were. -/
theorem flatten_pushBack (es : List (K × V)) :
    ((flatten (es.foldl pushBack [])).Pairwise fun a b => a.1 ≤ b.1) ∧
      ∀ k, (flatten (es.foldl pushBack [])).filter (·.1 = k) = es.filter (·.1 = k) := by
  have hfold : ∀ m : List (K × List V), Ascending m → Ascending (es.foldl pushBack m) ∧
      ∀ k, ((find? (· < ·) k (es.foldl pushBack m)).getD []).map (k, ·) =
        ((find? (· < ·) k m).getD []).map (k, ·) ++ es.filter (·.1 = k) := by
    induction es with
    | nil => exact fun m hm => ⟨hm, fun k => by simp⟩
    | cons e es ih =>
      intro m hm
      obtain ⟨hsorted, hfilter⟩ := ih (pushBack m e) (hm.insert _ _)
      refine ⟨hsorted, fun k => ?_⟩
      rw [List.foldl_cons, hfilter k, pushBack, find?_insert]
      by_cases hk : e.1 = k
      · subst hk
        simp [equiv_iff_eq]
      · simp [equiv_iff_eq, hk]
  obtain ⟨hsorted, hfilter⟩ := hfold [] List.Pairwise.nil
  refine ⟨hsorted.flatten_sorted, fun k => ?_⟩
  rw [hsorted.filter_flatten, hfilter]
  simp

end

end OrderedMap
