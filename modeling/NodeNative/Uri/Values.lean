import NodeNative.Lib.Transition
import NodeNative.Uri.Extract

/-!
# Changing values

`addChild`, `renameChild` and `removeChild` change a tree of values at one of its nodes. `renameChild`
looks its old name up a second time where it means the new one, so it never renames a child that is
there (`renames_iff`). `addChild` gives the child that it replaces the new value and leaves its children
to it, so it replaces cleanly exactly the children that have none (`replacesCleanly_iff`).
-/

namespace NodeNative.Uri

open Http Transition

/-! ### Operations -/

/-- `std::map::insert`: a child that is there stays. -/
def UriTemplateValue.insertChild (v : UriTemplateValue) (name : Str) (child : UriTemplateValue) :
    UriTemplateValue :=
  match v.child? name with
  | some _ => v
  | none => v.setChild name child

/-- `std::map::erase`. -/
def UriTemplateValue.eraseChild (v : UriTemplateValue) (name : Str) : UriTemplateValue :=
  { v with childValues := v.childValues.filter (·.1 != name) }

/-- The values and what is returned. The constructor that takes the old child copies its name. Source:
`UriTemplateValue.cpp:43`. -/
def UriTemplateValue.renameChild (v : UriTemplateValue) (oldName newName : Str) :
    UriTemplateValue × Bool :=
  match v.child? oldName with
  | none => (v, false)
  | some itOld =>
    -- The name that is looked up here is the old one again.
    match v.child? oldName with
    | some _ => (v, false)
    | none => ((v.insertChild newName itOld).eraseChild oldName, true)

/-- Source: `UriTemplateValue.cpp:63`. -/
def UriTemplateValue.removeChild (v : UriTemplateValue) (name : Str) : UriTemplateValue × Bool :=
  match v.child? name with
  | none => (v, false)
  | some _ => (v.eraseChild name, true)

/-! ### Renaming -/

/-- A call of `renameChild` moves the child of a name to a new name, or changes nothing. -/
structure Renames (v : UriTemplateValue) (a b : Str) (v' : UriTemplateValue) (returned : Bool) :
    Prop where
  returned_iff : returned = true ↔ (v.child? a).isSome ∧ v.child? b = none
  moved : returned = true → ∃ child, v.child? a = some child ∧ v'.child? b = some { child with name := b }
  removed : returned = true → v'.child? a = none
  others : returned = true → v'.name = v.name ∧ v'.value = v.value ∧
    ∀ name, name ≠ a → name ≠ b → v'.child? name = v.child? name
  unchanged : returned = false → v' = v

/-- `renameChild` changes nothing and returns false. -/
theorem renameChild_eq (v : UriTemplateValue) (oldName newName : Str) :
    v.renameChild oldName newName = (v, false) := by
  rw [UriTemplateValue.renameChild]
  cases v.child? oldName <;> rfl

/-- A child is renamed exactly when there is nothing to rename. -/
theorem renames_iff (v : UriTemplateValue) (a b : Str) :
    Renames v a b (v.renameChild a b).1 (v.renameChild a b).2 ↔
      ¬ ((v.child? a).isSome ∧ v.child? b = none) := by
  rw [renameChild_eq]
  constructor
  · intro hrenames hboth
    exact Bool.false_ne_true (hrenames.returned_iff.mpr hboth)
  · intro hnone
    exact ⟨iff_of_false Bool.false_ne_true hnone, nofun, nofun, nofun, fun _ => rfl⟩

/-- A value with one child. -/
def oneChild : UriTemplateValue := ⟨[], [], [("a".toList, ⟨"a".toList, "1".toList, []⟩)]⟩

/-- The only child of a value does not get a name that is free. -/
theorem not_renames : ¬ Renames oneChild "a".toList "b".toList
    (oneChild.renameChild "a".toList "b".toList).1 (oneChild.renameChild "a".toList "b".toList).2 := by
  intro hrenames
  have htrue : (oneChild.renameChild "a".toList "b".toList).2 = true :=
    hrenames.returned_iff.mpr ⟨rfl, rfl⟩
  cases htrue

/-! ### Calls on a tree -/

/-- A call on the node at a path. -/
def UriTemplateValue.update (call : UriTemplateValue → Option UriTemplateValue) :
    List Str → UriTemplateValue → Option UriTemplateValue
  | [], v => call v
  | name :: path, v => do
    let child ← v.child? name
    let child' ← update call path child
    return v.setChild name child'

/-- A call that changes a tree, on the node at a path. -/
inductive Change where
  | addChild (path : List Str) (iName iValue : Str) (replaceIfExists : Bool)
  | renameChild (path : List Str) (oldName newName : Str)
  | removeChild (path : List Str) (name : Str)

/-- A call whose assertion fails does not return. -/
def change (v : UriTemplateValue) : Change → Option UriTemplateValue
  | .addChild path iName iValue replaceIfExists =>
    v.update (fun node => (node.addChild iName iValue replaceIfExists).toOption) path
  | .renameChild path oldName newName =>
    v.update (fun node => some (node.renameChild oldName newName).1) path
  | .removeChild path name => v.update (fun node => some (node.removeChild name).1) path

/-! ### Names -/

/-- Each child is stored under its name. -/
inductive WellNamed : UriTemplateValue → Prop
  | intro {v : UriTemplateValue} (name : ∀ key child, v.child? key = some child → child.name = key)
      (child : ∀ key child, v.child? key = some child → WellNamed child) : WellNamed v

section
variable {v v' child t : UriTemplateValue} {name key : Str} {path : List Str}
  {call : UriTemplateValue → Option UriTemplateValue}

/-- A result that did not fail. -/
theorem toOption_eq_some {e : Except String UriTemplateValue} (h : e.toOption = some v) :
    e = .ok v := by
  cases e with
  | error message => cases h
  | ok v' =>
    cases h
    rfl

/-- The other children stay, -/
theorem child?_eraseChild (h : key ≠ name) : (v.eraseChild name).child? key = v.child? key :=
  lookup_filter_ne h

/-- and the one that is erased is not found. -/
theorem child?_eraseChild_self : (v.eraseChild name).child? name = none := by
  rw [UriTemplateValue.child?, List.lookup_eq_none_iff]
  intro entry hentry
  have hne : (entry.1 != name) = true := (List.mem_filter.mp hentry).2
  exact bne_comm.trans hne

/-- A value without children. -/
theorem WellNamed.leaf (name value : Str) : WellNamed ⟨name, value, []⟩ :=
  .intro nofun nofun

/-- A child has the name it is under. -/
theorem WellNamed.name_eq (h : WellNamed v) (hchild : v.child? key = some child) :
    child.name = key := by
  cases h with
  | intro hname _ => exact hname key child hchild

/-- The same holds in each child, -/
theorem WellNamed.of_child (h : WellNamed v) (hchild : v.child? key = some child) : WellNamed child := by
  cases h with
  | intro _ hchildren => exact hchildren key child hchild

/-- and in each node. -/
theorem WellNamed.node (h : WellNamed v) (hnode : v.node? path = some t) : WellNamed t := by
  induction path generalizing v with
  | nil =>
    cases hnode
    exact h
  | cons name path ih =>
    obtain ⟨child, hchild, hrest⟩ := Option.bind_eq_some_iff.mp hnode
    exact ih (h.of_child hchild) hrest

/-- Children that were there under their names, or are the one that is set. -/
theorem WellNamed.setChild (h : WellNamed v) (hname : child.name = name) (hchild : WellNamed child) :
    WellNamed (v.setChild name child) := by
  have hcases : ∀ key other, (v.setChild name child).child? key = some other →
      other.name = key ∧ WellNamed other := by
    intro key other hother
    rcases eq_or_ne key name with rfl | hne
    · cases child?_setChild_self.symm.trans hother
      exact ⟨hname, hchild⟩
    · rw [child?_setChild_of_ne hne] at hother
      exact ⟨h.name_eq hother, h.of_child hother⟩
  exact .intro (fun key other hother => (hcases key other hother).1)
    (fun key other hother => (hcases key other hother).2)

/-- Erasing a child keeps the names, -/
theorem WellNamed.eraseChild (h : WellNamed v) (name : Str) : WellNamed (v.eraseChild name) := by
  have hcases : ∀ key other, (v.eraseChild name).child? key = some other →
      v.child? key = some other := by
    intro key other hother
    have hne : key ≠ name := by
      rintro rfl
      cases child?_eraseChild_self.symm.trans hother
    rwa [child?_eraseChild hne] at hother
  exact .intro (fun key other hother => h.name_eq (hcases key other hother))
    (fun key other hother => h.of_child (hcases key other hother))

/-- A new child has no children; one that is replaced keeps its own. -/
theorem addChild_true (v : UriTemplateValue) (iName iValue : Str) :
    v.addChild iName iValue true = .ok (v.setChild iName
      (((v.child? iName).map ({ · with value := iValue })).getD ⟨iName, iValue, []⟩)) := by
  rw [UriTemplateValue.addChild]
  cases v.child? iName <;> rfl

/-- and so does adding one, -/
theorem WellNamed.addChild {iName iValue : Str} {replaceIfExists : Bool} (h : WellNamed v)
    (hadd : v.addChild iName iValue replaceIfExists = .ok v') : WellNamed v' ∧ v'.name = v.name := by
  rw [UriTemplateValue.addChild] at hadd
  split at hadd
  · cases hadd
    exact ⟨h.setChild rfl (.leaf _ _), rfl⟩
  · next child hchild =>
    split at hadd
    · cases hadd
      have hreplaced : WellNamed { child with value := iValue } := by
        cases h.of_child hchild with
        | intro hname hchildren => exact .intro hname hchildren
      have hname : child.name = iName := h.name_eq hchild
      exact ⟨h.setChild hname hreplaced, rfl⟩
    · cases hadd

/-- or removing one. -/
theorem WellNamed.removeChild (h : WellNamed v) (name : Str) :
    WellNamed (v.removeChild name).1 ∧ (v.removeChild name).1.name = v.name := by
  rw [UriTemplateValue.removeChild]
  cases v.child? name with
  | none => exact ⟨h, rfl⟩
  | some _ => exact ⟨h.eraseChild name, rfl⟩

/-- A call that keeps the name of its node keeps the names along the path to it. -/
theorem WellNamed.update
    (hcall : ∀ {node node'}, WellNamed node → call node = some node' →
      WellNamed node' ∧ node'.name = node.name)
    (h : WellNamed v) (hupdate : v.update call path = some v') : WellNamed v' ∧ v'.name = v.name := by
  induction path generalizing v v' with
  | nil => exact hcall h hupdate
  | cons name path ih =>
    obtain ⟨child, hchild, hrest⟩ := Option.bind_eq_some_iff.mp hupdate
    obtain ⟨child', hchild', hset⟩ := Option.bind_eq_some_iff.mp hrest
    cases hset
    obtain ⟨hwell, hname⟩ := ih (h.of_child hchild) hchild'
    exact ⟨h.setChild (hname.trans (h.name_eq hchild)) hwell, rfl⟩

/-- Each call keeps the names, -/
theorem WellNamed.change {l : Change} (h : WellNamed v) (hchange : change v l = some v') :
    WellNamed v' := by
  cases l with
  | addChild path iName iValue replaceIfExists =>
    refine (h.update (fun hnode hcall => ?_) hchange).1
    exact hnode.addChild (toOption_eq_some hcall)
  | renameChild path oldName newName =>
    refine (h.update (fun hnode hcall => ?_) hchange).1
    rw [renameChild_eq] at hcall
    cases hcall
    exact ⟨hnode, rfl⟩
  | removeChild path name =>
    refine (h.update (fun hnode hcall => ?_) hchange).1
    cases hcall
    exact hnode.removeChild name

/-- and so do all calls. -/
theorem WellNamed.run {calls : List Change} (h : WellNamed v)
    (hrun : Transition.run Uri.change v calls = some v') : WellNamed v' :=
  run_invariant (fun _ _ _ hwell hstep => hwell.change hstep) h hrun

end

/-! ### Replacing -/

/-- `addChild` on the children of a value, as `saveValues` calls it. -/
def addChildren (v : UriTemplateValue) (values : List (Str × Str)) : Except String UriTemplateValue :=
  values.foldlM (fun v nested => v.addChild nested.1 nested.2 false) v

/-- `addChild` with `replaceIfExists` leaves nothing of the child it replaces: the child under the name
is as a new one, the others stay, and names that are added under it are not taken. -/
def ReplacesCleanly (v : UriTemplateValue) (name value : Str) : Prop :=
  ∃ v', v.addChild name value true = .ok v' ∧ v'.child? name = some ⟨name, value, []⟩ ∧
    v'.name = v.name ∧ v'.value = v.value ∧
    (∀ key, key ≠ name → v'.child? key = v.child? key) ∧
    ∀ child values, v'.child? name = some child → (values.map Prod.fst).Nodup →
      ∃ child', addChildren child values = .ok child'

/-- Names that are free and differ from one another can all be added. -/
theorem addChildren_ok {values : List (Str × Str)} (hdistinct : (values.map Prod.fst).Nodup)
    (v : UriTemplateValue) (hnew : ∀ nested ∈ values, v.child? nested.1 = none) :
    ∃ v', addChildren v values = .ok v' := by
  induction values generalizing v with
  | nil => exact ⟨v, rfl⟩
  | cons nested values ih =>
    obtain ⟨hnotmem, hrest⟩ := List.nodup_cons.mp hdistinct
    have hadd := addChild_new (hnew nested (.head _)) nested.2
    obtain ⟨v', hv'⟩ := ih hrest (v.setChild nested.1 ⟨nested.1, nested.2, []⟩) (by
      intro other hother
      have hne : other.1 ≠ nested.1 := fun heq => hnotmem (heq ▸ List.mem_map_of_mem hother)
      rw [child?_setChild_of_ne hne]
      exact hnew other (.tail _ hother))
    refine ⟨v', ?_⟩
    rw [addChildren, List.foldlM_cons, hadd]
    exact hv'

/-- In every tree that calls have made, a child is replaced cleanly exactly when it has no children. -/
theorem replacesCleanly_iff (rootName rootValue : Str) (calls : List Change) {tree v : UriTemplateValue}
    (hrun : run change ⟨rootName, rootValue, []⟩ calls = some tree) {path : List Str}
    (hnode : tree.node? path = some v) (name value : Str) :
    ReplacesCleanly v name value ↔ ∀ child, v.child? name = some child → child.childValues = [] := by
  have hwell : WellNamed v := ((WellNamed.leaf rootName rootValue).run hrun).node hnode
  constructor
  · rintro ⟨v', hadd, hclean, -⟩ child hchild
    rw [addChild_true, hchild] at hadd
    cases hadd
    rw [child?_setChild_self] at hclean
    exact congrArg UriTemplateValue.childValues (Option.some.inj hclean)
  · intro hempty
    have hset : v.addChild name value true = .ok (v.setChild name ⟨name, value, []⟩) := by
      rw [addChild_true]
      cases hchild : v.child? name with
      | none => rfl
      | some child =>
        have hchild' : child = ⟨name, child.value, []⟩ := by
          obtain ⟨childName, childValue, childValues⟩ := child
          cases hwell.name_eq hchild
          cases hempty _ hchild
          rfl
        rw [hchild']
        rfl
    refine ⟨_, hset, child?_setChild_self, rfl, rfl, fun _ => child?_setChild_of_ne, ?_⟩
    intro child values hchild hdistinct
    cases child?_setChild_self.symm.trans hchild
    exact addChildren_ok hdistinct _ fun _ _ => rfl

/-- The calls that add a child and a child of it. -/
def nestedCalls : List Change :=
  [.addChild [] "a".toList "1".toList false, .addChild ["a".toList] "b".toList "2".toList false]

/-- The tree of the calls. -/
def nestedTree : UriTemplateValue :=
  ⟨[], [], [("a".toList, ⟨"a".toList, "1".toList, [("b".toList, ⟨"b".toList, "2".toList, []⟩)]⟩)]⟩

/-- The tree that the calls make. -/
theorem run_nestedCalls : run change UriTemplateValue.empty nestedCalls = some nestedTree := rfl

/-- A child that has children of its own is replaced. -/
theorem replacesCleanly_iff_nested : run change ⟨[], [], []⟩ nestedCalls = some nestedTree ∧
    (ReplacesCleanly nestedTree "c".toList "3".toList ↔
      ∀ child, nestedTree.child? "c".toList = some child → child.childValues = []) :=
  have hnode : nestedTree.node? [] = some nestedTree := rfl
  ⟨run_nestedCalls, replacesCleanly_iff [] [] nestedCalls run_nestedCalls hnode _ _⟩

/-- The child of the replaced child is still there. -/
theorem not_replacesCleanly : run change UriTemplateValue.empty nestedCalls = some nestedTree ∧
    ¬ ReplacesCleanly nestedTree "a".toList "3".toList := by
  refine ⟨run_nestedCalls, ?_⟩
  rintro ⟨v', hadd, hclean, -⟩
  cases hadd
  exact nomatch hclean

end NodeNative.Uri
