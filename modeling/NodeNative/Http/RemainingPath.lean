import NodeNative.Http.Fold

/-!
# The path that a match gets

`ServerPlugin::execute` calls the first of its matches with the path that it got itself, and the
others with what remains of the path behind their match. So the first match never gets what remains
(`passes_remaining_iff`), and the same plugin resolves its routes against another path when another
callback matches before it (`passes_first_plugin`).
-/

namespace NodeNative.Http

section
variable {V : Type}

/-- A match is a part of the path and not empty. Source: `ServerPlugin.cpp:18`. -/
def Template.MatchesPart (t : Template V) : Prop :=
  ∀ path length, t.matchUri path = some length → 0 < length ∧ length ≤ path.length

/-- The templates of the callbacks for a method. -/
def templatesBy (methodCallbacks : List (Str × List (Template V × Handler))) (method : Str) :
    List (Template V) :=
  ((methodCallbacks.find? (·.1 = method)).elim [] (·.2)).map (·.1)

/-- The templates that `execute` looks at for a method. -/
def ServerPlugin.templates : ServerPlugin V → Str → List (Template V)
  | .mk plugins methodCallbacks, method =>
    plugins.map (·.1) ++ templatesBy methodCallbacks [] ++ templatesBy methodCallbacks method

/-- The matches in the order of their execution, each with the length of its match and the path that
it is executed with. -/
def ServerPlugin.passes (p : ServerPlugin V) (method path : Str) : List (Nat × Str) :=
  withPaths path ((byLength (p.found method path)).map fun e => (e.1, fun path' => (e.1, path')))

/-- A list of callbacks, each executed with its path. -/
theorem withPaths_eq_zipWith {α : Type} (path : Str) (found : List (Nat × (Str → α))) :
    withPaths path found = List.zipWith (fun e x => e.2 x.2) found
      (withPaths path (found.map fun e => (e.1, fun path' => (e.1, path')))) := by
  cases found with
  | nil => rfl
  | cons e found =>
    simp only [withPaths, List.map_cons, List.zipWith_cons_cons, List.cons.injEq, true_and,
      List.map_map]
    induction found with
    | nil => rfl
    | cons e' found ih => simp only [List.map_cons, List.zipWith_cons_cons, ih]; rfl

/-- The matches of a plugin are executed with these paths; a plugin among them executes its own
matches on its path. -/
theorem ServerPlugin.matchesOf_eq (p : ServerPlugin V) (method path : Str) :
    p.matchesOf method path = List.zipWith (fun e x => e.2 x.2) (byLength (p.found method path))
      (p.passes method path) := by
  obtain ⟨plugins, methodCallbacks⟩ := p
  rw [ServerPlugin.matchesOf, pluginsFound_eq]
  exact withPaths_eq_zipWith path _

/-- The order of the matches leaves none out and adds none. -/
theorem mem_byLength {α : Type} {found : List (Nat × α)} {e : Nat × α} :
    e ∈ byLength found ↔ e ∈ found := by
  have hfilter : (byLength found).filter (·.1 = e.1) = found.filter (·.1 = e.1) :=
    (OrderedMap.flatten_pushBack found).2 e.1
  have hmem := congrArg (e ∈ ·) hfilter
  simpa using hmem

/-- The lengths that are found are those of the templates that match. -/
theorem ServerPlugin.exists_found_iff (p : ServerPlugin V) (method path : Str) (length : Nat) :
    (∃ e ∈ p.found method path, e.1 = length) ↔
      ∃ t ∈ p.templates method, t.matchUri path = some length := by
  have hmethods : ∀ (methodCallbacks : List (Str × List (Template V × Handler))) (method : Str),
      (∃ e ∈ callbacksByMethod methodCallbacks method path, e.1 = length) ↔
        ∃ t ∈ templatesBy methodCallbacks method, t.matchUri path = some length := by
    intro methodCallbacks method
    simp only [callbacksByMethod, templatesBy, List.mem_filterMap, List.mem_map,
      Option.map_eq_some_iff]
    constructor
    · rintro ⟨e, ⟨th, hmem, n, hn, rfl⟩, rfl⟩
      exact ⟨th.1, ⟨th, hmem, rfl⟩, hn⟩
    · rintro ⟨t, ⟨th, hmem, rfl⟩, ht⟩
      exact ⟨_, ⟨th, hmem, length, ht, rfl⟩, rfl⟩
  obtain ⟨plugins, methodCallbacks⟩ := p
  have hplugins : (∃ e ∈ plugins.filterMap fun tp => (tp.1.matchUri path).map fun length =>
        (length, fun path' => Match.plugin (tp.1.extract path) (tp.2.matchesOf method path')),
        e.1 = length) ↔ ∃ t ∈ plugins.map (·.1), t.matchUri path = some length := by
    simp only [List.mem_filterMap, List.mem_map, Option.map_eq_some_iff]
    constructor
    · rintro ⟨e, ⟨tp, hmem, n, hn, rfl⟩, rfl⟩
      exact ⟨tp.1, ⟨tp, hmem, rfl⟩, hn⟩
    · rintro ⟨t, ⟨tp, hmem, rfl⟩, ht⟩
      exact ⟨_, ⟨tp, hmem, length, ht, rfl⟩, rfl⟩
  simp only [found, templates, List.mem_append, or_and_right, exists_or]
  exact or_congr (or_congr hplugins (hmethods _ _)) (hmethods _ _)

/-- Source: `ServerPlugin.cpp:60-105`. Every match is executed with what remains of the path behind
it exactly when nothing matches: the first match is executed with the whole path. -/
theorem passes_remaining_iff (p : ServerPlugin V) (method path : Str)
    (hpart : ∀ t ∈ p.templates method, t.MatchesPart) :
    (∀ x ∈ p.passes method path, x.2 = path.drop x.1) ↔
      ∀ t ∈ p.templates method, t.matchUri path = none := by
  constructor
  · intro hremaining t ht
    cases hmatch : t.matchUri path with
    | none => rfl
    | some length =>
      obtain ⟨e, he, -⟩ := (p.exists_found_iff method path length).mpr ⟨t, ht, hmatch⟩
      obtain ⟨first, rest, hordered⟩ : ∃ first rest, byLength (p.found method path) = first :: rest :=
        List.exists_cons_of_ne_nil (List.ne_nil_of_mem (mem_byLength.mpr he))
      have hfirst : (first.1, path) ∈ p.passes method path := by
        rw [ServerPlugin.passes, hordered]
        exact .head _
      obtain ⟨t', ht', hmatch'⟩ := (p.exists_found_iff method path first.1).mp
        ⟨first, mem_byLength.mp (hordered ▸ .head _), rfl⟩
      obtain ⟨hpos, hle⟩ := hpart t' ht' path first.1 hmatch'
      have hlen : path.length = (path.drop first.1).length :=
        congrArg List.length (hremaining _ hfirst)
      rw [List.length_drop] at hlen
      omega
  · intro hnone x hx
    have hempty : byLength (p.found method path) = [] := by
      refine List.eq_nil_iff_forall_not_mem.mpr fun e he => ?_
      obtain ⟨t, ht, hmatch⟩ := (p.exists_found_iff method path e.1).mp ⟨e, mem_byLength.mp he, rfl⟩
      rw [hnone t ht] at hmatch
      cases hmatch
    rw [ServerPlugin.passes, hempty] at hx
    cases hx

end

/-! ### A plugin behind another one -/

/-- A template without parameters that matches one path. -/
def exactTemplate (path : Str) : Template Unit :=
  ⟨fun u => if u = path ∧ path ≠ [] then some path.length else none, fun _ v => .ok v⟩

/-- A template of one path matches a part that is not empty. -/
theorem exactTemplate_matchesPart (path : Str) : (exactTemplate path).MatchesPart := by
  intro u length h
  simp only [exactTemplate, Option.ite_none_right_eq_some, Option.some.injEq] at h
  obtain ⟨⟨rfl, hne⟩, rfl⟩ := h
  exact ⟨List.length_pos_of_ne_nil hne, le_refl _⟩

/-- A plugin with a callback for `/p`. -/
def nestedPlugin : ServerPlugin Unit :=
  .mk [] [("GET".toList, [(exactTemplate "/p".toList, ⟨none, .ok resolved⟩)])]

/-- The plugin alone, and behind a plugin without routes. -/
def mounted : ServerPlugin Unit := .mk [(exactTemplate "/p".toList, nestedPlugin)] []

def mountedSecond : ServerPlugin Unit :=
  .mk [(exactTemplate "/p".toList, .mk [] []), (exactTemplate "/p".toList, nestedPlugin)] []

/-- A path that nothing matches has no wrong remainder. -/
theorem passes_remaining_unmatched :
    (∀ t ∈ mounted.templates "GET".toList, t.matchUri "/q".toList = none) ∧
      ∀ x ∈ mounted.passes "GET".toList "/q".toList, x.2 = "/q".toList.drop x.1 := by
  have hnone : ∀ t ∈ mounted.templates "GET".toList, t.matchUri "/q".toList = none := by
    simp [ServerPlugin.templates, mounted, templatesBy]
    decide
  have hpart : ∀ t ∈ mounted.templates "GET".toList, t.MatchesPart := by
    simpa [ServerPlugin.templates, mounted, templatesBy] using exactTemplate_matchesPart "/p".toList
  exact ⟨hnone, (passes_remaining_iff mounted "GET".toList "/q".toList hpart).mpr hnone⟩

/-- Alone the plugin gets the whole path and calls its callback, and behind another one it gets the
rest and does not. -/
theorem passes_first_plugin :
    (¬ ∀ x ∈ mounted.passes "GET".toList "/p".toList, x.2 = "/p".toList.drop x.1) ∧
      (handlersOf (mounted.matchesOf "GET".toList "/p".toList)).length = 1 ∧
      (handlersOf (mountedSecond.matchesOf "GET".toList "/p".toList)).length = 0 := by
  decide

end NodeNative.Http
