import NodeNative.Lib.RefCount
import NodeNative.Lib.Transition
import NodeNative.Http.RemainingPath

/-!
# Removing handlers

Who owns the callbacks of a dispatch. A `ServerPlugin` owns the callbacks that are registered on it
and a `PluginData` its plugin. A call of `ServerPlugin::execute` owns the callbacks of its
`callbacksMap` until it returns, and a lambda the one that it has locked. The callbacks that are
chained are known by weak references only. `Dispatches` is the state of all that: any number of
plugins, requests and calls of `execute`, with the calls that add and remove callbacks and the
references that the rest of the program holds (its variables, what its closures capture, and the
`Server`, which every connection owns).

The steps are taken in any order. The futures of the chains are not modelled: a lambda may run at any
time after it was registered and after the ones before it in its chain (`turn`), and a chain may be
rejected at any time (`reject`). So the runs of the code are among the runs here.

`removal_safe` is about every run: as long as no call that removes a callback, and no reference that
the rest of the program drops, takes the last reference of a callback that some `execute` still has
to run, every lambda runs its callback or skips it.
-/

namespace NodeNative.Http

open Transition RefCount

/-! ### The state -/

abbrev CallbackId := Nat
abbrev PluginId := Nat
abbrev TransactionId := Nat

/-- The objects with a reference count: a `CallbackDataBase` or a `ServerPlugin`. -/
inductive Owned
  | callback (c : CallbackId)
  | plugin (p : PluginId)
  deriving DecidableEq

/-- What never changes: `matchUri` of the callbacks, the plugin of a `PluginData` (`none` for a
`CallbackData`), and the methods of the requests. -/
structure Registered where
  matchUri : CallbackId → Str → Option Nat
  plugin : CallbackId → Option PluginId
  method : TransactionId → Str

/-- What is registered on a `ServerPlugin`: its `_plugins` and its `_methodCallbackMap`. -/
structure Registry where
  plugins : List CallbackId
  methodCallbacks : List (Str × List CallbackId)

def Registry.callbacks (r : Registry) : List CallbackId :=
  r.plugins ++ r.methodCallbacks.flatMap (·.2)

/-- `_methodCallbackMap[iMethod].push_back(callback)`. -/
def pushBack (method : Str) (c : CallbackId) : List (Str × List CallbackId) →
    List (Str × List CallbackId)
  | [] => [(method, [c])]
  | (m, cs) :: rest =>
    if m = method then (m, cs ++ [c]) :: rest else (m, cs) :: pushBack method c rest

/-- A call on the stack: one of `ServerPlugin::execute`, which owns the callbacks of `callbacksMap`
and has those in `todo` left to call or to chain, or a lambda, which owns the callback that `lock()`
has returned and has none left. `entering` is the call of `PluginData::execute` that it makes. -/
structure Frame where
  transaction : TransactionId
  owns : List CallbackId
  entering : Option (PluginId × Str)
  todo : List (CallbackId × Str)
  isFirst : Bool
  chain : Nat

/-- A lambda registered with `then`, with what it captures: a weak reference, the transaction and
`newUriPath`. -/
structure Pending where
  chain : Nat
  transaction : TransactionId
  callbackWeak : CallbackId
  newUriPath : Str

/-- What a lambda did: it returned since the response was sent, it called `execute` on the callback,
or it called it through an expired reference. -/
inductive Turn
  | skipped
  | ran
  | expired
  deriving DecidableEq

/-- `alive` are the objects that are not destroyed, and `held` the references of the rest of the
program. `created`, `executions` and `turns` are histories. -/
structure Dispatches where
  alive : List Owned
  created : List Owned
  registry : PluginId → Registry
  held : List Owned
  frames : List Frame
  pending : List Pending
  sent : List TransactionId
  executions : Nat
  turns : List (CallbackId × Turn)

/-- The steps: the program creates a plugin, registers and removes callbacks, copies a reference and
drops one; `processRequest` calls `execute`; the call with index `i` calls its first callback, enters
the plugin of a `PluginData`, chains its next callback, or ends by a return or an exception; the next
lambda of a chain runs, a chain is rejected, a response is sent. -/
inductive DispatchLabel
  | newPlugin (p : PluginId)
  | addMethod (p : PluginId) (method : Str) (c : CallbackId)
  | addPlugin (p : PluginId) (d : CallbackId)
  | removeMethod (p : PluginId) (c : CallbackId)
  | removePluginData (p : PluginId) (d : CallbackId)
  | removePlugin (p q : PluginId)
  | hold (o : Owned)
  | drop (o : Owned)
  | processRequest (p : PluginId) (t : TransactionId) (path : Str)
  | first (i : Nat)
  | enter (i : Nat)
  | chain (i : Nat)
  | leave (i : Nat)
  | turn (k : Nat)
  | reject (k : Nat)
  | send (t : TransactionId)

section
variable (R : Registered)

/-- The references that an object holds. -/
def Dispatches.holds (s : Dispatches) : Owned → List Owned
  | .callback c => (R.plugin c).toList.map .plugin
  | .plugin p => (s.registry p).callbacks.map .callback

/-- The references of the calls on the stack. -/
def Dispatches.stack (s : Dispatches) : List Owned :=
  s.frames.flatMap fun f => f.owns.map .callback

/-- The objects without a reference are destroyed. -/
def Dispatches.settle (s : Dispatches) : Dispatches :=
  { s with alive := collect (s.holds R) (s.held ++ s.stack) s.alive }

/-- A registry is changed. -/
def Dispatches.update (s : Dispatches) (p : PluginId) (f : Registry → Registry) : Dispatches :=
  { s with registry := fun q => if q = p then f (s.registry p) else s.registry q }

/-- Source: `ServerPlugin.cpp:165` `ServerPlugin::removeMethod`. -/
def Dispatches.removeMethod (s : Dispatches) (p : PluginId) (c : CallbackId) : Dispatches :=
  s.update p fun r => { r with
    methodCallbacks := r.methodCallbacks.map fun e => (e.1, e.2.filter (· != c)) }

/-- Source: `ServerPlugin.cpp:113` `ServerPlugin::removePlugin` for a `PluginData`. -/
def Dispatches.removePluginData (s : Dispatches) (p : PluginId) (d : CallbackId) : Dispatches :=
  s.update p fun r => { r with plugins := r.plugins.filter (· != d) }

/-- Source: `ServerPlugin.cpp:126` `ServerPlugin::removePlugin` for a `ServerPlugin`. -/
def Dispatches.removePlugin (s : Dispatches) (p q : PluginId) : Dispatches :=
  s.update p fun r => { r with plugins := r.plugins.filter fun d => R.plugin d != some q }

/-- The program drops a reference. -/
def Dispatches.dropReference (s : Dispatches) (o : Owned) : Dispatches :=
  { s with held := s.held.erase o }

/-- A new object, with the reference that the program gets. -/
def Dispatches.create (s : Dispatches) (o : Owned) : Dispatches :=
  { s with alive := o :: s.alive, created := o :: s.created, held := o :: s.held }

/-- Source: `ServerPlugin.cpp:39` `ServerPlugin::getCallbacksByMethod`, and the same loop over
`_plugins`. -/
def Registered.matching (path : Str) (cs : List CallbackId) : List (Nat × CallbackId) :=
  cs.filterMap fun c => (R.matchUri c path).map (·, c)

/-- The callbacks of `callbacksMap` in its order, with the path that each of them is executed with.
Source: `ServerPlugin.cpp:62-80`. -/
def Dispatches.callbacksMap (s : Dispatches) (q : PluginId) (t : TransactionId) (path : Str) :
    List (CallbackId × Str) :=
  let byMethod (method : Str) :=
    (((s.registry q).methodCallbacks.find? (·.1 = method)).elim [] (·.2))
  withPaths path ((byLength (R.matching path (s.registry q).plugins ++
    R.matching path (byMethod []) ++ R.matching path (byMethod (R.method t)))).map
      fun e => (e.1, fun path' => (e.2, path')))

/-- `ServerPlugin::execute` is called. -/
def Dispatches.execute (s : Dispatches) (q : PluginId) (t : TransactionId) (path : Str) :
    Dispatches :=
  let callbacksMap := s.callbacksMap R q t path
  { s with
    frames := s.frames ++ [{
      transaction := t
      owns := callbacksMap.map (·.1)
      entering := none
      todo := callbacksMap
      isFirst := true
      chain := s.executions }]
    executions := s.executions + 1 }

/-- The call of a callback with a path: a plugin is entered next. -/
def Registered.entering (c : CallbackId) (path : Str) : Option (PluginId × Str) :=
  (R.plugin c).map (·, path)

/-- One step; `none` when the label is not enabled. Nothing is defined after a call through an expired
reference. -/
def dispatchStep (s : Dispatches) (lab : DispatchLabel) : Option Dispatches :=
  if s.turns.any (·.2 == .expired) then none else
  match lab with
  | .newPlugin p =>
    if .plugin p ∈ s.created then none else some (s.create (.plugin p))
  | .addMethod p method c =>
    if .plugin p ∈ s.alive ∧ .callback c ∉ s.created ∧ R.plugin c = none then
      some ((s.create (.callback c)).update p fun r =>
        { r with methodCallbacks := pushBack method c r.methodCallbacks })
    else none
  | .addPlugin p d =>
    match R.plugin d with
    | some q =>
      if .plugin p ∈ s.alive ∧ .plugin q ∈ s.alive ∧ .callback d ∉ s.created then
        some ((s.create (.callback d)).update p fun r => { r with plugins := r.plugins ++ [d] })
      else none
    | none => none
  | .removeMethod p c =>
    if .plugin p ∈ s.alive then some ((s.removeMethod p c).settle R) else none
  | .removePluginData p d =>
    if .plugin p ∈ s.alive then some ((s.removePluginData p d).settle R) else none
  | .removePlugin p q =>
    if .plugin p ∈ s.alive then some ((s.removePlugin R p q).settle R) else none
  | .hold o => if o ∈ s.alive then some { s with held := o :: s.held } else none
  | .drop o => if o ∈ s.held then some ((s.dropReference o).settle R) else none
  | .processRequest p t path => if .plugin p ∈ s.held then some (s.execute R p t path) else none
  | .first i =>
    match s.frames[i]? with
    | some f =>
      match f.isFirst, f.todo with
      | true, (c, path) :: todo =>
        some { s with
          frames := s.frames.set i
            { f with entering := R.entering c path, todo := todo, isFirst := false } }
      | _, _ => none
    | none => none
  | .enter i =>
    match s.frames[i]? with
    | some f =>
      match f.entering with
      | some (q, path) =>
        some ({ s with frames := s.frames.set i { f with entering := none } }.execute R q
          f.transaction path)
      | none => none
    | none => none
  | .chain i =>
    match s.frames[i]? with
    | some f =>
      match f.isFirst, f.entering, f.todo with
      | false, none, (c, path) :: todo =>
        some { s with
          frames := s.frames.set i { f with todo := todo }
          pending := s.pending ++ [⟨f.chain, f.transaction, c, path⟩] }
      | _, _, _ => none
    | none => none
  | .leave i =>
    if i < s.frames.length then some ({ s with frames := s.frames.eraseIdx i }.settle R) else none
  | .turn k =>
    match s.pending.find? (·.chain == k) with
    | some l =>
      let s := { s with pending := s.pending.eraseP (·.chain == k) }
      if l.transaction ∈ s.sent then
        some { s with turns := s.turns ++ [(l.callbackWeak, .skipped)] }
      else if .callback l.callbackWeak ∈ s.alive then
        some { s with
          turns := s.turns ++ [(l.callbackWeak, .ran)]
          frames := s.frames ++ [{
            transaction := l.transaction
            owns := [l.callbackWeak]
            entering := R.entering l.callbackWeak l.newUriPath
            todo := []
            isFirst := false
            chain := l.chain }] }
      else some { s with turns := s.turns ++ [(l.callbackWeak, .expired)] }
    | none => none
  | .reject k => some { s with pending := s.pending.filter (·.chain != k) }
  | .send t => some { s with sent := t :: s.sent }

end

/-- Before the program has created anything. -/
def Dispatches.start : Dispatches where
  alive := []
  created := []
  registry := fun _ => ⟨[], []⟩
  held := []
  frames := []
  pending := []
  sent := []
  executions := 0
  turns := []

/-! ### What is still needed -/

section
variable (R : Registered)

/-- All references from outside the objects. -/
def Dispatches.roots (s : Dispatches) : List Owned := s.held ++ s.stack

/-- The call still has to enter this plugin, or to call or chain this callback. -/
def Frame.Needs (f : Frame) (o : Owned) : Prop :=
  (∃ e, f.entering = some e ∧ o = .plugin e.1) ∨ ∃ e ∈ f.todo, o = .callback e.1

/-- A call on the stack, or a lambda, of a request without a sent response still has to run this
callback. -/
def Dispatches.Needs (s : Dispatches) (o : Owned) : Prop :=
  (∃ f ∈ s.frames, f.transaction ∉ s.sent ∧ f.Needs o) ∨
    ∃ l ∈ s.pending, l.transaction ∉ s.sent ∧ o = .callback l.callbackWeak

/-- References that the stack does not hold lead to the object: the registries, or those of the rest
of the program. -/
def Dispatches.Kept (s : Dispatches) (o : Owned) : Prop := Reaches (s.holds R) s.held o

/-- A removal, or a reference that the program drops, leaves a reference outside the stack to each
object that is still needed. -/
def Dispatches.Keeps (s : Dispatches) : DispatchLabel → Prop
  | .removeMethod p c => ∀ o, s.Needs o → (s.removeMethod p c).Kept R o
  | .removePluginData p d => ∀ o, s.Needs o → (s.removePluginData p d).Kept R o
  | .removePlugin p q => ∀ o, s.Needs o → (s.removePlugin R p q).Kept R o
  | .drop o' => ∀ o, s.Needs o → (s.dropReference o').Kept R o
  | _ => True

/-! ### The invariant -/

/-- A call owns the callbacks that it calls or chains, and the `PluginData` that it enters. -/
structure Frame.Owns (f : Frame) : Prop where
  todo : ∀ e ∈ f.todo, e.1 ∈ f.owns
  entering : ∀ e, f.entering = some e → ∃ c ∈ f.owns, R.plugin c = some e.1

/-- What holds in every state: the references are to objects that are alive, each object that is
alive has one, and a plugin that does not exist has no registrations. -/
structure Dispatches.Inv (s : Dispatches) : Prop where
  closed : Closed (s.holds R) s.roots s.alive
  counted : ∀ o ∈ s.alive, counted (s.holds R) s.roots s.alive o = true
  created : ∀ o ∈ s.alive, o ∈ s.created
  unregistered : ∀ p, .plugin p ∉ s.created → (s.registry p).callbacks = []
  owns : ∀ f ∈ s.frames, f.Owns R

/-- What is still needed has a reference outside the stack. -/
def Dispatches.Covered (s : Dispatches) : Prop := ∀ o, s.Needs o → s.Kept R o

/-- What a step preserves. -/
structure Dispatches.Preserves (s : Dispatches) (lab : DispatchLabel) (s' : Dispatches) : Prop where
  inv : s'.Inv R
  covered : s.Keeps R lab → s.Covered R → s'.Covered R

variable {R} {s s₁ s' : Dispatches} {f f' : Frame} {p q : PluginId} {c d : CallbackId} {i : Nat}

/-- Before the first plugin no reference dangles, -/
theorem Dispatches.inv_start : Dispatches.start.Inv R where
  closed := ⟨nofun, nofun⟩
  counted := nofun
  created := nofun
  unregistered := fun _ _ => rfl
  owns := nofun

/-- and every lambda is covered. -/
theorem Dispatches.covered_start : Dispatches.start.Covered R := by
  rintro o (⟨f, hf, -⟩ | ⟨l, hl, -⟩)
  · cases hf
  · cases hl

/-- A plugin holds the callbacks in its registry. -/
theorem Dispatches.mem_holds_plugin {o : Owned} :
    o ∈ s.holds R (.plugin p) ↔ ∃ c ∈ (s.registry p).callbacks, .callback c = o :=
  List.mem_map

/-- The callback that a plugin is registered with holds it. -/
theorem Dispatches.mem_holds_callback {o : Owned} :
    o ∈ s.holds R (.callback c) ↔ ∃ q, R.plugin c = some q ∧ .plugin q = o := by
  simp [holds]

/-- The stack holds what its frames own. -/
theorem Dispatches.mem_stack {o : Owned} :
    o ∈ s.stack ↔ ∃ f ∈ s.frames, ∃ c ∈ f.owns, .callback c = o := by
  simp [stack]

/-- A registry with fewer callbacks holds fewer references. -/
theorem Dispatches.holds_subset (hregistry : ∀ p, (s₁.registry p).callbacks ⊆ (s.registry p).callbacks)
    (owner : Owned) : s₁.holds R owner ⊆ s.holds R owner := by
  cases owner with
  | callback c => exact List.Subset.refl _
  | plugin p => exact List.map_subset _ (hregistry p)

/-! ### Removing -/

/-- References are taken away, and the objects that have none left are destroyed. -/
theorem Dispatches.Inv.settle (h : s.Inv R) (halive : s₁.alive = s.alive)
    (hcreated : s₁.created = s.created) (hroots : s₁.roots ⊆ s.roots)
    (hregistry : ∀ p, (s₁.registry p).callbacks ⊆ (s.registry p).callbacks)
    (hframes : s₁.frames ⊆ s.frames) : (s₁.settle R).Inv R := by
  have hclosed : Closed (s₁.holds R) s₁.roots s₁.alive :=
    halive ▸ h.closed.mono hroots fun owner _ => holds_subset hregistry owner
  have hstays : ∀ o ∈ (s₁.settle R).alive, o ∈ s.alive := by
    intro o ho
    have hmem : o ∈ s₁.alive := mem_of_mem_release ho
    exact halive ▸ hmem
  refine ⟨hclosed.collect, fun o ho => counted_of_mem_release (Nat.le_refl _) ho,
    fun o ho => ?_,
    fun p hp => ?_, fun f hf => h.owns f (hframes hf)⟩
  · show o ∈ s₁.created
    exact hcreated ▸ h.created o (hstays o ho)
  · have hp' : .plugin p ∉ s.created := hcreated ▸ hp
    exact List.subset_nil.mp (h.unregistered p hp' ▸ hregistry p)

/-- Fewer callbacks are registered on a plugin. -/
theorem Dispatches.Inv.unregister (h : s.Inv R) {change : Registry → Registry}
    (hchange : (change (s.registry p)).callbacks ⊆ (s.registry p).callbacks) :
    ((s.update p change).settle R).Inv R := by
  refine h.settle rfl rfl (List.Subset.refl _) (fun q => ?_) (List.Subset.refl _)
  show ((if q = p then change (s.registry p) else s.registry q)).callbacks ⊆ _
  split
  · rename_i heq
    exact heq ▸ hchange
  · exact List.Subset.refl _

/-- The removal of a method callback, -/
theorem Dispatches.Inv.removeMethod (h : s.Inv R) :
    s.Preserves R (.removeMethod p c) ((s.removeMethod p c).settle R) := by
  refine ⟨h.unregister fun c' hc' => ?_, fun hkeeps _ => hkeeps⟩
  simp only [Registry.callbacks, List.mem_append, List.mem_flatMap, List.mem_map] at hc' ⊢
  rcases hc' with hplugin | ⟨e, ⟨e', he', rfl⟩, hmem⟩
  · exact .inl hplugin
  · exact .inr ⟨e', he', List.mem_of_mem_filter hmem⟩

/-- that of a plugin's data, -/
theorem Dispatches.Inv.removePluginData (h : s.Inv R) :
    s.Preserves R (.removePluginData p d) ((s.removePluginData p d).settle R) := by
  refine ⟨h.unregister fun c' hc' => ?_, fun hkeeps _ => hkeeps⟩
  simp only [Registry.callbacks, List.mem_append] at hc' ⊢
  exact hc'.imp_left List.mem_of_mem_filter

/-- that of a plugin, -/
theorem Dispatches.Inv.removePlugin (h : s.Inv R) :
    s.Preserves R (.removePlugin p q) ((s.removePlugin R p q).settle R) := by
  refine ⟨h.unregister fun c' hc' => ?_, fun hkeeps _ => hkeeps⟩
  simp only [Registry.callbacks, List.mem_append] at hc' ⊢
  exact hc'.imp_left List.mem_of_mem_filter

/-- and a reference that is dropped are removals that keep the invariant. -/
theorem Dispatches.Inv.dropReference (h : s.Inv R) {o : Owned} :
    s.Preserves R (.drop o) ((s.dropReference o).settle R) := by
  refine ⟨h.settle rfl rfl ?_ (fun p => List.Subset.refl _) (List.Subset.refl _),
    fun hkeeps _ => hkeeps⟩
  exact fun o ho => List.mem_append.mpr ((List.mem_append.mp ho).imp_left List.mem_of_mem_erase)

/-- The end of a call takes its references away. Nothing that is needed depends on them. -/
theorem Dispatches.Inv.leave (h : s.Inv R) :
    s.Preserves R (.leave i) ({ s with frames := s.frames.eraseIdx i }.settle R) := by
  have hfewer : s.frames.eraseIdx i ⊆ s.frames := (List.eraseIdx_sublist _ _).subset
  refine ⟨h.settle rfl rfl (fun o ho => ?_) (fun p => List.Subset.refl _) hfewer,
    fun _ hcovered o hneeds => hcovered o ?_⟩
  · refine List.mem_append.mpr ((List.mem_append.mp ho).imp_right fun hstack => ?_)
    obtain ⟨f, hf, c, hc, rfl⟩ := mem_stack.mp hstack
    exact mem_stack.mpr ⟨f, hfewer hf, c, hc, rfl⟩
  · exact hneeds.imp_left fun ⟨f, hf, hf'⟩ => ⟨f, hfewer hf, hf'⟩

/-! ### Creating and registering -/

/-- More references keep an object too. -/
theorem Dispatches.Kept.mono {o : Owned} (h : s.Kept R o) (hheld : s.held ⊆ s₁.held)
    (hregistry : ∀ p, (s.registry p).callbacks ⊆ (s₁.registry p).callbacks) : s₁.Kept R o :=
  Reaches.mono h hheld (holds_subset hregistry)

/-- A new object that refers to objects that exist keeps the invariant. -/
theorem Dispatches.Inv.create (h : s.Inv R) {o : Owned} (hnew : o ∉ s.created)
    (hholds : ∀ o' ∈ s.holds R o, o' ∈ s.alive) : (s.create o).Inv R where
  closed := by
    refine ⟨fun o' ho' => ?_, fun owner hown o' ho' => ?_⟩
    · rcases List.mem_append.mp ho' with hheld | hstack
      · rcases List.mem_cons.mp hheld with rfl | hheld
        · exact .head _
        · exact .tail _ (h.closed.roots o' (List.mem_append_left _ hheld))
      · exact .tail _ (h.closed.roots o' (List.mem_append_right _ hstack))
    · rcases List.mem_cons.mp hown with rfl | hown
      · exact .tail _ (hholds o' ho')
      · exact .tail _ (h.closed.holds owner hown o' ho')
  counted o' ho' := by
    rcases List.mem_cons.mp ho' with rfl | hold
    · exact counted_iff.mpr (.inl (.head _))
    · exact counted_mono (h.counted o' hold) (List.subset_cons_self _ _)
        (fun owner => List.Subset.refl _) (List.subset_cons_self _ _)
  created o' ho' := by
    rcases List.mem_cons.mp ho' with rfl | hold
    · exact .head _
    · exact .tail _ (h.created o' hold)
  unregistered p hp := h.unregistered p fun hold => hp (.tail _ hold)
  owns := h.owns

/-- A callback is registered on a plugin. -/
theorem Dispatches.Inv.register (h : s.Inv R) (hp : .plugin p ∈ s.alive)
    (hc : .callback c ∈ s.alive) {change : Registry → Registry}
    (hchange : ∀ c', c' ∈ (change (s.registry p)).callbacks ↔
      c' = c ∨ c' ∈ (s.registry p).callbacks) : (s.update p change).Inv R := by
  have hregistry : ∀ q, (s.registry q).callbacks ⊆ ((s.update p change).registry q).callbacks := by
    intro q c' hc'
    show c' ∈ (if q = p then change (s.registry p) else s.registry q).callbacks
    split
    · rename_i heq
      exact (hchange c').mpr (.inr (heq ▸ hc'))
    · exact hc'
  refine ⟨⟨h.closed.roots, fun owner hown o ho => ?_⟩, fun o ho => ?_, h.created, fun q hq => ?_,
    h.owns⟩
  · cases owner with
    | callback c' => exact h.closed.holds _ hown o ho
    | plugin q =>
      obtain ⟨c', hc', rfl⟩ := mem_holds_plugin.mp ho
      have hmem : c' ∈ (if q = p then change (s.registry p) else s.registry q).callbacks := hc'
      split at hmem
      · rename_i heq
        rcases (hchange c').mp hmem with rfl | hold
        · exact hc
        · exact h.closed.holds _ hp _ (mem_holds_plugin.mpr ⟨c', hold, rfl⟩)
      · exact h.closed.holds _ hown _ (mem_holds_plugin.mpr ⟨c', hmem, rfl⟩)
  · exact counted_mono (h.counted o ho) (List.Subset.refl _) (holds_subset hregistry)
      (List.Subset.refl _)
  · show (if q = p then change (s.registry p) else s.registry q).callbacks = []
    split
    · rename_i heq
      subst heq
      exact absurd (h.created _ hp) hq
    · exact h.unregistered q hq

/-- A callback that is added to a method is one of the callbacks. -/
theorem mem_pushBack {method : Str} {methodCallbacks : List (Str × List CallbackId)} {c' : CallbackId} :
    c' ∈ (pushBack method c methodCallbacks).flatMap (·.2) ↔
      c' = c ∨ c' ∈ methodCallbacks.flatMap (·.2) := by
  induction methodCallbacks with
  | nil => simp [pushBack]
  | cons e rest ih =>
    rw [pushBack]
    split
    · simp only [List.flatMap_cons, List.mem_append, List.mem_singleton]
      tauto
    · rw [List.flatMap_cons, List.flatMap_cons, List.mem_append, List.mem_append, ih]
      tauto

/-- A new callback is registered, and the program gets a reference to it. -/
theorem Dispatches.Inv.add (h : s.Inv R) {lab : DispatchLabel} (hp : .plugin p ∈ s.alive)
    (hnew : .callback c ∉ s.created) (hplugin : ∀ q, R.plugin c = some q → .plugin q ∈ s.alive)
    {change : Registry → Registry} (hchange : ∀ c', c' ∈ (change (s.registry p)).callbacks ↔
      c' = c ∨ c' ∈ (s.registry p).callbacks) :
    s.Preserves R lab ((s.create (.callback c)).update p change) where
  inv := by
    have hcreate : (s.create (.callback c)).Inv R := by
      refine h.create hnew fun o ho => ?_
      obtain ⟨q, hq, rfl⟩ := mem_holds_callback.mp ho
      exact hplugin q hq
    exact hcreate.register (.tail _ hp) (.head _) hchange
  covered _ hcovered o hneeds := by
    refine (hcovered o hneeds).mono (List.subset_cons_self _ _) fun q c' hc' => ?_
    show c' ∈ (if q = p then change (s.registry p) else s.registry q).callbacks
    split
    · rename_i heq
      exact (hchange c').mpr (.inr (heq ▸ hc'))
    · exact hc'

/-- The program copies a reference. -/
theorem Dispatches.Inv.hold (h : s.Inv R) {o : Owned} (ho : o ∈ s.alive) :
    s.Preserves R (.hold o) { s with held := o :: s.held } := by
  refine ⟨⟨⟨fun o' ho' => ?_, h.closed.holds⟩, fun o' ho' => ?_, h.created, h.unregistered, h.owns⟩,
    fun _ hcovered o' hneeds => (hcovered o' hneeds).mono (List.subset_cons_self _ _)
      fun p => List.Subset.refl _⟩
  · rcases List.mem_cons.mp ho' with rfl | hold
    · exact ho
    · exact h.closed.roots o' hold
  · exact counted_mono (h.counted o' ho') (List.subset_cons_self _ _)
      (fun owner => List.Subset.refl _) (List.Subset.refl _)

/-! ### Calls -/

/-- The references depend on these parts of the state only. -/
theorem Dispatches.Inv.congr (h : s.Inv R) (halive : s₁.alive = s.alive)
    (hcreated : s₁.created = s.created) (hregistry : s₁.registry = s.registry)
    (hheld : s₁.held = s.held) (hframes : s₁.frames = s.frames) : s₁.Inv R := by
  obtain ⟨alive, created, registry, held, frames, pending, sent, executions, turns⟩ := s
  obtain ⟨alive₁, created₁, registry₁, held₁, frames₁, pending₁, sent₁, executions₁, turns₁⟩ := s₁
  cases halive
  cases hcreated
  cases hregistry
  cases hheld
  cases hframes
  exact ⟨h.closed, h.counted, h.created, h.unregistered, h.owns⟩

/-- A call goes on, with the references that it has. -/
theorem Dispatches.Inv.setFrame (h : s.Inv R) (hf : s.frames[i]? = some f)
    (howns : f'.owns = f.owns) (hf' : f'.Owns R) :
    ({ s with frames := s.frames.set i f' } : Dispatches).Inv R := by
  have hstack : (s.frames.set i f').flatMap (fun f => f.owns.map Owned.callback) = s.stack := by
    have hsame : (s.frames.map Frame.owns).set i f'.owns = s.frames.map Frame.owns := by
      rw [howns]
      refine List.ext_getElem? fun j => ?_
      rw [List.getElem?_set]
      split
      · rename_i heq
        subst heq
        rw [List.getElem?_map, hf]
        split
        · rfl
        · rename_i hlt
          rw [List.length_map] at hlt
          exact absurd (List.getElem?_eq_some_iff.mp hf).1 hlt
      · rfl
    have hmap : ∀ frames : List Frame, frames.flatMap (fun f => f.owns.map Owned.callback) =
        (frames.map Frame.owns).flatMap (·.map Owned.callback) :=
      fun frames => (List.flatMap_map ..).symm
    rw [Dispatches.stack, hmap, hmap, List.map_set, hsame]
  have hroots : ({ s with frames := s.frames.set i f' } : Dispatches).roots = s.roots :=
    congrArg (s.held ++ ·) hstack
  refine ⟨?_, fun o ho => ?_, h.created, h.unregistered, fun f₁ hf₁ => ?_⟩
  · rw [hroots]
    exact h.closed
  · rw [hroots]
    exact h.counted o ho
  · rcases List.mem_or_eq_of_mem_set hf₁ with hold | rfl
    · exact h.owns f₁ hold
    · exact hf'

/-- A call begins. -/
theorem Dispatches.Inv.push (h : s.Inv R) (hf : f.Owns R)
    (halive : ∀ c ∈ f.owns, .callback c ∈ s.alive) :
    ({ s with frames := s.frames ++ [f] } : Dispatches).Inv R := by
  have hroots : ∀ o, o ∈ ({ s with frames := s.frames ++ [f] } : Dispatches).roots ↔
      o ∈ s.roots ∨ ∃ c ∈ f.owns, .callback c = o := by
    intro o
    simp [roots, stack, or_assoc]
  refine ⟨⟨fun o ho => ?_, h.closed.holds⟩, fun o ho => ?_, h.created, h.unregistered, fun f₁ hf₁ => ?_⟩
  · rcases (hroots o).mp ho with hold | ⟨c, hc, rfl⟩
    · exact h.closed.roots o hold
    · exact halive c hc
  · exact counted_mono (h.counted o ho) (fun o' ho' => (hroots o').mpr (.inl ho'))
      (fun owner => List.Subset.refl _) (List.Subset.refl _)
  · rcases List.mem_append.mp hf₁ with hold | hnew
    · exact h.owns f₁ hold
    · exact List.mem_singleton.mp hnew ▸ hf

/-- The callbacks that match are registered. -/
theorem Dispatches.mem_callbacksMap {t : TransactionId} {path : Str} {e : CallbackId × Str}
    (he : e ∈ s.callbacksMap R q t path) : e.1 ∈ (s.registry q).callbacks := by
  have hpaths : ∀ found : List (Nat × CallbackId),
      e ∈ withPaths path (found.map fun e => (e.1, fun path' => (e.2, path'))) →
        ∃ length, (length, e.1) ∈ found := by
    intro found hmem
    cases found with
    | nil => cases hmem
    | cons first found =>
      rcases List.mem_cons.mp hmem with rfl | hmem
      · exact ⟨first.1, .head _⟩
      · simp only [List.map_map, List.mem_map] at hmem
        obtain ⟨e', he', rfl⟩ := hmem
        exact ⟨e'.1, .tail _ he'⟩
  have hmatching : ∀ {length cs}, (length, e.1) ∈ R.matching path cs → e.1 ∈ cs := by
    intro length cs hmem
    obtain ⟨c, hc, hmatch⟩ := List.mem_filterMap.mp hmem
    obtain ⟨_, _, heq⟩ := Option.map_eq_some_iff.mp hmatch
    cases heq
    exact hc
  have hmethod : ∀ method : Str,
      e.1 ∈ (((s.registry q).methodCallbacks.find? (·.1 = method)).elim [] (·.2)) →
        e.1 ∈ (s.registry q).methodCallbacks.flatMap (·.2) := by
    intro method hmem
    cases hfind : (s.registry q).methodCallbacks.find? (·.1 = method) with
    | none =>
      rw [hfind] at hmem
      cases hmem
    | some entry =>
      rw [hfind] at hmem
      exact List.mem_flatMap.mpr ⟨entry, List.mem_of_find?_eq_some hfind, hmem⟩
  obtain ⟨length, hfound⟩ := hpaths _ he
  rcases List.mem_append.mp (mem_byLength.mp hfound) with hfound | hbyMethod
  · rcases List.mem_append.mp hfound with hplugin | huse
    · exact List.mem_append_left _ (hmatching hplugin)
    · exact List.mem_append_right _ (hmethod _ (hmatching huse))
  · exact List.mem_append_right _ (hmethod _ (hmatching hbyMethod))

/-- `execute` owns the callbacks that match before it calls one of them. -/
theorem Dispatches.Inv.execute (h : s.Inv R) {t : TransactionId} {path : Str}
    (hq : .plugin q ∈ s.alive) : (s.execute R q t path).Inv R := by
  have hpush : ∀ f : Frame, f.owns = (s.callbacksMap R q t path).map (·.1) →
      f.todo = s.callbacksMap R q t path → f.entering = none →
        ({ s with frames := s.frames ++ [f] } : Dispatches).Inv R := by
    intro f howns htodo hentering
    refine h.push ⟨fun e he => ?_, fun e he => ?_⟩ fun c hc => ?_
    · rw [howns]
      exact List.mem_map_of_mem (htodo ▸ he)
    · rw [hentering] at he
      cases he
    · rw [howns] at hc
      obtain ⟨e, he, rfl⟩ := List.mem_map.mp hc
      exact h.closed.holds _ hq _ (mem_holds_plugin.mpr ⟨e.1, mem_callbacksMap he, rfl⟩)
  exact (hpush _ rfl rfl rfl).congr rfl rfl rfl rfl rfl

/-- The callbacks that match are kept when their plugin is. -/
theorem Dispatches.Covered.execute (h : s.Covered R) {t : TransactionId} {path : Str}
    (hq : t ∉ s.sent → s.Kept R (.plugin q)) : (s.execute R q t path).Covered R := by
  rintro o (⟨f, hf, hsent, hneeds⟩ | hpending)
  · rcases List.mem_append.mp hf with hold | hnew
    · exact h o (.inl ⟨f, hold, hsent, hneeds⟩)
    · obtain rfl := List.mem_singleton.mp hnew
      rcases hneeds with ⟨e, he, -⟩ | ⟨e, he, rfl⟩
      · cases he
      · exact (hq hsent).step (mem_holds_plugin.mpr ⟨e.1, mem_callbacksMap he, rfl⟩)
  · exact h o (.inr hpending)

/-- The plugin of a needed `PluginData` is kept. -/
theorem Dispatches.Covered.entering (h : s.Covered R) {path : Str} {e : PluginId × Str}
    (hneeds : s.Needs (.callback c)) (he : R.entering c path = some e) :
    s.Kept R (.plugin e.1) := by
  obtain ⟨q, hq, rfl⟩ := Option.map_eq_some_iff.mp he
  exact (h _ hneeds).step (mem_holds_callback.mpr ⟨q, hq, rfl⟩)

/-! ### One step -/

/-- The first callback is called. -/
theorem Dispatches.Inv.first (h : s.Inv R) (hf : s.frames[i]? = some f) {path : Str}
    {todo : List (CallbackId × Str)} (htodo : f.todo = (c, path) :: todo) :
    s.Preserves R (.first i) { s with
      frames := s.frames.set i
        { f with entering := R.entering c path, todo := todo, isFirst := false } } := by
  have hmem := List.mem_of_getElem? hf
  have hfirst : (c, path) ∈ f.todo := htodo ▸ .head _
  have hrest : ∀ e ∈ todo, e ∈ f.todo := fun e he => htodo ▸ .tail _ he
  refine ⟨h.setFrame hf rfl ⟨fun e he => (h.owns f hmem).todo e (hrest e he), fun e he => ?_⟩,
    fun _ hcovered => ?_⟩
  · obtain ⟨q, hq, rfl⟩ := Option.map_eq_some_iff.mp he
    exact ⟨c, (h.owns f hmem).todo _ hfirst, hq⟩
  · rintro o (⟨f₁, hf₁, hsent, hneeds⟩ | hpending)
    · rcases List.mem_or_eq_of_mem_set hf₁ with hold | rfl
      · exact hcovered o (.inl ⟨f₁, hold, hsent, hneeds⟩)
      · rcases hneeds with ⟨e, he, rfl⟩ | ⟨e, he, rfl⟩
        · exact hcovered.entering (.inl ⟨f, hmem, hsent, .inr ⟨_, hfirst, rfl⟩⟩) he
        · exact hcovered _ (.inl ⟨f, hmem, hsent, .inr ⟨e, hrest e he, rfl⟩⟩)
    · exact hcovered o (.inr hpending)

/-- The plugin of a `PluginData` is entered. -/
theorem Dispatches.Inv.enter (h : s.Inv R) (hf : s.frames[i]? = some f) {path : Str}
    (he : f.entering = some (q, path)) :
    s.Preserves R (.enter i) (({ s with
      frames := s.frames.set i { f with entering := none } } : Dispatches).execute R q
        f.transaction path) := by
  have hmem := List.mem_of_getElem? hf
  have hframe : ({ s with frames := s.frames.set i { f with entering := none } } : Dispatches).Inv R :=
    h.setFrame hf rfl ⟨(h.owns f hmem).todo, nofun⟩
  have hq : .plugin q ∈ s.alive := by
    obtain ⟨d, hd, hplugin⟩ := (h.owns f hmem).entering _ he
    have halive : .callback d ∈ s.alive :=
      h.closed.roots _ (List.mem_append_right _ (mem_stack.mpr ⟨f, hmem, d, hd, rfl⟩))
    exact h.closed.holds _ halive _ (mem_holds_callback.mpr ⟨q, hplugin, rfl⟩)
  refine ⟨hframe.execute hq, fun _ hcovered => ?_⟩
  have hcovered' :
      ({ s with frames := s.frames.set i { f with entering := none } } : Dispatches).Covered R := by
    rintro o (⟨f₁, hf₁, hsent, hneeds⟩ | hpending)
    · rcases List.mem_or_eq_of_mem_set hf₁ with hold | rfl
      · exact hcovered o (.inl ⟨f₁, hold, hsent, hneeds⟩)
      · rcases hneeds with ⟨e, he', -⟩ | htodo
        · cases he'
        · exact hcovered o (.inl ⟨f, hmem, hsent, .inr htodo⟩)
    · exact hcovered o (.inr hpending)
  exact hcovered'.execute fun hsent => hcovered _ (.inl ⟨f, hmem, hsent, .inl ⟨_, he, rfl⟩⟩)

/-- The next callback is chained. -/
theorem Dispatches.Inv.chain (h : s.Inv R) (hf : s.frames[i]? = some f)
    {path : Str} {todo : List (CallbackId × Str)} (htodo : f.todo = (c, path) :: todo) :
    s.Preserves R (.chain i) { s with
      frames := s.frames.set i { f with todo := todo }
      pending := s.pending ++ [⟨f.chain, f.transaction, c, path⟩] } := by
  have hmem := List.mem_of_getElem? hf
  have hrest : ∀ e ∈ todo, e ∈ f.todo := fun e he => htodo ▸ .tail _ he
  have hframe : ({ s with frames := s.frames.set i { f with todo := todo } } : Dispatches).Inv R :=
    h.setFrame hf rfl ⟨fun e he => (h.owns f hmem).todo e (hrest e he), (h.owns f hmem).entering⟩
  refine ⟨hframe.congr rfl rfl rfl rfl rfl, fun _ hcovered => ?_⟩
  rintro o (⟨f₁, hf₁, hsent, hneeds⟩ | ⟨l, hl, hsent, rfl⟩)
  · rcases List.mem_or_eq_of_mem_set hf₁ with hold | rfl
    · exact hcovered o (.inl ⟨f₁, hold, hsent, hneeds⟩)
    · refine hcovered o (.inl ⟨f, hmem, hsent, hneeds.imp_right ?_⟩)
      rintro ⟨e, he, rfl⟩
      exact ⟨e, hrest e he, rfl⟩
  · rcases List.mem_append.mp hl with hold | hnew
    · exact hcovered _ (.inr ⟨l, hold, hsent, rfl⟩)
    · obtain rfl := List.mem_singleton.mp hnew
      exact hcovered _ (.inl ⟨f, hmem, hsent, .inr ⟨(c, path), htodo ▸ .head _, rfl⟩⟩)

/-- A lambda goes, and nothing else happens to the references. -/
theorem Dispatches.Inv.forget (h : s.Inv R) {lab : DispatchLabel} (halive : s₁.alive = s.alive)
    (hcreated : s₁.created = s.created) (hregistry : s₁.registry = s.registry)
    (hheld : s₁.held = s.held) (hframes : s₁.frames = s.frames) (hpending : s₁.pending ⊆ s.pending)
    (hsent : s.sent ⊆ s₁.sent) : s.Preserves R lab s₁ := by
  refine ⟨h.congr halive hcreated hregistry hheld hframes, fun _ hcovered o hneeds => ?_⟩
  refine (hcovered o ?_).mono (hheld ▸ List.Subset.refl _)
    fun p => hregistry ▸ List.Subset.refl _
  rcases hneeds with ⟨f, hf, hunsent, hneeds⟩ | ⟨l, hl, hunsent, rfl⟩
  · exact .inl ⟨f, hframes ▸ hf, fun hs => hunsent (hsent hs), hneeds⟩
  · exact .inr ⟨l, hpending hl, fun hs => hunsent (hsent hs), rfl⟩

/-- A lambda calls `execute` on the callback that it has locked. -/
theorem Dispatches.Inv.ran (h : s.Inv R) {k : Nat} {l : Pending} {turns : List (CallbackId × Turn)}
    (hl : l ∈ s.pending) (halive : .callback l.callbackWeak ∈ s.alive) :
    s.Preserves R (.turn k) { s with
      pending := s.pending.eraseP (·.chain == k)
      turns := turns
      frames := s.frames ++ [{
        transaction := l.transaction
        owns := [l.callbackWeak]
        entering := R.entering l.callbackWeak l.newUriPath
        todo := []
        isFirst := false
        chain := l.chain }] } := by
  have hpush : ∀ f : Frame, f.owns = [l.callbackWeak] → f.todo = [] →
      f.entering = R.entering l.callbackWeak l.newUriPath →
        ({ s with frames := s.frames ++ [f] } : Dispatches).Inv R := by
    intro f howns htodo hentering
    refine h.push ⟨fun e he => ?_, fun e he => ?_⟩ fun c hc => ?_
    · rw [htodo] at he
      cases he
    · obtain ⟨q, hq, rfl⟩ := Option.map_eq_some_iff.mp (hentering.symm.trans he)
      exact ⟨l.callbackWeak, howns ▸ .head _, hq⟩
    · rw [howns] at hc
      exact List.mem_singleton.mp hc ▸ halive
  refine ⟨(hpush _ rfl rfl rfl).congr rfl rfl rfl rfl rfl, fun _ hcovered => ?_⟩
  rintro o (⟨f, hf, hsent, hneeds⟩ | ⟨l', hl', hsent, rfl⟩)
  · rcases List.mem_append.mp hf with hold | hnew
    · exact hcovered o (.inl ⟨f, hold, hsent, hneeds⟩)
    · obtain rfl := List.mem_singleton.mp hnew
      rcases hneeds with ⟨e, he, rfl⟩ | ⟨e, he, -⟩
      · exact hcovered.entering (.inr ⟨l, hl, hsent, rfl⟩) he
      · cases he
  · exact hcovered _ (.inr ⟨l', List.mem_of_mem_eraseP hl', hsent, rfl⟩)

/-- What a step preserves. -/
theorem dispatchStep_preserves {lab : DispatchLabel} (h : s.Inv R)
    (hstep : dispatchStep R s lab = some s') : s.Preserves R lab s' := by
  unfold dispatchStep at hstep
  split at hstep
  · cases hstep
  cases lab with
  | newPlugin p =>
    dsimp only at hstep
    split at hstep
    · cases hstep
    · rename_i hnew
      cases hstep
      refine ⟨h.create hnew fun o ho => ?_, fun _ hcovered o hneeds =>
        (hcovered o hneeds).mono (List.subset_cons_self _ _) fun p => List.Subset.refl _⟩
      obtain ⟨c, hc, -⟩ := Dispatches.mem_holds_plugin.mp ho
      rw [h.unregistered p hnew] at hc
      cases hc
  | addMethod p method c =>
    dsimp only at hstep
    split at hstep
    · rename_i hguard
      obtain ⟨hp, hnew, hplugin⟩ := hguard
      cases hstep
      refine h.add hp hnew (fun q hq => ?_) fun c' => ?_
      · rw [hplugin] at hq
        cases hq
      · simp only [Registry.callbacks, List.mem_append, mem_pushBack]
        tauto
    · cases hstep
  | addPlugin p d =>
    dsimp only at hstep
    split at hstep
    · rename_i q hq
      split at hstep
      · rename_i hguard
        obtain ⟨hp, halive, hnew⟩ := hguard
        cases hstep
        refine h.add hp hnew (fun q' hq' => ?_) fun c' => ?_
        · cases hq.symm.trans hq'
          exact halive
        · simp only [Registry.callbacks, List.mem_append, List.mem_singleton]
          tauto
      · cases hstep
    · cases hstep
  | removeMethod p c =>
    dsimp only at hstep
    split at hstep
    · cases hstep
      exact h.removeMethod
    · cases hstep
  | removePluginData p d =>
    dsimp only at hstep
    split at hstep
    · cases hstep
      exact h.removePluginData
    · cases hstep
  | removePlugin p q =>
    dsimp only at hstep
    split at hstep
    · cases hstep
      exact h.removePlugin
    · cases hstep
  | hold o =>
    dsimp only at hstep
    split at hstep
    · rename_i ho
      cases hstep
      exact h.hold ho
    · cases hstep
  | drop o =>
    dsimp only at hstep
    split at hstep
    · cases hstep
      exact h.dropReference
    · cases hstep
  | processRequest p t path =>
    dsimp only at hstep
    split at hstep
    · rename_i hp
      cases hstep
      exact ⟨h.execute (h.closed.roots _ (List.mem_append_left _ hp)),
        fun _ hcovered => hcovered.execute fun _ => .root hp⟩
    · cases hstep
  | first i =>
    dsimp only at hstep
    split at hstep
    · rename_i f hf
      split at hstep
      · rename_i htodo
        cases hstep
        exact h.first hf htodo
      · cases hstep
    · cases hstep
  | enter i =>
    dsimp only at hstep
    split at hstep
    · rename_i f hf
      split at hstep
      · rename_i he
        cases hstep
        exact h.enter hf he
      · cases hstep
    · cases hstep
  | chain i =>
    dsimp only at hstep
    split at hstep
    · rename_i f hf
      split at hstep
      · rename_i htodo
        cases hstep
        exact h.chain hf htodo
      · cases hstep
    · cases hstep
  | leave i =>
    dsimp only at hstep
    split at hstep
    · cases hstep
      exact h.leave
    · cases hstep
  | turn k =>
    dsimp only at hstep
    split at hstep
    · rename_i l hl
      have hfewer : s.pending.eraseP (·.chain == k) ⊆ s.pending := fun _ => List.mem_of_mem_eraseP
      split at hstep
      · cases hstep
        exact h.forget rfl rfl rfl rfl rfl hfewer (List.Subset.refl _)
      · split at hstep
        · rename_i halive
          cases hstep
          exact h.ran (List.mem_of_find?_eq_some hl) halive
        · cases hstep
          exact h.forget rfl rfl rfl rfl rfl hfewer (List.Subset.refl _)
    · cases hstep
  | reject k =>
    cases hstep
    exact h.forget rfl rfl rfl rfl rfl List.filter_sublist.subset (List.Subset.refl _)
  | send t =>
    cases hstep
    exact h.forget rfl rfl rfl rfl rfl (List.Subset.refl _) (List.subset_cons_self _ _)

/-! ### The lambdas -/

/-- What a lambda does when it runs. -/
def Dispatches.outcome (s : Dispatches) (l : Pending) : Turn :=
  if l.transaction ∈ s.sent then .skipped
  else if .callback l.callbackWeak ∈ s.alive then .ran
  else .expired

/-- The next lambda of a chain can run, unless there was a call through an expired reference. -/
theorem turn_eq {k : Nat} {l : Pending} (hsafe : ∀ e ∈ s.turns, e.2 ≠ .expired)
    (hl : s.pending.find? (·.chain == k) = some l) :
    ∃ s', dispatchStep R s (.turn k) = some s' ∧
      s'.turns = s.turns ++ [(l.callbackWeak, s.outcome l)] := by
  have hguard : ¬ s.turns.any (·.2 == .expired) = true := by
    intro hany
    obtain ⟨e, he, heq⟩ := List.any_eq_true.mp hany
    exact hsafe e he (eq_of_beq heq)
  unfold dispatchStep Dispatches.outcome
  rw [if_neg hguard]
  simp only [hl]
  split
  · exact ⟨_, rfl, rfl⟩
  · split <;> exact ⟨_, rfl, rfl⟩

/-- A lambda calls through an expired reference exactly when the response is not sent and no
reference to its callback is left. -/
theorem Dispatches.Inv.outcome_expired_iff (h : s.Inv R) {l : Pending} :
    s.outcome l = .expired ↔ l.transaction ∉ s.sent ∧
      RefCount.counted (s.holds R) s.roots s.alive (.callback l.callbackWeak) = false := by
  have halive : .callback l.callbackWeak ∈ s.alive ↔
      RefCount.counted (s.holds R) s.roots s.alive (.callback l.callbackWeak) = true :=
    ⟨h.counted _, h.closed.mem_of_counted⟩
  unfold Dispatches.outcome
  split
  · rename_i hsent
    simp [hsent]
  · rename_i hsent
    split
    · rename_i hmem
      simp [halive.mp hmem]
    · rename_i hdead
      simp only [hsent, not_false_eq_true, true_and, true_iff]
      exact Bool.eq_false_iff.mpr fun hcount => hdead (halive.mpr hcount)

/-- A lambda whose callback is kept runs it or skips it. -/
theorem Dispatches.Inv.outcome_covered (h : s.Inv R) (hcovered : s.Covered R) {l : Pending}
    (hl : l ∈ s.pending) : s.outcome l = .ran ∨ s.outcome l = .skipped := by
  unfold Dispatches.outcome
  split
  · exact .inr rfl
  · rename_i hsent
    have hkept : s.Kept R (.callback l.callbackWeak) := hcovered _ (.inr ⟨l, hl, hsent, rfl⟩)
    have halive : .callback l.callbackWeak ∈ s.alive :=
      h.closed.reaches (Reaches.mono hkept (List.subset_append_left _ _)
        fun owner => List.Subset.refl _)
    rw [if_pos halive]
    exact .inl rfl

/-- The other steps run no lambda. -/
theorem dispatchStep_turns {lab : DispatchLabel} (hstep : dispatchStep R s lab = some s')
    (hlab : ∀ k, lab ≠ .turn k) : s'.turns = s.turns := by
  unfold dispatchStep at hstep
  split at hstep
  · cases hstep
  cases lab with
  | turn k => exact absurd rfl (hlab k)
  | reject _ | send _ =>
    cases hstep
    rfl
  | newPlugin _ | addMethod _ _ _ | removeMethod _ _ | removePluginData _ _ | removePlugin _ _
  | hold _ | drop _ | processRequest _ _ _ | leave _ =>
    dsimp only at hstep
    split at hstep <;> first | (cases hstep; rfl) | cases hstep
  | addPlugin _ _ | enter _ | first _ | chain _ =>
    dsimp only at hstep
    split at hstep
    · split at hstep <;> first | (cases hstep; rfl) | cases hstep
    · cases hstep

/-- What holds in every state of a run whose steps all keep what is needed. -/
structure Dispatches.Safe (R : Registered) (s : Dispatches) : Prop where
  inv : s.Inv R
  covered : s.Covered R
  turns : ∀ e ∈ s.turns, e.2 ≠ .expired

/-- A step that keeps what is still needed calls nothing through an expired reference. -/
theorem Dispatches.Safe.step {lab : DispatchLabel} (hkeeps : s.Keeps R lab) (h : s.Safe R)
    (hstep : dispatchStep R s lab = some s') : s'.Safe R := by
  have hpreserves := dispatchStep_preserves h.inv hstep
  refine ⟨hpreserves.inv, hpreserves.covered hkeeps h.covered, fun e he => ?_⟩
  cases lab with
  | turn k =>
    cases hl : s.pending.find? (·.chain == k) with
    | none => simp [dispatchStep, hl] at hstep
    | some l =>
      obtain ⟨s₁, hs₁, hturns⟩ := turn_eq (R := R) h.turns hl
      cases hs₁.symm.trans hstep
      rw [hturns] at he
      rcases List.mem_append.mp he with hold | hnew
      · exact h.turns e hold
      · rw [List.mem_singleton.mp hnew]
        rcases h.inv.outcome_covered h.covered (List.mem_of_find?_eq_some hl) with ho | ho <;>
          simp [ho]
  | _ => exact h.turns e (dispatchStep_turns hstep nofun ▸ he)

end

/-- In every run that keeps what is still needed, no lambda has called through an expired reference,
and the next lambda of each chain runs its callback or skips it. -/
theorem removal_safe (R : Registered) {ls : List DispatchLabel} {s : Dispatches}
    (hrun : run (dispatchStep R) .start ls = some s)
    (hkeeps : Along (dispatchStep R) (Dispatches.Keeps R) .start ls) :
    (∀ e ∈ s.turns, e.2 ≠ .expired) ∧
      ∀ k l, s.pending.find? (·.chain == k) = some l → ∃ s', dispatchStep R s (.turn k) = some s' ∧
        (s'.turns = s.turns ++ [(l.callbackWeak, .ran)] ∨
          s'.turns = s.turns ++ [(l.callbackWeak, .skipped)]) := by
  have hstart : Dispatches.start.Safe R :=
    ⟨Dispatches.inv_start, Dispatches.covered_start, nofun⟩
  have hsafe : s.Safe R :=
    run_invariant_along (fun _ _ _ hk h hstep => h.step hk hstep) hkeeps hstart hrun
  refine ⟨hsafe.turns, fun k l hl => ?_⟩
  obtain ⟨s', hs', hturns⟩ := turn_eq (R := R) hsafe.turns hl
  refine ⟨s', hs', ?_⟩
  rcases hsafe.inv.outcome_covered hsafe.covered (List.mem_of_find?_eq_some hl) with ho | ho
  · exact .inl (ho ▸ hturns)
  · exact .inr (ho ▸ hturns)

/-- A server `0` whose handlers `1` and `2` match every path with its whole length. -/
def twoCallbacks : Registered where
  matchUri _ path := some path.length
  plugin _ := none
  method _ := "GET".toList

/-- Both handlers are registered for a request; the first one is called. -/
def dispatchBoth : List DispatchLabel :=
  [.newPlugin 0, .addMethod 0 "GET".toList 1, .addMethod 0 "GET".toList 2,
    .processRequest 0 0 "/".toList, .first 0]

/-- The first handler removes the second one, which the program still refers to. -/
def removesOther : List DispatchLabel :=
  dispatchBoth ++ [.removeMethod 0 2, .chain 0, .leave 0, .turn 0]

/-- The second handler is still referred to when it is removed. -/
theorem removesOther_keeps :
    Along (dispatchStep twoCallbacks) (Dispatches.Keeps twoCallbacks) .start removesOther := by
  refine .cons trivial rfl (.cons trivial rfl (.cons trivial rfl (.cons trivial rfl
    (.cons trivial rfl (.cons ?_ rfl (.cons trivial rfl (.cons trivial rfl
      (.cons trivial rfl trivial))))))))
  rintro o (⟨f, hf, -, hneeds⟩ | ⟨l, hl, -⟩)
  · obtain rfl := List.mem_singleton.mp hf
    rcases hneeds with ⟨e, he, -⟩ | ⟨e, he, rfl⟩
    · cases he
    · obtain rfl := List.mem_singleton.mp he
      exact .root (.head _)
  · cases hl

/-- A handler that is removed and still referred to runs. -/
theorem removal_safe_referenced : ∃ s, run (dispatchStep twoCallbacks) .start removesOther = some s ∧
    s.turns = [(2, .ran)] ∧ (∀ e ∈ s.turns, e.2 ≠ .expired) :=
  ⟨_, rfl, rfl, (removal_safe twoCallbacks (show run _ _ removesOther = _ from rfl)
    removesOther_keeps).1⟩

/-- The program has dropped its reference to the second handler when the first one removes it. -/
theorem removal_unsafe : ∃ s, run (dispatchStep twoCallbacks) .start
    (dispatchBoth ++ [.removeMethod 0 2, .drop (.callback 2), .chain 0, .leave 0, .turn 0]) = some s ∧
    s.turns = [(2, .expired)] :=
  ⟨_, rfl, rfl⟩

end NodeNative.Http
