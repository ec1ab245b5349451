import NodeNative.Async.Order
import NodeNative.Async.Settlement

/-!
# Trees of callbacks

The callbacks of `then` registered below a promise make a tree: the children of a node are the
actions of its future. When the promise is resolved its children are sent, and when a callback has
returned a value its own children are, at the end of the queue of the loop. So the queue is that of a
breadth-first traversal (`World.TreeRun`).
-/

namespace NodeNative

open Transition BreadthFirst

section
variable {V : Type} {uv : UvAsync} {w₀ w : World V} {f : NodeId}

/-- The callbacks registered below the future `f`, level by level, with siblings in the order of
their registration. There are no more levels than objects (`World.PlainTree.depth`). -/
def World.breadthFirst (w : World V) (f : NodeId) : List NodeId :=
  order (fun a => (w.futures a).actions) (w.futures f).actions w.created.length

/-- The class is the one of `then` for a callback that returns a plain value, or nothing. -/
def ActionClass.IsPlainThen (cls : ActionClass) : Prop :=
  ∃ R, (R = .value ∨ R = .void) ∧ (cls = .actionCallback R ∨ cls = .actionCallbackP1 R)

instance (cls : ActionClass) : Decidable cls.IsPlainThen :=
  decidable_of_iff (∃ R ∈ [RetType.value, .void], cls = .actionCallback R ∨ cls = .actionCallbackP1 R)
    (by simp [ActionClass.IsPlainThen])

/-- What is registered below the pending promise `f` is a tree of callbacks of `then` that return
plain values. -/
structure World.PlainTree (w : World V) (f : NodeId) : Prop where
  created : f ∈ w.created
  root : ∀ g, f ∉ (w.futures g).actions
  pending : (w.futures f).resolver = none
  plain : ∀ a ∈ w.breadthFirst f, (w.action a).f = .user ∧ (w.action a).cls.IsPlainThen

/-! ## The nodes of a tree -/

/-- A node is registered on the promise or on another node. -/
theorem World.breadthFirst_parent {a : NodeId} (ha : a ∈ w₀.breadthFirst f) :
    ∃ g, (g = f ∨ g ∈ w₀.breadthFirst f) ∧ a ∈ (w₀.futures g).actions := by
  rcases mem_order ha with ha | ⟨b, hb, hab⟩
  · exact ⟨f, .inl rfl, ha⟩
  · exact ⟨b, .inr hb, hab⟩

/-- All nodes belong to the loop of the promise. -/
theorem World.Ordered.breadthFirst_loop (ho : w₀.Ordered) {a : NodeId}
    (ha : a ∈ w₀.breadthFirst f) :
    (w₀.action a).loop = (w₀.futures f).loop ∧ (w₀.futures a).loop = (w₀.futures f).loop := by
  refine order_induction (P := fun a => (w₀.action a).loop = (w₀.futures f).loop ∧
    (w₀.futures a).loop = (w₀.futures f).loop) (fun a ha => ho.loops f a ha) ?_ ha
  rintro a ⟨-, hfl⟩ b hb
  rw [← hfl]
  exact ho.loops a b hb

/-- All nodes exist. -/
theorem World.Inv.breadthFirst_created (h : w₀.Inv) {a : NodeId}
    (ha : a ∈ w₀.breadthFirst f) : a ∈ w₀.created := by
  obtain ⟨g, -, hg⟩ := World.breadthFirst_parent ha
  exact h.created_actions g a hg

section
variable (htree : w₀.PlainTree f)
include htree

/-- The level below the deepest nodes is empty. -/
theorem World.PlainTree.depth (h : w₀.Inv) :
    level (fun a => (w₀.futures a).actions) (w₀.futures f).actions w₀.created.length = [] :=
  level_eq_nil htree.root (fun a b c => h.actions_unique a b c) htree.created h.created_actions

/-- What is registered on the promise or on a node is a node. -/
theorem World.PlainTree.child (h : w₀.Inv) {g a : NodeId} (hg : g = f ∨ g ∈ w₀.breadthFirst f)
    (ha : a ∈ (w₀.futures g).actions) : a ∈ w₀.breadthFirst f := by
  rcases hg with rfl | hg
  · exact roots_mem_order (htree.depth h) ha
  · exact children_mem_order (htree.depth h) hg ha

/-- The root of a tree is none of its nodes. -/
theorem World.PlainTree.root_not_mem : f ∉ w₀.breadthFirst f := by
  intro hf
  obtain ⟨g, -, hg⟩ := World.breadthFirst_parent hf
  exact htree.root g hg

/-- Before the promise is settled no node was sent, and all of them are pending. -/
theorem World.PlainTree.unsent (h : w₀.Inv)
    (hsettled : ∀ a ∈ w₀.breadthFirst f, a ∉ w₀.executedIds → (w₀.futures a).resolver = none)
    {a : NodeId} (ha : a ∈ w₀.breadthFirst f) :
    a ∉ w₀.pending ∧ a ∉ w₀.executedIds ∧ (w₀.futures a).resolver = none := by
  have hnode : a ∈ w₀.breadthFirst f ∧ a ∉ w₀.pending ∧ a ∉ w₀.executedIds := by
    refine order_induction (P := fun a => a ∈ w₀.breadthFirst f ∧ a ∉ w₀.pending ∧
      a ∉ w₀.executedIds) (fun a ha => ⟨htree.child h (.inl rfl) ha, h.waiting f a ha htree.pending⟩)
      ?_ ha
    rintro a ⟨ha, -, hx⟩ b hb
    exact ⟨htree.child h (.inr ha) hb, h.waiting a b hb (hsettled a ha hx)⟩
  exact ⟨hnode.2.1, hnode.2.2, hsettled a ha hnode.2.2⟩

end

/-! ## A run of a tree -/

/-- The children of the node on the stack of the loop of the tree: they are sent when it returns. -/
def World.awaited (w₀ : World V) (f : NodeId) (w : World V) : List NodeId :=
  match w.running (w₀.futures f).loop with
  | some a => if a ∈ w₀.breadthFirst f then (w₀.futures a).actions else []
  | none => []

/-- The state `w` of a run of the tree that was registered below `f` in `w₀`: the nodes that were
executed, followed by those that the queue will visit, are the whole tree. -/
structure World.TreeRun (w₀ : World V) (f : NodeId) (w : World V) : Prop where
  inv : w.Inv
  ordered : w.Ordered
  named : w.RelaysNamed
  extend : w₀.Extends w
  actions : ∀ g ∈ w₀.created, (w₀.futures g).actions <+: (w.futures g).actions
  resolved : ∃ p, (w.futures f).resolver = some (.value p)
  value : ∀ a ∈ w₀.breadthFirst f, ∀ r, (w.futures a).resolver = some r → r.isError = false
  unsettled : ∀ a ∈ w₀.breadthFirst f, a ∉ w.executedIds → (w.futures a).resolver = none
  running : ∀ a ∈ w₀.breadthFirst f, ∀ l, w.running l = some a → (w.futures a).resolver = none
  relays : ∀ a ∈ w₀.breadthFirst f, .relayThen a ∉ w.created ∧ .relayError a ∉ w.created
  executed : ∀ a ∈ w₀.breadthFirst f, ∀ r, (a, r) ∈ w.executed → r.isError = false
  queue : ∃ out, Traverses (fun a => (w₀.futures a).actions)
      (w.pending.filter (· ∈ w₀.breadthFirst f) ++ w₀.awaited f w) out ∧
    w.executedIds.filter (· ∈ w₀.breadthFirst f) ++ out = w₀.breadthFirst f

/-- No future but the promise and the nodes has nodes among its actions. -/
theorem World.Inv.other_filter (hinv : w.Inv) (hext : w₀.Extends w) {g : NodeId}
    (hgf : g ≠ f) (hg : g ∉ w₀.breadthFirst f) :
    (w.futures g).actions.filter (· ∈ w₀.breadthFirst f) = [] := by
  rw [List.filter_eq_nil_iff]
  intro b hb hmem
  obtain ⟨g', hg', hbg'⟩ := World.breadthFirst_parent (of_decide_eq_true hmem)
  have hsame := hinv.actions_unique g' g b (hext.actions g' b hbg') hb
  subst hsame
  exact hg'.elim hgf hg

section
variable (htree : w₀.PlainTree f)
include htree

/-- The actions of the promise or of a node that are nodes are those it had in the tree. -/
theorem World.PlainTree.children_filter (h : w₀.Inv) (hinv : w.Inv) (hext : w₀.Extends w) {g : NodeId}
    (hg : g = f ∨ g ∈ w₀.breadthFirst f)
    (hpre : (w₀.futures g).actions <+: (w.futures g).actions) :
    (w.futures g).actions.filter (· ∈ w₀.breadthFirst f) = (w₀.futures g).actions := by
  obtain ⟨rest, hrest⟩ := hpre
  have hnd := hinv.actions_nodup g
  rw [← hrest] at hnd ⊢
  have hnone : rest.filter (· ∈ w₀.breadthFirst f) = [] := by
    rw [List.filter_eq_nil_iff]
    intro b hb hmem
    obtain ⟨g', -, hbg'⟩ := World.breadthFirst_parent (of_decide_eq_true hmem)
    have hsame : g' = g := by
      refine hinv.actions_unique g' g b (hext.actions g' b hbg') ?_
      rw [← hrest]
      exact List.mem_append_right _ hb
    subst hsame
    exact List.disjoint_of_nodup_append hnd hbg' hb
  rw [List.filter_append, hnone, List.append_nil, List.filter_eq_self]
  intro b hb
  exact decide_eq_true (htree.child h hg hb)

/-- Calls of the API that may settle no node send no node and create no relay of one. -/
theorem World.TreeRun.updates {t : Thread} {may : NodeId → Prop} {s : World V} (hinv : w.Inv)
    (hext : w₀.Extends w) (h₀ : w₀.Inv) (hroot : (w.futures f).resolver ≠ none)
    (hmay : ∀ a ∈ w₀.breadthFirst f, ¬ may a) (hu : w.Updates t may s) :
    s.pending.filter (· ∈ w₀.breadthFirst f) = w.pending.filter (· ∈ w₀.breadthFirst f) ∧
      ∀ a ∈ w₀.breadthFirst f,
        (.relayThen a ∈ s.created → .relayThen a ∈ w.created) ∧
        (.relayError a ∈ s.created → .relayError a ∈ w.created) := by
  have hnode : ∀ a ∈ w₀.breadthFirst f, a ∈ w₀.created := fun a ha =>
    h₀.breadthFirst_created ha
  induction hu with
  | refl => exact ⟨rfl, fun a _ => ⟨id, id⟩⟩
  | @settled s hu g hg _ _ hr r ih =>
    have hc := hu.called hinv
    have hgf : g ≠ f := by
      rintro rfl
      obtain ⟨r', hr'⟩ := Option.ne_none_iff_exists'.mp hroot
      rw [hc.extend.resolver g r' hr'] at hr
      cases hr
    refine ⟨?_, ih.2⟩
    show (s.pending ++ (s.futures g).actions).filter _ = _
    rw [List.filter_append, hc.inv.other_filter (hext.trans hc.extend) hgf
      (fun hmem => hmay g hmem hg), List.append_nil]
    exact ih.1
  | promise _ _ _ _ ih =>
    refine ⟨ih.1, fun a ha => ⟨fun hmem => ?_, fun hmem => ?_⟩⟩
    · exact (ih.2 a ha).1 ((List.mem_cons.mp hmem).resolve_left (by simp))
    · exact (ih.2 a ha).2 ((List.mem_cons.mp hmem).resolve_left (by simp))
  | @asynced s hu n hn l R ih =>
    have hc := hu.called hinv
    refine ⟨?_, fun a ha => ⟨fun hmem => ?_, fun hmem => ?_⟩⟩
    · have hnot : NodeId.user n ∉ w₀.breadthFirst f := fun hmem =>
        hn (hc.extend.created _ (hext.created _ (hnode _ hmem)))
      show (s.pending ++ [NodeId.user n]).filter _ = _
      rw [List.filter_append, ih.1]
      simp [hnot]
    · exact (ih.2 a ha).1 ((List.mem_cons.mp hmem).resolve_left (by simp))
    · exact (ih.2 a ha).2 ((List.mem_cons.mp hmem).resolve_left (by simp))
  | @registered s hu g n hg hn cls cb hpost _ _ hrel ih =>
    have hc := hu.called hinv
    have hnot : n ∉ w₀.breadthFirst f := fun hmem =>
      hn (hc.extend.created _ (hext.created _ (hnode _ hmem)))
    have hnotp : NodeId.post n ∉ w₀.breadthFirst f := fun hmem =>
      hn (hc.inv.created_post n (hc.extend.created _ (hext.created _ (hnode _ hmem))))
    refine ⟨?_, fun a ha => ⟨fun hmem => ?_, fun hmem => ?_⟩⟩
    · rw [← ih.1]
      unfold World.registered
      dsimp only
      split
      · rw [World.pushed_pending]
        split
        · rw [List.filter_append]
          simp [hnot]
        · rfl
      · simp [World.asynced, hnotp]
    · have hne : n ≠ .relayThen a := fun hna => hmay a ha (hrel a (.inl hna)).1
      rw [World.registered_created] at hmem
      refine (ih.2 a ha).1 ?_
      split at hmem <;> simpa [hne.symm] using hmem
    · have hne : n ≠ .relayError a := fun hna => hmay a ha (hrel a (.inr hna)).1
      rw [World.registered_created] at hmem
      refine (ih.2 a ha).2 ?_
      split at hmem <;> simpa [hne.symm] using hmem
  | @posted s hu g b _ _ _ hreg _ ih =>
    have hc := hu.called hinv
    have hnot : b ∉ w₀.breadthFirst f := by
      intro hmem
      obtain ⟨g', -, hbg'⟩ := World.breadthFirst_parent hmem
      exact hreg g' ((hext.trans hc.extend).actions g' b hbg')
    refine ⟨?_, fun a ha => ?_⟩
    · rw [World.pushed_pending]
      split
      · rw [List.filter_append, ih.1]
        simp [hnot]
      · exact ih.1
    · rw [World.pushed_created]
      exact ih.2 a ha

end

/-! ## The steps -/

/-- The callbacks of a tree return plain values. -/
def ReturnsValues (w₀ : World V) (f : NodeId) (w : World V) (lab : Label V) : Prop :=
  ∀ l r a, lab = .ret l r → w.running l = some a → a ∈ w₀.breadthFirst f → ∃ p, r = .value p

instance (w₀ : World V) (f : NodeId) (w : World V) (lab : Label V) :
    Decidable (ReturnsValues w₀ f w lab) :=
  match lab with
  | .ret l (.value p) => .isTrue fun _ _ _ hb _ _ => by cases hb; exact ⟨p, rfl⟩
  | .ret l (.future _) | .ret l (.throws _) | .ret l (.raises _) =>
    decidable_of_iff (∀ a ∈ w.running l, a ∉ w₀.breadthFirst f)
      ⟨fun h _ _ a hb ha hmem => by cases hb; exact absurd hmem (h a ha),
        fun h a ha hmem => by obtain ⟨p, hp⟩ := h l _ a rfl ha hmem; cases hp⟩
  | .promise .. | .resolve .. | .reject .. | .thenCb .. | .errorCb .. | .finallyCb .. | .async ..
  | .close .. | .fire .. => .isTrue fun _ _ _ hb => by cases hb

/-- What is awaited depends on the nodes on the stack only. -/
theorem World.awaited_congr (w' : World V) (hrunning : ∀ a ∈ w₀.breadthFirst f, ∀ l,
    w'.running l = some a ↔ w.running l = some a) : w₀.awaited f w' = w₀.awaited f w := by
  unfold World.awaited
  cases hl : w.running (w₀.futures f).loop with
  | none =>
    cases hl' : w'.running (w₀.futures f).loop with
    | none => rfl
    | some a =>
      dsimp only
      rw [if_neg]
      intro hmem
      rw [(hrunning a hmem _).mp hl'] at hl
      cases hl
  | some a =>
    dsimp only
    by_cases hmem : a ∈ w₀.breadthFirst f
    · rw [(hrunning a hmem _).mpr hl]
    · rw [if_neg hmem]
      cases hl' : w'.running (w₀.futures f).loop with
      | none => rfl
      | some b =>
        dsimp only
        rw [if_neg]
        intro hb
        rw [(hrunning b hb _).mp hl'] at hl
        cases hl
        exact hmem hb

/-- The state `w₁` differs from `w` in nothing that a run of the tree looks at. -/
structure World.Beside (w₀ : World V) (f : NodeId) (w w₁ : World V) : Prop where
  inv : w₁.Inv
  futures : w₁.futures = w.futures
  created : w₁.created = w.created
  extend : w₀.Extends w₁
  pending : w₁.pending.filter (· ∈ w₀.breadthFirst f) = w.pending.filter (· ∈ w₀.breadthFirst f)
  ids : w₁.executedIds.filter (· ∈ w₀.breadthFirst f) =
    w.executedIds.filter (· ∈ w₀.breadthFirst f)
  executed : ∀ a ∈ w₀.breadthFirst f, ∀ r, (a, r) ∈ w₁.executed → (a, r) ∈ w.executed
  running : ∀ a ∈ w₀.breadthFirst f, ∀ l, w₁.running l = some a ↔ w.running l = some a

/-- Starting an action that is no node does not concern the tree. -/
theorem World.Beside.started (hext : w₀.Extends w) {a : NodeId} {r : FutureSharedResolver V}
    (hinv : (w.started a r).Inv) (ha : a ∉ w₀.breadthFirst f) : w₀.Beside f w (w.started a r) where
  inv := hinv
  futures := rfl
  created := rfl
  extend := hext.trans (.started w a r)
  pending := by
    show (w.pending.erase a).filter _ = _
    rw [← List.erase_filter, List.erase_of_not_mem]
    intro hmem
    exact ha (of_decide_eq_true (List.mem_filter.mp hmem).2)
  ids := by
    rw [World.started_executedIds, List.filter_append]
    simp [ha]
  executed b hb r' hbr := by
    refine (List.mem_append.mp hbr).resolve_right fun hlast => ?_
    cases List.mem_singleton.mp hlast
    exact ha hb
  running _ _ _ := Iff.rfl

section
variable (h : w₀.TreeRun f w)
include h

/-- A step beside the tree that then makes calls which settle no node goes on with the run. -/
theorem World.TreeRun.outside (huv : uv.Ok) (htree : w₀.PlainTree f) (h₀ : w₀.Inv)
    {lab : Label V} (hfirst : FiresInOrder w lab) {w₁ s w' : World V} (hb : w₀.Beside f w w₁)
    {t : Thread} {may : NodeId → Prop} (hmay : ∀ a ∈ w₀.breadthFirst f, ¬ may a)
    (hu : w₁.Updates t may s)
    (hend : ∃ closing aborted, w' = { s with closing := closing, aborted := aborted })
    (hstep : NodeNative.step uv w lab = some w') : w₀.TreeRun f w' := by
  obtain ⟨hinv', hext'⟩ := step_inv huv h.inv hstep
  have hordered := h.ordered.step huv h.inv hfirst hstep
  have hnamed := h.named.step huv h.inv hstep
  have hactions := fun g hg => (h.actions g hg).trans
    (step_actions_extend huv h.inv hstep (h.extend.created g hg))
  have hroot : (w₁.futures f).resolver ≠ none := by
    obtain ⟨p, hp⟩ := h.resolved
    simp [hb.futures, hp]
  obtain ⟨hpending, hrelays⟩ := World.TreeRun.updates htree hb.inv hb.extend h₀ hroot hmay hu
  have hc := hu.called hb.inv
  have hids : s.executedIds = w₁.executedIds := congrArg (List.map Prod.fst) hc.executed
  have hrunning : ∀ a ∈ w₀.breadthFirst f, ∀ l, s.running l = some a ↔ w.running l = some a := by
    intro a ha l
    rw [hc.running]
    exact hb.running a ha l
  have hresolver : ∀ a ∈ w₀.breadthFirst f, (s.futures a).resolver = (w.futures a).resolver := by
    intro a ha
    rw [hu.resolver_eq hb.inv (hmay a ha), hb.futures]
  obtain ⟨closing, aborted, rfl⟩ := hend
  refine
    { inv := hinv', ordered := hordered, named := hnamed, extend := h.extend.trans hext',
      actions := hactions, resolved := ?_, value := ?_, unsettled := ?_, running := ?_,
      relays := ?_, executed := ?_, queue := ?_ }
  · obtain ⟨p, hp⟩ := h.resolved
    exact ⟨p, hext'.resolver f _ hp⟩
  · intro a ha r hr
    exact h.value a ha r (hresolver a ha ▸ hr)
  · intro a ha hx
    exact (hresolver a ha).trans (h.unsettled a ha fun hxa => hx (hext'.executedIds hxa))
  · intro a ha l hl
    exact (hresolver a ha).trans (h.running a ha l ((hrunning a ha l).mp hl))
  · intro a ha
    have hnone := h.relays a ha
    rw [← hb.created] at hnone
    exact ⟨fun hmem => hnone.1 ((hrelays a ha).1 hmem), fun hmem => hnone.2 ((hrelays a ha).2 hmem)⟩
  · intro a ha r hr
    refine h.executed a ha r (hb.executed a ha r ?_)
    rwa [← hc.executed]
  · have hawait := World.awaited_congr { s with closing := closing, aborted := aborted } hrunning
    rw [hawait]
    show ∃ out, Traverses _ (s.pending.filter _ ++ _) out ∧ s.executedIds.filter _ ++ out = _
    rw [hpending, hb.pending, hids, hb.ids]
    exact h.queue

/-- A node is still of its class, on the loop of the tree, and calls a callback of the program. -/
theorem World.TreeRun.node (htree : w₀.PlainTree f) (h₀ : w₀.Inv) (ho₀ : w₀.Ordered) {a : NodeId}
    (ha : a ∈ w₀.breadthFirst f) :
    (w.action a).loop = (w₀.futures f).loop ∧ (w.futures a).loop = (w₀.futures f).loop ∧
      (w.action a).f = .user ∧ (w.action a).cls.IsPlainThen := by
  obtain ⟨hloop, hfloop⟩ := ho₀.breadthFirst_loop ha
  obtain ⟨hf, hcls⟩ := htree.plain a ha
  have hac := h₀.breadthFirst_created ha
  obtain ⟨hloop', hcls', hf'⟩ := h.extend.action a hac
  refine ⟨hloop'.trans hloop, ?_, hf'.trans hf, hcls'.symm ▸ hcls⟩
  rw [(h.extend.future a hac).1, hfloop]

/-- A node in flight was sent with a value. -/
theorem World.TreeRun.sent_value {a : NodeId} (ha : a ∈ w₀.breadthFirst f) (hp : a ∈ w.pending)
    {r : FutureSharedResolver V} (hs : (w.action a).Sent r) : r.isError = false := by
  obtain ⟨g, hg, hag⟩ := World.breadthFirst_parent ha
  have hagw := h.extend.actions g a hag
  cases hr : (w.futures g).resolver with
  | none => exact absurd hp (h.inv.waiting g a hagw hr).1
  | some r' =>
    have hrr : r' = r := by
      rcases h.inv.delivered g a r' hagw hr with ⟨-, hres⟩ | hx
      · exact Option.some.inj (hres.symm.trans hs.resolver)
      · exact absurd (World.mem_executedIds hx) (h.inv.not_executed a hp)
    subst hrr
    rcases hg with rfl | hg
    · obtain ⟨p, hp'⟩ := h.resolved
      rw [hp'] at hr
      cases hr
      rfl
    · exact h.value g hg r' hr

omit h in
/-- An action of `then` calls its callback with a value. -/
theorem ActionClass.IsPlainThen.passes {cls : ActionClass} (hcls : cls.IsPlainThen)
    {r : FutureSharedResolver V} (hr : r.isError = false) : cls.passes r = false := by
  obtain ⟨R, -, rfl | rfl⟩ := hcls
  · exact hr
  · exact hr

/-- A node fires: it is the first one of the queue, and its children are awaited. -/
theorem World.TreeRun.fire (huv : uv.Ok) (htree : w₀.PlainTree f) (h₀ : w₀.Inv)
    (ho₀ : w₀.Ordered) {a : NodeId} (ha : a ∈ w₀.breadthFirst f)
    (hfirst : FiresInOrder w (.fire a)) {w' : World V}
    (hstep : NodeNative.step uv w (.fire a) = some w') : w₀.TreeRun f w' := by
  obtain ⟨hp, hidle⟩ := step_fire_enabled hstep
  obtain ⟨r, hs⟩ := h.inv.sent a hp
  obtain ⟨hloop, hfloop, hf, hcls⟩ := h.node htree h₀ ho₀ ha
  have hr := h.sent_value ha hp hs
  obtain ⟨hinv', hext'⟩ := step_inv huv h.inv hstep
  have hx : a ∉ w.executedIds := h.inv.not_executed a hp
  have hordered := h.ordered.step huv h.inv hfirst hstep
  have hnamed := h.named.step huv h.inv hstep
  have hacts := fun g hg => (h.actions g hg).trans
    (step_actions_extend huv h.inv hstep (h.extend.created g hg))
  obtain rfl := step_fire_user hs (hcls.passes hr) hf hstep
  -- The nodes in flight belong to one loop, so `a` is the first of them.
  obtain ⟨front, rest, hpending, hfront⟩ := hfirst.split
  have hnot : a ∉ front := by
    have hnd := h.inv.pending_nodup
    rw [hpending] at hnd
    exact fun hmem => List.disjoint_of_nodup_append hnd hmem (.head _)
  have hempty : front.filter (· ∈ w₀.breadthFirst f) = [] := by
    rw [List.filter_eq_nil_iff]
    intro b hb hmem
    refine hfront b hb ?_
    rw [(h.node htree h₀ ho₀ (of_decide_eq_true hmem)).1, hloop]
  refine
    { inv := hinv', ordered := hordered, named := hnamed, extend := h.extend.trans hext',
      actions := hacts, resolved := h.resolved, value := h.value, unsettled := ?_, running := ?_,
      relays := h.relays, executed := ?_, queue := ?_ }
  · intro b hb hbx
    exact h.unsettled b hb fun hbx' => hbx (hext'.executedIds hbx')
  · intro b hb l hl
    simp only [World.entered, Function.update_apply] at hl
    split at hl
    · cases hl
      exact h.unsettled a ha hx
    · exact h.running b hb l hl
  · intro b hb r' hbr
    rcases List.mem_append.mp hbr with hbr | hbr
    · exact h.executed b hb r' hbr
    · cases List.mem_singleton.mp hbr
      exact hr
  · obtain ⟨out, hout, horder⟩ := h.queue
    have hawait : w₀.awaited f w = [] := by
      unfold World.awaited
      rw [← hloop, hidle]
    have hawait' : w₀.awaited f ((w.started a r).entered a) = (w₀.futures a).actions := by
      have hrun : ((w.started a r).entered a).running (w₀.futures f).loop = some a := by
        rw [← hloop]
        exact Function.update_self _ _ _
      unfold World.awaited
      rw [hrun]
      exact if_pos ha
    have herase : ((w.started a r).entered a).pending = front ++ rest := by
      show w.pending.erase a = _
      rw [hpending, List.erase_append_right _ hnot, List.erase_cons_head]
    have hids : ((w.started a r).entered a).executedIds = w.executedIds ++ [a] :=
      w.started_executedIds a r
    rw [hawait, hpending, List.filter_append, hempty, List.append_nil, List.nil_append,
      List.filter_cons_of_pos (by simpa using ha)] at hout
    cases hout with
    | @cons _ _ out hout =>
      refine ⟨out, ?_, ?_⟩
      · rw [herase, hawait', List.filter_append, hempty, List.nil_append]
        exact hout
      · rw [hids, List.filter_append, List.filter_cons_of_pos (by simpa using ha),
          List.filter_nil, List.append_assoc]
        exact horder

/-- The callback of a node returns a value: the node's children join the queue. -/
theorem World.TreeRun.ret (huv : uv.Ok) (htree : w₀.PlainTree f) (h₀ : w₀.Inv)
    (ho₀ : w₀.Ordered) {a : NodeId} (ha : a ∈ w₀.breadthFirst f) {l : LoopId}
    (hl : w.running l = some a) {p : Option V} {w' : World V}
    (hstep : NodeNative.step uv w (.ret l (.value p)) = some w') : w₀.TreeRun f w' := by
  obtain ⟨hloop, hfloop, hf, R, hR, hcls⟩ := h.node htree h₀ ho₀ ha
  have hll : (w₀.futures f).loop = l := hloop.symm.trans (h.inv.running l a hl).1
  have hnone := h.running a ha l hl
  obtain ⟨hinv', hext'⟩ := step_inv huv h.inv hstep
  have hordered := h.ordered.step huv h.inv (fun b hb => by cases hb) hstep
  have hnamed := h.named.step huv h.inv hstep
  have hacts := fun g hg => (h.actions g hg).trans
    (step_actions_extend huv h.inv hstep (h.extend.created g hg))
  obtain ⟨q, rfl⟩ : ∃ q, w' = ((w.left l).settled a (.value q)).uvClosed a := by
    have hret : (w.action a).cls.ret = R := by rcases hcls with hcls | hcls <;> rw [hcls] <;> rfl
    rcases hR with rfl | rfl
    · exact ⟨p, step_ret_value huv h.inv hl hret (hfloop.trans hll) hnone hstep⟩
    · exact ⟨none, step_ret_void huv h.inv hl hret (fun s => ⟨p, rfl⟩) (hfloop.trans hll) hnone
        hstep⟩
  obtain ⟨-, r', hx, -⟩ := h.inv.running l a hl
  have hres : ∀ b, ((((w.left l).settled a (.value q)).uvClosed a).futures b).resolver =
      if b = a then some (.value q) else (w.futures b).resolver :=
    fun b => World.settled_resolver (w.left l) a b (.value q)
  refine
    { inv := hinv', ordered := hordered, named := hnamed, extend := h.extend.trans hext',
      actions := hacts, resolved := ?_, value := ?_, unsettled := ?_, running := ?_,
      relays := h.relays, executed := h.executed, queue := ?_ }
  · obtain ⟨p', hp'⟩ := h.resolved
    exact ⟨p', hext'.resolver f _ hp'⟩
  · intro b hb r hr
    rw [hres] at hr
    split at hr
    · cases hr
      rfl
    · exact h.value b hb r hr
  · intro b hb hbx
    rw [hres, if_neg]
    · exact h.unsettled b hb hbx
    · rintro rfl
      exact hbx (World.mem_executedIds hx)
  · intro b hb l' hl'
    obtain ⟨hne, hl'⟩ := World.left_running hl'
    refine absurd ?_ hne
    rw [← (h.inv.running l' b hl').1, (h.node htree h₀ ho₀ hb).1, hll]
  · obtain ⟨out, hout, horder⟩ := h.queue
    have hawait : w₀.awaited f w = (w₀.futures a).actions := by
      unfold World.awaited
      rw [hll, hl]
      exact if_pos ha
    have hawait' : w₀.awaited f (((w.left l).settled a (.value q)).uvClosed a) = [] := by
      have hrun : (((w.left l).settled a (.value q)).uvClosed a).running (w₀.futures f).loop =
          none := by
        rw [hll]
        exact Function.update_self _ _ _
      unfold World.awaited
      rw [hrun]
    refine ⟨out, ?_, horder⟩
    rw [hawait', List.append_nil]
    show Traverses _ ((w.pending ++ (w.futures a).actions).filter _) out
    rw [List.filter_append, htree.children_filter h₀ h.inv h.extend (.inr ha)
      (h.actions a (h₀.breadthFirst_created ha)), ← hawait]
    exact hout

/-- Every step goes on with the run when the callbacks of the tree return values and the program
settles no node itself. -/
theorem World.TreeRun.step (huv : uv.Ok) (htree : w₀.PlainTree f) (h₀ : w₀.Inv) (ho₀ : w₀.Ordered)
    {lab : Label V} (hfirst : FiresInOrder w lab)
    (hown : ∀ a ∈ w₀.breadthFirst f, ¬ lab.Settles a) (hreturn : ReturnsValues w₀ f w lab)
    {w' : World V} (hstep : NodeNative.step uv w lab = some w') : w₀.TreeRun f w' := by
  have hself : w₀.Beside f w w :=
    ⟨h.inv, rfl, rfl, h.extend, rfl, rfl, fun _ _ _ hx => hx, fun _ _ _ => Iff.rfl⟩
  have hcall : lab.IsCall → w₀.TreeRun f w' := by
    intro hlab
    obtain ⟨t, hu⟩ := step_call_updates huv h.inv hlab hstep
    exact h.outside huv htree h₀ hfirst hself hown hu ⟨_, _, rfl⟩ hstep
  cases lab with
  | fire a =>
    by_cases ha : a ∈ w₀.breadthFirst f
    · exact h.fire huv htree h₀ ho₀ ha hfirst hstep
    · obtain ⟨r, hp, -, hinv, hcases⟩ := step_fire_updates huv h.inv hstep
      have hbeside := World.Beside.started h.extend hinv ha
      rcases hcases with ⟨rfl, hidle, -, -⟩ | ⟨s, hu, hend⟩
      · -- A callback that is no node is put on the stack of a loop that was idle.
        have hentered : w₀.Beside f w ((w.started a r).entered a) :=
          { hbeside with
            inv := (step_inv huv h.inv hstep).1
            extend := h.extend.trans (step_inv huv h.inv hstep).2
            running := fun b hb l => by
              simp only [World.entered, Function.update_apply]
              split
              · rename_i hl
                have hab : a ≠ b := fun hab => ha (hab ▸ hb)
                simp [hl, World.started, hidle, hab]
              · exact Iff.rfl }
        have hnone : ((w.started a r).entered a).Updates (Thread.ofLoop 0) (fun _ => False)
            ((w.started a r).entered a) := .refl
        exact h.outside huv htree h₀ hfirst hentered (fun _ _ hmay => hmay) hnone ⟨_, _, rfl⟩ hstep
      · refine h.outside huv htree h₀ hfirst hbeside ?_ hu ?_ hstep
        · -- A relay to a node would be one of the node's two relays, which do not exist.
          rintro b hb (rfl | hrelay)
          · exact ha hb
          · have hac := h.inv.created_pending a hp
            rcases h.named a b hrelay with rfl | rfl
            · exact (h.relays b hb).1 hac
            · exact (h.relays b hb).2 hac
        · rcases hend with rfl | ⟨e, -, rfl⟩
          · exact ⟨_, _, rfl⟩
          · exact ⟨_, _, rfl⟩
  | close a =>
    obtain ⟨-, rfl⟩ := step_close h.inv hstep
    have hclosed : w₀.Beside f w (w.closed a) :=
      { hself with
        inv := (step_inv huv h.inv hstep).1
        extend := h.extend.trans (.closed w a) }
    have hnone : (w.closed a).Updates (Thread.ofLoop 0) (fun _ => False) (w.closed a) := .refl
    exact h.outside huv htree h₀ hfirst hclosed (fun _ _ hmay => hmay) hnone ⟨_, _, rfl⟩ hstep
  | ret l r =>
    obtain ⟨a, s, hl, hu, hend⟩ := step_ret_updates huv h.inv hstep
    by_cases ha : a ∈ w₀.breadthFirst f
    · obtain ⟨p, rfl⟩ := hreturn l r a rfl hl ha
      exact h.ret huv htree h₀ ho₀ ha hl hstep
    · have hleft : w₀.Beside f w (w.left l) :=
        { hself with
          inv := h.inv.left l
          extend := { h.extend with }
          running := fun b hb l' => by
            simp only [World.left, Function.update_apply]
            split
            · rename_i hll
              have hab : a ≠ b := fun hab => ha (hab ▸ hb)
              simp [hll, hl, hab]
            · exact Iff.rfl }
      refine h.outside huv htree h₀ hfirst hleft ?_ hu ?_ hstep
      · rintro b hb rfl
        exact ha hb
      · rcases hend with rfl | ⟨e, -, rfl⟩
        · exact ⟨_, _, rfl⟩
        · exact ⟨_, _, rfl⟩
  | promise n l isVoid => exact hcall trivial
  | resolve t g p => exact hcall trivial
  | reject t g e => exact hcall trivial
  | thenCb t g n R => exact hcall trivial
  | errorCb t g n => exact hcall trivial
  | finallyCb t g n R => exact hcall trivial
  | async l n R => exact hcall trivial

end

/-! ## From the resolution on -/

/-- Resolving the promise on its loop thread starts the run of the tree. -/
theorem World.PlainTree.start (huv : uv.Ok) (htree : w₀.PlainTree f) (h₀ : w₀.Inv)
    (ho₀ : w₀.Ordered) (hn₀ : w₀.RelaysNamed)
    (hsettled : ∀ a ∈ w₀.breadthFirst f, a ∉ w₀.executedIds → (w₀.futures a).resolver = none)
    {t : Thread} (ht : t (w₀.futures f).loop = true) {p : Option V} {w' : World V}
    (hstep : NodeNative.step uv w₀ (.resolve t f p) = some w') : w₀.TreeRun f w' := by
  have hunsent := fun a ha => htree.unsent h₀ hsettled (a := a) ha
  obtain ⟨hinv', hext'⟩ := step_inv huv h₀ hstep
  have hordered := ho₀.step huv h₀ (fun b hb => by cases hb) hstep
  have hnamed := hn₀.step huv h₀ hstep
  have hactions := fun g hg => step_actions_extend huv h₀ hstep (f := g) hg
  obtain ⟨-, rfl⟩ := step_resolve hstep
  rw [World.call, FutureShared.settle_run huv ht htree.pending (h₀.actions_nodup f)
    fun a ha => h₀.actions_idle ha htree.pending] at *
  have hres : ∀ a ∈ w₀.breadthFirst f, ((w₀.settled f (.value p)).futures a).resolver = none := by
    intro a ha
    rw [World.settled_resolver, if_neg]
    · exact (hunsent a ha).2.2
    · rintro rfl
      exact htree.root_not_mem ha
  have hrun : ∀ a ∈ w₀.breadthFirst f, ∀ l, w₀.running l ≠ some a := by
    intro a ha l hl
    obtain ⟨-, r, hx, -⟩ := h₀.running l a hl
    exact (hunsent a ha).2.1 (World.mem_executedIds hx)
  have hnone : ∀ l : List NodeId, (∀ a ∈ w₀.breadthFirst f, a ∉ l) →
      l.filter (· ∈ w₀.breadthFirst f) = [] := by
    intro l hl
    rw [List.filter_eq_nil_iff]
    intro a ha hmem
    exact hl a (of_decide_eq_true hmem) ha
  refine
    { inv := hinv', ordered := hordered, named := hnamed, extend := hext', actions := hactions,
      resolved := ⟨p, ?_⟩, value := ?_, unsettled := fun a ha _ => hres a ha,
      running := fun a ha _ _ => hres a ha, relays := ?_, executed := ?_,
      queue := ⟨w₀.breadthFirst f, ?_, ?_⟩ }
  · rw [World.settled_resolver, if_pos rfl]
  · intro a ha r hr
    rw [hres a ha] at hr
    cases hr
  · intro a ha
    exact ⟨fun hmem => (hunsent a ha).2.1 (h₀.created_relay a (.inl hmem)).1,
      fun hmem => (hunsent a ha).2.1 (h₀.created_relay a (.inr hmem)).1⟩
  · intro a ha r hr
    exact absurd (World.mem_executedIds hr) (hunsent a ha).2.1
  · have hawait : w₀.awaited f (w₀.settled f (.value p)) = [] := by
      unfold World.awaited
      split
      · rename_i a hl
        rw [if_neg]
        exact fun ha => hrun a ha _ hl
      · rfl
    rw [hawait, List.append_nil]
    show Traverses _ ((w₀.pending ++ (w₀.futures f).actions).filter _) _
    rw [List.filter_append, hnone w₀.pending fun a ha => (hunsent a ha).1, List.nil_append,
      htree.children_filter h₀ h₀ (.refl w₀) (.inl rfl) (List.prefix_refl _)]
    exact traverses_levels (htree.depth h₀)
  · show w₀.executedIds.filter _ ++ _ = _
    rw [hnone w₀.executedIds fun a ha => (hunsent a ha).2.1, List.nil_append]

/-- The run of the tree from the resolution of its promise on. -/
theorem run_tree (huv : uv.Ok) {ls₀ ls₁ : List (Label V)} {t : Thread} {p : Option V}
    (hrun₀ : runLabels uv ls₀ = some w₀) {w₁ : World V}
    (hstep : step uv w₀ (.resolve t f p) = some w₁) (hrun₁ : run (step uv) w₁ ls₁ = some w)
    (hfifo₀ : Along (step uv) FiresInOrder World.init ls₀)
    (hfifo₁ : Along (step uv) FiresInOrder w₁ ls₁) (htree : w₀.PlainTree f)
    (ht : t (w₀.futures f).loop = true)
    (hown₀ : ∀ lab ∈ ls₀, ∀ a ∈ w₀.breadthFirst f, ¬ lab.Settles a)
    (hown₁ : ∀ lab ∈ ls₁, ∀ a ∈ w₀.breadthFirst f, ¬ lab.Settles a)
    (hreturn : Along (step uv) (ReturnsValues w₀ f) w₁ ls₁) : w₀.TreeRun f w := by
  obtain ⟨h₀, ho₀⟩ := run_ordered huv World.Inv.init .init hfifo₀ hrun₀
  obtain ⟨-, hn₀⟩ := run_relaysNamed huv hrun₀
  have hstart := htree.start huv h₀ ho₀ hn₀
    (fun a ha hx => run_ownPending huv hrun₀ (fun lab hlab => hown₀ lab hlab a ha) (.inl hx)) ht
    hstep
  have hown : Along (step uv) (fun _ lab => ∀ a ∈ w₀.breadthFirst f, ¬ lab.Settles a) w₁ ls₁ :=
    Along.of_forall hown₁
  have hnext : ∀ (s : World V) lab s', (FiresInOrder s lab ∧ ReturnsValues w₀ f s lab) ∧
      (∀ a ∈ w₀.breadthFirst f, ¬ lab.Settles a) → w₀.TreeRun f s → step uv s lab = some s' →
        w₀.TreeRun f s' := by
    rintro s lab s' ⟨⟨hfirst, hret⟩, hlab⟩ hs hst
    exact hs.step huv htree h₀ ho₀ hfirst hlab hret hst
  exact run_invariant_along hnext ((hfifo₁.and hreturn).and hown) hstart hrun₁

/-! ## The order of the callbacks that are called -/

/-- The actions that have called their callback, in the order of the calls: the others were executed
with an outcome that they hand on. -/
def World.startedIds (w : World V) : List NodeId :=
  (w.executed.filter fun x => !(w.action x.1).cls.passes x.2).map Prod.fst

/-- Of the sublists of a list without duplicates, one is a sublist of those that have its
elements. -/
theorem sublist_of_subset {α : Type} [DecidableEq α] {l s t : List α} (hnd : l.Nodup)
    (hs : s.Sublist l) (ht : t.Sublist l) (hts : t ⊆ s) : t.Sublist s := by
  have hle : (l.filter (· ∈ s)).length ≤ s.length := by
    refine ((hnd.filter _).subperm fun a ha => ?_).length_le
    exact of_decide_eq_true (List.mem_filter.mp ha).2
  have hself : s.filter (· ∈ s) = s := by simp
  have hsub : s.Sublist (l.filter (· ∈ s)) := by
    have := hs.filter (· ∈ s)
    rwa [hself] at this
  rw [hsub.eq_of_length_le hle]
  have htself : t.filter (· ∈ s) = t := by
    rw [List.filter_eq_self]
    exact fun a ha => decide_eq_true (hts ha)
  have := ht.filter (· ∈ s)
  rwa [htself] at this

/-- The callbacks that were called are among the actions that were executed. -/
theorem World.startedIds_sublist (w : World V) : w.startedIds.Sublist w.executedIds :=
  List.filter_sublist.map _

/-- Callbacks are called in the order in which their actions are executed. -/
theorem World.Inv.started_in_order (h : w.Inv) {a b : NodeId} (hab : [a, b].Sublist w.executedIds)
    (ha : a ∈ w.startedIds) (hb : b ∈ w.startedIds) : [a, b].Sublist w.startedIds := by
  refine sublist_of_subset h.executed_nodup w.startedIds_sublist hab ?_
  simp [ha, hb]

section
variable (h : w₀.TreeRun f w) (htree : w₀.PlainTree f) (h₀ : w₀.Inv) (ho₀ : w₀.Ordered)
include h htree h₀ ho₀

/-- All executed nodes have called their callback. -/
theorem World.TreeRun.startedIds_filter :
    w.startedIds.filter (· ∈ w₀.breadthFirst f) = w.executedIds.filter (· ∈ w₀.breadthFirst f) := by
  unfold World.startedIds World.executedIds
  rw [List.filter_map, List.filter_map, List.filter_filter]
  congr 1
  refine List.filter_congr fun x hx => ?_
  by_cases ha : x.1 ∈ w₀.breadthFirst f
  · obtain ⟨-, -, -, hcls⟩ := h.node htree h₀ ho₀ ha
    have hpass := hcls.passes (h.executed x.1 ha x.2 hx)
    simp [ha, hpass]
  · simp [ha]

/-- The nodes that were executed are the first ones in breadth-first order. -/
theorem World.TreeRun.started_prefix :
    w.startedIds.filter (· ∈ w₀.breadthFirst f) <+: w₀.breadthFirst f := by
  obtain ⟨out, -, horder⟩ := h.queue
  rw [h.startedIds_filter htree h₀ ho₀]
  exact ⟨out, horder⟩

/-- When no node is in flight or on the stack, all of them were executed. -/
theorem World.TreeRun.started_all
    (hdone : ∀ a ∈ w₀.breadthFirst f, a ∉ w.pending ∧ ∀ l, w.running l ≠ some a) :
    w.startedIds.filter (· ∈ w₀.breadthFirst f) = w₀.breadthFirst f := by
  obtain ⟨out, hout, horder⟩ := h.queue
  have hempty : w.pending.filter (· ∈ w₀.breadthFirst f) = [] := by
    rw [List.filter_eq_nil_iff]
    intro a ha hmem
    exact (hdone a (of_decide_eq_true hmem)).1 ha
  have hawait : w₀.awaited f w = [] := by
    unfold World.awaited
    split
    · rename_i a hl
      rw [if_neg]
      exact fun ha => (hdone a ha).2 _ hl
    · rfl
  rw [hempty, hawait] at hout
  cases hout
  rw [h.startedIds_filter htree h₀ ho₀]
  rwa [List.append_nil] at horder

end

/-- Source: `FutureShared.ipp:16-100`, `AsyncBase.cpp:27-63`. In a run whose handles fire in the
order they were sent: of two callbacks registered on a future on its loop thread, before or after it
is settled, the first is executed first, and called first if both are called; and when a promise is
resolved below which a tree of callbacks of `then` was registered, and these return values, they are
called in the breadth-first order of the tree, and all of them when none is in flight any more. -/
theorem callback_order (huv : uv.Ok) {ls : List (Label V)} (hrun : runLabels uv ls = some w)
    (hfifo : Along (step uv) FiresInOrder World.init ls) :
    (∀ ls₁ lab₁ ls₂ lab₂ ls₃ f a b, ls = ls₁ ++ lab₁ :: (ls₂ ++ lab₂ :: ls₃) →
      lab₁.RegistersOn (w.futures f).loop f a → lab₂.RegistersOn (w.futures f).loop f b →
        [a, b].Sublist (w.futures f).actions ∧
        (b ∈ w.executedIds → [a, b].Sublist w.executedIds) ∧
        (a ∈ w.startedIds → b ∈ w.startedIds → [a, b].Sublist w.startedIds)) ∧
    ∀ ls₀ t f p ls₁ w₀ w₁, ls = ls₀ ++ .resolve t f p :: ls₁ → runLabels uv ls₀ = some w₀ →
      step uv w₀ (.resolve t f p) = some w₁ → t (w₀.futures f).loop = true → w₀.PlainTree f →
      (∀ lab ∈ ls, ∀ a ∈ w₀.breadthFirst f, ¬ lab.Settles a) →
      Along (step uv) (ReturnsValues w₀ f) w₁ ls₁ →
        w.startedIds.filter (· ∈ w₀.breadthFirst f) <+: w₀.breadthFirst f ∧
        ((∀ a ∈ w₀.breadthFirst f, a ∉ w.pending ∧ ∀ l, w.running l ≠ some a) →
          w.startedIds.filter (· ∈ w₀.breadthFirst f) = w₀.breadthFirst f) := by
  obtain ⟨hinv, hord⟩ := run_ordered huv World.Inv.init .init hfifo hrun
  refine ⟨?_, ?_⟩
  · rintro ls₁ lab₁ ls₂ lab₂ ls₃ f a b rfl h₁ h₂
    have hreg := registered_in_order huv hrun h₁ h₂
    refine ⟨hreg, hord.executed_in_order hinv hreg, fun ha hb => ?_⟩
    exact hinv.started_in_order
      (hord.executed_in_order hinv hreg (w.startedIds_sublist.subset hb)) ha hb
  · rintro ls₀ t f p ls₁ w₀ w₁ rfl hrun₀ hstep ht htree hown hreturn
    obtain ⟨hfifo₀, hrest⟩ := hfifo.append
    have hfifo₁ := (hrest hrun₀).2 w₁ hstep
    have hrun₁ : run (step uv) w₁ ls₁ = some w := by
      rw [runLabels, run_append, show run (step uv) World.init ls₀ = some w₀ from hrun₀] at hrun
      simpa [hstep] using hrun
    have h := run_tree huv hrun₀ hstep hrun₁ hfifo₀ hfifo₁ htree ht
      (fun lab hlab => hown lab (List.mem_append_left _ hlab))
      (fun lab hlab => hown lab (List.mem_append_right _ (.tail _ hlab))) hreturn
    obtain ⟨h₀, ho₀⟩ := run_ordered huv World.Inv.init .init hfifo₀ hrun₀
    exact ⟨h.started_prefix htree h₀ ho₀, h.started_all htree h₀ ho₀⟩

/-- A promise with two callbacks, and a third one registered below the first before the second. -/
def plantedTree : List (Label Nat) :=
  [.promise 0 0 false, .thenCb (Thread.ofLoop 0) (.user 0) 1 .value,
    .thenCb (Thread.ofLoop 0) (.user 1) 3 .void, .thenCb (Thread.ofLoop 0) (.user 0) 2 .void]

/-- The promise is resolved and the callbacks are called as their handles were sent. -/
def visitedTree : List (Label Nat) :=
  [.fire (.user 1), .ret 0 (.value (some 5)), .fire (.user 2), .ret 0 (.value none),
    .fire (.user 3), .ret 0 (.value none)]

/-- The states before and after the resolution, and at the end. -/
def planted : World Nat := (runLabels {} plantedTree).get (by decide)

def resolvedTree : World Nat :=
  (step {} planted (.resolve (Thread.ofLoop 0) (.user 0) (some 7))).get (by decide)

def visited : World Nat := (run (step {}) resolvedTree visitedTree).get (by decide)

/-- The callbacks of a tree with three nodes are called breadth first. -/
theorem callback_order_tree :
    visited.startedIds.filter (· ∈ planted.breadthFirst (.user 0)) = [.user 1, .user 2, .user 3] := by
  have huv : UvAsync.Ok {} := fun _ => ⟨rfl, rfl⟩
  have hrun₀ : runLabels {} plantedTree = some planted := (Option.some_get _).symm
  have hstep : step {} planted (.resolve (Thread.ofLoop 0) (.user 0) (some 7)) =
      some resolvedTree := (Option.some_get _).symm
  have hrun : runLabels {} (plantedTree ++
      .resolve (Thread.ofLoop 0) (.user 0) (some 7) :: visitedTree) = some visited := by
    rw [runLabels, run_append, show run (step {}) World.init plantedTree = _ from hrun₀]
    simp only [Option.bind_some, run_cons, hstep]
    exact (Option.some_get _).symm
  have hinv₀ := run_inv huv World.Inv.init hrun₀
  have hinv := run_inv huv World.Inv.init hrun
  have htree : planted.PlainTree (.user 0) := by
    refine ⟨by decide, fun g hg => ?_, by decide, by decide⟩
    have hroot : ∀ g ∈ planted.created, NodeId.user 0 ∉ (planted.futures g).actions := by decide
    by_cases hgc : g ∈ planted.created
    · exact hroot g hgc hg
    · rw [(hinv₀.created_future g hgc).2] at hg
      cases hg
  have horder := (callback_order huv hrun (by decide)).2 plantedTree (Thread.ofLoop 0) (.user 0)
    (some 7) visitedTree planted resolvedTree rfl hrun₀ hstep (by decide) htree ?_ (by decide)
  · refine (horder.2 fun a ha => ⟨?_, fun l hl => ?_⟩).trans (by decide)
    · revert a
      decide
    · have hloop : ∀ a ∈ planted.breadthFirst (.user 0), (visited.action a).loop = 0 := by decide
      obtain rfl := (hloop a ha).symm.trans (hinv.running l a hl).1
      have hidle : visited.running 0 = none := by decide
      rw [hidle] at hl
      cases hl
  · have hnodes : planted.breadthFirst (.user 0) = [.user 1, .user 2, .user 3] := by decide
    simp [plantedTree, visitedTree, Label.Settles, hnodes]

end

end NodeNative
