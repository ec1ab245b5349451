import NodeNative.Async.Delivery
import NodeNative.Async.Steps
import NodeNative.Lib.BreadthFirst

/-!
# The order of callbacks

When the handles of a loop fire in the order they were sent (`FiresInOrder`), the actions of a
future are executed in the order they were registered in: those that were sent are the first ones
of the future, in this order (`World.Ordered`).
-/

namespace NodeNative

open Transition

section
variable {V : Type} {uv : UvAsync} {w : World V}

/-- libuv fires the handles of a loop in the order they were initialised and sent. -/
def FiresInOrder (w : World V) (lab : Label V) : Prop :=
  ∀ a, lab = .fire a →
    (w.pending.filter fun b => (w.action b).loop = (w.action a).loop).head? = some a

instance (w : World V) (lab : Label V) : Decidable (FiresInOrder w lab) :=
  match lab with
  | .fire a => decidable_of_iff
      ((w.pending.filter fun b => (w.action b).loop = (w.action a).loop).head? = some a)
      ⟨fun h b hb => by cases hb; exact h, fun h => h a rfl⟩
  | .promise .. | .resolve .. | .reject .. | .thenCb .. | .errorCb .. | .finallyCb .. | .async ..
  | .close .. | .ret .. => .isTrue fun _ hb => by cases hb

/-- The actions that were sent, in the order they were sent in. -/
def World.sentIds (w : World V) : List NodeId := w.executedIds ++ w.pending

/-- An action has the loop of the future it is registered on, and so has its own future; the actions
of a settled future were sent in the order of their registration. -/
structure World.Ordered (w : World V) : Prop where
  loops : ∀ f, ∀ a ∈ (w.futures f).actions,
    (w.action a).loop = (w.futures f).loop ∧ (w.futures a).loop = (w.futures f).loop
  posted : ∀ a f b, (w.action a).f = .push f b →
    (w.action b).loop = (w.futures f).loop ∧ (w.futures b).loop = (w.futures f).loop
  queue : ∀ f r, (w.futures f).resolver = some r →
    w.sentIds.filter (· ∈ (w.futures f).actions) = (w.futures f).actions

/-! ## The updates -/

/-- Settling a future sends its actions, none of which was sent before. -/
theorem World.Ordered.settled (h : w.Inv) (ho : w.Ordered) {f : NodeId}
    (hf : (w.futures f).resolver = none) (r : FutureSharedResolver V) :
    (w.settled f r).Ordered := by
  have hloop : ∀ a, ((w.settled f r).action a).loop = (w.action a).loop := by
    intro a
    show (if a ∈ (w.futures f).actions then (w.action a).sent r else w.action a).loop = _
    split <;> rfl
  have hcb : ∀ a, ((w.settled f r).action a).f = (w.action a).f := by
    intro a
    show (if a ∈ (w.futures f).actions then (w.action a).sent r else w.action a).f = _
    split <;> rfl
  have hsent : (w.settled f r).sentIds = w.sentIds ++ (w.futures f).actions := by
    show w.executedIds ++ (w.pending ++ (w.futures f).actions) = _
    rw [World.sentIds, List.append_assoc]
  refine ⟨fun g a ha => ?_, fun a g b hb => ?_, fun g r' hr => ?_⟩
  · rw [World.settled_actions] at ha
    rw [hloop, World.settled_loop, World.settled_loop]
    exact ho.loops g a ha
  · rw [hcb] at hb
    rw [hloop, World.settled_loop, World.settled_loop]
    exact ho.posted a g b hb
  · rw [hsent, World.settled_actions, List.filter_append]
    by_cases hg : g = f
    · subst hg
      have hnone : w.sentIds.filter (· ∈ (w.futures g).actions) = [] := by
        rw [List.filter_eq_nil_iff]
        intro a ha hmem
        have hwait := h.waiting g a (by simpa using hmem) hf
        exact (List.mem_append.mp ha).elim hwait.2 hwait.1
      rw [hnone, List.nil_append, List.filter_eq_self]
      intro a ha
      simpa using ha
    · have hother : (w.futures f).actions.filter (· ∈ (w.futures g).actions) = [] := by
        rw [List.filter_eq_nil_iff]
        intro a ha hmem
        exact hg (h.actions_unique g f a (by simpa using hmem) ha)
      rw [World.settled_resolver, if_neg hg] at hr
      rw [hother, List.append_nil]
      exact ho.queue g r' hr

/-- Creating a future under a new name. -/
theorem World.Ordered.createFuture (h : w.Inv) (ho : w.Ordered) {n : NodeId} (hn : n ∉ w.created)
    (l : LoopId) (isVoid : Bool) : (w.createFuture n l isVoid).Ordered := by
  have hfut : ∀ g, g ≠ n → (w.createFuture n l isVoid).futures g = w.futures g := by
    intro g hg
    simp [World.createFuture, World.setFuture, hg]
  have hnew : ((w.createFuture n l isVoid).futures n).actions = [] ∧
      ((w.createFuture n l isVoid).futures n).resolver = none := by
    simp [World.createFuture, World.setFuture]
  have hact : (w.createFuture n l isVoid).action = w.action := rfl
  have hsent : (w.createFuture n l isVoid).sentIds = w.sentIds := rfl
  refine ⟨fun g a ha => ?_, fun a g b hb => ?_, fun g r hr => ?_⟩
  · have hg : g ≠ n := by
      rintro rfl
      rw [hnew.1] at ha
      cases ha
    rw [hfut g hg] at ha ⊢
    have han : a ≠ n := fun han => hn (han ▸ h.created_actions g a ha)
    rw [hfut a han, hact]
    exact ho.loops g a ha
  · obtain ⟨-, hg, hbc, -⟩ := h.push a g b hb
    rw [hfut g fun hgn => hn (hgn ▸ hg), hfut b fun hbn => hn (hbn ▸ hbc), hact]
    exact ho.posted a g b hb
  · have hg : g ≠ n := by
      rintro rfl
      rw [hnew.2] at hr
      cases hr
    rw [hfut g hg] at hr ⊢
    rw [hsent]
    exact ho.queue g r hr

/-- Creating an action under a new name. -/
theorem World.Ordered.createAction (h : w.Inv) (ho : w.Ordered) {n : NodeId} (hn : n ∉ w.created)
    (l : LoopId) (srcVoid : Bool) (cls : ActionClass) {cb : Callback}
    (hpush : ∀ g b, cb = .push g b → g ∈ w.created ∧ b ∈ w.created ∧
      (w.action b).loop = (w.futures g).loop ∧ (w.futures b).loop = (w.futures g).loop) :
    (w.createAction n l srcVoid cls cb).Ordered := by
  have hfut : ∀ g, g ∈ w.created →
      (w.createAction n l srcVoid cls cb).futures g = w.futures g := by
    intro g hg
    rw [World.createAction_futures, if_neg (fun hgn : g = n => hn (hgn ▸ hg))]
  have hact : ∀ b, b ∈ w.created →
      (w.createAction n l srcVoid cls cb).action b = w.action b := by
    intro b hb
    rw [World.createAction_action, if_neg (fun hbn : b = n => hn (hbn ▸ hb))]
  refine ⟨fun g a ha => ?_, fun a g b hb => ?_, fun g r hr => ?_⟩
  · have hg : g ∈ w.created := by
      by_contra hg
      rw [World.createAction_futures] at ha
      split at ha
      · cases ha
      · rw [(h.created_future g hg).2] at ha
        cases ha
    rw [hfut g hg] at ha ⊢
    have hac := h.created_actions g a ha
    rw [hact a hac, hfut a hac]
    exact ho.loops g a ha
  · rw [World.createAction_action] at hb
    split at hb
    · obtain ⟨hg, hbc, hloops⟩ := hpush g b hb
      rw [hact b hbc, hfut g hg, hfut b hbc]
      exact hloops
    · obtain ⟨-, hg, hbc, -⟩ := h.push a g b hb
      rw [hact b hbc, hfut g hg, hfut b hbc]
      exact ho.posted a g b hb
  · have hg : g ∈ w.created := by
      by_contra hg
      rw [World.createAction_futures] at hr
      split at hr
      · cases hr
      · rw [(h.created_future g hg).1] at hr
        cases hr
    rw [hfut g hg] at hr ⊢
    exact ho.queue g r hr

/-- Pushing an action that was not sent puts it at the end of the actions, and of those that were
sent when the future is settled. -/
theorem World.Ordered.pushed (ho : w.Ordered) {f a : NodeId} (hp : a ∉ w.pending)
    (hx : a ∉ w.executedIds) (hreg : ∀ g, a ∉ (w.futures g).actions)
    (hloop : (w.action a).loop = (w.futures f).loop)
    (hown : (w.futures a).loop = (w.futures f).loop) : (w.pushed f a).Ordered := by
  have hfield : ∀ b, ((w.pushed f a).action b).loop = (w.action b).loop ∧
      ((w.pushed f a).action b).f = (w.action b).f := by
    intro b
    rw [World.pushed_action]
    split
    · split <;> exact ⟨rfl, rfl⟩
    · exact ⟨rfl, rfl⟩
  have hfl : ∀ g, ((w.pushed f a).futures g).loop = (w.futures g).loop := by
    intro g
    rw [World.pushed_futures]
    split
    · rename_i hg
      rw [hg]
    · rfl
  have hnot : a ∉ w.sentIds := fun ha => (List.mem_append.mp ha).elim hx hp
  have hids : (w.pushed f a).executedIds = w.executedIds := by
    rw [World.executedIds, World.pushed_executed]
    rfl
  refine ⟨fun g b hb => ?_, fun b g c hc => ?_, fun g r hr => ?_⟩
  · rw [(hfield b).1, hfl, hfl]
    rw [World.pushed_futures] at hb
    split at hb
    · rename_i hg
      subst hg
      rcases List.mem_append.mp hb with hb | hb
      · exact ho.loops g b hb
      · cases List.mem_singleton.mp hb
        exact ⟨hloop, hown⟩
    · exact ho.loops g b hb
  · rw [(hfield b).2] at hc
    rw [(hfield c).1, hfl, hfl]
    exact ho.posted b g c hc
  · rw [World.sentIds, hids, World.pushed_pending]
    rw [World.pushed_futures] at hr ⊢
    split at hr
    · rename_i hg
      subst hg
      rw [if_pos rfl, if_pos (by rw [show (w.futures g).resolver = some r from hr]; rfl)]
      show (w.executedIds ++ (w.pending ++ [a])).filter (· ∈ (w.futures g).actions ++ [a]) =
        (w.futures g).actions ++ [a]
      have hold : w.sentIds.filter (· ∈ (w.futures g).actions ++ [a]) = (w.futures g).actions := by
        rw [← ho.queue g r hr]
        refine List.filter_congr fun b hb => ?_
        have hba : b ≠ a := fun hba => hnot (hba ▸ hb)
        rw [ho.queue g r hr]
        simp [hba]
      rw [← List.append_assoc, List.filter_append]
      rw [show w.executedIds ++ w.pending = w.sentIds from rfl, hold]
      simp
    · rename_i hg
      rw [if_neg hg]
      have hlast : ([a] : List NodeId).filter (· ∈ (w.futures g).actions) = [] := by
        simpa using hreg g
      have hold := ho.queue g r hr
      split
      · rw [← List.append_assoc, List.filter_append, hlast, List.append_nil]
        exact hold
      · exact hold

/-- Sending an action that is not registered. -/
theorem World.Ordered.deliver (ho : w.Ordered) {n : NodeId} (hreg : ∀ g, n ∉ (w.futures g).actions)
    (r : FutureSharedResolver V) : (w.deliver [n] r).Ordered := by
  have hfield : ∀ b, ((w.deliver [n] r).action b).loop = (w.action b).loop ∧
      ((w.deliver [n] r).action b).f = (w.action b).f := by
    intro b
    rw [World.deliver_action]
    split <;> exact ⟨rfl, rfl⟩
  refine ⟨fun g b hb => ?_, fun b g c hc => ?_, fun g r' hr => ?_⟩
  · rw [(hfield b).1]
    exact ho.loops g b hb
  · rw [(hfield b).2] at hc
    rw [(hfield c).1]
    exact ho.posted b g c hc
  · show (w.executedIds ++ (w.pending ++ [n])).filter (· ∈ (w.futures g).actions) = _
    have hlast : ([n] : List NodeId).filter (· ∈ (w.futures g).actions) = [] := by
      simpa using hreg g
    rw [← List.append_assoc, List.filter_append, hlast, List.append_nil]
    exact ho.queue g r' hr

/-- Calls of the API keep the order. -/
theorem World.Updates.ordered {t : Thread} {may : NodeId → Prop} {s : World V} (h : w.Inv)
    (ho : w.Ordered) (hu : w.Updates t may s) : s.Ordered := by
  induction hu with
  | refl => exact ho
  | settled hu _ _ _ hr r ih => exact ih.settled (hu.called h).inv hr r
  | promise hu hn l isVoid ih => exact ih.createFuture (hu.called h).inv hn l isVoid
  | @asynced s hu n hn l R ih =>
    have hinv := (hu.called h).inv
    refine (ih.createAction hinv hn l true _ ?_).deliver ?_ _
    · rintro g b hb
      cases hb
    · exact s.createAction_not_registered l true _ _ (hinv.fresh hn).2.2.1
  | @registered s hu f n hf hn cls cb hpost hcb hrelay hrel ih =>
    have hinv := (hu.called h).inv
    obtain ⟨hp, hx, hreg, -⟩ := hinv.fresh hn
    have hfn : f ≠ n := fun hfn => hn (hfn ▸ hf)
    have hc : (s.createAction n (s.futures f).loop (s.futures f).isVoid cls cb).Ordered :=
      ih.createAction hinv hn _ _ _ fun g b hgb => absurd hgb (hcb g b)
    have hcinv : (s.createAction n (s.futures f).loop (s.futures f).isVoid cls cb).Inv :=
      (hinv.called_createAction hn _ _ _ (fun g b hgb => absurd hgb (hcb g b))
        (fun d hd => (hrelay d hd).1) (fun b hb => absurd hb (hpost b))
        fun a ha => (hrel a ha).2).inv
    have hreg' := s.createAction_not_registered (n := n) (s.futures f).loop (s.futures f).isVoid
      cls cb hreg
    have hloops : ((s.createAction n (s.futures f).loop (s.futures f).isVoid cls cb).action n).loop =
        ((s.createAction n (s.futures f).loop (s.futures f).isVoid cls cb).futures f).loop ∧
        ((s.createAction n (s.futures f).loop (s.futures f).isVoid cls cb).futures n).loop =
        ((s.createAction n (s.futures f).loop (s.futures f).isVoid cls cb).futures f).loop := by
      simp [hfn]
    unfold World.registered
    dsimp only
    split
    · exact hc.pushed hp hx hreg' hloops.1 hloops.2
    · have hpn : .post n ∉ (s.createAction n (s.futures f).loop (s.futures f).isVoid cls
          cb).created := by
        intro hmem
        rcases List.mem_cons.mp hmem with hmem | hmem
        · exact NodeId.post_ne n hmem
        · exact hn (hinv.created_post n hmem)
      refine (hc.createAction hcinv hpn _ _ _ ?_).deliver ?_ _
      · rintro g b hgb
        cases hgb
        exact ⟨.tail _ hf, .head _, hloops⟩
      · exact World.createAction_not_registered _ _ _ _ (hcinv.fresh hpn).2.2.1
  | @posted s hu f b hcb hp hx hreg hpp ih =>
    obtain ⟨hloop, hown⟩ := ih.posted _ f b hcb
    exact ih.pushed hp hx hreg hloop hown

/-! ## Steps and runs -/

/-- The first handle of its loop: those in front of it belong to other loops. -/
theorem FiresInOrder.split {a : NodeId} (h : FiresInOrder w (.fire a)) :
    ∃ front rest, w.pending = front ++ a :: rest ∧
      ∀ b ∈ front, (w.action b).loop ≠ (w.action a).loop := by
  have hfirst := h a rfl
  rw [List.head?_filter, List.find?_eq_some_iff_append] at hfirst
  obtain ⟨-, front, rest, hpending, hfront⟩ := hfirst
  exact ⟨front, rest, hpending, fun b hb => by simpa using hfront b hb⟩

/-- Among actions of one loop, the one that fires was sent before those that are still in flight. -/
theorem FiresInOrder.sentIds_filter (h : w.Inv) {a : NodeId} (hfirst : FiresInOrder w (.fire a))
    {p : NodeId → Bool} (hp : ∀ b, p b = true → p a = true → (w.action b).loop = (w.action a).loop)
    (r : FutureSharedResolver V) : (w.started a r).sentIds.filter p = w.sentIds.filter p := by
  obtain ⟨front, rest, hpending, hfront⟩ := hfirst.split
  have hnot : a ∉ front := by
    have hnd := h.pending_nodup
    rw [hpending] at hnd
    intro ha
    exact List.disjoint_of_nodup_append hnd ha (.head _)
  have hsent : (w.started a r).sentIds = w.executedIds ++ a :: (front ++ rest) := by
    show (w.started a r).executedIds ++ w.pending.erase a = _
    rw [World.started_executedIds, hpending, List.erase_append_right _ hnot,
      List.erase_cons_head, List.append_assoc]
    rfl
  rw [hsent, World.sentIds, hpending]
  cases hpa : p a with
  | false => simp [hpa]
  | true =>
    have hempty : front.filter p = [] := by
      rw [List.filter_eq_nil_iff]
      exact fun b hb hpb => hfront b hb (hp b hpb hpa)
    simp [hpa, hempty]

/-- Firing the first handle of a loop keeps the order. -/
theorem World.Ordered.started (h : w.Inv) (ho : w.Ordered) {a : NodeId}
    (hfirst : FiresInOrder w (.fire a)) (r : FutureSharedResolver V) : (w.started a r).Ordered := by
  refine ⟨ho.loops, ho.posted, fun f r' hr => ?_⟩
  rw [hfirst.sentIds_filter h ?_ r]
  · exact ho.queue f r' hr
  · intro b hb ha
    have hbf : b ∈ (w.futures f).actions := of_decide_eq_true hb
    have haf : a ∈ (w.futures f).actions := of_decide_eq_true ha
    rw [(ho.loops f b hbf).1, (ho.loops f a haf).1]

/-- Closing a handle keeps the order. -/
theorem World.Ordered.closed (ho : w.Ordered) (a : NodeId) : (w.closed a).Ordered := by
  refine ⟨fun f b hb => ?_, fun b f c hc => ?_, ho.queue⟩
  · rw [(w.closed_action a b).1]
    exact ho.loops f b hb
  · rw [(w.closed_action a b).2] at hc
    rw [(w.closed_action a c).1]
    exact ho.posted b f c hc

/-- Every step keeps the order when the handles fire in order. -/
theorem World.Ordered.step (huv : uv.Ok) (h : w.Inv) (ho : w.Ordered) {lab : Label V}
    (hfirst : FiresInOrder w lab) {w' : World V} (hstep : NodeNative.step uv w lab = some w') :
    w'.Ordered := by
  refine step_keeps huv h (fun s _ _ _ hs => ⟨hs.loops, hs.posted, hs.queue⟩)
    (fun hs ho hu => hu.ordered hs ho) ?_ (fun a _ => ho.closed a) ho hstep
  rintro a r rfl
  exact ho.started h hfirst r

/-- Every run whose handles fire in order keeps the order. -/
theorem run_ordered (huv : uv.Ok) {ls : List (Label V)} {w' : World V} (h : w.Inv)
    (ho : w.Ordered) (hfifo : Along (step uv) FiresInOrder w ls)
    (hrun : run (step uv) w ls = some w') : w'.Inv ∧ w'.Ordered := by
  have hstep : ∀ (s : World V) lab s', FiresInOrder s lab → s.Inv ∧ s.Ordered → step uv s lab = some s' →
      s'.Inv ∧ s'.Ordered := by
    rintro s lab s' hfirst ⟨hs, hso⟩ hst
    exact ⟨(step_inv huv hs hst).1, hso.step huv hs hfirst hst⟩
  exact run_invariant_along hstep hfifo ⟨h, ho⟩ hrun

/-- Before the first step nothing is out of order. -/
theorem World.Ordered.init : (World.init : World V).Ordered :=
  ⟨fun _ _ ha => (nomatch ha), fun _ _ _ hb => (nomatch hb), fun _ _ hr => (nomatch hr)⟩

/-- The executed actions of a future are the first ones that were registered on it. -/
theorem World.Ordered.executed_prefix (h : w.Inv) (ho : w.Ordered) (f : NodeId) :
    w.executedIds.filter (· ∈ (w.futures f).actions) <+: (w.futures f).actions := by
  cases hr : (w.futures f).resolver with
  | some r =>
    have hqueue := ho.queue f r hr
    rw [World.sentIds, List.filter_append] at hqueue
    exact ⟨_, hqueue⟩
  | none =>
    have hnone : w.executedIds.filter (· ∈ (w.futures f).actions) = [] := by
      rw [List.filter_eq_nil_iff]
      exact fun a ha hmem => (h.waiting f a (by simpa using hmem) hr).2 ha
    rw [hnone]
    exact List.nil_prefix

/-! ## Registration -/

/-- The label registers action `a` on future `f` on the thread of loop `l`. -/
def Label.RegistersOn (l : LoopId) : Label V → NodeId → NodeId → Prop
  | .thenCb t g n _, f, a | .errorCb t g n, f, a | .finallyCb t g n _, f, a =>
    t l = true ∧ g = f ∧ a = .user n
  | _, _, _ => False

/-- Registering on the loop thread puts the action at the end. -/
theorem World.registered_actions_append {t : Thread} {f a : NodeId}
    (ht : t (w.futures f).loop = true) (hfa : f ≠ a) (cls : ActionClass) (cb : Callback) :
    ((w.registered t f a cls cb).futures f).actions = (w.futures f).actions ++ [a] := by
  unfold World.registered
  dsimp only
  rw [if_pos ht, World.pushed_futures, if_pos rfl, World.createAction_futures, if_neg hfa]

/-- A label that registers on the loop thread. -/
theorem step_registersOn (huv : uv.Ok) {lab : Label V} {f a : NodeId}
    (hlab : lab.RegistersOn (w.futures f).loop f a) {w' : World V}
    (hstep : step uv w lab = some w') :
    f ∈ w.created ∧ (w'.futures f).actions = (w.futures f).actions ++ [a] := by
  cases lab with
  | thenCb t g n R =>
    obtain ⟨ht, rfl, rfl⟩ := hlab
    obtain ⟨hf, hn, rfl⟩ := step_thenCb huv hstep
    exact ⟨hf, World.registered_actions_append ht (fun hfn : _ = NodeId.user n => hn (hfn ▸ hf)) _ _⟩
  | errorCb t g n =>
    obtain ⟨ht, rfl, rfl⟩ := hlab
    obtain ⟨hf, hn, rfl⟩ := step_errorCb huv hstep
    exact ⟨hf, World.registered_actions_append ht (fun hfn : _ = NodeId.user n => hn (hfn ▸ hf)) _ _⟩
  | finallyCb t g n R =>
    obtain ⟨ht, rfl, rfl⟩ := hlab
    obtain ⟨hf, hn, rfl⟩ := step_finallyCb huv hstep
    exact ⟨hf, World.registered_actions_append ht (fun hfn : _ = NodeId.user n => hn (hfn ▸ hf)) _ _⟩
  | promise n l isVoid => exact hlab.elim
  | resolve t g p => exact hlab.elim
  | reject t g e => exact hlab.elim
  | async l n R => exact hlab.elim
  | fire b => exact hlab.elim
  | close b => exact hlab.elim
  | ret l r => exact hlab.elim

/-- Registrations are added at the end. -/
theorem World.Updates.actions_prefix {t : Thread} {may : NodeId → Prop} {s : World V} (h : w.Inv)
    (hu : w.Updates t may s) {f : NodeId} (hf : f ∈ w.created) :
    (w.futures f).actions <+: (s.futures f).actions := by
  induction hu with
  | refl => exact List.prefix_refl _
  | settled _ _ _ _ _ r ih => rwa [World.settled_actions]
  | @promise s hu n hn l isVoid ih =>
    have hfn : f ≠ .user n := fun hfn => hn (hfn ▸ (hu.called h).extend.created f hf)
    have hsame : (s.createFuture (.user n) l isVoid).futures f = s.futures f := by
      simp [World.createFuture, World.setFuture, hfn]
    rwa [hsame]
  | @asynced s hu n hn l R ih =>
    have hfn : f ≠ .user n := fun hfn => hn (hfn ▸ (hu.called h).extend.created f hf)
    have hsame : (s.asynced l (.user n) R .user).futures f = s.futures f := by
      simp [World.asynced, hfn]
    rwa [hsame]
  | @registered s hu g n hg hn cls cb hpost _ _ _ ih =>
    have hfs := (hu.called h).extend.created f hf
    have hfn : f ≠ n := fun hfn => hn (hfn ▸ hfs)
    have hfp : f ≠ .post n := fun hfp => hn ((hu.called h).inv.created_post n (hfp ▸ hfs))
    refine ih.trans ?_
    unfold World.registered
    dsimp only
    split
    · rw [World.pushed_futures]
      split
      · rename_i hfg
        subst hfg
        rw [World.createAction_futures, if_neg hfn]
        exact List.prefix_append _ _
      · simp [World.createAction_futures, hfn]
    · simp [World.asynced, hfn, hfp]
  | @posted s hu g b hcb _ _ _ _ ih =>
    refine ih.trans ?_
    rw [World.pushed_futures]
    split
    · rename_i hfg
      rw [hfg]
      exact List.prefix_append _ _
    · exact List.prefix_refl _

/-- So does every step. -/
theorem step_actions_extend (huv : uv.Ok) (h : w.Inv) {lab : Label V} {w' : World V}
    (hstep : step uv w lab = some w') {f : NodeId} (hf : f ∈ w.created) :
    (w.futures f).actions <+: (w'.futures f).actions := by
  have hkeeps : f ∈ w'.created ∧ (w.futures f).actions <+: (w'.futures f).actions := by
    refine step_keeps huv h
      (I := fun s => f ∈ s.created ∧ (w.futures f).actions <+: (s.futures f).actions)
      (fun _ _ _ _ hs => hs) ?_ (fun _ _ _ => ⟨hf, List.prefix_refl _⟩)
      (fun _ _ => ⟨hf, List.prefix_refl _⟩) ⟨hf, List.prefix_refl _⟩ hstep
    rintro t may s s' hs ⟨hfs, hpre⟩ hu
    exact ⟨(hu.called hs).extend.created f hfs, hpre.trans (hu.actions_prefix hs hfs)⟩
  exact hkeeps.2

/-- Along a run the actions of a future stay in front of those that are added to it. -/
theorem run_actions_extend (huv : uv.Ok) {ls : List (Label V)} {w' : World V} (h : w.Inv)
    {f : NodeId} (hf : f ∈ w.created) (hrun : run (step uv) w ls = some w') :
    (w.futures f).actions <+: (w'.futures f).actions := by
  have hstep : ∀ (s : World V) lab s', s.Inv ∧ w.Extends s ∧
      (w.futures f).actions <+: (s.futures f).actions → step uv s lab = some s' →
        s'.Inv ∧ w.Extends s' ∧ (w.futures f).actions <+: (s'.futures f).actions := by
    rintro s lab s' ⟨hs, hext, hpre⟩ hst
    obtain ⟨hs', hext'⟩ := step_inv huv hs hst
    exact ⟨hs', hext.trans hext', hpre.trans (step_actions_extend huv hs hst (hext.created f hf))⟩
  exact (run_invariant hstep ⟨h, .refl w, List.prefix_refl _⟩ hrun).2.2

/-- The state before a label of a run, the one after it, and what the rest does. -/
theorem run_at (huv : uv.Ok) (h : w.Inv) {ls ms : List (Label V)} {lab : Label V} {w' : World V}
    (hrun : run (step uv) w (ls ++ lab :: ms) = some w') :
    ∃ s s', s.Inv ∧ run (step uv) w ls = some s ∧ step uv s lab = some s' ∧
      run (step uv) s' ms = some w' ∧ s.Extends w' := by
  obtain ⟨s, hs, hrest⟩ := run_append_some hrun
  have hsinv := run_inv huv h hs
  have hext := run_extends huv hsinv hrest
  rw [run_cons] at hrest
  obtain ⟨s', hst, hms⟩ := Option.bind_eq_some_iff.mp hrest
  exact ⟨s, s', hsinv, hs, hst, hms, hext⟩

/-- Two registrations on the loop thread are in the order of their labels. -/
theorem registered_in_order (huv : uv.Ok) {ls₁ ls₂ ls₃ : List (Label V)} {lab₁ lab₂ : Label V}
    (hrun : runLabels uv (ls₁ ++ lab₁ :: (ls₂ ++ lab₂ :: ls₃)) = some w) {f a b : NodeId}
    (h₁ : lab₁.RegistersOn (w.futures f).loop f a) (h₂ : lab₂.RegistersOn (w.futures f).loop f b) :
    [a, b].Sublist (w.futures f).actions := by
  obtain ⟨s₁, s₁', hinv₁, -, hst₁, hrest₁, hext₁⟩ := run_at huv World.Inv.init hrun
  obtain ⟨hinv₁', hext₁'⟩ := step_inv huv hinv₁ hst₁
  obtain ⟨s₂, s₂', hinv₂, hmid, hst₂, hrest₂, hext₂⟩ := run_at huv hinv₁' hrest₁
  have hfs₁ : f ∈ s₁.created := by
    cases lab₁ with
    | thenCb t g n R => obtain ⟨-, rfl, -⟩ := h₁; exact (step_thenCb huv hst₁).1
    | errorCb t g n => obtain ⟨-, rfl, -⟩ := h₁; exact (step_errorCb huv hst₁).1
    | finallyCb t g n R => obtain ⟨-, rfl, -⟩ := h₁; exact (step_finallyCb huv hst₁).1
    | promise n l isVoid => exact h₁.elim
    | resolve t g p => exact h₁.elim
    | reject t g e => exact h₁.elim
    | async l n R => exact h₁.elim
    | fire c => exact h₁.elim
    | close c => exact h₁.elim
    | ret l r => exact h₁.elim
  have hfs₂ : f ∈ s₂.created := (run_extends huv hinv₁' hmid).created f (hext₁'.created f hfs₁)
  rw [(hext₁.future f hfs₁).1] at h₁
  rw [(hext₂.future f hfs₂).1] at h₂
  -- `a` is among the actions before `b` is put at the end of them.
  obtain ⟨-, hacts₁⟩ := step_registersOn huv h₁ hst₁
  obtain ⟨-, hacts₂⟩ := step_registersOn huv h₂ hst₂
  have ha : a ∈ (s₂.futures f).actions := by
    refine (run_actions_extend huv hinv₁' (hext₁'.created f hfs₁) hmid).subset ?_
    rw [hacts₁]
    exact List.mem_append_right _ (.head _)
  have hab : [a, b].Sublist (s₂'.futures f).actions := by
    rw [hacts₂]
    exact (List.singleton_sublist.mpr ha).append (List.Sublist.refl [b])
  have hlast := run_actions_extend huv (step_inv huv hinv₂ hst₂).1
    ((step_inv huv hinv₂ hst₂).2.created f hfs₂) hrest₂
  exact hab.trans hlast.sublist

/-- Of a list without duplicates, a prefix with the second of two elements has them in order. -/
theorem pair_sublist_of_extend {α : Type} {a b : α} {pre l : List α} (hnd : l.Nodup)
    (hpre : pre <+: l) (hb : b ∈ pre) (hab : [a, b].Sublist l) : [a, b].Sublist pre := by
  obtain ⟨rest, rfl⟩ := hpre
  obtain ⟨l₁, l₂, heq, h₁, h₂⟩ := List.sublist_append_iff.mp hab
  have hnot : b ∉ l₂ := fun hb₂ => List.disjoint_of_nodup_append hnd hb (h₂.subset hb₂)
  match l₁, l₂, heq with
  | _, [], heq => rwa [heq, List.append_nil]
  | _, [c], heq =>
    have hcb : c = b := by
      have := congrArg List.getLast? heq
      simpa using this.symm
    exact absurd (by simp [hcb]) hnot
  | l₁, c :: d :: l₂, heq =>
    have hd : b ∈ c :: d :: l₂ := by
      cases l₁ with
      | nil => rw [← show [a, b] = c :: d :: l₂ from heq]; simp
      | cons x l₁ =>
        have hlen := congrArg List.length heq
        simp only [List.length_cons, List.length_append, List.length_nil] at hlen
        omega
    exact absurd hd hnot

/-- When the handles fire in order, of two callbacks that were registered on a future the first is
executed first. -/
theorem World.Ordered.executed_in_order (h : w.Inv) (ho : w.Ordered) {f a b : NodeId}
    (hab : [a, b].Sublist (w.futures f).actions) (hb : b ∈ w.executedIds) :
    [a, b].Sublist w.executedIds := by
  have hbf : b ∈ (w.futures f).actions := hab.subset (by simp)
  refine (pair_sublist_of_extend (h.actions_nodup f) (ho.executed_prefix h f) ?_ hab).trans
    List.filter_sublist
  rw [List.mem_filter]
  exact ⟨hb, by simpa using hbf⟩

end

end NodeNative
