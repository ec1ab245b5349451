import NodeNative.Async.Invariant

/-!
# Calls of the API

`World.Called w s` says that calls of the API lead from `w` to `s`: the invariant holds, the state
was only extended, and nothing was executed, closed or started. `World.Updates` says what these calls
are, one update after the other, on which thread they are made and which futures they may settle; it
implies `World.Called`, and every other property of calls is proved by induction on it.
-/

namespace NodeNative

section
variable {V : Type} {w : World V}

/-! ## Calls of the API -/

/-- Calls of the API lead from `w` to `s`. -/
structure World.Called (w s : World V) : Prop where
  inv : s.Inv
  extend : w.Extends s
  executed : s.executed = w.executed
  running : s.running = w.running
  closing : s.closing = w.closing
  aborted : s.aborted = w.aborted
  pending : ∀ a ∈ w.pending, a ∈ s.pending
  action : ∀ a, a ∈ w.pending ∨ a ∈ w.executedIds → s.action a = w.action a

/-- A call that does nothing keeps everything, -/
theorem World.Called.refl (h : w.Inv) : w.Called w :=
  ⟨h, .refl w, rfl, rfl, rfl, rfl, fun _ ha => ha, fun _ _ => rfl⟩

/-- and calls one after the other keep what each of them keeps. -/
theorem World.Called.trans {w₁ w₂ w₃ : World V} (h : w₁.Called w₂) (h' : w₂.Called w₃) :
    w₁.Called w₃ where
  inv := h'.inv
  extend := h.extend.trans h'.extend
  executed := h'.executed.trans h.executed
  running := h'.running.trans h.running
  closing := h'.closing.trans h.closing
  aborted := h'.aborted.trans h.aborted
  pending a ha := h'.pending a (h.pending a ha)
  action a ha := by
    have hx : w₂.executedIds = w₁.executedIds := congrArg (List.map Prod.fst) h.executed
    have ha' : a ∈ w₂.pending ∨ a ∈ w₂.executedIds := by
      rw [hx]
      exact ha.imp_left (h.pending a)
    rw [h'.action a ha', h.action a ha]

/-- Settling a pending future is a call. -/
theorem World.Inv.called_settled (h : w.Inv) {f : NodeId} (hf : f ∈ w.created)
    (hr : (w.futures f).resolver = none) (r : FutureSharedResolver V) :
    w.Called (w.settled f r) where
  inv := h.settled hf hr r
  extend := .settled hr r
  executed := rfl
  running := rfl
  closing := rfl
  aborted := rfl
  pending _ ha := List.mem_append_left _ ha
  action a ha := by
    have hnot : a ∉ (w.futures f).actions := by
      intro hmem
      obtain ⟨hp, hx⟩ := h.waiting f a hmem hr
      exact ha.elim hp hx
    simp [World.settled, hnot]

/-- Pushing an action that nothing has registered or sent is a call. -/
theorem World.Inv.called_pushed (h : w.Inv) {f a : NodeId} (ha : a ∈ w.created)
    (hf : f ∈ w.created) (hp : a ∉ w.pending) (hx : a ∉ w.executedIds)
    (hreg : ∀ g, a ∉ (w.futures g).actions) (hpost : ∀ b, a ≠ .post b)
    (hpp : .post a ∉ w.pending) : w.Called (w.pushed f a) where
  inv := h.pushed ha hf hp hx hreg hpost hpp
  extend := .pushed f a
  executed := w.pushed_executed f a
  running := w.pushed_running f a
  closing := w.pushed_closing f a
  aborted := w.pushed_aborted f a
  pending b hb := by
    rw [World.pushed_pending]
    split
    · exact List.mem_append_left _ hb
    · exact hb
  action b hb := by
    refine w.pushed_action_ne f a ?_
    rintro rfl
    exact hb.elim hp hx

/-- Creating a future under a new name is a call. -/
theorem World.Inv.called_createFuture (h : w.Inv) {n : NodeId} (hn : n ∉ w.created) (l : LoopId)
    (isVoid : Bool) (hpost : ∀ b, n = .post b → b ∈ w.created)
    (hrel : ∀ a, n = .relayThen a ∨ n = .relayError a →
      a ∈ w.executedIds ∧ ∀ l, w.running l ≠ some a) :
    w.Called (w.createFuture n l isVoid) where
  inv := h.createFuture hn l isVoid hpost hrel
  extend := .createFuture h hn l isVoid
  executed := rfl
  running := rfl
  closing := rfl
  aborted := rfl
  pending _ hb := hb
  action _ _ := rfl

/-- Creating an action under a new name is a call. -/
theorem World.Inv.called_createAction (h : w.Inv) {n : NodeId} (hn : n ∉ w.created) (l : LoopId)
    (srcVoid : Bool) (cls : ActionClass) {f : Callback}
    (hpush : ∀ g b, f = .push g b →
      n = .post b ∧ g ∈ w.created ∧ b ∈ w.created ∧ ∀ c, b ≠ .post c)
    (hrelay : ∀ d, f = .relay d → d ∈ w.created)
    (hpost : ∀ b, n = .post b → b ∈ w.created)
    (hrel : ∀ a, n = .relayThen a ∨ n = .relayError a →
      a ∈ w.executedIds ∧ ∀ l, w.running l ≠ some a) :
    w.Called (w.createAction n l srcVoid cls f) := by
  obtain ⟨hp, hx, -⟩ := h.fresh hn
  have hset : w.Called (w.setAction n { loop := l, cls, f }) :=
    { inv := h.setAction hn ⟨rfl, rfl, rfl, rfl⟩ hpush hrelay
      extend := .setAction hn _
      executed := rfl
      running := rfl
      closing := rfl
      aborted := rfl
      pending := fun _ hb => hb
      action := fun b hb => by
        have hbn : b ≠ n := by
          rintro rfl
          exact hb.elim hp hx
        simp [hbn] }
  exact hset.trans (hset.inv.called_createFuture hn l _ hpost hrel)

/-- Sending an action that no future registers is a call. -/
theorem World.Inv.called_deliver (h : w.Inv) {n : NodeId} (hn : n ∈ w.created)
    (hp : n ∉ w.pending) (hx : n ∉ w.executedIds) (hreg : ∀ g, n ∉ (w.futures g).actions)
    (hpp : .post n ∉ w.pending)
    (hpost : ∀ b, n = .post b →
      b ∉ w.pending ∧ b ∉ w.executedIds ∧ ∀ g, b ∉ (w.futures g).actions)
    (r : FutureSharedResolver V) : w.Called (w.deliver [n] r) where
  inv := h.deliver_one hn hp hx hreg hpp hpost r
  extend :=
    { created := fun _ ha => ha
      resolver := fun _ _ hr => hr
      actions := fun _ _ ha => ha
      executed := fun _ hx => hx
      action := fun a _ => by
        rw [World.deliver_action]
        split <;> exact ⟨rfl, rfl, rfl⟩
      future := fun _ _ => ⟨rfl, rfl⟩ }
  executed := rfl
  running := rfl
  closing := rfl
  aborted := rfl
  pending _ ha := List.mem_append_left _ ha
  action a ha := by
    have han : a ≠ n := by
      rintro rfl
      exact ha.elim hp hx
    simp [han]

/-- A new action is registered nowhere, and the registrations of the others stay. -/
theorem World.createAction_not_registered {n b : NodeId} (l : LoopId) (srcVoid : Bool)
    (cls : ActionClass) (f : Callback) (hb : ∀ g, b ∉ (w.futures g).actions) (g : NodeId) :
    b ∉ ((w.createAction n l srcVoid cls f).futures g).actions := by
  by_cases hgn : g = n
  · subst hgn; simp
  · rw [World.createAction_futures, if_neg hgn]
    exact hb g

/-- `async` under a new name is a call. A posting action must post one that is not sent and not
registered yet. -/
theorem World.Inv.called_asynced (h : w.Inv) {n : NodeId} (hn : n ∉ w.created) (l : LoopId)
    (R : RetType) {f : Callback}
    (hpush : ∀ g b, f = .push g b →
      n = .post b ∧ g ∈ w.created ∧ b ∈ w.created ∧ ∀ c, b ≠ .post c)
    (hrelay : ∀ d, f = .relay d → d ∈ w.created)
    (hpost : ∀ b, n = .post b → b ∈ w.created ∧
      b ∉ w.pending ∧ b ∉ w.executedIds ∧ ∀ g, b ∉ (w.futures g).actions)
    (hrel : ∀ a, n = .relayThen a ∨ n = .relayError a →
      a ∈ w.executedIds ∧ ∀ l, w.running l ≠ some a) :
    w.Called (w.asynced l n R f) := by
  obtain ⟨hp, hx, hreg, hpp⟩ := h.fresh hn
  have hc : w.Called (w.createAction n l true (.actionCallback R) f) :=
    h.called_createAction hn l true _ hpush hrelay (fun b hb => (hpost b hb).1) hrel
  refine hc.trans (hc.inv.called_deliver (.head _) hp hx
    (w.createAction_not_registered l true _ f hreg) hpp ?_ _)
  intro b hb
  obtain ⟨-, hbp, hbx, hbreg⟩ := hpost b hb
  exact ⟨hbp, hbx, w.createAction_not_registered l true _ f hbreg⟩

/-- Registering a new action on a future is a call: it is pushed at once, or a posted action that
will push it is sent. -/
theorem World.Inv.called_registered (h : w.Inv) {f n : NodeId} (hf : f ∈ w.created)
    (hn : n ∉ w.created) (t : Thread) (cls : ActionClass) {cb : Callback}
    (hcb : ∀ g b, cb ≠ .push g b) (hrelay : ∀ d, cb = .relay d → d ∈ w.created)
    (hpost : ∀ b, n ≠ .post b)
    (hrel : ∀ a, n = .relayThen a ∨ n = .relayError a →
      a ∈ w.executedIds ∧ ∀ l, w.running l ≠ some a) :
    w.Called (w.registered t f n cls cb) := by
  obtain ⟨hp, hx, hreg, hpp⟩ := h.fresh hn
  have hc : w.Called (w.createAction n (w.futures f).loop (w.futures f).isVoid cls cb) :=
    h.called_createAction hn _ _ _ (fun g b hgb => absurd hgb (hcb g b)) hrelay
      (fun b hb => absurd hb (hpost b)) hrel
  have hreg' := w.createAction_not_registered (n := n) (w.futures f).loop (w.futures f).isVoid
    cls cb hreg
  unfold World.registered
  dsimp only
  split
  · exact hc.trans (hc.inv.called_pushed (.head _) (.tail _ hf) hp hx hreg' hpost hpp)
  · have hpn : .post n ∉ (w.createAction n (w.futures f).loop (w.futures f).isVoid cls
        cb).created := by
      intro hmem
      rcases List.mem_cons.1 hmem with hmem | hmem
      · exact NodeId.post_ne n hmem
      · exact hn (h.created_post n hmem)
    refine hc.trans (hc.inv.called_asynced hpn _ _ ?_ (fun d hd => nomatch hd) ?_ ?_)
    · intro g b hgb
      injection hgb with hg hb
      subst hg hb
      exact ⟨rfl, .tail _ hf, .head _, hpost⟩
    · intro b hb
      injection hb with hb
      subst hb
      exact ⟨.head _, hp, hx, hreg'⟩
    · rintro a (ha | ha) <;> cases ha

/-- The relays of a returned future are calls, when the action was not relayed before. -/
theorem World.Inv.called_relayed (h : w.Inv) (t : Thread) {a g : NodeId}
    (hg : g ∈ w.created) (hx : a ∈ w.executedIds) (hrun : ∀ l, w.running l ≠ some a)
    (hthen : .relayThen a ∉ w.created) (herror : .relayError a ∉ w.created) :
    w.Called (w.relayedThen t g a) ∧ (w.relayedThen t g a).Called (w.relayed t g a) := by
  have ha : a ∈ w.created := h.created_executed a hx
  have h1 : w.Called (w.relayedThen t g a) :=
    h.called_registered hg hthen t ((w.futures g).thenClass .void) 
      (by simp) (by simpa using ha) (by simp)
      (by rintro b (hb | hb) <;> cases hb; exact ⟨hx, hrun⟩)
  refine ⟨h1, h1.inv.called_registered ?_ ?_ t _ (by simp) ?_ (by simp) ?_⟩
  · rw [World.relayedThen, World.registered_created]
    split <;> simp
  · rw [World.relayedThen, World.registered_created]
    split <;> simpa using herror
  · simpa using h1.extend.created a ha
  · rintro b (hb | hb) <;> cases hb
    refine ⟨?_, fun l => ?_⟩
    · rwa [World.executedIds, h1.executed]
    · rw [h1.running]
      exact hrun l

/-! ## One update at a time -/

/-- Calls of the API made on thread `t` lead from `w` to the state, and settle no future but those
in `may`, nor create relays to any other. A posting action pushes the action it was created for. -/
inductive World.Updates (t : Thread) (may : NodeId → Prop) (w : World V) : World V → Prop
  | refl : Updates t may w w
  | settled {s : World V} (h : Updates t may w s) {f : NodeId} (hmay : may f) (hf : f ∈ s.created)
      (ht : t (s.futures f).loop = true) (hr : (s.futures f).resolver = none)
      (r : FutureSharedResolver V) : Updates t may w (s.settled f r)
  | promise {s : World V} (h : Updates t may w s) {n : Nat} (hn : .user n ∉ s.created) (l : LoopId)
      (isVoid : Bool) : Updates t may w (s.createFuture (.user n) l isVoid)
  | asynced {s : World V} (h : Updates t may w s) {n : Nat} (hn : .user n ∉ s.created) (l : LoopId)
      (R : RetType) : Updates t may w (s.asynced l (.user n) R .user)
  | registered {s : World V} (h : Updates t may w s) {f n : NodeId} (hf : f ∈ s.created)
      (hn : n ∉ s.created) (cls : ActionClass) {cb : Callback} (hpost : ∀ b, n ≠ .post b)
      (hcb : ∀ g b, cb ≠ .push g b)
      (hrelay : ∀ d, cb = .relay d → d ∈ s.created ∧ (n = .relayThen d ∨ n = .relayError d))
      (hrel : ∀ a, n = .relayThen a ∨ n = .relayError a →
        may a ∧ a ∈ s.executedIds ∧ ∀ l, s.running l ≠ some a) :
      Updates t may w (s.registered t f n cls cb)
  | posted {s : World V} (h : Updates t may w s) {f b : NodeId}
      (hcb : (s.action (.post b)).f = .push f b) (hp : b ∉ s.pending) (hx : b ∉ s.executedIds)
      (hreg : ∀ g, b ∉ (s.futures g).actions) (hpp : .post b ∉ s.pending) :
      Updates t may w (s.pushed f b)

section
variable {t : Thread} {may : NodeId → Prop} {s : World V}

/-- Updates are calls. -/
theorem World.Updates.called (h : w.Inv) (hu : w.Updates t may s) : w.Called s := by
  induction hu with
  | refl => exact .refl h
  | settled _ _ hf _ hr r ih => exact ih.trans (ih.inv.called_settled hf hr r)
  | promise _ hn l isVoid ih =>
    exact ih.trans (ih.inv.called_createFuture hn l isVoid (by simp) (by simp))
  | asynced _ hn l R ih =>
    exact ih.trans (ih.inv.called_asynced hn l R (by simp) (by simp) (by simp) (by simp))
  | registered _ hf hn cls hpost hcb hrelay hrel ih =>
    exact ih.trans (ih.inv.called_registered hf hn t cls hcb (fun d hd => (hrelay d hd).1) hpost
      fun a ha => (hrel a ha).2)
  | posted _ hcb hp hx hreg hpp ih =>
    obtain ⟨-, hf, hb, hpost⟩ := ih.inv.push _ _ _ hcb
    exact ih.trans (ih.inv.called_pushed hb hf hp hx hreg hpost hpp)

/-- The two relays of the returned future `g` are updates, when the action was not relayed
before. -/
theorem World.Inv.updates_relayed (h : w.Inv) (t : Thread) {a g : NodeId} (hmay : may a)
    (hg : g ∈ w.created) (hx : a ∈ w.executedIds) (hrun : ∀ l, w.running l ≠ some a)
    (hthen : .relayThen a ∉ w.created) (herror : .relayError a ∉ w.created) :
    w.Updates t may (w.relayed t g a) := by
  have ha : a ∈ w.created := h.created_executed a hx
  have hfirst : w.Updates t may (w.relayedThen t g a) := by
    refine .registered .refl hg hthen _ (by simp) (by simp) ?_ ?_
    · rintro d hd
      cases hd
      exact ⟨ha, .inl rfl⟩
    · rintro b (hb | hb) <;> cases hb
      exact ⟨hmay, hx, hrun⟩
  have hc := hfirst.called h
  refine .registered hfirst ?_ ?_ _ (by simp) (by simp) ?_ ?_
  · rw [World.relayedThen, World.registered_created]
    split <;> simp
  · rw [World.relayedThen, World.registered_created]
    split <;> simpa using herror
  · rintro d hd
    cases hd
    exact ⟨hc.extend.created a ha, .inr rfl⟩
  · rintro b (hb | hb) <;> cases hb
    refine ⟨hmay, ?_, fun l => ?_⟩
    · rwa [World.executedIds, hc.executed]
    · rw [hc.running]
      exact hrun l

end

end

end NodeNative
