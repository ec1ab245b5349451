import NodeNative.Async.Graph

/-!
# The state of every node of a graph

`Graph.NodeInv` says how far node `n` has come. Nothing but its own action and the two relays of a
future that its callback returned ever settle it, so as long as none of these has done so it is
pending; and once its action was executed it is settled as `Node.result` says, or it relays a
returned future (`Graph.Relaying`). `Graph.Inv` holds of all nodes, and every event keeps it.
-/

namespace NodeNative

section
variable {V : Type} {uv : UvAsync} {G : Graph V} {w w' : World V} {n : Nat}
  {σ : Nat → Option (FutureSharedResolver V)}

/-- The result of the callback as the node's class takes it. -/
def Node.taken (node : Node V) (c : CallbackResult V) : CallbackResult V :=
  match node with
  | .errorCb _ isVoid _ => c.ofError false isVoid
  | _ => c

/-- The futures whose settlement the outcome of node `n` goes through. -/
def NodeId.OwnedBy (n : Nat) (a : NodeId) : Prop :=
  a = .user n ∨ a = .relayThen (.user n) ∨ a = .relayError (.user n)

/-- Node `n` relays the returned future `m`: by `relayThen` when `m` has a value, and by
`relayError`, registered on the future of `relayThen`, when it has an error. -/
structure Graph.Relaying (G : Graph V) (w : World V) (n m : Nat) : Prop where
  created : .user m ∈ w.created
  then_mem : .relayThen (.user n) ∈ (w.futures (.user m)).actions
  then_cls : (w.action (.relayThen (.user n))).cls = .actionCallback .void ∨
    (w.action (.relayThen (.user n))).cls = .actionCallbackP1 .void
  then_loop : (w.action (.relayThen (.user n))).loop = G.loop ∧
    (w.futures (.relayThen (.user n))).loop = G.loop
  then_f : (w.action (.relayThen (.user n))).f = .relay (.user n)
  error_mem : .relayError (.user n) ∈ (w.futures (.relayThen (.user n))).actions
  error_cls : (w.action (.relayError (.user n))).cls = .actionCallbackError
  error_loop : (w.action (.relayError (.user n))).loop = G.loop ∧
    (w.futures (.relayError (.user n))).loop = G.loop
  error_f : (w.action (.relayError (.user n))).f = .relay (.user n)
  waiting : .relayThen (.user n) ∉ w.executedIds → (w.futures (.user n)).resolver = none
  value : ∀ p, (.relayThen (.user n), .value p) ∈ w.executed →
    (w.futures (.user n)).resolver = some (.value p) ∧
      (w.futures (.relayThen (.user n))).resolver = some (.value none)
  error : ∀ e, (.relayThen (.user n), .error e) ∈ w.executed →
    (w.futures (.relayThen (.user n))).resolver = some (.error e) ∧
      (.relayError (.user n) ∉ w.executedIds → (w.futures (.user n)).resolver = none)
  relayed : ∀ e, (.relayError (.user n), .error e) ∈ w.executed →
    (w.futures (.user n)).resolver = some (.error e)

/-- The callback of node `n` has returned `c`. -/
def Graph.Ended (G : Graph V) (w : World V) (n : Nat) : CallbackResult V → Prop
  | .value p => (w.futures (.user n)).resolver = some (.value p)
  | .throws e => (w.futures (.user n)).resolver = some (.error e)
  | .future m => G.Relaying w n m

/-- The state of the node `n` once it is built. -/
structure Graph.NodeInv (G : Graph V) (w : World V) (n : Nat) : Prop where
  loop : (w.futures (.user n)).loop = G.loop
  isVoid : (w.futures (.user n)).isVoid = (G.node n).isVoid
  action : (G.node n).isPromise = false → (w.action (.user n)).loop = G.loop ∧
    (w.action (.user n)).cls = G.cls (G.node n) ∧ (w.action (.user n)).f = .user
  source : ∀ s, (G.node n).src = some s →
    .user s ∈ w.created ∧ w.Registered (.user s) (.user n)
  async : ∀ R f, G.node n = .async R f →
    (.user n ∈ w.pending ∧ (w.action (.user n)).resolver = some (.value none)) ∨
      (.user n, .value none) ∈ w.executed
  passed : ∀ r, (.user n, r) ∈ w.executed → (G.node n).result r = none →
    (w.futures (.user n)).resolver = some r
  running : ∀ r, w.running G.loop = some (.user n) → (.user n, r) ∈ w.executed →
    (G.node n).result r ≠ none ∧ (w.futures (.user n)).resolver = none
  ended : ∀ r c, (.user n, r) ∈ w.executed → (G.node n).result r = some c →
    w.running G.loop ≠ some (.user n) → G.Ended w n ((G.node n).taken c)

/-- The state of all nodes, and of the actions that serve them. The promises are settled as `σ`
says. -/
structure Graph.Inv (G : Graph V) (σ : Nat → Option (FutureSharedResolver V)) (w : World V) :
    Prop where
  inv : w.Inv
  aborted : w.aborted = none
  names : ∀ a ∈ w.created, ∃ n, a.OwnedBy n ∨ a = .post (.user n)
  running : ∀ l a, w.running l = some a → l = G.loop ∧ ∃ n, a = .user n
  node : ∀ n, .user n ∈ w.created → G.NodeInv w n
  promise : ∀ n, (G.node n).isPromise = true → .user n ∉ w.pending ∧ .user n ∉ w.executedIds ∧
    (∀ f, .user n ∉ (w.futures f).actions) ∧ (w.futures (.user n)).resolver = σ n
  post : ∀ n, .post (.user n) ∈ w.created → (G.node n).src ≠ none ∧
    (w.action (.post (.user n))).loop = G.loop ∧ (w.futures (.post (.user n))).loop = G.loop
  relay : ∀ n, .relayThen (.user n) ∈ w.created ∨ .relayError (.user n) ∈ w.created →
    ∃ r c m, (.user n, r) ∈ w.executed ∧ (G.node n).result r = some c ∧
      (G.node n).taken c = .future m
  fresh : ∀ a ∈ w.created, (∀ n, a = .user n → (G.node n).isPromise = false) →
    a ∉ w.executedIds → (w.futures a).resolver = none

/-! ## What no event of another node touches -/

/-- Relaying goes on in an extended state, in which its progress is as it should be. -/
theorem Graph.Relaying.advance {m : Nat} (h : G.Relaying w n m) (hinv : w.Inv)
    (hext : w.Extends w')
    (hwaiting : .relayThen (.user n) ∉ w'.executedIds → (w'.futures (.user n)).resolver = none)
    (hvalue : ∀ p, (.relayThen (.user n), .value p) ∈ w'.executed →
      (w'.futures (.user n)).resolver = some (.value p) ∧
        (w'.futures (.relayThen (.user n))).resolver = some (.value none))
    (herror : ∀ e, (.relayThen (.user n), .error e) ∈ w'.executed →
      (w'.futures (.relayThen (.user n))).resolver = some (.error e) ∧
        (.relayError (.user n) ∉ w'.executedIds → (w'.futures (.user n)).resolver = none))
    (hrelayed : ∀ e, (.relayError (.user n), .error e) ∈ w'.executed →
      (w'.futures (.user n)).resolver = some (.error e)) : G.Relaying w' n m := by
  have htc := hinv.created_actions _ _ h.then_mem
  have hec := hinv.created_actions _ _ h.error_mem
  obtain ⟨t1, t2, t3⟩ := hext.action _ htc
  obtain ⟨e1, e2, e3⟩ := hext.action _ hec
  exact
    { created := hext.created _ h.created
      then_mem := hext.actions _ _ h.then_mem
      then_cls := by rw [t2]; exact h.then_cls
      then_loop := ⟨t1.trans h.then_loop.1, (hext.future _ htc).1.trans h.then_loop.2⟩
      then_f := t3.trans h.then_f
      error_mem := hext.actions _ _ h.error_mem
      error_cls := e2.trans h.error_cls
      error_loop := ⟨e1.trans h.error_loop.1, (hext.future _ hec).1.trans h.error_loop.2⟩
      error_f := e3.trans h.error_f
      waiting := hwaiting
      value := hvalue
      error := herror
      relayed := hrelayed }

/-- Relaying goes on when the node's own futures and executions stay. -/
theorem Graph.Relaying.frame {m : Nat} (h : G.Relaying w n m) (hinv : w.Inv)
    (hext : w.Extends w')
    (hx : ∀ a, a.OwnedBy n → ∀ r, (a, r) ∈ w'.executed ↔ (a, r) ∈ w.executed)
    (hres : ∀ a, a.OwnedBy n → (w'.futures a).resolver = (w.futures a).resolver) :
    G.Relaying w' n m := by
  have hu : NodeId.OwnedBy n (.user n) := .inl rfl
  have ht : NodeId.OwnedBy n (.relayThen (.user n)) := .inr (.inl rfl)
  have he : NodeId.OwnedBy n (.relayError (.user n)) := .inr (.inr rfl)
  have hids : ∀ a, a.OwnedBy n → (a ∈ w'.executedIds ↔ a ∈ w.executedIds) := by
    intro a ha
    rw [World.mem_executedIds_iff, World.mem_executedIds_iff]
    exact exists_congr (hx a ha)
  refine h.advance hinv hext ?_ ?_ ?_ ?_
  · intro hw
    rw [hres _ hu]
    exact h.waiting fun hw' => hw ((hids _ ht).2 hw')
  · intro p hp
    rw [hres _ hu, hres _ ht]
    exact h.value p ((hx _ ht _).1 hp)
  · intro e hp
    rw [hres _ hu, hres _ ht, hids _ he]
    exact h.error e ((hx _ ht _).1 hp)
  · intro e hp
    rw [hres _ hu]
    exact h.relayed e ((hx _ he _).1 hp)

/-- A node stays as it is when its own futures, executions and handle stay. -/
theorem Graph.NodeInv.frame (h : G.NodeInv w n) (hinv : w.Inv) (hn : .user n ∈ w.created)
    (hprom : (G.node n).isPromise = true → .user n ∉ w.executedIds) (hext : w.Extends w')
    (hreg : ∀ s, w.Registered (.user s) (.user n) → w'.Registered (.user s) (.user n))
    (hx : ∀ a, a.OwnedBy n → ∀ r, (a, r) ∈ w'.executed ↔ (a, r) ∈ w.executed)
    (hrun : w'.running G.loop = some (.user n) ↔ w.running G.loop = some (.user n))
    (hres : (G.node n).isPromise = false → ∀ a, a.OwnedBy n →
      (w'.futures a).resolver = (w.futures a).resolver)
    (hpend : .user n ∈ w.pending →
      .user n ∈ w'.pending ∧ w'.action (.user n) = w.action (.user n)) :
    G.NodeInv w' n := by
  have hu : NodeId.OwnedBy n (.user n) := .inl rfl
  obtain ⟨a1, a2, a3⟩ := hext.action _ hn
  have hnp : ∀ r, (.user n, r) ∈ w.executed → (G.node n).isPromise = false := by
    intro r hr
    rw [← Bool.not_eq_true]
    exact fun hp => hprom hp (World.mem_executedIds hr)
  exact
    { loop := (hext.future _ hn).1.trans h.loop
      isVoid := (hext.future _ hn).2.trans h.isVoid
      action := fun hp => by rw [a1, a2, a3]; exact h.action hp
      source := fun s hs => ⟨hext.created _ (h.source s hs).1, hreg s (h.source s hs).2⟩
      async := fun R f hnode => by
        rcases h.async R f hnode with ⟨hp, hr⟩ | hx'
        · rw [(hpend hp).2]
          exact .inl ⟨(hpend hp).1, hr⟩
        · exact .inr ((hx _ hu _).2 hx')
      passed := fun r hxr hr => by
        have hx' := (hx _ hu _).1 hxr
        rw [hres (hnp r hx') _ hu]
        exact h.passed r hx' hr
      running := fun r hr hxr => by
        have hx' := (hx _ hu _).1 hxr
        rw [hres (hnp r hx') _ hu]
        exact h.running r (hrun.1 hr) hx'
      ended := fun r c hxr hc hr => by
        have hx' := (hx _ hu _).1 hxr
        have he := h.ended r c hx' hc fun hr' => hr (hrun.2 hr')
        have hres' := hres (hnp r hx')
        cases htaken : (G.node n).taken c with
        | value p =>
          rw [htaken] at he
          exact (hres' _ hu).trans he
        | throws e =>
          rw [htaken] at he
          exact (hres' _ hu).trans he
        | future m =>
          rw [htaken] at he
          exact Graph.Relaying.frame he hinv hext hx hres' }

/-- A node that relays a returned future moves on when its relays do. -/
theorem Graph.NodeInv.relays (h : G.NodeInv w n) (hinv : w.Inv) (hn : .user n ∈ w.created)
    (hext : w.Extends w')
    (hreg : ∀ s, w.Registered (.user s) (.user n) → w'.Registered (.user s) (.user n))
    (hx : ∀ r, (.user n, r) ∈ w'.executed ↔ (.user n, r) ∈ w.executed)
    (hrun : w'.running G.loop ≠ some (.user n)) {r : FutureSharedResolver V}
    {c : CallbackResult V} {m : Nat} (hxr : (.user n, r) ∈ w.executed)
    (hc : (G.node n).result r = some c) (ht : (G.node n).taken c = .future m)
    (hrel : G.Relaying w' n m) : G.NodeInv w' n := by
  obtain ⟨a1, a2, a3⟩ := hext.action _ hn
  have huniq : ∀ r', (.user n, r') ∈ w'.executed → r' = r :=
    fun r' hr' => hinv.executed_unique ((hx r').1 hr') hxr
  exact
    { loop := (hext.future _ hn).1.trans h.loop
      isVoid := (hext.future _ hn).2.trans h.isVoid
      action := fun hp => by rw [a1, a2, a3]; exact h.action hp
      source := fun s hs => ⟨hext.created _ (h.source s hs).1, hreg s (h.source s hs).2⟩
      async := fun R f hnode => by
        rcases h.async R f hnode with ⟨hp, -⟩ | hx'
        · exact absurd (World.mem_executedIds hxr) (hinv.not_executed _ hp)
        · exact .inr ((hx _).2 hx')
      passed := fun r' hr' hres => by
        rw [huniq r' hr', hc] at hres
        cases hres
      running := fun r' hr' => absurd hr' hrun
      ended := fun r' c' hr' hc' _ => by
        rw [huniq r' hr', hc] at hc'
        rw [← Option.some.inj hc', ht]
        exact hrel }

/-- The invariant of a step that builds no node: it remains to see to the nodes, the promises and
the futures whose action was not executed. -/
theorem Graph.Inv.advance {σ' : Nat → Option (FutureSharedResolver V)} (h : G.Inv σ w) (hinv : w'.Inv) (hext : w.Extends w')
    (hcreated : w'.created = w.created) (haborted : w'.aborted = w.aborted)
    (hrun : ∀ l a, w'.running l = some a → l = G.loop ∧ ∃ n, a = .user n)
    (hnode : ∀ n, .user n ∈ w.created → G.NodeInv w' n)
    (hpromise : ∀ n, (G.node n).isPromise = true → .user n ∉ w'.pending ∧
      .user n ∉ w'.executedIds ∧ (∀ f, .user n ∉ (w'.futures f).actions) ∧
      (w'.futures (.user n)).resolver = σ' n)
    (hfresh : ∀ a ∈ w.created, (∀ n, a = .user n → (G.node n).isPromise = false) →
      a ∉ w'.executedIds → (w'.futures a).resolver = none) : G.Inv σ' w' where
  inv := hinv
  aborted := haborted.trans h.aborted
  names a ha := h.names a (hcreated ▸ ha)
  running := hrun
  node n hn := hnode n (hcreated ▸ hn)
  promise := hpromise
  post n hn := by
    obtain ⟨h1, h2, h3⟩ := h.post n (hcreated ▸ hn)
    rw [(hext.action _ (hcreated ▸ hn)).1, (hext.future _ (hcreated ▸ hn)).1]
    exact ⟨h1, h2, h3⟩
  relay n hn := by
    rw [hcreated] at hn
    obtain ⟨r, c, m, hx, hc, ht⟩ := h.relay n hn
    exact ⟨r, c, m, hext.executed _ hx, hc, ht⟩
  fresh a ha := hfresh a (hcreated ▸ ha)

/-! ## Closing -/

/-- Closing a handle keeps the invariant. -/
theorem Graph.Inv.closed (h : G.Inv σ w) {a : NodeId} (ha : a ∈ w.closing) : G.Inv σ (w.closed a) := by
  obtain ⟨⟨r, hxa, -⟩, -⟩ := h.inv.closing a ha
  have hne : ∀ b ∈ w.pending, b ≠ a := fun b hb hba =>
    h.inv.not_executed b hb (hba ▸ World.mem_executedIds hxa)
  have hact : ∀ b, b ≠ a → (w.closed a).action b = w.action b := by
    intro b hb
    simp [World.closed, World.setAction, hb]
  refine h.advance (h.inv.closed ha) (.closed w a) rfl rfl h.running ?_ h.promise h.fresh
  intro n hn
  refine (h.node n hn).frame h.inv hn (fun hp => (h.promise n hp).2.1) (.closed w a) ?_
    (fun _ _ _ => Iff.rfl) Iff.rfl (fun _ _ _ => rfl) fun hp => ⟨hp, hact _ (hne _ hp)⟩
  intro s hs
  rcases hs with hs | ⟨hp, l, hact'⟩
  · exact .inl hs
  · exact .inr ⟨hp, l, (hact _ (hne _ hp)).trans hact'⟩

/-! ## Settling a promise -/

/-- A step that makes calls keeps the nodes whose own futures it leaves alone. -/
theorem Graph.Inv.called_node (h : G.Inv σ w) {s : World V} (hc : w.Called s) (hn : .user n ∈ w.created)
    (hres : (G.node n).isPromise = false → ∀ a, a.OwnedBy n →
      (s.futures a).resolver = (w.futures a).resolver) : G.NodeInv s n := by
  refine (h.node n hn).frame h.inv hn (fun hp => (h.promise n hp).2.1) hc.extend
    (fun _ hr => hc.registered hr) (fun a _ r => by rw [hc.executed]) (by rw [hc.running]) hres ?_
  exact fun hp => ⟨hc.pending _ hp, hc.action _ (.inl hp)⟩

/-- Settling a pending promise keeps the invariant. -/
theorem Graph.Inv.settled (h : G.Inv σ w) {p : Nat} (hp : (G.node p).isPromise = true)
    (hpc : .user p ∈ w.created) (hr : (w.futures (.user p)).resolver = none)
    (r : FutureSharedResolver V) :
    G.Inv (Function.update σ p (some r)) (w.settled (.user p) r) := by
  have hc := h.inv.called_settled hpc hr r
  have hne : ∀ n, (G.node n).isPromise = false → ∀ a : NodeId, a.OwnedBy n → a ≠ .user p := by
    rintro n hn a (rfl | rfl | rfl) hap
    · injection hap with hap
      rw [hap, hp] at hn
      cases hn
    · cases hap
    · cases hap
  refine h.advance hc.inv hc.extend rfl rfl h.running ?_ ?_ ?_
  · intro n hn
    refine h.called_node hc hn fun hnp a ha => ?_
    rw [World.settled_resolver, if_neg (hne n hnp a ha)]
  · intro n hn
    obtain ⟨h1, h2, h3, h4⟩ := h.promise n hn
    refine ⟨fun hmem => ?_, h2, fun f hmem => ?_, ?_⟩
    · rcases List.mem_append.1 hmem with hmem | hmem
      · exact h1 hmem
      · exact h3 _ hmem
    · exact h3 f (by rwa [World.settled_actions] at hmem)
    · by_cases hnp : n = p
      · subst hnp; simp
      · simp [hnp, h4]
  · intro a ha hau hax
    rw [World.settled_resolver, if_neg]
    · exact h.fresh a ha hau hax
    · rintro rfl
      rw [hau p rfl] at hp
      cases hp

/-- How the promises are settled after an attempt to settle promise `p` on thread `t`: the first
settlement on the loop thread stands. -/
def Graph.settleWith (G : Graph V) (σ : Nat → Option (FutureSharedResolver V)) (t : Thread) (p : Nat)
    (r : FutureSharedResolver V) : Nat → Option (FutureSharedResolver V) :=
  if t G.loop then Function.update σ p (some ((σ p).getD r)) else σ

/-- Settling a promise, or failing to, keeps the invariant. -/
theorem Graph.Inv.settle (huv : uv.Ok) (h : G.Inv σ w) {p : Nat}
    (hp : (G.node p).isPromise = true) (hpc : .user p ∈ w.created) (t : Thread)
    (r : FutureSharedResolver V) :
    G.Inv (G.settleWith σ t p r) (w.call (FutureShared.settle uv t (.user p) r)) := by
  have hloop := (h.node p hpc).loop
  have hσ := (h.promise p hp).2.2.2
  unfold World.call Graph.settleWith
  cases ht : t G.loop with
  | false =>
    rw [FutureShared.settle_run_thread (hloop ▸ ht)]
    exact h
  | true =>
    rw [← hσ]
    cases hr : (w.futures (.user p)).resolver with
    | none =>
      rw [FutureShared.settle_run huv (hloop ▸ ht) hr (h.inv.actions_nodup _)
        fun a ha => h.inv.actions_idle ha hr]
      exact h.settled hp hpc hr r
    | some r' =>
      rw [FutureShared.settle_run_again (hloop ▸ ht) (by simp [hr])]
      have hupd : Function.update σ p (some r') = σ := by
        rw [← hr, hσ, Function.update_eq_self]
      simpa [hupd] using h

/-! ## Building a node -/

/-- A node that was just built: its action was not executed yet. -/
theorem Graph.NodeInv.built {s : World V} (hinv : w.Inv) (hc : w.Called s)
    (hn : .user n ∉ w.created) (hloop : (s.futures (.user n)).loop = G.loop)
    (hvoid : (s.futures (.user n)).isVoid = (G.node n).isVoid)
    (hact : (G.node n).isPromise = false → (s.action (.user n)).loop = G.loop ∧
      (s.action (.user n)).cls = G.cls (G.node n) ∧ (s.action (.user n)).f = .user)
    (hsrc : ∀ m, (G.node n).src = some m → .user m ∈ s.created ∧ s.Registered (.user m) (.user n))
    (hasync : ∀ R f, G.node n = .async R f →
      .user n ∈ s.pending ∧ (s.action (.user n)).resolver = some (.value none)) :
    G.NodeInv s n := by
  have hx : ∀ r, (.user n, r) ∉ s.executed := by
    intro r hr
    rw [hc.executed] at hr
    exact (hinv.fresh hn).2.1 (World.mem_executedIds hr)
  exact
    { loop := hloop
      isVoid := hvoid
      action := hact
      source := hsrc
      async := fun R f hnode => .inl (hasync R f hnode)
      passed := fun r hr => absurd hr (hx r)
      running := fun r _ hr => absurd hr (hx r)
      ended := fun r c hr => absurd hr (hx r) }

/-- A step that builds node `n` keeps the invariant when the new node is in order. -/
theorem Graph.Inv.built (h : G.Inv σ w) {s : World V} (hc : w.Called s) (hn : .user n ∉ w.created)
    (hcreated : ∀ a ∈ s.created, a ∈ w.created ∨ a = .user n ∨ a = .post (.user n) ∧
      (G.node n).src ≠ none ∧ (s.action a).loop = G.loop ∧ (s.futures a).loop = G.loop)
    (hres : ∀ f, (s.futures f).resolver = (w.futures f).resolver)
    (hpend : ∀ a ∈ s.pending, a ∈ w.pending ∨ a = .post (.user n) ∨
      a = .user n ∧ (G.node n).isPromise = false)
    (hacts : ∀ f, ∀ a ∈ (s.futures f).actions, a ∈ (w.futures f).actions ∨
      a = .user n ∧ (G.node n).isPromise = false)
    (hnode : G.NodeInv s n) : G.Inv σ s where
  inv := hc.inv
  aborted := hc.aborted.trans h.aborted
  names a ha := by
    rcases hcreated a ha with ha | rfl | ⟨rfl, -⟩
    · exact h.names a ha
    · exact ⟨n, .inl (.inl rfl)⟩
    · exact ⟨n, .inr rfl⟩
  running l a hl := h.running l a (hc.running ▸ hl)
  node m hm := by
    rcases hcreated _ hm with hm | hm | ⟨hm, -⟩
    · exact h.called_node hc hm fun _ a _ => hres a
    · injection hm with hm
      exact hm ▸ hnode
    · cases hm
  promise m hm := by
    obtain ⟨h1, h2, h3, h4⟩ := h.promise m hm
    have hmn : ∀ {a : NodeId}, a = .user n ∧ (G.node n).isPromise = false → a ≠ .user m := by
      rintro a ⟨rfl, hnp⟩ ham
      injection ham with ham
      rw [← ham, hnp] at hm
      cases hm
    refine ⟨fun hp => ?_, ?_, fun f hf => ?_, (hres _).trans h4⟩
    · rcases hpend _ hp with hp | hp | hp
      · exact h1 hp
      · cases hp
      · exact hmn hp rfl
    · rw [World.executedIds, hc.executed]
      exact h2
    · exact (hacts f _ hf).elim (h3 f) fun hf => hmn hf rfl
  post m hm := by
    rcases hcreated _ hm with hm | hm | ⟨hm, hs⟩
    · obtain ⟨h1, h2, h3⟩ := h.post m hm
      rw [(hc.extend.action _ hm).1, (hc.extend.future _ hm).1]
      exact ⟨h1, h2, h3⟩
    · cases hm
    · injection hm with hm
      injection hm with hm
      subst hm
      exact hs
  relay m hm := by
    have hold : .relayThen (.user m) ∈ w.created ∨ .relayError (.user m) ∈ w.created := by
      rcases hm with hm | hm
      · rcases hcreated _ hm with hm | hm | ⟨hm, -⟩
        · exact .inl hm
        · cases hm
        · cases hm
      · rcases hcreated _ hm with hm | hm | ⟨hm, -⟩
        · exact .inr hm
        · cases hm
        · cases hm
    obtain ⟨r, c, k, hx, hcb, ht⟩ := h.relay m hold
    exact ⟨r, c, k, hc.executed ▸ hx, hcb, ht⟩
  fresh a ha hau hax := by
    rw [hres]
    by_cases haw : a ∈ w.created
    · refine h.fresh a haw hau ?_
      rwa [World.executedIds, hc.executed] at hax
    · exact (h.inv.created_future a haw).1

/-- Registering a new node on a built one keeps the invariant. -/
theorem Graph.Inv.registered (h : G.Inv σ w) {m : Nat} (hm : .user m ∈ w.created)
    (hn : .user n ∉ w.created) (hsrc : (G.node n).src = some m) (t : Thread) :
    G.Inv σ (w.registered t (.user m) (.user n) (G.cls (G.node n)) .user) := by
  have hc : w.Called (w.registered t (.user m) (.user n) (G.cls (G.node n)) .user) :=
    h.inv.called_registered hm hn t (G.cls (G.node n)) (by simp) (by simp) (by simp) (by simp)
  have hpost : .post (.user n) ∉ w.created := fun hp => hn (h.inv.created_post _ hp)
  have hnp : (G.node n).isPromise = false := by
    cases hnode : G.node n with
    | promise v => rw [hnode] at hsrc; cases hsrc
    | async R f => rfl
    | thenCb s R f => rfl
    | errorCb s v f => rfl
    | finallyCb s R f => rfl
  have hloop := (h.node m hm).loop
  obtain ⟨a1, a2, a3⟩ := w.registered_action t (.user m) (.user n) (G.cls (G.node n)) .user
  obtain ⟨f1, f2⟩ := w.registered_future t (.user m) (.user n) (G.cls (G.node n)) .user
  refine h.built hc hn ?_ ?_ ?_ ?_ ?_
  · intro a ha
    have ha' := ha
    rw [World.registered_created] at ha'
    split at ha'
    · exact (List.mem_cons.1 ha').elim (fun ha' => .inr (.inl ha')) .inl
    · rcases List.mem_cons.1 ha' with rfl | ha'
      · obtain ⟨p1, p2⟩ := w.registered_post t (.user m) (.user n) _ .user hpost ha
        exact .inr (.inr ⟨rfl, by simp [hsrc], p1.trans hloop, p2.trans hloop⟩)
      · exact (List.mem_cons.1 ha').elim (fun ha' => .inr (.inl ha')) .inl
  · exact w.registered_resolver t _ _ _ _ (h.inv.created_future _ hn).1
      (h.inv.created_future _ hpost).1
  · intro a ha
    rcases w.registered_pending t _ _ _ _ ha with ha | ha | ha
    · exact .inl ha
    · exact .inr (.inr ⟨ha, hnp⟩)
    · exact .inr (.inl ha)
  · intro f a ha
    exact (w.registered_actions t _ _ _ _ ha).imp_right fun ha => ⟨ha, hnp⟩
  · refine Graph.NodeInv.built h.inv hc hn (f1.trans hloop) ?_ ?_ ?_ ?_
    · rw [f2, (h.node m hm).isVoid]
      exact G.cls_isVoid hsrc
    · exact fun _ => ⟨a1.trans hloop, a2, a3⟩
    · intro k hk
      rw [hsrc] at hk
      obtain rfl := Option.some.inj hk
      exact ⟨hc.extend.created _ hm, w.registered_registered hm hn t _ .user⟩
    · intro R f hnode
      rw [hnode] at hsrc
      cases hsrc

/-- Every way of building a node keeps the invariant. -/
theorem Graph.Inv.build (huv : uv.Ok) (h : G.Inv σ w) {t : Thread}
    (hstep : NodeNative.step uv w (G.buildLabel t n) = some w') : G.Inv σ w' := by
  cases hnode : G.node n with
  | promise v =>
    simp only [Graph.buildLabel, hnode] at hstep
    obtain ⟨hn, rfl⟩ := step_promise hstep
    have hc := h.inv.called_createFuture hn G.loop v (by simp) (by simp)
    refine h.built hc hn ?_ ?_ (fun a ha => .inl ha) ?_ ?_
    · intro a ha
      exact (List.mem_cons.1 ha).elim (fun ha => .inr (.inl ha)) .inl
    · intro f
      by_cases hf : f = .user n
      · subst hf; simp [World.createFuture, World.setFuture, (h.inv.created_future _ hn).1]
      · simp [World.createFuture, World.setFuture, hf]
    · intro f a ha
      by_cases hf : f = .user n
      · subst hf; simp [World.createFuture, World.setFuture] at ha
      · exact .inl (by simpa [World.createFuture, World.setFuture, hf] using ha)
    · refine Graph.NodeInv.built h.inv hc hn ?_ ?_ ?_ ?_ ?_
      · simp [World.createFuture, World.setFuture]
      · simp [World.createFuture, World.setFuture, hnode, Node.isVoid]
      · simp [hnode, Node.isPromise]
      · simp [hnode, Node.src]
      · simp [hnode]
  | async R f =>
    simp only [Graph.buildLabel, hnode] at hstep
    obtain ⟨hn, rfl⟩ := step_async huv hstep
    have hc := h.inv.called_asynced hn G.loop R (f := .user) (by simp) (by simp) (by simp) (by simp)
    refine h.built hc hn ?_ ?_ ?_ ?_ ?_
    · intro a ha
      exact (List.mem_cons.1 ha).elim (fun ha => .inr (.inl ha)) .inl
    · intro g
      by_cases hg : g = .user n
      · subst hg; simp [World.asynced, (h.inv.created_future _ hn).1]
      · simp [World.asynced, hg]
    · intro a ha
      simp only [World.asynced, World.deliver_pending, World.createAction_pending, List.mem_append,
        List.mem_singleton] at ha
      exact ha.imp_right fun ha => .inr ⟨ha, by rw [hnode]; rfl⟩
    · intro g a ha
      by_cases hg : g = .user n
      · subst hg; simp [World.asynced] at ha
      · exact .inl (by simpa [World.asynced, hg] using ha)
    · refine Graph.NodeInv.built h.inv hc hn ?_ ?_ ?_ ?_ ?_
      · simp [World.asynced]
      · simp [World.asynced, hnode, Node.isVoid, ActionClass.isVoid]
        cases R <;> rfl
      · simp [World.asynced, hnode, Graph.cls, Action.sent]
      · simp [hnode, Node.src]
      · simp [World.asynced, Action.sent]
  | thenCb m R f =>
    simp only [Graph.buildLabel, hnode] at hstep
    obtain ⟨hm, hn, rfl⟩ := step_thenCb huv hstep
    have hcls : (w.futures (.user m)).thenClass R = G.cls (G.node n) := by
      simp only [hnode, Graph.cls, FutureShared.thenClass, (h.node m hm).isVoid]
    rw [hcls]
    exact h.registered hm hn (by rw [hnode]; rfl) t
  | errorCb m v f =>
    simp only [Graph.buildLabel, hnode] at hstep
    obtain ⟨hm, hn, rfl⟩ := step_errorCb huv hstep
    have hv := G.typed n m v f hnode
    have hcls : (w.futures (.user m)).errorClass = G.cls (G.node n) := by
      simp only [hnode, Graph.cls, FutureShared.errorClass, (h.node m hm).isVoid, hv]
    rw [hcls]
    exact h.registered hm hn (by rw [hnode]; rfl) t
  | finallyCb m R f =>
    simp only [Graph.buildLabel, hnode] at hstep
    obtain ⟨hm, hn, rfl⟩ := step_finallyCb huv hstep
    have hcls : (w.futures (.user m)).finallyClass R = G.cls (G.node n) := by
      simp only [hnode, Graph.cls, FutureShared.finallyClass, (h.node m hm).isVoid]
    rw [hcls]
    exact h.registered hm hn (by rw [hnode]; rfl) t

end

end NodeNative
