import NodeNative.Async.Adoption

/-!
# Loop steps keep the state of every node

Firing a handle executes one action: that of a node, a posting action, or one of the two relays of
a node. Returning ends the callback of one node. In each case one node moves on and `Graph.Inv.fired`
or `Graph.NodeInv.frame` carries the others over.
-/

namespace NodeNative

section
variable {V : Type} {uv : UvAsync} {G : Graph V} {w w' : World V} {n : Nat}
  {σ : Nat → Option (FutureSharedResolver V)}

/-- A name belongs to one node. -/
theorem NodeId.OwnedBy.unique {a : NodeId} {m : Nat} (hn : a.OwnedBy n) (hm : a.OwnedBy m) :
    n = m := by
  rcases hn with rfl | rfl | rfl <;> rcases hm with h | h | h <;> cases h <;> rfl

/-- Owning a name does not make it the node's own future twice. -/
theorem NodeId.OwnedBy.user {m : Nat} (hn : (NodeId.user m).OwnedBy n) : m = n := by
  rcases hn with h | h | h <;> cases h
  rfl

/-- A relay is none of the program's own futures. -/
theorem NodeId.relayThen_ne_user (a : NodeId) (m : Nat) : NodeId.relayThen a ≠ .user m := nofun

/-- A relay is no node of the program, -/
theorem NodeId.relayError_ne_user (a : NodeId) (m : Nat) : NodeId.relayError a ≠ .user m := nofun

/-- and the two relays of a node are two objects. -/
theorem NodeId.relayThen_ne_relayError (a b : NodeId) : NodeId.relayThen a ≠ .relayError b := nofun

/-- What is no future of the program and was not executed is not settled. -/
theorem Graph.Inv.fresh_other (h : G.Inv σ w) {a : NodeId} (ha : a ∈ w.created)
    (hu : ∀ m, a ≠ .user m) (hx : a ∉ w.executedIds) : (w.futures a).resolver = none :=
  h.fresh a ha (fun m hm => absurd hm (hu m)) hx

/-- The owner of a created name is built. -/
theorem Graph.Inv.owner_created (h : G.Inv σ w) {a : NodeId} (ha : a ∈ w.created)
    (hn : a.OwnedBy n) : .user n ∈ w.created := by
  rcases hn with rfl | rfl | rfl
  · exact ha
  · exact h.inv.created_executed _ (h.inv.created_relay _ (.inl ha)).1
  · exact h.inv.created_executed _ (h.inv.created_relay _ (.inr ha)).1

/-- A node that is sent or was executed is not a promise. -/
theorem Graph.Inv.not_promise (h : G.Inv σ w) (hn : .user n ∈ w.pending ∨ .user n ∈ w.executedIds) :
    (G.node n).isPromise = false := by
  rw [← Bool.not_eq_true]
  exact fun hp => hn.elim (h.promise n hp).1 (h.promise n hp).2.1

/-- A node whose action is sent or was executed is registered on its source. -/
theorem Graph.Inv.registered_mem (h : G.Inv σ w) (hn : .user n ∈ w.pending ∨ .user n ∈ w.executedIds)
    {s : Nat} (hsrc : (G.node n).src = some s) :
    .user n ∈ (w.futures (.user s)).actions := by
  have hc : .user n ∈ w.created := hn.elim (h.inv.created_pending _) (h.inv.created_executed _)
  rcases ((h.node n hc).source s hsrc).2 with hmem | ⟨hp, -⟩
  · exact hmem
  · obtain ⟨h1, h2, -⟩ := h.inv.post_pending _ hp
    exact absurd hn (not_or.2 ⟨h1, h2⟩)

/-- The loop of every action is that of the graph. -/
theorem Graph.Inv.pending_loop (h : G.Inv σ w) {a : NodeId} (ha : a ∈ w.pending) :
    (w.action a).loop = G.loop ∧ (w.futures a).loop = G.loop := by
  have hac := h.inv.created_pending a ha
  obtain ⟨n, (rfl | rfl | rfl) | rfl⟩ := h.names a hac
  · exact ⟨((h.node n hac).action (h.not_promise (.inl ha))).1, (h.node n hac).loop⟩
  · obtain ⟨r, c, m, hx, hc, ht⟩ := h.relay n (.inl hac)
    obtain ⟨-, hrun⟩ := h.inv.created_relay _ (.inl hac)
    have he := (h.node n (h.owner_created hac (.inr (.inl rfl)))).ended r c hx hc (hrun _)
    rw [ht] at he
    exact he.then_loop
  · obtain ⟨r, c, m, hx, hc, ht⟩ := h.relay n (.inr hac)
    obtain ⟨-, hrun⟩ := h.inv.created_relay _ (.inr hac)
    have he := (h.node n (h.owner_created hac (.inr (.inr rfl)))).ended r c hx hc (hrun _)
    rw [ht] at he
    exact he.error_loop
  · exact (h.post n hac).2

/-- A node with a created relay relays a future. -/
theorem Graph.Inv.relaying (h : G.Inv σ w)
    (hn : .relayThen (.user n) ∈ w.created ∨ .relayError (.user n) ∈ w.created) :
    ∃ r c m, (.user n, r) ∈ w.executed ∧ (G.node n).result r = some c ∧
      (G.node n).taken c = .future m ∧ G.Relaying w n m ∧ w.running G.loop ≠ some (.user n) := by
  obtain ⟨r, c, m, hx, hc, ht⟩ := h.relay n hn
  obtain ⟨-, hrun⟩ := h.inv.created_relay _ hn
  have hnc := h.inv.created_executed _ (World.mem_executedIds hx)
  have he := (h.node n hnc).ended r c hx hc (hrun _)
  rw [ht] at he
  exact ⟨r, c, m, hx, hc, ht, he, hrun _⟩

/-- A relay that is in flight has not run, and its node is relaying. -/
theorem Graph.Inv.relay_pending (h : G.Inv σ w) {a : NodeId}
    (ha : a = .relayThen (.user n) ∨ a = .relayError (.user n)) (hp : a ∈ w.pending) :
    a ∈ w.created ∧ a ∉ w.executedIds ∧ (w.futures a).resolver = none ∧ .user n ∈ w.created ∧
      ∃ r c m, (.user n, r) ∈ w.executed ∧ (G.node n).result r = some c ∧
        (G.node n).taken c = .future m ∧ G.Relaying w n m ∧ w.running G.loop ≠ some (.user n) := by
  have hac := h.inv.created_pending _ hp
  have hax := h.inv.not_executed _ hp
  have hfresh : (w.futures a).resolver = none := by
    refine h.fresh_other hac (fun m => ?_) hax
    rcases ha with rfl | rfl
    · exact NodeId.relayThen_ne_user _ m
    · exact NodeId.relayError_ne_user _ m
  have hrelay : .relayThen (.user n) ∈ w.created ∨ .relayError (.user n) ∈ w.created := by
    rcases ha with rfl | rfl
    · exact .inl hac
    · exact .inr hac
  obtain ⟨r, c, m, hx, hrest⟩ := h.relaying hrelay
  exact ⟨hac, hax, hfresh, h.inv.created_executed _ (World.mem_executedIds hx), r, c, m, hx, hrest⟩

/-- The class of a node's action hands on exactly the settlements that the node does not call its
callback for. -/
theorem Graph.Inv.passes_iff (h : G.Inv σ w) (hp : .user n ∈ w.pending)
    {r : FutureSharedResolver V} (hr : (w.action (.user n)).resolver = some r) :
    (w.action (.user n)).cls.passes r = ((G.node n).result r).isNone := by
  have hnode := h.node n (h.inv.created_pending _ hp)
  rw [(hnode.action (h.not_promise (.inl hp))).2.1]
  cases hg : G.node n with
  | promise v =>
    have := h.not_promise (.inl hp)
    rw [hg] at this
    cases this
  | async R f =>
    rcases hnode.async R f hg with ⟨-, hr'⟩ | hx
    · obtain rfl := Option.some.inj (hr.symm.trans hr')
      rfl
    · exact absurd (World.mem_executedIds hx) (h.inv.not_executed _ hp)
  | thenCb s R f =>
    simp only [Graph.cls]
    split <;> cases r <;> rfl
  | errorCb s v f => cases v <;> cases r <;> rfl
  | finallyCb s R f =>
    simp only [Graph.cls]
    split <;> cases r <;> rfl

/-! ## Firing -/

/-- An execution that ends in the same step keeps the invariant when its node is in order. -/
theorem Graph.Inv.fired (huv : uv.Ok) (h : G.Inv σ w) {a : NodeId} {r : FutureSharedResolver V}
    (hp : a ∈ w.pending) {u : World V} (hstep : NodeNative.step uv w (.fire a) = some (u.uvClosed a))
    (hc : (w.started a r).Called u) (hcreated : u.created = w.created)
    (hres : ∀ b, b ≠ a → (∀ n, a.OwnedBy n → b ≠ .user n) →
      (u.futures b).resolver = (w.futures b).resolver)
    (hnode : ∀ n, a.OwnedBy n → .user n ∈ w.created → G.NodeInv (u.uvClosed a) n)
    (hpromise : ∀ n, (G.node n).isPromise = true →
      .user n ∉ u.pending ∧ ∀ f, .user n ∉ (u.futures f).actions) : G.Inv σ (u.uvClosed a) := by
  obtain ⟨hinv', hext⟩ := step_inv huv h.inv hstep
  have hexec : u.executed = w.executed ++ [(a, r)] := hc.executed
  have hids : ∀ b, b ∈ (u.uvClosed a).executedIds ↔ b ∈ w.executedIds ∨ b = a := by
    intro b
    simp [World.executedIds, World.uvClosed, hexec]
  have hrunning : u.running = w.running := hc.running
  refine h.advance hinv' hext hcreated hc.aborted ?_ ?_ ?_ ?_
  · intro l b hl
    exact h.running l b (hrunning ▸ hl)
  · intro n hn
    by_cases hown : a.OwnedBy n
    · exact hnode n hown hn
    · have hna : ∀ b : NodeId, b.OwnedBy n → b ≠ a := fun b hb hba => hown (hba ▸ hb)
      refine (h.node n hn).frame h.inv hn (fun hpr => (h.promise n hpr).2.1) hext ?_ ?_ ?_ ?_ ?_
      · exact fun s hs => step_registered huv h.inv hstep hs
      · intro b hb r'
        have : (b, r') ∈ u.executed ↔ (b, r') ∈ w.executed := by
          rw [hexec]
          simp [hna b hb]
        exact this
      · have : u.running G.loop = some (.user n) ↔ w.running G.loop = some (.user n) := by
          rw [hrunning]
        exact this
      · intro _ b hb
        refine hres b (hna b hb) fun k hk hbk => ?_
        subst hbk
        exact hown (hb.user ▸ hk)
      · intro hpn
        have hne : .user n ≠ a := hna _ (.inl rfl)
        have hpn' : .user n ∈ (w.started a r).pending := (List.mem_erase_of_ne hne).2 hpn
        exact ⟨hc.pending _ hpn', hc.action _ (.inl hpn')⟩
  · intro n hpr
    obtain ⟨p1, p2, -, p4⟩ := h.promise n hpr
    refine ⟨(hpromise n hpr).1, ?_, (hpromise n hpr).2, ?_⟩
    · rw [hids]
      rintro (hx | rfl)
      · exact p2 hx
      · exact p1 hp
    · refine (hres (.user n) ?_ fun k hk hnk => ?_).trans p4
      · rintro rfl
        exact p1 hp
      · obtain rfl : n = k := by injection hnk
        rcases hk with rfl | rfl | rfl
        · exact p1 hp
        · exact p2 (h.inv.created_relay _ (.inl (h.inv.created_pending _ hp))).1
        · exact p2 (h.inv.created_relay _ (.inr (h.inv.created_pending _ hp))).1
  · intro b hb hbu hbx
    rw [hids] at hbx
    obtain ⟨hbw, hba⟩ := not_or.1 hbx
    have hb' : (u.futures b).resolver = (w.futures b).resolver := by
      refine hres b hba fun n hn hbn => ?_
      have hac := h.inv.created_pending a hp
      rcases hn with rfl | rfl | rfl
      · exact hba hbn
      · exact hbw (hbn ▸ (h.inv.created_relay _ (.inl hac)).1)
      · exact hbw (hbn ▸ (h.inv.created_relay _ (.inr hac)).1)
    exact hb'.trans (h.fresh b hb hbu hbw)

/-- The registrations that the promises have no part in stay so when a future is settled. -/
theorem Graph.settled_promise {u : World V} {f : NodeId} {r : FutureSharedResolver V}
    (hu : ∀ n, (G.node n).isPromise = true →
      .user n ∉ u.pending ∧ ∀ g, .user n ∉ (u.futures g).actions)
    (n : Nat) (hn : (G.node n).isPromise = true) :
    .user n ∉ (u.settled f r).pending ∧ ∀ g, .user n ∉ ((u.settled f r).futures g).actions := by
  obtain ⟨h1, h2⟩ := hu n hn
  refine ⟨fun hmem => ?_, fun g => ?_⟩
  · exact (List.mem_append.1 hmem).elim h1 (h2 f)
  · rw [World.settled_actions]
    exact h2 g

/-- After a handle fired the promises still have no part in registrations. -/
theorem Graph.Inv.started_promise (h : G.Inv σ w) (a : NodeId) (r : FutureSharedResolver V) (n : Nat)
    (hn : (G.node n).isPromise = true) : .user n ∉ (w.started a r).pending ∧
      ∀ f, .user n ∉ ((w.started a r).futures f).actions :=
  ⟨fun hmem => (h.promise n hn).1 (List.mem_of_mem_erase hmem), (h.promise n hn).2.2.1⟩

/-- The action of a node fires and hands the settlement of its source on. -/
theorem Graph.Inv.fire_passed (huv : uv.Ok) (h : G.Inv σ w) (hp : .user n ∈ w.pending)
    {r : FutureSharedResolver V} (hs : (w.action (.user n)).Sent r)
    (hres : (G.node n).result r = none)
    (hstep : NodeNative.step uv w (.fire (.user n)) = some w') : G.Inv σ w' := by
  obtain ⟨l1, l2⟩ := h.pending_loop hp
  have hnp := h.not_promise (.inl hp)
  have hnc := h.inv.created_pending _ hp
  have hnx := h.inv.not_executed _ hp
  have hpass := h.passes_iff hp hs.resolver
  rw [hres] at hpass
  have hfresh := h.fresh _ hnc (fun m hm => by injection hm with hm; exact hm ▸ hnp) hnx
  obtain ⟨hinv', hext⟩ := step_inv huv h.inv hstep
  have hreg := fun s => step_registered huv h.inv hstep (f := .user s) (a := .user n)
  obtain rfl := step_fire_passes huv h.inv hs hp hpass (l2.trans l1.symm) hfresh hstep
  have hc := (h.inv.started hp hs.resolver).called_settled hnc hfresh r
  refine h.fired huv hp hstep hc rfl ?_ ?_ ?_
  · intro b hb _
    rw [World.settled_resolver, if_neg hb]
    rfl
  · intro m hm _
    obtain rfl := hm.user
    have hnode := h.node n hnc
    obtain ⟨a1, a2, a3⟩ := hext.action _ hnc
    have hxr : (.user n, r) ∈ (((w.started (.user n) r).settled (.user n) r).uvClosed
        (.user n)).executed := List.mem_append_right _ (.head _)
    have huniq := fun r' hr' => hinv'.executed_unique (r := r') hr' hxr
    exact
      { loop := (hext.future _ hnc).1.trans hnode.loop
        isVoid := (hext.future _ hnc).2.trans hnode.isVoid
        action := fun hp => by rw [a1, a2, a3]; exact hnode.action hp
        source := fun s hs => ⟨hext.created _ (hnode.source s hs).1, hreg s (hnode.source s hs).2⟩
        async := fun R f hg => by
          rw [hg] at hres
          cases hres
        passed := fun r' hr' _ => by
          rw [huniq r' hr']
          exact (World.settled_resolver ..).trans (if_pos rfl)
        running := fun r' hr' _ => by
          have hnone := (step_fire_enabled hstep).2
          rw [l1] at hnone
          rw [show w.running G.loop = some (.user n) from hr'] at hnone
          cases hnone
        ended := fun r' c hr' hc' _ => by
          rw [huniq r' hr', hres] at hc'
          cases hc' }
  · exact Graph.settled_promise (h.started_promise _ r)

/-- The action of a node fires and calls the node's callback. -/
theorem Graph.Inv.fire_called (huv : uv.Ok) (h : G.Inv σ w) (hp : .user n ∈ w.pending)
    {r : FutureSharedResolver V} (hs : (w.action (.user n)).Sent r)
    (hres : (G.node n).result r ≠ none)
    (hstep : NodeNative.step uv w (.fire (.user n)) = some w') : G.Inv σ w' := by
  obtain ⟨l1, l2⟩ := h.pending_loop hp
  have hnp := h.not_promise (.inl hp)
  have hnc := h.inv.created_pending _ hp
  have hnx := h.inv.not_executed _ hp
  have hpass : (w.action (.user n)).cls.passes r = false := by
    rw [h.passes_iff hp hs.resolver, Option.isNone_eq_false_iff]
    exact Option.isSome_iff_ne_none.2 hres
  have hfresh := h.fresh _ hnc (fun m hm => by injection hm with hm; exact hm ▸ hnp) hnx
  have hnone := (step_fire_enabled hstep).2
  rw [l1] at hnone
  obtain ⟨hinv', hext⟩ := step_inv huv h.inv hstep
  have hreg := fun s m => step_registered huv h.inv hstep (f := .user s) (a := .user m)
  obtain rfl := step_fire_user hs hpass ((h.node n hnc).action hnp).2.2 hstep
  have hrun : ((w.started (.user n) r).entered (.user n)).running G.loop = some (.user n) := by
    have hl : ((w.started (.user n) r).action (.user n)).loop = G.loop := l1
    simp [World.entered, hl]
  have hexec : ∀ b r', (b, r') ∈ ((w.started (.user n) r).entered (.user n)).executed ↔
      (b, r') ∈ w.executed ∨ b = .user n ∧ r' = r := by
    intro b r'
    simp [World.entered, World.started]
  refine h.advance hinv' hext rfl rfl ?_ ?_ ?_ ?_
  · intro l b hl
    simp only [World.entered, Function.update_apply] at hl
    split at hl
    · rename_i hll
      exact ⟨hll.trans l1, n, (Option.some.inj hl).symm⟩
    · exact h.running l b hl
  · intro m hm
    by_cases hmn : m = n
    · subst hmn
      have hnode := h.node m hnc
      obtain ⟨a1, a2, a3⟩ := hext.action _ hnc
      have hxr := (hexec (.user m) r).2 (.inr ⟨rfl, rfl⟩)
      have huniq := fun r' hr' => hinv'.executed_unique (r := r') hr' hxr
      exact
        { loop := (hext.future _ hnc).1.trans hnode.loop
          isVoid := (hext.future _ hnc).2.trans hnode.isVoid
          action := fun hp => by rw [a1, a2, a3]; exact hnode.action hp
          source := fun s hs =>
            ⟨hext.created _ (hnode.source s hs).1, hreg s m (hnode.source s hs).2⟩
          async := fun R f hg => by
            rcases hnode.async R f hg with ⟨-, hr⟩ | hx
            · obtain rfl := Option.some.inj (hs.resolver.symm.trans hr)
              exact .inr hxr
            · exact .inr ((hexec _ _).2 (.inl hx))
          passed := fun r' hr' hnone' => absurd (huniq r' hr' ▸ hnone') hres
          running := fun r' _ hr' => ⟨huniq r' hr' ▸ hres, hfresh⟩
          ended := fun r' c _ _ hr' => absurd hrun hr' }
    · refine (h.node m hm).frame h.inv hm (fun hpr => (h.promise m hpr).2.1) hext
        (fun s => hreg s m) ?_ ?_ (fun _ _ _ => rfl) ?_
      · intro b hb r'
        rw [hexec]
        refine ⟨fun hor => hor.elim id fun hbn => ?_, .inl⟩
        exact absurd (hb.unique (.inl hbn.1)) hmn
      · rw [hrun, hnone]
        simp [Ne.symm hmn]
      · intro hpm
        have hne : .user m ≠ NodeId.user n := by simpa using hmn
        exact ⟨(List.mem_erase_of_ne hne).2 hpm, rfl⟩
  · intro m hm
    obtain ⟨h1, h2⟩ := h.started_promise (.user n) r m hm
    refine ⟨h1, ?_, h2, (h.promise m hm).2.2.2⟩
    rw [World.mem_executedIds_iff]
    rintro ⟨r', hr'⟩
    rcases (hexec _ _).1 hr' with hr' | ⟨hmn, -⟩
    · exact (h.promise m hm).2.1 (World.mem_executedIds hr')
    · injection hmn with hmn
      rw [hmn, hnp] at hm
      cases hm
  · intro b hb hbu hbx
    rw [World.mem_executedIds_iff] at hbx
    refine h.fresh b hb hbu fun hbx' => hbx ?_
    obtain ⟨r', hr'⟩ := World.mem_executedIds_iff.1 hbx'
    exact ⟨r', (hexec _ _).2 (.inl hr')⟩

/-- A node that is registered on another is not a promise. -/
theorem Node.src_not_promise {node : Node V} (h : node.src ≠ none) : node.isPromise = false := by
  cases node with
  | promise v => exact absurd rfl h
  | async R f => rfl
  | thenCb s R f => rfl
  | errorCb s v f => rfl
  | finallyCb s R f => rfl

/-- Pushing a node that is not a promise leaves the promises out of registrations. -/
theorem Graph.pushed_promise {u : World V} {f : NodeId} {m : Nat}
    (hm : (G.node m).isPromise = false)
    (hu : ∀ n, (G.node n).isPromise = true →
      .user n ∉ u.pending ∧ ∀ g, .user n ∉ (u.futures g).actions)
    (n : Nat) (hn : (G.node n).isPromise = true) : .user n ∉ (u.pushed f (.user m)).pending ∧
      ∀ g, .user n ∉ ((u.pushed f (.user m)).futures g).actions := by
  obtain ⟨h1, h2⟩ := hu n hn
  have hne : NodeId.user n ≠ .user m := by
    intro h
    injection h with h
    rw [h, hm] at hn
    cases hn
  refine ⟨?_, fun g => ?_⟩
  · rw [World.pushed_pending]
    split <;> simp [h1, hne]
  · rw [World.pushed_futures]
    split <;> simp [h2, hne]

/-- A posting action fires and registers its node. -/
theorem Graph.Inv.fire_post (huv : uv.Ok) (h : G.Inv σ w) (hp : .post (.user n) ∈ w.pending)
    (hstep : NodeNative.step uv w (.fire (.post (.user n))) = some w') : G.Inv σ w' := by
  obtain ⟨l1, l2⟩ := h.pending_loop hp
  have hpc := h.inv.created_pending _ hp
  have hnc := h.inv.created_post _ hpc
  obtain ⟨hsrc', -⟩ := h.post n hpc
  obtain ⟨s, hsrc⟩ := Option.ne_none_iff_exists'.1 hsrc'
  obtain ⟨-, -, hnreg⟩ := h.inv.post_pending _ hp
  obtain ⟨-, l, hact⟩ := ((h.node n hnc).source s hsrc).2.resolve_left (hnreg _)
  obtain ⟨r, hs⟩ := h.inv.sent _ hp
  have hr : r = .value none := by
    have := hs.resolver
    rw [hact] at this
    exact (Option.some.inj this).symm
  subst hr
  have hpass : (w.action (.post (.user n))).cls.passes
      (.value none : FutureSharedResolver V) = false := by rw [hact]; rfl
  have hf : (w.action (.post (.user n))).f = .push (.user s) (.user n) := by rw [hact]; rfl
  have hfresh := h.fresh _ hpc (fun m hm => nomatch hm) (h.inv.not_executed _ hp)
  obtain ⟨-, hsc, -, hne⟩ := h.inv.push _ _ _ hf
  obtain ⟨q1, q2, q3, q4⟩ := h.inv.posted_free hp hf (r := .value none)
  have hpush := (h.inv.started hp hs.resolver).called_pushed hnc hsc q1 q2 q3 hne q4
  have hres : ∀ b, (((w.started (.post (.user n)) (.value none)).pushed (.user s)
      (.user n)).futures b).resolver = (w.futures b).resolver := by
    intro b
    rw [World.pushed_futures]
    split
    · rename_i hb
      subst hb
      rfl
    · rfl
  have hset := hpush.inv.called_settled (hpush.extend.created _ hpc) ((hres _).trans hfresh)
    (.value none)
  obtain rfl := step_fire_push huv h.inv hs hp hpass hf (l2.trans l1.symm) hfresh hstep
  refine h.fired huv hp hstep (hpush.trans hset) (World.pushed_created ..) ?_ ?_ ?_
  · intro b hb _
    rw [World.settled_resolver, if_neg hb, hres]
  · rintro m (hm | hm | hm) <;> cases hm
  · exact Graph.settled_promise
      (Graph.pushed_promise (Node.src_not_promise hsrc') (h.started_promise _ _))

/-- The relay of a returned future that has a value settles the node with it. -/
theorem Graph.Inv.fire_relayThen_value (huv : uv.Ok) (h : G.Inv σ w)
    (hp : .relayThen (.user n) ∈ w.pending) {p : Option V}
    (hs : (w.action (.relayThen (.user n))).Sent (.value p))
    (hstep : NodeNative.step uv w (.fire (.relayThen (.user n))) = some w') : G.Inv σ w' := by
  obtain ⟨l1, l2⟩ := h.pending_loop hp
  obtain ⟨htc, htx, hfresh, hnc, r, c, m, hx, hc, ht, hrel, hrun⟩ := h.relay_pending (.inl rfl) hp
  have hnode := h.node n hnc
  have hpass : (w.action (.relayThen (.user n))).cls.passes (.value p) = false := by
    rcases hrel.then_cls with hcls | hcls <;> rw [hcls] <;> rfl
  have hnone := hrel.waiting htx
  have hne : NodeId.relayThen (.user n) ≠ .user n := NodeId.relayThen_ne_user _ _
  obtain ⟨hinv', hext⟩ := step_inv huv h.inv hstep
  have hreg := fun s => step_registered huv h.inv hstep (f := .user s) (a := .user n)
  have hinv := h.inv.started hp hs.resolver
  have hset1 := hinv.called_settled hnc hnone (.value p)
  obtain rfl := step_fire_relay huv h.inv hs hp hpass hrel.then_f (l2.trans l1.symm) hfresh
    (hnode.loop.trans l1.symm) hnone hne hstep
  have hset2 := hset1.inv.called_settled (f := .relayThen (.user n)) htc
    (by rw [World.settled_resolver, if_neg hne]; exact hfresh) (.value none)
  have hexec : ∀ b r', (b, r') ∈ (((w.started (.relayThen (.user n)) (.value p)).settled (.user n)
      (.value p)).settled (.relayThen (.user n)) (.value none)).executed ↔
      (b, r') ∈ w.executed ∨ b = .relayThen (.user n) ∧ r' = .value p := by
    intro b r'
    simp [World.settled, World.started]
  have hxt := (hexec (.relayThen (.user n)) (.value p)).2 (.inr ⟨rfl, rfl⟩)
  have huniq := fun r' hr' => hinv'.executed_unique (r := r') hr' hxt
  refine h.fired huv hp hstep (hset1.trans hset2) rfl ?_ ?_ ?_
  · intro b hb hbu
    rw [World.settled_resolver, if_neg hb, World.settled_resolver,
      if_neg (hbu n (.inr (.inl rfl)))]
    rfl
  · intro k hk _
    obtain rfl := hk.unique (.inr (.inl rfl))
    refine hnode.relays h.inv hnc hext hreg (fun r' => ?_) hrun hx hc ht ?_
    · exact (hexec _ _).trans (or_iff_left fun hb => NodeId.relayThen_ne_user _ _ hb.1.symm)
    · refine hrel.advance h.inv hext ?_ ?_ ?_ ?_
      · exact fun hw => absurd (World.mem_executedIds hxt) hw
      · intro p' hp'
        obtain rfl : p' = p := by injection huniq _ hp'
        simp [World.uvClosed]
      · intro e he
        cases huniq _ he
      · intro e he
        have he' := ((hexec _ _).1 he).resolve_right fun hb => NodeId.relayThen_ne_relayError _ _ hb.1.symm
        rw [hrel.relayed e he'] at hnone
        cases hnone
  · exact Graph.settled_promise (Graph.settled_promise (h.started_promise _ _))

/-- The relay of a returned future that has an error hands it on to the second relay. -/
theorem Graph.Inv.fire_relayThen_error (huv : uv.Ok) (h : G.Inv σ w)
    (hp : .relayThen (.user n) ∈ w.pending) {e : FutureError}
    (hs : (w.action (.relayThen (.user n))).Sent (.error e))
    (hstep : NodeNative.step uv w (.fire (.relayThen (.user n))) = some w') : G.Inv σ w' := by
  obtain ⟨l1, l2⟩ := h.pending_loop hp
  obtain ⟨htc, htx, hfresh, hnc, r, c, m, hx, hc, ht, hrel, hrun⟩ := h.relay_pending (.inl rfl) hp
  have hpass : (w.action (.relayThen (.user n))).cls.passes
      (.error e : FutureSharedResolver V) = true := by
    rcases hrel.then_cls with hcls | hcls <;> rw [hcls] <;> rfl
  have hnone := hrel.waiting htx
  obtain ⟨hinv', hext⟩ := step_inv huv h.inv hstep
  have hreg := fun s => step_registered huv h.inv hstep (f := .user s) (a := .user n)
  have hset := (h.inv.started hp hs.resolver).called_settled htc hfresh (.error e)
  obtain rfl := step_fire_passes huv h.inv hs hp hpass (l2.trans l1.symm) hfresh hstep
  have hexec : ∀ b r', (b, r') ∈ ((w.started (.relayThen (.user n)) (.error e)).settled
      (.relayThen (.user n)) (.error e)).executed ↔
      (b, r') ∈ w.executed ∨ b = .relayThen (.user n) ∧ r' = .error e := by
    intro b r'
    simp [World.settled, World.started]
  have hxt := (hexec (.relayThen (.user n)) (.error e)).2 (.inr ⟨rfl, rfl⟩)
  have huniq := fun r' hr' => hinv'.executed_unique (r := r') hr' hxt
  have hn : ((((w.started (.relayThen (.user n)) (.error e)).settled (.relayThen (.user n))
      (.error e)).uvClosed (.relayThen (.user n))).futures (.user n)).resolver = none :=
    (World.settled_resolver ..).trans ((if_neg (NodeId.relayThen_ne_user _ _).symm).trans hnone)
  refine h.fired huv hp hstep hset rfl ?_ ?_ (Graph.settled_promise (h.started_promise _ _))
  · intro b hb _
    rw [World.settled_resolver, if_neg hb]
    rfl
  · intro k hk _
    obtain rfl := hk.unique (.inr (.inl rfl))
    refine (h.node k hnc).relays h.inv hnc hext hreg (fun r' => ?_) hrun hx hc ht ?_
    · exact (hexec _ _).trans (or_iff_left fun hb => NodeId.relayThen_ne_user _ _ hb.1.symm)
    · refine hrel.advance h.inv hext (fun _ => hn) ?_ ?_ ?_
      · intro p hp'
        cases huniq _ hp'
      · intro e' he
        obtain rfl : e' = e := by injection huniq _ he
        exact ⟨(World.settled_resolver ..).trans (if_pos rfl), fun _ => hn⟩
      · intro e' he
        have he' := ((hexec _ _).1 he).resolve_right fun hb => NodeId.relayThen_ne_relayError _ _ hb.1.symm
        rw [hrel.relayed e' he'] at hnone
        cases hnone

/-- The second relay is sent once the first was executed: with nothing after a value, with the error
after an error. -/
theorem Graph.Inv.relayError_sent (h : G.Inv σ w) {m : Nat} (hrel : G.Relaying w n m)
    (hp : .relayError (.user n) ∈ w.pending) {r : FutureSharedResolver V}
    (hr : (w.action (.relayError (.user n))).resolver = some r) :
    (∃ p, (.relayThen (.user n), .value p) ∈ w.executed ∧ r = .value none) ∨
      ∃ e, (.relayThen (.user n), .error e) ∈ w.executed ∧ r = .error e := by
  have hnx := h.inv.not_executed _ hp
  have hdel : ∀ r', (w.futures (.relayThen (.user n))).resolver = some r' → r = r' := by
    intro r' hr'
    rcases h.inv.delivered _ _ r' hrel.error_mem hr' with ⟨-, hd⟩ | hx
    · exact Option.some.inj (hr.symm.trans hd)
    · exact absurd (World.mem_executedIds hx) hnx
  have htx : .relayThen (.user n) ∈ w.executedIds := by
    by_cases htx : .relayThen (.user n) ∈ w.executedIds
    · exact htx
    · have hnone := h.fresh_other (h.inv.created_actions _ _ hrel.then_mem)
        (NodeId.relayThen_ne_user _) htx
      exact absurd hp (h.inv.waiting _ _ hrel.error_mem hnone).1
  obtain ⟨r', hr'⟩ := World.mem_executedIds_iff.1 htx
  cases r' with
  | value p => exact .inl ⟨p, hr', hdel _ (hrel.value p hr').2⟩
  | error e => exact .inr ⟨e, hr', hdel _ (hrel.error e hr').1⟩

/-- The second relay after a value does nothing to the node. -/
theorem Graph.Inv.fire_relayError_value (huv : uv.Ok) (h : G.Inv σ w)
    (hp : .relayError (.user n) ∈ w.pending) {p : Option V}
    (hs : (w.action (.relayError (.user n))).Sent (.value p))
    (hstep : NodeNative.step uv w (.fire (.relayError (.user n))) = some w') : G.Inv σ w' := by
  obtain ⟨l1, l2⟩ := h.pending_loop hp
  obtain ⟨htc, htx, hfresh, hnc, r, c, m, hx, hc, ht, hrel, hrun⟩ := h.relay_pending (.inr rfl) hp
  have hpass : (w.action (.relayError (.user n))).cls.passes (.value p) = true := by
    rw [hrel.error_cls]
    rfl
  obtain ⟨hinv', hext⟩ := step_inv huv h.inv hstep
  have hreg := fun s => step_registered huv h.inv hstep (f := .user s) (a := .user n)
  have hset := (h.inv.started hp hs.resolver).called_settled htc hfresh (.value p)
  obtain rfl := step_fire_passes huv h.inv hs hp hpass (l2.trans l1.symm) hfresh hstep
  have hexec : ∀ b r', (b, r') ∈ ((w.started (.relayError (.user n)) (.value p)).settled
      (.relayError (.user n)) (.value p)).executed ↔
      (b, r') ∈ w.executed ∨ b = .relayError (.user n) ∧ r' = .value p := by
    intro b r'
    simp [World.settled, World.started]
  have hxt := (hexec (.relayError (.user n)) (.value p)).2 (.inr ⟨rfl, rfl⟩)
  have huniq := fun r' hr' => hinv'.executed_unique (r := r') hr' hxt
  have hthen : ∀ r', (NodeId.relayThen (.user n), r') ∈ ((w.started (.relayError (.user n))
      (.value p)).settled (.relayError (.user n)) (.value p)).executed ↔
      (.relayThen (.user n), r') ∈ w.executed :=
    fun r' => (hexec _ _).trans (or_iff_left fun hb => NodeId.relayThen_ne_relayError _ _ hb.1)
  have hres : ∀ b, b ≠ .relayError (.user n) →
      ((((w.started (.relayError (.user n)) (.value p)).settled (.relayError (.user n))
        (.value p)).uvClosed (.relayError (.user n))).futures b).resolver =
        (w.futures b).resolver :=
    fun b hb => (World.settled_resolver ..).trans (if_neg hb)
  refine h.fired huv hp hstep hset rfl (fun b hb _ => hres b hb) ?_
    (Graph.settled_promise (h.started_promise _ _))
  intro k hk _
  obtain rfl := hk.unique (.inr (.inr rfl))
  refine (h.node k hnc).relays h.inv hnc hext hreg (fun r' => ?_) hrun hx hc ht ?_
  · exact (hexec _ _).trans (or_iff_left fun hb => NodeId.relayError_ne_user _ _ hb.1.symm)
  · have hn := hres (.user k) (NodeId.relayError_ne_user _ _).symm
    have hrt := hres (.relayThen (.user k)) (NodeId.relayThen_ne_relayError _ _)
    refine hrel.advance h.inv hext ?_ ?_ ?_ ?_
    · intro hw
      refine hn.trans (hrel.waiting fun hw' => hw ?_)
      obtain ⟨r', hr'⟩ := World.mem_executedIds_iff.1 hw'
      exact World.mem_executedIds ((hthen r').2 hr')
    · intro p' hp'
      rw [hn, hrt]
      exact hrel.value p' ((hthen _).1 hp')
    · intro e he
      refine ⟨hrt.trans (hrel.error e ((hthen _).1 he)).1, fun hw => ?_⟩
      exact absurd (World.mem_executedIds hxt) hw
    · intro e he
      cases huniq _ he

/-- The second relay after an error settles the node with it. -/
theorem Graph.Inv.fire_relayError_error (huv : uv.Ok) (h : G.Inv σ w)
    (hp : .relayError (.user n) ∈ w.pending) {e : FutureError}
    (hs : (w.action (.relayError (.user n))).Sent (.error e))
    (hstep : NodeNative.step uv w (.fire (.relayError (.user n))) = some w') : G.Inv σ w' := by
  obtain ⟨l1, l2⟩ := h.pending_loop hp
  obtain ⟨htc, htx, hfresh, hnc, r, c, m, hx, hc, ht, hrel, hrun⟩ := h.relay_pending (.inr rfl) hp
  have hnode := h.node n hnc
  have hpass : (w.action (.relayError (.user n))).cls.passes
      (.error e : FutureSharedResolver V) = false := by
    rw [hrel.error_cls]
    rfl
  have hxe : (.relayThen (.user n), .error e) ∈ w.executed := by
    rcases h.relayError_sent hrel hp hs.resolver with ⟨p, -, hr⟩ | ⟨e', hxe, hr⟩
    · cases hr
    · injection hr with hr
      exact hr ▸ hxe
  have hnone := (hrel.error e hxe).2 htx
  have hne : NodeId.relayError (.user n) ≠ .user n := NodeId.relayError_ne_user _ _
  obtain ⟨hinv', hext⟩ := step_inv huv h.inv hstep
  have hreg := fun s => step_registered huv h.inv hstep (f := .user s) (a := .user n)
  have hset1 := (h.inv.started hp hs.resolver).called_settled hnc hnone (.error e)
  obtain rfl := step_fire_relay huv h.inv hs hp hpass hrel.error_f (l2.trans l1.symm) hfresh
    (hnode.loop.trans l1.symm) hnone hne hstep
  have hset2 := hset1.inv.called_settled (f := .relayError (.user n)) htc
    (by rw [World.settled_resolver, if_neg hne]; exact hfresh) (.value none)
  have hexec : ∀ b r', (b, r') ∈ (((w.started (.relayError (.user n)) (.error e)).settled (.user n)
      (.error e)).settled (.relayError (.user n)) (.value none)).executed ↔
      (b, r') ∈ w.executed ∨ b = .relayError (.user n) ∧ r' = .error e := by
    intro b r'
    simp [World.settled, World.started]
  have hxt := (hexec (.relayError (.user n)) (.error e)).2 (.inr ⟨rfl, rfl⟩)
  have huniq := fun r' hr' => hinv'.executed_unique (r := r') hr' hxt
  have hthen : ∀ r', (NodeId.relayThen (.user n), r') ∈ (((w.started (.relayError (.user n))
      (.error e)).settled (.user n) (.error e)).settled (.relayError (.user n))
      (.value none)).executed ↔ (.relayThen (.user n), r') ∈ w.executed :=
    fun r' => (hexec _ _).trans (or_iff_left fun hb => NodeId.relayThen_ne_relayError _ _ hb.1)
  have huniqt := fun r' hr' => h.inv.executed_unique (r := r') hr' hxe
  refine h.fired huv hp hstep (hset1.trans hset2) rfl ?_ ?_ ?_
  · intro b hb hbu
    rw [World.settled_resolver, if_neg hb, World.settled_resolver,
      if_neg (hbu n (.inr (.inr rfl)))]
    rfl
  · intro k hk _
    obtain rfl := hk.unique (.inr (.inr rfl))
    refine hnode.relays h.inv hnc hext hreg (fun r' => ?_) hrun hx hc ht ?_
    · exact (hexec _ _).trans (or_iff_left fun hb => NodeId.relayError_ne_user _ _ hb.1.symm)
    · refine hrel.advance h.inv hext ?_ ?_ ?_ ?_
      · exact fun hw => absurd (World.mem_executedIds ((hthen _).2 hxe)) hw
      · intro p hp'
        cases huniqt _ ((hthen _).1 hp')
      · intro e' he
        refine ⟨?_, fun hw => absurd (World.mem_executedIds hxt) hw⟩
        have hrt := (hrel.error e' ((hthen _).1 he)).1
        simpa [World.uvClosed, World.started] using hrt
      · intro e' he
        obtain rfl : e' = e := by injection huniq _ he
        simp [World.uvClosed]
  · exact Graph.settled_promise (Graph.settled_promise (h.started_promise _ _))

/-- Every handle that fires keeps the invariant. -/
theorem Graph.Inv.fire (huv : uv.Ok) (h : G.Inv σ w) {a : NodeId}
    (hstep : NodeNative.step uv w (.fire a) = some w') : G.Inv σ w' := by
  have hp := (step_fire_enabled hstep).1
  obtain ⟨r, hs⟩ := h.inv.sent a hp
  obtain ⟨n, (rfl | rfl | rfl) | rfl⟩ := h.names a (h.inv.created_pending a hp)
  · by_cases hres : (G.node n).result r = none
    · exact h.fire_passed huv hp hs hres hstep
    · exact h.fire_called huv hp hs hres hstep
  · cases r with
    | value p => exact h.fire_relayThen_value huv hp hs hstep
    | error e => exact h.fire_relayThen_error huv hp hs hstep
  · cases r with
    | value p => exact h.fire_relayError_value huv hp hs hstep
    | error e => exact h.fire_relayError_error huv hp hs hstep
  · exact h.fire_post huv hp hstep

/-! ## Returning -/

/-- After a return no callback of the program is on a stack. -/
theorem Graph.Inv.left_running (h : G.Inv σ w) (l : LoopId) : (w.left G.loop).running l = none := by
  cases hr : (w.left G.loop).running l with
  | none => rfl
  | some b =>
    obtain ⟨hne, hr'⟩ := World.left_running hr
    exact absurd (h.running l b hr').1 hne

/-- The nodes whose callback did not return stay as they are. -/
theorem Graph.Inv.left_node (h : G.Inv σ w) (hrun : w.running G.loop = some (.user n)) {m : Nat}
    (hm : .user m ∈ w.created) (hmn : m ≠ n) {u : World V} (hc : (w.left G.loop).Called u)
    (hres : (G.node m).isPromise = false → ∀ a, a.OwnedBy m →
      (u.futures a).resolver = (w.futures a).resolver) : G.NodeInv (u.uvClosed (.user n)) m := by
  have hext : w.Extends (w.left G.loop) := { World.Extends.refl w with }
  have hext' : w.Extends (u.uvClosed (.user n)) := { hext.trans hc.extend with }
  have hexec : u.executed = w.executed := hc.executed
  refine (h.node m hm).frame h.inv hm (fun hpr => (h.promise m hpr).2.1) hext' ?_ ?_ ?_ hres ?_
  · intro s hs
    have hs' : (w.left G.loop).Registered (.user s) (.user m) := hs
    exact hc.registered hs'
  · intro a _ r
    change (a, r) ∈ u.executed ↔ _
    rw [hexec]
  · change u.running G.loop = _ ↔ _
    rw [hc.running, h.left_running, hrun]
    simp [Ne.symm hmn]
  · exact fun hp => ⟨hc.pending _ hp, hc.action _ (.inl hp)⟩

/-- The node whose callback returned is in order when it is settled or relays as it should. -/
theorem Graph.Inv.ended_node (h : G.Inv σ w) {r : FutureSharedResolver V} {c : CallbackResult V}
    (hx : (.user n, r) ∈ w.executed) (hc : (G.node n).result r = some c) {u : World V}
    (hcall : (w.left G.loop).Called u)
    (hend : G.Ended (u.uvClosed (.user n)) n ((G.node n).taken c)) :
    G.NodeInv (u.uvClosed (.user n)) n := by
  have hnc := h.inv.created_executed _ (World.mem_executedIds hx)
  have hnode := h.node n hnc
  have hext : w.Extends (w.left G.loop) := { World.Extends.refl w with }
  have hext' : w.Extends (u.uvClosed (.user n)) := { hext.trans hcall.extend with }
  obtain ⟨a1, a2, a3⟩ := hext'.action _ hnc
  have hexec : (u.uvClosed (.user n)).executed = w.executed := hcall.executed
  have huniq : ∀ r', (.user n, r') ∈ (u.uvClosed (.user n)).executed → r' = r := by
    intro r' hr'
    rw [hexec] at hr'
    exact h.inv.executed_unique hr' hx
  exact
    { loop := (hext'.future _ hnc).1.trans hnode.loop
      isVoid := (hext'.future _ hnc).2.trans hnode.isVoid
      action := fun hp => by rw [a1, a2, a3]; exact hnode.action hp
      source := fun s hs => by
        obtain ⟨hsc, hreg⟩ := hnode.source s hs
        have hreg' : (w.left G.loop).Registered (.user s) (.user n) := hreg
        exact ⟨hext'.created _ hsc, hcall.registered hreg'⟩
      async := fun R f hg => by
        rcases hnode.async R f hg with ⟨hp, -⟩ | hx'
        · exact absurd (World.mem_executedIds hx) (h.inv.not_executed _ hp)
        · rw [hexec]
          exact .inr hx'
      passed := fun r' hr' hres => by
        rw [huniq r' hr', hc] at hres
        cases hres
      running := fun r' hr' _ => by
        have hr'' : u.running G.loop = some (.user n) := hr'
        rw [hcall.running, h.left_running] at hr''
        cases hr''
      ended := fun r' c' hr' hc' _ => by
        rw [huniq r' hr', hc] at hc'
        rw [← Option.some.inj hc']
        exact hend }

/-- The settlement that a callback's result gives at once. -/
def CallbackResult.settlement : CallbackResult V → Option (FutureSharedResolver V)
  | .value p => some (.value p)
  | .throws e => some (.error e)
  | .future _ => none

/-- A callback that settles its node's future when it returns keeps the invariant. -/
theorem Graph.Inv.ret_settled (huv : uv.Ok) (h : G.Inv σ w)
    (hrun : w.running G.loop = some (.user n)) {r o : FutureSharedResolver V}
    {c : CallbackResult V} (hx : (.user n, r) ∈ w.executed) (hc : (G.node n).result r = some c)
    (ho : ((G.node n).taken c).settlement = some o) {ret : CallbackReturn V}
    (hstep : NodeNative.step uv w (.ret G.loop ret) =
      some (((w.left G.loop).settled (.user n) o).uvClosed (.user n))) :
    G.Inv σ (((w.left G.loop).settled (.user n) o).uvClosed (.user n)) := by
  have hnc := h.inv.created_executed _ (World.mem_executedIds hx)
  have hnone := ((h.node n hnc).running r hrun hx).2
  have hcall := (h.inv.left G.loop).called_settled (f := .user n) hnc hnone o
  obtain ⟨hinv', hext⟩ := step_inv huv h.inv hstep
  refine h.advance hinv' hext rfl rfl ?_ ?_ ?_ ?_
  · intro l a hl
    have hl' : (w.left G.loop).running l = some a := hl
    rw [h.left_running] at hl'
    cases hl'
  · intro m hm
    by_cases hmn : m = n
    · subst hmn
      refine h.ended_node hx hc hcall ?_
      have hres : ((((w.left G.loop).settled (.user m) o).uvClosed (.user m)).futures
          (.user m)).resolver = some o := (World.settled_resolver ..).trans (if_pos rfl)
      cases ht : (G.node m).taken c with
      | value p =>
        rw [ht] at ho
        exact hres.trans ho.symm
      | throws e =>
        rw [ht] at ho
        exact hres.trans ho.symm
      | future k =>
        rw [ht] at ho
        cases ho
    · refine h.left_node hrun hm hmn hcall fun _ a ha => ?_
      rw [World.settled_resolver, if_neg]
      · rfl
      · rintro rfl
        exact hmn ha.user.symm
  · intro m hm
    obtain ⟨h1, h2⟩ := Graph.settled_promise (u := w.left G.loop) (f := .user n) (r := o)
      (fun k hk => ⟨(h.promise k hk).1, (h.promise k hk).2.2.1⟩) m hm
    refine ⟨h1, (h.promise m hm).2.1, h2, (World.settled_resolver ..).trans ?_⟩
    rw [if_neg]
    · exact (h.promise m hm).2.2.2
    · intro hmn
      injection hmn with hmn
      exact (h.promise m hm).2.1 (hmn ▸ World.mem_executedIds hx)
  · intro a ha hau hax
    refine (World.settled_resolver ..).trans ?_
    rw [if_neg]
    · exact h.fresh a ha hau hax
    · rintro rfl
      exact hax (World.mem_executedIds hx)

/-- A callback that returns a future of the graph keeps the invariant. -/
theorem Graph.Inv.ret_relayed (huv : uv.Ok) (h : G.Inv σ w)
    (hrun : w.running G.loop = some (.user n)) {r : FutureSharedResolver V} {m : Nat}
    {c : CallbackResult V} (hx : (.user n, r) ∈ w.executed) (hc : (G.node n).result r = some c)
    (ht : (G.node n).taken c = .future m) (hm : .user m ∈ w.created) {ret : CallbackReturn V}
    (hstep : NodeNative.step uv w (.ret G.loop ret) =
      some (((w.left G.loop).relayed (Thread.ofLoop G.loop) (.user m) (.user n)).uvClosed
        (.user n))) :
    G.Inv σ (((w.left G.loop).relayed (Thread.ofLoop G.loop) (.user m) (.user n)).uvClosed
      (.user n)) := by
  have hnc := h.inv.created_executed _ (World.mem_executedIds hx)
  have hxn := World.mem_executedIds hx
  have hnone := ((h.node n hnc).running r hrun hx).2
  have hthen : .relayThen (.user n) ∉ w.created :=
    fun hn => (h.inv.created_relay _ (.inl hn)).2 _ hrun
  have herror : .relayError (.user n) ∉ w.created :=
    fun hn => (h.inv.created_relay _ (.inr hn)).2 _ hrun
  have hloop : ((w.left G.loop).futures (.user m)).loop = G.loop := (h.node m hm).loop
  obtain ⟨hcall1, hcall2⟩ := (h.inv.left G.loop).called_relayed (Thread.ofLoop G.loop) hm hxn
    (h.inv.left_not_running hrun) hthen herror
  have hcall := hcall1.trans hcall2
  obtain ⟨hinv', hext⟩ := step_inv huv h.inv hstep
  have ht' : Thread.ofLoop G.loop ((w.left G.loop).futures (.user m)).loop = true := by
    simp [hloop]
  have hmem := World.relayedThen_mem _ (.user n) ht' (fun hg => nomatch hg)
  have htc := hcall1.inv.created_actions _ _ hmem
  obtain ⟨t1, t2, t3⟩ := hcall2.extend.action _ htc
  have tf := hcall2.extend.future _ htc
  obtain ⟨-, c2, c3⟩ := (w.left G.loop).registered_action (Thread.ofLoop G.loop) (.user m)
    (.relayThen (.user n)) (((w.left G.loop).futures (.user m)).thenClass .void)
    (.relay (.user n))
  obtain ⟨-, e2, e3⟩ := ((w.left G.loop).relayedThen (Thread.ofLoop G.loop) (.user m)
    (.user n)).registered_action (Thread.ofLoop G.loop) (.relayThen (.user n))
    (.relayError (.user n)) .actionCallbackError (.relay (.user n))
  obtain ⟨l1, l2, l3⟩ := (w.left G.loop).relayed_loop (.user n) (Thread.ofLoop G.loop) (.user m)
  rw [hloop] at l1 l2 l3
  have hcreated := (w.left G.loop).relayed_created (.user n) ht'
  have hexec : ((w.left G.loop).relayed (Thread.ofLoop G.loop) (.user m) (.user n)).executed =
      w.executed := hcall.executed
  have hres := (w.left G.loop).relayed_resolver (.user n) (Thread.ofLoop G.loop) (.user m)
    (by
      intro b hb
      refine (h.inv.created_future b fun hbc => ?_).1
      rcases hb with rfl | rfl | rfl | rfl
      · exact hthen hbc
      · exact herror hbc
      · exact hthen (h.inv.created_post _ hbc)
      · exact herror (h.inv.created_post _ hbc))
  have hnx : ∀ b, b = .relayThen (.user n) ∨ b = .relayError (.user n) → ∀ r',
      (b, r') ∉ w.executed := by
    rintro b (rfl | rfl) r' hr'
    · exact hthen (h.inv.created_executed _ (World.mem_executedIds hr'))
    · exact herror (h.inv.created_executed _ (World.mem_executedIds hr'))
  have hn : (((w.left G.loop).relayed (Thread.ofLoop G.loop) (.user m)
      (.user n)).futures (.user n)).resolver = none := (hres _).trans hnone
  have hrel : G.Relaying (((w.left G.loop).relayed (Thread.ofLoop G.loop) (.user m)
      (.user n)).uvClosed (.user n)) n m :=
    { created := hext.created _ hm
      then_mem := hcall2.extend.actions _ _ hmem
      then_cls := by
        have hcls := t2.trans c2
        unfold FutureShared.thenClass at hcls
        split at hcls
        · exact .inl hcls
        · exact .inr hcls
      then_loop := ⟨t1.trans l1, tf.1.trans ((World.relayedThen_future ..).1.trans hloop)⟩
      then_f := t3.trans c3
      error_mem := World.relayed_mem _ (.user n) ht'
      error_cls := e2
      error_loop := ⟨l2, l3⟩
      error_f := e3
      waiting := fun _ => hn
      value := fun p hp => absurd (hexec ▸ hp) (hnx _ (.inl rfl) _)
      error := fun e he => absurd (hexec ▸ he) (hnx _ (.inl rfl) _)
      relayed := fun e he => absurd (hexec ▸ he) (hnx _ (.inr rfl) _) }
  have hold : ∀ b ∈ (((w.left G.loop).relayed (Thread.ofLoop G.loop) (.user m)
      (.user n)).uvClosed (.user n)).created, b ∈ w.created ∨ b = .relayThen (.user n) ∨
        b = .relayError (.user n) := by
    intro b hb
    have hb' : b ∈ NodeId.relayError (.user n) :: .relayThen (.user n) :: w.created :=
      hcreated ▸ hb
    simp only [List.mem_cons] at hb'
    rcases hb' with hb' | hb' | hb'
    · exact .inr (.inr hb')
    · exact .inr (.inl hb')
    · exact .inl hb'
  exact
    { inv := hinv'
      aborted := hcall.aborted.trans h.aborted
      names := fun b hb => by
        rcases hold b hb with hb | rfl | rfl
        · exact h.names b hb
        · exact ⟨n, .inl (.inr (.inl rfl))⟩
        · exact ⟨n, .inl (.inr (.inr rfl))⟩
      running := fun l b hl => by
        have hl' := (congrFun hcall.running l).symm.trans hl
        rw [h.left_running] at hl'
        cases hl'
      node := fun k hk => by
        rcases hold _ hk with hk | hk | hk
        · by_cases hkn : k = n
          · subst hkn
            refine h.ended_node hx hc hcall ?_
            rw [ht]
            exact hrel
          · exact h.left_node hrun hk hkn hcall fun _ b _ => hres b
        · cases hk
        · cases hk
      promise := fun k hk => by
        obtain ⟨p1, p2, p3, p4⟩ := h.promise k hk
        obtain ⟨q1, q2⟩ := (w.left G.loop).relayed_user (.user n) (Thread.ofLoop G.loop)
          (.user m) p1 p3
        refine ⟨q1, ?_, q2, (hres _).trans p4⟩
        rw [World.mem_executedIds_iff]
        rintro ⟨r', hr'⟩
        exact p2 (World.mem_executedIds (hexec ▸ hr'))
      post := fun k hk => by
        rcases hold _ hk with hk | hk | hk
        · obtain ⟨p1, p2, p3⟩ := h.post k hk
          rw [(hext.action _ hk).1, (hext.future _ hk).1]
          exact ⟨p1, p2, p3⟩
        · cases hk
        · cases hk
      relay := fun k hk => by
        have hk' : (.relayThen (.user k) ∈ w.created ∨ .relayError (.user k) ∈ w.created) ∨
            k = n := by
          rcases hk with hk | hk
          · rcases hold _ hk with hk | hk | hk
            · exact .inl (.inl hk)
            · cases hk
              exact .inr rfl
            · cases hk
          · rcases hold _ hk with hk | hk | hk
            · exact .inl (.inr hk)
            · cases hk
            · cases hk
              exact .inr rfl
        rcases hk' with hk' | rfl
        · obtain ⟨r', c', m', hx', hc', ht''⟩ := h.relay k hk'
          exact ⟨r', c', m', hext.executed _ hx', hc', ht''⟩
        · exact ⟨r, c, m, hext.executed _ hx, hc, ht⟩
      fresh := fun b hb hbu hbx => by
        have hbx' : b ∉ w.executedIds := by
          intro hb'
          obtain ⟨r', hr'⟩ := World.mem_executedIds_iff.1 hb'
          exact hbx (World.mem_executedIds (hext.executed _ hr'))
        refine (hres b).trans ?_
        by_cases hbw : b ∈ w.created
        · exact h.fresh b hbw hbu hbx'
        · exact (h.inv.created_future b hbw).1 }

/-- The result has the type `R` of the callback. -/
def CallbackResult.Fits (w : World V) (R : RetType) : CallbackResult V → Prop
  | .throws _ => True
  | .value p => R = .value ∨ R = .void ∧ p = none
  | .future m => .user m ∈ w.created ∧ (R = .futureValue ∨ R = .futureVoid)

/-- Only the callback of `error` on a `Future<void>` may return what it likes. -/
theorem ActionClass.accepts_fits {cls : ActionClass} (hne : cls ≠ .actionCallbackError)
    {c : CallbackResult V} (hacc : cls.accepts w c.toReturn = true) : c.Fits w cls.ret := by
  cases c with
  | throws e => trivial
  | value p =>
    cases cls <;> simp_all [CallbackResult.toReturn, ActionClass.accepts, CallbackResult.Fits] <;>
      tauto
  | future m =>
    cases cls <;> simp_all [CallbackResult.toReturn, ActionClass.accepts, CallbackResult.Fits] <;>
      tauto

/-- Only `error` on a `Future<void>` takes a result for something else. -/
theorem Graph.taken_eq (G : Graph V) {node : Node V} (hne : G.cls node ≠ .actionCallbackError)
    (c : CallbackResult V) : node.taken c = c := by
  cases node with
  | errorCb s v f =>
    cases v
    · cases c <;> rfl
    · exact absurd rfl hne
  | promise v => rfl
  | async R f => rfl
  | thenCb s R f => rfl
  | finallyCb s R f => rfl

/-- The callback on the stack returns as its node says. -/
theorem Graph.Inv.ret (huv : uv.Ok) (h : G.Inv σ w) {lab : Label V} (hlab : G.retLabel w = some lab)
    (hstep : NodeNative.step uv w lab = some w') : G.Inv σ w' := by
  unfold Graph.retLabel at hlab
  split at hlab
  · rename_i n hrun
    obtain ⟨r, hr, hlab⟩ := Option.bind_eq_some_iff.1 hlab
    obtain ⟨c, hc, rfl⟩ := Option.map_eq_some_iff.1 hlab
    obtain ⟨-, r', hx, hs⟩ := h.inv.running _ _ hrun
    obtain rfl := Option.some.inj (hr.symm.trans hs.resolver)
    have hnc := h.inv.created_executed _ (World.mem_executedIds hx)
    have hnode := h.node n hnc
    have hloop := hnode.loop
    have hnone := (hnode.running r hrun hx).2
    have hcls := (hnode.action (h.not_promise (.inr (World.mem_executedIds hx)))).2.1
    obtain ⟨hacc, -⟩ := step_ret_callback h.inv hrun hstep
    have hthrows : ∀ e, c = .throws e → G.Inv σ w' := by
      rintro e rfl
      obtain rfl := step_ret_throws huv h.inv hrun hloop hnone hstep
      refine h.ret_settled huv hrun hx hc ?_ hstep
      cases G.node n <;> rfl
    by_cases hne : G.cls (G.node n) = .actionCallbackError
    · have hret : (w.action (.user n)).cls.ret = .void := by rw [hcls, hne]; rfl
      have htaken : ∀ c', (∀ e, c' ≠ .throws e) → (G.node n).taken c' = .value none := by
        intro c' hc'
        cases hg : G.node n with
        | errorCb s v f =>
          rw [hg] at hne
          cases v
          · cases hne
          · cases c' with
            | throws e => exact absurd rfl (hc' e)
            | value p => rfl
            | future m => rfl
        | promise v => rw [hg] at hne; cases hne
        | async R f => rw [hg] at hne; cases hne
        | thenCb s R f =>
          rw [hg] at hne
          simp only [Graph.cls] at hne
          split at hne <;> cases hne
        | finallyCb s R f =>
          rw [hg] at hne
          simp only [Graph.cls] at hne
          split at hne <;> cases hne
      cases hcc : c with
      | throws e => exact hthrows e hcc
      | value p =>
        subst hcc
        obtain rfl := step_ret_void huv h.inv hrun hret (fun s => ⟨p, rfl⟩) hloop hnone hstep
        exact h.ret_settled huv hrun hx hc (by rw [htaken _ (by simp)]; rfl) hstep
      | future m =>
        subst hcc
        obtain rfl := step_ret_void huv h.inv hrun hret (fun s => ⟨none, rfl⟩) hloop hnone hstep
        exact h.ret_settled huv hrun hx hc (by rw [htaken _ (by simp)]; rfl) hstep
    · have hfits := ActionClass.accepts_fits (hcls ▸ hne) hacc
      have htaken := G.taken_eq hne c
      cases hcc : c with
      | throws e => exact hthrows e hcc
      | value p =>
        subst hcc
        rcases hfits with hret | ⟨hret, rfl⟩
        · obtain rfl := step_ret_value huv h.inv hrun hret hloop hnone hstep
          exact h.ret_settled huv hrun hx hc (by rw [htaken]; rfl) hstep
        · obtain rfl := step_ret_void huv h.inv hrun hret (fun s => ⟨none, rfl⟩) hloop hnone hstep
          exact h.ret_settled huv hrun hx hc (by rw [htaken]; rfl) hstep
      | future m =>
        subst hcc
        obtain ⟨hmc, hret⟩ := hfits
        obtain ⟨-, rfl⟩ := step_ret_future huv h.inv hrun hret hstep
        exact h.ret_relayed huv hrun hx hc htaken hmc hstep
  · cases hlab

end

end NodeNative
