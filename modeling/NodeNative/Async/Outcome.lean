import NodeNative.Async.GraphSteps

/-!
# Outcomes are the denotation

In every run of a graph a node is settled only with an outcome that `Denotes` gives it
(`Graph.Sound`): what settles it was delivered from futures that were settled before. In a
quiescent state the converse holds, by induction on the denotation: nothing that could settle a
node is left to do. The denotation is the one in which a future that an `error` callback returns on
a `Future<void>` is dropped; with the other one the second direction fails.
-/

namespace NodeNative

section
variable {V : Type} {uv : UvAsync} {G : Graph V} {w w' : World V} {n : Nat}
  {σ : Nat → Option (FutureSharedResolver V)}

/-! ## Soundness -/

/-- Every settled node of the program has its denotation. -/
def Graph.Sound (G : Graph V) (σ : Nat → Option (FutureSharedResolver V)) (w : World V) : Prop :=
  ∀ n, .user n ∈ w.created → ∀ o, (w.futures (.user n)).resolver = some o →
    Denotes G false σ n o

/-- A node that hands on the settlement of its source. -/
theorem Denotes.passed {s : Nat} {r : FutureSharedResolver V} (hsrc : (G.node n).src = some s)
    (hs : Denotes G false σ s r) (hr : (G.node n).result r = none) : Denotes G false σ n r := by
  cases hg : G.node n with
  | promise v => rw [hg] at hsrc; cases hsrc
  | async R f => rw [hg] at hsrc; cases hsrc
  | thenCb m R f =>
    rw [hg] at hsrc hr
    obtain rfl := Option.some.inj hsrc
    cases r with
    | value p => cases hr
    | error e => exact .thenError hg hs
  | errorCb m v f =>
    rw [hg] at hsrc hr
    obtain rfl := Option.some.inj hsrc
    cases r with
    | value p => exact .errorValue hg hs
    | error e => cases hr
  | finallyCb m R f =>
    rw [hg] at hr
    cases hr

/-- A node that calls its callback. -/
theorem Denotes.called {s : Nat} {r o : FutureSharedResolver V} {c : CallbackResult V}
    (hsrc : (G.node n).src = some s) (hs : Denotes G false σ s r)
    (hr : (G.node n).result r = some c) (ho : Outcome G false σ ((G.node n).taken c) o) :
    Denotes G false σ n o := by
  cases hg : G.node n with
  | promise v => rw [hg] at hsrc; cases hsrc
  | async R f => rw [hg] at hsrc; cases hsrc
  | thenCb m R f =>
    rw [hg] at hsrc hr ho
    obtain rfl := Option.some.inj hsrc
    cases r with
    | value p =>
      obtain rfl := Option.some.inj hr
      exact .thenValue hg hs ho
    | error e => cases hr
  | errorCb m v f =>
    rw [hg] at hsrc hr ho
    obtain rfl := Option.some.inj hsrc
    cases r with
    | value p => cases hr
    | error e =>
      obtain rfl := Option.some.inj hr
      exact .errorError hg hs ho
  | finallyCb m R f =>
    rw [hg] at hsrc hr ho
    obtain rfl := Option.some.inj hsrc
    obtain rfl := Option.some.inj hr
    exact .finallyCb hg hs ho

/-- Soundness across a step: `σ` knows the promises settled before and those settled after. -/
theorem Graph.Sound.step (huv : uv.Ok) {σ' : Nat → Option (FutureSharedResolver V)}
    (h : G.Inv σ w) (h' : G.Inv σ' w') (hσ : ∀ n r, σ n = some r → σ' n = some r)
    (hs : G.Sound σ w) {lab : Label V} (hstep : NodeNative.step uv w lab = some w') :
    G.Sound σ' w' := by
  have hext := (step_inv huv h.inv hstep).2
  have hden : ∀ m o, .user m ∈ w.created → (w.futures (.user m)).resolver = some o →
      Denotes G false σ' m o := fun m o hm ho => (hs m hm o ho).mono hσ
  intro n hn o ho
  by_cases hpr : (G.node n).isPromise = true
  · cases hg : G.node n with
    | promise v => exact .promise hg ((h'.promise n hpr).2.2.2.symm.trans ho)
    | async R f => rw [hg] at hpr; cases hpr
    | thenCb m R f => rw [hg] at hpr; cases hpr
    | errorCb m v f => rw [hg] at hpr; cases hpr
    | finallyCb m R f => rw [hg] at hpr; cases hpr
  have hxn : .user n ∈ w'.executedIds := by
    by_cases hxn : .user n ∈ w'.executedIds
    · exact hxn
    · have hnone := h'.fresh _ hn (fun m hm => by
        injection hm with hm
        exact hm ▸ Bool.eq_false_iff.2 hpr) hxn
      rw [hnone] at ho
      cases ho
  obtain ⟨r, hx⟩ := World.mem_executedIds_iff.1 hxn
  have hd : w.Delivered (.user n) r := (step_executed huv h.inv hstep hx).imp_right And.right
  have hnw := h.inv.delivered_created hd
  have hnode' := h'.node n hn
  -- the settlement that the action was executed with
  have hsource : ∀ s, (G.node n).src = some s → Denotes G false σ' s r := by
    intro s hsrc
    have hor : .user n ∈ w.pending ∨ .user n ∈ w.executedIds :=
      hd.elim (fun hx => .inr (World.mem_executedIds hx)) fun hp => .inl hp.1
    have hmem := h.registered_mem hor hsrc
    exact hden s r ((h.node n hnw).source s hsrc).1 (h.inv.delivered_source hd hmem)
  have houtcome : ∀ c, (G.node n).result r = some c → Outcome G false σ' ((G.node n).taken c) o →
      Denotes G false σ' n o := by
    intro c hc hoc
    cases hg : G.node n with
    | promise v => rw [hg] at hpr; exact absurd rfl hpr
    | async R f =>
      rw [hg] at hc hoc
      obtain rfl := Option.some.inj hc
      exact .async hg hoc
    | thenCb m R f => exact .called (by rw [hg]; rfl) (hsource m (by rw [hg]; rfl)) hc hoc
    | errorCb m v f => exact .called (by rw [hg]; rfl) (hsource m (by rw [hg]; rfl)) hc hoc
    | finallyCb m R f => exact .called (by rw [hg]; rfl) (hsource m (by rw [hg]; rfl)) hc hoc
  cases hres : (G.node n).result r with
  | none =>
    have hor : o = r := Option.some.inj (ho.symm.trans (hnode'.passed r hx hres))
    subst hor
    cases hsrc : (G.node n).src with
    | some s => exact .passed hsrc (hsource s hsrc) hres
    | none =>
      cases hg : G.node n with
      | promise v => rw [hg] at hpr; exact absurd rfl hpr
      | async R f => rw [hg] at hres; cases hres
      | thenCb m R f => rw [hg] at hsrc; cases hsrc
      | errorCb m v f => rw [hg] at hsrc; cases hsrc
      | finallyCb m R f => rw [hg] at hsrc; cases hsrc
  | some c =>
    refine houtcome c hres ?_
    by_cases hrun : w'.running G.loop = some (.user n)
    · rw [(hnode'.running r hrun hx).2] at ho
      cases ho
    have hend := hnode'.ended r c hx hres hrun
    cases ht : (G.node n).taken c with
    | value p =>
      rw [ht] at hend
      obtain rfl := Option.some.inj (ho.symm.trans hend)
      exact .value p
    | throws e =>
      rw [ht] at hend
      obtain rfl := Option.some.inj (ho.symm.trans hend)
      exact .throws e
    | future m =>
      rw [ht] at hend
      have hrel : G.Relaying w' n m := hend
      refine .future ?_
      have hxt : .relayThen (.user n) ∈ w'.executedIds := by
        by_cases hxt : .relayThen (.user n) ∈ w'.executedIds
        · exact hxt
        · rw [hrel.waiting hxt] at ho
          cases ho
      obtain ⟨r₁, hx₁⟩ := World.mem_executedIds_iff.1 hxt
      have hd₁ : w.Delivered (.relayThen (.user n)) r₁ :=
        (step_executed huv h.inv hstep hx₁).imp_right And.right
      obtain ⟨r₀, c₀, m₀, hx₀, hc₀, ht₀, hrel₀, -⟩ :=
        h.relaying (.inl (h.inv.delivered_created hd₁))
      have hm : m₀ = m := by
        have hr₀ := h'.inv.executed_unique (hext.executed _ hx₀) hx
        rw [hr₀, hres] at hc₀
        rw [← Option.some.inj hc₀, ht] at ht₀
        injection ht₀ with ht₀
        exact ht₀.symm
      subst hm
      have hm₁ := h.inv.delivered_source hd₁ hrel₀.then_mem
      have hden₁ := hden m₀ r₁ hrel₀.created hm₁
      cases r₁ with
      | value p =>
        obtain rfl := Option.some.inj (ho.symm.trans (hrel.value p hx₁).1)
        exact hden₁
      | error e =>
        obtain ⟨hrt, hne⟩ := hrel.error e hx₁
        have hxe : .relayError (.user n) ∈ w'.executedIds := by
          by_cases hxe : .relayError (.user n) ∈ w'.executedIds
          · exact hxe
          · rw [hne hxe] at ho
            cases ho
        obtain ⟨r₂, hx₂⟩ := World.mem_executedIds_iff.1 hxe
        have hd₂ : w'.Delivered (.relayError (.user n)) r₂ := .inl hx₂
        have hr₂ := h'.inv.delivered_source hd₂ hrel.error_mem
        obtain rfl := Option.some.inj (hrt.symm.trans hr₂)
        obtain rfl := Option.some.inj (ho.symm.trans (hrel.relayed e hx₂))
        exact hden₁

/-! ## Runs -/

/-- What one more event settles. -/
theorem Graph.settlement_snoc (G : Graph V) (evs : List (Graph.Event V)) (ev : Graph.Event V) :
    G.settlement (evs ++ [ev]) = match ev with
      | .settle t p r =>
        if (G.node p).isPromise then G.settleWith (G.settlement evs) t p r else G.settlement evs
      | _ => G.settlement evs := by
  funext n
  unfold Graph.settlement
  rw [List.findSome?_append]
  cases ev with
  | settle t p r =>
    simp only [List.findSome?_cons, List.findSome?_nil, Graph.settleWith]
    by_cases hp : (G.node p).isPromise = true
    · by_cases ht : t G.loop = true
      · by_cases hnp : n = p
        · subst hnp
          simp only [hp, ht, and_self, if_true, Function.update_self]
          cases List.findSome? _ evs <;> rfl
        · simp [hp, ht, Ne.symm hnp, Function.update_of_ne hnp]
      · simp [hp, ht]
    · have hnot : ¬ (p = n ∧ (G.node n).isPromise = true ∧ t G.loop = true) := by
        rintro ⟨rfl, hp', -⟩
        exact hp hp'
      simp [hp, hnot]
  | build t n => simp
  | fire a => simp
  | close a => simp
  | ret => simp

/-- Settlements are not taken back. -/
theorem Graph.settlement_mono (G : Graph V) (evs : List (Graph.Event V)) (ev : Graph.Event V)
    (n : Nat) (r : FutureSharedResolver V) (h : G.settlement evs n = some r) :
    G.settlement (evs ++ [ev]) n = some r := by
  unfold Graph.settlement at h ⊢
  rw [List.findSome?_append, h]
  rfl

/-- The system at the start. -/
theorem Graph.Inv.init (G : Graph V) : G.Inv (fun _ => none) (World.init : World V) where
  inv := .init
  aborted := rfl
  names _ ha := nomatch ha
  running _ _ hl := nomatch hl
  node _ hn := nomatch hn
  promise _ _ := ⟨fun h => (nomatch h), fun h => (nomatch h), fun _ h => (nomatch h), rfl⟩
  post _ hn := nomatch hn
  relay _ hn := hn.elim (fun h => (nomatch h)) fun h => (nomatch h)
  fresh _ ha := nomatch ha

/-- Every event keeps the invariant. -/
theorem Graph.step_inv (huv : uv.Ok) {evs : List (Graph.Event V)} {ev : Graph.Event V}
    (h : G.Inv (G.settlement evs) w) (hstep : G.step uv w ev = some w') :
    G.Inv (G.settlement (evs ++ [ev])) w' := by
  obtain ⟨lab, hlab, hst⟩ := Option.bind_eq_some_iff.1 hstep
  rw [Graph.settlement_snoc]
  cases ev with
  | build t n =>
    obtain rfl := Option.some.inj hlab
    exact h.build huv hst
  | settle t p r =>
    simp only [Graph.label] at hlab
    split at hlab
    · rename_i hp
      obtain rfl := Option.some.inj hlab
      dsimp only
      rw [if_pos hp]
      cases r with
      | value v =>
        obtain ⟨hpc, rfl⟩ := step_resolve hst
        exact h.settle huv hp hpc t (.value v)
      | error e =>
        obtain ⟨hpc, rfl⟩ := step_reject hst
        exact h.settle huv hp hpc t (.error e)
    · cases hlab
  | fire a =>
    obtain rfl := Option.some.inj hlab
    exact h.fire huv hst
  | close a =>
    obtain rfl := Option.some.inj hlab
    obtain ⟨ha, rfl⟩ := step_close h.inv hst
    exact h.closed ha
  | ret => exact h.ret huv hlab hst

/-- Every run keeps the invariant and settles nodes with their denotation. -/
theorem Graph.run_inv (huv : uv.Ok) {evs : List (Graph.Event V)} (hrun : G.run uv evs = some w) :
    G.Inv (G.settlement evs) w ∧ G.Sound (G.settlement evs) w := by
  have hstep : ∀ hs s ev s', G.Inv (G.settlement hs) s ∧ G.Sound (G.settlement hs) s →
      G.step uv s ev = some s' →
      G.Inv (G.settlement (hs ++ [ev])) s' ∧ G.Sound (G.settlement (hs ++ [ev])) s' := by
    rintro hs s ev s' ⟨hinv, hsound⟩ hst
    have hinv' := Graph.step_inv huv hinv hst
    obtain ⟨lab, -, hst'⟩ := Option.bind_eq_some_iff.1 hst
    exact ⟨hinv', hsound.step huv hinv hinv' (G.settlement_mono hs ev) hst'⟩
  have h0 : G.Inv (G.settlement []) (World.init : World V) ∧
      G.Sound (G.settlement []) (World.init : World V) := ⟨.init G, fun _ hn => nomatch hn⟩
  exact Transition.run_history hstep h0 hrun

/-! ## Completeness -/

/-- In a quiescent state every action registered on a settled future was executed with its
settlement. -/
theorem World.Inv.quiescent_executed (h : w.Inv) (hq : w.Quiescent) {f a : NodeId}
    {r : FutureSharedResolver V} (ha : a ∈ (w.futures f).actions)
    (hr : (w.futures f).resolver = some r) : (a, r) ∈ w.executed := by
  refine (h.delivered f a r ha hr).resolve_left fun hp => ?_
  rw [hq.1] at hp
  exact nomatch hp.1

/-- In a quiescent state every node is registered on its source. -/
theorem Graph.Inv.quiescent_registered (h : G.Inv σ w) (hq : w.Quiescent)
    (hn : .user n ∈ w.created) {s : Nat} (hsrc : (G.node n).src = some s) :
    .user s ∈ w.created ∧ .user n ∈ (w.futures (.user s)).actions := by
  obtain ⟨hsc, hreg⟩ := (h.node n hn).source s hsrc
  refine ⟨hsc, hreg.resolve_right fun hp => ?_⟩
  have hp' := hp.1
  rw [hq.1] at hp'
  cases hp'

mutual

/-- In a quiescent state every node is settled with its denotation. -/
theorem Graph.Inv.settled_of_denotes (h : G.Inv σ w) (hq : w.Quiescent) {n : Nat}
    {o : FutureSharedResolver V} : Denotes G false σ n o → .user n ∈ w.created →
      (w.futures (.user n)).resolver = some o
  | .promise hg hσ, hn => by
    rw [(h.promise n (by rw [hg]; rfl)).2.2.2]
    exact hσ
  | .async hg ho, hn => by
    have hx := ((h.node n hn).async _ _ hg).resolve_left fun hp => by
      rw [hq.1] at hp
      exact nomatch hp.1
    exact h.settled_of_outcome hq ho hx (by rw [hg]; rfl) (by rw [hg]; rfl)
  | .thenValue hg hs ho, hn => by
    obtain ⟨hsc, hmem⟩ := h.quiescent_registered hq hn (by rw [hg]; rfl)
    have hx := h.inv.quiescent_executed hq hmem (h.settled_of_denotes hq hs hsc)
    exact h.settled_of_outcome hq ho hx (by rw [hg]; rfl) (by rw [hg]; rfl)
  | .thenError hg hs, hn => by
    obtain ⟨hsc, hmem⟩ := h.quiescent_registered hq hn (by rw [hg]; rfl)
    have hx := h.inv.quiescent_executed hq hmem (h.settled_of_denotes hq hs hsc)
    exact (h.node n hn).passed _ hx (by rw [hg]; rfl)
  | .errorValue hg hs, hn => by
    obtain ⟨hsc, hmem⟩ := h.quiescent_registered hq hn (by rw [hg]; rfl)
    have hx := h.inv.quiescent_executed hq hmem (h.settled_of_denotes hq hs hsc)
    exact (h.node n hn).passed _ hx (by rw [hg]; rfl)
  | .errorError hg hs ho, hn => by
    obtain ⟨hsc, hmem⟩ := h.quiescent_registered hq hn (by rw [hg]; rfl)
    have hx := h.inv.quiescent_executed hq hmem (h.settled_of_denotes hq hs hsc)
    exact h.settled_of_outcome hq ho hx (by rw [hg]; rfl) (by rw [hg]; rfl)
  | .finallyCb hg hs ho, hn => by
    obtain ⟨hsc, hmem⟩ := h.quiescent_registered hq hn (by rw [hg]; rfl)
    have hx := h.inv.quiescent_executed hq hmem (h.settled_of_denotes hq hs hsc)
    exact h.settled_of_outcome hq ho hx (by rw [hg]; rfl) (by rw [hg]; rfl)

/-- In a quiescent state every node whose callback was called is settled with its outcome. -/
theorem Graph.Inv.settled_of_outcome (h : G.Inv σ w) (hq : w.Quiescent) {n : Nat}
    {o r : FutureSharedResolver V} {c c' : CallbackResult V} :
    Outcome G false σ c' o → (.user n, r) ∈ w.executed → (G.node n).result r = some c →
      (G.node n).taken c = c' → (w.futures (.user n)).resolver = some o
  | .value p, hx, hc, ht => by
    have hn := h.inv.created_executed _ (World.mem_executedIds hx)
    have hend := (h.node n hn).ended r c hx hc (by simp [hq.2])
    rw [ht] at hend
    exact hend
  | .throws e, hx, hc, ht => by
    have hn := h.inv.created_executed _ (World.mem_executedIds hx)
    have hend := (h.node n hn).ended r c hx hc (by simp [hq.2])
    rw [ht] at hend
    exact hend
  | .future hm, hx, hc, ht => by
    have hn := h.inv.created_executed _ (World.mem_executedIds hx)
    have hend := (h.node n hn).ended r c hx hc (by simp [hq.2])
    rw [ht] at hend
    have hrel : G.Relaying w n _ := hend
    have hx₁ := h.inv.quiescent_executed hq hrel.then_mem
      (h.settled_of_denotes hq hm hrel.created)
    cases o with
    | value p => exact (hrel.value p hx₁).1
    | error e =>
      have hx₂ := h.inv.quiescent_executed hq hrel.error_mem (hrel.error e hx₁).1
      exact hrel.relayed e hx₂

end

/-! ## The theorem -/

/-- In every quiescent state of every run of a graph, a node is settled with `o` exactly if `o` is
its denotation, and is pending exactly if its denotation is undefined. -/
theorem outcome_denotation (huv : uv.Ok) {evs : List (Graph.Event V)}
    (hrun : G.run uv evs = some w) (hq : w.Quiescent) (hn : .user n ∈ w.created) :
    (∀ o, (w.futures (.user n)).resolver = some o ↔ Denotes G false (G.settlement evs) n o) ∧
      ((w.futures (.user n)).resolver = none ↔ ∀ o, ¬ Denotes G false (G.settlement evs) n o) := by
  obtain ⟨hinv, hsound⟩ := Graph.run_inv huv hrun
  have hiff : ∀ o, (w.futures (.user n)).resolver = some o ↔
      Denotes G false (G.settlement evs) n o :=
    fun o => ⟨hsound n hn o, fun hd => hinv.settled_of_denotes hq hd hn⟩
  refine ⟨hiff, fun hnone o hd => ?_, fun hnot => ?_⟩
  · rw [(hiff o).2 hd] at hnone
    cases hnone
  · cases hr : (w.futures (.user n)).resolver with
    | none => rfl
    | some o => exact absurd ((hiff o).1 hr) (hnot o)

/-- A callback of `async` returns the promise 0, which has a value later. -/
def adoptedPromise : Graph Nat where
  loop := 0
  node
    | 1 => .async .futureValue (.future 0)
    | _ => .promise false
  typed n s v f h := by
    split at h <;> cases h

/-- The run in which the future adopts the value of the promise. -/
def adoptedPromiseRun : List (Graph.Event Nat) :=
  [.build (Thread.ofLoop 0) 0, .build (Thread.ofLoop 0) 1, .fire (.user 1), .ret,
    .settle (Thread.ofLoop 0) 0 (.value (some 7)), .fire (.relayThen (.user 1)),
    .fire (.relayError (.user 1))]

/-- The value is the denotation of the future. -/
theorem outcome_denotation_adopted :
    Denotes adoptedPromise false (adoptedPromise.settlement adoptedPromiseRun) 1
      (.value (some 7)) := by
  have hsome : (adoptedPromise.run {} adoptedPromiseRun).isSome := by decide
  have hok : UvAsync.Ok {} := fun _ => ⟨rfl, rfl⟩
  have hall := outcome_denotation (n := 1) hok (Option.some_get hsome).symm ⟨rfl, fun l => by cases l <;> rfl⟩ (List.contains_iff_mem.1 rfl)
  exact (hall.1 _).1 rfl

/-- A callback of `error` on the `Future<void>` of promise 0 returns promise 1, which is never
settled. -/
def droppedPromise : Graph Nat where
  loop := 0
  node
    | 2 => .errorCb 0 true fun _ => .future 1
    | _ => .promise true
  typed n s v f h := by
    split at h <;> cases h
    rfl

/-- The run in which promise 0 is rejected. -/
def droppedPromiseRun : List (Graph.Event Nat) :=
  [.build (Thread.ofLoop 0) 0, .build (Thread.ofLoop 0) 1, .build (Thread.ofLoop 0) 2,
    .settle (Thread.ofLoop 0) 0 (.error ⟨"rejected"⟩), .fire (.user 2), .ret]

/-- With the returned future adopted the denotation is undefined, but the future is settled. -/
theorem outcome_not_adopted :
    ¬ ∀ (G : Graph Nat) (evs : List (Graph.Event Nat)) (w : World Nat), G.run {} evs = some w →
      w.Quiescent → ∀ n, .user n ∈ w.created → ∀ o, (w.futures (.user n)).resolver = some o ↔
        Denotes G true (G.settlement evs) n o := by
  intro hclaim
  have hsome : (droppedPromise.run {} droppedPromiseRun).isSome := by decide
  have hiff := hclaim droppedPromise droppedPromiseRun _ (Option.some_get hsome).symm
    ⟨rfl, fun l => by cases l <;> rfl⟩ 2 (List.contains_iff_mem.1 rfl) (.value none)
  -- the promise that the callback returns is never settled
  have hpending : ∀ o, ¬ Denotes droppedPromise true
      (droppedPromise.settlement droppedPromiseRun) 1 o := by
    rintro o (⟨-, hσ⟩ | ⟨hg, -⟩ | ⟨hg, -, -⟩ | ⟨hg, -⟩ | ⟨hg, -⟩ | ⟨hg, -, -⟩ | ⟨hg, -, -⟩)
    · cases hσ
    all_goals cases hg
  cases hiff.1 rfl with
  | promise hg _ => cases hg
  | async hg _ => cases hg
  | thenValue hg _ _ => cases hg
  | errorValue hg hs =>
    cases hg
    cases hs with
    | promise _ hσ => cases hσ
    | async hg _ => cases hg
    | thenValue hg _ _ => cases hg
    | errorValue hg _ => cases hg
    | errorError hg _ _ => cases hg
    | finallyCb hg _ _ => cases hg
  | errorError hg _ ho =>
    cases hg
    cases ho with
    | future hm => exact hpending _ hm
  | finallyCb hg _ _ => cases hg

end

end NodeNative
