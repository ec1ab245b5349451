import Mathlib.Data.List.Nodup
import NodeNative.Async.Ops

/-!
# The invariant of the asynchronous core

`World.Inv` relates the registered actions, the resolvers, the handles in flight and the actions
executed so far, in every state between two calls of the API. Its core is `waiting` and
`delivered`: an action registered on a pending future was never sent, and an action registered on
a settled future is in flight with that settlement or was executed with it. `World.Extends` is what
no operation takes back. The operations keep both, also when they throw.
-/

namespace NodeNative

section
variable {V : Type} {uv : UvAsync} {w : World V}

/-- A new element at the end of a list without duplicates. -/
theorem nodup_snoc {α : Type} {l : List α} {a : α} (hl : l.Nodup) (ha : a ∉ l) :
    (l ++ [a]).Nodup := by
  rw [← List.concat_eq_append]
  exact List.Nodup.concat ha hl

/-- The action is in flight with the resolver `r`. -/
structure Action.Sent (act : Action V) (r : FutureSharedResolver V) : Prop where
  data : act.data = true
  inst : act.inst = true
  instanceNum : act.instanceNum = 1
  resolver : act.resolver = some r

/-- Sending an idle action. -/
theorem Action.Idle.sent {act : Action V} (h : act.Idle) (r : FutureSharedResolver V) :
    (act.sent r).Sent r :=
  ⟨rfl, rfl, by simp [Action.sent, h.instanceNum], rfl⟩

/-- The actions executed so far. -/
def World.executedIds (w : World V) : List NodeId :=
  w.executed.map Prod.fst

/-- An entry of the history names an executed action. -/
theorem World.mem_executedIds {a : NodeId} {r : FutureSharedResolver V}
    (h : (a, r) ∈ w.executed) : a ∈ w.executedIds :=
  List.mem_map_of_mem (f := Prod.fst) h

/-- What holds in every state between two calls of the API. -/
structure World.Inv (w : World V) : Prop where
  pending_nodup : w.pending.Nodup
  executed_nodup : w.executedIds.Nodup
  not_executed : ∀ a ∈ w.pending, a ∉ w.executedIds
  idle : ∀ a, a ∉ w.pending → a ∉ w.executedIds → (w.action a).Idle
  sent : ∀ a ∈ w.pending, ∃ r, (w.action a).Sent r
  actions_nodup : ∀ f, (w.futures f).actions.Nodup
  actions_unique : ∀ f g a, a ∈ (w.futures f).actions → a ∈ (w.futures g).actions → f = g
  waiting : ∀ f a, a ∈ (w.futures f).actions → (w.futures f).resolver = none →
    a ∉ w.pending ∧ a ∉ w.executedIds
  delivered : ∀ f a r, a ∈ (w.futures f).actions → (w.futures f).resolver = some r →
    (a ∈ w.pending ∧ (w.action a).resolver = some r) ∨ (a, r) ∈ w.executed
  created_pending : ∀ a ∈ w.pending, a ∈ w.created
  created_executed : ∀ a ∈ w.executedIds, a ∈ w.created
  created_actions : ∀ f, ∀ a ∈ (w.futures f).actions, a ∈ w.created
  created_future : ∀ f, f ∉ w.created →
    (w.futures f).resolver = none ∧ (w.futures f).actions = []
  created_post : ∀ a, .post a ∈ w.created → a ∈ w.created
  created_relay : ∀ a, .relayThen a ∈ w.created ∨ .relayError a ∈ w.created →
    a ∈ w.executedIds ∧ ∀ l, w.running l ≠ some a
  running : ∀ l a, w.running l = some a →
    (w.action a).loop = l ∧ ∃ r, (a, r) ∈ w.executed ∧ (w.action a).Sent r
  closing_nodup : w.closing.Nodup
  closing : ∀ a ∈ w.closing, (∃ r, (a, r) ∈ w.executed ∧ (w.action a).Sent r) ∧
    ∀ l, w.running l ≠ some a
  push : ∀ a f b, (w.action a).f = .push f b →
    a = .post b ∧ f ∈ w.created ∧ b ∈ w.created ∧ ∀ c, b ≠ .post c
  relay : ∀ a d, (w.action a).f = .relay d → d ∈ w.created
  post_actions : ∀ f b, .post b ∉ (w.futures f).actions
  post_pending : ∀ b, .post b ∈ w.pending →
    b ∉ w.pending ∧ b ∉ w.executedIds ∧ ∀ g, b ∉ (w.futures g).actions

/-- What no operation takes back: objects, settlements, registrations and executions stay. -/
structure World.Extends (w w' : World V) : Prop where
  created : ∀ a ∈ w.created, a ∈ w'.created
  resolver : ∀ f r, (w.futures f).resolver = some r → (w'.futures f).resolver = some r
  actions : ∀ f, ∀ a ∈ (w.futures f).actions, a ∈ (w'.futures f).actions
  executed : ∀ x ∈ w.executed, x ∈ w'.executed
  action : ∀ a ∈ w.created, (w'.action a).loop = (w.action a).loop ∧
    (w'.action a).cls = (w.action a).cls ∧ (w'.action a).f = (w.action a).f
  future : ∀ f ∈ w.created, (w'.futures f).loop = (w.futures f).loop ∧
    (w'.futures f).isVoid = (w.futures f).isVoid

/-- A state extends itself, -/
theorem World.Extends.refl (w : World V) : w.Extends w :=
  ⟨fun _ h => h, fun _ _ h => h, fun _ _ h => h, fun _ h => h, fun _ _ => ⟨rfl, rfl, rfl⟩,
    fun _ _ => ⟨rfl, rfl⟩⟩

/-- and what extends an extension extends the state. -/
theorem World.Extends.trans {w₁ w₂ w₃ : World V} (h : w₁.Extends w₂) (h' : w₂.Extends w₃) :
    w₁.Extends w₃ where
  created a ha := h'.created a (h.created a ha)
  resolver f r hr := h'.resolver f r (h.resolver f r hr)
  actions f a ha := h'.actions f a (h.actions f a ha)
  executed x hx := h'.executed x (h.executed x hx)
  action a ha := by
    obtain ⟨h1, h2, h3⟩ := h.action a ha
    obtain ⟨k1, k2, k3⟩ := h'.action a (h.created a ha)
    exact ⟨k1.trans h1, k2.trans h2, k3.trans h3⟩
  future f hf := by
    obtain ⟨h1, h2⟩ := h.future f hf
    obtain ⟨k1, k2⟩ := h'.future f (h.created f hf)
    exact ⟨k1.trans h1, k2.trans h2⟩

/-! ## Settling -/

/-- The actions of a pending future are idle. -/
theorem World.Inv.actions_idle (h : w.Inv) {f a : NodeId} (ha : a ∈ (w.futures f).actions)
    (hr : (w.futures f).resolver = none) : (w.action a).Idle :=
  h.idle a (h.waiting f a ha hr).1 (h.waiting f a ha hr).2

/-- Settling a pending future keeps the invariant: its actions move from waiting to in flight. -/
theorem World.Inv.settled (h : w.Inv) {f : NodeId} (hf : f ∈ w.created)
    (hr : (w.futures f).resolver = none) (r : FutureSharedResolver V) : (w.settled f r).Inv := by
  have hwait := fun a ha => h.waiting f a ha hr
  have hfut : ∀ g, ((w.settled f r).futures g).actions = (w.futures g).actions := by
    intro g
    by_cases hg : g = f
    · subst hg; simp [World.settled]
    · simp [World.settled, hg]
  have hres : ∀ g, g ≠ f → ((w.settled f r).futures g).resolver = (w.futures g).resolver := by
    intro g hg
    simp [World.settled, hg]
  have hact : ∀ a, a ∉ (w.futures f).actions → (w.settled f r).action a = w.action a := by
    intro a ha
    simp [World.settled, ha]
  have hf' : ∀ a, ((w.settled f r).action a).f = (w.action a).f := by
    intro a
    simp only [World.settled, World.deliver_action]
    split <;> rfl
  have hnotmem : ∀ a, a ∈ w.executedIds → a ∉ (w.futures f).actions :=
    fun a ha hmem => (hwait a hmem).2 ha
  refine
    { pending_nodup := ?_, executed_nodup := h.executed_nodup, not_executed := ?_, idle := ?_,
      sent := ?_, actions_nodup := ?_, actions_unique := ?_, waiting := ?_, delivered := ?_,
      created_pending := ?_, created_executed := h.created_executed, created_actions := ?_,
      created_future := ?_, created_post := h.created_post, created_relay := h.created_relay,
      running := ?_, closing_nodup := h.closing_nodup, closing := ?_, push := ?_, relay := ?_,
      post_actions := ?_, post_pending := ?_ }
  · exact List.nodup_append.2 ⟨h.pending_nodup, h.actions_nodup f,
      fun a ha b hb hab => (hwait b hb).1 (hab ▸ ha)⟩
  · intro a ha
    rcases List.mem_append.1 ha with ha | ha
    · exact h.not_executed a ha
    · exact (hwait a ha).2
  · intro a hp hx
    obtain ⟨hp, ha⟩ := not_or.1 (fun hor => hp (List.mem_append.2 hor))
    rw [hact a ha]
    exact h.idle a hp hx
  · intro a ha
    by_cases hmem : a ∈ (w.futures f).actions
    · refine ⟨r, ?_⟩
      simpa [World.settled, hmem] using (h.actions_idle hmem hr).sent r
    · rw [hact a hmem]
      exact h.sent a ((List.mem_append.1 ha).resolve_right hmem)
  · intro g
    rw [hfut]
    exact h.actions_nodup g
  · intro g g' a hg hg'
    rw [hfut] at hg hg'
    exact h.actions_unique g g' a hg hg'
  · intro g a ha hg
    rw [hfut] at ha
    by_cases hgf : g = f
    · subst hgf; simp [World.settled] at hg
    · rw [hres g hgf] at hg
      obtain ⟨hp, hx⟩ := h.waiting g a ha hg
      refine ⟨fun hmem => ?_, hx⟩
      rcases List.mem_append.1 hmem with hmem | hmem
      · exact hp hmem
      · exact hgf (h.actions_unique g f a ha hmem)
  · intro g a r' ha hg
    rw [hfut] at ha
    by_cases hgf : g = f
    · subst hgf
      have : r = r' := by simpa [World.settled] using hg
      subst this
      exact .inl ⟨List.mem_append_right _ ha, by simp [World.settled, ha, Action.sent]⟩
    · rw [hres g hgf] at hg
      have hmem : a ∉ (w.futures f).actions := fun hmem => hgf (h.actions_unique g f a ha hmem)
      rcases h.delivered g a r' ha hg with ⟨hp, hres'⟩ | hx
      · exact .inl ⟨List.mem_append_left _ hp, by rw [hact a hmem]; exact hres'⟩
      · exact .inr hx
  · intro a ha
    rcases List.mem_append.1 ha with ha | ha
    · exact h.created_pending a ha
    · exact h.created_actions f a ha
  · intro g a ha
    rw [hfut] at ha
    exact h.created_actions g a ha
  · intro g hg
    have hgf : g ≠ f := fun hgf => hg (hgf ▸ hf)
    rw [hfut, hres g hgf]
    exact h.created_future g hg
  · intro l a hl
    obtain ⟨hloop, r', hx, hs⟩ := h.running l a hl
    rw [hact a (hnotmem a (World.mem_executedIds hx))]
    exact ⟨hloop, r', hx, hs⟩
  · intro a ha
    obtain ⟨⟨r', hx, hs⟩, hrun⟩ := h.closing a ha
    rw [hact a (hnotmem a (World.mem_executedIds hx))]
    exact ⟨⟨r', hx, hs⟩, hrun⟩
  · intro a g b hb
    rw [hf'] at hb
    exact h.push a g b hb
  · intro a d hd
    rw [hf'] at hd
    exact h.relay a d hd
  · intro g b
    rw [hfut]
    exact h.post_actions g b
  · intro b hb
    have hb' : .post b ∈ w.pending :=
      (List.mem_append.1 hb).resolve_right (h.post_actions f b)
    obtain ⟨hp, hx, hreg⟩ := h.post_pending b hb'
    refine ⟨fun hmem => ?_, hx, fun g => ?_⟩
    · rcases List.mem_append.1 hmem with hmem | hmem
      · exact hp hmem
      · exact hreg f hmem
    · rw [hfut]
      exact hreg g

/-- Settling a pending future extends the state. -/
theorem World.Extends.settled {f : NodeId} (hr : (w.futures f).resolver = none)
    (r : FutureSharedResolver V) : w.Extends (w.settled f r) where
  created _ ha := ha
  resolver g r' hg := by
    have hgf : g ≠ f := by rintro rfl; rw [hr] at hg; cases hg
    simpa [World.settled, hgf] using hg
  actions g a ha := by
    by_cases hg : g = f
    · subst hg; simpa [World.settled] using ha
    · simpa [World.settled, hg] using ha
  executed _ hx := hx
  action a _ := by
    simp only [World.settled, World.deliver_action, World.setFuture_action]
    split <;> exact ⟨rfl, rfl, rfl⟩
  future g _ := by
    by_cases hg : g = f
    · subst hg; simp [World.settled]
    · simp [World.settled, hg]

/-! ## Registering -/

/-- Pushing an action that nothing has registered or sent keeps the invariant: it waits on a pending
future and is in flight on a settled one. -/
theorem World.Inv.pushed (h : w.Inv) {f a : NodeId} (ha : a ∈ w.created)
    (hf : f ∈ w.created) (hp : a ∉ w.pending) (hx : a ∉ w.executedIds)
    (hreg : ∀ g, a ∉ (w.futures g).actions) (hpost : ∀ b, a ≠ .post b)
    (hpp : .post a ∉ w.pending) : (w.pushed f a).Inv := by
  have hidle : (w.action a).Idle := h.idle a hp hx
  have hxs : (w.pushed f a).executedIds = w.executedIds := by simp [World.executedIds]
  have hmem : ∀ b, b ∈ (w.pushed f a).pending ↔
      b ∈ w.pending ∨ (b = a ∧ (w.futures f).resolver.isSome) := by
    intro b
    rw [World.pushed_pending]
    split <;> simp [*]
  have hold : ∀ b ∈ w.pending, b ∈ (w.pushed f a).pending := fun b hb => (hmem b).2 (.inl hb)
  have hne : ∀ b, b ≠ a → b ∈ (w.pushed f a).pending → b ∈ w.pending := by
    intro b hba hb
    exact ((hmem b).1 hb).resolve_right fun hba' => hba hba'.1
  have hacts : ∀ g b, b ∈ ((w.pushed f a).futures g).actions ↔
      b ∈ (w.futures g).actions ∨ (b = a ∧ g = f) := by
    intro g b
    rw [World.pushed_futures]
    by_cases hg : g = f
    · subst hg; simp
    · simp [hg]
  have hres : ∀ g, ((w.pushed f a).futures g).resolver = (w.futures g).resolver := by
    intro g
    rw [World.pushed_futures]
    by_cases hg : g = f
    · subst hg; simp
    · simp [hg]
  have hcb : ∀ b, ((w.pushed f a).action b).f = (w.action b).f := by
    intro b
    rw [World.pushed_action]
    split
    · split <;> rfl
    · rfl
  have hsent : ∀ b r, (b, r) ∈ w.executed → (w.pushed f a).action b = w.action b := by
    intro b r hb
    refine World.pushed_action_ne w f a fun hba => hx ?_
    exact hba ▸ World.mem_executedIds hb
  refine
    { pending_nodup := ?_, executed_nodup := hxs ▸ h.executed_nodup, not_executed := ?_,
      idle := ?_, sent := ?_, actions_nodup := ?_, actions_unique := ?_, waiting := ?_,
      delivered := ?_, created_pending := ?_, created_executed := ?_, created_actions := ?_,
      created_future := ?_, created_post := ?_, created_relay := ?_, running := ?_,
      closing_nodup := ?_, closing := ?_, push := ?_, relay := ?_, post_actions := ?_,
      post_pending := ?_ }
  · rw [World.pushed_pending]
    split
    · exact nodup_snoc h.pending_nodup hp
    · exact h.pending_nodup
  · intro b hb
    rw [hxs]
    rcases (hmem b).1 hb with hb | ⟨rfl, -⟩
    · exact h.not_executed b hb
    · exact hx
  · intro b hb hbx
    rw [hxs] at hbx
    by_cases hba : b = a
    · subst hba
      have hnone : (w.futures f).resolver = none := by
        cases hr : (w.futures f).resolver with
        | none => rfl
        | some r => exact absurd ((hmem b).2 (.inr ⟨rfl, by simp [hr]⟩)) hb
      rw [World.pushed_action, hnone]
      exact hidle
    · rw [World.pushed_action_ne w f a hba]
      exact h.idle b (fun hb' => hb (hold b hb')) hbx
  · intro b hb
    by_cases hba : b = a
    · subst hba
      obtain ⟨r, hr⟩ := Option.isSome_iff_exists.1
        (((hmem b).1 hb).resolve_left hp).2
      refine ⟨r, ?_⟩
      rw [World.pushed_action, hr]
      simpa using hidle.sent r
    · rw [World.pushed_action_ne w f a hba]
      exact h.sent b (hne b hba hb)
  · intro g
    rw [World.pushed_futures]
    split
    · exact nodup_snoc (h.actions_nodup f) (hreg f)
    · exact h.actions_nodup g
  · intro g g' b hg hg'
    rcases (hacts g b).1 hg with hg | ⟨hba, hgf⟩
    · rcases (hacts g' b).1 hg' with hg' | ⟨hba, -⟩
      · exact h.actions_unique g g' b hg hg'
      · exact absurd (hba ▸ hg) (hreg g)
    · rcases (hacts g' b).1 hg' with hg' | ⟨-, hgf'⟩
      · exact absurd (hba ▸ hg') (hreg g')
      · rw [hgf, hgf']
  · intro g b hb hg
    rw [hres] at hg
    rw [hxs]
    rcases (hacts g b).1 hb with hb | ⟨rfl, rfl⟩
    · obtain ⟨hbp, hbx⟩ := h.waiting g b hb hg
      exact ⟨fun hb' => hbp (hne b (fun hba => hreg g (hba ▸ hb)) hb'), hbx⟩
    · refine ⟨fun hb' => ?_, hx⟩
      have := (((hmem b).1 hb').resolve_left hp).2
      simp [hg] at this
  · intro g b r hb hg
    rw [hres] at hg
    rcases (hacts g b).1 hb with hb | ⟨rfl, rfl⟩
    · rw [World.pushed_executed]
      have hba : b ≠ a := fun hba => hreg g (hba ▸ hb)
      rw [World.pushed_action_ne w f a hba]
      exact (h.delivered g b r hb hg).imp_left fun hd => ⟨hold b hd.1, hd.2⟩
    · refine .inl ⟨(hmem b).2 (.inr ⟨rfl, by simp [hg]⟩), ?_⟩
      rw [World.pushed_action, hg]
      simp [Action.sent]
  · intro b hb
    rw [World.pushed_created]
    rcases (hmem b).1 hb with hb | ⟨rfl, -⟩
    · exact h.created_pending b hb
    · exact ha
  · intro b hb
    rw [hxs] at hb
    rw [World.pushed_created]
    exact h.created_executed b hb
  · intro g b hb
    rw [World.pushed_created]
    rcases (hacts g b).1 hb with hb | ⟨rfl, -⟩
    · exact h.created_actions g b hb
    · exact ha
  · intro g hg
    rw [World.pushed_created] at hg
    have hgf : g ≠ f := fun hgf => hg (hgf ▸ hf)
    simpa [hgf] using h.created_future g hg
  · simpa using h.created_post
  · simpa [hxs] using h.created_relay
  · intro l b hl
    rw [World.pushed_running] at hl
    obtain ⟨hloop, r, hb, hs⟩ := h.running l b hl
    rw [hsent b r hb, World.pushed_executed]
    exact ⟨hloop, r, hb, hs⟩
  · simpa using h.closing_nodup
  · intro b hb
    rw [World.pushed_closing] at hb
    obtain ⟨⟨r, hbx, hs⟩, hrun⟩ := h.closing b hb
    rw [hsent b r hbx, World.pushed_executed, World.pushed_running]
    exact ⟨⟨r, hbx, hs⟩, hrun⟩
  · intro b g c hb
    rw [hcb] at hb
    simpa using h.push b g c hb
  · intro b d hb
    rw [hcb] at hb
    simpa using h.relay b d hb
  · intro g b hb
    rcases (hacts g _).1 hb with hb | ⟨hb, -⟩
    · exact h.post_actions g b hb
    · exact hpost b hb.symm
  · intro b hb
    have hb' : .post b ∈ w.pending := hne _ (fun hba => hpost b hba.symm) hb
    have hba : b ≠ a := fun hba => hpp (hba ▸ hb')
    obtain ⟨hbp, hbx, hbreg⟩ := h.post_pending b hb'
    rw [hxs]
    refine ⟨fun hb'' => hbp (hne b hba hb''), hbx, fun g hg => ?_⟩
    exact ((hacts g b).1 hg).elim (hbreg g) fun hg => hba hg.1

/-- Pushing extends the state. -/
theorem World.Extends.pushed (f a : NodeId) : w.Extends (w.pushed f a) where
  created b hb := by simpa using hb
  resolver g r hg := by
    by_cases hgf : g = f
    · subst hgf; simpa using hg
    · simpa [hgf] using hg
  actions g b hb := by
    by_cases hgf : g = f
    · subst hgf; simp [hb]
    · simpa [hgf] using hb
  executed x hx := by simpa using hx
  action b _ := by
    rw [World.pushed_action]
    split
    · split <;> exact ⟨rfl, rfl, rfl⟩
    · exact ⟨rfl, rfl, rfl⟩
  future g _ := by
    by_cases hgf : g = f
    · subst hgf; simp
    · simp [hgf]

/-- A new name is nowhere in the state. -/
theorem World.Inv.fresh (h : w.Inv) {n : NodeId} (hn : n ∉ w.created) :
    n ∉ w.pending ∧ n ∉ w.executedIds ∧ (∀ g, n ∉ (w.futures g).actions) ∧
      .post n ∉ w.pending :=
  ⟨fun hp => hn (h.created_pending n hp), fun hx => hn (h.created_executed n hx),
    fun g hg => hn (h.created_actions g n hg),
    fun hp => hn (h.created_post n (h.created_pending _ hp))⟩

/-- Creating a future under a new name keeps the invariant. -/
theorem World.Inv.createFuture (h : w.Inv) {n : NodeId} (hn : n ∉ w.created) (l : LoopId)
    (isVoid : Bool) (hpost : ∀ b, n = .post b → b ∈ w.created)
    (hrel : ∀ a, n = .relayThen a ∨ n = .relayError a →
      a ∈ w.executedIds ∧ ∀ l, w.running l ≠ some a) : (w.createFuture n l isVoid).Inv := by
  have hacts : ∀ g, ((w.createFuture n l isVoid).futures g).actions = (w.futures g).actions := by
    intro g
    by_cases hg : g = n
    · subst hg; simp [World.createFuture, World.setFuture, (h.created_future g hn).2]
    · simp [World.createFuture, World.setFuture, hg]
  have hres : ∀ g, ((w.createFuture n l isVoid).futures g).resolver =
      (w.futures g).resolver := by
    intro g
    by_cases hg : g = n
    · subst hg; simp [World.createFuture, World.setFuture, (h.created_future g hn).1]
    · simp [World.createFuture, World.setFuture, hg]
  exact
    { h with
      actions_nodup := fun g => by
        rw [hacts]
        exact h.actions_nodup g
      actions_unique := fun g g' b => by
        rw [hacts, hacts]
        exact h.actions_unique g g' b
      waiting := fun g b => by
        rw [hacts, hres]
        exact h.waiting g b
      delivered := fun g b r => by
        rw [hacts, hres]
        exact h.delivered g b r
      created_pending := fun b hb => .tail _ (h.created_pending b hb)
      created_executed := fun b hb => .tail _ (h.created_executed b hb)
      created_actions := fun g b hb => by
        rw [hacts] at hb
        exact .tail _ (h.created_actions g b hb)
      created_future := fun g hg => by
        rw [hres, hacts]
        exact h.created_future g fun hg' => hg (.tail _ hg')
      created_post := fun b hb => by
        rcases List.mem_cons.1 hb with hb | hb
        · exact .tail _ (hpost b hb.symm)
        · exact .tail _ (h.created_post b hb)
      created_relay := fun b hb => by
        rcases hb with hb | hb
        · rcases List.mem_cons.1 hb with hb | hb
          · exact hrel b (.inl hb.symm)
          · exact h.created_relay b (.inl hb)
        · rcases List.mem_cons.1 hb with hb | hb
          · exact hrel b (.inr hb.symm)
          · exact h.created_relay b (.inr hb)
      push := fun b g c hb => by
        obtain ⟨h1, h2, h3, h4⟩ := h.push b g c hb
        exact ⟨h1, .tail _ h2, .tail _ h3, h4⟩
      relay := fun b d hb => .tail _ (h.relay b d hb)
      post_actions := fun g b => by
        rw [hacts]
        exact h.post_actions g b
      post_pending := fun b hb => by
        obtain ⟨h1, h2, h3⟩ := h.post_pending b hb
        refine ⟨h1, h2, fun g => ?_⟩
        rw [hacts]
        exact h3 g }

/-- Writing an idle action under a new name keeps the invariant. -/
theorem World.Inv.setAction (h : w.Inv) {n : NodeId} (hn : n ∉ w.created) {act : Action V}
    (hidle : act.Idle)
    (hpush : ∀ g b, act.f = .push g b →
      n = .post b ∧ g ∈ w.created ∧ b ∈ w.created ∧ ∀ c, b ≠ .post c)
    (hrelay : ∀ d, act.f = .relay d → d ∈ w.created) : (w.setAction n act).Inv := by
  obtain ⟨hp, hx, hreg, -⟩ := h.fresh hn
  have hact : ∀ b, b ≠ n → (w.setAction n act).action b = w.action b := by
    intro b hb
    simp [hb]
  have hexec : ∀ b r, (b, r) ∈ w.executed → b ≠ n :=
    fun b r hb hbn => hx (hbn ▸ World.mem_executedIds hb)
  exact
    { h with
      idle := fun b hbp hbx => by
        by_cases hb : b = n
        · subst hb; simpa using hidle
        · rw [hact b hb]; exact h.idle b hbp hbx
      sent := fun b hb => by
        have hbn : b ≠ n := fun hbn => hp (hbn ▸ hb)
        rw [hact b hbn]
        exact h.sent b hb
      delivered := fun g b r hb => by
        have hbn : b ≠ n := fun hbn => hreg g (hbn ▸ hb)
        rw [hact b hbn]
        exact h.delivered g b r hb
      running := fun l' b hl => by
        obtain ⟨hloop, r, hbx, hs⟩ := h.running l' b hl
        rw [hact b (hexec b r hbx)]
        exact ⟨hloop, r, hbx, hs⟩
      closing := fun b hb => by
        obtain ⟨⟨r, hbx, hs⟩, hrun⟩ := h.closing b hb
        rw [hact b (hexec b r hbx)]
        exact ⟨⟨r, hbx, hs⟩, hrun⟩
      push := fun b g c hb => by
        by_cases hbn : b = n
        · subst hbn; exact hpush g c (by simpa using hb)
        · rw [hact b hbn] at hb; exact h.push b g c hb
      relay := fun b d hb => by
        by_cases hbn : b = n
        · subst hbn; exact hrelay d (by simpa using hb)
        · rw [hact b hbn] at hb; exact h.relay b d hb }

/-- Creating a future under a new name extends the state. -/
theorem World.Extends.createFuture (h : w.Inv) {n : NodeId} (hn : n ∉ w.created) (l : LoopId)
    (isVoid : Bool) : w.Extends (w.createFuture n l isVoid) where
  created b hb := .tail _ hb
  resolver g r hg := by
    have hgn : g ≠ n := by
      rintro rfl
      rw [(h.created_future g hn).1] at hg
      cases hg
    simpa [World.createFuture, World.setFuture, hgn] using hg
  actions g b hb := by
    have hgn : g ≠ n := by
      rintro rfl
      rw [(h.created_future g hn).2] at hb
      cases hb
    simpa [World.createFuture, World.setFuture, hgn] using hb
  executed _ hx := hx
  action _ _ := ⟨rfl, rfl, rfl⟩
  future g hg := by
    have hgn : g ≠ n := fun hgn => hn (hgn ▸ hg)
    simp [World.createFuture, World.setFuture, hgn]

/-- Writing an action under a new name extends the state. -/
theorem World.Extends.setAction {n : NodeId} (hn : n ∉ w.created) (act : Action V) :
    w.Extends (w.setAction n act) where
  created _ hb := hb
  resolver _ _ hg := hg
  actions _ _ hb := hb
  executed _ hx := hx
  action b hb := by
    have hbn : b ≠ n := fun hbn => hn (hbn ▸ hb)
    simp [hbn]
  future _ _ := ⟨rfl, rfl⟩

/-- Sending an action that no future registers keeps the invariant. -/
theorem World.Inv.deliver_one (h : w.Inv) {n : NodeId} (hn : n ∈ w.created)
    (hp : n ∉ w.pending) (hx : n ∉ w.executedIds) (hreg : ∀ g, n ∉ (w.futures g).actions)
    (hpp : .post n ∉ w.pending)
    (hpost : ∀ b, n = .post b →
      b ∉ w.pending ∧ b ∉ w.executedIds ∧ ∀ g, b ∉ (w.futures g).actions)
    (r : FutureSharedResolver V) : (w.deliver [n] r).Inv := by
  have hmem : ∀ b, b ∈ (w.deliver [n] r).pending ↔ b ∈ w.pending ∨ b = n := by
    intro b
    simp
  have hact : ∀ b, b ≠ n → (w.deliver [n] r).action b = w.action b := by
    intro b hb
    simp [hb]
  have hexec : ∀ b r', (b, r') ∈ w.executed → b ≠ n :=
    fun b r' hb hbn => hx (hbn ▸ World.mem_executedIds hb)
  have hcb : ∀ b, ((w.deliver [n] r).action b).f = (w.action b).f := by
    intro b
    rw [World.deliver_action]
    split <;> rfl
  refine
    { pending_nodup := ?_, executed_nodup := h.executed_nodup, not_executed := ?_,
      idle := ?_, sent := ?_, actions_nodup := h.actions_nodup,
      actions_unique := h.actions_unique, waiting := ?_, delivered := ?_,
      created_pending := ?_, created_executed := h.created_executed,
      created_actions := h.created_actions, created_future := h.created_future,
      created_post := h.created_post, created_relay := h.created_relay, running := ?_,
      closing_nodup := h.closing_nodup, closing := ?_, push := ?_, relay := ?_,
      post_actions := h.post_actions, post_pending := ?_ }
  · exact nodup_snoc h.pending_nodup hp
  · intro b hb
    rcases (hmem b).1 hb with hb | rfl
    · exact h.not_executed b hb
    · exact hx
  · intro b hb hbx
    obtain ⟨hb, hbn⟩ := not_or.1 fun hor => hb ((hmem b).2 hor)
    rw [hact b hbn]
    exact h.idle b hb hbx
  · intro b hb
    by_cases hbn : b = n
    · subst hbn
      exact ⟨r, by simpa using (h.idle b hp hx).sent r⟩
    · rw [hact b hbn]
      exact h.sent b (((hmem b).1 hb).resolve_right hbn)
  · intro g b hb hg
    obtain ⟨hbp, hbx⟩ := h.waiting g b hb hg
    refine ⟨fun hb' => ?_, hbx⟩
    rcases (hmem b).1 hb' with hb' | rfl
    · exact hbp hb'
    · exact hreg g hb
  · intro g b r' hb hg
    have hbn : b ≠ n := fun hbn => hreg g (hbn ▸ hb)
    rw [hact b hbn]
    exact (h.delivered g b r' hb hg).imp_left fun hd => ⟨(hmem b).2 (.inl hd.1), hd.2⟩
  · intro b hb
    rcases (hmem b).1 hb with hb | rfl
    · exact h.created_pending b hb
    · exact hn
  · intro l b hl
    obtain ⟨hloop, r', hbx, hs⟩ := h.running l b hl
    rw [hact b (hexec b r' hbx)]
    exact ⟨hloop, r', hbx, hs⟩
  · intro b hb
    obtain ⟨⟨r', hbx, hs⟩, hrun⟩ := h.closing b hb
    rw [hact b (hexec b r' hbx)]
    exact ⟨⟨r', hbx, hs⟩, hrun⟩
  · intro b g c hb
    rw [hcb] at hb
    exact h.push b g c hb
  · intro b d hb
    rw [hcb] at hb
    exact h.relay b d hb
  · intro b hb
    rcases (hmem _).1 hb with hb | hb
    · obtain ⟨h1, h2, h3⟩ := h.post_pending b hb
      refine ⟨fun hb' => ?_, h2, h3⟩
      rcases (hmem b).1 hb' with hb' | hbn
      · exact h1 hb'
      · exact hpp (hbn ▸ ‹NodeId.post b ∈ w.pending›)
    · obtain ⟨h1, h2, h3⟩ := hpost b hb.symm
      refine ⟨fun hb' => ?_, h2, h3⟩
      rcases (hmem b).1 hb' with hb' | hbn
      · exact h1 hb'
      · exact NodeId.post_ne b (hb.trans hbn.symm)

end

end NodeNative
