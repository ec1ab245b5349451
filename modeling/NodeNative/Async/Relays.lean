import NodeNative.Async.Delivery
import NodeNative.Async.Lifecycle
import NodeNative.Async.Settlement

/-!
# The relays of a returned future

When the callback of an action returns a future, two actions are registered that settle the action's
own future: `relayThen` on the returned future, and `relayError` on the future of the first
(`World.Relays`). They belong to the loop of the returned future, and nothing else settles the
action's future from then on (`World.Relays.settles`).
-/

namespace NodeNative

open Transition

section
variable {V : Type} {uv : UvAsync} {w : World V} {g a : NodeId}

/-- An action that is registered, or will be, on a pending future was not executed. -/
theorem World.Inv.registered_waiting (h : w.Inv) {f b : NodeId} (hreg : w.Registered f b)
    (hf : (w.futures f).resolver = none) : b ∉ w.executedIds := by
  rcases hreg with hmem | ⟨hpost, -⟩
  · exact (h.waiting f b hmem hf).2
  · exact (h.post_pending b hpost).2.1

/-- When no handle is in flight, an action that is registered on a settled future was executed. -/
theorem World.Inv.registered_executed (h : w.Inv) (hp : w.pending = []) {f b : NodeId}
    {r : FutureSharedResolver V} (hreg : w.Registered f b) (hf : (w.futures f).resolver = some r) :
    (b, r) ∈ w.executed := by
  rcases hreg with hmem | ⟨hpost, -⟩
  · refine (h.delivered f b r hmem hf).resolve_left fun hflight => ?_
    rw [hp] at hflight
    cases hflight.1
  · rw [hp] at hpost
    cases hpost

/-! ## The two relays -/

/-- Two actions of the loop of `g` relay its outcome to the future of `a`. -/
structure World.Relays (w : World V) (g a : NodeId) : Prop where
  inv : w.Inv
  named : w.RelaysNamed
  created : g ∈ w.created
  relays : ∀ b, b = .relayThen a ∨ b = .relayError a → b ∈ w.created ∧
    (w.action b).f = .relay a ∧ (w.action b).loop = (w.futures g).loop ∧
      (w.futures b).loop = (w.futures g).loop
  thenClass : ∃ R, (w.action (.relayThen a)).cls = .actionCallback R ∨
    (w.action (.relayThen a)).cls = .actionCallbackP1 R
  errorClass : (w.action (.relayError a)).cls = .actionCallbackError
  onReturned : w.Registered g (.relayThen a)
  onThen : w.Registered (.relayThen a) (.relayError a)
  own : ∀ b, b = .relayThen a ∨ b = .relayError a → w.OwnPending b

/-- The first relay hands errors on. -/
theorem World.Relays.then_passes (h : w.Relays g a) (r : FutureSharedResolver V) :
    (w.action (.relayThen a)).cls.passes r = r.isError := by
  obtain ⟨R, hcls | hcls⟩ := h.thenClass
  · rw [hcls]
    rfl
  · rw [hcls]
    rfl

/-- The second relay hands values on. -/
theorem World.Relays.error_passes (h : w.Relays g a) (r : FutureSharedResolver V) :
    (w.action (.relayError a)).cls.passes r = !r.isError := by
  rw [h.errorClass]
  rfl

/-- The action was executed and its callback has returned. -/
theorem World.Relays.returned (h : w.Relays g a) : a ∈ w.executedIds ∧ ∀ l, w.running l ≠ some a :=
  h.inv.created_relay a (.inl (h.relays _ (.inl rfl)).1)

/-- The action that the relays belong to exists. -/
theorem World.Relays.created_self (h : w.Relays g a) : a ∈ w.created :=
  h.inv.created_executed a h.returned.1

/-- While the returned future is pending no relay is executed. -/
theorem World.Relays.waiting (h : w.Relays g a) (hg : (w.futures g).resolver = none) :
    .relayThen a ∉ w.executedIds ∧ .relayError a ∉ w.executedIds := by
  have hthen := h.inv.registered_waiting h.onReturned hg
  exact ⟨hthen, h.inv.registered_waiting h.onThen (h.own _ (.inl rfl) (.inl hthen))⟩

/-- A later state, in which the relays are still registered. -/
theorem World.Relays.extends (h : w.Relays g a) {w' : World V} (hinv' : w'.Inv)
    (hnamed' : w'.RelaysNamed) (hext : w.Extends w')
    (hreg : ∀ f b, w.Registered f b → w'.Registered f b)
    (hown : ∀ b, b = .relayThen a ∨ b = .relayError a → w'.OwnPending b) : w'.Relays g a := by
  refine
    { inv := hinv', named := hnamed', created := hext.created g h.created, relays := ?_,
      thenClass := ?_, errorClass := ?_, onReturned := hreg _ _ h.onReturned,
      onThen := hreg _ _ h.onThen, own := hown }
  · intro b hb
    obtain ⟨hbc, hf, hbl, hbfl⟩ := h.relays b hb
    obtain ⟨hl', -, hf'⟩ := hext.action b hbc
    rw [hf', hl', (hext.future b hbc).1, (hext.future g h.created).1]
    exact ⟨hext.created b hbc, hf, hbl, hbfl⟩
  · rw [(hext.action _ (h.relays _ (.inl rfl)).1).2.1]
    exact h.thenClass
  · rw [(hext.action _ (h.relays _ (.inr rfl)).1).2.1]
    exact h.errorClass

/-- Every step keeps the relays when the program does not settle their futures itself. -/
theorem World.Relays.step (huv : uv.Ok) (h : w.Relays g a) {lab : Label V}
    (hlab : ∀ b, b = .relayThen a ∨ b = .relayError a → ¬ lab.Settles b) {w' : World V}
    (hstep : NodeNative.step uv w lab = some w') : w'.Relays g a := by
  obtain ⟨hinv', hext⟩ := step_inv huv h.inv hstep
  exact h.extends hinv' (h.named.step huv h.inv hstep) hext
    (fun _ _ hreg => step_registered huv h.inv hstep hreg)
    fun b hb => (h.own b hb).step huv h.inv h.named (hlab b hb) hstep

/-- What settles the future of the action: a call of the program, or a relay that fires. -/
theorem World.Relays.settles (huv : uv.Ok) (h : w.Relays g a) {lab : Label V}
    (hlab : ¬ lab.Settles a) {w' : World V} (hstep : NodeNative.step uv w lab = some w')
    (hnone : (w.futures a).resolver = none) (hsome : (w'.futures a).resolver ≠ none) :
    ∃ b, (b = .relayThen a ∨ b = .relayError a) ∧ lab = .fire b ∧
      (w.futures a).loop = (w.futures g).loop := by
  rcases step_settles huv h.inv hstep hnone hsome with hset | ⟨b, rfl, hb, hbl⟩ | ⟨l, r, -, hl⟩
  · exact absurd hset hlab
  · rcases hb with rfl | hb
    · exact absurd h.returned.1 (h.inv.not_executed _ (step_fire_enabled hstep).1)
    · have hrelay := h.named b a hb
      exact ⟨b, hrelay, rfl, (hbl h.created_self).trans (h.relays b hrelay).2.2.1⟩
  · exact absurd hl (h.returned.2 l)

/-- The futures of relays that were not created are pending, and so are those that post them. -/
theorem World.Inv.relays_fresh (h : w.Inv)
    (hnew : ∀ b, b = .relayThen a ∨ b = .relayError a → b ∉ w.created) (b : NodeId)
    (hb : b = .relayThen a ∨ b = .relayError a ∨ b = .post (.relayThen a) ∨
      b = .post (.relayError a)) : (w.futures b).resolver = none := by
  refine (h.created_future b fun hmem => ?_).1
  rcases hb with rfl | rfl | rfl | rfl
  · exact hnew _ (.inl rfl) hmem
  · exact hnew _ (.inr rfl) hmem
  · exact hnew _ (.inl rfl) (h.created_post _ hmem)
  · exact hnew _ (.inr rfl) (h.created_post _ hmem)

/-- Registering the relays of a future, when the action was executed and not relayed before. -/
theorem World.Inv.relays_relayed (h : w.Inv) (hn : w.RelaysNamed) (t : Thread) (hg : g ∈ w.created)
    (hx : a ∈ w.executedIds) (hrun : ∀ l, w.running l ≠ some a)
    (hnew : ∀ b, b = .relayThen a ∨ b = .relayError a → b ∉ w.created) :
    (w.relayed t g a).Relays g a := by
  obtain ⟨hc₁, hc₂⟩ := h.called_relayed t hg hx hrun (hnew _ (.inl rfl)) (hnew _ (.inr rfl))
  have hthenAction := w.registered_action t g (.relayThen a) ((w.futures g).thenClass .void)
    (.relay a)
  have hthenFuture := (w.relayedThen_future t g a).1
  have hthenCreated : .relayThen a ∈ (w.relayedThen t g a).created := by
    rw [World.relayedThen, World.registered_created]
    split <;> simp
  have hthenKept := hc₂.extend.action _ hthenCreated
  have herrorAction := (w.relayedThen t g a).registered_action t (.relayThen a) (.relayError a)
    .actionCallbackError (.relay a)
  have herrorNew : .relayError a ∉ (w.relayedThen t g a).created := by
    have hold := hnew _ (.inr rfl)
    rw [World.relayedThen, World.registered_created]
    split <;> simpa using hold
  have hgloop := (hc₁.trans hc₂).extend.future g hg
  have hupdates : w.Updates t (· = a) (w.relayed t g a) :=
    h.updates_relayed t rfl hg hx hrun (hnew _ (.inl rfl)) (hnew _ (.inr rfl))
  refine
    { inv := hc₂.inv, named := hupdates.relaysNamed hn,
      created := (hc₁.trans hc₂).extend.created g hg, relays := ?_,
      thenClass := ?_, errorClass := herrorAction.2.1, onReturned := ?_, onThen := ?_, own := ?_ }
  · rintro b (rfl | rfl)
    · refine ⟨hc₂.extend.created _ hthenCreated, hthenKept.2.2.trans hthenAction.2.2, ?_, ?_⟩
      · exact (hthenKept.1.trans hthenAction.1).trans hgloop.1.symm
      · exact ((hc₂.extend.future _ hthenCreated).1.trans hthenFuture).trans hgloop.1.symm
    · obtain ⟨-, herrorLoop, herrorFuture⟩ := World.relayed_loop (w := w) a t g
      refine ⟨?_, herrorAction.2.2, herrorLoop.trans hgloop.1.symm, herrorFuture.trans hgloop.1.symm⟩
      rw [World.relayed, World.registered_created]
      split <;> simp
  · have hcls : ∃ R, (w.futures g).thenClass .void = .actionCallback R ∨
        (w.futures g).thenClass .void = .actionCallbackP1 R := by
      unfold FutureShared.thenClass
      split
      · exact ⟨_, .inl rfl⟩
      · exact ⟨_, .inr rfl⟩
    rwa [← hthenKept.2.1.trans hthenAction.2.1] at hcls
  · exact hc₂.registered (w.registered_registered hg (hnew _ (.inl rfl)) _ _ _)
  · exact World.registered_registered _ hthenCreated herrorNew _ _ _
  · intro b hb _
    rw [w.relayed_resolver a t g (h.relays_fresh hnew)]
    exact (h.created_future b (hnew b hb)).1

/-- The relays of an action whose callback is on the stack were not created. -/
theorem World.Inv.relays_new (h : w.Inv) {l : LoopId} (hl : w.running l = some a) (b : NodeId)
    (hb : b = .relayThen a ∨ b = .relayError a) : b ∉ w.created := by
  rintro hmem
  rcases hb with rfl | rfl
  · exact (h.created_relay a (.inl hmem)).2 l hl
  · exact (h.created_relay a (.inr hmem)).2 l hl

/-- Returning a future settles and executes nothing. -/
theorem step_ret_future_settles (huv : uv.Ok) (h : w.Inv) {l : LoopId} (hl : w.running l = some a)
    (hret : (w.action a).cls.ret = .futureValue ∨ (w.action a).cls.ret = .futureVoid) {w' : World V}
    (hstep : step uv w (.ret l (.future g)) = some w') :
    g ∈ w.created ∧ (∀ b, (w'.futures b).resolver = (w.futures b).resolver) ∧
      w'.executed = w.executed := by
  obtain ⟨hg, rfl⟩ := step_ret_future huv h hl hret hstep
  obtain ⟨-, r₀, hx, -⟩ := h.running l a hl
  have hnew := h.relays_new hl
  obtain ⟨hc₁, hc₂⟩ := (h.left l).called_relayed (Thread.ofLoop l) hg (World.mem_executedIds hx)
    (h.left_not_running hl) (hnew _ (.inl rfl)) (hnew _ (.inr rfl))
  exact ⟨hg, fun b => (w.left l).relayed_resolver a _ g ((h.left l).relays_fresh hnew) b,
    (hc₁.trans hc₂).executed⟩

/-- The callback of an action returns a future: its relays are registered. -/
theorem World.Inv.relays_ret (huv : uv.Ok) (h : w.Inv) (hn : w.RelaysNamed)
    (hown : ∀ b, b = .relayThen a ∨ b = .relayError a → w.OwnPending b) {l : LoopId}
    (hl : w.running l = some a)
    (hret : (w.action a).cls.ret = .futureValue ∨ (w.action a).cls.ret = .futureVoid) {w' : World V}
    (hstep : NodeNative.step uv w (.ret l (.future g)) = some w') : w'.Relays g a := by
  have hinv' := (step_inv huv h hstep).1
  have hnamed' := hn.step huv h hstep
  have hcall : ∀ b, ¬ (Label.ret l (.future g) : Label V).Settles b := fun _ hset => hset
  have hown' : ∀ b, b = .relayThen a ∨ b = .relayError a → w'.OwnPending b := fun b hb =>
    (hown b hb).step huv h hn (hcall b) hstep
  obtain ⟨hg, rfl⟩ := step_ret_future huv h hl hret hstep
  obtain ⟨-, r₀, hx, -⟩ := h.running l a hl
  have hrelayed := (h.left l).relays_relayed hn (Thread.ofLoop l) hg (World.mem_executedIds hx)
    (h.left_not_running hl) (h.relays_new hl)
  exact hrelayed.extends hinv' hnamed' { World.Extends.refl _ with } (fun _ _ hreg => hreg) hown'

end

end NodeNative
