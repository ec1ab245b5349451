import NodeNative.Async.Relays

/-!
# Adoption of a future of the same loop

When the returned future belongs to the loop of the action's own future, its relays settle the
latter: with a value by the first one, with an error by the second (`World.Adopted`). When no handle
is in flight the two futures have one outcome (`World.Adopted.outcome`).
-/

namespace NodeNative

open Transition

section
variable {V : Type} {uv : UvAsync} {w : World V} {g a : NodeId}

/-- No object is its own first relay, -/
theorem NodeId.relayThen_ne : ∀ a : NodeId, .relayThen a ≠ a
  | .user _, h => nomatch h
  | .relayThen a, h => NodeId.relayThen_ne a (by injection h)
  | .relayError _, h => nomatch h
  | .post _, h => nomatch h

/-- nor its own second one. -/
theorem NodeId.relayError_ne : ∀ a : NodeId, .relayError a ≠ a
  | .user _, h => nomatch h
  | .relayThen _, h => nomatch h
  | .relayError a, h => NodeId.relayError_ne a (by injection h)
  | .post _, h => nomatch h

/-- The future of `a` adopts the outcome of the future `g` of its loop, as far as the relays were
executed. -/
structure World.Adopted (w : World V) (g a : NodeId) : Prop where
  relays : w.Relays g a
  loop : (w.futures g).loop = (w.futures a).loop
  waiting : .relayThen a ∉ w.executedIds → (w.futures a).resolver = none
  value : ∀ p, (.relayThen a, .value p) ∈ w.executed →
    (w.futures a).resolver = some (.value p) ∧
      (w.futures (.relayThen a)).resolver = some (.value none)
  error : ∀ e, (.relayThen a, .error e) ∈ w.executed →
    (w.futures (.relayThen a)).resolver = some (.error e) ∧
      (.relayError a ∉ w.executedIds → (w.futures a).resolver = none)
  relayed : ∀ e, (.relayError a, .error e) ∈ w.executed →
    (w.futures a).resolver = some (.error e)

/-- When no handle is in flight the outcome is adopted. -/
theorem World.Adopted.outcome (h : w.Adopted g a) (hp : w.pending = []) :
    (w.futures a).resolver = (w.futures g).resolver := by
  cases hg : (w.futures g).resolver with
  | none => exact h.waiting (h.relays.waiting hg).1
  | some r =>
    have hthen := h.relays.inv.registered_executed hp h.relays.onReturned hg
    cases r with
    | value p => exact (h.value p hthen).1
    | error e =>
      have herror := h.relays.inv.registered_executed hp h.relays.onThen (h.error e hthen).1
      exact h.relayed e herror

/-- Nothing happened to the future and its relays. -/
theorem World.Adopted.kept (h : w.Adopted g a) {w' : World V} (hrelays : w'.Relays g a)
    (hext : w.Extends w') (hres : (w'.futures a).resolver = (w.futures a).resolver)
    (hexec : ∀ b, b = .relayThen a ∨ b = .relayError a → ∀ r, (b, r) ∈ w'.executed →
      (b, r) ∈ w.executed) : w'.Adopted g a := by
  refine ⟨hrelays, ?_, ?_, ?_, ?_, ?_⟩
  · rw [(hext.future g h.relays.created).1, (hext.future a h.relays.created_self).1]
    exact h.loop
  · intro hx
    rw [hres]
    exact h.waiting fun hx' => hx (hext.executedIds hx')
  · intro p hx
    obtain ⟨ha, hthen⟩ := h.value p (hexec _ (.inl rfl) _ hx)
    exact ⟨hext.resolver _ _ ha, hext.resolver _ _ hthen⟩
  · intro e hx
    obtain ⟨hthen, ha⟩ := h.error e (hexec _ (.inl rfl) _ hx)
    refine ⟨hext.resolver _ _ hthen, fun hx' => ?_⟩
    rw [hres]
    exact ha fun hxe => hx' (hext.executedIds hxe)
  · intro e hx
    exact hext.resolver _ _ (h.relayed e (hexec _ (.inr rfl) _ hx))

/-- The adoption after the two relays were registered. -/
theorem World.Relays.adopted (h : w.Relays g a) (hloop : (w.futures g).loop = (w.futures a).loop)
    (hnone : (w.futures a).resolver = none)
    (hnew : ∀ b, b = .relayThen a ∨ b = .relayError a → b ∉ w.executedIds) : w.Adopted g a :=
  ⟨h, hloop, fun _ => hnone, fun _ hx => absurd (World.mem_executedIds hx) (hnew _ (.inl rfl)),
    fun _ hx => absurd (World.mem_executedIds hx) (hnew _ (.inl rfl)),
    fun _ hx => absurd (World.mem_executedIds hx) (hnew _ (.inr rfl))⟩

/-! ## The steps -/

/-- The second relay is not executed before the first one is. -/
theorem World.Relays.error_waiting (h : w.Relays g a) (hx : .relayThen a ∉ w.executedIds) :
    .relayError a ∉ w.executedIds :=
  h.inv.registered_waiting h.onThen (h.own _ (.inl rfl) (.inl hx))

/-- The first relay fires: with a value it settles the future, and with an error its own. -/
theorem World.Adopted.fire_then (huv : uv.Ok) (h : w.Adopted g a) {w' : World V}
    (hrelays : w'.Relays g a) (hstep : NodeNative.step uv w (.fire (.relayThen a)) = some w') :
    w'.Adopted g a := by
  have hinv := h.relays.inv
  have hp := (step_fire_enabled hstep).1
  obtain ⟨r, hs⟩ := hinv.sent _ hp
  obtain ⟨-, hf, hbl, hbfl⟩ := h.relays.relays _ (.inl rfl)
  have hx := hinv.not_executed _ hp
  have hnone := h.relays.own _ (.inl rfl) (.inl hx)
  have ha := h.waiting hx
  have hxe := h.relays.error_waiting hx
  have hext := (step_inv huv hinv hstep).2
  have hloop : (w'.futures g).loop = (w'.futures a).loop := by
    rw [(hext.future g h.relays.created).1, (hext.future a h.relays.created_self).1]
    exact h.loop
  have hexec : ∀ b r', (b, r') ∈ (w.started (.relayThen a) r).executed →
      (b, r') ∈ w.executed ∨ b = .relayThen a ∧ r' = r := by
    intro b r' hb
    refine (List.mem_append.mp hb).imp_right fun hlast => ?_
    cases List.mem_singleton.mp hlast
    exact ⟨rfl, rfl⟩
  have hmem : .relayThen a ∈ (w.started (.relayThen a) r).executedIds := by simp
  cases r with
  | value p =>
    obtain rfl := step_fire_relay huv hinv hs hp (h.relays.then_passes _) hf (hbfl.trans hbl.symm)
      hnone (h.loop.symm.trans hbl.symm) ha (NodeId.relayThen_ne a) hstep
    refine ⟨hrelays, hloop, fun hw => absurd hmem hw, ?_, ?_, ?_⟩
    · intro p' hb
      rcases hexec _ _ hb with hb | ⟨-, hp'⟩
      · exact absurd (World.mem_executedIds hb) hx
      · cases hp'
        show (((w.started _ _).settled a _).settled _ _ |>.futures a).resolver = _ ∧
          (((w.started _ _).settled a _).settled _ _ |>.futures (.relayThen a)).resolver = _
        simp [(NodeId.relayThen_ne a).symm]
    · intro e hb
      rcases hexec _ _ hb with hb | ⟨-, hp'⟩
      · exact absurd (World.mem_executedIds hb) hx
      · cases hp'
    · intro e hb
      rcases hexec _ _ hb with hb | ⟨hne, -⟩
      · exact absurd (World.mem_executedIds hb) hxe
      · cases hne
  | error e =>
    obtain rfl := step_fire_passes huv hinv hs hp (h.relays.then_passes _) (hbfl.trans hbl.symm)
      hnone hstep
    refine ⟨hrelays, hloop, fun hw => absurd hmem hw, ?_, ?_, ?_⟩
    · intro p hb
      rcases hexec _ _ hb with hb | ⟨-, hp'⟩
      · exact absurd (World.mem_executedIds hb) hx
      · cases hp'
    · intro e' hb
      rcases hexec _ _ hb with hb | ⟨-, hp'⟩
      · exact absurd (World.mem_executedIds hb) hx
      · cases hp'
        refine ⟨?_, fun _ => ?_⟩
        · exact (World.settled_resolver _ _ _ _).trans (if_pos rfl)
        · exact (World.settled_resolver _ _ _ _).trans
            ((if_neg (NodeId.relayThen_ne a).symm).trans ha)
    · intro e' hb
      rcases hexec _ _ hb with hb | ⟨hne, -⟩
      · exact absurd (World.mem_executedIds hb) hxe
      · cases hne

/-- The second relay fires: with an error it settles the future, and with a value its own. -/
theorem World.Adopted.fire_error (huv : uv.Ok) (h : w.Adopted g a) {w' : World V}
    (hrelays : w'.Relays g a) (hstep : NodeNative.step uv w (.fire (.relayError a)) = some w') :
    w'.Adopted g a := by
  have hinv := h.relays.inv
  have hp := (step_fire_enabled hstep).1
  obtain ⟨r, hs⟩ := hinv.sent _ hp
  obtain ⟨-, hf, hbl, hbfl⟩ := h.relays.relays _ (.inr rfl)
  have hx := hinv.not_executed _ hp
  have hnone := h.relays.own _ (.inr rfl) (.inl hx)
  have hext := (step_inv huv hinv hstep).2
  have hloop : (w'.futures g).loop = (w'.futures a).loop := by
    rw [(hext.future g h.relays.created).1, (hext.future a h.relays.created_self).1]
    exact h.loop
  -- It was sent with the settlement of the first relay's future.
  have hthen : (w.futures (.relayThen a)).resolver = some r := by
    have hmem : .relayError a ∈ (w.futures (.relayThen a)).actions :=
      h.relays.onThen.resolve_right fun hpost => (hinv.post_pending _ hpost.1).1 hp
    cases hr : (w.futures (.relayThen a)).resolver with
    | none => exact absurd hp (hinv.waiting _ _ hmem hr).1
    | some r' =>
      rcases hinv.delivered _ _ r' hmem hr with ⟨-, hres⟩ | hbx
      · exact hres.symm.trans hs.resolver
      · exact absurd (World.mem_executedIds hbx) hx
  obtain ⟨r₁, hx₁⟩ : ∃ r₁, (.relayThen a, r₁) ∈ w.executed := by
    rw [← World.mem_executedIds_iff]
    by_contra hxt
    rw [h.relays.own _ (.inl rfl) (.inl hxt)] at hthen
    cases hthen
  have hexec : ∀ b r', (b, r') ∈ (w.started (.relayError a) r).executed →
      (b, r') ∈ w.executed ∨ b = .relayError a ∧ r' = r := by
    intro b r' hb
    refine (List.mem_append.mp hb).imp_right fun hlast => ?_
    cases List.mem_singleton.mp hlast
    exact ⟨rfl, rfl⟩
  have hmem : .relayError a ∈ (w.started (.relayError a) r).executedIds := by simp
  have hthenx : .relayThen a ∈ (w.started (.relayError a) r).executedIds := by
    simp [World.mem_executedIds hx₁]
  have hvalue : ∀ p, (.relayThen a, .value p) ∈ (w.started (.relayError a) r).executed →
      (w'.futures a).resolver = some (.value p) ∧
        (w'.futures (.relayThen a)).resolver = some (.value none) := by
    intro p hb
    rcases hexec _ _ hb with hb | ⟨hne, -⟩
    · obtain ⟨ha, ht⟩ := h.value p hb
      exact ⟨hext.resolver _ _ ha, hext.resolver _ _ ht⟩
    · cases hne
  have herror : ∀ e, (.relayThen a, .error e) ∈ (w.started (.relayError a) r).executed →
      (w'.futures (.relayThen a)).resolver = some (.error e) := by
    intro e hb
    rcases hexec _ _ hb with hb | ⟨hne, -⟩
    · exact hext.resolver _ _ (h.error e hb).1
    · cases hne
  cases r with
  | value q =>
    obtain rfl := step_fire_passes huv hinv hs hp (h.relays.error_passes _) (hbfl.trans hbl.symm)
      hnone hstep
    refine ⟨hrelays, hloop, fun hw => absurd hthenx hw, hvalue,
      fun e hb => ⟨herror e hb, fun hw => absurd hmem hw⟩, ?_⟩
    intro e hb
    rcases hexec _ _ hb with hb | ⟨-, hr⟩
    · exact absurd (World.mem_executedIds hb) hx
    · cases hr
  | error e =>
    have ha : (w.futures a).resolver = none := by
      cases r₁ with
      | value p =>
        rw [(h.value p hx₁).2] at hthen
        cases hthen
      | error e₁ => exact (h.error e₁ hx₁).2 hx
    obtain rfl := step_fire_relay huv hinv hs hp (h.relays.error_passes _) hf (hbfl.trans hbl.symm)
      hnone (h.loop.symm.trans hbl.symm) ha (NodeId.relayError_ne a) hstep
    refine ⟨hrelays, hloop, fun hw => absurd hthenx hw, hvalue,
      fun e hb => ⟨herror e hb, fun hw => absurd hmem hw⟩, ?_⟩
    intro e' hb
    rcases hexec _ _ hb with hb | ⟨-, hr⟩
    · exact absurd (World.mem_executedIds hb) hx
    · cases hr
      show (((w.started _ _).settled a _).settled _ _ |>.futures a).resolver = _
      simp [(NodeId.relayError_ne a).symm]

/-- Every step goes on with the adoption when the program settles neither the future nor those of the
relays itself. -/
theorem World.Adopted.step (huv : uv.Ok) (h : w.Adopted g a) {lab : Label V}
    (hlab : ∀ b, b = a ∨ b = .relayThen a ∨ b = .relayError a → ¬ lab.Settles b) {w' : World V}
    (hstep : NodeNative.step uv w lab = some w') : w'.Adopted g a := by
  have hrelays := h.relays.step huv (fun b hb => hlab b (.inr hb)) hstep
  have hext := (step_inv huv h.relays.inv hstep).2
  by_cases hthen : lab = .fire (.relayThen a)
  · subst hthen
    exact h.fire_then huv hrelays hstep
  by_cases herror : lab = .fire (.relayError a)
  · subst herror
    exact h.fire_error huv hrelays hstep
  refine h.kept hrelays hext ?_ ?_
  · cases hr : (w.futures a).resolver with
    | some r => exact hext.resolver _ _ hr
    | none =>
      by_contra hsome
      obtain ⟨b, rfl | rfl, hfire, -⟩ := h.relays.settles huv (hlab a (.inl rfl)) hstep hr hsome
      · exact hthen hfire
      · exact herror hfire
  · rintro b hb r hx
    refine (step_executed huv h.relays.inv hstep hx).resolve_right ?_
    rintro ⟨hfire, -⟩
    rcases hb with rfl | rfl
    · exact hthen hfire
    · exact herror hfire

/-! ## What a callback leaves -/

/-- The outcome that a callback gives to its future. -/
def CallbackReturn.outcome (w : World V) : CallbackReturn V → Option (FutureSharedResolver V)
  | .value p => some (.value p)
  | .throws e => some (.error e)
  | .raises _ => none
  | .future g => (w.futures g).resolver

/-- The callback of `a` has ended with the result: the future is settled with it, or the outcome of
the returned future is relayed to it and adopted if that belongs to its loop; any other exception has
ended the process. -/
def World.Ended (w : World V) (a : NodeId) : CallbackReturn V → Prop
  | .value p => (w.futures a).resolver = some (.value p)
  | .throws e => (w.futures a).resolver = some (.error e)
  | .raises _ => w.aborted.isSome
  | .future g => w.Relays g a ∧ ((w.futures g).loop = (w.futures a).loop → w.Adopted g a)

/-- What has ended stays so. -/
theorem World.Ended.kept {r : CallbackReturn V} (h : w.Ended a r) {w' : World V}
    (hext : w.Extends w') (haborted : w.aborted.isSome → w'.aborted.isSome)
    (hrelays : ∀ g, w.Relays g a → w'.Relays g a)
    (hadopted : ∀ g, w.Adopted g a → w'.Adopted g a) : w'.Ended a r := by
  cases r with
  | value p => exact hext.resolver _ _ h
  | throws e => exact hext.resolver _ _ h
  | raises m => exact haborted h
  | future g =>
    refine ⟨hrelays g h.1, fun hloop => hadopted g (h.2 ?_)⟩
    rwa [(hext.future g h.1.created).1, (hext.future a h.1.created_self).1] at hloop

/-- A step keeps it when the program settles neither the future nor those of the relays itself. -/
theorem World.Ended.step (huv : uv.Ok) (hinv : w.Inv) {r : CallbackReturn V} (h : w.Ended a r)
    {lab : Label V} (hlab : ∀ b, b = a ∨ b = .relayThen a ∨ b = .relayError a → ¬ lab.Settles b)
    {w' : World V} (hstep : NodeNative.step uv w lab = some w') : w'.Ended a r := by
  refine h.kept (step_inv huv hinv hstep).2 (fun haborted => ?_)
    (fun g hg => hg.step huv (fun b hb => hlab b (.inr hb)) hstep)
    (fun g hg => hg.step huv hlab hstep)
  rw [step_not_aborted hstep] at haborted
  cases haborted

/-- When no handle is in flight, what the callback left is the outcome of the future. -/
theorem World.Ended.outcome {r : CallbackReturn V} (h : w.Ended a r) (hp : w.pending = [])
    (haborted : w.aborted = none)
    (hloop : ∀ g, r = .future g → (w.futures g).loop = (w.futures a).loop) :
    (w.futures a).resolver = r.outcome w := by
  cases r with
  | value p => exact h
  | throws e => exact h
  | raises m =>
    rw [World.Ended, haborted] at h
    cases h
  | future g => exact (h.2 (hloop g rfl)).outcome hp

/-- A value that a class takes as it is. -/
theorem ActionClass.accepts_value {cls : ActionClass} (hcls : cls ≠ .actionCallbackError)
    {p : Option V} (hacc : cls.accepts w (.value p) = true) :
    cls.ret = .value ∨ cls.ret = .void ∧ p = none := by
  unfold ActionClass.accepts at hacc
  cases hc : cls <;> simp_all [ActionClass.ret] <;> tauto

section
variable (huv : uv.Ok) (h : w.Inv) {l : LoopId} (hl : w.running l = some a)
  (hal : (w.futures a).loop = l) (hcls : (w.action a).cls ≠ .actionCallbackError)
include huv h hl hal hcls

/-- A callback of such a class that returns a value or throws a `FutureError` settles its future. -/
theorem step_ret_settles (hnone : (w.futures a).resolver = none) {r : CallbackReturn V} {w' : World V}
    (hstep : step uv w (.ret l r) = some w') (hr : ∀ m, r ≠ .raises m) (hg : ∀ g, r ≠ .future g) :
    ∃ res, r.outcome w = some res ∧ w' = ((w.left l).settled a res).uvClosed a := by
  have hacc := (step_ret_callback h hl hstep).1
  cases r with
  | value p =>
    rcases ActionClass.accepts_value hcls hacc with hret | ⟨hret, rfl⟩
    · exact ⟨_, rfl, step_ret_value huv h hl hret hal hnone hstep⟩
    · exact ⟨_, rfl, step_ret_void huv h hl hret (fun s => ⟨none, rfl⟩) hal hnone hstep⟩
  | throws e => exact ⟨_, rfl, step_ret_throws huv h hl hal hnone hstep⟩
  | raises m => exact absurd rfl (hr m)
  | future g => exact absurd rfl (hg g)

/-- A callback whose class takes its result as it is returns. -/
theorem step_ret_ended (hn : w.RelaysNamed)
    (hown : ∀ b, b = a ∨ b = .relayThen a ∨ b = .relayError a → w.OwnPending b) {r : CallbackReturn V}
    {w' : World V} (hstep : step uv w (.ret l r) = some w') : w'.Ended a r := by
  have hacc := (step_ret_callback h hl hstep).1
  have hnone := hown a (.inl rfl) (.inr ⟨l, hl⟩)
  have hset : ∀ r', (((w.left l).settled a r').uvClosed a |>.futures a).resolver = some r' :=
    fun r' => (World.settled_resolver (w.left l) a a r').trans (if_pos rfl)
  cases r with
  | value p =>
    obtain ⟨res, hres, rfl⟩ := step_ret_settles huv h hl hal hcls hnone hstep (by simp) (by simp)
    cases hres
    exact hset _
  | throws e =>
    obtain ⟨res, hres, rfl⟩ := step_ret_settles huv h hl hal hcls hnone hstep (by simp) (by simp)
    cases hres
    exact hset _
  | raises m =>
    rw [step_ret_raises h hl hstep]
    rfl
  | future g =>
    have hret : (w.action a).cls.ret = .futureValue ∨ (w.action a).cls.ret = .futureVoid := by
      simp only [ActionClass.accepts, Bool.and_eq_true, Bool.or_eq_true, decide_eq_true_eq] at hacc
      rcases hacc.2 with (hc | hc) | hc
      · exact absurd hc hcls
      · exact .inl hc.1
      · exact .inr hc.1
    obtain ⟨hg, hres, hexecuted⟩ := step_ret_future_settles huv h hl hret hstep
    have hrelays := h.relays_ret huv hn (fun b hb => hown b (.inr hb)) hl hret hstep
    refine ⟨hrelays, fun hloop => hrelays.adopted hloop ((hres a).trans hnone) ?_⟩
    intro b hb hx
    rw [World.executedIds, hexecuted] at hx
    exact h.relays_new hl b hb (h.created_executed b hx)

end

/-! ## The future of `async` -/

/-- The node `n` was created by `async` on the loop `l`, and its callable ends with `r`: the action
waits for the loop, runs, or has ended. -/
structure World.OfAsync (w : World V) (l : LoopId) (n : Nat) (r : CallbackReturn V) : Prop where
  created : .user n ∈ w.created
  cls : ∃ R, (w.action (.user n)).cls = .actionCallback R
  f : (w.action (.user n)).f = .user
  loops : (w.action (.user n)).loop = l ∧ (w.futures (.user n)).loop = l
  own : ∀ b, b = .user n ∨ b = .relayThen (.user n) ∨ b = .relayError (.user n) → w.OwnPending b
  stage : (.user n ∈ w.pending ∧ (w.action (.user n)).resolver = some (.value none)) ∨
    w.running l = some (.user n) ∨ w.Ended (.user n) r

/-- A later state, in which the action is at a known stage. -/
theorem World.OfAsync.extends {l : LoopId} {n : Nat} {r : CallbackReturn V} (h : w.OfAsync l n r)
    {w' : World V} (hext : w.Extends w')
    (hown : ∀ b, b = .user n ∨ b = .relayThen (.user n) ∨ b = .relayError (.user n) →
      w'.OwnPending b)
    (hstage : (.user n ∈ w'.pending ∧ (w'.action (.user n)).resolver = some (.value none)) ∨
      w'.running l = some (.user n) ∨ w'.Ended (.user n) r) : w'.OfAsync l n r := by
  obtain ⟨hl, hcls, hf⟩ := hext.action _ h.created
  refine ⟨hext.created _ h.created, ?_, hf.trans h.f, ⟨hl.trans h.loops.1, ?_⟩, hown, hstage⟩
  · rw [hcls]
    exact h.cls
  · exact (hext.future _ h.created).1.trans h.loops.2

/-- The call of `async`. -/
theorem World.OfAsync.start (huv : uv.Ok) (h : w.Inv) {l : LoopId} {n : Nat} {R : RetType}
    (r : CallbackReturn V) {w' : World V} (hstep : step uv w (.async l n R) = some w') :
    w'.OfAsync l n r := by
  have hinv' := (step_inv huv h hstep).1
  obtain ⟨hn, rfl⟩ := step_async huv hstep
  have hpending : .user n ∈ (w.asynced l (.user n) R .user).pending := by simp [World.asynced]
  have hfut : ((w.asynced l (.user n) R .user).futures (.user n)).resolver = none := by
    simp [World.asynced]
  refine ⟨.head _, ⟨R, by simp [World.asynced, Action.sent]⟩, by simp [World.asynced, Action.sent],
    ⟨by simp [World.asynced, Action.sent], by simp [World.asynced]⟩, ?_,
    .inl ⟨hpending, by simp [World.asynced, Action.sent]⟩⟩
  have hnew : ∀ b, b = .relayThen (.user n) ∨ b = .relayError (.user n) →
      b ∉ (w.asynced l (.user n) R .user).created := by
    intro b hb hmem
    refine hinv'.not_executed _ hpending (hinv'.created_relay (.user n) ?_).1
    rcases hb with rfl | rfl
    · exact .inl hmem
    · exact .inr hmem
  rintro b (rfl | hb) _
  · exact hfut
  · exact (hinv'.created_future b (hnew b hb)).1

/-- A step of the core, in which the callable of the node ends with `r` if it ends. -/
theorem World.OfAsync.step (huv : uv.Ok) (hinv : w.Inv) (hn : w.RelaysNamed) {l : LoopId} {n : Nat}
    {r : CallbackReturn V} (h : w.OfAsync l n r) {lab : Label V}
    (hlab : ∀ b, b = .user n ∨ b = .relayThen (.user n) ∨ b = .relayError (.user n) →
      ¬ lab.Settles b)
    (hret : ∀ l' r', lab = .ret l' r' → w.running l' = some (.user n) → r' = r) {w' : World V}
    (hstep : NodeNative.step uv w lab = some w') : w'.OfAsync l n r := by
  have hext := (step_inv huv hinv hstep).2
  refine h.extends hext (fun b hb => (h.own b hb).step huv hinv hn (hlab b hb) hstep) ?_
  obtain ⟨R, hcls⟩ := h.cls
  rcases h.stage with ⟨hp, hres⟩ | hrun | hended
  · by_cases hfire : lab = .fire (.user n)
    · subst hfire
      obtain ⟨r₀, hs⟩ := hinv.sent _ hp
      have hr₀ : r₀ = .value none := Option.some.inj (hs.resolver.symm.trans hres)
      subst hr₀
      have hpass : (w.action (.user n)).cls.passes (.value none : FutureSharedResolver V) = false := by
        rw [hcls]
        rfl
      obtain rfl := step_fire_user hs hpass h.f hstep
      refine .inr (.inl ?_)
      show Function.update w.running (w.action (.user n)).loop _ l = _
      rw [h.loops.1, Function.update_self]
    · obtain ⟨hp', hact⟩ := step_pending huv hinv hstep hp hfire
      exact .inl ⟨hp', hact ▸ hres⟩
  · by_cases hr : ∃ r', lab = .ret l r'
    · obtain ⟨r', rfl⟩ := hr
      cases hret l r' rfl hrun
      exact .inr (.inr (step_ret_ended huv hinv hrun h.loops.2 (by simp [hcls]) hn h.own hstep))
    · exact .inr (.inl (step_running_stays huv hinv hstep hrun fun r' hr' => hr ⟨r', hr'⟩))
  · exact .inr (.inr (hended.step huv hinv hlab hstep))

/-- Nothing runs and no handle is in flight: the callable has ended. -/
theorem World.OfAsync.ended {l : LoopId} {n : Nat} {r : CallbackReturn V} (h : w.OfAsync l n r)
    (hp : w.pending = []) (hrun : ∀ l, w.running l = none) : w.Ended (.user n) r := by
  rcases h.stage with ⟨hmem, -⟩ | hl | hended
  · rw [hp] at hmem
    cases hmem
  · rw [hrun l] at hl
    cases hl
  · exact hended

end

end NodeNative
