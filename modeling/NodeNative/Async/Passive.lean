import NodeNative.Async.Settlement

/-!
# Futures without an action

The future of a promise, or of a worker, is not that of an action: it is never in flight and never
registered (`World.Passive`), so no step executes it, and no step settles it or relays to it but a
call on it.
-/

namespace NodeNative

section
variable {V : Type} {uv : UvAsync} {w : World V} {a : NodeId}

/-- The future exists, and nothing has made an action of it. -/
structure World.Passive (w : World V) (a : NodeId) : Prop where
  created : a ∈ w.created
  pending : a ∉ w.pending
  actions : ∀ f, a ∉ (w.futures f).actions
  post : .post a ∉ w.created
  push : ∀ f, (w.action (.post a)).f ≠ .push f a

/-- A future that has just been created. -/
theorem World.Inv.passive_createFuture (h : w.Inv) {n : Nat} (hn : .user n ∉ w.created) (l : LoopId)
    (isVoid : Bool) : (w.createFuture (.user n) l isVoid).Passive (.user n) := by
  obtain ⟨hp, -, hreg, -⟩ := h.fresh hn
  refine ⟨.head _, hp, fun f hf => ?_, fun hpost => ?_, fun f hf => ?_⟩
  · by_cases hfn : f = .user n
    · subst hfn
      simp [World.createFuture, World.setFuture] at hf
    · refine hreg f ?_
      simpa [World.createFuture, World.setFuture, hfn] using hf
  · rcases List.mem_cons.mp hpost with hpost | hpost
    · cases hpost
    · exact hn (h.created_post _ hpost)
  · exact hn (h.push _ f _ hf).2.2.1

/-- Calls of the API keep it so. -/
theorem World.Passive.updates (hinv : w.Inv) (h : w.Passive a) {t : Thread} {may : NodeId → Prop}
    {s : World V} (hu : w.Updates t may s) : s.Passive a := by
  induction hu with
  | refl => exact h
  | @settled s hu f _ _ _ _ r ih =>
    refine ⟨ih.created, fun hp => ?_, fun g hg => ?_, ih.post, fun g hg => ?_⟩
    · exact (List.mem_append.mp hp).elim ih.pending (ih.actions f)
    · rw [World.settled_actions] at hg
      exact ih.actions g hg
    · refine ih.push g ?_
      rw [← hg]
      show _ = (if _ then (s.action _).sent r else s.action _).f
      split <;> rfl
  | @promise s hu n hn l isVoid ih =>
    refine ⟨.tail _ ih.created, ih.pending, fun g hg => ?_, fun hp => ?_, ih.push⟩
    · by_cases hgn : g = .user n
      · subst hgn
        simp [World.createFuture, World.setFuture] at hg
      · refine ih.actions g ?_
        simpa [World.createFuture, World.setFuture, hgn] using hg
    · rcases List.mem_cons.mp hp with hp | hp
      · cases hp
      · exact ih.post hp
  | @asynced s hu n hn l R ih =>
    have hne : a ≠ .user n := fun hne => hn (hne ▸ ih.created)
    refine ⟨.tail _ ih.created, ?_, fun g hg => ?_, fun hp => ?_, fun g hg => ?_⟩
    · show a ∉ s.pending ++ [NodeId.user n]
      simp [ih.pending, hne]
    · by_cases hgn : g = .user n
      · subst hgn
        simp [World.asynced] at hg
      · refine ih.actions g ?_
        simpa [World.asynced, hgn] using hg
    · rcases List.mem_cons.mp hp with hp | hp
      · cases hp
      · exact ih.post hp
    · refine ih.push g ?_
      simpa [World.asynced] using hg
  | @registered s hu f n hf hn cls cb hpost hcb _ _ ih =>
    have hne : a ≠ n := fun hne => hn (hne ▸ ih.created)
    have hpn : NodeId.post a ≠ n := (hpost a).symm
    have hpp : NodeId.post a ≠ .post n := fun hpp => hne (by injection hpp)
    refine ⟨?_, fun hp => ?_, fun g hg => ?_, fun hp => ?_, fun g hg => ?_⟩
    · rw [World.registered_created]
      split <;> simp [ih.created]
    · rcases s.registered_pending t f n cls cb hp with hp | rfl | rfl
      · exact ih.pending hp
      · exact hne rfl
      · exact hn ((hu.called hinv).inv.created_post n ih.created)
    · rcases s.registered_actions t f n cls cb hg with hg | rfl
      · exact ih.actions g hg
      · exact hne rfl
    · rw [World.registered_created] at hp
      refine ih.post ?_
      split at hp <;> simpa [hpn, hpp] using hp
    · rw [World.registered_f hpn hpp] at hg
      exact ih.push g hg
  | @posted s hu f b hb _ _ _ _ ih =>
    have hne : a ≠ b := by
      rintro rfl
      exact ih.push f hb
    refine ⟨by simpa using ih.created, fun hp => ?_, fun g hg => ?_, by simpa using ih.post,
      fun g hg => ?_⟩
    · rw [World.pushed_pending] at hp
      split at hp
      · exact (List.mem_append.mp hp).elim ih.pending (by simpa using hne)
      · exact ih.pending hp
    · rw [World.pushed_futures] at hg
      split at hg
      · rename_i hgf
        subst hgf
        exact (List.mem_append.mp hg).elim (ih.actions g) (by simpa using hne)
      · exact ih.actions g hg
    · refine ih.push g ?_
      rw [← hg, World.pushed_action]
      split
      · split <;> rfl
      · rfl

/-- So does every step. -/
theorem World.Passive.step (huv : uv.Ok) (hinv : w.Inv) (h : w.Passive a) {lab : Label V}
    {w' : World V} (hstep : NodeNative.step uv w lab = some w') : w'.Passive a := by
  refine step_keeps huv hinv (I := fun s => s.Passive a)
    (fun s _ _ _ hs => ⟨hs.created, hs.pending, hs.actions, hs.post, hs.push⟩)
    (fun hs hp hu => hp.updates hs hu) (fun b r _ => ?_) (fun b _ => ?_) h hstep
  · exact ⟨h.created, fun hp => h.pending (List.mem_of_mem_erase hp), h.actions, h.post, h.push⟩
  · refine ⟨h.created, h.pending, h.actions, h.post, fun f hf => h.push f ?_⟩
    rw [← hf, (w.closed_action b _).2]

/-- No step executes it. -/
theorem World.Passive.step_executedIds (huv : uv.Ok) (hinv : w.Inv) (h : w.Passive a)
    {lab : Label V} {w' : World V} (hstep : NodeNative.step uv w lab = some w')
    (hx : a ∈ w'.executedIds) : a ∈ w.executedIds := by
  obtain ⟨r, hr⟩ := World.mem_executedIds_iff.mp hx
  rcases step_executed huv hinv hstep hr with hr | ⟨-, hp, -⟩
  · exact World.mem_executedIds hr
  · exact absurd hp h.pending

section
variable (hnew : ∀ b, b = .relayThen a ∨ b = .relayError a → b ∉ w.created)
  (hrun : ∀ l, w.running l ≠ some a)
include hnew hrun

/-- As long as it has no relays, a step creates none. -/
theorem World.Passive.step_relays (huv : uv.Ok) (hinv : w.Inv) (hn : w.RelaysNamed)
    (h : w.Passive a) {lab : Label V} {w' : World V} (hstep : NodeNative.step uv w lab = some w') :
    (∀ b, b = .relayThen a ∨ b = .relayError a → b ∉ w'.created) ∧ ∀ l, w'.running l ≠ some a := by
  have hfire : lab ≠ .fire a := by
    rintro rfl
    exact h.pending (step_fire_enabled hstep).1
  refine ⟨fun b hb => ?_, fun l hl => ?_⟩
  · exact step_relays_created huv hinv hn hstep hfire (fun l _ _ => hrun l) hnew hb
  · rcases step_running huv hinv hstep hl with ⟨hl, -⟩ | ⟨hf, -⟩
    · exact hrun l hl
    · exact hfire hf

/-- And it is settled only by a call on it. -/
theorem World.Passive.step_resolver (huv : uv.Ok) (hinv : w.Inv) (hn : w.RelaysNamed)
    (h : w.Passive a) {lab : Label V} (hlab : ¬ lab.Settles a) {w' : World V}
    (hstep : NodeNative.step uv w lab = some w') :
    (w'.futures a).resolver = (w.futures a).resolver := by
  cases hr : (w.futures a).resolver with
  | some r => exact (step_inv huv hinv hstep).2.resolver a r hr
  | none =>
    by_contra hsome
    rcases step_settles huv hinv hstep hr hsome with hset | ⟨b, rfl, hb, -⟩ | ⟨l, r, -, hl⟩
    · exact hlab hset
    · have hp := (step_fire_enabled hstep).1
      rcases hb with rfl | hb
      · exact h.pending hp
      · exact hnew b (hn b a hb) (hinv.created_pending b hp)
    · exact hrun l hl

end

end

end NodeNative
