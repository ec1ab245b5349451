import NodeNative.Async.Adopted

/-!
# Chains of `then`

A program may register a callback with `then`, another one with `then` on the future that it gets, and
so on, all on one loop, and each callback may return a future. `World.Chain` describes such a chain:
the nodes of its actions and the futures that the callbacks have returned so far. The callbacks are
called in the order of the chain, each when the future before its action is resolved
(`World.Chain.called`). When nothing is left to do, the last future has the outcome of the future that
was returned last (`World.Chain.outcome`).
-/

namespace NodeNative

section
variable {V : Type} {uv : UvAsync} {w w' : World V} {l : LoopId} {f g a : NodeId} {n : Nat}

/-- An executed action was registered on a future that is settled with the same. -/
theorem World.Inv.registered_source (h : w.Inv) (hreg : w.Registered f a)
    {r : FutureSharedResolver V} (hx : (a, r) ∈ w.executed) : (w.futures f).resolver = some r := by
  rcases hreg with hmem | ⟨hpost, -⟩
  · exact h.delivered_source (.inl hx) hmem
  · exact absurd (World.mem_executedIds hx) (h.post_pending a hpost).2.1

/-- What has been adopted is the outcome of the returned future. -/
theorem World.Adopted.source (h : w.Adopted g a) {r : FutureSharedResolver V}
    (hr : (w.futures a).resolver = some r) : (w.futures g).resolver = some r := by
  have hinv := h.relays.inv
  have hthen : .relayThen a ∈ w.executedIds := by
    by_contra hx
    rw [h.waiting hx] at hr
    cases hr
  obtain ⟨r₁, hx₁⟩ := World.mem_executedIds_iff.mp hthen
  rw [hinv.registered_source h.relays.onReturned hx₁]
  cases r₁ with
  | value p => exact (h.value p hx₁).1.symm.trans hr
  | error e =>
    obtain ⟨hres, hnone⟩ := h.error e hx₁
    have herror : .relayError a ∈ w.executedIds := by
      by_contra hx
      rw [hnone hx] at hr
      cases hr
    obtain ⟨r₂, hx₂⟩ := World.mem_executedIds_iff.mp herror
    cases (hinv.registered_source h.relays.onThen hx₂).symm.trans hres
    exact (h.relayed e hx₂).symm.trans hr

/-! ## The future of `then` -/

/-- The future of the node and those of the relays to it. -/
def NodeId.OfNode (n : Nat) (b : NodeId) : Prop :=
  b = .user n ∨ b = .relayThen (.user n) ∨ b = .relayError (.user n)

/-- The node was registered on `f` with `then`, on the loop `l`. -/
structure World.OfThen (w : World V) (l : LoopId) (f : NodeId) (n : Nat) : Prop where
  created : .user n ∈ w.created
  cls : ∃ R, (w.action (.user n)).cls = .actionCallback R ∨
    (w.action (.user n)).cls = .actionCallbackP1 R
  callback : (w.action (.user n)).f = .user
  loops : (w.action (.user n)).loop = l ∧ (w.futures (.user n)).loop = l
  registered : w.Registered f (.user n)
  own : ∀ b, b.OfNode n → w.OwnPending b

/-- The callback of the node has not returned: its action waits for its future, its callback is on the
stack, or it has handed on an error. -/
inductive World.Unreturned (w : World V) (l : LoopId) (n : Nat) : Prop
  | waiting (hx : .user n ∉ w.executedIds)
  | running (p : Option V) (hrun : w.running l = some (.user n))
      (hx : (.user n, .value p) ∈ w.executed)
  | passed (e : FutureError) (hx : (.user n, .error e) ∈ w.executed)
      (hres : (w.futures (.user n)).resolver = some (.error e))

/-- The action hands errors on. -/
theorem World.OfThen.passes (h : w.OfThen l f n) (r : FutureSharedResolver V) :
    (w.action (.user n)).cls.passes r = r.isError := by
  obtain ⟨R, hcls | hcls⟩ := h.cls
  · rw [hcls]
    rfl
  · rw [hcls]
    rfl

/-- A call that registers the node leaves its futures pending. -/
theorem World.Inv.registered_node (h : w.Inv) (hf : f ∈ w.created) (hn : .user n ∉ w.created)
    (t : Thread) (cls : ActionClass) : let w' := w.registered t f (.user n) cls .user
    w.Extends w' ∧ .user n ∈ w'.created ∧ .user n ∉ w'.executedIds ∧
      ∀ b : NodeId, b.OfNode n → w'.OwnPending b := by
  have hc : w.Called (w.registered t f (.user n) cls .user) :=
    h.called_registered hf hn t cls (by simp) (by simp) (by simp) (by simp)
  have hpost : .post (.user n) ∉ w.created := fun hp => hn (h.created_post _ hp)
  have hnew : ∀ b : NodeId, b.OfNode n → b ∉ w.created := by
    rintro b (rfl | rfl | rfl) hb
    · exact hn hb
    · exact hn (h.created_executed _ (h.created_relay _ (.inl hb)).1)
    · exact hn (h.created_executed _ (h.created_relay _ (.inr hb)).1)
  refine ⟨hc.extend, ?_, fun hx => ?_, fun b hb _ => ?_⟩
  · rw [World.registered_created]
    split <;> simp
  · rw [World.executedIds, hc.executed] at hx
    exact hn (h.created_executed _ hx)
  · rw [w.registered_resolver t _ _ _ _ (h.created_future _ hn).1 (h.created_future _ hpost).1]
    exact (h.created_future b (hnew b hb)).1

/-- The call of `then`. -/
theorem World.OfThen.start (huv : uv.Ok) (h : w.Inv) {t : Thread} {R : RetType}
    (hl : (w.futures f).loop = l) (hstep : step uv w (.thenCb t f n R) = some w') :
    w'.OfThen l f n ∧ w'.Unreturned l n := by
  obtain ⟨hf, hn, rfl⟩ := step_thenCb huv hstep
  obtain ⟨hloop, hcls, hcb⟩ := w.registered_action t f (.user n) ((w.futures f).thenClass R) .user
  obtain ⟨-, hc, hx, hown⟩ := h.registered_node hf hn t ((w.futures f).thenClass R)
  refine ⟨⟨hc, ?_, hcb, ⟨hloop.trans hl, ?_⟩, w.registered_registered hf hn t _ .user, hown⟩,
    .waiting hx⟩
  · rw [hcls]
    unfold FutureShared.thenClass
    split
    · exact ⟨R, .inl rfl⟩
    · exact ⟨R, .inr rfl⟩
  · exact (World.registered_future ..).1.trans hl

section
variable (huv : uv.Ok) (hinv : w.Inv) (h : w.OfThen l f n) {lab : Label V}
  (hstep : step uv w lab = some w')
include huv hinv h hstep

/-- A step that does not settle these futures keeps the registration. -/
theorem World.OfThen.step (hn : w.RelaysNamed) (hlab : ∀ b : NodeId, b.OfNode n → ¬ lab.Settles b) :
    w'.OfThen l f n := by
  have hext := (step_inv huv hinv hstep).2
  obtain ⟨hl, hcls, hf⟩ := hext.action _ h.created
  refine ⟨hext.created _ h.created, ?_, hf.trans h.callback, ⟨hl.trans h.loops.1, ?_⟩, ?_, ?_⟩
  · rw [hcls]
    exact h.cls
  · exact (hext.future _ h.created).1.trans h.loops.2
  · exact step_registered huv hinv hstep h.registered
  · exact fun b hb => (h.own b hb).step huv hinv hn (hlab b hb) hstep

/-- When its action fires, the callback is called with a value, and an error is handed on. -/
theorem World.Unreturned.step (hu : w.Unreturned l n)
    (hret : ∀ r, lab = .ret l r → w.running l ≠ some (.user n)) : w'.Unreturned l n := by
  have hext := (step_inv huv hinv hstep).2
  cases hu with
  | waiting hx =>
    by_cases hfire : lab = .fire (.user n)
    · subst hfire
      have hp := (step_fire_enabled hstep).1
      obtain ⟨r, hs⟩ := hinv.sent _ hp
      have hstarted : (NodeId.user n, r) ∈ (w.started (.user n) r).executed := by
        simp [World.started]
      cases r with
      | value p =>
        obtain rfl := step_fire_user hs (h.passes _) h.callback hstep
        refine .running p ?_ hstarted
        show Function.update w.running (w.action (.user n)).loop _ l = _
        rw [h.loops.1, Function.update_self]
      | error e =>
        obtain rfl := step_fire_passes huv hinv hs hp (h.passes _) (h.loops.2.trans h.loops.1.symm)
          (h.own _ (.inl rfl) (.inl hx)) hstep
        exact .passed e hstarted ((World.settled_resolver ..).trans (if_pos rfl))
    · refine .waiting fun hx' => ?_
      obtain ⟨r, hr⟩ := World.mem_executedIds_iff.mp hx'
      rcases step_executed huv hinv hstep hr with hr | ⟨hf, -⟩
      · exact hx (World.mem_executedIds hr)
      · exact hfire hf
  | running p hrun hx =>
    exact .running p (step_running_stays huv hinv hstep hrun fun r hr => hret r hr hrun)
      (hext.executed _ hx)
  | passed e hx hres => exact .passed e (hext.executed _ hx) (hext.resolver _ _ hres)

end

/-- As long as its callback has not returned, the future of the node has no value. -/
theorem World.Unreturned.no_value (hu : w.Unreturned l n) (h : w.OfThen l f n) (p : Option V) :
    (w.futures (.user n)).resolver ≠ some (.value p) := by
  intro hp
  have hpending : w.OwnPending (.user n) := h.own _ (.inl rfl)
  cases hu with
  | waiting hx =>
    rw [hpending (.inl hx)] at hp
    cases hp
  | running p' hrun hx =>
    rw [hpending (.inr ⟨l, hrun⟩)] at hp
    cases hp
  | passed e hx hres => cases hres.symm.trans hp

/-- A callback on the stack was called when its future was resolved. -/
theorem World.Unreturned.source_value (hu : w.Unreturned l n) (hinv : w.Inv) (h : w.OfThen l f n)
    (hrun : w.running l = some (.user n)) : ∃ p, (w.futures f).resolver = some (.value p) := by
  cases hu with
  | waiting hx =>
    obtain ⟨-, r, hr, -⟩ := hinv.running l _ hrun
    exact absurd (World.mem_executedIds hr) hx
  | running p _ hx => exact ⟨p, hinv.registered_source h.registered hx⟩
  | passed e _ hres =>
    rw [h.own _ (.inl rfl) (.inr ⟨l, hrun⟩)] at hres
    cases hres

/-- When nothing is left to do, its future is that of the one it was registered on, which has no
value. -/
theorem World.Unreturned.outcome (hu : w.Unreturned l n) (hinv : w.Inv) (h : w.OfThen l f n)
    (hp : w.pending = []) (hrun : w.running l = none) :
    (w.futures (.user n)).resolver = (w.futures f).resolver ∧
      ∀ p, (w.futures f).resolver ≠ some (.value p) := by
  cases hu with
  | waiting hx =>
    have hnone : (w.futures f).resolver = none := by
      cases hf : (w.futures f).resolver with
      | none => rfl
      | some r => exact absurd (World.mem_executedIds (hinv.registered_executed hp h.registered hf)) hx
    rw [h.own _ (.inl rfl) (.inl hx), hnone]
    exact ⟨rfl, fun p hp => nomatch hp⟩
  | running p hrun' _ => cases hrun.symm.trans hrun'
  | passed e hx hres =>
    have hf := hinv.registered_source h.registered hx
    rw [hres, hf]
    exact ⟨rfl, fun p hp => nomatch hp⟩

/-! ## The chain -/

/-- The futures of a chain: the one that the first node is registered on, and those of the nodes. -/
def chainFutures (first : NodeId) (names : List Nat) : List NodeId := first :: names.map .user

/-- The nodes were registered with `then`, each on the future before it, and the callbacks of the
first ones have returned these futures. -/
structure World.Chain (w : World V) (l : LoopId) (first : NodeId) (names : List Nat)
    (returned : List NodeId) : Prop where
  inv : w.Inv
  named : w.RelaysNamed
  le : returned.length ≤ names.length
  nodup : names.Nodup
  node : ∀ {i n : Nat} {f : NodeId}, (chainFutures first names)[i]? = some f →
    names[i]? = some n → w.OfThen l f n
  ended : ∀ {i n : Nat} {f g : NodeId}, (chainFutures first names)[i]? = some f →
    names[i]? = some n → returned[i]? = some g → w.Ended (.user n) (.future g) ∧
      (w.futures g).loop = l ∧ ∃ p, (w.futures f).resolver = some (.value p)
  unreturned : ∀ {i n : Nat}, names[i]? = some n → returned.length ≤ i → w.Unreturned l n

section
variable {first : NodeId} {names : List Nat} {returned : List NodeId}

/-- The places of the futures of a chain. -/
theorem chainFutures_of_le (first : NodeId) {i : Nat} (hi : i ≤ names.length) :
    ∃ f, (chainFutures first names)[i]? = some f := by
  have hlt : i < (chainFutures first names).length := by
    simp only [chainFutures, List.length_cons, List.length_map]
    omega
  exact ⟨_, List.getElem?_eq_getElem hlt⟩

/-- The future that a node is registered on. -/
theorem chainFutures_of_name (first : NodeId) {i : Nat} (hn : names[i]? = some n) :
    ∃ f, (chainFutures first names)[i]? = some f :=
  chainFutures_of_le first (Nat.le_of_lt (List.getElem?_eq_some_iff.mp hn).1)

/-- The future of a node comes next. -/
theorem chainFutures_succ (first : NodeId) (names : List Nat) (i : Nat) :
    (chainFutures first names)[i + 1]? = names[i]?.map .user := by
  simp [chainFutures]

/-- No callback is registered yet. -/
theorem World.Inv.chain_nil (h : w.Inv) (hn : w.RelaysNamed) (l : LoopId) (first : NodeId) :
    w.Chain l first [] [] where
  inv := h
  named := hn
  le := Nat.le_refl _
  nodup := List.nodup_nil
  node _ hn := nomatch hn
  ended _ hn := nomatch hn
  unreturned hn := nomatch hn

/-- A later state, in which the actions of the chain are as they were. -/
theorem World.Chain.extends (h : w.Chain l first names returned) (hinv : w'.Inv)
    (hnamed : w'.RelaysNamed) (hext : w.Extends w')
    (hnode : ∀ {f n}, n ∈ names → w.OfThen l f n → w'.OfThen l f n)
    (hended : ∀ {n g}, n ∈ names → w.Ended (.user n) (.future g) → w'.Ended (.user n) (.future g))
    (hunreturned : ∀ {f n}, n ∈ names → w.OfThen l f n → w.Unreturned l n → w'.Unreturned l n) :
    w'.Chain l first names returned := by
  refine ⟨hinv, hnamed, h.le, h.nodup, ?_, ?_, ?_⟩
  · intro i n f hf hn
    exact hnode (List.mem_of_getElem? hn) (h.node hf hn)
  · intro i n f g hf hn hg
    obtain ⟨hend, hloop, p, hp⟩ := h.ended hf hn hg
    refine ⟨hended (List.mem_of_getElem? hn) hend, ?_, p, hext.resolver _ _ hp⟩
    rw [(hext.future g hend.1.created).1, hloop]
  · intro i n hn hi
    obtain ⟨f, hf⟩ := chainFutures_of_name first hn
    exact hunreturned (List.mem_of_getElem? hn) (h.node hf hn) (h.unreturned hn hi)

/-- A step that returns from no callback of the chain and settles none of its futures. -/
theorem World.Chain.step (huv : uv.Ok) (h : w.Chain l first names returned) {lab : Label V}
    (hlab : ∀ n ∈ names, ∀ b : NodeId, b.OfNode n → ¬ lab.Settles b)
    (hret : ∀ n ∈ names, ∀ r, lab = .ret l r → w.running l ≠ some (.user n))
    (hstep : NodeNative.step uv w lab = some w') : w'.Chain l first names returned := by
  obtain ⟨hinv', hext⟩ := step_inv huv h.inv hstep
  refine h.extends hinv' (h.named.step huv h.inv hstep) hext ?_ ?_ ?_
  · intro f n hn hthen
    exact hthen.step huv h.inv hstep h.named (hlab n hn)
  · intro n g hn hend
    exact hend.step huv h.inv (hlab n hn) hstep
  · intro f n hn hthen hu
    exact hu.step huv h.inv hthen hstep (hret n hn)

/-- `then` on the last future makes the chain longer. -/
theorem World.Chain.register (huv : uv.Ok) (h : w.Chain l first names returned) {t : Thread}
    {R : RetType} (hlast : (chainFutures first names)[names.length]? = some f)
    (hl : (w.futures f).loop = l) (hstep : NodeNative.step uv w (.thenCb t f n R) = some w') :
    w'.Chain l first (names ++ [n]) returned := by
  have hsettles : ∀ b, ¬ (Label.thenCb t f n R : Label V).Settles b := fun _ hset => hset
  have hold : w'.Chain l first names returned := by
    refine h.step huv (fun _ _ b _ => hsettles b) (fun _ _ r hlab => ?_) hstep
    cases hlab
  obtain ⟨hthen, hunreturned⟩ := World.OfThen.start huv h.inv hl hstep
  have hnew : n ∉ names := by
    intro hmem
    obtain ⟨i, hi⟩ := List.getElem?_of_mem hmem
    obtain ⟨f', hf'⟩ := chainFutures_of_name first hi
    exact (step_thenCb huv hstep).2.1 (h.node hf' hi).created
  have hfutures : ∀ {i : Nat} {f' : NodeId}, i ≤ names.length →
      (chainFutures first (names ++ [n]))[i]? = some f' → (chainFutures first names)[i]? = some f' := by
    intro i f' hi hf'
    rwa [chainFutures, List.map_append, ← List.cons_append, List.getElem?_append_left] at hf'
    simpa using Nat.lt_succ_of_le hi
  have hnames : ∀ {i m : Nat}, (names ++ [n])[i]? = some m →
      names[i]? = some m ∧ i < names.length ∨ i = names.length ∧ m = n := by
    intro i m hm
    rw [List.getElem?_append] at hm
    split at hm
    · rename_i hlt
      exact .inl ⟨hm, hlt⟩
    · rename_i hge
      obtain ⟨hi, rfl⟩ := by simpa [List.getElem?_singleton] using hm
      exact .inr ⟨by omega, rfl⟩
  refine ⟨hold.inv, hold.named, ?_, ?_, ?_, ?_, ?_⟩
  · rw [List.length_append]
    exact Nat.le_add_right_of_le h.le
  · exact nodup_snoc h.nodup hnew
  · intro i m f' hf' hm
    rcases hnames hm with ⟨hm, hi⟩ | ⟨rfl, rfl⟩
    · exact hold.node (hfutures (Nat.le_of_lt hi) hf') hm
    · cases (hfutures (Nat.le_refl _) hf').symm.trans hlast
      exact hthen
  · intro i m f' g hf' hm hg
    have hi : i < names.length := by
      obtain ⟨hi, -⟩ := List.getElem?_eq_some_iff.mp hg
      exact Nat.lt_of_lt_of_le hi h.le
    rcases hnames hm with ⟨hm, -⟩ | ⟨rfl, -⟩
    · exact hold.ended (hfutures (Nat.le_of_lt hi) hf') hm hg
    · omega
  · intro i m hm hi
    rcases hnames hm with ⟨hm, -⟩ | ⟨-, rfl⟩
    · exact hold.unreturned hm hi
    · exact hunreturned

/-- A node whose future has a value has returned from its callback. -/
theorem World.Chain.returned_of_value (h : w.Chain l first names returned) {i : Nat}
    (hn : names[i]? = some n) {p : Option V}
    (hp : (w.futures (.user n)).resolver = some (.value p)) : i < returned.length := by
  obtain ⟨f, hf⟩ := chainFutures_of_name first hn
  by_contra hi
  exact (h.unreturned hn (Nat.le_of_not_lt hi)).no_value (h.node hf hn) p hp

/-- The callbacks are called in the order of the chain, each when the future before it is resolved. -/
theorem World.Chain.called (h : w.Chain l first names returned) {i : Nat}
    (hn : names[i]? = some n) (hrun : w.running l = some (.user n)) :
    i = returned.length ∧ ∃ f p, (chainFutures first names)[i]? = some f ∧
      (w.futures f).resolver = some (.value p) := by
  obtain ⟨f, hf⟩ := chainFutures_of_name first hn
  have hi : returned.length ≤ i := by
    by_contra hlt
    obtain ⟨g, hg⟩ : ∃ g, returned[i]? = some g := ⟨_, List.getElem?_eq_getElem (by omega)⟩
    exact (h.ended hf hn hg).1.1.returned.2 l hrun
  obtain ⟨p, hp⟩ := (h.unreturned hn hi).source_value h.inv (h.node hf hn) hrun
  refine ⟨?_, f, p, hf, hp⟩
  cases i with
  | zero => omega
  | succ i =>
    rw [chainFutures_succ] at hf
    obtain ⟨m, hm, rfl⟩ := Option.map_eq_some_iff.mp hf
    have hlt := h.returned_of_value hm hp
    omega

/-- The callback on the stack returns a future of the loop. -/
theorem World.Chain.ret (huv : uv.Ok) (h : w.Chain l first names returned) (hn : n ∈ names)
    (hrun : w.running l = some (.user n)) (hg : (w.futures g).loop = l)
    (hstep : NodeNative.step uv w (.ret l (.future g)) = some w') :
    w'.Chain l first names (returned ++ [g]) := by
  obtain ⟨hinv', hext⟩ := step_inv huv h.inv hstep
  obtain ⟨i, hi⟩ := List.getElem?_of_mem hn
  obtain ⟨rfl, f, p, hf, hp⟩ := h.called hi hrun
  have hthen := h.node hf hi
  have hcls : (w.action (.user n)).cls ≠ .actionCallbackError := by
    obtain ⟨R, hcls | hcls⟩ := hthen.cls <;> simp [hcls]
  have hended : w'.Ended (.user n) (.future g) :=
    step_ret_ended huv h.inv hrun hthen.loops.2 hcls h.named hthen.own hstep
  have hgcreated : g ∈ w.created := by
    have hacc := (step_ret_callback h.inv hrun hstep).1
    simp only [ActionClass.accepts, Bool.and_eq_true, List.contains_eq_mem, decide_eq_true_eq] at hacc
    exact hacc.1
  have hsettles : ∀ b, ¬ (Label.ret l (.future g) : Label V).Settles b := fun _ hset => hset
  have hreturned : ∀ {j : Nat} {g' : NodeId}, (returned ++ [g])[j]? = some g' →
      returned[j]? = some g' ∨ j = returned.length ∧ g' = g := by
    intro j g' hg'
    rw [List.getElem?_append] at hg'
    split at hg'
    · exact .inl hg'
    · obtain ⟨hj, rfl⟩ := by simpa [List.getElem?_singleton] using hg'
      exact .inr ⟨by omega, rfl⟩
  refine ⟨hinv', h.named.step huv h.inv hstep, ?_, h.nodup, ?_, ?_, ?_⟩
  · obtain ⟨hlt, -⟩ := List.getElem?_eq_some_iff.mp hi
    rw [List.length_append, List.length_singleton]
    omega
  · intro j m f' hf' hm
    exact (h.node hf' hm).step huv h.inv hstep h.named fun b _ => hsettles b
  · intro j m f' g' hf' hm hg'
    rcases hreturned hg' with hg' | ⟨rfl, rfl⟩
    · obtain ⟨hend, hloop, p', hp'⟩ := h.ended hf' hm hg'
      refine ⟨hend.step huv h.inv (fun b _ => hsettles b) hstep, ?_, p', hext.resolver _ _ hp'⟩
      rw [(hext.future g' hend.1.created).1, hloop]
    · cases hm.symm.trans hi
      cases hf'.symm.trans hf
      refine ⟨hended, ?_, p, hext.resolver _ _ hp⟩
      rw [(hext.future g' hgcreated).1, hg]
  · intro j m hm hj
    rw [List.length_append, List.length_singleton] at hj
    obtain ⟨f', hf'⟩ := chainFutures_of_name first hm
    refine (h.unreturned hm (by omega)).step huv h.inv (h.node hf' hm) hstep fun _ _ hrun' => ?_
    cases hrun.symm.trans hrun'
    have hsame := (h.called hm hrun).1
    omega

/-- A node that is settled after its callback has returned is settled as the returned future is. -/
theorem World.Chain.source (h : w.Chain l first names returned) {i : Nat} (hn : names[i]? = some n)
    (hg : returned[i]? = some g) {r : FutureSharedResolver V}
    (hr : (w.futures (.user n)).resolver = some r) : (w.futures g).resolver = some r := by
  obtain ⟨f, hf⟩ := chainFutures_of_name first hn
  obtain ⟨⟨-, hadopted⟩, hloop, -⟩ := h.ended hf hn hg
  exact (hadopted (hloop.trans (h.node hf hn).loops.2.symm)).source hr

/-- A future of the chain that is settled has the outcome of the future in its place: the first one,
or the one that the callback of its node has returned. -/
theorem World.Chain.source_at (h : w.Chain l first names returned) {i : Nat}
    (hf : (chainFutures first names)[i]? = some f) (hg : (first :: returned)[i]? = some g)
    {r : FutureSharedResolver V} (hr : (w.futures f).resolver = some r) :
    (w.futures g).resolver = some r := by
  cases i with
  | zero =>
    cases hf
    cases hg
    exact hr
  | succ i =>
    rw [chainFutures_succ] at hf
    obtain ⟨n, hn, rfl⟩ := Option.map_eq_some_iff.mp hf
    exact h.source hn hg hr

/-- The futures before the last returned one are resolved. -/
theorem World.Chain.resolved_before (h : w.Chain l first names returned) {i : Nat}
    (hi : i < returned.length) (hg : (first :: returned)[i]? = some g) :
    ∃ p, (w.futures g).resolver = some (.value p) := by
  have hle := h.le
  have hn : names[i]? = some names[i] := List.getElem?_eq_getElem (by omega)
  obtain ⟨f, hf⟩ := chainFutures_of_name first hn
  obtain ⟨-, -, p, hp⟩ := h.ended hf hn (List.getElem?_eq_getElem hi)
  exact ⟨p, h.source_at hf hg hp⟩

/-- When a callback is on the stack, the last returned future is resolved too. -/
theorem World.Chain.resolved_called (h : w.Chain l first names returned) {i : Nat}
    (hn : names[i]? = some n) (hrun : w.running l = some (.user n)) :
    i = returned.length ∧ ∃ g p, (first :: returned)[i]? = some g ∧
      (w.futures g).resolver = some (.value p) := by
  obtain ⟨rfl, f, p, hf, hp⟩ := h.called hn hrun
  obtain ⟨g, hg⟩ : ∃ g, (first :: returned)[returned.length]? = some g :=
    ⟨_, List.getElem?_eq_getElem (Nat.lt_succ_self _)⟩
  exact ⟨rfl, g, p, hg, h.source_at hf hg hp⟩

/-- When nothing is left to do, a node whose callback has returned has the outcome of the returned
future, -/
theorem World.Chain.outcome_returned (h : w.Chain l first names returned) (hp : w.pending = [])
    {i : Nat} (hn : names[i]? = some n)
    (hg : returned[i]? = some g) : (w.futures (.user n)).resolver = (w.futures g).resolver := by
  obtain ⟨f, hf⟩ := chainFutures_of_name first hn
  obtain ⟨⟨-, hadopted⟩, hloop, -⟩ := h.ended hf hn hg
  exact (hadopted (hloop.trans (h.node hf hn).loops.2.symm)).outcome hp

section
variable (h : w.Chain l first names returned) (hp : w.pending = []) (hrun : w.running l = none)
include h hp hrun

/-- and the others have the outcome of the future before the first of them. -/
theorem World.Chain.outcome_unreturned {i : Nat} (hi : returned.length ≤ i)
    (hf : (chainFutures first names)[returned.length]? = some f)
    (hg : (chainFutures first names)[i]? = some g) :
    (w.futures g).resolver = (w.futures f).resolver := by
  induction i generalizing g with
  | zero =>
    rw [Nat.le_zero.mp hi] at hf
    cases hf.symm.trans hg
    rfl
  | succ i ih =>
    rcases Nat.eq_or_lt_of_le hi with heq | hlt
    · rw [heq] at hf
      cases hf.symm.trans hg
      rfl
    · rw [chainFutures_succ] at hg
      obtain ⟨n, hn, rfl⟩ := Option.map_eq_some_iff.mp hg
      obtain ⟨g', hg'⟩ := chainFutures_of_name first hn
      rw [((h.unreturned hn (by omega)).outcome h.inv (h.node hg' hn) hp hrun).1]
      exact ih (by omega) hg'

/-- The last future has the outcome of the future that was returned last, which has no value unless
all callbacks have returned. -/
theorem World.Chain.outcome (hf : (chainFutures first names)[names.length]? = some f)
    (hg : (first :: returned)[returned.length]? = some g) :
    (w.futures f).resolver = (w.futures g).resolver ∧
      (returned.length < names.length → ∀ p, (w.futures g).resolver ≠ some (.value p)) := by
  obtain ⟨f₀, hf₀⟩ := chainFutures_of_le first h.le
  have heq : (w.futures f₀).resolver = (w.futures g).resolver := by
    cases hlen : returned.length with
    | zero =>
      rw [hlen] at hf₀ hg
      cases hf₀
      cases hg
      rfl
    | succ i =>
      rw [hlen] at hf₀ hg
      rw [chainFutures_succ] at hf₀
      obtain ⟨n, hn, rfl⟩ := Option.map_eq_some_iff.mp hf₀
      exact h.outcome_returned hp hn hg
  refine ⟨(h.outcome_unreturned hp hrun h.le hf₀ hf).trans heq, fun hlt p => ?_⟩
  obtain ⟨n, hn⟩ : ∃ n, names[returned.length]? = some n := ⟨_, List.getElem?_eq_getElem hlt⟩
  rw [← heq]
  exact ((h.unreturned hn (Nat.le_refl _)).outcome h.inv (h.node hf₀ hn) hp hrun).2 p

end

end

end

end NodeNative
