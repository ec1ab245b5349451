import NodeNative.Worker.Invariant

/-!
# Workers and `async` agree

The future of a worker stays pending until `WorkerAfter` replays what the pool's thread has kept
(`Workers.Stage`), and what is left then is what the return of the callable of an `async` leaves
(`World.Ended`). So when nothing is left to do the two futures have one outcome
(`worker_and_async_agree`).
-/

namespace NodeNative

open Transition

section
variable {V : Type} {uv : UvAsync} {uvw : UvWork} {s s' : Workers V} {n : Nat}

/-! ## What a run is about -/

/-- The callable of a node that ends in this step ends with what `res` says of the node. -/
def WorkerLabel.Returns (res : Nat → CallbackReturn V) (s : Workers V) : WorkerLabel V → Prop
  | .worked n r => r = res n
  | .core (.ret l r) => ∀ n, s.world.running l = some (.user n) → r = res n
  | _ => True

instance [DecidableEq V] (res : Nat → CallbackReturn V) (s : Workers V) :
    ∀ lab, Decidable (WorkerLabel.Returns res s lab)
  | .worked n r => inferInstanceAs (Decidable (r = res n))
  | .core (.ret l r) =>
    match h : s.world.running l with
    | some (.user n) => decidable_of_iff (r = res n) (by simp [WorkerLabel.Returns, h])
    | some (.relayThen _) | some (.relayError _) | some (.post _) | none =>
      .isTrue (by simp [WorkerLabel.Returns, h])
  | .core (.promise ..) | .core (.resolve ..) | .core (.reject ..) | .core (.thenCb ..)
  | .core (.errorCb ..) | .core (.finallyCb ..) | .core (.async ..) | .core (.fire _)
  | .core (.close _) | .worker .. | .work _ | .after _ => .isTrue trivial

/-- The callable or the callback of the node `n` that ends in this step ends with `r`. -/
def WorkerLabel.ReturnsOf (n : Nat) (r : CallbackReturn V) (s : Workers V) : WorkerLabel V → Prop
  | .worked m r' => m = n → r' = r
  | .core (.ret l r') => s.world.running l = some (.user n) → r' = r
  | _ => True

instance [DecidableEq V] (n : Nat) (r : CallbackReturn V) (s : Workers V) :
    ∀ lab : WorkerLabel V, Decidable (lab.ReturnsOf n r s)
  | .worked m r' => inferInstanceAs (Decidable (m = n → r' = r))
  | .core (.ret l r') => inferInstanceAs (Decidable (s.world.running l = some (.user n) → r' = r))
  | .core (.promise ..) | .core (.resolve ..) | .core (.reject ..) | .core (.thenCb ..)
  | .core (.errorCb ..) | .core (.finallyCb ..) | .core (.async ..) | .core (.fire _)
  | .core (.close _) | .worker .. | .work _ | .after _ => .isTrue trivial

/-- What a run returns for a worker is what its function gives. -/
theorem WorkerLabel.Returns.of {res : Nat → CallbackReturn V} (n : Nat) {lab : WorkerLabel V}
    (h : lab.Returns res s) : lab.ReturnsOf n (res n) s := by
  cases lab with
  | worked m r =>
    rintro rfl
    exact h
  | core lab =>
    cases lab with
    | ret l r => exact h n
    | _ => trivial
  | _ => trivial

/-- A call of the program that settles the future. -/
def WorkerLabel.Settles : WorkerLabel V → NodeId → Prop
  | .core lab, f => lab.Settles f
  | _, _ => False

/-- The program settles neither the future of the node nor those of its relays, which it does not
have a promise of. -/
def WorkerLabel.Leaves (n : Nat) (lab : WorkerLabel V) : Prop :=
  ∀ b, b = .user n ∨ b = .relayThen (.user n) ∨ b = .relayError (.user n) → ¬ lab.Settles b

/-- Nothing is left to do. -/
structure Workers.Quiet (s : Workers V) : Prop where
  requests : s.requests = []
  pending : s.world.pending = []
  running : ∀ l, s.world.running l = none
  aborted : s.world.aborted = none

/-- No callback runs when none does on the loops of the executed actions. -/
theorem World.Inv.running_none {w : World V} (h : w.Inv)
    (hx : ∀ x ∈ w.executed, w.running (w.action x.1).loop = none) (l : LoopId) :
    w.running l = none := by
  cases hl : w.running l with
  | none => rfl
  | some a =>
    obtain ⟨hloop, r, har, -⟩ := h.running l a hl
    have hidle := hx _ har
    rw [hloop, hl] at hidle
    cases hidle

/-- Two calls of one callable end the same way: with one value, one error, or two futures that have
one outcome. -/
def CallbackReturn.Agrees (w w' : World V) : CallbackReturn V → CallbackReturn V → Prop
  | .value p, .value p' => p = p'
  | .throws e, .throws e' => e = e'
  | .future g, .future g' => (w.futures g).resolver = (w'.futures g').resolver
  | _, _ => False

/-- Returns that agree have the same outcome. -/
theorem CallbackReturn.Agrees.outcome {w w' : World V} {r r' : CallbackReturn V}
    (h : r.Agrees w w' r') : r.outcome w = r'.outcome w' := by
  cases r with
  | value p => cases r' <;> first | exact congrArg _ (congrArg _ h) | cases h
  | throws e => cases r' <;> first | exact congrArg _ (congrArg _ h) | cases h
  | future g => cases r' <;> first | exact h | cases h
  | raises m => cases r' <;> cases h

/-! ## The invariant of a run -/

/-- In a run from the start the invariant holds until an exception ends the process. -/
theorem runWorkers_inv (huv : uv.Ok) (huw : uvw.Ok) {ls : List (WorkerLabel V)}
    (hrun : runWorkers uv uvw ls = some s) (hok : s.world.aborted = none) : s.Inv := by
  have hstep : ∀ (s : Workers V) lab s', (s.world.aborted = none → s.Inv) →
      workerStep uv uvw s lab = some s' → s'.world.aborted = none → s'.Inv := by
    intro s lab s' hs hst hok'
    exact (hs (workerStep_not_aborted hst)).step huv huw hst hok'
  exact run_invariant hstep (fun _ => .init) hrun hok

/-- What holds at the start and is kept by every step that meets the condition and does not end the
process holds at the end of a run that was not ended. -/
theorem runWorkers_history (huv : uv.Ok) (huw : uvw.Ok)
    {P : List (WorkerLabel V) → Workers V → Prop} {ok : Workers V → WorkerLabel V → Prop}
    (hstep : ∀ hs s lab s', s.Inv → ok s lab → P hs s → workerStep uv uvw s lab = some s' →
      s'.world.aborted = none → P (hs ++ [lab]) s') (hinit : P [] {}) {ls : List (WorkerLabel V)}
    (hok : Along (workerStep uv uvw) ok {} ls) (hrun : runWorkers uv uvw ls = some s)
    (hend : s.world.aborted = none) : P ls s := by
  have hnext : ∀ hs (s : Workers V) lab s', ok s lab → (s.world.aborted = none → s.Inv ∧ P hs s) →
      workerStep uv uvw s lab = some s' → s'.world.aborted = none → s'.Inv ∧ P (hs ++ [lab]) s' := by
    intro hs s lab s' hlab hs' hst hok'
    obtain ⟨hinv, hP⟩ := hs' (workerStep_not_aborted hst)
    exact ⟨hinv.step huv huw hst hok', hstep hs s lab s' hinv hlab hP hst hok'⟩
  have hfirst : ({} : Workers V).world.aborted = none → ({} : Workers V).Inv ∧ P [] {} :=
    fun _ => ⟨.init, hinit⟩
  exact (run_history_along hnext hok hfirst hrun hend).2

/-! ## The worker -/

/-- How far the worker `n` is after the labels `hs`, when its callable ends with `r`. -/
inductive Workers.Stage (hs : List (WorkerLabel V)) (s : Workers V) (n : Nat)
    (r : CallbackReturn V) : Prop
  | asked (hn : n ∈ s.queued ++ s.working) (hnone : (s.world.futures (.user n)).resolver = none)
  | answered (hn : n ∈ s.worked) (hnone : (s.world.futures (.user n)).resolver = none)
      (hr : ∀ m, r ≠ .raises m) (hres : (s.worker n).resolver = some r.resolved)
  | finished (hn : n ∉ s.requests) (hc : .user n ∈ s.world.created) (hafter : .after n ∈ hs)
      (hended : s.world.Ended (.user n) r)

/-- A worker that has begun was created. -/
theorem Workers.Stage.created {hs : List (WorkerLabel V)} {r : CallbackReturn V} (h : s.Inv)
    (hstage : s.Stage hs n r) : .user n ∈ s.world.created := by
  cases hstage with
  | asked hn => exact (h.request n (List.mem_append_left _ hn)).passive.created
  | answered hn => exact (h.request n (List.mem_append_right _ hn)).passive.created
  | finished _ hc => exact hc

/-- Steps of the other workers. -/
theorem Workers.Stage.spared {hs : List (WorkerLabel V)} {r : CallbackReturn V}
    (hstage : s.Stage hs n r) (lab : WorkerLabel V)
    (hspares : s.world.Spares (.user n) s'.world) (haborted : s.world.aborted = none)
    (hasked : n ∈ s.queued ++ s.working → n ∈ s'.queued ++ s'.working)
    (hworked : n ∈ s.worked → n ∈ s'.worked ∧ (s'.worker n).resolver = (s.worker n).resolver)
    (hgone : n ∉ s.requests → n ∉ s'.requests) : s'.Stage (hs ++ [lab]) n r := by
  have hres := (hspares.own _ (.inl rfl)).1
  cases hstage with
  | asked hn hnone => exact .asked (hasked hn) (hres.trans hnone)
  | answered hn hnone hr hans =>
    exact .answered (hworked hn).1 (hres.trans hnone) hr ((hworked hn).2.trans hans)
  | finished hn hc hafter hended =>
    exact .finished (hgone hn) (hspares.extend.created _ hc) (List.mem_append_left _ hafter)
      (hspares.ended haborted hended)

/-- What the loop leaves when it replays the result of a callable. -/
theorem Workers.Inv.replays_ended (h : s.Inv) (hn : n ∈ s.worked)
    (hnone : (s.world.futures (.user n)).resolver = none) {r : CallbackReturn V}
    (hr : ∀ m, r ≠ .raises m) (hres : (s.worker n).resolver = some r.resolved) {w' : World V}
    (hrep : s.world.Replays (s.worker n).loop (.user n) r.resolved w') : w'.Ended (.user n) r := by
  have hset : ∀ r', ((s.world.settled (.user n) r').futures (.user n)).resolver = some r' :=
    fun r' => (World.settled_resolver ..).trans (if_pos rfl)
  cases r with
  | value p =>
    obtain ⟨-, rfl⟩ := hrep
    exact hset _
  | throws e =>
    obtain ⟨-, rfl⟩ := hrep
    exact hset _
  | raises m => exact absurd rfl (hr m)
  | future g =>
    have hu := h.replays_updates hn hres hrep
    obtain rfl := hrep
    have hreq := h.request n (List.mem_append_right _ hn)
    obtain ⟨hx, res, hres', hg⟩ := h.answered n hn
    have hgc := hg g (Option.some.inj (hres'.symm.trans hres))
    have hrelays := h.world.relays_relayed h.named (Thread.ofLoop (s.worker n).loop) hgc hx
      hreq.running hreq.relays
    refine ⟨hrelays, fun hloop => hrelays.adopted hloop ?_ fun b hb hbx => ?_⟩
    · exact (s.world.relayed_resolver _ _ g (h.world.relays_fresh hreq.relays) _).trans hnone
    · rw [World.executedIds, (hu.called h.world).executed] at hbx
      exact hreq.relays b hb (h.world.created_executed b hbx)

/-- Every step goes on with the worker. -/
theorem Workers.Stage.step (huv : uv.Ok) (huw : uvw.Ok) (h : s.Inv) {hs : List (WorkerLabel V)}
    {r : CallbackReturn V} (hstage : s.Stage hs n r) {lab : WorkerLabel V} (hlab : lab.Leaves n)
    (hret : ∀ r', lab = .worked n r' → r' = r) (hstep : workerStep uv uvw s lab = some s')
    (hok : s'.world.aborted = none) : s'.Stage (hs ++ [lab]) n r := by
  have hcases := workerStep_cases huv huw h hstep
  have haborted := workerStep_not_aborted hstep
  have hcreated := hstage.created h
  have hspares := workerStep_spares (n := n) huv huw h hstep hok
  have hgone := workerStep_requests huv huw h hstep hcreated
  cases lab with
  | core lab =>
    obtain ⟨w', hw', rfl⟩ := hcases
    have hpassive : s.Request n →
        (w'.futures (.user n)).resolver = (s.world.futures (.user n)).resolver := fun hreq =>
      hreq.passive.step_resolver hreq.relays hreq.running huv h.world h.named (hlab _ (.inl rfl)) hw'
    cases hstage with
    | asked hn hnone =>
      exact .asked hn ((hpassive (h.request n (List.mem_append_left _ hn))).trans hnone)
    | answered hn hnone hr hres =>
      exact .answered hn ((hpassive (h.request n (List.mem_append_right _ hn))).trans hnone) hr hres
    | finished hn hc hafter hended =>
      exact .finished hn ((step_inv huv h.world hw').2.created _ hc) (List.mem_append_left _ hafter)
        (hended.step huv h.world hlab hw')
  | worker l m R =>
    obtain ⟨hm, rfl⟩ := hcases
    have hne : n ≠ m := by
      rintro rfl
      exact hm hcreated
    refine hstage.spared _ (hspares (by simp) (by simp) (by simp)) haborted (fun hn => ?_)
      (fun hn => ⟨hn, congrArg _ (Function.update_of_ne hne _ _)⟩) hgone
    simpa [Workers.requested, hne] using hn
  | work m =>
    obtain ⟨hm, rfl⟩ := hcases
    have hperm : (s.queued.erase m ++ (s.working ++ [m])).Perm (s.queued ++ s.working) :=
      moved_perm hm
    exact hstage.spared _ (hspares (by simp) (by simp) (by simp)) haborted
      (fun hn => hperm.mem_iff.mpr hn) (fun hn => ⟨hn, rfl⟩) hgone
  | worked m r' =>
    obtain ⟨hm, -, ⟨hr', rfl⟩ | ⟨m', -, rfl⟩⟩ := hcases
    swap
    · cases hok
    obtain ⟨-, -, -, hres'⟩ := Workers.answered_worker
      { s with working := s.working.erase m, worked := s.worked ++ [m] } m n r'
    by_cases hmn : m = n
    · subst hmn
      cases hret r' rfl
      have hnone : (s.world.futures (.user m)).resolver = none := by
        cases hstage with
        | asked _ hnone => exact hnone
        | answered _ hnone => exact hnone
        | finished hn => exact absurd (by simp [Workers.requests, hm]) hn
      refine .answered (List.mem_append_right _ (.head _)) hnone hr' ?_
      rw [hres', if_pos rfl]
    · have hne : n ≠ m := fun hnm => hmn hnm.symm
      refine hstage.spared _ (hspares (by simp) (by simp [hmn]) (by simp)) haborted (fun hn => ?_)
        (fun hn => ⟨List.mem_append_left _ hn, ?_⟩) hgone
      · show n ∈ s.queued ++ s.working.erase m
        simpa [List.mem_erase_of_ne hne] using hn
      · rw [hres', if_neg hne]
  | after m =>
    obtain ⟨hm, -, res, w', hres, hrep | ⟨e, rfl⟩, rfl⟩ := hcases
    swap
    · cases hok
    obtain ⟨-, hout⟩ := h.requests_erase hm
    by_cases hmn : m = n
    · subst hmn
      cases hstage with
      | asked hn => exact absurd (List.mem_append_left _ hn) hout
      | answered hn hnone hr hres' =>
        cases hres.symm.trans hres'
        exact .finished hout ((h.replays_updates hm hres hrep).called h.world |>.extend.created _
          hcreated) (List.mem_append_right _ (.head _)) (h.replays_ended hn hnone hr hres hrep)
      | finished hn => exact absurd (List.mem_append_right _ hm) hn
    · have hne : n ≠ m := fun hnm => hmn hnm.symm
      refine hstage.spared _ (hspares (by simp) (by simp) (by simp [hmn])) haborted (fun hn => hn)
        (fun hn => ⟨(List.mem_erase_of_ne hne).mpr hn, ?_⟩) hgone
      exact congrArg _ (Function.update_of_ne hne _ _)

/-- Before the worker's future is settled nothing but a relay that exists after `WorkerAfter` has
anything to do with it. -/
theorem Workers.Stage.idle (h : s.Inv) {hs : List (WorkerLabel V)} {r : CallbackReturn V}
    (hstage : s.Stage hs n r) (haborted : s.world.aborted = none)
    (hnone : (s.world.futures (.user n)).resolver = none) :
    .user n ∉ s.world.pending ∧ (∀ l, s.world.running l ≠ some (.user n)) ∧
      ∀ b, b = .relayThen (.user n) ∨ b = .relayError (.user n) → b ∈ s.world.created →
        .after n ∈ hs := by
  cases hstage with
  | asked hn =>
    have hreq := h.request n (List.mem_append_left _ hn)
    exact ⟨hreq.passive.pending, hreq.running, fun b hb hmem => absurd hmem (hreq.relays b hb)⟩
  | answered hn =>
    have hreq := h.request n (List.mem_append_right _ hn)
    exact ⟨hreq.passive.pending, hreq.running, fun b hb hmem => absurd hmem (hreq.relays b hb)⟩
  | finished hn hc hafter hended =>
    cases r with
    | value p => cases hnone.symm.trans hended
    | throws e => cases hnone.symm.trans hended
    | raises m =>
      rw [World.Ended, haborted] at hended
      cases hended
    | future g =>
      obtain ⟨hx, hrun⟩ := hended.1.returned
      exact ⟨fun hp => h.world.not_executed _ hp hx, hrun, fun _ _ _ => hafter⟩

/-- What settles the worker's future: `WorkerAfter`, which its loop runs outside of a callback, or a
step of that loop after it. -/
theorem Workers.Stage.settles (huv : uv.Ok) (huw : uvw.Ok) (h : s.Inv)
    {hs : List (WorkerLabel V)} {r : CallbackReturn V} (hstage : s.Stage hs n r)
    {lab : WorkerLabel V} (hlab : lab.Leaves n) (hstep : workerStep uv uvw s lab = some s')
    (hnone : (s.world.futures (.user n)).resolver = none)
    (hsome : (s'.world.futures (.user n)).resolver ≠ none) :
    lab = .after n ∧ s.world.running (s.world.futures (.user n)).loop = none ∨
      ∃ b, lab = .core (.fire b) ∧ (s.world.action b).loop = (s.world.futures (.user n)).loop ∧
        .after n ∈ hs := by
  have hcases := workerStep_cases huv huw h hstep
  obtain ⟨hpending, hrunning, hrelays⟩ := hstage.idle h (workerStep_not_aborted hstep) hnone
  cases lab with
  | core lab =>
    obtain ⟨w', hw', rfl⟩ := hcases
    rcases step_settles huv h.world hw' hnone hsome with hset | ⟨b, rfl, hb, hl⟩ | ⟨l, r', -, hl⟩
    · exact absurd hset (hlab _ (.inl rfl))
    · have hp := (step_fire_enabled hw').1
      rcases hb with rfl | hb
      · exact absurd hp hpending
      · exact .inr ⟨b, rfl, (hl (hstage.created h)).symm,
          hrelays b (h.named b _ hb) (h.world.created_pending b hp)⟩
    · exact absurd hl (hrunning l)
  | worker l m R =>
    obtain ⟨hm, rfl⟩ := hcases
    have heq := (Workers.requested_updates hm l R).resolver_eq h.world (a := .user n) fun hf => hf
    exact absurd (heq.trans hnone) hsome
  | work m =>
    obtain ⟨-, rfl⟩ := hcases
    exact absurd hnone hsome
  | worked m r' =>
    obtain ⟨-, -, ⟨-, rfl⟩ | ⟨m', -, rfl⟩⟩ := hcases
    · exact absurd hnone hsome
    · exact absurd hnone hsome
  | after m =>
    obtain ⟨hm, hidle, res, w', hres, hrep | ⟨e, rfl⟩, rfl⟩ := hcases
    · by_cases hmn : m = n
      · subst hmn
        rw [← (h.request m (List.mem_append_right _ hm)).loop] at hidle
        exact .inl ⟨rfl, hidle⟩
      · have hmay : ¬ (NodeId.user n = .user m) := fun heq => hmn (by injection heq with heq; exact heq.symm)
        exact absurd (((h.replays_updates hm hres hrep).resolver_eq h.world hmay).trans hnone) hsome
    · exact absurd hnone hsome

/-- When no request is left the worker has finished. -/
theorem Workers.Stage.ended {hs : List (WorkerLabel V)} {r : CallbackReturn V}
    (hstage : s.Stage hs n r) (hq : s.requests = []) : s.world.Ended (.user n) r := by
  have hnot : n ∉ s.requests := by simp [hq]
  cases hstage with
  | asked hn => exact absurd (List.mem_append_left _ hn) hnot
  | answered hn => exact absurd (List.mem_append_right _ hn) hnot
  | finished _ _ _ hended => exact hended

/-- A call of `worker` and the steps after it. -/
theorem run_stage (huv : uv.Ok) (huw : uvw.Ok) {r : CallbackReturn V} {ls : List (WorkerLabel V)}
    (hret : Along (workerStep uv uvw) (fun s lab => lab.ReturnsOf n r s) {} ls)
    (hown : ∀ lab ∈ ls, lab.Leaves n) (hrun : runWorkers uv uvw ls = some s)
    (hok : s.world.aborted = none) {l : LoopId} {R : RetType} (hworker : .worker l n R ∈ ls) :
    (s.world.futures (.user n)).loop = l ∧ s.Stage ls n r := by
  have hstep : ∀ hs (s : Workers V) lab s', s.Inv →
      (lab.ReturnsOf n r s ∧ lab.Leaves n) → (∀ l R, .worker l n R ∈ hs →
        (s.world.futures (.user n)).loop = l ∧ s.Stage hs n r) →
      workerStep uv uvw s lab = some s' → s'.world.aborted = none →
      ∀ l R, .worker l n R ∈ hs ++ [lab] →
        (s'.world.futures (.user n)).loop = l ∧ s'.Stage (hs ++ [lab]) n r := by
    rintro hs s lab s' hinv ⟨hret, hown⟩ hstage hst hok' l R hmem
    rcases List.mem_append.mp hmem with hmem | hlast
    · obtain ⟨hl, hstage⟩ := hstage l R hmem
      refine ⟨?_, hstage.step huv huw hinv hown ?_ hst hok'⟩
      · exact ((workerStep_extends huv huw hinv hst).future _ (hstage.created hinv)).1.trans hl
      · rintro r' rfl
        exact hret rfl
    · cases List.mem_singleton.mp hlast
      obtain ⟨-, rfl⟩ := workerStep_cases huv huw hinv hst
      have hfut : (s.requested l n R).world.futures (.user n) =
          { loop := l, isVoid := R = .void || R = .futureVoid } := by
        simp [Workers.requested, World.createFuture, World.setFuture]
      exact ⟨by rw [hfut], .asked (by simp [Workers.requested]) (by rw [hfut])⟩
  exact runWorkers_history huv huw hstep (fun _ _ hmem => absurd hmem List.not_mem_nil)
    (hret.and (Along.of_forall hown)) hrun hok l R hworker

/-! ## The `async` -/

/-- Every step goes on with the callable of an `async`. -/
theorem World.OfAsync.step_worker (huv : uv.Ok) (huw : uvw.Ok) (h : s.Inv) {l : LoopId}
    {r : CallbackReturn V} (hn : n ∉ s.requests) (ha : s.world.OfAsync l n r) {lab : WorkerLabel V}
    (hlab : lab.Leaves n)
    (hret : ∀ l' r', lab = .core (.ret l' r') → s.world.running l' = some (.user n) → r' = r)
    (hstep : workerStep uv uvw s lab = some s') (hok : s'.world.aborted = none) :
    n ∉ s'.requests ∧ s'.world.OfAsync l n r := by
  refine ⟨workerStep_requests huv huw h hstep ha.created hn, ?_⟩
  have haborted := workerStep_not_aborted hstep
  have hspares : (∀ lab', lab ≠ .core lab') → s'.world.OfAsync l n r := by
    intro hcore
    have hspares : s.world.Spares (.user n) s'.world := by
      refine workerStep_spares huv huw h hstep hok hcore ?_ ?_
      · rintro r' rfl
        exact hn (by simp [Workers.requests, (workerStep_cases huv huw h hstep).1])
      · rintro rfl
        exact hn (by simp [Workers.requests, (workerStep_cases huv huw h hstep).1])
    refine ha.extends hspares.extend (fun b hb => hspares.own_pending hb (ha.own b hb)) ?_
    refine ha.stage.imp (fun hp => ?_) (Or.imp (fun hl => ?_) (hspares.ended haborted))
    · obtain ⟨hp', hact⟩ := hspares.pending _ hp.1
      exact ⟨hp', hact ▸ hp.2⟩
    · rw [hspares.running]
      exact hl
  cases lab with
  | core lab =>
    obtain ⟨w', hw', rfl⟩ := workerStep_cases huv huw h hstep
    refine ha.step huv h.world h.named hlab (fun l' r' hr hl => hret l' r' ?_ hl) hw'
    rw [hr]
  | worker l' m R => exact hspares (by simp)
  | work m => exact hspares (by simp)
  | worked m r' => exact hspares (by simp)
  | after m => exact hspares (by simp)

/-- A call of `async` and the steps after it. -/
theorem run_ofAsync (huv : uv.Ok) (huw : uvw.Ok) {r : CallbackReturn V}
    {ls : List (WorkerLabel V)}
    (hret : Along (workerStep uv uvw) (fun s lab => lab.ReturnsOf n r s) {} ls)
    (hown : ∀ lab ∈ ls, lab.Leaves n) (hrun : runWorkers uv uvw ls = some s)
    (hok : s.world.aborted = none) {l : LoopId} {R : RetType} (hasync : .core (.async l n R) ∈ ls) :
    s.world.OfAsync l n r := by
  have hstep : ∀ hs (s : Workers V) lab s', s.Inv →
      (lab.ReturnsOf n r s ∧ lab.Leaves n) → (∀ l R, .core (.async l n R) ∈ hs →
        n ∉ s.requests ∧ s.world.OfAsync l n r) →
      workerStep uv uvw s lab = some s' → s'.world.aborted = none →
      ∀ l R, .core (.async l n R) ∈ hs ++ [lab] →
        n ∉ s'.requests ∧ s'.world.OfAsync l n r := by
    rintro hs s lab s' hinv ⟨hret, hown⟩ hstage hst hok' l R hmem
    rcases List.mem_append.mp hmem with hmem | hlast
    · obtain ⟨hn, ha⟩ := hstage l R hmem
      refine ha.step_worker huv huw hinv hn hown ?_ hst hok'
      rintro l' r' rfl hl
      exact hret hl
    · cases List.mem_singleton.mp hlast
      obtain ⟨w', hw', rfl⟩ := workerStep_cases huv huw hinv hst
      refine ⟨fun hn => ?_, .start huv hinv.world r hw'⟩
      exact (step_async huv hw').1 (hinv.request n hn).passive.created
  exact (runWorkers_history huv huw hstep (fun _ _ hmem => absurd hmem List.not_mem_nil)
    (hret.and (Along.of_forall hown)) hrun hok l R hasync).2

/-! ## Runs -/

/-- `WorkerAfter` executes no action, starts no callback, makes no request and frees its mutex. -/
theorem workerStep_after (huv : uv.Ok) (huw : uvw.Ok) (h : s.Inv)
    (hstep : workerStep uv uvw s (.after n) = some s') :
    s'.world.executed = s.world.executed ∧ s'.world.running = s.world.running ∧
      s'.enqueued = s.enqueued ∧ s'.mutexInProcess = false := by
  obtain ⟨hn, -, res, w', hres, hrep | ⟨e, rfl⟩, rfl⟩ := workerStep_cases huv huw h hstep
  · have hc := (h.replays_updates hn hres hrep).called h.world
    exact ⟨hc.executed, hc.running, rfl, h.mutex⟩
  · exact ⟨rfl, rfl, rfl, h.mutex⟩

/-- Source: `WorkerBase.cpp:26-73`, `WorkerCallback.ipp:103-189`, `FutureSharedResolver.ipp:6-49`,
`ActionCallback.ipp:168-229`. One callable is given to `worker` in one run and to `async` in another,
or in the same. When nothing is left to do in either, and a future that the callable has returned
belongs to the loop, the two futures have one outcome. The worker's future is settled only by
`WorkerAfter` on its loop or by a later step of that loop, and `WorkerAfter` starts no callback and no
request while it holds the mutex. -/
theorem worker_and_async_agree (huv : uv.Ok) (huw : uvw.Ok) {ls ls' : List (WorkerLabel V)}
    {res res' : Nat → CallbackReturn V} {l : LoopId} {n n' : Nat} {R : RetType}
    (hrun : runWorkers uv uvw ls = some s) (hrun' : runWorkers uv uvw ls' = some s')
    (hret : Along (workerStep uv uvw) (WorkerLabel.Returns res) {} ls)
    (hret' : Along (workerStep uv uvw) (WorkerLabel.Returns res') {} ls')
    (hown : ∀ lab ∈ ls, lab.Leaves n) (hown' : ∀ lab ∈ ls', lab.Leaves n')
    (hworker : .worker l n R ∈ ls) (hasync : .core (.async l n' R) ∈ ls') :
    (s.Quiet → s'.Quiet → (∀ g, res n = .future g → (s.world.futures g).loop = l) →
      (∀ g, res' n' = .future g → (s'.world.futures g).loop = l) →
      (res n).Agrees s.world s'.world (res' n') →
      (s.world.futures (.user n)).resolver = (s'.world.futures (.user n')).resolver) ∧
    (∀ (ls₀ ls₁ : List (WorkerLabel V)) lab s₀ s₁, ls = ls₀ ++ lab :: ls₁ → .worker l n R ∈ ls₀ →
      runWorkers uv uvw ls₀ = some s₀ → workerStep uv uvw s₀ lab = some s₁ →
      (s₀.world.futures (.user n)).resolver = none →
      (s₁.world.futures (.user n)).resolver ≠ none →
      lab = .after n ∧ s₀.world.running l = none ∨
        ∃ b, lab = .core (.fire b) ∧ (s₀.world.action b).loop = l ∧ .after n ∈ ls₀) ∧
    (∀ (ls₀ : List (WorkerLabel V)) m s₀ s₁, runWorkers uv uvw ls₀ = some s₀ →
      workerStep uv uvw s₀ (.after m) = some s₁ →
      s₁.world.executed = s₀.world.executed ∧ s₁.world.running = s₀.world.running ∧
        s₁.enqueued = s₀.enqueued ∧ s₁.mutexInProcess = false) := by
  have hretn : Along (workerStep uv uvw) (fun s lab => lab.ReturnsOf n (res n) s) {} ls :=
    hret.mono fun _ _ h => h.of n
  refine ⟨fun hq hq' hloop hloop' hagree => ?_, ?_, ?_⟩
  · obtain ⟨hl, hstage⟩ := run_stage huv huw hretn hown hrun hq.aborted hworker
    have hasynced := run_ofAsync huv huw (hret'.mono fun _ _ h => h.of n') hown' hrun' hq'.aborted
      hasync
    have hended := hstage.ended hq.requests
    have hended' := hasynced.ended hq'.pending hq'.running
    rw [hended.outcome hq.pending hq.aborted fun g hg => (hloop g hg).trans hl.symm,
      hended'.outcome hq'.pending hq'.aborted fun g hg => (hloop' g hg).trans hasynced.loops.2.symm]
    exact hagree.outcome
  · rintro ls₀ ls₁ lab s₀ s₁ rfl hmem hrun₀ hst hnone hsome
    have haborted := workerStep_not_aborted hst
    obtain ⟨hl, hstage⟩ := run_stage huv huw hretn.append.1
      (fun lab hlab => hown lab (List.mem_append_left _ hlab)) hrun₀ haborted hmem
    rw [← hl]
    exact hstage.settles huv huw (runWorkers_inv huv huw hrun₀ haborted) (hown lab (by simp)) hst
      hnone hsome
  · intro ls₀ m s₀ s₁ hrun₀ hst
    exact workerStep_after huv huw (runWorkers_inv huv huw hrun₀ (workerStep_not_aborted hst)) hst

/-- A callable that returns the promise 0, in a worker, -/
def byWorker : List (WorkerLabel Nat) :=
  [.core (.promise 0 0 false), .worker 0 1 .futureValue, .work 1, .worked 1 (.future (.user 0)),
    .after 1, .core (.resolve (Thread.ofLoop 0) (.user 0) (some 7)),
    .core (.fire (.relayThen (.user 1))), .core (.fire (.relayError (.user 1)))]

/-- and in an `async`. -/
def byAsync : List (WorkerLabel Nat) :=
  [.core (.promise 0 0 false), .core (.async 0 1 .futureValue), .core (.fire (.user 1)),
    .core (.ret 0 (.future (.user 0))),
    .core (.resolve (Thread.ofLoop 0) (.user 0) (some 7)),
    .core (.fire (.relayThen (.user 1))), .core (.fire (.relayError (.user 1)))]

/-- The two states at the end. -/
def workerDone : Workers Nat := (runWorkers {} (fun _ => 0) byWorker).get (by decide +kernel)

def asyncDone : Workers Nat := (runWorkers {} (fun _ => 0) byAsync).get (by decide +kernel)

/-- A function that returns a Future. -/
theorem worker_and_async_agree_future :
    (workerDone.world.futures (.user 1)).resolver = some (.value (some 7)) ∧
      (asyncDone.world.futures (.user 1)).resolver = some (.value (some 7)) := by
  have huv : UvAsync.Ok {} := fun _ => ⟨rfl, rfl⟩
  have huw : UvWork.Ok (fun _ => 0) := fun _ => rfl
  have hrun : runWorkers {} (fun _ => 0) byWorker = some workerDone := (Option.some_get _).symm
  have hrun' : runWorkers {} (fun _ => 0) byAsync = some asyncDone := (Option.some_get _).symm
  have haborted : workerDone.world.aborted = none := by decide +kernel
  have haborted' : asyncDone.world.aborted = none := by decide +kernel
  have hquiet : workerDone.Quiet :=
    ⟨by decide +kernel, by decide +kernel,
      (runWorkers_inv huv huw hrun haborted).world.running_none (by decide +kernel), haborted⟩
  have hquiet' : asyncDone.Quiet :=
    ⟨by decide +kernel, by decide +kernel,
      (runWorkers_inv huv huw hrun' haborted').world.running_none (by decide +kernel), haborted'⟩
  have hret : Along (workerStep {} (fun _ => 0))
      (WorkerLabel.Returns fun _ => .future (.user 0)) {} byWorker := by decide +kernel
  have hret' : Along (workerStep {} (fun _ => 0))
      (WorkerLabel.Returns fun _ => .future (.user 0)) {} byAsync := by decide +kernel
  have hown : ∀ lab ∈ byWorker, lab.Leaves 1 := by
    simp [byWorker, WorkerLabel.Leaves, WorkerLabel.Settles, Label.Settles]
  have hown' : ∀ lab ∈ byAsync, lab.Leaves 1 := by
    simp [byAsync, WorkerLabel.Leaves, WorkerLabel.Settles, Label.Settles]
  have hworker : .worker 0 1 .futureValue ∈ byWorker := by simp [byWorker]
  have hasync : .core (.async 0 1 .futureValue) ∈ byAsync := by simp [byAsync]
  have hall := worker_and_async_agree huv huw hrun hrun' hret hret' hown hown' hworker hasync
  have hvalue : (asyncDone.world.futures (.user 1)).resolver = some (.value (some 7)) := by decide +kernel
  have hloop : (workerDone.world.futures (.user 0)).loop = 0 := by decide +kernel
  have hloop' : (asyncDone.world.futures (.user 0)).loop = 0 := by decide +kernel
  have hagree : (CallbackReturn.future (.user 0)).Agrees workerDone.world asyncDone.world
      (.future (.user 0)) := by
    show (workerDone.world.futures (.user 0)).resolver = (asyncDone.world.futures (.user 0)).resolver
    decide +kernel
  refine ⟨(hall.1 hquiet hquiet' ?_ ?_ hagree).trans hvalue, hvalue⟩
  · rintro g hg
    cases hg
    exact hloop
  · rintro g hg
    cases hg
    exact hloop'

end

end NodeNative
