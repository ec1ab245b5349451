import NodeNative.Async.Adopted
import NodeNative.Worker.Steps

/-!
# The invariant of the workers

Every step that does not end the process keeps `Workers.Inv` (`Workers.Inv.step`). What a step of one
worker does to the core leaves the other futures as they are (`World.Spares`), so what is known about
a future of an action or of another worker is known after it too.
-/

namespace NodeNative

open Transition

section
variable {V : Type} {uv : UvAsync} {uvw : UvWork} {w w' : World V} {a : NodeId}

/-! ## The callable of a worker -/

/-- The history after the `resolveCb` of the worker with the future `a`. -/
def World.calledBack (w : World V) (a : NodeId) : World V :=
  { w with executed := w.executed ++ [(a, .value none)] }

/-- The callback has been executed. -/
theorem World.calledBack_executedIds (w : World V) (a : NodeId) :
    (w.calledBack a).executedIds = w.executedIds ++ [a] := by
  simp [World.calledBack, World.executedIds]

/-- A worker's `resolveCb` is listed once. -/
theorem World.Inv.calledBack (h : w.Inv) (hp : w.Passive a) (hx : a ∉ w.executedIds) :
    (w.calledBack a).Inv := by
  have hmem : ∀ b, b ∈ (w.calledBack a).executedIds → b ∈ w.executedIds ∨ b = a := by
    intro b hb
    rw [World.calledBack_executedIds] at hb
    exact (List.mem_append.mp hb).imp_right List.mem_singleton.mp
  have hkeep : ∀ b, b ∈ w.executedIds → b ∈ (w.calledBack a).executedIds := by
    intro b hb
    rw [World.calledBack_executedIds]
    exact List.mem_append_left _ hb
  refine { h with
    executed_nodup := ?_, not_executed := ?_, idle := ?_, waiting := ?_, delivered := ?_,
    created_executed := ?_, created_relay := ?_, running := ?_, closing := ?_, post_pending := ?_ }
  · rw [World.calledBack_executedIds]
    exact nodup_snoc h.executed_nodup hx
  · intro b hb hbx
    rcases hmem b hbx with hbx | rfl
    · exact h.not_executed b hb hbx
    · exact hp.pending hb
  · exact fun b hb hbx => h.idle b hb fun hbx' => hbx (hkeep b hbx')
  · intro f b hb hf
    obtain ⟨hbp, hbx⟩ := h.waiting f b hb hf
    refine ⟨hbp, fun hbx' => ?_⟩
    rcases hmem b hbx' with hbx' | rfl
    · exact hbx hbx'
    · exact hp.actions f hb
  · exact fun f b r hb hf => (h.delivered f b r hb hf).imp_right (List.mem_append_left _)
  · intro b hb
    rcases hmem b hb with hb | rfl
    · exact h.created_executed b hb
    · exact hp.created
  · exact fun b hb => (h.created_relay b hb).imp_left (hkeep b)
  · intro l b hl
    obtain ⟨hloop, r, hbx, hs⟩ := h.running l b hl
    exact ⟨hloop, r, List.mem_append_left _ hbx, hs⟩
  · intro b hb
    obtain ⟨⟨r, hbx, hs⟩, hrun⟩ := h.closing b hb
    exact ⟨⟨r, List.mem_append_left _ hbx, hs⟩, hrun⟩
  · intro b hb
    obtain ⟨hbp, hbx, hreg⟩ := h.post_pending b hb
    refine ⟨hbp, fun hbx' => ?_, hreg⟩
    rcases hmem b hbx' with hbx' | rfl
    · exact hbx hbx'
    · exact hp.post (h.created_pending _ hb)

/-- Calling back only adds to the world. -/
theorem World.Extends.calledBack (w : World V) (a : NodeId) : w.Extends (w.calledBack a) :=
  { World.Extends.refl w with executed := fun _ hx => List.mem_append_left _ hx }

/-! ## The other futures -/

/-- What leads from `w` to `w'` does nothing to the future of `a` and its relays. -/
structure World.Spares (w : World V) (a : NodeId) (w' : World V) : Prop where
  inv : w'.Inv
  named : w'.RelaysNamed
  extend : w.Extends w'
  running : w'.running = w.running
  pending : ∀ b ∈ w.pending, b ∈ w'.pending ∧ w'.action b = w.action b
  registered : ∀ f b, w.Registered f b → w'.Registered f b
  own : ∀ b, b = a ∨ b = .relayThen a ∨ b = .relayError a →
    (w'.futures b).resolver = (w.futures b).resolver ∧ ∀ r, (b, r) ∈ w'.executed → (b, r) ∈ w.executed

/-- Calls of the API that may settle none of these futures. -/
theorem World.Updates.spares (h : w.Inv) (hn : w.RelaysNamed) {t : Thread} {may : NodeId → Prop}
    (hmay : ∀ b, b = a ∨ b = .relayThen a ∨ b = .relayError a → ¬ may b)
    (hu : w.Updates t may w') : w.Spares a w' := by
  have hc := hu.called h
  refine
    { inv := hc.inv, named := hu.relaysNamed hn, extend := hc.extend, running := hc.running,
      pending := fun b hb => ⟨hc.pending b hb, hc.action b (.inl hb)⟩,
      registered := fun _ _ hreg => hc.registered hreg, own := fun b hb => ⟨?_, fun r hx => ?_⟩ }
  · exact hu.resolver_eq h (hmay b hb)
  · rwa [hc.executed] at hx

/-- The callable of a worker with another future. -/
theorem World.Inv.spares_calledBack (h : w.Inv) (hn : w.RelaysNamed) {n : Nat}
    (hp : w.Passive (.user n)) (hx : .user n ∉ w.executedIds) (hne : a ≠ .user n) :
    w.Spares a (w.calledBack (.user n)) := by
  refine
    { inv := h.calledBack hp hx, named := hn, extend := .calledBack w _, running := rfl,
      pending := fun b hb => ⟨hb, rfl⟩, registered := fun _ _ hreg => hreg,
      own := fun b hb => ⟨rfl, fun r hbx => ?_⟩ }
  refine (List.mem_append.mp hbx).resolve_right fun hlast => ?_
  cases List.mem_singleton.mp hlast
  rcases hb with hb | hb | hb
  · exact hne hb.symm
  · cases hb
  · cases hb

/-- A step of others leaves the own actions of a node on their loops, -/
theorem World.Spares.own_pending (h : w.Spares a w') {b : NodeId}
    (hb : b = a ∨ b = .relayThen a ∨ b = .relayError a) (hown : w.OwnPending b) :
    w'.OwnPending b := by
  intro hbusy
  rw [(h.own b hb).1]
  refine hown ?_
  rw [h.running] at hbusy
  exact hbusy.imp_left fun hx hx' => hx (h.extend.executedIds hx')

/-- what it relays, -/
theorem World.Spares.relays (h : w.Spares a w') {g : NodeId} (ha : w.Relays g a) :
    w'.Relays g a :=
  ha.extends h.inv h.named h.extend h.registered
    fun b hb => h.own_pending (.inr hb) (ha.own b hb)

/-- what it adopted, -/
theorem World.Spares.adopted (h : w.Spares a w') {g : NodeId} (ha : w.Adopted g a) :
    w'.Adopted g a :=
  ha.kept (h.relays ha.relays) h.extend (h.own a (.inl rfl)).1 fun b hb => (h.own b (.inr hb)).2

/-- and what its callback has returned. -/
theorem World.Spares.ended (h : w.Spares a w') (haborted : w.aborted = none)
    {r : CallbackReturn V} (hr : w.Ended a r) : w'.Ended a r := by
  refine hr.kept h.extend (fun hsome => ?_) (fun g hg => h.relays hg) fun g hg => h.adopted hg
  rw [haborted] at hsome
  cases hsome

/-! ## The steps -/

section
variable {s s' : Workers V} {n : Nat}

/-- A request stays with libuv while the core extends its state. -/
theorem Workers.Request.kept (h : s.Request n) (hp : w'.Passive (.user n))
    (hext : s.world.Extends w') (hrun : ∀ l, w'.running l ≠ some (.user n))
    (hnew : ∀ b, b = .relayThen (.user n) ∨ b = .relayError (.user n) → b ∉ w'.created)
    (hworld : s'.world = w') (hworker : s'.worker n = s.worker n) : s'.Request n := by
  subst hworld
  refine ⟨hp, ?_, ?_, ?_, hrun, hnew⟩
  · rw [(hext.future _ h.passive.created).1, hworker]
    exact h.loop
  · rw [hworker]
    exact h.data
  · rw [hworker]
    exact h.inst

/-- So it does after calls of the API that may not settle its future. -/
theorem Workers.Request.updates (hinv : s.world.Inv) (h : s.Request n) {t : Thread}
    {may : NodeId → Prop} (hmay : ¬ may (.user n)) (hu : s.world.Updates t may w')
    (hworld : s'.world = w') (hworker : s'.worker n = s.worker n) : s'.Request n := by
  have hc := hu.called hinv
  refine h.kept (h.passive.updates hinv hu) hc.extend ?_ ?_ hworld hworker
  · rw [hc.running]
    exact h.running
  · exact fun b hb hmem => h.relays b hb (hu.relays_created hmay hb hmem)

/-- A request that has just been made. -/
theorem Workers.Inv.request_new (h : s.Inv) (hn : .user n ∉ s.world.created) (l : LoopId)
    (R : RetType) : (s.requested l n R).Request n := by
  have hfut : (s.requested l n R).world.futures (.user n) =
      { loop := l, isVoid := R = .void || R = .futureVoid } := by
    simp [Workers.requested, World.createFuture, World.setFuture]
  have hworker : (s.requested l n R).worker n = { loop := l, R, data := true, inst := true } := by
    simp [Workers.requested]
  refine ⟨h.world.passive_createFuture hn l _, ?_, ?_, ?_, fun l' hl => ?_, fun b hb hmem => ?_⟩
  · rw [hfut, hworker]
  · rw [hworker]
  · rw [hworker]
  · obtain ⟨-, r, hx, -⟩ := h.world.running l' _ hl
    exact hn (h.world.created_executed _ (World.mem_executedIds hx))
  · have hrelay : b ∈ s.world.created := by
      rcases List.mem_cons.mp hmem with rfl | hmem
      · rcases hb with hb | hb <;> cases hb
      · exact hmem
    refine hn (h.world.created_executed _ (h.world.created_relay _ ?_).1)
    rcases hb with rfl | rfl
    · exact .inl hrelay
    · exact .inr hrelay

/-- The updates of a call of `worker`. -/
theorem Workers.requested_updates (hn : .user n ∉ s.world.created) (l : LoopId) (R : RetType) :
    s.world.Updates (Thread.ofLoop l) (fun _ => False) (s.requested l n R).world :=
  .promise .refl hn l _

/-- The updates of a worker whose loop replays its result. -/
theorem Workers.Inv.replays_updates (h : s.Inv) (hn : n ∈ s.worked) {res : WorkerResolver V}
    (hres : (s.worker n).resolver = some res)
    (hrep : s.world.Replays (s.worker n).loop (.user n) res w') :
    s.world.Updates (Thread.ofLoop (s.worker n).loop) (· = .user n) w' := by
  have hreq := h.request n (by simp [Workers.requests, hn])
  obtain ⟨hx, res', hres', hg⟩ := h.answered n hn
  cases hres.symm.trans hres'
  exact hrep.updates h.world hreq.loop hx hreq.running hreq.relays hg

/-- A request that goes from one list to the end of the next one. -/
theorem moved_perm {l m : List Nat} (hn : n ∈ l) : (l.erase n ++ (m ++ [n])).Perm (l ++ m) := by
  rw [← List.append_assoc]
  refine (List.perm_append_singleton n _).trans ?_
  exact List.Perm.append_right m (List.perm_cons_erase hn).symm

/-- The loop takes the request of a worker from libuv. -/
theorem Workers.Inv.requests_erase (h : s.Inv) (hn : n ∈ s.worked) :
    s.queued ++ s.working ++ s.worked.erase n = s.requests.erase n ∧
      n ∉ s.queued ++ s.working ++ s.worked.erase n := by
  have hnot : n ∉ s.queued ++ s.working := fun hmem =>
    (List.nodup_append.mp h.nodup).2.2 n hmem n hn rfl
  have heq : s.queued ++ s.working ++ s.worked.erase n = s.requests.erase n :=
    (List.erase_append_right _ hnot).symm
  exact ⟨heq, heq ▸ h.nodup.not_mem_erase⟩

/-- A step of the core keeps the invariant. -/
theorem Workers.Inv.core (huv : uv.Ok) (h : s.Inv) {lab : Label V}
    (hstep : NodeNative.step uv s.world lab = some w') : ({ s with world := w' } : Workers V).Inv := by
  obtain ⟨hinv', hext⟩ := step_inv huv h.world hstep
  refine
    { world := hinv', named := h.named.step huv h.world hstep, mutex := h.mutex, nodup := h.nodup,
      request := fun n hn => ?_, asked := fun n hn hx => ?_, answered := fun n hn => ?_ }
  · have hreq := h.request n hn
    obtain ⟨hnew, hrun⟩ :=
      hreq.passive.step_relays hreq.relays hreq.running huv h.world h.named hstep
    exact hreq.kept (hreq.passive.step huv h.world hstep) hext hrun hnew rfl rfl
  · have hreq := h.request n (List.mem_append_left _ hn)
    exact h.asked n hn (hreq.passive.step_executedIds huv h.world hstep hx)
  · obtain ⟨hx, res, hres, hg⟩ := h.answered n hn
    exact ⟨hext.executedIds hx, res, hres, fun g hgr => hext.created g (hg g hgr)⟩

/-- So does a call of `worker`, -/
theorem Workers.Inv.requested (h : s.Inv) (hn : .user n ∉ s.world.created) (l : LoopId)
    (R : RetType) : (s.requested l n R).Inv := by
  have hne : ∀ m ∈ s.requests, m ≠ n := by
    rintro m hm rfl
    exact hn (h.request m hm).passive.created
  have hperm : (s.requested l n R).requests.Perm (n :: s.requests) := by
    simp only [Workers.requests, Workers.requested, List.append_assoc, List.singleton_append]
    exact List.perm_middle
  have hu := Workers.requested_updates (s := s) hn l R
  have hc := hu.called h.world
  refine
    { world := hc.inv, named := hu.relaysNamed h.named, mutex := h.mutex, nodup := ?_,
      request := fun m hm => ?_, asked := fun m hm hx => ?_, answered := fun m hm => ?_ }
  · exact hperm.nodup_iff.mpr (List.nodup_cons.mpr ⟨fun hmem => hne n hmem rfl, h.nodup⟩)
  · rcases List.mem_cons.mp (hperm.mem_iff.mp hm) with rfl | hm
    · exact h.request_new hn l R
    · exact (h.request m hm).updates h.world (fun hfalse => hfalse) hu rfl
        (Function.update_of_ne (hne m hm) _ _)
  · have hx' : .user m ∈ s.world.executedIds := hx
    have hmn : m ≠ n := by
      rintro rfl
      exact hn (h.world.created_executed _ hx')
    have hm' : m ∈ s.queued ++ [n] ++ s.working := hm
    exact h.asked m (by simpa [hmn] using hm') hx'
  · obtain ⟨hx, res, hres, hg⟩ := h.answered m hm
    refine ⟨hx, res, ?_, fun g hgr => hc.extend.created g (hg g hgr)⟩
    exact (congrArg _ (Function.update_of_ne (hne m (List.mem_append_right _ hm)) _ _)).trans hres

/-- a thread that takes a request, -/
theorem Workers.Inv.taken (h : s.Inv) (hn : n ∈ s.queued) :
    ({ s with queued := s.queued.erase n, working := s.working ++ [n] } : Workers V).Inv := by
  have hperm : (s.queued.erase n ++ (s.working ++ [n])).Perm (s.queued ++ s.working) :=
    moved_perm hn
  have hall : (s.queued.erase n ++ (s.working ++ [n]) ++ s.worked).Perm s.requests :=
    hperm.append_right _
  refine
    { world := h.world, named := h.named, mutex := h.mutex, nodup := hall.nodup_iff.mpr h.nodup,
      request := fun m hm => ?_, asked := fun m hm => h.asked m (hperm.mem_iff.mp hm),
      answered := h.answered }
  obtain ⟨hp, hl, hd, hi, hr, hrel⟩ := h.request m (hall.mem_iff.mp hm)
  exact ⟨hp, hl, hd, hi, hr, hrel⟩

/-- the end of a callable, -/
theorem Workers.Inv.answered_kept (h : s.Inv) (hn : n ∈ s.working) {r : CallbackReturn V}
    (hacc : (ActionClass.actionCallback (s.worker n).R).accepts s.world r = true) :
    ({ s with working := s.working.erase n, worked := s.worked ++ [n] }.answered n r).Inv := by
  have hall : (s.queued ++ s.working.erase n ++ (s.worked ++ [n])).Perm s.requests := by
    rw [Workers.requests, List.append_assoc, List.append_assoc]
    exact (moved_perm hn).append_left _
  have hreq := h.request n (by simp [Workers.requests, hn])
  have hx := h.asked n (List.mem_append_right _ hn)
  have hfree : n ∉ s.queued ++ s.working.erase n ++ s.worked := by
    have hall' := hall.nodup_iff.mpr h.nodup
    rw [← List.append_assoc] at hall'
    exact fun hmem => (List.nodup_append.mp hall').2.2 n hmem n (.head _) rfl
  have hids := s.world.calledBack_executedIds (.user n)
  refine
    { world := h.world.calledBack hreq.passive hx, named := h.named, mutex := h.mutex,
      nodup := hall.nodup_iff.mpr h.nodup, request := fun m hm => ?_, asked := fun m hm hmx => ?_,
      answered := fun m hm => ?_ }
  · obtain ⟨⟨hc, hp, ha, hpost, hpush⟩, hl, hd, hi, hr, hrel⟩ := h.request m (hall.mem_iff.mp hm)
    obtain ⟨hl', hd', hi', -⟩ := Workers.answered_worker
      { s with working := s.working.erase n, worked := s.worked ++ [n] } n m r
    exact ⟨⟨hc, hp, ha, hpost, hpush⟩, hl.trans hl'.symm, hd'.trans hd, hi'.trans hi, hr, hrel⟩
  · have hm' : m ∈ s.queued ++ s.working.erase n := hm
    have hmx' : .user m ∈ s.world.executedIds ++ [.user n] := hids ▸ hmx
    rcases List.mem_append.mp hmx' with hmx' | hmn
    · refine h.asked m ?_ hmx'
      exact (List.mem_append.mp hm').elim (List.mem_append_left _)
        fun hmem => List.mem_append_right _ (List.mem_of_mem_erase hmem)
    · cases List.mem_singleton.mp hmn
      exact hfree (List.mem_append_left _ hm')
  · have hm' : m ∈ s.worked ++ [n] := hm
    obtain ⟨-, -, -, hres'⟩ := Workers.answered_worker
      { s with working := s.working.erase n, worked := s.worked ++ [n] } n m r
    rw [hres']
    rcases List.mem_append.mp hm' with hmem | hmn
    · obtain ⟨hmx, res, hres, hg⟩ := h.answered m hmem
      have hmn : m ≠ n := by
        rintro rfl
        exact hfree (List.mem_append_right _ hmem)
      rw [if_neg hmn]
      exact ⟨(World.Extends.calledBack s.world _).executedIds hmx, res, hres, hg⟩
    · cases List.mem_singleton.mp hmn
      rw [if_pos rfl]
      refine ⟨?_, r.resolved, rfl, fun g hg => ?_⟩
      · show NodeId.user n ∈ (s.world.calledBack (.user n)).executedIds
        rw [hids]
        exact List.mem_append_right _ (.head _)
      · cases r with
        | future g' =>
          cases hg
          have hboth := (Bool.and_eq_true _ _).mp hacc
          exact List.contains_iff_mem.mp hboth.1
        | _ => cases hg

/-- and the loop that replays its result. -/
theorem Workers.Inv.replayed (h : s.Inv) (hn : n ∈ s.worked) {res : WorkerResolver V}
    (hres : (s.worker n).resolver = some res)
    (hrep : s.world.Replays (s.worker n).loop (.user n) res w') :
    ({ s with worked := s.worked.erase n }.replayed n w').Inv := by
  have hu := h.replays_updates hn hres hrep
  have hc := hu.called h.world
  obtain ⟨herase, hgone⟩ := h.requests_erase hn
  have hne : ∀ m ∈ s.queued ++ s.working ++ s.worked.erase n, m ∈ s.requests ∧ m ≠ n := by
    intro m hm
    refine ⟨List.mem_of_mem_erase (herase ▸ hm), ?_⟩
    rintro rfl
    exact hgone hm
  refine
    { world := hc.inv, named := hu.relaysNamed h.named, mutex := h.mutex, nodup := ?_,
      request := fun m hm => ?_, asked := fun m hm hx => h.asked m hm ?_,
      answered := fun m hm => ?_ }
  · show (s.queued ++ s.working ++ s.worked.erase n).Nodup
    rw [herase]
    exact h.nodup.erase n
  · obtain ⟨hm, hmn⟩ := hne m hm
    have hmay : ¬ (NodeId.user m = .user n) := fun heq => hmn (by injection heq)
    exact (h.request m hm).updates h.world hmay hu rfl (Function.update_of_ne hmn _ _)
  · have hx' : .user m ∈ w'.executedIds := hx
    rwa [World.executedIds, hc.executed] at hx'
  · obtain ⟨hx, res', hres', hg⟩ := h.answered m (List.mem_of_mem_erase hm)
    obtain ⟨-, hmn⟩ := hne m (List.mem_append_right _ hm)
    refine ⟨hc.extend.executedIds hx, res', ?_, fun g hgr => hc.extend.created g (hg g hgr)⟩
    exact (congrArg _ (Function.update_of_ne hmn _ _)).trans hres'

/-- Every step that does not end the process keeps the invariant. -/
theorem Workers.Inv.step (huv : uv.Ok) (huw : uvw.Ok) (h : s.Inv) {lab : WorkerLabel V}
    (hstep : workerStep uv uvw s lab = some s') (hok : s'.world.aborted = none) : s'.Inv := by
  have hcases := workerStep_cases huv huw h hstep
  cases lab with
  | core lab =>
    obtain ⟨w', hw', rfl⟩ := hcases
    exact h.core huv hw'
  | worker l n R =>
    obtain ⟨hn, rfl⟩ := hcases
    exact h.requested hn l R
  | work n =>
    obtain ⟨hn, rfl⟩ := hcases
    exact h.taken hn
  | worked n r =>
    obtain ⟨hn, hacc, ⟨-, rfl⟩ | ⟨m, -, rfl⟩⟩ := hcases
    · exact h.answered_kept hn hacc
    · cases hok
  | after n =>
    obtain ⟨hn, -, res, w', hres, hrep | ⟨e, rfl⟩, rfl⟩ := hcases
    · exact h.replayed hn hres hrep
    · cases hok

/-- At the start there is no request. -/
theorem Workers.Inv.init : ({} : Workers V).Inv where
  world := .init
  named := .init
  mutex := rfl
  nodup := .nil
  request _ hn := absurd hn List.not_mem_nil
  asked _ hn := absurd hn List.not_mem_nil
  answered _ hn := absurd hn List.not_mem_nil

/-- No step takes anything back. -/
theorem workerStep_extends (huv : uv.Ok) (huw : uvw.Ok) (h : s.Inv) {lab : WorkerLabel V}
    (hstep : workerStep uv uvw s lab = some s') : s.world.Extends s'.world := by
  have hcases := workerStep_cases huv huw h hstep
  cases lab with
  | core lab =>
    obtain ⟨w', hw', rfl⟩ := hcases
    exact (step_inv huv h.world hw').2
  | worker l n R =>
    obtain ⟨hn, rfl⟩ := hcases
    exact ((Workers.requested_updates hn l R).called h.world).extend
  | work n =>
    obtain ⟨-, rfl⟩ := hcases
    exact .refl _
  | worked n r =>
    obtain ⟨-, -, ⟨-, rfl⟩ | ⟨m, -, rfl⟩⟩ := hcases
    · exact .calledBack _ _
    · exact { World.Extends.calledBack s.world (.user n) with }
  | after n =>
    obtain ⟨hn, -, res, w', hres, hrep | ⟨e, rfl⟩, rfl⟩ := hcases
    · exact ((h.replays_updates hn hres hrep).called h.world).extend
    · exact { World.Extends.refl s.world with }

/-- Only a call of `worker` makes a request. -/
theorem workerStep_requests (huv : uv.Ok) (huw : uvw.Ok) (h : s.Inv) {lab : WorkerLabel V}
    (hstep : workerStep uv uvw s lab = some s') (hc : .user n ∈ s.world.created)
    (hn : n ∉ s.requests) : n ∉ s'.requests := by
  have hcases := workerStep_cases huv huw h hstep
  have hmoved : ∀ {m : Nat}, m ∈ s.working →
      n ∉ s.queued ++ s.working.erase m ++ (s.worked ++ [m]) := by
    intro m hm hn'
    rw [List.append_assoc] at hn'
    refine hn ?_
    rw [Workers.requests, List.append_assoc]
    exact ((moved_perm hm).append_left s.queued).mem_iff.mp hn'
  intro hn'
  cases lab with
  | core lab =>
    obtain ⟨w', -, rfl⟩ := hcases
    exact hn hn'
  | worker l m R =>
    obtain ⟨hm, rfl⟩ := hcases
    have hne : n ≠ m := by
      rintro rfl
      exact hm hc
    refine hn ?_
    simpa [Workers.requests, Workers.requested, hne] using hn'
  | work m =>
    obtain ⟨hm, rfl⟩ := hcases
    exact hn (((moved_perm hm).append_right s.worked).mem_iff.mp hn')
  | worked m r =>
    obtain ⟨hm, -, ⟨-, rfl⟩ | ⟨m', -, rfl⟩⟩ := hcases
    · exact hmoved hm hn'
    · exact hmoved hm hn'
  | after m =>
    obtain ⟨hm, -, res, w', -, -, rfl⟩ := hcases
    have hn'' : n ∈ s.queued ++ s.working ++ s.worked.erase m := hn'
    rw [(h.requests_erase hm).1] at hn''
    exact hn (List.mem_of_mem_erase hn'')

/-- What a step of the workers leaves as it is, when it is no step of the core nor one of the worker
`n` itself. -/
theorem workerStep_spares (huv : uv.Ok) (huw : uvw.Ok) (h : s.Inv) {lab : WorkerLabel V}
    (hstep : workerStep uv uvw s lab = some s') (hok : s'.world.aborted = none)
    (hcore : ∀ lab', lab ≠ .core lab') (hworked : ∀ r, lab ≠ .worked n r) (hafter : lab ≠ .after n) :
    s.world.Spares (.user n) s'.world := by
  have hcases := workerStep_cases huv huw h hstep
  cases lab with
  | core lab => exact absurd rfl (hcore lab)
  | worker l m R =>
    obtain ⟨hm, rfl⟩ := hcases
    exact (Workers.requested_updates hm l R).spares h.world h.named fun b _ hfalse => hfalse
  | work m =>
    obtain ⟨-, rfl⟩ := hcases
    exact World.Updates.spares h.world h.named (t := Thread.ofLoop 0) (fun b _ hfalse => hfalse) .refl
  | worked m r =>
    obtain ⟨hm, -, ⟨-, rfl⟩ | ⟨m', -, rfl⟩⟩ := hcases
    · have hne : NodeId.user n ≠ .user m := by
        intro heq
        injection heq with heq
        exact hworked r (by rw [heq])
      exact h.world.spares_calledBack h.named (h.request m (by simp [Workers.requests, hm])).passive
        (h.asked m (List.mem_append_right _ hm)) hne
    · cases hok
  | after m =>
    obtain ⟨hm, -, res, w', hres, hrep | ⟨e, rfl⟩, rfl⟩ := hcases
    · refine (h.replays_updates hm hres hrep).spares h.world h.named fun b hb heq => ?_
      subst heq
      rcases hb with hb | hb | hb
      · injection hb with hb
        exact hafter (by rw [hb])
      · cases hb
      · cases hb
    · cases hok

end

end

end NodeNative
