import NodeNative.Async.Handlers
import NodeNative.Worker.Agreement

/-!
# Handlers in runs of workers

A handler that the program has registered stays one while the workers and the other actions go on
(`run_ofHandler`).
-/

namespace NodeNative

open Transition

section
variable {V : Type} {uv : UvAsync} {uvw : UvWork} {s s' : Workers V} {f : NodeId} {n : Nat}
  {isThen : Bool} {p : Option V}

/-- What leaves the futures of the node alone keeps its handler. -/
theorem World.Spares.ofHandler {w w' : World V} (hs : w.Spares (.user n) w')
    (h : w.OfHandler f n isThen p) : w'.OfHandler f n isThen p := by
  refine h.extends hs.extend (hs.registered _ _ h.registered)
    (fun b hb => hs.own_pending hb (h.own b hb)) (h.stage.kept hs.extend h.created (fun hx => ?_) ?_)
  · obtain ⟨r, hr⟩ := World.mem_executedIds_iff.mp hx
    exact World.mem_executedIds ((hs.own _ (.inl rfl)).2 r hr)
  · intro l
    rw [hs.running]

/-- Every step goes on with the handler. -/
theorem World.OfHandler.step_worker (huv : uv.Ok) (huw : uvw.Ok) (h : s.Inv) (hn : n ∉ s.requests)
    (hh : s.world.OfHandler f n isThen p) {lab : WorkerLabel V} (hlab : lab.Leaves n)
    (hret : lab.ReturnsOf n (.value p) s) (hstep : workerStep uv uvw s lab = some s')
    (hok : s'.world.aborted = none) : n ∉ s'.requests ∧ s'.world.OfHandler f n isThen p := by
  refine ⟨workerStep_requests huv huw h hstep hh.created hn, ?_⟩
  have hspares : (∀ lab', lab ≠ .core lab') → s'.world.OfHandler f n isThen p := by
    intro hcore
    refine World.Spares.ofHandler (workerStep_spares huv huw h hstep hok hcore ?_ ?_) hh
    · rintro r' rfl
      exact hn (by simp [Workers.requests, (workerStep_cases huv huw h hstep).1])
    · rintro rfl
      exact hn (by simp [Workers.requests, (workerStep_cases huv huw h hstep).1])
  cases lab with
  | core lab =>
    obtain ⟨w', hw', rfl⟩ := workerStep_cases huv huw h hstep
    refine hh.step huv h.world h.named hlab (fun l r hr hl => ?_) hw'
    subst hr
    exact hret hl
  | worker l' m R => exact hspares (by simp)
  | work m => exact hspares (by simp)
  | worked m r' => exact hspares (by simp)
  | after m => exact hspares (by simp)

/-- A call of `then` or `error` and the steps after it. -/
theorem run_ofHandler (huv : uv.Ok) (huw : uvw.Ok) {ls : List (WorkerLabel V)}
    (hret : Along (workerStep uv uvw) (fun s lab => lab.ReturnsOf n (.value p) s) {} ls)
    (hown : ∀ lab ∈ ls, lab.Leaves n) (hrun : runWorkers uv uvw ls = some s)
    (hok : s.world.aborted = none) {t : Thread}
    (hmem : .core (if isThen then .thenCb t f n .value else .errorCb t f n) ∈ ls) :
    s.world.OfHandler f n isThen p := by
  have hstep : ∀ hs (s : Workers V) lab s', s.Inv →
      (lab.ReturnsOf n (.value p) s ∧ lab.Leaves n) →
      (.core (if isThen then .thenCb t f n .value else .errorCb t f n) ∈ hs →
        n ∉ s.requests ∧ s.world.OfHandler f n isThen p) →
      workerStep uv uvw s lab = some s' → s'.world.aborted = none →
      .core (if isThen then .thenCb t f n .value else .errorCb t f n) ∈ hs ++ [lab] →
        n ∉ s'.requests ∧ s'.world.OfHandler f n isThen p := by
    rintro hs s lab s' hinv ⟨hret, hown⟩ hh hst hok' hmem
    rcases List.mem_append.mp hmem with hmem | hlast
    · obtain ⟨hn, hh⟩ := hh hmem
      exact hh.step_worker huv huw hinv hn hown hret hst hok'
    · cases List.mem_singleton.mp hlast
      obtain ⟨w', hw', rfl⟩ := workerStep_cases huv huw hinv hst
      obtain ⟨hn, hh⟩ := World.OfHandler.start huv hinv.world p hw'
      exact ⟨fun hreq => hn (hinv.request n hreq).passive.created, hh⟩
  exact (runWorkers_history huv huw hstep (fun hmem => absurd hmem List.not_mem_nil)
    (hret.and (Along.of_forall hown)) hrun hok hmem).2

end

end NodeNative
