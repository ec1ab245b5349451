import NodeNative.Fs.Basic
import NodeNative.Lib.Transition

/-!
# The registry of loops

`_loopMap` holds a weak pointer to a loop for each thread. `Loop::Create` and the three functions
that run a loop register it for the thread they are called on, which takes the entry away that the
loop has elsewhere; the destructor of a loop deregisters it.

`Registry` is the map with the loops that are alive, and `registryStep` its transition function: the
creations, runs and destructions, on any threads and in any order. Whatever has been done, a loop
that is alive has one entry at most, and `GetInstance` answers with the loop that was registered last
for the thread, as long as it is alive and was not registered for another thread since
(`Registry.Inv`). The destructor however runs when the weak pointers to the loop have expired, and
`deregisterLoop` passes over such entries: it never removes the entry of its own loop
(`Registry.mem_destroy`). So every entry refers to a loop that is alive exactly as long as no loop is
destroyed that has an entry (`registry_holds_iff`).
-/

namespace NodeNative.Base

open Fs

/-! ### Model -/

/-- The registry of the process. `alive` are the loops that have a `std::shared_ptr`, `started` those
that have a `uv_loop_t`, `created` all that were made. `registered` is a history: the registrations,
the newest first. -/
structure Registry where
  loopMap : LoopMap := []
  alive : List LoopId := []
  started : List LoopId := []
  created : List LoopId := []
  registered : List (ThreadId × LoopId) := []
deriving DecidableEq, Repr

/-- An operation on a thread. `uvInit` is what `uv_loop_init` returns. -/
inductive RegistryOp
  | create (t : ThreadId) (l : LoopId) (uvInit : Int)
  | run (t : ThreadId) (l : LoopId)
  | runOnce (t : ThreadId) (l : LoopId)
  | runNowait (t : ThreadId) (l : LoopId)
  | destroy (t : ThreadId) (l : LoopId)
deriving DecidableEq, Repr

namespace Registry

/-- Source: `Loop.cpp:60` `registerLoop`. -/
def register (s : Registry) (t : ThreadId) (l : LoopId) : Registry :=
  { s with loopMap := registerLoop s.loopMap t l, registered := (t, l) :: s.registered }

/-- The weak pointers to a loop expire when its last `std::shared_ptr` is gone. -/
def expire (loops : LoopMap) (l : LoopId) : LoopMap :=
  loops.map fun e => (e.1, { e.2 with expired := e.2.expired || e.2.loop == l })

/-- Source: `Loop.cpp:82` `Loop::Create`, with the constructor at `Loop.cpp:120`. -/
def create (s : Registry) (t : ThreadId) (l : LoopId) (uvInit : Int) : Registry :=
  { s with
    alive := l :: s.alive
    created := l :: s.created
    started := if uvInit = 0 then l :: s.started else s.started }.register t l

/-- Source: `Loop.cpp:132` `Loop::run` and `Loop.cpp:143` `Loop::run_once`. The assertion is in front
of the registration. What the callbacks of the loop do are operations of their own. -/
def run (s : Registry) (t : ThreadId) (l : LoopId) : Except Exn Unit × Registry :=
  if l ∈ s.started then (.ok (), s.register t l) else (.error (assertionFailed "_uv_loop"), s)

/-- Source: `Loop.cpp:130` `Loop::~Loop`. -/
def destroy (s : Registry) (l : LoopId) : Registry :=
  { s with
    alive := s.alive.filter (· ≠ l)
    loopMap := deregisterLoop (expire s.loopMap l) l }

end Registry

/-- One operation. A loop is made once, and what is run or destroyed is alive. `run_nowait` of a loop
without a `uv_loop_t` does not come back from `uv_run`. -/
def registryStep (s : Registry) : RegistryOp → Option Registry
  | .create t l uvInit => if l ∈ s.created then none else some (s.create t l uvInit)
  | .run t l | .runOnce t l => if l ∈ s.alive then some (s.run t l).2 else none
  | .runNowait t l => if l ∈ s.alive ∧ l ∈ s.started then some (s.register t l) else none
  | .destroy _ l => if l ∈ s.alive then some (s.destroy l) else none

/-! ### The map -/

/-- The order of the map tells two threads apart. -/
theorem equiv_threadId {t t' : ThreadId} : OrderedMap.Equiv (· < ·) t t' ↔ t = t' := by
  constructor
  · rintro ⟨hle, hge⟩
    exact Nat.le_antisymm (Nat.not_lt.mp hge) (Nat.not_lt.mp hle)
  · rintro rfl
    exact ⟨Nat.lt_irrefl t, Nat.lt_irrefl t⟩

/-- An entry is what its thread finds. -/
theorem mem_iff_find? {loops : LoopMap} (h : OrderedMap.Sorted (· < ·) loops)
    {t : ThreadId} {w : WeakLoop} :
    (t, w) ∈ loops ↔ OrderedMap.find? (· < ·) t loops = some w := by
  rw [h.find?_eq_some_iff]
  simp only [equiv_threadId, exists_eq_left]

section
variable {loops : LoopMap} (hsorted : OrderedMap.Sorted (· < ·) loops)

/-- No two entries refer to the same loop that is alive. -/
def OneEntry (loops : LoopMap) : Prop :=
  loops.Pairwise fun e e' => ¬ (e.2.expired = false ∧ e'.2.expired = false ∧ e.2.loop = e'.2.loop)

include hsorted in
/-- `GetInstance` finds the loop of the entry that has not expired. -/
theorem getInstance_eq_some {t : ThreadId} {l : LoopId} :
    Loop.getInstance loops t = some l ↔ (t, ⟨l, false⟩) ∈ loops := by
  have hfind (w : WeakLoop) : OrderedMap.find? (· < ·) t loops = some w ↔ (t, w) ∈ loops :=
    (mem_iff_find? hsorted).symm
  unfold Loop.getInstance
  cases hw : OrderedMap.find? (· < ·) t loops with
  | none =>
    have hnone : (t, ⟨l, false⟩) ∉ loops := fun hmem => by
      rw [(hfind _).mpr hmem] at hw
      cases hw
    simp [hnone]
  | some w =>
    have hmem : (t, w) ∈ loops := (hfind w).mp hw
    obtain ⟨l', expired⟩ := w
    constructor
    · cases expired with
      | true => rintro ⟨⟩
      | false =>
        rintro ⟨⟩
        exact hmem
    · intro hmem'
      rw [(hfind _).mpr hmem'] at hw
      cases hw
      rfl

/-- What is left when an entry that satisfies a condition is removed, where one does at most. -/
theorem mem_eraseP_iff {α : Type} {p : α → Bool} {as : List α}
    (h : as.Pairwise fun a b => ¬ (p a = true ∧ p b = true)) {a : α} :
    a ∈ as.eraseP p ↔ a ∈ as ∧ p a = false := by
  induction as with
  | nil => simp
  | cons b as ih =>
    obtain ⟨hhead, htail⟩ := List.pairwise_cons.mp h
    cases hb : p b with
    | true =>
      rw [List.eraseP_cons_of_pos hb, List.mem_cons]
      constructor
      · intro hmem
        refine ⟨.inr hmem, Bool.eq_false_iff.mpr fun ha => hhead a hmem ⟨hb, ha⟩⟩
      · rintro ⟨rfl | hmem, ha⟩
        · rw [hb] at ha; cases ha
        · exact hmem
    | false =>
      rw [List.eraseP_cons_of_neg (by rw [hb]; exact Bool.false_ne_true), List.mem_cons, ih htail,
        List.mem_cons]
      constructor
      · rintro (rfl | ⟨hmem, ha⟩)
        · exact ⟨.inl rfl, hb⟩
        · exact ⟨.inr hmem, ha⟩
      · rintro ⟨rfl | hmem, ha⟩
        · exact .inl rfl
        · exact .inr ⟨hmem, ha⟩

/-- Deregistering a loop removes its entry. -/
theorem mem_deregisterLoop (hone : OneEntry loops) {l : LoopId} {e : ThreadId × WeakLoop} :
    e ∈ deregisterLoop loops l ↔ e ∈ loops ∧ ¬ (e.2.expired = false ∧ e.2.loop = l) := by
  have hpair : loops.Pairwise fun e e' =>
      ¬ ((!e.2.expired && e.2.loop == l) = true ∧ (!e'.2.expired && e'.2.loop == l) = true) := by
    refine hone.imp fun hne hboth => hne ?_
    simp only [Bool.and_eq_true, Bool.not_eq_true', beq_iff_eq] at hboth
    exact ⟨hboth.1.1, hboth.2.1, hboth.1.2.trans hboth.2.2.symm⟩
  rw [deregisterLoop, mem_eraseP_iff hpair]
  simp

include hsorted in
/-- Registering a loop gives its thread an entry and takes away every other one of the two. -/
theorem mem_registerLoop (hone : OneEntry loops) {t : ThreadId} {l : LoopId}
    {t' : ThreadId} {w : WeakLoop} :
    (t', w) ∈ registerLoop loops t l ↔ t' = t ∧ w = ⟨l, false⟩ ∨
      t' ≠ t ∧ (t', w) ∈ loops ∧ ¬ (w.expired = false ∧ w.loop = l) := by
  have hrest : OrderedMap.Sorted (· < ·) (deregisterLoop loops l) :=
    hsorted.sublist (List.eraseP_sublist)
  rw [registerLoop, mem_iff_find? (hrest.insert t ⟨l, false⟩), OrderedMap.find?_insert,
    ← mem_deregisterLoop hone, mem_iff_find? hrest]
  split
  · rename_i ht
    cases equiv_threadId.mp ht
    simp [eq_comm]
  · rename_i ht
    rw [equiv_threadId] at ht
    simp [Ne.symm ht]

end

/-! ### The registrations -/

/-- The loop is the one that was registered last for the thread, and it was not registered for
another thread since. -/
def LastFor (registered : List (ThreadId × LoopId)) (t : ThreadId) (l : LoopId) : Prop :=
  ∃ since before, registered = since ++ (t, l) :: before ∧ ∀ e ∈ since, e.1 ≠ t ∧ e.2 ≠ l

section
variable {registered : List (ThreadId × LoopId)} {t t' : ThreadId} {l l' : LoopId}

/-- The last registration of a thread, read off the list of them. -/
theorem lastFor_cons : LastFor ((t, l) :: registered) t' l' ↔
    t' = t ∧ l' = l ∨ t' ≠ t ∧ l' ≠ l ∧ LastFor registered t' l' := by
  constructor
  · rintro ⟨since, before, heq, hsince⟩
    cases since with
    | nil =>
      cases heq
      exact .inl ⟨rfl, rfl⟩
    | cons e since =>
      cases heq
      obtain ⟨hhead, htail⟩ := List.forall_mem_cons.mp hsince
      exact .inr ⟨Ne.symm hhead.1, Ne.symm hhead.2, since, before, rfl, htail⟩
  · rintro (⟨rfl, rfl⟩ | ⟨ht, hl, since, before, rfl, hsince⟩)
    · exact ⟨[], registered, rfl, fun e he => absurd he List.not_mem_nil⟩
    · exact ⟨(t, l) :: since, before, rfl,
        List.forall_mem_cons.mpr ⟨⟨Ne.symm ht, Ne.symm hl⟩, hsince⟩⟩

/-- A loop is the last for one thread only. -/
theorem LastFor.thread_eq (h : LastFor registered t l) (h' : LastFor registered t' l) : t = t' := by
  induction registered with
  | nil =>
    obtain ⟨since, before, heq, -⟩ := h
    cases since <;> cases heq
  | cons e registered ih =>
    obtain ⟨t₀, l₀⟩ := e
    rcases lastFor_cons.mp h with ⟨rfl, rfl⟩ | ⟨-, hl, h⟩
    · rcases lastFor_cons.mp h' with ⟨rfl, -⟩ | ⟨-, hl, -⟩
      · rfl
      · exact absurd rfl hl
    · rcases lastFor_cons.mp h' with ⟨-, rfl⟩ | ⟨-, -, h'⟩
      · exact absurd rfl hl
      · exact ih h h'

/-- It is one of the list. -/
theorem LastFor.mem (h : LastFor registered t l) : (t, l) ∈ registered := by
  obtain ⟨since, before, rfl, -⟩ := h
  exact List.mem_append_right _ (.head _)

end

/-! ### What holds in every state -/

namespace Registry

/-- The entries that have not expired are those of the loops that are alive, each for the thread it
was registered for last. -/
structure Inv (s : Registry) : Prop where
  sorted : OrderedMap.Sorted (· < ·) s.loopMap
  mem_iff : ∀ t l, (t, ⟨l, false⟩) ∈ s.loopMap ↔ l ∈ s.alive ∧ LastFor s.registered t l
  expired : ∀ e ∈ s.loopMap, e.2.expired = true → e.2.loop ∉ s.alive
  loopMap_created : ∀ e ∈ s.loopMap, e.2.loop ∈ s.created
  alive_created : ∀ l ∈ s.alive, l ∈ s.created
  registered_created : ∀ e ∈ s.registered, e.2 ∈ s.created

section
variable {s s' : Registry}

/-- A loop that is alive has one entry at most. -/
theorem Inv.oneEntry (h : Inv s) : OneEntry s.loopMap := by
  refine h.sorted.imp_of_mem fun {e e'} he he' hlt hboth => ?_
  obtain ⟨t, l, expired⟩ := e
  obtain ⟨t', l', expired'⟩ := e'
  obtain ⟨rfl, rfl, rfl⟩ := hboth
  cases ((h.mem_iff _ _).mp he).2.thread_eq ((h.mem_iff _ _).mp he').2
  exact Nat.lt_irrefl _ hlt

/-- Registering a loop that is alive. -/
theorem Inv.register (h : Inv s) {l : LoopId} (hl : l ∈ s.alive) (t : ThreadId) :
    Inv (s.register t l) where
  sorted := OrderedMap.Sorted.insert (h.sorted.sublist List.eraseP_sublist) t _
  mem_iff t' l' := by
    show (t', ⟨l', false⟩) ∈ registerLoop s.loopMap t l ↔
      l' ∈ s.alive ∧ LastFor ((t, l) :: s.registered) t' l'
    rw [mem_registerLoop h.sorted h.oneEntry, h.mem_iff, lastFor_cons]
    constructor
    · rintro (⟨rfl, heq⟩ | ⟨ht, ⟨hl', hlast⟩, hne⟩)
      · cases heq
        exact ⟨hl, .inl ⟨rfl, rfl⟩⟩
      · exact ⟨hl', .inr ⟨ht, fun heq => hne ⟨rfl, heq⟩, hlast⟩⟩
    · rintro ⟨hl', ⟨rfl, rfl⟩ | ⟨ht, hne, hlast⟩⟩
      · exact .inl ⟨rfl, rfl⟩
      · exact .inr ⟨ht, ⟨hl', hlast⟩, fun heq => hne heq.2⟩
  expired := by
    rintro ⟨t', w⟩ hmem hexp
    rcases (mem_registerLoop h.sorted h.oneEntry).mp hmem with ⟨-, rfl⟩ | ⟨-, hmem, -⟩
    · cases hexp
    · exact h.expired _ hmem hexp
  loopMap_created := by
    rintro ⟨t', w⟩ hmem
    rcases (mem_registerLoop h.sorted h.oneEntry).mp hmem with ⟨-, rfl⟩ | ⟨-, hmem, -⟩
    · exact h.alive_created l hl
    · exact h.loopMap_created _ hmem
  alive_created := h.alive_created
  registered_created := List.forall_mem_cons.mpr ⟨h.alive_created l hl, h.registered_created⟩

/-- A loop that was not there before. -/
theorem Inv.create (h : Inv s) {l : LoopId} (hl : l ∉ s.created) (t : ThreadId) (uvInit : Int) :
    Inv (s.create t l uvInit) := by
  refine Inv.register ?_ (.head _) t
  have hne {l' : LoopId} (hl' : l' ∈ s.created) : l' ≠ l := fun heq => hl (heq ▸ hl')
  refine ⟨h.sorted, fun t' l' => ?_, fun e he hexp => ?_, fun e he => ?_, fun l' hl' => ?_,
    fun e he => ?_⟩
  · rw [h.mem_iff, List.mem_cons]
    refine and_congr_left fun hlast => ?_
    rw [or_iff_right (hne (h.registered_created _ hlast.mem))]
  · rw [List.mem_cons, not_or]
    exact ⟨hne (h.loopMap_created e he), h.expired e he hexp⟩
  · exact .tail _ (h.loopMap_created e he)
  · rcases List.mem_cons.mp hl' with rfl | hl'
    · exact .head _
    · exact .tail _ (h.alive_created l' hl')
  · exact .tail _ (h.registered_created e he)

/-- The destructor of a loop finds no entry to remove: all that refer to the loop have expired. -/
theorem destroy_loopMap (s : Registry) (l : LoopId) :
    (s.destroy l).loopMap = expire s.loopMap l := by
  refine List.eraseP_of_forall_not fun e he => ?_
  obtain ⟨e₀, -, rfl⟩ := List.mem_map.mp he
  simp

/-- The entries of other loops stay as they were. -/
theorem mem_destroy {l : LoopId} {t : ThreadId} {l' : LoopId} :
    (t, ⟨l', false⟩) ∈ (s.destroy l).loopMap ↔ (t, ⟨l', false⟩) ∈ s.loopMap ∧ l' ≠ l := by
  rw [destroy_loopMap, expire, List.mem_map]
  constructor
  · rintro ⟨⟨t₀, l₀, expired₀⟩, hmem, heq⟩
    simp only [Prod.mk.injEq, WeakLoop.mk.injEq, Bool.or_eq_false_iff, beq_eq_false_iff_ne] at heq
    obtain ⟨rfl, rfl, rfl, hne⟩ := heq
    exact ⟨hmem, hne⟩
  · rintro ⟨hmem, hne⟩
    exact ⟨_, hmem, by simp [hne]⟩

/-- The destructor of a loop keeps the invariant, -/
theorem Inv.destroy (h : Inv s) (l : LoopId) : Inv (s.destroy l) where
  sorted := by
    rw [destroy_loopMap]
    exact List.pairwise_map.mpr h.sorted
  mem_iff t' l' := by
    show _ ↔ l' ∈ s.alive.filter (· ≠ l) ∧ LastFor s.registered t' l'
    rw [mem_destroy, h.mem_iff, List.mem_filter, decide_eq_true_iff, and_right_comm]
  expired e he hexp := by
    rw [destroy_loopMap] at he
    obtain ⟨e₀, he₀, rfl⟩ := List.mem_map.mp he
    show e₀.2.loop ∉ s.alive.filter (· ≠ l)
    rw [List.mem_filter, decide_eq_true_iff]
    rintro ⟨halive, hne⟩
    have hexp₀ : e₀.2.expired = true := by simpa [hne] using hexp
    exact h.expired e₀ he₀ hexp₀ halive
  loopMap_created e he := by
    rw [destroy_loopMap] at he
    obtain ⟨e₀, he₀, rfl⟩ := List.mem_map.mp he
    exact h.loopMap_created e₀ he₀
  alive_created l' hl' := h.alive_created l' (List.mem_filter.mp hl').1
  registered_created := h.registered_created

end

end Registry

/-! ### One operation -/

open Registry

/-- What an operation does: it changes nothing, registers a loop that is alive, makes a loop, or
destroys one. -/
theorem registryStep_cases {s s' : Registry} {op : RegistryOp} (h : registryStep s op = some s') :
    s' = s ∧ (∀ t l, op ≠ .destroy t l) ∨
    (∃ t l, l ∈ s.alive ∧ s' = s.register t l ∧ ∀ t l, op ≠ .destroy t l) ∨
    (∃ t l uvInit, op = .create t l uvInit ∧ l ∉ s.created ∧ s' = s.create t l uvInit) ∨
    ∃ t l, op = .destroy t l ∧ l ∈ s.alive ∧ s' = s.destroy l := by
  have hrun {t l} (h : (if l ∈ s.alive then some (s.run t l).2 else none) = some s') :
      s' = s ∨ l ∈ s.alive ∧ s' = s.register t l := by
    split at h
    · rename_i hl
      cases h
      unfold Registry.run
      split
      · exact .inr ⟨hl, rfl⟩
      · exact .inl rfl
    · cases h
  cases op with
  | create t l uvInit =>
    simp only [registryStep] at h
    split at h
    · cases h
    · rename_i hl
      cases h
      exact .inr (.inr (.inl ⟨t, l, uvInit, rfl, hl, rfl⟩))
  | run t l | runOnce t l =>
    rcases hrun h with rfl | ⟨hl, rfl⟩
    · exact .inl ⟨rfl, fun _ _ h => by cases h⟩
    · exact .inr (.inl ⟨t, l, hl, rfl, fun _ _ h => by cases h⟩)
  | runNowait t l =>
    simp only [registryStep] at h
    split at h
    · rename_i hl
      cases h
      exact .inr (.inl ⟨t, l, hl.1, rfl, fun _ _ h => by cases h⟩)
    · cases h
  | destroy t l =>
    simp only [registryStep] at h
    split at h
    · rename_i hl
      cases h
      exact .inr (.inr (.inr ⟨t, l, rfl, hl, rfl⟩))
    · cases h

/-- Every operation keeps the invariant. -/
theorem inv_step {s s' : Registry} {op : RegistryOp} (h : Inv s)
    (hs : registryStep s op = some s') : Inv s' := by
  rcases registryStep_cases hs with ⟨rfl, -⟩ | ⟨t, l, hl, rfl, -⟩ | ⟨t, l, uvInit, -, hl, rfl⟩ |
    ⟨-, l, -, -, rfl⟩
  · exact h
  · exact h.register hl t
  · exact h.create hl t uvInit
  · exact h.destroy l

/-- which holds before the first loop. -/
theorem inv_init : Inv {} where
  sorted := List.Pairwise.nil
  mem_iff _ _ := ⟨fun h => absurd h List.not_mem_nil, fun h => absurd h.1 List.not_mem_nil⟩
  expired _ h := absurd h List.not_mem_nil
  loopMap_created _ h := absurd h List.not_mem_nil
  alive_created _ h := absurd h List.not_mem_nil
  registered_created _ h := absurd h List.not_mem_nil

/-! ### The entries of the map -/

/-- Every entry refers to a loop that is alive. -/
def EntriesAlive (s : Registry) : Prop := ∀ e ∈ s.loopMap, e.2.expired = false ∧ e.2.loop ∈ s.alive

/-- What the registry promises after an operation: its entries refer to loops that are alive, a loop
that is alive has one at most, and `GetInstance` answers for each thread with the loop that was
registered last, as long as it is alive and was not registered for another thread since. -/
def Holds (s : Registry) : Prop :=
  EntriesAlive s ∧ (∀ l ∈ s.alive, ∀ e ∈ s.loopMap, ∀ e' ∈ s.loopMap,
    e.2.loop = l → e'.2.loop = l → e = e') ∧
  ∀ t l, Loop.getInstance s.loopMap t = some l ↔ l ∈ s.alive ∧ LastFor s.registered t l

/-- A loop that is destroyed has no entry. -/
def NoEntryLeft (s : Registry) : RegistryOp → Prop
  | .destroy _ l => ∀ e ∈ s.loopMap, e.2.loop ≠ l
  | _ => True

/-- Only the destructor can leave an entry. -/
theorem noEntryLeft_of_ne {s : Registry} {op : RegistryOp} (h : ∀ t l, op ≠ .destroy t l) :
    NoEntryLeft s op := by
  cases op with
  | destroy t l => exact absurd rfl (h t l)
  | create | run | runOnce | runNowait => trivial

section
variable {s s' : Registry} {op : RegistryOp}

/-- The rest of the promise holds in every state. -/
theorem holds_iff (h : Inv s) : Holds s ↔ EntriesAlive s := by
  refine ⟨And.left, fun halive => ⟨halive, ?_, fun t l => ?_⟩⟩
  · rintro l hl ⟨t, ⟨_, _⟩⟩ he ⟨t', ⟨_, _⟩⟩ he' rfl heq
    cases heq
    cases (halive _ he).1
    cases (halive _ he').1
    cases ((h.mem_iff _ _).mp he).2.thread_eq ((h.mem_iff _ _).mp he').2
    rfl
  · rw [getInstance_eq_some h.sorted, h.mem_iff]

/-- The registration of a loop that exists keeps the entries alive, -/
theorem EntriesAlive.register (h : Inv s) (he : EntriesAlive s) {l : LoopId} (hl : l ∈ s.alive)
    (t : ThreadId) : EntriesAlive (s.register t l) := by
  rintro ⟨t', w⟩ hmem
  rcases (mem_registerLoop h.sorted h.oneEntry).mp hmem with ⟨-, rfl⟩ | ⟨-, hmem, -⟩
  · exact ⟨rfl, hl⟩
  · exact he _ hmem

/-- and so does its creation. -/
theorem EntriesAlive.create (h : Inv s) (he : EntriesAlive s) {l : LoopId} (t : ThreadId)
    (uvInit : Int) : EntriesAlive (s.create t l uvInit) := by
  rintro ⟨t', w⟩ hmem
  rcases (mem_registerLoop h.sorted h.oneEntry).mp hmem with ⟨-, rfl⟩ | ⟨-, hmem, -⟩
  · exact ⟨rfl, .head _⟩
  · exact ⟨(he _ hmem).1, .tail _ (he _ hmem).2⟩

/-- The entry of a loop that is destroyed stays in the map. -/
theorem entriesAlive_destroy (he : EntriesAlive s) {l : LoopId} :
    EntriesAlive (s.destroy l) ↔ ∀ e ∈ s.loopMap, e.2.loop ≠ l := by
  unfold EntriesAlive
  rw [destroy_loopMap]
  constructor
  · intro hall e hmem heq
    obtain ⟨hexp, -⟩ := hall _ (List.mem_map_of_mem hmem)
    simp [heq] at hexp
  · intro hall e hmem
    obtain ⟨e₀, he₀, rfl⟩ := List.mem_map.mp hmem
    obtain ⟨hexp, halive⟩ := he e₀ he₀
    have hne := hall e₀ he₀
    refine ⟨by simp [hexp, hne], ?_⟩
    exact List.mem_filter.mpr ⟨halive, decide_eq_true hne⟩

/-- An operation keeps the entries alive exactly when it destroys no loop that has one. -/
theorem noEntryLeft_iff (h : Inv s) (he : EntriesAlive s) (hs : registryStep s op = some s') :
    NoEntryLeft s op ↔ EntriesAlive s' := by
  rcases registryStep_cases hs with ⟨rfl, hop⟩ | ⟨t, l, hl, rfl, hop⟩ | ⟨t, l, uvInit, rfl, hl, rfl⟩ |
    ⟨t, l, rfl, hl, rfl⟩
  · exact iff_of_true (noEntryLeft_of_ne hop) he
  · exact iff_of_true (noEntryLeft_of_ne hop) (he.register h hl t)
  · exact iff_of_true trivial (he.create h t uvInit)
  · exact (entriesAlive_destroy he).symm

/-- In every state a loop that is alive has one entry at most, and `GetInstance` finds the loop that
it should. A run keeps the whole promise exactly when it destroys no loop that has an entry. -/
theorem registry_holds_iff {ops : List RegistryOp} (h : Transition.run registryStep {} ops = some s) :
    (OneEntry s.loopMap ∧
      ∀ t l, Loop.getInstance s.loopMap t = some l ↔ l ∈ s.alive ∧ LastFor s.registered t l) ∧
    (Transition.Along registryStep NoEntryLeft {} ops ↔
      ∀ ops₀ op ops₁ m m', ops = ops₀ ++ op :: ops₁ →
        Transition.run registryStep {} ops₀ = some m → registryStep m op = some m' → Holds m') := by
  constructor
  · have hinv : Inv s := Transition.run_invariant (fun _ _ _ => inv_step) inv_init h
    refine ⟨hinv.oneEntry, fun t l => ?_⟩
    rw [getInstance_eq_some hinv.sorted, hinv.mem_iff]
  · have hiff (s : Registry) (op : RegistryOp) (s' : Registry) (h : Inv s ∧ EntriesAlive s)
        (hs : registryStep s op = some s') : NoEntryLeft s op ↔ Holds s' := by
      rw [holds_iff (inv_step h.1 hs), noEntryLeft_iff h.1 h.2 hs]
    have hstep (s : Registry) (op : RegistryOp) (s' : Registry) (hok : NoEntryLeft s op)
        (h : Inv s ∧ EntriesAlive s) (hs : registryStep s op = some s') :
        Inv s' ∧ EntriesAlive s' :=
      ⟨inv_step h.1 hs, (noEntryLeft_iff h.1 h.2 hs).mp hok⟩
    have hinit : Inv {} ∧ EntriesAlive {} := ⟨inv_init, fun e he => absurd he List.not_mem_nil⟩
    exact Transition.along_iff hiff hstep hinit h

end

/-- A loop whose entry another loop has taken over may be destroyed. -/
theorem registry_holds_second : ∃ s,
    Transition.run registryStep {} [.create 0 1 0, .create 0 2 0, .destroy 0 1] = some s ∧
      Holds s := by
  have hrun : Transition.run registryStep {} [.create 0 1 0, .create 0 2 0, .destroy 0 1] =
      some { loopMap := [(0, ⟨2, false⟩)], alive := [2], started := [2, 1], created := [2, 1],
             registered := [(0, 2), (0, 1)] } := by decide
  refine ⟨_, hrun, ?_⟩
  have hok : Transition.Along registryStep NoEntryLeft {}
      [.create 0 1 0, .create 0 2 0, .destroy 0 1] := by
    refine .cons trivial rfl (.cons trivial rfl (.cons ?_ rfl trivial))
    intro e he
    cases List.mem_singleton.mp he
    decide
  exact (registry_holds_iff hrun).2.mp hok [.create 0 1 0, .create 0 2 0] (.destroy 0 1) [] _ _
    rfl rfl rfl

/-- A loop leaves its entry behind when it is destroyed. -/
theorem registry_keeps_entry : ¬ ∀ (ops : List RegistryOp) s,
    Transition.run registryStep {} ops = some s → Holds s := by
  intro hall
  obtain ⟨he, -⟩ := hall [.create 0 1 0, .destroy 0 1]
    { loopMap := [(0, ⟨1, true⟩)], alive := [], started := [1], created := [1],
      registered := [(0, 1)] } (by decide)
  obtain ⟨hexp, -⟩ := he (0, ⟨1, true⟩) (.head _)
  cases hexp

end NodeNative.Base
