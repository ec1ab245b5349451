import NodeNative.Lib.Cursor
import NodeNative.Lib.Transition

/-!
# Event emitters

An `EventEmitter` has a list of listeners for each event, and `emit` calls those of an event one after
the other; what a listener throws is dropped. While it is called, a listener can add and remove listeners
and emit again, so `emit` goes through a list that changes. When the listener that it has called was
erased meanwhile, its iterator stands on an erased node, and going on is undefined (`invalid`).

Otherwise every emission that ends has called the listeners that were registered all the time, each of
them once and in the order of their registration (`emit_calls_each`).
-/

namespace NodeNative.Dev

open Transition Cursor

/-! ### The code -/

/-- The address of a listener, which `addListener` returns. -/
abbrev Listener := Nat

/-- An `emit` on the stack: its event, and the listener that it calls. Two histories: the listeners that
it has called, and those of the event that have been registered since it began. -/
structure Emission (E : Type) where
  event : E
  current : Listener
  called : List Listener
  kept : List Listener
deriving Repr

/-- Source: `events.hpp:42`. The history `ended` lists the emissions that have returned. -/
structure EventEmitter (E : Type) where
  set : E → List Listener := fun _ => []
  stack : List (Emission E) := []
  ended : List (Emission E) := []
  invalid : Bool := false

section
variable {E : Type} [DecidableEq E] (s : EventEmitter E)

/-- Source: `events.hpp:62`. -/
def EventEmitter.addListener (e : E) (p : Listener) : EventEmitter E :=
  { s with set := Function.update s.set e (s.set e ++ [p]) }

/-- What an emission remembers when listeners of an event are removed. -/
def Emission.forget (e : E) (f : List Listener → List Listener) (em : Emission E) : Emission E :=
  if em.event = e then { em with kept := f em.kept } else em

/-- The listeners of an event are replaced by some of them. -/
def EventEmitter.remove (e : E) (f : List Listener → List Listener) : EventEmitter E :=
  { s with
    set := Function.update s.set e (f (s.set e))
    stack := s.stack.map (Emission.forget e f) }

/-- The result says whether the listener was there. Source: `events.hpp:70`. -/
def EventEmitter.removeListener (e : E) (p : Listener) : Bool × EventEmitter E :=
  ((s.set e).contains p, s.remove e (·.erase p))

/-- Source: `events.hpp:83`. -/
def EventEmitter.removeAllListeners (e : E) : EventEmitter E := s.remove e fun _ => []

/-- Up to the call of the first listener. Source: `events.hpp:88`. -/
def EventEmitter.emit (e : E) : EventEmitter E :=
  match s.set e with
  | [] => s
  | p :: ps => { s with stack := ⟨e, p, [p], p :: ps⟩ :: s.stack }

/-- A listener has returned, or thrown: the innermost `emit` calls the next one. Source:
`events.hpp:90-96`. -/
def EventEmitter.next : EventEmitter E :=
  match s.stack with
  | [] => s
  | em :: stack =>
    if em.current ∈ s.set em.event then
      match following em.current (s.set em.event) with
      | [] => { s with stack, ended := s.ended ++ [em] }
      | p :: _ => { s with stack := { em with current := p, called := em.called ++ [p] } :: stack }
    else { s with invalid := true }

/-- What the program, or a listener that is called, can do. -/
inductive EmitterLabel (E : Type)
  | addListener (e : E) (p : Listener)
  | removeListener (e : E) (p : Listener)
  | removeAllListeners (e : E)
  | emit (e : E)
  | returned
deriving Repr

/-- A listener of the event, or one that is called, is at this address. -/
def EventEmitter.uses (e : E) (p : Listener) : Bool :=
  (s.set e).contains p || s.stack.any (·.current == p)

/-- One step; `none` when the label is not enabled. A new listener is at an address that is not in use. -/
def emitterStep (s : EventEmitter E) (lab : EmitterLabel E) : Option (EventEmitter E) :=
  if s.invalid then none else
  match lab with
  | .addListener e p => if s.uses e p then none else some (s.addListener e p)
  | .removeListener e p => some (s.removeListener e p).2
  | .removeAllListeners e => some (s.removeAllListeners e)
  | .emit e => some (s.emit e)
  | .returned => if s.stack.isEmpty then none else some s.next

end

/-! ### The invariant -/

section
variable {E : Type} [DecidableEq E] {s s' : EventEmitter E} {e : E}

/-- Every emission goes through the listeners of its event. -/
structure EventEmitter.Inv (s : EventEmitter E) : Prop where
  nodup : ∀ e, (s.set e).Nodup
  pass : ∀ em ∈ s.stack, Pass (s.set em.event) em.current em.called em.kept
  ended : ∀ em ∈ s.ended, em.called.filter (· ∈ em.kept) = em.kept

omit [DecidableEq E] in
/-- A new emitter has no listeners and is inside no emission. -/
theorem EventEmitter.Inv.start : ({} : EventEmitter E).Inv where
  nodup _ := .nil
  pass _ hem := nomatch hem
  ended _ hem := nomatch hem

/-- A listener that the event does not have can be added to it, -/
theorem EventEmitter.Inv.addListener (h : s.Inv) {p : Listener} (huses : s.uses e p = false) :
    (s.addListener e p).Inv := by
  simp only [EventEmitter.uses, Bool.or_eq_false_iff, List.contains_eq_mem, decide_eq_false_iff_not,
    List.any_eq_false, beq_iff_eq] at huses
  obtain ⟨hnew, hcurrent⟩ := huses
  have hnodup : (s.set e ++ [p]).Nodup :=
    (h.nodup e).append (List.nodup_singleton p) (List.disjoint_singleton.mpr hnew)
  refine ⟨fun e' => ?_, fun em hem => ?_, h.ended⟩
  · show (Function.update s.set e (s.set e ++ [p]) e').Nodup
    rw [Function.update_apply]
    split
    · exact hnodup
    · exact h.nodup e'
  · show Pass (Function.update s.set e (s.set e ++ [p]) em.event) em.current em.called em.kept
    have hpass := h.pass em hem
    rw [Function.update_apply]
    split
    · next heq =>
      rw [heq] at hpass
      exact hpass.append hnodup (hcurrent em hem)
    · exact hpass

/-- Listeners are removed. -/
theorem EventEmitter.Inv.remove (h : s.Inv) {f : List Listener → List Listener}
    (hnodup : (f (s.set e)).Nodup) (hpass : ∀ current called kept,
      Pass (s.set e) current called kept → Pass (f (s.set e)) current called (f kept)) :
    (s.remove e f).Inv := by
  refine ⟨fun e' => ?_, fun em hem => ?_, h.ended⟩
  · show (Function.update s.set e (f (s.set e)) e').Nodup
    rw [Function.update_apply]
    split
    · exact hnodup
    · exact h.nodup e'
  · obtain ⟨em, hmem, rfl⟩ := List.mem_map.mp hem
    have hold := h.pass em hmem
    unfold Emission.forget
    split
    · next heq =>
      rw [heq] at hold
      show Pass (Function.update s.set e (f (s.set e)) em.event) em.current em.called (f em.kept)
      rw [heq, Function.update_self]
      exact hpass _ _ _ hold
    · next hne =>
      show Pass (Function.update s.set e (f (s.set e)) em.event) em.current em.called em.kept
      rw [Function.update_of_ne hne]
      exact hold

omit [DecidableEq E] in
/-- and an emission keeps what holds of the lists. -/
theorem EventEmitter.Inv.emit (h : s.Inv) (e : E) : (s.emit e).Inv := by
  unfold EventEmitter.emit
  split
  · exact h
  · next p ps hset =>
    refine ⟨h.nodup, List.forall_mem_cons.mpr ⟨?_, h.pass⟩, h.ended⟩
    show Pass (s.set e) p [p] (p :: ps)
    rw [hset]
    exact .start (hset ▸ h.nodup e)

omit [DecidableEq E] in
/-- The innermost emission goes on, or ends. -/
theorem EventEmitter.Inv.next (h : s.Inv) : s.next.Inv := by
  unfold EventEmitter.next
  split
  · exact h
  · next em stack hstack =>
    obtain ⟨hpass, hrest⟩ := List.forall_mem_cons.mp (hstack ▸ h.pass)
    split
    · next hcurrent =>
      obtain ⟨before, after, hset⟩ := List.append_of_mem hcurrent
      have hnodup := h.nodup em.event
      rw [hset] at hpass hnodup
      have hnot : em.current ∉ before := fun hmem =>
        (List.nodup_append.mp hnodup).2.2 _ hmem _ (.head _) rfl
      split
      · next hend =>
        rw [hset, following_append hnot] at hend
        subst hend
        refine ⟨h.nodup, hrest, fun em' hem' => ?_⟩
        rcases List.mem_append.mp hem' with hem' | hem'
        · exact h.ended em' hem'
        · cases List.mem_singleton.mp hem'
          exact hpass.done
      · next p rest hend =>
        rw [hset, following_append hnot] at hend
        subst hend
        refine ⟨h.nodup, List.forall_mem_cons.mpr ⟨?_, hrest⟩, h.ended⟩
        show Pass (s.set em.event) p (em.called ++ [p]) em.kept
        rw [hset]
        exact hpass.next hnodup
    · exact ⟨h.nodup, h.pass, h.ended⟩

/-- Every step keeps the invariant. -/
theorem EventEmitter.Inv.step (h : s.Inv) {lab : EmitterLabel E} (hstep : emitterStep s lab = some s') :
    s'.Inv := by
  unfold emitterStep at hstep
  rw [Option.ite_none_left_eq_some] at hstep
  obtain ⟨-, hstep⟩ := hstep
  cases lab with
  | addListener e p =>
    obtain ⟨huses, hstep⟩ := Option.ite_none_left_eq_some.mp hstep
    cases hstep
    exact h.addListener (Bool.eq_false_iff.mpr huses)
  | removeListener e p =>
    cases hstep
    exact h.remove (f := (·.erase p)) ((h.nodup e).erase p)
      fun _ _ _ hpass => hpass.erase (h.nodup e) p
  | removeAllListeners e =>
    cases hstep
    exact h.remove .nil fun current called _ _ => .clear current called
  | emit e =>
    cases hstep
    exact h.emit e
  | returned =>
    obtain ⟨-, hstep⟩ := Option.ite_none_left_eq_some.mp hstep
    cases hstep
    exact h.next

/-! ### Listeners that are removed while they are called -/

/-- The step removes no listener that is called. -/
def SparesCalled (s : EventEmitter E) : EmitterLabel E → Prop
  | .removeListener e p => ∀ em ∈ s.stack, em.event = e → em.current ≠ p
  | .removeAllListeners e => ∀ em ∈ s.stack, em.event ≠ e
  | _ => True

instance (s : EventEmitter E) : ∀ lab, Decidable (SparesCalled s lab)
  | .removeListener e p => inferInstanceAs (Decidable (∀ em ∈ s.stack, em.event = e → em.current ≠ p))
  | .removeAllListeners e => inferInstanceAs (Decidable (∀ em ∈ s.stack, em.event ≠ e))
  | .addListener _ _ | .emit _ | .returned => isTrue trivial

/-- No iterator stands on an erased node. -/
structure EventEmitter.Valid (s : EventEmitter E) : Prop where
  invalid : s.invalid = false
  current : ∀ em ∈ s.stack, em.current ∈ s.set em.event

/-- No iterator becomes invalid when the listener that an emission is calling stays, -/
theorem EventEmitter.Valid.remove (h : s.Valid) {f : List Listener → List Listener}
    (hkeeps : ∀ em ∈ s.stack, em.event = e → em.current ∈ f (s.set e)) : (s.remove e f).Valid := by
  refine ⟨h.invalid, fun em hem => ?_⟩
  obtain ⟨em, hmem, rfl⟩ := List.mem_map.mp hem
  have hsame : (em.forget e f).event = em.event ∧ (em.forget e f).current = em.current := by
    unfold Emission.forget
    split <;> exact ⟨rfl, rfl⟩
  rw [hsame.1, hsame.2]
  show em.current ∈ Function.update s.set e (f (s.set e)) em.event
  rw [Function.update_apply]
  split
  · next heq => exact hkeeps em hmem heq
  · exact h.current em hmem

/-- and so along every step that removes no listener that is being called. -/
theorem EventEmitter.Valid.step (hinv : s.Inv) (h : s.Valid) {lab : EmitterLabel E}
    (hlab : SparesCalled s lab) (hstep : emitterStep s lab = some s') : s'.Valid := by
  unfold emitterStep at hstep
  rw [Option.ite_none_left_eq_some] at hstep
  obtain ⟨-, hstep⟩ := hstep
  cases lab with
  | addListener e p =>
    obtain ⟨-, hstep⟩ := Option.ite_none_left_eq_some.mp hstep
    cases hstep
    refine ⟨h.invalid, fun em hem => ?_⟩
    show em.current ∈ Function.update s.set e (s.set e ++ [p]) em.event
    rw [Function.update_apply]
    split
    · next heq => exact List.mem_append_left _ (heq ▸ h.current em hem)
    · exact h.current em hem
  | removeListener e p =>
    cases hstep
    refine h.remove (f := (·.erase p)) fun em hem heq => ?_
    exact (hinv.nodup e).mem_erase_iff.mpr ⟨hlab em hem heq, heq ▸ h.current em hem⟩
  | removeAllListeners e =>
    cases hstep
    exact h.remove fun em hem heq => absurd heq (hlab em hem)
  | emit e =>
    cases hstep
    unfold EventEmitter.emit
    split
    · exact h
    · next p ps hset =>
      refine ⟨h.invalid, List.forall_mem_cons.mpr ⟨?_, h.current⟩⟩
      show p ∈ s.set e
      rw [hset]
      exact .head _
  | returned =>
    obtain ⟨-, hstep⟩ := Option.ite_none_left_eq_some.mp hstep
    cases hstep
    unfold EventEmitter.next
    split
    · exact h
    · next em stack hstack =>
      obtain ⟨hcurrent, hrest⟩ := List.forall_mem_cons.mp (hstack ▸ h.current)
      rw [if_pos hcurrent]
      split
      · exact ⟨h.invalid, hrest⟩
      · next p rest hend =>
        refine ⟨h.invalid, List.forall_mem_cons.mpr ⟨?_, hrest⟩⟩
        have hmem : p ∈ following em.current (s.set em.event) := by
          rw [hend]
          exact .head _
        exact following_subset hmem

/-- In every run: an emission that ends has called the listeners that were registered all the time, each
of them once and in the order of their registration, whatever the listeners have done to the emitter.
And as long as no listener is removed while it is called, no iterator stands on an erased node. -/
theorem emit_calls_each {ls : List (EmitterLabel E)} (hrun : run emitterStep {} ls = some s) :
    (∀ em ∈ s.ended, em.called.filter (· ∈ em.kept) = em.kept) ∧
    (Along emitterStep SparesCalled {} ls → s.invalid = false) := by
  have hinv : s.Inv :=
    run_invariant (fun _ _ _ h hstep => h.step hstep) EventEmitter.Inv.start hrun
  refine ⟨hinv.ended, fun hok => ?_⟩
  have hkeeps : ∀ (s : EventEmitter E) lab s', SparesCalled s lab → s.Inv ∧ s.Valid →
      emitterStep s lab = some s' → s'.Inv ∧ s'.Valid := by
    rintro s lab s' hlab ⟨hinv, hvalid⟩ hstep
    exact ⟨hinv.step hstep, hvalid.step hinv hlab hstep⟩
  have hstart : ({} : EventEmitter E).Valid := ⟨rfl, fun _ hem => nomatch hem⟩
  exact (run_invariant_along hkeeps hok ⟨.start, hstart⟩ hrun).2.invalid

end

/-- Two of the events. Source: `events.hpp:10-41`. -/
inductive ev
  | data | close
deriving DecidableEq, Repr

/-- Three listeners of `data`. The first one removes the third, adds another and emits `close`. -/
def listenerRemoves : List (EmitterLabel ev) :=
  [.addListener .data 1, .addListener .data 2, .addListener .data 3, .addListener .close 4, .emit .data,
    .removeListener .data 3, .addListener .data 5, .emit .close, .returned, .returned, .returned, .returned]

/-- The emitter then. -/
def listenersCalled : EventEmitter ev := (run emitterStep {} listenerRemoves).get (by decide +kernel)

/-- A listener that is removed in an emission is not called by it, and the others are called once. -/
theorem emit_calls_each_removed :
    listenersCalled.ended.map (fun em => (em.called, em.kept)) = [([4], [4]), ([1, 2, 5], [1, 2])] ∧
    (∀ em ∈ listenersCalled.ended, em.called.filter (· ∈ em.kept) = em.kept) ∧
    listenersCalled.invalid = false :=
  have hcalls := emit_calls_each (s := listenersCalled) (Option.some_get _).symm
  ⟨by decide +kernel, hcalls.1, hcalls.2 (by decide +kernel)⟩

end NodeNative.Dev
