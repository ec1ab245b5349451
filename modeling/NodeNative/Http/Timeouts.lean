import Mathlib.Algebra.Group.Nat.Defs
import NodeNative.Async.Basic
import NodeNative.Lib.FrontSearch
import NodeNative.Lib.Transition

/-!
# Connection timeouts

`LoopTimeoutEntries` keeps the connections of all servers on a loop in the order of their end times,
with one timer for the first of them. `Timeouts` is the state of these lists with what they depend on,
and `timeoutStep` its transition function: the calls of the connections and the callback of the timer,
in any order.

`RestartTime` writes the new end time into the entry before it searches the place for it, so an entry
never moves behind its old place.
-/

namespace NodeNative.Http

open Transition

/-- Source: `Server.cpp:7`. A weak reference to a connection is its name. -/
structure TimeoutEntry where
  connection : Nat
  endTime : Nat
deriving DecidableEq, Repr

/-- What the code has set on a `native::Timer`. Source: `Timer.hpp:41`, `Timer.hpp:65`. -/
structure Timer where
  active : Bool := false
  iTimeout : Nat := 0
  iRepeat : Nat := 0
deriving DecidableEq, Repr

/-- Source: `Timer.cpp:28`. -/
def Timer.start (_ : Timer) (iTimeout iRepeat : Nat) : Timer := { active := true, iTimeout, iRepeat }

/-- Source: `Timer.cpp:32`. -/
def Timer.stop (t : Timer) : Timer := { t with active := false }

/-- Source: `Timer.cpp:48`. -/
def Timer.setRepeat (t : Timer) (iRepeat : Nat) : Timer := { t with iRepeat }

/-- The list of a loop. Source: `Server.cpp:20`. -/
structure LoopTimeoutEntries where
  timer : Timer
  connectionEntries : List TimeoutEntry
deriving DecidableEq, Repr

/-- The members of a server that the timeouts depend on. Source: `Server.hpp:93-100`. -/
structure Server where
  loop : LoopId := 0
  idleConnectionTimeoutSeconds : Nat := 30
  responseTimeoutSeconds : Nat := 60
deriving DecidableEq, Repr

/-- The lists, of which there is at most one for each loop, the servers, the server of each
connection, the time of each loop, and the connections that no longer exist. -/
structure Timeouts where
  servers : Nat → Server
  server : Nat → Nat
  now : LoopId → Nat
  expired : Nat → Bool
  loopConnectionEntries : LoopId → Option LoopTimeoutEntries

/-- Before the first call. -/
def Timeouts.start (servers : Nat → Server) (server : Nat → Nat) (now : LoopId → Nat) : Timeouts where
  servers
  server
  now
  expired _ := false
  loopConnectionEntries _ := none

/-! ### The code -/

/-- The time that is left, or a second when there is none. Source: `Server.cpp:36`, `Server.cpp:118`. -/
def TimeoutEntry.left (x : TimeoutEntry) (timeNow : Nat) : Nat :=
  if timeNow < x.endTime then x.endTime - timeNow else 1000

/-- The entry that the search of `insertConnection` stops at. Source: `Server.cpp:28`. -/
def LoopTimeoutEntries.place (e : LoopTimeoutEntries) (entry : TimeoutEntry) : Nat :=
  e.connectionEntries.findIdx fun it => !decide (entry.endTime > it.endTime)

/-- Source: `Server.cpp:27`. -/
def LoopTimeoutEntries.insertConnection (e : LoopTimeoutEntries) (timeNow : Nat)
    (entry : TimeoutEntry) : LoopTimeoutEntries :=
  let it := e.place entry
  let timer := if !e.connectionEntries.isEmpty && it == 0 then
      e.timer.stop.start (entry.left timeNow) 1000
    else e.timer
  { timer, connectionEntries := e.connectionEntries.insertIdx it entry }

/-- The loop of `RestartTime`, with the end time that `setTime` writes. Inserting the copy in front
of the entry moves the entry that the iterator points to one place on. Source: `Server.cpp:56`. -/
def LoopTimeoutEntries.restartTime (e : LoopTimeoutEntries) (expired : Nat → Bool) (timeNow c : Nat)
    (endTime : Nat) : LoopTimeoutEntries :=
  match e.connectionEntries.findIdx? fun it => !expired it.connection && it.connection == c with
  | none => e
  | some it =>
    let entry : TimeoutEntry := { connection := c, endTime }
    let e := { e with connectionEntries := e.connectionEntries.set it entry }
    let moved := if e.place entry ≤ it then it + 1 else it
    let e := e.insertConnection timeNow entry
    { e with connectionEntries := e.connectionEntries.eraseIdx moved }

/-- The entries that the callback of the timer leaves. Source: `Server.cpp:106`. -/
def LoopTimeoutEntries.unexpired (e : LoopTimeoutEntries) (expired : Nat → Bool) (timeNow : Nat) :
    List TimeoutEntry :=
  e.connectionEntries.dropWhile fun it => expired it.connection || decide (timeNow ≥ it.endTime)

section
variable (s : Timeouts)

/-- `connection->getServer()->getLoop()`. -/
def Timeouts.loop (c : Nat) : LoopId := (s.servers (s.server c)).loop

/-- What `setTime` writes: 64-bit arithmetic. Source: `Server.cpp:12`. -/
def Timeouts.setTime (c : Nat) (isIdle : Bool) : Nat :=
  let server := s.servers (s.server c)
  (s.now server.loop +
    (if isIdle then server.idleConnectionTimeoutSeconds else server.responseTimeoutSeconds) * 1000)
      % 2 ^ 64

/-- Source: `Server.cpp:85`. -/
def Timeouts.findOrCreateEntry (l : LoopId) : LoopTimeoutEntries :=
  (s.loopConnectionEntries l).getD { timer := ({} : Timer).start 0 1000, connectionEntries := [] }

/-- Write the list of a loop. -/
def Timeouts.setEntry (l : LoopId) (e : Option LoopTimeoutEntries) : Timeouts :=
  { s with loopConnectionEntries := Function.update s.loopConnectionEntries l e }

/-- An empty list is removed, and its timer closed; otherwise it is kept. Source: `Server.cpp:73`,
`Server.cpp:112`. -/
def LoopTimeoutEntries.unlessEmpty (e : LoopTimeoutEntries) : Option LoopTimeoutEntries :=
  if e.connectionEntries.isEmpty then none else some e

/-- Source: `Server.cpp:41`. -/
def Timeouts.addConnection (c : Nat) (isIdle : Bool) : Timeouts :=
  s.setEntry (s.loop c) (some ((s.findOrCreateEntry (s.loop c)).insertConnection (s.now (s.loop c))
    { connection := c, endTime := s.setTime c isIdle }))

/-- Source: `Server.cpp:51`. -/
def Timeouts.restartTime (c : Nat) (isIdle : Bool) : Timeouts :=
  s.setEntry (s.loop c) (some ((s.findOrCreateEntry (s.loop c)).restartTime s.expired
    (s.now (s.loop c)) c (s.setTime c isIdle)))

/-- Source: `Server.cpp:67`. -/
def Timeouts.removeConnection (c : Nat) : Timeouts :=
  let e := s.findOrCreateEntry (s.loop c)
  s.setEntry (s.loop c) { e with
    connectionEntries := e.connectionEntries.filter fun it =>
      !(s.expired it.connection || it.connection == c) }.unlessEmpty

/-- The callback of the timer of the loop. Source: `Server.cpp:99-120`. -/
def Timeouts.timer (l : LoopId) (e : LoopTimeoutEntries) : Timeouts :=
  let entries := e.unexpired s.expired (s.now l)
  s.setEntry l { e with
    timer := entries.head?.elim e.timer fun entry => e.timer.setRepeat (entry.left (s.now l))
    connectionEntries := entries }.unlessEmpty

end

/-! ### The transition function -/

/-- What can happen: the calls of `LoopTimeoutEntries` for a connection, the callback of a loop's
timer, a later time of the loop, other timeouts of a server (`Server.hpp:74`, `Server.hpp:86`), and the
end of a connection. -/
inductive TimeoutLabel
  | addConnection (c : Nat) (isIdle : Bool)
  | restartTime (c : Nat) (isIdle : Bool)
  | removeConnection (c : Nat)
  | timer (l : LoopId)
  | elapse (l : LoopId) (now : Nat)
  | setTimeouts (server idleSeconds responseSeconds : Nat)
  | expire (c : Nat)
deriving DecidableEq, Repr

/-- One step; `none` when the label is not enabled. A caller holds the connection it names. -/
def timeoutStep (s : Timeouts) : TimeoutLabel → Option Timeouts
  | .addConnection c isIdle => if s.expired c then none else some (s.addConnection c isIdle)
  | .restartTime c isIdle => if s.expired c then none else some (s.restartTime c isIdle)
  | .removeConnection c => if s.expired c then none else some (s.removeConnection c)
  | .timer l => (s.loopConnectionEntries l).map (s.timer l)
  | .elapse l now =>
    if s.now l ≤ now && now < 2 ^ 64 then some { s with now := Function.update s.now l now } else none
  | .setTimeouts server idleSeconds responseSeconds =>
    if idleSeconds > 0 && responseSeconds > 0 then
      let config := { s.servers server with
        idleConnectionTimeoutSeconds := idleSeconds
        responseTimeoutSeconds := responseSeconds }
      some { s with servers := Function.update s.servers server config }
    else none
  | .expire c => some { s with expired := Function.update s.expired c true }

/-! ### The order of the entries -/

/-- The order of a list. -/
def TimeoutEntry.Before (a b : TimeoutEntry) : Prop := a.endTime ≤ b.endTime

instance : DecidableRel TimeoutEntry.Before := fun a b =>
  inferInstanceAs (Decidable (a.endTime ≤ b.endTime))

instance : Std.Refl TimeoutEntry.Before := ⟨fun a => le_refl a.endTime⟩

instance : Std.Total TimeoutEntry.Before := ⟨fun a b => le_total a.endTime b.endTime⟩

instance : IsTrans TimeoutEntry TimeoutEntry.Before := ⟨fun _ _ _ => le_trans⟩

/-- The list is sorted by non-decreasing end times. -/
def LoopTimeoutEntries.Sorted (e : LoopTimeoutEntries) : Prop :=
  e.connectionEntries.Pairwise TimeoutEntry.Before

/-- All lists are. -/
def Timeouts.Sorted (s : Timeouts) : Prop :=
  ∀ l e, s.loopConnectionEntries l = some e → e.Sorted

section
variable {e : LoopTimeoutEntries} {s s' : Timeouts}

/-- The search stops at the first entry that the new one may precede. -/
theorem LoopTimeoutEntries.place_eq (e : LoopTimeoutEntries) (entry : TimeoutEntry) :
    e.place entry = e.connectionEntries.findIdx fun it => decide (entry.Before it) := by
  unfold LoopTimeoutEntries.place
  congr 1
  funext it
  show (!decide (it.endTime < entry.endTime)) = decide (entry.endTime ≤ it.endTime)
  simp only [← decide_not, not_lt]

/-- `insertConnection` is an ordered insertion. -/
theorem LoopTimeoutEntries.insertConnection_entries (e : LoopTimeoutEntries) (timeNow : Nat)
    (entry : TimeoutEntry) : (e.insertConnection timeNow entry).connectionEntries =
      e.connectionEntries.orderedInsert TimeoutEntry.Before entry := by
  show e.connectionEntries.insertIdx (e.place entry) entry = _
  rw [LoopTimeoutEntries.place_eq, FrontSearch.insertIdx_findIdx]

/-- The entry of the connection, where `RestartTime` finds it. -/
def LoopTimeoutEntries.find (e : LoopTimeoutEntries) (expired : Nat → Bool) (c : Nat) : Option Nat :=
  e.connectionEntries.findIdx? fun it => !expired it.connection && it.connection == c

/-- A connection without an entry gets none. -/
theorem LoopTimeoutEntries.restartTime_none {expired : Nat → Bool} {c : Nat}
    (h : e.find expired c = none) (timeNow endTime : Nat) :
    e.restartTime expired timeNow c endTime = e := by
  rw [LoopTimeoutEntries.find] at h
  rw [LoopTimeoutEntries.restartTime, h]

/-- The entry moves inside the entries in front of it, by an ordered insertion. -/
theorem LoopTimeoutEntries.restartTime_entries {expired : Nat → Bool} {c it : Nat}
    (h : e.find expired c = some it) (timeNow endTime : Nat) :
    ∃ old, e.connectionEntries = e.connectionEntries.take it ++ old ::
        e.connectionEntries.drop (it + 1) ∧ old.connection = c ∧ expired c = false ∧
      (e.restartTime expired timeNow c endTime).connectionEntries =
        (e.connectionEntries.take it).orderedInsert TimeoutEntry.Before ⟨c, endTime⟩ ++
          e.connectionEntries.drop (it + 1) := by
  obtain ⟨hlt, hfound, -⟩ := List.findIdx?_eq_some_iff_getElem.mp h
  simp only [Bool.and_eq_true, Bool.not_eq_true', beq_iff_eq] at hfound
  have hsplit : e.connectionEntries = e.connectionEntries.take it ++ e.connectionEntries[it] ::
      e.connectionEntries.drop (it + 1) := by
    rw [List.getElem_cons_drop, List.take_append_drop]
  refine ⟨e.connectionEntries[it], hsplit, hfound.2, hfound.2 ▸ hfound.1, ?_⟩
  have hlen : (e.connectionEntries.take it).length = it := by
    rw [List.length_take]
    omega
  have hset : e.connectionEntries.set it ⟨c, endTime⟩ = e.connectionEntries.take it ++ ⟨c, endTime⟩ ::
      e.connectionEntries.drop (it + 1) := List.set_eq_take_append_cons_drop .. |>.trans (if_pos hlt)
  rw [LoopTimeoutEntries.find] at h
  have hmoved := FrontSearch.eraseIdx_insertIdx_findIdx TimeoutEntry.Before ⟨c, endTime⟩
    (e.connectionEntries.take it) (e.connectionEntries.drop (it + 1))
  have hle := FrontSearch.findIdx_le TimeoutEntry.Before ⟨c, endTime⟩
    (e.connectionEntries.take it) (e.connectionEntries.drop (it + 1))
  rw [← hset] at hmoved hle
  rw [hlen] at hmoved hle
  rw [LoopTimeoutEntries.restartTime, h]
  dsimp only
  rw [LoopTimeoutEntries.place_eq, if_pos hle]
  show (List.insertIdx _ (LoopTimeoutEntries.place _ _) _).eraseIdx (it + 1) = _
  rw [LoopTimeoutEntries.place_eq]
  exact hmoved

/-! ### The steps -/

@[simp] theorem Timeouts.setEntry_entries (s : Timeouts) (l l' : LoopId)
    (o : Option LoopTimeoutEntries) : (s.setEntry l o).loopConnectionEntries l' =
      if l' = l then o else s.loopConnectionEntries l' :=
  Function.update_apply ..

/-- The new list of a loop is sorted. -/
theorem Timeouts.Sorted.setEntry (h : s.Sorted) {l : LoopId} {o : Option LoopTimeoutEntries}
    (ho : ∀ e, o = some e → e.Sorted) : (s.setEntry l o).Sorted := by
  intro l' e he
  rw [Timeouts.setEntry_entries] at he
  split at he
  · exact ho e he
  · exact h l' e he

/-- So is the list that a connection's loop has, or gets. -/
theorem Timeouts.Sorted.findOrCreateEntry (h : s.Sorted) (l : LoopId) :
    (s.findOrCreateEntry l).Sorted := by
  unfold Timeouts.findOrCreateEntry
  cases he : s.loopConnectionEntries l with
  | none => exact List.Pairwise.nil
  | some e => exact h l e he

/-- What is not empty is kept as it is. -/
theorem LoopTimeoutEntries.unlessEmpty_eq_some {e' : LoopTimeoutEntries} :
    e.unlessEmpty = some e' ↔ e = e' ∧ e.connectionEntries ≠ [] := by
  unfold LoopTimeoutEntries.unlessEmpty
  split
  · rename_i hempty
    simp [List.isEmpty_iff.mp hempty]
  · rename_i hempty
    rw [List.isEmpty_iff] at hempty
    simp [hempty]

/-- Adding keeps the order, -/
theorem Timeouts.Sorted.addConnection (h : s.Sorted) (c : Nat) (isIdle : Bool) :
    (s.addConnection c isIdle).Sorted := by
  refine h.setEntry fun e he => ?_
  cases he
  rw [LoopTimeoutEntries.Sorted, LoopTimeoutEntries.insertConnection_entries]
  exact (h.findOrCreateEntry _).orderedInsert _

/-- removing, -/
theorem Timeouts.Sorted.removeConnection (h : s.Sorted) (c : Nat) :
    (s.removeConnection c).Sorted := by
  refine h.setEntry fun e he => ?_
  obtain ⟨rfl, -⟩ := LoopTimeoutEntries.unlessEmpty_eq_some.mp he
  exact (h.findOrCreateEntry _).filter _

/-- and the callback of the timer. -/
theorem Timeouts.Sorted.timer (h : s.Sorted) {l : LoopId}
    (he : s.loopConnectionEntries l = some e) : (s.timer l e).Sorted := by
  refine h.setEntry fun e' he' => ?_
  obtain ⟨rfl, -⟩ := LoopTimeoutEntries.unlessEmpty_eq_some.mp he'
  exact (h l e he).sublist (List.dropWhile_sublist _)

/-- In an ordered list the callback leaves no entry that has ended. -/
theorem Timeouts.Sorted.timer_left (h : s.Sorted) {l : LoopId}
    (he : s.loopConnectionEntries l = some e) {e' : LoopTimeoutEntries}
    (he' : (s.timer l e).loopConnectionEntries l = some e') :
    ∀ x ∈ e'.connectionEntries, ¬ x.endTime ≤ s.now l := by
  rw [Timeouts.timer, Timeouts.setEntry_entries, if_pos rfl] at he'
  obtain ⟨rfl, -⟩ := LoopTimeoutEntries.unlessEmpty_eq_some.mp he'
  refine FrontSearch.dropWhile_forall (fun a ha => ?_) (fun a b hab ha => ?_) (h l e he)
  · simp only [Bool.or_eq_false_iff, decide_eq_false_iff_not] at ha
    exact ha.2
  · have hab' : a.endTime ≤ b.endTime := hab
    omega

/-- What the step `RestartTime` of a connection must find: no entry behind its own ends before the
new end time. -/
def RestartsInOrder (s : Timeouts) : TimeoutLabel → Prop
  | .restartTime c isIdle =>
    let e := s.findOrCreateEntry (s.loop c)
    ∀ it, e.find s.expired c = some it →
      ∀ x ∈ e.connectionEntries.drop (it + 1), s.setTime c isIdle ≤ x.endTime
  | _ => True

instance (s : Timeouts) : ∀ lab, Decidable (RestartsInOrder s lab)
  | .restartTime c isIdle =>
    let e := s.findOrCreateEntry (s.loop c)
    match h : e.find s.expired c with
    | none => .isTrue fun _ hit => nomatch h.symm.trans hit
    | some it =>
      decidable_of_iff (∀ x ∈ e.connectionEntries.drop (it + 1), s.setTime c isIdle ≤ x.endTime)
        ⟨fun hall _ hit => Option.some.inj (h.symm.trans hit) ▸ hall, fun hall => hall _ h⟩
  | .addConnection .. | .removeConnection _ | .timer _ | .elapse .. | .setTimeouts .. | .expire _ =>
    .isTrue trivial

/-- The step leaves the lists sorted, and the callback of a timer no entry that has ended. -/
def KeepsOrder (s : Timeouts) (lab : TimeoutLabel) (s' : Timeouts) : Prop :=
  s'.Sorted ∧ ∀ l, lab = .timer l → ∀ e, s'.loopConnectionEntries l = some e →
    ∀ x ∈ e.connectionEntries, ¬ x.endTime ≤ s.now l

/-- `RestartTime` keeps a list sorted exactly when it finds this. -/
theorem Timeouts.Sorted.restartTime_iff (h : s.Sorted) (c : Nat) (isIdle : Bool) :
    RestartsInOrder s (.restartTime c isIdle) ↔ (s.restartTime c isIdle).Sorted := by
  have he := h.findOrCreateEntry (s.loop c)
  have hsorted : (s.restartTime c isIdle).Sorted ↔ ((s.findOrCreateEntry (s.loop c)).restartTime
      s.expired (s.now (s.loop c)) c (s.setTime c isIdle)).Sorted := by
    constructor
    · intro hs
      exact hs (s.loop c) _ (by simp [Timeouts.restartTime])
    · intro hs
      refine h.setEntry fun e' he' => ?_
      cases he'
      exact hs
  rw [hsorted, RestartsInOrder]
  cases hfind : (s.findOrCreateEntry (s.loop c)).find s.expired c with
  | none =>
    rw [LoopTimeoutEntries.restartTime_none hfind]
    simp [he]
  | some it =>
    obtain ⟨old, hsplit, -, -, hentries⟩ := LoopTimeoutEntries.restartTime_entries hfind
      (s.now (s.loop c)) (s.setTime c isIdle)
    rw [LoopTimeoutEntries.Sorted, hsplit] at he
    rw [LoopTimeoutEntries.Sorted, hentries, FrontSearch.pairwise_moved_iff _ he]
    simp [TimeoutEntry.Before]

/-- Every other step keeps all lists sorted. -/
theorem Timeouts.Sorted.step (h : s.Sorted) {lab : TimeoutLabel} (hlab : RestartsInOrder s lab)
    (hstep : timeoutStep s lab = some s') : s'.Sorted := by
  cases lab with
  | addConnection c isIdle =>
    obtain ⟨-, rfl⟩ := by simpa [timeoutStep] using hstep
    exact h.addConnection c isIdle
  | restartTime c isIdle =>
    obtain ⟨-, rfl⟩ := by simpa [timeoutStep] using hstep
    exact (h.restartTime_iff c isIdle).mp hlab
  | removeConnection c =>
    obtain ⟨-, rfl⟩ := by simpa [timeoutStep] using hstep
    exact h.removeConnection c
  | timer l =>
    obtain ⟨e, he, rfl⟩ := Option.map_eq_some_iff.mp hstep
    exact h.timer he
  | elapse l now =>
    obtain ⟨-, rfl⟩ := by simpa [timeoutStep] using hstep
    exact h
  | setTimeouts server idleSeconds responseSeconds =>
    obtain ⟨-, rfl⟩ := by simpa [timeoutStep] using hstep
    exact h
  | expire c =>
    cases hstep
    exact h

/-- A step leaves everything in order exactly when it restarts in order. -/
theorem Timeouts.Sorted.step_iff (h : s.Sorted) {lab : TimeoutLabel}
    (hstep : timeoutStep s lab = some s') : RestartsInOrder s lab ↔ KeepsOrder s lab s' := by
  constructor
  · intro hlab
    refine ⟨h.step hlab hstep, ?_⟩
    rintro l rfl e' he'
    obtain ⟨e, he, rfl⟩ := Option.map_eq_some_iff.mp hstep
    exact h.timer_left he he'
  · rintro ⟨hsorted, -⟩
    cases lab with
    | restartTime c isIdle =>
      obtain ⟨-, rfl⟩ := by simpa [timeoutStep] using hstep
      exact (h.restartTime_iff c isIdle).mpr hsorted
    | _ => trivial

/-! ### Runs -/

/-- Source: `Server.cpp:27-120`. From the start every step of a run leaves the lists of all loops
sorted, and every callback of a timer no entry that has ended, if and only if every `RestartTime` in
the run finds no entry behind the connection's own that ends before the new end time. -/
theorem timeout_list_sorted (servers : Nat → Server) (server : Nat → Nat) (now : LoopId → Nat)
    {ls : List TimeoutLabel} (hrun : run timeoutStep (.start servers server now) ls = some s) :
    Along timeoutStep RestartsInOrder (.start servers server now) ls ↔
      ∀ ls₀ lab ls₁ s₀ s₁, ls = ls₀ ++ lab :: ls₁ →
        run timeoutStep (.start servers server now) ls₀ = some s₀ →
        timeoutStep s₀ lab = some s₁ → KeepsOrder s₀ lab s₁ := by
  have hstart : (Timeouts.start servers server now).Sorted := fun _ _ he => nomatch he
  exact along_iff (fun _ _ _ hs hstep => hs.step_iff hstep)
    (fun _ _ _ hlab hs hstep => hs.step hlab hstep) hstart hrun

/-- Two connections with the default timeouts of 30 and 60 seconds on one loop, from time 0 on. -/
def twoConnections : Timeouts := .start (fun _ => {}) (fun _ => 0) fun _ => 0

/-- The second connection is created half a second after the first one and receives a request. -/
def secondRestarted : List TimeoutLabel :=
  [.addConnection 0 true, .elapse 0 500, .addConnection 1 true, .elapse 0 1000,
    .restartTime 1 false, .elapse 0 30000, .timer 0]

/-- The second of two connections starts its time again, and the list stays in order. -/
theorem timeout_list_sorted_second : (run timeoutStep twoConnections secondRestarted).isSome = true ∧
    ∀ ls₀ lab ls₁ s₀ s₁, secondRestarted = ls₀ ++ lab :: ls₁ →
      run timeoutStep twoConnections ls₀ = some s₀ → timeoutStep s₀ lab = some s₁ →
      KeepsOrder s₀ lab s₁ := by
  have hsome : (run timeoutStep twoConnections secondRestarted).isSome = true := by decide
  exact ⟨hsome, (timeout_list_sorted _ _ _ (Option.some_get hsome).symm).mp (by decide)⟩

/-- The first one receives it: its entry stays in front with the later end time, and the callback of
the timer at the end time of the second one leaves its entry behind it. -/
theorem timeout_list_sorted_first : ∃ s₀ s₁ e, run timeoutStep twoConnections
      [.addConnection 0 true, .elapse 0 500, .addConnection 1 true, .elapse 0 1000,
        .restartTime 0 false, .elapse 0 30500] = some s₀ ∧
    timeoutStep s₀ (.timer 0) = some s₁ ∧ s₁.loopConnectionEntries 0 = some e ∧ ¬ e.Sorted ∧
    ∃ x ∈ e.connectionEntries, x.endTime ≤ s₀.now 0 := by
  refine ⟨_, _, _, rfl, rfl, rfl, ?_⟩
  unfold LoopTimeoutEntries.Sorted
  decide

end

end NodeNative.Http
