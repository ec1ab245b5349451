import NodeNative.Http.Timeouts

/-!
# The entries of a connection

What the operations on the timeout lists do to the entries of one connection: `AddConnection` gives
it one, `RestartTime` moves it, `RemoveConnection` and the callback of the timer take it away, and all
of them leave the entries of the other connections.
-/

namespace NodeNative.Http

section
variable {s s' : Timeouts}

/-- The entries of the connection in the list of its loop. -/
def Timeouts.entries (s : Timeouts) (c : Nat) : List TimeoutEntry :=
  ((s.loopConnectionEntries (s.loop c)).elim [] (·.connectionEntries)).filter (·.connection == c)

/-- A list that is removed for being empty has the entries it had: none. -/
theorem LoopTimeoutEntries.unlessEmpty_entries (e : LoopTimeoutEntries) :
    e.unlessEmpty.elim [] (·.connectionEntries) = e.connectionEntries := by
  unfold LoopTimeoutEntries.unlessEmpty
  split
  · rename_i hempty
    exact (List.isEmpty_iff.mp hempty).symm
  · rfl

/-- A list that is created has none. -/
theorem Timeouts.findOrCreateEntry_entries (s : Timeouts) (l : LoopId) :
    (s.findOrCreateEntry l).connectionEntries =
      (s.loopConnectionEntries l).elim [] (·.connectionEntries) := by
  unfold Timeouts.findOrCreateEntry
  cases s.loopConnectionEntries l with
  | none => rfl
  | some e => rfl

/-- Only the entries of the connections on the loop change. -/
theorem Timeouts.entries_setEntry (s : Timeouts) (l : LoopId) (o : Option LoopTimeoutEntries)
    (c : Nat) : (s.setEntry l o).entries c =
      if s.loop c = l then (o.elim [] (·.connectionEntries)).filter (·.connection == c)
      else s.entries c := by
  unfold Timeouts.entries
  rw [show (s.setEntry l o).loop c = s.loop c from rfl, Timeouts.setEntry_entries]
  split <;> rfl

/-- A new list of a connection's loop whose entries of another connection are the old ones. -/
theorem Timeouts.entries_setEntry_of_eq {c : Nat} {o : Option LoopTimeoutEntries} {c' : Nat}
    (h : (o.elim [] (·.connectionEntries)).filter (·.connection == c') =
      (s.findOrCreateEntry (s.loop c)).connectionEntries.filter (·.connection == c')) :
    (s.setEntry (s.loop c) o).entries c' = s.entries c' := by
  rw [Timeouts.entries_setEntry]
  split
  · rename_i hloop
    rw [h, Timeouts.findOrCreateEntry_entries, ← hloop]
    rfl
  · rfl

/-- A new list of a loop that is a part of the old one. -/
theorem Timeouts.entries_setEntry_sublist {l : LoopId} {o : Option LoopTimeoutEntries}
    (h : (o.elim [] (·.connectionEntries)).Sublist (s.findOrCreateEntry l).connectionEntries)
    (c : Nat) : ((s.setEntry l o).entries c).Sublist (s.entries c) := by
  rw [Timeouts.entries_setEntry]
  split
  · rename_i hloop
    rw [Timeouts.findOrCreateEntry_entries, ← hloop] at h
    exact h.filter _
  · exact List.Sublist.refl _

/-- Adding a connection leaves the entries of the others -/
theorem Timeouts.addConnection_entries_ne {c c' : Nat} (hc : c' ≠ c) (isIdle : Bool) :
    (s.addConnection c isIdle).entries c' = s.entries c' := by
  refine s.entries_setEntry_of_eq ?_
  dsimp only [Option.elim]
  rw [LoopTimeoutEntries.insertConnection_entries]
  exact FrontSearch.filter_orderedInsert _ (by simpa using Ne.symm hc) _

/-- and gives one to a connection that has none. -/
theorem Timeouts.addConnection_entries {c : Nat} (h : s.entries c = []) (isIdle : Bool) :
    (s.addConnection c isIdle).entries c = [⟨c, s.setTime c isIdle⟩] := by
  rw [Timeouts.addConnection, Timeouts.entries_setEntry, if_pos rfl]
  dsimp only [Option.elim]
  rw [LoopTimeoutEntries.insertConnection_entries, Timeouts.findOrCreateEntry_entries]
  have hperm := (List.perm_orderedInsert TimeoutEntry.Before ⟨c, s.setTime c isIdle⟩
    ((s.loopConnectionEntries (s.loop c)).elim [] (·.connectionEntries))).filter
      (·.connection == c)
  rw [List.filter_cons_of_pos (by simp), show List.filter _ _ = [] from h] at hperm
  exact List.perm_singleton.mp hperm

/-- Restarting leaves the entries of the other connections. -/
theorem Timeouts.restartTime_entries_ne {c c' : Nat} (hc : c' ≠ c) (isIdle : Bool) :
    (s.restartTime c isIdle).entries c' = s.entries c' := by
  refine s.entries_setEntry_of_eq ?_
  dsimp only [Option.elim]
  cases hfind : (s.findOrCreateEntry (s.loop c)).find s.expired c with
  | none => rw [LoopTimeoutEntries.restartTime_none hfind]
  | some it =>
    obtain ⟨old, hsplit, hold, -, hentries⟩ := LoopTimeoutEntries.restartTime_entries hfind
      (s.now (s.loop c)) (s.setTime c isIdle)
    rw [hentries, List.filter_append, FrontSearch.filter_orderedInsert _ (by simpa using Ne.symm hc)]
    conv_rhs => rw [hsplit]
    rw [List.filter_append, List.filter_cons_of_neg (by simpa [hold] using Ne.symm hc)]

/-- A connection without an entry has none afterwards, -/
theorem Timeouts.restartTime_entries_nil {c : Nat} (h : s.entries c = []) (isIdle : Bool) :
    (s.restartTime c isIdle).entries c = [] := by
  have hnone : (s.findOrCreateEntry (s.loop c)).find s.expired c = none := by
    rw [LoopTimeoutEntries.find, List.findIdx?_eq_none_iff]
    intro x hx
    rw [Timeouts.findOrCreateEntry_entries] at hx
    have hnot := List.filter_eq_nil_iff.mp h x hx
    simp only [beq_iff_eq] at hnot
    simp [hnot]
  rw [Timeouts.restartTime, LoopTimeoutEntries.restartTime_none hnone, ← h]
  exact s.entries_setEntry_of_eq rfl

/-- and one that has one entry has the entry with the new end time. -/
theorem Timeouts.restartTime_entries_one {c : Nat} (hc : s.expired c = false) {x : TimeoutEntry}
    (h : s.entries c = [x]) (isIdle : Bool) :
    (s.restartTime c isIdle).entries c = [⟨c, s.setTime c isIdle⟩] := by
  have hmem : x ∈ (s.findOrCreateEntry (s.loop c)).connectionEntries ∧ x.connection = c := by
    have hx : x ∈ s.entries c := by simp [h]
    rw [Timeouts.findOrCreateEntry_entries]
    simpa [Timeouts.entries] using hx
  cases hfind : (s.findOrCreateEntry (s.loop c)).find s.expired c with
  | none =>
    rw [LoopTimeoutEntries.find, List.findIdx?_eq_none_iff] at hfind
    simpa [hmem.2, hc] using hfind x hmem.1
  | some it =>
    obtain ⟨old, hsplit, hold, -, hentries⟩ := LoopTimeoutEntries.restartTime_entries hfind
      (s.now (s.loop c)) (s.setTime c isIdle)
    -- All that is left of the list of the connection is its entry, so nothing else passes the filter.
    have hrest : ((s.findOrCreateEntry (s.loop c)).connectionEntries.take it).filter
          (·.connection == c) = [] ∧
        ((s.findOrCreateEntry (s.loop c)).connectionEntries.drop (it + 1)).filter
          (·.connection == c) = [] := by
      have hall := h
      rw [Timeouts.entries, ← Timeouts.findOrCreateEntry_entries, hsplit, List.filter_append,
        List.filter_cons_of_pos (by simpa using hold)] at hall
      have hlen := congrArg List.length hall
      simp only [List.length_append, List.length_cons, List.length_nil] at hlen
      constructor
      · exact List.eq_nil_of_length_eq_zero (by omega)
      · exact List.eq_nil_of_length_eq_zero (by omega)
    rw [Timeouts.restartTime, Timeouts.entries_setEntry, if_pos rfl]
    dsimp only [Option.elim]
    rw [hentries, List.filter_append, hrest.2, List.append_nil]
    have hperm := (List.perm_orderedInsert TimeoutEntry.Before ⟨c, s.setTime c isIdle⟩
      ((s.findOrCreateEntry (s.loop c)).connectionEntries.take it)).filter (·.connection == c)
    rw [List.filter_cons_of_pos (by simp), hrest.1] at hperm
    exact List.perm_singleton.mp hperm

/-- Removing a connection takes its entries away -/
theorem Timeouts.removeConnection_entries (s : Timeouts) (c : Nat) :
    (s.removeConnection c).entries c = [] := by
  rw [Timeouts.removeConnection, Timeouts.entries_setEntry, if_pos rfl,
    LoopTimeoutEntries.unlessEmpty_entries, List.filter_filter, List.filter_eq_nil_iff]
  intro x _ hx
  simp only [Bool.and_eq_true, beq_iff_eq, Bool.not_eq_true', Bool.or_eq_false_iff] at hx
  exact absurd hx.1 (by simpa using hx.2.2)

/-- and leaves those of the other connections that exist. -/
theorem Timeouts.removeConnection_entries_ne {c c' : Nat} (hc : c' ≠ c)
    (hexpired : s.expired c' = false) : (s.removeConnection c).entries c' = s.entries c' := by
  refine s.entries_setEntry_of_eq ?_
  rw [LoopTimeoutEntries.unlessEmpty_entries, List.filter_filter]
  refine List.filter_congr fun x _ => ?_
  by_cases hx : x.connection = c'
  · simp [hx, hexpired, hc]
  · simp [hx]

/-- A connection without entries gets none. -/
theorem Timeouts.removeConnection_entries_nil {c : Nat} (h : s.entries c = []) (c' : Nat) :
    (s.removeConnection c').entries c = [] := by
  refine List.sublist_nil.mp (h ▸ Timeouts.entries_setEntry_sublist ?_ c)
  rw [LoopTimeoutEntries.unlessEmpty_entries]
  exact List.filter_sublist

/-- The callback of a timer leaves the entries of a connection that have not ended. -/
theorem Timeouts.timer_entries {l : LoopId} {e : LoopTimeoutEntries}
    (he : s.loopConnectionEntries l = some e) {c : Nat} (hexpired : s.expired c = false)
    (hdue : s.loop c = l → ∀ x ∈ s.entries c, s.now l < x.endTime) :
    (s.timer l e).entries c = s.entries c := by
  rw [Timeouts.timer, Timeouts.entries_setEntry]
  split
  · rename_i hloop
    have hentries : s.entries c = e.connectionEntries.filter (·.connection == c) := by
      rw [Timeouts.entries, hloop, he]
      rfl
    rw [LoopTimeoutEntries.unlessEmpty_entries, hentries]
    refine FrontSearch.filter_dropWhile fun x hx hxc => ?_
    have hxc' : x.connection = c := by simpa using hxc
    have hleft : s.now l < x.endTime := hdue hloop x (by simp [hentries, hx, hxc'])
    simp only [hxc', hexpired, Bool.false_or, decide_eq_false_iff_not]
    omega
  · rfl

/-- A connection stays at its server, -/
theorem timeoutStep_server {lab : TimeoutLabel} (hstep : timeoutStep s lab = some s') :
    s'.server = s.server := by
  cases lab with
  | timer l =>
    obtain ⟨e, -, rfl⟩ := Option.map_eq_some_iff.mp hstep
    rfl
  | expire c =>
    cases hstep
    rfl
  | addConnection | restartTime | removeConnection | elapse | setTimeouts =>
    obtain ⟨-, rfl⟩ := by simpa [timeoutStep] using hstep
    rfl

/-- and the server on its loop. -/
theorem timeoutStep_loop {lab : TimeoutLabel} (hstep : timeoutStep s lab = some s') (c : Nat) :
    s'.loop c = s.loop c := by
  cases lab with
  | setTimeouts server idleSeconds responseSeconds =>
    obtain ⟨-, rfl⟩ := by simpa [timeoutStep] using hstep
    unfold Timeouts.loop
    rcases eq_or_ne (s.server c) server with hserver | hserver
    · simp [hserver]
    · simp [Function.update_of_ne hserver]
  | timer l =>
    obtain ⟨e, -, rfl⟩ := Option.map_eq_some_iff.mp hstep
    rfl
  | expire c' =>
    cases hstep
    rfl
  | addConnection | restartTime | removeConnection | elapse =>
    obtain ⟨-, rfl⟩ := by simpa [timeoutStep] using hstep
    rfl

/-- Where the lists are the same, so are the entries. -/
theorem Timeouts.entries_of_lists {c : Nat} (hloop : s'.loop c = s.loop c)
    (hlists : s'.loopConnectionEntries = s.loopConnectionEntries) : s'.entries c = s.entries c := by
  unfold Timeouts.entries
  rw [hlists, hloop]

/-- No step but `AddConnection` gives entries to a connection that has none. -/
theorem timeoutStep_entries_nil {lab : TimeoutLabel} {c : Nat} (h : s.entries c = [])
    (hlab : ∀ isIdle, lab ≠ .addConnection c isIdle) (hstep : timeoutStep s lab = some s') :
    s'.entries c = [] := by
  cases lab with
  | addConnection c' isIdle =>
    obtain ⟨-, rfl⟩ := by simpa [timeoutStep] using hstep
    have hc : c ≠ c' := fun hc => hlab isIdle (by rw [hc])
    rw [Timeouts.addConnection_entries_ne hc, h]
  | restartTime c' isIdle =>
    obtain ⟨-, rfl⟩ := by simpa [timeoutStep] using hstep
    rcases eq_or_ne c c' with rfl | hc
    · exact Timeouts.restartTime_entries_nil h isIdle
    · rw [Timeouts.restartTime_entries_ne hc, h]
  | removeConnection c' =>
    obtain ⟨-, rfl⟩ := by simpa [timeoutStep] using hstep
    exact Timeouts.removeConnection_entries_nil h c'
  | timer l =>
    obtain ⟨e, he, rfl⟩ := Option.map_eq_some_iff.mp hstep
    refine List.sublist_nil.mp (h ▸ Timeouts.entries_setEntry_sublist ?_ c)
    rw [LoopTimeoutEntries.unlessEmpty_entries, Timeouts.findOrCreateEntry_entries, he]
    exact List.dropWhile_sublist _
  | elapse l now =>
    obtain ⟨-, rfl⟩ := by simpa [timeoutStep] using hstep
    exact h
  | setTimeouts server idleSeconds responseSeconds =>
    have hloop := timeoutStep_loop hstep c
    obtain ⟨-, rfl⟩ := by simpa [timeoutStep] using hstep
    exact (Timeouts.entries_of_lists hloop rfl).trans h
  | expire c' =>
    cases hstep
    exact h

end

end NodeNative.Http
