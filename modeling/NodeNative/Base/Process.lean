import Mathlib.Data.List.Induction
import NodeNative.Async.Basic

/-!
# The options of a child process

`Process::setUid` and `Process::setGid` write into one record of options, which the first of them
allocates and `Process::spawn` hands to `uv_spawn`. Each sets its own flag (`flag_setAll`), but both
write the member `uid`: the group is never stored (`gid_setAll`), and the user is the argument of
the last call of either kind (`uid_setAll`). So the options that `uv_spawn` gets carry the settings
of the calls exactly when no group but 0 was asked for last, and no such call came after the last
user that is not 0 (`spawn_carries_iff`).
-/

namespace NodeNative

/-! ### Model -/

/-- Source: `UV_PROCESS_SETUID` of libuv. -/
def UV_PROCESS_SETUID : UInt32 := (1 : UInt32) <<< 0

/-- Source: `UV_PROCESS_SETGID` of libuv. -/
def UV_PROCESS_SETGID : UInt32 := (1 : UInt32) <<< 1

/-- The members of `uv_process_options_t` that `Process` writes, with the values that `memset`
gives them. `exitCb` says that the callback is `OnExit`. -/
structure UvProcessOptions where
  exitCb : Bool := false
  uid : UInt32 := 0
  gid : UInt32 := 0
  flags : UInt32 := 0
deriving DecidableEq, Repr

/-- Source: `Process.hpp:92`. `data` says that `_uvProcessInstance->data` is not null; neither it
nor `pid` is initialised by the constructor. -/
structure Process where
  data : Bool
  pid : Int
  processOptions : Option UvProcessOptions := none

namespace Process

/-- The options that `getProcessOptionsPtr` points to. Source: `Process.cpp:31`. -/
def getProcessOptions (p : Process) : UvProcessOptions := p.processOptions.getD {}

/-- An assignment through `getProcessOptionsPtr()`. -/
def modifyOptions (p : Process) (f : UvProcessOptions → UvProcessOptions) : Process :=
  { p with processOptions := some (f p.getProcessOptions) }

/-- Source: `Process.cpp:40`. -/
def setUid (p : Process) (uid : Int32) : Process :=
  let p := p.modifyOptions ({ · with uid := uid.toUInt32 })
  p.modifyOptions fun o => { o with flags := o.flags ||| UV_PROCESS_SETUID }

/-- Source: `Process.cpp:47`, which writes the argument into `uid`. -/
def setGid (p : Process) (gid : Int32) : Process :=
  let p := p.modifyOptions ({ · with uid := gid.toUInt32 })
  p.modifyOptions fun o => { o with flags := o.flags ||| UV_PROCESS_SETGID }

/-- Source: `Process.cpp:54`. The result is the one of `uv_spawn`, next to the options that it was
called with. -/
def spawn (uvSpawn : UvProcessOptions → Int) (p : Process) :
    Except Exn (Int × UvProcessOptions × Process) :=
  if p.data then
    .error (.runtimeError ("Assertion \"_uvProcessInstance->data == nullptr\" failed. " ++
      "Message:Process already spawned with pid " ++ toString p.pid))
  else
    let p := p.modifyOptions ({ · with exitCb := true })
    .ok (uvSpawn p.getProcessOptions, p.getProcessOptions,
      { p with data := true, processOptions := none })

/-! ### The setters -/

/-- A call of one of the two setters. -/
inductive Call
  | setUid (uid : Int32)
  | setGid (gid : Int32)
deriving DecidableEq, Repr

/-- The argument of a call. -/
def Call.arg : Call → Int32
  | .setUid uid => uid
  | .setGid gid => gid

/-- The user that a call asks for. -/
def Call.uid? : Call → Option Int32
  | .setUid uid => some uid
  | .setGid _ => none

/-- The group that a call asks for. -/
def Call.gid? : Call → Option Int32
  | .setUid _ => none
  | .setGid gid => some gid

def call (p : Process) : Call → Process
  | .setUid uid => p.setUid uid
  | .setGid gid => p.setGid gid

/-- The calls in their order. -/
def setAll (p : Process) (calls : List Call) : Process := calls.foldl call p

section
variable (p : Process)

@[simp] theorem getProcessOptions_modifyOptions (f : UvProcessOptions → UvProcessOptions) :
    (p.modifyOptions f).getProcessOptions = f p.getProcessOptions := rfl

@[simp] theorem data_call (c : Call) : (p.call c).data = p.data := by
  cases c <;> rfl

/-- Either setter writes its argument into the user. -/
theorem uid_call (c : Call) : (p.call c).getProcessOptions.uid = c.arg.toUInt32 := by
  cases c <;> rfl

/-- Neither setter writes the group. -/
theorem gid_call (c : Call) : (p.call c).getProcessOptions.gid = p.getProcessOptions.gid := by
  cases c <;> rfl

@[simp] theorem setAll_append_singleton (calls : List Call) (c : Call) :
    p.setAll (calls ++ [c]) = (p.setAll calls).call c := by
  simp only [setAll, List.foldl_append, List.foldl_cons, List.foldl_nil]

@[simp] theorem data_setAll (calls : List Call) : (p.setAll calls).data = p.data := by
  induction calls using List.reverseRecOn with
  | nil => rfl
  | append_singleton calls c ih => rw [setAll_append_singleton, data_call, ih]

/-- The user is the argument of the last call, whichever it was. -/
theorem uid_setAll (calls : List Call) : (p.setAll calls).getProcessOptions.uid =
    (calls.getLast?.map (·.arg.toUInt32)).getD p.getProcessOptions.uid := by
  induction calls using List.reverseRecOn with
  | nil => rfl
  | append_singleton calls c _ =>
    rw [setAll_append_singleton, uid_call, List.getLast?_concat]
    rfl

/-- The group stays what it was. -/
theorem gid_setAll (calls : List Call) :
    (p.setAll calls).getProcessOptions.gid = p.getProcessOptions.gid := by
  induction calls using List.reverseRecOn with
  | nil => rfl
  | append_singleton calls c ih => rw [setAll_append_singleton, gid_call, ih]

end

/-! ### The flags -/

/-- A flag of the options is set. -/
def HasFlag (o : UvProcessOptions) (flag : UInt32) : Prop := o.flags &&& flag ≠ 0

instance (o : UvProcessOptions) (flag : UInt32) : Decidable (HasFlag o flag) :=
  inferInstanceAs (Decidable (o.flags &&& flag ≠ 0))

/-- Setting a flag beside another. -/
theorem or_and_eq_zero {flags set flag : UInt32} :
    (flags ||| set) &&& flag = 0 ↔ flags &&& flag = 0 ∧ set &&& flag = 0 := by
  have hdistrib : (flags ||| set) &&& flag = (flags &&& flag) ||| (set &&& flag) :=
    UInt32.toBitVec_inj.mp BitVec.and_or_distrib_right
  rw [hdistrib, UInt32.or_eq_zero_iff]

/-- The flag that a call sets. -/
def Call.flag : Call → UInt32
  | .setUid _ => UV_PROCESS_SETUID
  | .setGid _ => UV_PROCESS_SETGID

section
variable (p : Process)

/-- A call sets its own flag, and leaves those that were set. -/
theorem hasFlag_call (c : Call) (flag : UInt32) : HasFlag (p.call c).getProcessOptions flag ↔
    HasFlag p.getProcessOptions flag ∨ c.flag &&& flag ≠ 0 := by
  have hflags : (p.call c).getProcessOptions.flags = p.getProcessOptions.flags ||| c.flag := by
    cases c <;> rfl
  unfold HasFlag
  rw [hflags, ne_eq, or_and_eq_zero, not_and_or]

/-- A flag is set when it was, or by a call that sets it. -/
theorem hasFlag_setAll (calls : List Call) (flag : UInt32) :
    HasFlag (p.setAll calls).getProcessOptions flag ↔
      HasFlag p.getProcessOptions flag ∨ ∃ c ∈ calls, c.flag &&& flag ≠ 0 := by
  induction calls using List.reverseRecOn with
  | nil => simp [setAll]
  | append_singleton calls c ih =>
    rw [setAll_append_singleton, hasFlag_call, ih]
    simp only [List.mem_append, List.mem_singleton, or_and_right, exists_or, exists_eq_left,
      or_assoc]

end

/-! ### What `uv_spawn` gets -/

/-- The user that was asked for last. -/
def lastUid (calls : List Call) : Option Int32 := calls.reverse.findSome? Call.uid?

/-- The group that was asked for last. -/
def lastGid (calls : List Call) : Option Int32 := calls.reverse.findSome? Call.gid?

/-- The options carry the user and the group that were asked for last, and say which of them were
asked for. -/
def Carries (calls : List Call) (o : UvProcessOptions) : Prop :=
  (∀ uid ∈ lastUid calls, o.uid = uid.toUInt32) ∧
  (∀ gid ∈ lastGid calls, o.gid = gid.toUInt32) ∧
  (HasFlag o UV_PROCESS_SETUID ↔ ∃ uid, .setUid uid ∈ calls) ∧
  (HasFlag o UV_PROCESS_SETGID ↔ ∃ gid, .setGid gid ∈ calls)

/-- No group but 0 was asked for last, and the last user that was asked for, if a call for a group
came after it, is 0 too. -/
def GroupUnused (calls : List Call) : Prop :=
  ∀ gid ∈ lastGid calls, gid = 0 ∧
    ∀ uid ∈ lastUid calls, calls.getLast? = some (.setUid uid) ∨ uid = 0

/-- Only the identifier 0 has the bits of 0. -/
theorem toUInt32_eq_zero {i : Int32} : i.toUInt32 = 0 ↔ i = 0 := by
  constructor
  · intro h
    calc i = i.toUInt32.toInt32 := (Int32.toInt32_toUInt32 i).symm
      _ = 0 := by rw [h]; rfl
  · rintro rfl
    rfl

/-- Calls that end with one for a user. -/
theorem lastUid_of_getLast {calls : List Call} {uid : Int32}
    (h : calls.getLast? = some (.setUid uid)) : lastUid calls = some uid := by
  obtain ⟨calls, rfl⟩ := List.getLast?_eq_some_iff.mp h
  rw [lastUid, List.reverse_concat]
  rfl

/-- A group that is set by the last call is the last one set. -/
theorem lastGid_of_getLast {calls : List Call} {gid : Int32}
    (h : calls.getLast? = some (.setGid gid)) : lastGid calls = some gid := by
  obtain ⟨calls, rfl⟩ := List.getLast?_eq_some_iff.mp h
  rw [lastGid, List.reverse_concat]
  rfl

/-- The last user was asked for by some call, so there is a last call. -/
theorem exists_getLast_of_lastUid {calls : List Call} {uid : Int32} (h : uid ∈ lastUid calls) :
    ∃ c, calls.getLast? = some c := by
  cases hlast : calls.getLast? with
  | some c => exact ⟨c, rfl⟩
  | none =>
    rw [List.getLast?_eq_none_iff.mp hlast] at h
    cases h

/-- The calls for a user are those that set its flag. -/
theorem exists_setUid_iff {calls : List Call} :
    (∃ c ∈ calls, c.flag &&& UV_PROCESS_SETUID ≠ 0) ↔ ∃ uid, .setUid uid ∈ calls := by
  have hother : UV_PROCESS_SETGID &&& UV_PROCESS_SETUID = 0 := by decide
  have hown : UV_PROCESS_SETUID &&& UV_PROCESS_SETUID ≠ 0 := by decide
  constructor
  · rintro ⟨uid | gid, hmem, hflag⟩
    · exact ⟨uid, hmem⟩
    · exact absurd hother hflag
  · rintro ⟨uid, hmem⟩
    exact ⟨_, hmem, hown⟩

/-- The flag of the group is set by `setGid` alone. -/
theorem exists_setGid_iff {calls : List Call} :
    (∃ c ∈ calls, c.flag &&& UV_PROCESS_SETGID ≠ 0) ↔ ∃ gid, .setGid gid ∈ calls := by
  have hother : UV_PROCESS_SETUID &&& UV_PROCESS_SETGID = 0 := by decide
  have hown : UV_PROCESS_SETGID &&& UV_PROCESS_SETGID ≠ 0 := by decide
  constructor
  · rintro ⟨uid | gid, hmem, hflag⟩
    · exact absurd hother hflag
    · exact ⟨gid, hmem⟩
  · rintro ⟨gid, hmem⟩
    exact ⟨_, hmem, hown⟩

/-- What the calls leave in the options. -/
theorem carries_iff {calls : List Call} {o : UvProcessOptions}
    (huid : o.uid = (calls.getLast?.map (·.arg.toUInt32)).getD 0) (hgid : o.gid = 0)
    (hflag : ∀ flag, HasFlag o flag ↔ ∃ c ∈ calls, c.flag &&& flag ≠ 0) :
    Carries calls o ↔ GroupUnused calls := by
  constructor
  · rintro ⟨hu, hg, -, -⟩ gid hlastGid
    have hzero {gid : Int32} (h : gid ∈ lastGid calls) : gid = 0 := by
      rw [← toUInt32_eq_zero, ← hg gid h, hgid]
    refine ⟨hzero hlastGid, fun uid hlastUid => ?_⟩
    obtain ⟨c, hc⟩ := exists_getLast_of_lastUid hlastUid
    cases c with
    | setUid uid' =>
      cases (lastUid_of_getLast hc).symm.trans hlastUid
      exact .inl hc
    | setGid gid' =>
      refine .inr (toUInt32_eq_zero.mp ?_)
      rw [← hu uid hlastUid, huid, hc]
      exact toUInt32_eq_zero.mpr (hzero (lastGid_of_getLast hc))
  · intro hcond
    refine ⟨fun uid hlastUid => ?_, fun gid hlastGid => ?_, ?_, ?_⟩
    · obtain ⟨c, hc⟩ := exists_getLast_of_lastUid hlastUid
      rw [huid, hc]
      cases c with
      | setUid uid' =>
        cases (lastUid_of_getLast hc).symm.trans hlastUid
        rfl
      | setGid gid' =>
        obtain ⟨rfl, hlast⟩ := hcond gid' (lastGid_of_getLast hc)
        rcases hlast uid hlastUid with h | rfl
        · cases hc.symm.trans h
        · rfl
    · rw [hgid, (hcond gid hlastGid).1]
      rfl
    · rw [hflag, exists_setUid_iff]
    · rw [hflag, exists_setGid_iff]

/-- The options that `uv_spawn` gets carry the settings of the calls exactly when the group is not
used. -/
theorem spawn_carries_iff {uvSpawn : UvProcessOptions → Int} {data : Bool} {pid : Int}
    {calls : List Call} {res : Int} {o : UvProcessOptions} {p : Process}
    (h : ((⟨data, pid, none⟩ : Process).setAll calls).spawn uvSpawn = .ok (res, o, p)) :
    Carries calls o ↔ GroupUnused calls := by
  unfold spawn at h
  split at h
  · cases h
  · cases h
    refine carries_iff ?_ ?_ ?_
    · exact uid_setAll _ calls
    · exact gid_setAll _ calls
    · intro flag
      refine (hasFlag_setAll _ calls flag).trans (or_iff_right ?_)
      exact fun hflag => hflag (UInt32.zero_and)

/-- A user, and the group 0 before it. -/
theorem spawn_carries_user : Carries [.setGid 0, .setUid 1000]
    { exitCb := true, uid := 1000, flags := UV_PROCESS_SETGID ||| UV_PROCESS_SETUID } := by
  have hspawn : ((⟨false, 0, none⟩ : Process).setAll [.setGid 0, .setUid 1000]).spawn (fun _ => 0) =
      .ok (0, { exitCb := true, uid := 1000, flags := UV_PROCESS_SETGID ||| UV_PROCESS_SETUID },
        ⟨true, 0, none⟩) := rfl
  refine (spawn_carries_iff hspawn).mpr ?_
  rintro gid ⟨⟩
  refine ⟨rfl, ?_⟩
  rintro uid ⟨⟩
  exact .inl rfl

/-- A group replaces the user, and does not come through itself. -/
theorem spawn_group : ¬ ∀ (uvSpawn : UvProcessOptions → Int) data pid calls res o p,
    ((⟨data, pid, none⟩ : Process).setAll calls).spawn uvSpawn = .ok (res, o, p) →
      Carries calls o := by
  intro hall
  obtain ⟨huid, -⟩ := hall (fun _ => 0) false 0 [.setUid 1000, .setGid 100] 0
    { exitCb := true, uid := 100, flags := UV_PROCESS_SETUID ||| UV_PROCESS_SETGID }
    ⟨true, 0, none⟩ rfl
  have huser : (100 : UInt32) = (1000 : Int32).toUInt32 := huid 1000 rfl
  revert huser
  decide

end Process

end NodeNative
