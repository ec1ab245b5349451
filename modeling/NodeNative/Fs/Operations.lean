import NodeNative.Fs.Calls

/-!
# The asynchronous operations

Most functions of `native::fs` that return a future hand their synchronous form to `worker`, behind
`CALL_SYNC_METHOD_IN_WORKER`, and a thread of libuv's pool runs it. `readdir`, `stat`, `fstat` and
`lstat` hand theirs to `async`, so that it runs on the loop; only `readdir` translates an `Error` there.
`exists` is `stat` with two handlers.

`Op` is a call of one of them, `Op.sync` the synchronous form with the same arguments, and `Op.callable`
what is handed over. Both look the loop of their thread up: on a thread with a loop the synchronous form
throws nothing but an `Error` (`Op.throwsErrors`) and does not depend on which loop it is
(`Op.sync_eq`); on any other thread it throws the failed assertion (`Op.exec_sync_of_none`).
-/

namespace NodeNative.Fs

/-! ### The operations -/

/-- What an operation gives back. -/
inductive Value
  | handle (fd : Int)
  | count (n : Int)
  | bytes (data : List UInt8)
  | string (s : String)
  | entries (ents : List DirEnt)
  | stats (stats : Stats)
  | bool (b : Bool)
deriving DecidableEq, Repr

/-- A call of a function of `native::fs` that returns a future. Source: `fs.cpp:183-568`. -/
inductive Op
  | open (path : String) (flags mode : Int)
  | openFlags (path flags : String) (mode : Int)
  | read (fd : Int) (len : Nat) (offset : Int)
  | write (fd : Int) (buf : List UInt8) (len : Nat) (offset : Int)
  | writeString (fd : Int) (buf : List UInt8) (offset : Int)
  | access (path : String) (mode : Int)
  | close (fd : Int)
  | unlink (path : String)
  | mkdir (path : String) (mode : Int)
  | mkdtemp (tpl : String)
  | rmdir (path : String)
  | rename (oldPath newPath : String)
  | chmod (path : String) (mode : Int)
  | fchmod (fd mode : Int)
  | chown (path : String) (uid gid : Int)
  | fchown (fd uid gid : Int)
  | fdatasync (fd : Int)
  | fsync (fd : Int)
  | ftruncate (fd : Int) (len : Nat)
  | futime (fd : Int) (atime mtime : Float)
  | utime (path : String) (atime mtime : Float)
  | link (srcpath dstpath : String)
  | symlink (srcpath dstpath type : String)
  | readFile (path : String) (flags : Int)
  | readFileFd (fd : Int) (flags : Int)
  | readlink (path : String)
  | realpath (path : String)
  | readdir (path : String) (flags : Int)
  | stat (path : String)
  | fstat (fd : Int)
  | lstat (path : String)
  | exists (path : String)

section
variable {W α : Type}

/-- Code with a value, -/
def valued (f : α → Value) (x : Code W α) : Code W (Option Value) := do
  let a ← x
  pure (some (f a))

/-- and code without one. -/
def void (x : Code W Unit) : Code W (Option Value) := do
  x
  pure none

variable (uv : Uv W) (loops : LoopMap) (t : ThreadId) (fuel : Nat)

/-- The synchronous form of the operation, with the same arguments. -/
def Op.sync : Op → Code W (Option Value)
  | .open path flags mode => valued .handle (openSync uv loops t path flags mode)
  | .openFlags path flags mode => valued .handle (openFlagsSync uv loops t path flags mode)
  | .read fd len offset => valued .bytes (readSync uv loops t fd len offset)
  | .write fd buf len offset => valued .count (writeSync uv loops t fd buf len offset)
  | .writeString fd buf offset => valued .count (writeStringSync uv loops t fd buf offset)
  | .access path mode => void (accessSync uv loops t path mode)
  | .close fd => void (closeSync uv loops t fd)
  | .unlink path => void (unlinkSync uv loops t path)
  | .mkdir path mode => void (mkdirSync uv loops t path mode)
  | .mkdtemp tpl => valued .string (mkdtempSync uv loops t tpl)
  | .rmdir path => void (rmdirSync uv loops t path)
  | .rename oldPath newPath => void (renameSync uv loops t oldPath newPath)
  | .chmod path mode => void (chmodSync uv loops t path mode)
  | .fchmod fd mode => void (fchmodSync uv loops t fd mode)
  | .chown path uid gid => void (chownSync uv loops t path uid gid)
  | .fchown fd uid gid => void (fchownSync uv loops t fd uid gid)
  | .fdatasync fd => void (fdatasyncSync uv loops t fd)
  | .fsync fd => void (fsyncSync uv loops t fd)
  | .ftruncate fd len => void (ftruncateSync uv loops t fd len)
  | .futime fd atime mtime => void (futimeSync uv loops t fd atime mtime)
  | .utime path atime mtime => void (utimeSync uv loops t path atime mtime)
  | .link srcpath dstpath => void (linkSync uv loops t srcpath dstpath)
  | .symlink srcpath dstpath type => void (symlinkSync uv loops t srcpath dstpath type)
  | .readFile path flags => valued .bytes (readFileSync uv loops t fuel path flags)
  | .readFileFd fd flags => valued .bytes (readFileFdSync uv loops t fuel fd flags)
  | .readlink path => valued .string (readlinkSync uv loops t path)
  | .realpath path => valued .string (realpathSync uv loops t path)
  | .readdir path flags => valued .entries (readdirSync uv loops t path flags)
  | .stat path => valued .stats (statSync uv loops t path)
  | .fstat fd => valued .stats (fstatSync uv loops t fd)
  | .lstat path => valued .stats (lstatSync uv loops t path)
  | .exists path => valued .bool (existsSync uv loops t path)

/-- The callable that the operation hands over, on the thread that runs it. The handler of `readdir` is
that of the macro. Source: `fs.cpp:136-158`, `:483-491`, `:545-566`. -/
def Op.callable : Op → Code W (Option Value)
  | .stat path | .exists path => valued .stats (statSync uv loops t path)
  | .fstat fd => valued .stats (fstatSync uv loops t fd)
  | .lstat path => valued .stats (lstatSync uv loops t path)
  | op => inWorker uv (op.sync uv loops t fuel)

end

/-- The operation hands its callable to `async`, the others theirs to `worker`. -/
def Op.onLoop : Op → Bool
  | .readdir .. | .stat _ | .fstat _ | .lstat _ | .exists _ => true
  | _ => false

/-- The callable returns `void`. -/
def Op.isVoid : Op → Bool
  | .access .. | .close _ | .unlink _ | .mkdir .. | .rmdir _ | .rename .. | .chmod .. | .fchmod ..
  | .chown .. | .fchown .. | .fdatasync _ | .fsync _ | .ftruncate .. | .futime .. | .utime ..
  | .link .. | .symlink .. => true
  | _ => false

/-! ### What is thrown -/

section
variable {W α β : Type} (uv : Uv W)

/-- The code throws nothing but an `Error` with a text. -/
def ThrowsErrors (x : Code W α) : Prop :=
  ∀ w e w', x.exec w = some (.error e, w') → ∃ err, e = .error err ∧ (err.str uv).isSome

/-- A value is no error. -/
theorem ThrowsErrors.pure (a : α) : ThrowsErrors uv (pure a : Code W α) := by
  intro w e w' h
  cases h

/-- An error that has a text may be thrown. -/
theorem ThrowsErrors.throw {err : Error} (h : (err.str uv).isSome) :
    ThrowsErrors uv (throw (.error err) : Code W α) := by
  intro w e w' hx
  cases hx
  exact ⟨err, rfl, h⟩

/-- Code that does not end throws nothing. -/
theorem ThrowsErrors.none : ThrowsErrors uv (ExceptT.mk fun _ => none : Code W α) := by
  intro w e w' h
  cases h

/-- A call of libuv throws nothing. -/
theorem ThrowsErrors.call (req : UvRequest) : ThrowsErrors uv (uv.call req) := by
  intro w e w' h
  cases h

variable {uv}

/-- Code in sequence throws the errors of its parts. -/
theorem ThrowsErrors.bind {x : Code W α} {f : α → Code W β} (hx : ThrowsErrors uv x)
    (hf : ∀ a, ThrowsErrors uv (f a)) : ThrowsErrors uv (x >>= f) := by
  intro w e w' h
  rw [exec_bind] at h
  rcases hrun : x.exec w with _ | ⟨e' | a, w₁⟩
  · rw [hrun] at h
    cases h
  · rw [hrun] at h
    cases h
    exact hx w _ _ hrun
  · rw [hrun] at h
    exact hf a w₁ e w' h

/-- Wrapping the value of code changes no error, -/
theorem ThrowsErrors.valued {f : α → Value} {x : Code W α} (hx : ThrowsErrors uv x) :
    ThrowsErrors uv (valued f x) :=
  hx.bind fun _ => .pure uv _

/-- and neither does dropping it. -/
theorem ThrowsErrors.void {x : Code W Unit} (hx : ThrowsErrors uv x) : ThrowsErrors uv (void x) :=
  hx.bind fun _ => .pure uv _

/-- A negative result is thrown with its text. -/
theorem ThrowsErrors.negative {r : Int} (h : r < 0) :
    ThrowsErrors uv (MonadExcept.throw (.error ⟨r, ""⟩) : Code W α) :=
  .throw uv (Error.isSome_str uv (decide_eq_true h))

/-- The loop of `readdirSync` throws errors of libuv only, -/
theorem throwsErrors_readdirLoop (next : Nat → Int × DirEnt) (n i : Nat) (res : List DirEnt) :
    ThrowsErrors uv (readdirLoop next n i res : Code W (List DirEnt)) := by
  induction n generalizing i res with
  | zero => exact .pure uv res
  | succ n ih =>
    rw [readdirLoop]
    obtain ⟨r, ent⟩ := next i
    dsimp only
    split
    · exact .pure uv res
    · split
      · rename_i hneg
        exact .negative hneg
      · exact ih _ _

/-- and so do a read, -/
theorem throwsErrors_readAt (fd : Int) (buf : List UInt8) (pos len : Nat) :
    ThrowsErrors uv (readAt uv fd buf pos len) := by
  refine (ThrowsErrors.call uv _).bind fun a => ?_
  dsimp only
  split
  · rename_i hneg
    exact (ThrowsErrors.negative hneg).bind fun _ => .pure uv _
  · exact .pure uv _

/-- the loop over a known length, -/
theorem throwsErrors_readKnown (fd : Int) (len fuel : Nat) (buf : List UInt8) (pos : Nat) :
    ThrowsErrors uv (readKnown uv fd len fuel buf pos) := by
  induction fuel generalizing buf pos with
  | zero => exact .none uv
  | succ fuel ih =>
    refine (throwsErrors_readAt fd buf pos _).bind fun read => ?_
    dsimp only
    split
    · exact ih _ _
    · exact .pure uv _

/-- the loop over blocks, -/
theorem throwsErrors_readBlocks (fd : Int) (fuel : Nat) (g : Grow) :
    ThrowsErrors uv (readBlocks uv fd fuel g) := by
  induction fuel generalizing g with
  | zero => exact .none uv
  | succ fuel ih =>
    refine (throwsErrors_readAt fd _ _ _).bind fun read => ?_
    dsimp only
    split
    · split
      · exact .pure uv _
      · exact ih _
    · exact ih _

section
variable {loops : LoopMap} {t p : ThreadId} {l l' : LoopId} (hl : Loop.getInstance loops t = some l)
include hl

/-- the lookup of the loop, -/
theorem throwsErrors_getInstanceSafe : ThrowsErrors uv (Loop.getInstanceSafe loops t) := by
  rw [Loop.getInstanceSafe, hl]
  exact .pure uv l

/-- a call with its result, -/
theorem throwsErrors_uvFsCall (req : UvRequest) : ThrowsErrors uv (uvFsCall uv loops t req) := by
  refine (throwsErrors_getInstanceSafe hl).bind fun _ => (ThrowsErrors.call uv req).bind fun a => ?_
  dsimp only
  split
  · rename_i hneg
    exact (ThrowsErrors.negative hneg).bind fun _ => .pure uv _
  · exact .pure uv a

/-- a call without one, -/
theorem throwsErrors_uvFsCallVoid (req : UvRequest) :
    ThrowsErrors uv (uvFsCallVoid uv loops t req) :=
  (throwsErrors_uvFsCall hl req).bind fun _ => .pure uv _

/-- `statSync`, -/
theorem throwsErrors_statSync (path : String) : ThrowsErrors uv (statSync uv loops t path) :=
  (throwsErrors_uvFsCall hl _).bind fun _ => .pure uv _

/-- `fstatSync`, -/
theorem throwsErrors_fstatSync (fd : Int) : ThrowsErrors uv (fstatSync uv loops t fd) :=
  (throwsErrors_uvFsCall hl _).bind fun _ => .pure uv _

/-- `openSync`, -/
theorem throwsErrors_openSync (path : String) (flags mode : Int) :
    ThrowsErrors uv (openSync uv loops t path flags mode) :=
  (throwsErrors_uvFsCall hl _).bind fun _ => .pure uv _

/-- `symlinkSync`, -/
theorem throwsErrors_symlinkSync (srcpath dstpath type : String) :
    ThrowsErrors uv (symlinkSync uv loops t srcpath dstpath type) := by
  rw [symlinkSync]
  split
  · exact throwsErrors_uvFsCallVoid hl _
  · refine .throw uv ?_
    have hne : ¬ "wring type " ++ type ++ ". Expected file, dir or junction" = "" := by simp
    rw [Error.str, if_pos hne]
    rfl

/-- and `readFileSync` on a descriptor. -/
theorem throwsErrors_readFileFdSync (fuel : Nat) (fd flags : Int) :
    ThrowsErrors uv (readFileFdSync uv loops t fuel fd flags) := by
  refine (throwsErrors_getInstanceSafe hl).bind fun _ =>
    (throwsErrors_fstatSync hl fd).bind fun stats => ?_
  dsimp only
  split <;> split
  · exact throwsErrors_readKnown fd _ fuel _ _
  · exact throwsErrors_readBlocks fd fuel _
  · exact throwsErrors_readKnown fd _ fuel _ _
  · exact throwsErrors_readBlocks fd fuel _

/-- On a thread with a loop an operation throws nothing but an `Error`. -/
theorem Op.throwsErrors (fuel : Nat) (op : Op) : ThrowsErrors uv (op.sync uv loops t fuel) := by
  cases op with
  | «open» | openFlags => exact (throwsErrors_openSync hl _ _ _).valued
  | read | write | writeString | mkdtemp | readlink | realpath | lstat =>
    exact ((throwsErrors_uvFsCall hl _).bind fun _ => .pure uv _).valued
  | stat path => exact (throwsErrors_statSync hl path).valued
  | fstat fd => exact (throwsErrors_fstatSync hl fd).valued
  | symlink => exact (throwsErrors_symlinkSync hl _ _ _).void
  | readFileFd => exact (throwsErrors_readFileFdSync hl fuel _ _).valued
  | readFile path flags =>
    exact ((throwsErrors_openSync hl path _ _).bind fun _ =>
      (throwsErrors_readFileFdSync hl fuel _ _).bind fun _ =>
        (throwsErrors_uvFsCallVoid hl _).bind fun _ => .pure uv _).valued
  | readdir =>
    exact ((throwsErrors_uvFsCall hl _).bind fun _ => throwsErrors_readdirLoop _ _ _ _).valued
  | «exists» path =>
    refine ThrowsErrors.valued fun w e w' hx => ?_
    rw [existsSync, exec_tryCatch] at hx
    split at hx
    all_goals cases hx
  | _ => exact (throwsErrors_uvFsCallVoid hl _).void

/-! ### Threads with and without a loop -/

/-- Which loop the thread has does not matter. -/
theorem Op.sync_eq (hp : Loop.getInstance loops p = some l') (fuel : Nat) (op : Op) :
    op.sync uv loops p fuel = op.sync uv loops t fuel := by
  have hsafe : ∀ {β : Type} (k : Code W β), (Loop.getInstanceSafe loops p >>= fun _ => k) =
      Loop.getInstanceSafe loops t >>= fun _ => k := by
    intro β k
    rw [Loop.getInstanceSafe, Loop.getInstanceSafe, hl, hp, pure_bind, pure_bind]
  have hcall : ∀ req, uvFsCall uv loops p req = uvFsCall uv loops t req := fun req => hsafe _
  have hbind : ∀ {β : Type} req (k : UvAnswer → Code W β),
      uvFsCall uv loops p req >>= k = uvFsCall uv loops t req >>= k := by
    intro β req k
    rw [hcall]
  have hvoid : ∀ req, uvFsCallVoid uv loops p req = uvFsCallVoid uv loops t req :=
    fun req => hbind req _
  have hfile : ∀ fd flags, readFileFdSync uv loops p fuel fd flags =
      readFileFdSync uv loops t fuel fd flags := by
    intro fd flags
    rw [readFileFdSync, readFileFdSync, hsafe, fstatSync, fstatSync, hcall]
  cases op with
  | symlink srcpath dstpath type =>
    rw [Op.sync, Op.sync, symlinkSync, symlinkSync]
    split
    · rw [hvoid]
    · rfl
  | readFile path flags =>
    rw [Op.sync, Op.sync, readFileSync, readFileSync, openSync, openSync, hcall]
    simp only [hfile, closeSync, hvoid]
  | readFileFd fd flags => rw [Op.sync, Op.sync, hfile]
  | «exists» path => rw [Op.sync, Op.sync, existsSync, existsSync, statSync, statSync, hcall]
  | «open» | openFlags | read | write | writeString | mkdtemp | readlink | realpath | readdir | stat
  | fstat | lstat => exact congrArg (valued _) (hbind _ _)
  | _ => exact congrArg void (hvoid _)

end

/-- The lookup of the loop fails, before anything is done. -/
def FailsLookup (x : Code W α) : Prop :=
  ∀ w, x.exec w = some (.error (.exn (assertionFailed "instance")), w)

/-- Code whose first part fails to find the loop fails to find it. -/
theorem FailsLookup.bind {x : Code W α} (hx : FailsLookup x) (f : α → Code W β) :
    FailsLookup (x >>= f) := by
  intro w
  rw [exec_bind, hx w]

/-- Without a loop an operation fails. The type of a symbolic link is checked in front of the lookup. -/
theorem Op.failsLookup {loops : LoopMap} {p : ThreadId} (hp : Loop.getInstance loops p = none)
    (fuel : Nat) {op : Op} (hop : op.onLoop = false)
    (hlink : ∀ srcpath dstpath type, op = .symlink srcpath dstpath type → symlinkFlags type ≠ none) :
    FailsLookup (op.sync uv loops p fuel) := by
  have hsafe : FailsLookup (Loop.getInstanceSafe loops p : Code W LoopId) := fun w =>
    exec_getInstanceSafe_of_none hp w
  have hcall : ∀ req, FailsLookup (uvFsCall uv loops p req) := fun req => hsafe.bind _
  cases op with
  | symlink srcpath dstpath type =>
    obtain ⟨flags, hflags⟩ := Option.ne_none_iff_exists'.mp (hlink srcpath dstpath type rfl)
    rw [Op.sync, symlinkSync, hflags]
    exact ((hcall _).bind _).bind _
  | readFile => exact (((hcall _).bind _).bind _).bind _
  | readFileFd => exact (hsafe.bind _).bind _
  | readdir | stat | fstat | lstat | «exists» => cases hop
  | _ => exact ((hcall _).bind _).bind _

/-! ### What a callable gives -/

/-- What the handler of the macro makes of an exception. -/
def Thrown.translated (uv : Uv W) : Thrown → Thrown
  | .error e => (e.str uv).elim .logicError fun text => .exn (.futureError ⟨text⟩)
  | e => e

/-- In a worker the code is the same, and its errors are translated. -/
theorem exec_inWorker (x : Code W α) (w : W) : (inWorker uv x).exec w =
    (x.exec w).map fun out => (out.1.mapError (Thrown.translated uv), out.2) := by
  rw [inWorker, exec_tryCatch]
  rcases h : x.exec w with _ | ⟨e | a, w'⟩
  · rfl
  · rcases e with e | e | _
    · dsimp only
      rcases hs : e.str uv with _ | text <;> simp [Except.mapError, Thrown.translated, hs]
    all_goals rfl
  · rfl

/-- One of the three calls that read the `uv_stat_t` of a file. -/
theorem exec_stat {loops : LoopMap} {t : ThreadId} {l : LoopId}
    (hl : Loop.getInstance loops t = some l) (req : UvRequest) (w : W) :
    (valued .stats (do
      let answer ← uvFsCall uv loops t req
      pure answer.stat)).exec w =
      some (if (uv.fs req w).1.result < 0 then .error (.error ⟨(uv.fs req w).1.result, ""⟩)
        else .ok (some (.stats (uv.fs req w).1.stat)), (uv.fs req w).2) := by
  rw [valued, exec_bind, exec_bind]
  rcases Int.lt_or_le (uv.fs req w).1.result 0 with hneg | hpos
  · rw [exec_uvFsCall_error uv hl rfl hneg, if_pos hneg]
  · rw [exec_uvFsCall uv hl rfl hpos, if_neg (Int.not_lt.mpr hpos)]
    rfl

end

end NodeNative.Fs
