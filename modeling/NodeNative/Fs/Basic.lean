import NodeNative.Async.Basic
import NodeNative.Lib.OrderedMap

/-!
# Loops by thread, and calls of libuv

The functions of `native::fs` look the loop of their thread up in a global map and call libuv
without a callback, so that libuv does the work and returns. What libuv answers is the parameter
`Uv`: each request reads and changes the state `W` outside the program, and the loop that is passed
has no part in it.

Code is a function of that state which returns, throws, or does not come to its end (`none`). An
exception keeps what libuv has done before it.
-/

namespace NodeNative.Fs

/-! ### Errors -/

/-- Source: `Error.hpp:56`. A code of libuv, or a text with the code -1. -/
structure Error where
  uvErr : Int
  text : String := ""
deriving DecidableEq, Repr

/-- Source: `Error.hpp:62` `Error::isError`. -/
def Error.isError (e : Error) : Bool := e.uvErr < 0

/-- What the functions of `native::fs` throw: an `Error`, which is no `std::exception`, an exception
of the asynchronous core, or the `std::logic_error` of a string from a null pointer. -/
inductive Thrown
  | error (e : Error)
  | exn (e : Exn)
  | logicError
deriving DecidableEq, Repr

/-! ### libuv -/

/-- Source: `fs.hpp:26` `Stats`, with the fields of `uv_stat_t`. -/
structure Stats where
  dev : Nat := 0
  mode : Nat := 0
  nlink : Nat := 0
  uid : Nat := 0
  gid : Nat := 0
  rdev : Nat := 0
  ino : Nat := 0
  size : Nat := 0
  blksize : Nat := 0
  blocks : Nat := 0
  flags : Nat := 0
  gen : Nat := 0
  atim : Int × Int := (0, 0)
  mtim : Int × Int := (0, 0)
  ctim : Int × Int := (0, 0)
  birthtim : Int × Int := (0, 0)
deriving DecidableEq, Repr

/-- Source: `uv_dirent_t`. -/
structure DirEnt where
  name : String
  type : Nat
deriving DecidableEq, Repr

/-- The calls `uv_fs_*` with their arguments. -/
inductive UvRequest
  | open (path : String) (flags mode : Int)
  | read (fd : Int) (len : Nat) (offset : Int)
  | write (fd : Int) (buf : List UInt8) (offset : Int)
  | access (path : String) (mode : Int)
  | close (fd : Int)
  | unlink (path : String)
  | mkdir (path : String) (mode : Int)
  | mkdtemp (tpl : String)
  | rmdir (path : String)
  | rename (path newPath : String)
  | chmod (path : String) (mode : Int)
  | fchmod (fd mode : Int)
  | chown (path : String) (uid gid : Int)
  | fchown (fd uid gid : Int)
  | fdatasync (fd : Int)
  | fsync (fd : Int)
  | ftruncate (fd : Int) (len : Nat)
  | futime (fd : Int) (atime mtime : Float)
  | utime (path : String) (atime mtime : Float)
  | link (path newPath : String)
  | symlink (path newPath : String) (flags : Int)
  | readlink (path : String)
  | realpath (path : String)
  | scandir (path : String) (flags : Int)
  | stat (path : String)
  | fstat (fd : Int)
  | lstat (path : String)

/-- What a call leaves in its request: the result, the bytes it has read, the string and the
`uv_stat_t` at `req.path` and `req.ptr`, and for `scandir` the number of entries and the answers of
`uv_fs_scandir_next`. -/
structure UvAnswer where
  result : Int
  data : List UInt8 := []
  string : String := ""
  stat : Stats := {}
  nbufs : Nat := 0
  next : Nat → Int × DirEnt := fun _ => (-4095, ⟨"", 0⟩)

/-- libuv over the state `W`. -/
structure Uv (W : Type) where
  fs : UvRequest → W → UvAnswer × W
  strerror : Int → String

/-! ### Code -/

/-- Code over the state `W`. -/
abbrev Code (W : Type) := ExceptT Thrown (StateT W Option)

section
variable {W α β : Type}

/-- The run of code from a state. -/
def Code.exec (x : Code W α) (w : W) : Option (Except Thrown α × W) := x.run.run w

@[simp] theorem exec_pure (a : α) (w : W) : Code.exec (pure a) w = some (.ok a, w) := rfl

@[simp] theorem exec_throw (e : Thrown) (w : W) :
    Code.exec (throw e : Code W α) w = some (.error e, w) := rfl

/-- Code in sequence: an error ends it. -/
theorem exec_bind (x : Code W α) (f : α → Code W β) (w : W) :
    (x >>= f).exec w = match x.exec w with
      | some (.ok a, w') => (f a).exec w'
      | some (.error e, w') => some (.error e, w')
      | none => none := by
  simp only [Code.exec, ExceptT.run_bind, StateT.run_bind]
  rcases x.run.run w with _ | ⟨_ | _, _⟩ <;> rfl

/-- A handler runs on the error of its body. -/
theorem exec_tryCatch (x : Code W α) (f : Thrown → Code W α) (w : W) :
    Code.exec (tryCatch x f) w = match x.exec w with
      | some (.ok a, w') => some (.ok a, w')
      | some (.error e, w') => (f e).exec w'
      | none => none := by
  change ((ExceptT.tryCatch x f).run.run w) = _
  simp only [Code.exec, ExceptT.tryCatch, ExceptT.run_mk, StateT.run_bind]
  rcases h : StateT.run x.run w with _ | ⟨_ | _, _⟩ <;> simp [ExceptT.run] at h ⊢ <;> simp [h]

end

/-- A call of libuv without a callback. -/
def Uv.call {W : Type} (uv : Uv W) (req : UvRequest) : Code W UvAnswer := modifyGet (uv.fs req)

@[simp] theorem exec_call {W : Type} (uv : Uv W) (req : UvRequest) (w : W) :
    (uv.call req).exec w = some (.ok (uv.fs req w).1, (uv.fs req w).2) := rfl

/-- Source: `Error.hpp:77` `Error::str`; `none` is the null pointer. -/
def Error.str {W : Type} (uv : Uv W) (e : Error) : Option String :=
  if e.text ≠ "" then some e.text else if e.uvErr < 0 then some (uv.strerror e.uvErr) else none

/-- An error has a text. -/
theorem Error.isSome_str {W : Type} (uv : Uv W) {e : Error} (h : e.isError) : (e.str uv).isSome := by
  simp only [isError, decide_eq_true_eq] at h
  simp only [str, h, if_true]
  split <;> rfl

/-! ### Loops -/

abbrev ThreadId := Nat

/-- A `std::weak_ptr<Loop>`. -/
structure WeakLoop where
  loop : LoopId
  expired : Bool
deriving DecidableEq, Repr

/-- Source: `Loop.cpp:33` `_loopMap`. -/
abbrev LoopMap := List (ThreadId × WeakLoop)

/-- Source: `Loop.cpp:37` `deregisterLoop`. -/
def deregisterLoop (loops : LoopMap) (l : LoopId) : LoopMap :=
  loops.eraseP fun e => !e.2.expired && e.2.loop == l

/-- Source: `Loop.cpp:60` `registerLoop`, on the thread `t`. -/
def registerLoop (loops : LoopMap) (t : ThreadId) (l : LoopId) : LoopMap :=
  OrderedMap.insert (· < ·) t ⟨l, false⟩ (deregisterLoop loops l)

/-- Source: `Loop.cpp:106` `Loop::GetInstance`. -/
def Loop.getInstance (loops : LoopMap) (t : ThreadId) : Option LoopId :=
  match OrderedMap.find? (· < ·) t loops with
  | some w => if w.expired then none else some w.loop
  | none => none

instance : IsStrictWeakOrder ThreadId (· < ·) where
  irrefl := Nat.lt_irrefl
  trans _ _ _ := Nat.lt_trans
  incomp_trans _ _ _ hab hbc := by
    simp only [Nat.not_lt] at *
    omega

/-- A thread that runs a loop has it registered: `Loop::run` registers it first. Source:
`Loop.cpp:134`. -/
theorem Loop.getInstance_registerLoop (loops : LoopMap) (t : ThreadId) (l : LoopId) :
    getInstance (registerLoop loops t l) t = some l := by
  rw [getInstance, registerLoop, OrderedMap.find?_insert, if_pos ⟨Nat.lt_irrefl t, Nat.lt_irrefl t⟩]
  rfl

/-- Source: `Loop.cpp:99` `Loop::GetInstanceSafe` on the thread `t`. -/
def Loop.getInstanceSafe {W : Type} (loops : LoopMap) (t : ThreadId) : Code W LoopId :=
  match getInstance loops t with
  | some l => pure l
  | none => throw (.exn (assertionFailed "instance"))

end NodeNative.Fs
