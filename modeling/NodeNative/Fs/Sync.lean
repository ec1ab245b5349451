import NodeNative.Fs.Basic

/-!
# The synchronous file operations

Each function of `native::fs` that ends in `Sync`, on the thread `t`. Most of them are one call of
libuv behind the lookup of the loop, which is `uvFsCall`; the buffer that `write` is given lives and
stays as it is until the call is made.

The two loops of `readFileSync` end only when libuv makes them end: they take a bound on their
rounds, and code without a result at one bound may have one at a larger bound.
-/

namespace NodeNative.Fs

/-- The flags of `open(2)`. Source: `fcntl.h` on Linux. -/
def oRdonly : Nat := 0
def oWronly : Nat := 1
def oRdwr : Nat := 2
def oCreat : Nat := 0o100
def oExcl : Nat := 0o200
def oTrunc : Nat := 0o1000
def oAppend : Nat := 0o2000
def oSync : Nat := 0o4010000

/-- Source: `fs.cpp:79` `stringToFlags`. -/
def stringToFlags (flagStr : String) : Int :=
  let flagsMap : List (String × Nat) :=
    [("r", oRdonly), ("rs", oRdonly ||| oSync), ("sr", oRdonly ||| oSync), ("rw", oRdwr),
      ("r+", oRdwr), ("rs+", oRdwr ||| oSync), ("sr+", oRdwr ||| oSync),
      ("w", oTrunc ||| oCreat ||| oWronly), ("wx", oTrunc ||| oCreat ||| oWronly ||| oExcl),
      ("xw", oTrunc ||| oCreat ||| oWronly ||| oExcl), ("w+", oTrunc ||| oCreat ||| oRdwr),
      ("wx+", oTrunc ||| oCreat ||| oRdwr ||| oExcl),
      ("xw+", oTrunc ||| oCreat ||| oRdwr ||| oExcl), ("a", oAppend ||| oCreat ||| oWronly),
      ("ax", oAppend ||| oCreat ||| oWronly ||| oExcl),
      ("xa", oAppend ||| oCreat ||| oWronly ||| oExcl), ("a+", oAppend ||| oCreat ||| oRdwr),
      ("ax+", oAppend ||| oCreat ||| oRdwr ||| oExcl),
      ("xa+", oAppend ||| oCreat ||| oRdwr ||| oExcl)]
  (flagsMap.lookup flagStr).getD 0

/-- Source: `fs.cpp:105` `Stats::checkModeproperty`, with `S_IFMT`. -/
def Stats.checkModeproperty (s : Stats) (flag : Nat) : Bool := s.mode &&& 0o170000 == flag

/-- Source: `fs.cpp:108`. -/
def Stats.isFile (s : Stats) : Bool := s.checkModeproperty 0o100000

/-- The bytes that a call wrote into a buffer at a position. -/
def overwrite (buf : List UInt8) (pos : Nat) (data : List UInt8) : List UInt8 :=
  buf.take pos ++ data ++ buf.drop (pos + data.length)

/-- `std::string::resize`; memory does not run out. -/
def resize (buf : List UInt8) (len : Nat) : List UInt8 :=
  buf.take len ++ List.replicate (len - buf.length) 0

/-- `uv_buf_init` takes the length of the buffer as an `unsigned int`. -/
def uvBufLen (len : Nat) : Nat := len % 0x100000000

/-- The length that libuv gets is at most the one that the caller has. -/
theorem uvBufLen_le (len : Nat) : uvBufLen len ≤ len := Nat.mod_le _ _

/-- `UV_EOF`. -/
def uvEOF : Int := -4095

section
variable {W : Type} (uv : Uv W) (loops : LoopMap) (t : ThreadId)

/-- The lookup of the loop, the call, and the exception on a negative result. Source: `fs.cpp:160-173`
`UV_FS_METHOD_SYNCCALL_DECL`. -/
def uvFsCall (req : UvRequest) : Code W UvAnswer := do
  let _ ← Loop.getInstanceSafe loops t
  let answer ← uv.call req
  if answer.result < 0 then throw (.error ⟨answer.result, ""⟩)
  pure answer

/-- Source: `fs.cpp:175` `UV_FS_METHOD_SYNCCALL_VOID`. -/
def uvFsCallVoid (req : UvRequest) : Code W Unit := do
  let _ ← uvFsCall uv loops t req

/-- Source: `fs.cpp:187`. -/
def openSync (path : String) (flags mode : Int) : Code W Int := do
  let answer ← uvFsCall uv loops t (.open path flags mode)
  pure answer.result

/-- Source: `fs.cpp:202`. -/
def openFlagsSync (path flags : String) (mode : Int) : Code W Int :=
  openSync uv loops t path (stringToFlags flags) mode

/-- Source: `fs.cpp:210`. The string has the length that was asked for, whatever was read. -/
def readSync (fd : Int) (len : Nat) (offset : Int) : Code W (List UInt8) := do
  let answer ← uvFsCall uv loops t (.read fd (uvBufLen len) offset)
  pure (overwrite (resize [] len) 0 answer.data)

/-- Source: `fs.cpp:236`. -/
def writeSync (fd : Int) (buf : List UInt8) (len : Nat) (offset : Int) : Code W Int := do
  let answer ← uvFsCall uv loops t (.write fd (buf.take (uvBufLen len)) offset)
  pure answer.result

/-- Source: `fs.cpp:253`. -/
def writeStringSync (fd : Int) (buf : List UInt8) (offset : Int) : Code W Int :=
  writeSync uv loops t fd buf buf.length offset

/-- Source: `fs.cpp:279`. -/
def accessSync (path : String) (mode : Int) : Code W Unit :=
  uvFsCallVoid uv loops t (.access path mode)

/-- Source: `fs.cpp:283`. -/
def closeSync (fd : Int) : Code W Unit := uvFsCallVoid uv loops t (.close fd)

/-- Source: `fs.cpp:287`. -/
def unlinkSync (path : String) : Code W Unit := uvFsCallVoid uv loops t (.unlink path)

/-- Source: `fs.cpp:291`. -/
def mkdirSync (path : String) (mode : Int) : Code W Unit :=
  uvFsCallVoid uv loops t (.mkdir path mode)

/-- Source: `fs.cpp:295`. -/
def mkdtempSync (tpl : String) : Code W String := do
  let answer ← uvFsCall uv loops t (.mkdtemp tpl)
  pure answer.string

/-- Source: `fs.cpp:304`. -/
def rmdirSync (path : String) : Code W Unit := uvFsCallVoid uv loops t (.rmdir path)

/-- Source: `fs.cpp:310`. -/
def renameSync (oldPath newPath : String) : Code W Unit :=
  uvFsCallVoid uv loops t (.rename oldPath newPath)

/-- Source: `fs.cpp:316`. -/
def chmodSync (path : String) (mode : Int) : Code W Unit :=
  uvFsCallVoid uv loops t (.chmod path mode)

/-- Source: `fs.cpp:320`. -/
def fchmodSync (fd mode : Int) : Code W Unit := uvFsCallVoid uv loops t (.fchmod fd mode)

/-- Source: `fs.cpp:326`. -/
def chownSync (path : String) (uid gid : Int) : Code W Unit :=
  uvFsCallVoid uv loops t (.chown path uid gid)

/-- Source: `fs.cpp:330`. -/
def fchownSync (fd uid gid : Int) : Code W Unit := uvFsCallVoid uv loops t (.fchown fd uid gid)

/-- Source: `fs.cpp:334`. -/
def fdatasyncSync (fd : Int) : Code W Unit := uvFsCallVoid uv loops t (.fdatasync fd)

/-- Source: `fs.cpp:338`. -/
def fsyncSync (fd : Int) : Code W Unit := uvFsCallVoid uv loops t (.fsync fd)

/-- Source: `fs.cpp:342`. -/
def ftruncateSync (fd : Int) (len : Nat) : Code W Unit := uvFsCallVoid uv loops t (.ftruncate fd len)

/-- Source: `fs.cpp:348`. -/
def futimeSync (fd : Int) (atime mtime : Float) : Code W Unit :=
  uvFsCallVoid uv loops t (.futime fd atime mtime)

/-- Source: `fs.cpp:356`. -/
def utimeSync (path : String) (atime mtime : Float) : Code W Unit :=
  uvFsCallVoid uv loops t (.utime path atime mtime)

/-- Source: `fs.cpp:364`. -/
def linkSync (srcpath dstpath : String) : Code W Unit :=
  uvFsCallVoid uv loops t (.link srcpath dstpath)

/-- The flags of a type of symbolic link. Source: `fs.cpp:373-381`. -/
def symlinkFlags (type : String) : Option Int :=
  if type = "dir" then some 1
  else if type = "junction" then some 2
  else if type = "file" then some 0
  else none

/-- Source: `fs.cpp:372`. The type is checked before the loop is looked up. -/
def symlinkSync (srcpath dstpath type : String) : Code W Unit :=
  match symlinkFlags type with
  | some typeFlag => uvFsCallVoid uv loops t (.symlink srcpath dstpath typeFlag)
  | none =>
    throw (.error ⟨-1, "wring type " ++ type ++ ". Expected file, dir or junction"⟩)

/-- Source: `fs.cpp:460`. -/
def readlinkSync (path : String) : Code W String := do
  let answer ← uvFsCall uv loops t (.readlink path)
  pure answer.string

/-- Source: `fs.cpp:469`. -/
def realpathSync (path : String) : Code W String := do
  let answer ← uvFsCall uv loops t (.realpath path)
  pure answer.string

/-- Source: `fs.cpp:558`. -/
def statSync (path : String) : Code W Stats := do
  let answer ← uvFsCall uv loops t (.stat path)
  pure answer.stat

/-- Source: `fs.cpp:559`. -/
def fstatSync (fd : Int) : Code W Stats := do
  let answer ← uvFsCall uv loops t (.fstat fd)
  pure answer.stat

/-- Source: `fs.cpp:560`. -/
def lstatSync (path : String) : Code W Stats := do
  let answer ← uvFsCall uv loops t (.lstat path)
  pure answer.stat

/-- Source: `fs.cpp:570`. -/
def existsSync (path : String) : Code W Bool :=
  tryCatch (do
    let _ ← statSync uv loops t path
    pure true) fun _ => pure false

/-- The loop over the entries of a directory, from the entry `i` on. Source: `fs.cpp:515-526`. -/
def readdirLoop (next : Nat → Int × DirEnt) : Nat → Nat → List DirEnt → Code W (List DirEnt)
  | 0, _, res => pure res
  | n + 1, i, res =>
    let (r, ent) := next i
    if r = uvEOF then pure res
    else if r < 0 then throw (.error ⟨r, ""⟩)
    else readdirLoop next n (i + 1) (res ++ [ent])

/-- Source: `fs.cpp:493`. -/
def readdirSync (path : String) (flags : Int) : Code W (List DirEnt) := do
  let answer ← uvFsCall uv loops t (.scandir path flags)
  readdirLoop answer.next answer.nbufs 0 []

/-- One read of `readFileSync` into its buffer; the loop was looked up before. -/
def readAt (fd : Int) (buf : List UInt8) (pos len : Nat) : Code W (Nat × List UInt8) := do
  let answer ← uv.call (.read fd (uvBufLen len) pos)
  if answer.result < 0 then throw (.error ⟨answer.result, ""⟩)
  pure (answer.result.toNat, overwrite buf pos answer.data)

/-- The loop for a file of a known length. Source: `fs.cpp:416-425`. -/
def readKnown (fd : Int) (len : Nat) : Nat → List UInt8 → Nat → Code W (List UInt8)
  | 0, _, _ => ExceptT.mk fun _ => none
  | fuel + 1, buf, pos => do
    let (bytesread, buf) ← readAt uv fd buf pos (len - pos)
    if pos + bytesread < len then readKnown fd len fuel buf (pos + bytesread) else pure buf

end

/-- Source: `fs.cpp:428`. -/
def kBlockSize : Nat := 32 <<< 10

/-- The variables of the loop for a file whose length is not known. -/
structure Grow where
  buf : List UInt8 := []
  len : Nat := 0
  pos : Nat := 0
deriving DecidableEq, Repr

/-- Source: `fs.cpp:430-431`. -/
def Grow.extend (g : Grow) : Grow :=
  let len := g.len + kBlockSize
  { g with buf := resize g.buf len, len }

/-- Source: `fs.cpp:442-443`. -/
def Grow.shrink (g : Grow) (bytesread : Nat) : Grow :=
  let len := g.len - (kBlockSize - bytesread)
  { g with buf := resize g.buf len, len }

section
variable {W : Type} (uv : Uv W) (loops : LoopMap) (t : ThreadId)

/-- The loop for a file whose length is not known. Source: `fs.cpp:429-450`. -/
def readBlocks (fd : Int) : Nat → Grow → Code W (List UInt8)
  | 0, _ => ExceptT.mk fun _ => none
  | fuel + 1, g => do
    let g := g.extend
    let (bytesread, buf) ← readAt uv fd g.buf g.pos (g.len - g.pos)
    let g := { g with buf }
    if bytesread < kBlockSize then
      let g := g.shrink bytesread
      if bytesread = 0 then pure g.buf
      else readBlocks fd fuel { g with pos := g.pos + bytesread }
    else readBlocks fd fuel { g with pos := g.pos + bytesread }

/-- Source: `fs.cpp:401`. -/
def readFileFdSync (fuel : Nat) (fd : Int) (_flags : Int) : Code W (List UInt8) := do
  let _ ← Loop.getInstanceSafe loops t
  let stats ← fstatSync uv loops t fd
  let len := if stats.isFile then stats.size else 0
  if len ≠ 0 then readKnown uv fd len fuel (resize [] len) 0
  else readBlocks uv fd fuel {}

/-- Source: `fs.cpp:390`. The flags are not used for the file that is opened. -/
def readFileSync (fuel : Nat) (path : String) (flags : Int) : Code W (List UInt8) := do
  let fd ← openSync uv loops t path oRdonly 0o666
  let data ← readFileFdSync uv loops t fuel fd flags
  closeSync uv loops t fd
  pure data

end

end NodeNative.Fs
