import NodeNative.Fs.Sync

/-!
# One call of libuv

What `uvFsCall` does on a thread with a loop, and what two of the operations that are one such call
give back. `readSync` returns a string of the length that was asked for, so a caller that reads until
the string is empty reads on for ever (`exec_readPieces`). `readdirSync` takes as many entries as the
request's `nbufs` says, which libuv counts up while the entries are taken.
-/

namespace NodeNative.Fs

/-! ### The buffer -/

/-- Growing keeps the bytes. -/
theorem resize_of_le {buf : List UInt8} {len : Nat} (h : buf.length ≤ len) :
    resize buf len = buf ++ List.replicate (len - buf.length) 0 := by
  rw [resize, List.take_of_length_le h]

/-- Shrinking keeps the bytes in front. -/
theorem resize_append (xs ys : List UInt8) : resize (xs ++ ys) xs.length = xs := by
  have : xs.length - (xs ++ ys).length = 0 := by
    rw [List.length_append]
    omega
  rw [resize, List.take_left, this, List.replicate_zero, List.append_nil]

/-- A read behind the bytes `xs` into the zeros of a buffer. -/
theorem overwrite_append (xs data : List UInt8) (k : Nat) :
    overwrite (xs ++ List.replicate k 0) xs.length data =
      xs ++ data ++ List.replicate (k - data.length) 0 := by
  have hle : xs.length ≤ xs.length + data.length := Nat.le_add_right _ _
  rw [overwrite, List.take_left, List.drop_append, List.drop_of_length_le hle, List.nil_append,
    Nat.add_sub_cancel_left, List.drop_replicate]

section
variable {W α : Type} (uv : Uv W) {loops : LoopMap} {t : ThreadId} {l : LoopId}

/-! ### The call -/

/-- A thread with a loop has its instance, -/
theorem exec_getInstanceSafe (hl : Loop.getInstance loops t = some l) (w : W) :
    (Loop.getInstanceSafe loops t : Code W LoopId).exec w = some (.ok l, w) := by
  rw [Loop.getInstanceSafe, hl]
  rfl

/-- and one without fails the assertion. -/
theorem exec_getInstanceSafe_of_none (hl : Loop.getInstance loops t = none) (w : W) :
    (Loop.getInstanceSafe loops t : Code W LoopId).exec w =
      some (.error (.exn (assertionFailed "instance")), w) := by
  rw [Loop.getInstanceSafe, hl]
  rfl

/-- The call returns what libuv answers. Source: `fs.cpp:160-173`. -/
theorem exec_uvFsCall (hl : Loop.getInstance loops t = some l) {req : UvRequest} {w w' : W}
    {a : UvAnswer} (hfs : uv.fs req w = (a, w')) (h : 0 ≤ a.result) :
    (uvFsCall uv loops t req).exec w = some (.ok a, w') := by
  simp only [uvFsCall, exec_bind, exec_getInstanceSafe hl, exec_call, hfs, if_neg (Int.not_lt.2 h)]
  rfl

/-- The call throws a negative result. Source: `fs.cpp:160-173`. -/
theorem exec_uvFsCall_error (hl : Loop.getInstance loops t = some l) {req : UvRequest} {w w' : W}
    {a : UvAnswer} (hfs : uv.fs req w = (a, w')) (h : a.result < 0) :
    (uvFsCall uv loops t req).exec w = some (.error (.error ⟨a.result, ""⟩), w') := by
  simp only [uvFsCall, exec_bind, exec_getInstanceSafe hl, exec_call, hfs, if_pos h]
  rfl

/-- The callable of an asynchronous operation. Source: `fs.cpp:136-158` `CALL_SYNC_METHOD_IN_WORKER`. -/
def inWorker (x : Code W α) : Code W α :=
  tryCatch x fun
    | .error e =>
      match e.str uv with
      | some text => throw (.exn (.futureError ⟨text⟩))
      | none => throw .logicError
    | e => throw e

/-- The callable returns what the operation returns. -/
theorem exec_inWorker_eq_ok_iff (x : Code W α) (w w' : W) (a : α) :
    (inWorker uv x).exec w = some (.ok a, w') ↔ x.exec w = some (.ok a, w') := by
  rw [inWorker, exec_tryCatch]
  rcases h : x.exec w with _ | ⟨e | b, w₁⟩
  · simp
  · rcases e with e | e | _
    · rcases hs : e.str uv with _ | text <;> simp [hs]
    all_goals simp
  · simp

/-! ### `readSync` -/

/-- An answer to a read of `len` bytes that is no error. -/
structure UvAnswer.HasRead (a : UvAnswer) (len : Nat) : Prop where
  result : a.result = a.data.length
  le : a.data.length ≤ uvBufLen len

/-- The string of `readSync` is what was read, filled up to the length that was asked for. Source:
`fs.cpp:212-225`. -/
theorem exec_readSync (hl : Loop.getInstance loops t = some l) {fd : Int} {len : Nat} {offset : Int}
    {w w' : W} {a : UvAnswer} (hfs : uv.fs (.read fd (uvBufLen len) offset) w = (a, w'))
    (h : a.HasRead len) : (readSync uv loops t fd len offset).exec w =
      some (.ok (a.data ++ List.replicate (len - a.data.length) 0), w') := by
  have hbuf : overwrite (resize [] len) 0 a.data =
      a.data ++ List.replicate (len - a.data.length) 0 := by
    rw [resize_of_le (Nat.zero_le len)]
    exact overwrite_append [] a.data len
  have hres : 0 ≤ a.result := h.result ▸ Int.natCast_nonneg _
  rw [readSync, exec_bind, exec_uvFsCall uv hl hfs hres, ← hbuf]
  rfl

/-- A caller of `readSync` that reads a file in consecutive pieces until a piece is empty. -/
def readPieces (loops : LoopMap) (t : ThreadId) (fd : Int) (len : Nat) :
    Nat → Nat → List UInt8 → Code W (List UInt8)
  | 0, _, _ => ExceptT.mk fun _ => none
  | fuel + 1, offset, acc => do
    let piece ← readSync uv loops t fd len offset
    if piece = [] then pure acc
    else readPieces loops t fd len fuel (offset + piece.length) (acc ++ piece)

/-- libuv reads the file with this content: a read gives bytes of the content from its offset on, and
none only when there are none or none were asked for. -/
structure ReadsFile (uv : Uv W) (fd : Int) (content : List UInt8) : Prop where
  hasRead : ∀ len (offset : Nat) w, (uv.fs (.read fd (uvBufLen len) offset) w).1.HasRead len
  data : ∀ len (offset : Nat) w,
    (uv.fs (.read fd (uvBufLen len) offset) w).1.data <+: content.drop offset
  progress : ∀ len (offset : Nat) w, 0 < uvBufLen len → offset < content.length →
    (uv.fs (.read fd (uvBufLen len) offset) w).1.data ≠ []

/-- Pieces of a positive length are never empty. -/
theorem exec_readPieces (hl : Loop.getInstance loops t = some l) {fd : Int} {content : List UInt8}
    (h : ReadsFile uv fd content) {len : Nat} (hlen : 0 < len) (fuel offset : Nat)
    (acc : List UInt8) (w : W) : (readPieces uv loops t fd len fuel offset acc).exec w = none := by
  induction fuel generalizing offset acc w with
  | zero => rfl
  | succ fuel ih =>
    have hread := h.hasRead len offset w
    have hle := hread.le.trans (uvBufLen_le len)
    rw [readPieces, exec_bind, exec_readSync uv hl rfl hread]
    dsimp only
    rw [if_neg, ih]
    intro hnil
    have hlength := congrArg List.length hnil
    rw [List.length_append, List.length_replicate, List.length_nil] at hlength
    omega

/-- A piece of the length zero is empty. -/
theorem exec_readPieces_zero (hl : Loop.getInstance loops t = some l) {fd : Int}
    {content : List UInt8} (h : ReadsFile uv fd content) (fuel offset : Nat) (acc : List UInt8)
    (w : W) : ∃ w', (readPieces uv loops t fd 0 (fuel + 1) offset acc).exec w = some (.ok acc, w') := by
  have hread := h.hasRead 0 offset w
  have hnil : (uv.fs (.read fd (uvBufLen 0) offset) w).1.data = [] :=
    List.length_eq_zero_iff.1 (Nat.le_zero.1 (hread.le.trans (uvBufLen_le 0)))
  refine ⟨(uv.fs (.read fd (uvBufLen 0) offset) w).2, ?_⟩
  rw [readPieces, exec_bind, exec_readSync uv hl rfl hread, hnil]
  rfl

/-- `readSync`, and with it the asynchronous `read`, returns exactly what was read when that is all that
was asked for, and a file that is read in pieces is read to its end only when nothing is asked for and
nothing is there. Source: `fs.cpp:206-226`. -/
theorem readSync_exact_iff (hl : Loop.getInstance loops t = some l) (fd : Int) :
    (∀ len offset w a w', uv.fs (.read fd (uvBufLen len) offset) w = (a, w') → a.HasRead len →
      ∀ read ∈ [readSync uv loops t fd len offset, inWorker uv (readSync uv loops t fd len offset)],
        read.exec w = some (.ok a.data, w') ↔ a.data.length = len) ∧
    ∀ content, ReadsFile uv fd content → ∀ len w,
      (∃ fuel w', (readPieces uv loops t fd len fuel 0 []).exec w = some (.ok content, w')) ↔
        len = 0 ∧ content = [] := by
  refine ⟨fun len offset w a w' hfs hread read hmem => ?_, fun content hfile len w => ?_⟩
  · have hle := hread.le.trans (uvBufLen_le len)
    have hsync : (readSync uv loops t fd len offset).exec w = some (.ok a.data, w') ↔
        a.data.length = len := by
      rw [exec_readSync uv hl hfs hread]
      simp only [Option.some.injEq, Prod.mk.injEq, Except.ok.injEq, and_true, List.append_right_eq_self,
        List.replicate_eq_nil_iff]
      omega
    simp only [List.mem_cons, List.not_mem_nil, or_false] at hmem
    obtain rfl | rfl := hmem
    · exact hsync
    · rw [exec_inWorker_eq_ok_iff, hsync]
  · constructor
    · rintro ⟨fuel, w', h⟩
      rcases Nat.eq_zero_or_pos len with rfl | hlen
      · cases fuel with
        | zero => cases h
        | succ fuel =>
          obtain ⟨w₁, hnil⟩ := exec_readPieces_zero uv hl hfile fuel 0 [] w
          rw [hnil] at h
          cases h
          exact ⟨rfl, rfl⟩
      · rw [exec_readPieces uv hl hfile hlen] at h
        cases h
    · rintro ⟨rfl, rfl⟩
      exact ⟨1, exec_readPieces_zero uv hl hfile 0 0 [] w⟩

end

/-- A libuv whose only file has this content and gives every read all that is there. -/
def fileUv (content : List UInt8) : Uv Unit where
  fs
    | .read _ len offset, w =>
      let data := (content.drop offset.toNat).take len
      ({ result := data.length, data }, w)
    | _, w => ({ result := 0 }, w)
  strerror _ := ""

/-- The file system with one file reads that file. -/
theorem fileUv_readsFile (content : List UInt8) (fd : Int) :
    ReadsFile (fileUv content) fd content where
  hasRead _ _ _ := ⟨rfl, List.length_take_le _ _⟩
  data len offset _ := by
    simp only [fileUv, Int.toNat_natCast]
    exact List.take_prefix _ _
  progress len offset _ hlen hoffset hnil := by
    have hlength := congrArg List.length hnil
    simp only [fileUv, Int.toNat_natCast, List.length_take, List.length_drop, List.length_nil] at hlength
    omega

/-- The first two bytes of a file of three, and the file in pieces of two. -/
theorem readSync_exact_of_three :
    (readSync (fileUv [1, 2, 3]) (registerLoop [] 0 0) 0 5 2 0).exec () = some (.ok [1, 2], ()) ∧
    ¬ ∃ fuel w', (readPieces (fileUv [1, 2, 3]) (registerLoop [] 0 0) 0 5 2 fuel 0 []).exec () =
      some (.ok [1, 2, 3], w') := by
  obtain ⟨hread, hpieces⟩ := readSync_exact_iff (fileUv [1, 2, 3])
    (Loop.getInstance_registerLoop [] 0 0) 5
  constructor
  · exact (hread 2 0 () _ () rfl ⟨rfl, Nat.le_refl 2⟩ _ (.head _)).2 rfl
  · intro h
    have hlen := ((hpieces _ (fileUv_readsFile [1, 2, 3] 5) 2 ()).1 h).1
    cases hlen

/-- The last byte of a file of three comes with a byte that the file does not have. -/
theorem readSync_not_exact :
    (readSync (fileUv [1, 2, 3]) (registerLoop [] 0 0) 0 5 2 2).exec () = some (.ok [3, 0], ()) ∧
    ((fileUv [1, 2, 3]).fs (.read 5 (uvBufLen 2) 2) ()).1.data = [3] :=
  ⟨rfl, rfl⟩

/-! ### `readdirSync` -/

/-- The scan yields these entries and ends with `last`, which is `UV_EOF` or another error. -/
structure Yields (next : Nat → Int × DirEnt) (ents : List DirEnt) (last : Int) : Prop where
  entry : ∀ i (h : i < ents.length), 0 ≤ (next i).1 ∧ (next i).2 = ents[i]
  ends : (next ents.length).1 = last
  neg : last < 0

section
variable {W : Type} (uv : Uv W) {loops : LoopMap} {t : ThreadId} {l : LoopId}

/-- What the loop over the entries ends with. -/
def listed (ents : List DirEnt) (last : Int) : Except Thrown (List DirEnt) :=
  if last = uvEOF then .ok ents else .error (.error ⟨last, ""⟩)

/-- The loop over the entries takes no more of them than its bound, whatever the scan has. Source:
`fs.cpp:515-526`. -/
theorem exec_readdirLoop {next : Nat → Int × DirEnt} {ents : List DirEnt} {last : Int}
    (h : Yields next ents last) (n : Nat) {i : Nat} (hi : i ≤ ents.length) (w : W) :
    (readdirLoop next n i (ents.take i)).exec w =
      some (if i + n ≤ ents.length then .ok (ents.take (i + n)) else listed ents last, w) := by
  induction n generalizing i with
  | zero => rw [Nat.add_zero, if_pos hi, readdirLoop, exec_pure]
  | succ n ih =>
    rcases Nat.lt_or_eq_of_le hi with hlt | rfl
    · obtain ⟨hpos, hent⟩ := h.entry i hlt
      have heof : (next i).1 ≠ uvEOF := by
        rw [uvEOF]
        omega
      have hstep : ents.take i ++ [(next i).2] = ents.take (i + 1) := by
        rw [hent, List.take_append_getElem hlt]
      rw [readdirLoop]
      dsimp only
      rw [if_neg heof, if_neg (Int.not_lt.2 hpos), hstep, ih hlt, Nat.succ_add_eq_add_succ]
    · rw [readdirLoop, if_neg (by omega), List.take_of_length_le (Nat.le_refl _)]
      dsimp only
      rw [h.ends, listed]
      by_cases heof : last = uvEOF
      · rw [if_pos heof, if_pos heof, exec_pure]
      · rw [if_neg heof, if_neg heof, if_pos h.neg, exec_throw]

/-- `readdirSync` lists the directory and throws what the scan or an entry reports, when the scan fails
or the directory is empty. Source: `fs.cpp:493-531`. -/
theorem readdirSync_lists_iff (hl : Loop.getInstance loops t = some l) {path : String} {flags : Int}
    {w w' : W} {a : UvAnswer} (hfs : uv.fs (.scandir path flags) w = (a, w')) (hn : a.nbufs = 0)
    {ents : List DirEnt} {last : Int} (h : Yields a.next ents last) :
    ((0 ≤ a.result → last = uvEOF →
        (readdirSync uv loops t path flags).exec w = some (.ok ents, w')) ∧
      ((∃ e w₁, (readdirSync uv loops t path flags).exec w = some (.error e, w₁)) ↔
        a.result < 0 ∨ last ≠ uvEOF)) ↔
      a.result < 0 ∨ ents = [] ∧ last = uvEOF := by
  rcases Int.lt_or_le a.result 0 with hneg | hpos
  · have hrun : (readdirSync uv loops t path flags).exec w =
        some (.error (.error ⟨a.result, ""⟩), w') := by
      rw [readdirSync, exec_bind, exec_uvFsCall_error uv hl hfs hneg]
    refine iff_of_true ⟨fun hres => absurd hneg (Int.not_lt.2 hres), ?_⟩ (.inl hneg)
    exact iff_of_true ⟨_, _, hrun⟩ (.inl hneg)
  · have hrun : (readdirSync uv loops t path flags).exec w = some (.ok [], w') := by
      rw [readdirSync, exec_bind, exec_uvFsCall uv hl hfs hpos]
      dsimp only
      rw [hn]
      exact exec_readdirLoop h 0 (Nat.zero_le _) w'
    have hres : ¬ a.result < 0 := Int.not_lt.2 hpos
    rw [hrun]
    constructor
    · rintro ⟨hents, herr⟩
      have hlast : last = uvEOF := by
        by_contra hne
        obtain ⟨e, w₁, he⟩ := herr.2 (.inr hne)
        cases he
      have hok := hents hpos hlast
      cases hok
      exact .inr ⟨rfl, hlast⟩
    · rintro (hneg | ⟨rfl, hlast⟩)
      · exact absurd hneg hres
      · refine ⟨fun _ _ => rfl, iff_of_false ?_ ?_⟩
        · rintro ⟨e, w₁, he⟩
          cases he
        · rintro (hneg | hne)
          · exact hres hneg
          · exact hne hlast

end

/-- A libuv whose only directory has these entries, and reports `last` behind them. -/
def dirUv (ents : List DirEnt) (last : Int) : Uv Unit where
  fs _ w := ({ result := ents.length, next := fun i => (ents[i]?.map ((0 : Int), ·)).getD (last, ⟨"", 0⟩) }, w)
  strerror _ := ""

/-- The file system with one directory yields its entries. -/
theorem dirUv_yields (ents : List DirEnt) {last : Int} (h : last < 0) (req : UvRequest) :
    Yields ((dirUv ents last).fs req ()).1.next ents last where
  entry i hi := by simp [dirUv, hi]
  ends := by simp [dirUv]
  neg := h

/-- An empty directory is listed. -/
theorem readdirSync_lists_empty :
    (readdirSync (dirUv [] uvEOF) (registerLoop [] 0 0) 0 "tmp" 0).exec () = some (.ok [], ()) := by
  have hyields : Yields ((dirUv [] uvEOF).fs (.scandir "tmp" 0) ()).1.next [] uvEOF :=
    dirUv_yields [] (by decide) _
  have hfs : (dirUv [] uvEOF).fs (.scandir "tmp" 0) () =
      (((dirUv [] uvEOF).fs (.scandir "tmp" 0) ()).1, ()) := rfl
  obtain ⟨hents, -⟩ := (readdirSync_lists_iff (dirUv [] uvEOF)
    (Loop.getInstance_registerLoop [] 0 0) hfs rfl hyields).2 (.inr ⟨rfl, rfl⟩)
  exact hents (Int.natCast_nonneg 0) rfl

/-- A directory with one file is listed as empty. -/
theorem readdirSync_not_lists :
    Yields ((dirUv [⟨"a", 1⟩] uvEOF).fs (.scandir "tmp" 0) ()).1.next [⟨"a", 1⟩] uvEOF ∧
    (readdirSync (dirUv [⟨"a", 1⟩] uvEOF) (registerLoop [] 0 0) 0 "tmp" 0).exec () =
      some (.ok [], ()) :=
  ⟨dirUv_yields _ (by decide) _, rfl⟩

end NodeNative.Fs
