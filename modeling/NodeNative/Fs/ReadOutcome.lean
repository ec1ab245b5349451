import NodeNative.Fs.ReadFile

/-!
# What `readFileSync` gives

The loop for a file of a known length ends when the replies of the system reach that length or an
error before one of them is empty (`File.Progresses`); a file that has shrunk since `fstat` is read for
ever. The loop for a file of an unknown length ends at the first empty reply, with everything before
it. An error of `fstat` or of a read leaves the descriptor of the path open.
-/

namespace NodeNative.Fs.File

section
variable (f : File)

/-- The loop has accounted for what the system gave: it returns the bytes of all reads, or throws the
error of the last one. -/
def Accounts (out : Except Thrown (List UInt8)) (w : FileState) : Prop :=
  out = .ok w.given ∨
    ∃ e, f.reply (w.requests.length - 1) = .error e ∧ out = .error (.error ⟨.negSucc e, ""⟩)

/-- No reply is empty before one is an error or all of them have the size of the file. -/
def Progresses (size : Nat) : Prop :=
  ∃ n, (∀ i < n, f.reply i ≠ .ok []) ∧ ((∃ e, f.reply n = .error e) ∨ f.pos n = size)

/-- A read fails while the loop reads on. -/
def ReadFails (len : Nat) : Prop :=
  ∃ n e, f.reply n = .error e ∧ ∀ i < n, f.ReadsOn len i

variable {f}

/-- A reply that is an error ends the reading with it, -/
theorem readResult_error {len d n e : Nat} (h : f.reply n = .error e) :
    f.readResult len d n = (.error (.error ⟨.negSucc e, ""⟩), f.after len d (n + 1)) := by
  rw [readResult, h]

/-- and one that is the last ends it with the bytes. -/
theorem readResult_ok {len d n : Nat} {b : List UInt8} (h : f.reply n = .ok b) :
    f.readResult len d n = (.ok (bytesRead f.reply (n + 1)), f.after len d (n + 1)) := by
  rw [readResult, h]

/-- The loops account for what the system gave. -/
theorem accounts_readResult (len d n : Nat) :
    f.Accounts (f.readResult len d n).1 (f.readResult len d n).2 := by
  rcases h : f.reply n with e | b
  · have hcount : (f.after len d (n + 1)).requests.length - 1 = n := by
      rw [after, List.length_map, List.length_range, Nat.add_sub_cancel]
    rw [readResult_error h]
    exact .inr ⟨e, by rw [hcount, h], rfl⟩
  · rw [readResult_ok h]
    exact .inl rfl

/-- No read follows an error. -/
theorem not_readsOn_of_error {len n e : Nat} (h : f.reply n = .error e) : ¬ f.ReadsOn len n := by
  rintro ⟨b, hb, -⟩
  cases h.symm.trans hb

/-- The system reports the end of the file again and again. -/
theorem reply_eq_nil_of_le (heof : ∀ i, f.reply i = .ok [] → f.reply (i + 1) = .ok []) {i n : Nat}
    (h : f.reply i = .ok []) (hle : i ≤ n) : f.reply n = .ok [] := by
  induction hle with
  | refl => exact h
  | step _ ih => exact heof _ ih

/-- Some round of the loop for a file of a known length ends it when the replies progress. -/
theorem exists_first_readsOn_iff {s : Stats} (hs : f.fstat = .ok s) (hlen : s.fileLen ≠ 0)
    (heof : ∀ i, f.reply i = .ok [] → f.reply (i + 1) = .ok []) :
    (∃ n, Rounds.First (f.ReadsOn s.fileLen) n) ↔ f.Progresses s.fileLen := by
  have hlt {n : Nat} (h : f.ReadsOn s.fileLen n) : f.pos (n + 1) < s.fileLen := by
    obtain ⟨b, -, hlt⟩ := h
    rwa [if_neg hlen] at hlt
  constructor
  · rintro ⟨n, hgoes, hends⟩
    rcases h : f.reply n with e | b
    · refine ⟨n, fun i hi hnil => ?_, .inl ⟨e, h⟩⟩
      cases h.symm.trans (reply_eq_nil_of_le heof hnil (Nat.le_of_lt hi))
    · have hge : s.fileLen ≤ f.pos (n + 1) := by
        refine Nat.not_lt.1 fun hlt => hends ⟨b, h, ?_⟩
        rwa [if_neg hlen]
      have hfull : f.pos (n + 1) = s.fileLen := Nat.le_antisymm (pos_le hs hlen (n + 1)) hge
      -- the last reply cannot be empty: the round before it has gone on
      have hnil : b ≠ [] := by
        rintro rfl
        rw [pos_succ h, List.length_nil, Nat.add_zero] at hfull
        cases n with
        | zero => exact hlen hfull.symm
        | succ n => exact absurd hfull (Nat.ne_of_lt (hlt (hgoes n (Nat.lt_succ_self n))))
      refine ⟨n + 1, fun i hi hi' => ?_, .inr hfull⟩
      have hlast := reply_eq_nil_of_le heof hi' (Nat.le_of_lt_succ hi)
      rw [h] at hlast
      exact hnil (Except.ok.inj hlast)
  · rintro ⟨n, -, ⟨e, h⟩ | hfull⟩
    · exact Rounds.exists_first_iff.2 ⟨n, not_readsOn_of_error h⟩
    · cases n with
      | zero => exact absurd hfull.symm hlen
      | succ n => exact Rounds.exists_first_iff.2 ⟨n, fun h => Nat.ne_of_lt (hlt h) hfull⟩

section
variable {loops : LoopMap} {t : ThreadId} {l : LoopId}

/-- Reading a regular file of a reported size ends, with the bytes read or the error of the last read,
when no read is empty before the size is reached or a read fails. Source: `fs.cpp:416-425`. -/
theorem readFileFdSync_terminates_iff (hl : Loop.getInstance loops t = some l) {s : Stats}
    (hs : f.fstat = .ok s) (hfile : s.isFile) (hsize : s.size ≠ 0)
    (heof : ∀ i, f.reply i = .ok [] → f.reply (i + 1) = .ok []) (fd flags : Int) (d : Nat) :
    (∃ fuel out w, (readFileFdSync f.uv loops t fuel fd flags).exec { descriptors := d } =
      some (out, w) ∧ f.Accounts out w) ↔ f.Progresses s.size := by
  have hlen : s.fileLen = s.size := if_pos hfile
  have hfirst := exists_first_readsOn_iff hs (hlen ▸ hsize) heof
  rw [← hlen, ← hfirst]
  constructor
  · rintro ⟨fuel, out, w, h, -⟩
    obtain ⟨n, hn, -⟩ := (exec_readFileFdSync_iff hl hs fd flags d (out, w)).1 ⟨fuel, h⟩
    exact ⟨n, hn⟩
  · rintro ⟨n, hn⟩
    obtain ⟨fuel, h⟩ := (exec_readFileFdSync_iff hl hs fd flags d _).2 ⟨n, hn, rfl⟩
    exact ⟨fuel, _, _, h, accounts_readResult s.fileLen d n⟩

end

end

/-- The file with these replies, and empty ones behind them. -/
def ofReplies (s : Stats) (replies : List (Except Nat (List UInt8)))
    (h : ∀ i < replies.length, (bytesOf (replies.getD i (.ok []))).length ≤
      askLen s.fileLen (bytesRead (fun i => replies.getD i (.ok [])) i).length) : File where
  opened := .ok 3
  fstat := .ok s
  reply i := replies.getD i (.ok [])
  fits := by
    rintro s' hs i b hb
    cases hs
    rcases Nat.lt_or_ge i replies.length with hi | hi
    · have hfit := h i hi
      rwa [hb, bytesOf] at hfit
    · rw [List.getD_eq_getElem?_getD, List.getElem?_eq_none hi] at hb
      cases hb
      exact Nat.zero_le _

/-- A regular file of three bytes. -/
def threeBytes : Stats := { mode := 0o100000, size := 3 }

/-- A file that gives its three bytes in two reads. -/
def twoReads : File := ofReplies threeBytes [.ok [1, 2], .ok [3]] (by decide)

/-- A file that has lost its third byte since `fstat`. -/
def shrunk : File := ofReplies threeBytes [.ok [1, 2]] (by decide)

/-- Two reads that have the size of the file. -/
theorem readFileFdSync_terminates_of_two :
    ∃ fuel out w, (readFileFdSync twoReads.uv (registerLoop [] 0 0) 0 fuel 3 0).exec {} =
      some (out, w) ∧ twoReads.Accounts out w := by
  have heof (i : Nat) (h : twoReads.reply i = .ok []) : twoReads.reply (i + 1) = .ok [] := by
    cases i with
    | zero => cases h
    | succ i => rfl
  have hne : ∀ i < 2, twoReads.reply i ≠ .ok [] := by decide
  have hiff := readFileFdSync_terminates_iff (Loop.getInstance_registerLoop [] 0 0)
    (show twoReads.fstat = .ok threeBytes from rfl) (by decide) (by decide) heof 3 0 0
  exact hiff.2 ⟨2, hne, .inr rfl⟩

/-- The file that has shrunk is read for ever. -/
theorem readFileFdSync_not_terminates :
    (∀ i, shrunk.reply i = .ok [] → shrunk.reply (i + 1) = .ok []) ∧
    ∀ fuel, (readFileFdSync shrunk.uv (registerLoop [] 0 0) 0 fuel 3 0).exec {} = none := by
  have hreply (i : Nat) : shrunk.reply (i + 1) = .ok [] := rfl
  have hpos (i : Nat) : shrunk.pos (i + 1) = 2 := by
    induction i with
    | zero => rfl
    | succ i ih => rw [pos_succ (hreply i), ih, List.length_nil]
  refine ⟨fun i _ => hreply i, fun fuel => ?_⟩
  rcases hr : (readFileFdSync shrunk.uv (registerLoop [] 0 0) 0 fuel 3 0).exec {} with _ | r
  · rfl
  obtain ⟨n, hn, -⟩ := (exec_readFileFdSync_iff (Loop.getInstance_registerLoop [] 0 0)
    (show shrunk.fstat = .ok threeBytes from rfl) 3 0 0 r).1 ⟨fuel, hr⟩
  have hlt : shrunk.pos (n + 1) < threeBytes.fileLen := by
    rw [hpos]
    decide
  exfalso
  cases n with
  | zero => exact hn.2 ⟨[1, 2], rfl, hlt⟩
  | succ n => exact hn.2 ⟨[], rfl, hlt⟩

section
variable {f : File} {loops : LoopMap} {t : ThreadId} {l : LoopId}

/-! ### The file of an unknown length -/

/-- The bytes of the first blocks. -/
theorem bytesRead_eq {blocks : List (List UInt8)}
    (hblocks : ∀ i (h : i < blocks.length), f.reply i = .ok blocks[i]) {n : Nat}
    (hn : n ≤ blocks.length) : bytesRead f.reply n = (blocks.take n).flatten := by
  induction n with
  | zero => rfl
  | succ n ih =>
    rw [bytesRead, ih (Nat.le_of_succ_le hn), hblocks n hn, bytesOf, ← List.take_append_getElem hn,
      List.flatten_append, List.flatten_singleton]

/-- How many bytes the first blocks are. -/
def total (blocks : List (List UInt8)) : Nat := blocks.foldr (fun b n => b.length + n) 0

/-- The bytes of the blocks are counted by `total`. -/
theorem length_flatten_eq_total (blocks : List (List UInt8)) :
    blocks.flatten.length = total blocks := by
  induction blocks with
  | nil => rfl
  | cons b blocks ih =>
    rw [List.flatten_cons, List.length_append, ih]
    rfl

/-- The loop's variables at its head, behind these blocks. -/
def headOf (blocks : List (List UInt8)) : Grow := ⟨blocks.flatten, total blocks, total blocks⟩

/-- The state of the loop behind some of the blocks. -/
theorem head_eq {blocks : List (List UInt8)}
    (hblocks : ∀ i (h : i < blocks.length), f.reply i = .ok blocks[i]) {n : Nat}
    (hn : n ≤ blocks.length) : f.head n = headOf (blocks.take n) := by
  rw [head, pos, bytesRead_eq hblocks hn, headOf, length_flatten_eq_total]

/-- Reading a file of an unknown length asks for 32768 bytes behind those read so far, never takes off
more of the length than it has added, ends with the first empty read and returns all the bytes.
Source: `fs.cpp:429-450`. -/
theorem readFileFdSync_reads_blocks (hl : Loop.getInstance loops t = some l) {s : Stats}
    (hs : f.fstat = .ok s) (hlen : s.isFile = false ∨ s.size = 0) {blocks : List (List UInt8)}
    (hblocks : ∀ i (h : i < blocks.length), f.reply i = .ok blocks[i]) (hne : ∀ b ∈ blocks, b ≠ [])
    (hend : f.reply blocks.length = .ok []) (fd flags : Int) (d : Nat) :
    (∃ fuel w, (readFileFdSync f.uv loops t fuel fd flags).exec { descriptors := d } =
        some (.ok blocks.flatten, w) ∧ blocks.flatten.length = total blocks ∧
      w.requests = (List.range (blocks.length + 1)).map fun i => (32768, (total (blocks.take i) : Int))) ∧
    ∀ i ≤ blocks.length,
      (∀ fuel, (readBlocks f.uv fd (fuel + i) {}).exec { descriptors := d } =
        (readBlocks f.uv fd fuel (headOf (blocks.take i))).exec (f.after 0 d i)) ∧
      kBlockSize - (bytesOf (f.reply i)).length ≤ (headOf (blocks.take i)).extend.len := by
  have hzero : s.fileLen = 0 := by
    rcases hlen with h | h
    · rw [Stats.fileLen, h]
      rfl
    · rw [Stats.fileLen, h, ite_self]
  have hgoes (i : Nat) (hi : i < blocks.length) : f.ReadsOn 0 i :=
    ⟨blocks[i], hblocks i hi, hne _ (List.getElem_mem hi)⟩
  have hfirst : Rounds.First (f.ReadsOn 0) blocks.length := by
    refine ⟨hgoes, ?_⟩
    rintro ⟨b, hb, hnil⟩
    rw [if_pos rfl] at hnil
    exact hnil (Except.ok.inj (hb.symm.trans hend))
  constructor
  · obtain ⟨fuel, hrun⟩ := (exec_readFileFdSync_iff hl hs fd flags d _).2
      ⟨blocks.length, hzero ▸ hfirst, rfl⟩
    have hread : bytesRead f.reply (blocks.length + 1) = blocks.flatten := by
      rw [bytesRead, bytesRead_eq hblocks (Nat.le_refl _), hend, bytesOf, List.append_nil,
        List.take_length]
    rw [readResult_ok hend, hread, hzero] at hrun
    refine ⟨fuel, _, hrun, length_flatten_eq_total blocks, ?_⟩
    rw [after]
    refine List.map_congr_left fun i hi => ?_
    have hi' : i ≤ blocks.length := Nat.le_of_lt_succ (List.mem_range.1 hi)
    rw [pos, bytesRead_eq hblocks hi', ← length_flatten_eq_total, askLen, if_pos rfl]
    rfl
  · intro i hi
    constructor
    · intro fuel
      have hskip := (rounds_readBlocks hs hzero fd d).skip fuel fun j hj =>
        hgoes j (Nat.lt_of_lt_of_le hj hi)
      rw [← head_eq hblocks hi]
      exact hskip
    · calc kBlockSize - (bytesOf (f.reply i)).length
          ≤ kBlockSize := Nat.sub_le _ _
        _ ≤ (headOf (blocks.take i)).extend.len := Nat.le_add_left _ _

end

/-- Two blocks of a pipe. -/
theorem readFileFdSync_reads_two_blocks :
    ∃ fuel w, (readFileFdSync (ofReplies {} [.ok [1, 2], .ok [3]] (by decide)).uv
      (registerLoop [] 0 0) 0 fuel 3 0).exec {} = some (.ok [1, 2, 3], w) ∧
      w.requests = [(32768, 0), (32768, 2), (32768, 3)] := by
  let f : File := ofReplies {} [.ok [1, 2], .ok [3]] (by decide)
  have hblocks : ∀ i (h : i < [[1, 2], [(3 : UInt8)]].length),
      f.reply i = .ok [[1, 2], [(3 : UInt8)]][i] := by decide
  have hne : ∀ b ∈ [[1, 2], [(3 : UInt8)]], b ≠ [] := by decide
  obtain ⟨⟨fuel, w, hrun, -, hreq⟩, -⟩ := readFileFdSync_reads_blocks
    (Loop.getInstance_registerLoop [] 0 0) (show f.fstat = .ok {} from rfl) (.inr rfl) hblocks hne
    rfl 3 0 0
  exact ⟨fuel, w, hrun, hreq⟩

/-! ### The descriptor of a path -/

section
variable {f : File} {loops : LoopMap} {t : ThreadId} {l : LoopId}

/-- A file that can be opened is open afterwards, -/
theorem exec_openSync (hl : Loop.getInstance loops t = some l) {fd : Nat} (hopen : f.opened = .ok fd)
    (path : String) (w : FileState) : (openSync f.uv loops t path oRdonly 0o666).exec w =
      some (.ok (fd : Int), { w with descriptors := w.descriptors + 1 }) := by
  have hfs : f.uv.fs (.open path oRdonly 0o666) w =
      ({ result := fd }, { w with descriptors := w.descriptors + 1 }) := by
    rw [uv]
    dsimp only
    rw [hopen]
  rw [openSync, exec_bind, exec_uvFsCall f.uv hl hfs (Int.natCast_nonneg fd)]
  rfl

/-- one that cannot is not, -/
theorem exec_openSync_error (hl : Loop.getInstance loops t = some l) {e : Nat}
    (hopen : f.opened = .error e) (path : String) (w : FileState) :
    (openSync f.uv loops t path oRdonly 0o666).exec w =
      some (.error (.error ⟨.negSucc e, ""⟩), w) := by
  have hfs : f.uv.fs (.open path oRdonly 0o666) w = ({ result := .negSucc e }, w) := by
    rw [uv]
    dsimp only
    rw [hopen]
  rw [openSync, exec_bind, exec_uvFsCall_error f.uv hl hfs (Int.negSucc_lt_zero e)]

/-- and without a loop nothing is tried. -/
theorem exec_openSync_of_none (hl : Loop.getInstance loops t = none) (path : String) (w : FileState) :
    (openSync f.uv loops t path oRdonly 0o666).exec w =
      some (.error (.exn (assertionFailed "instance")), w) := by
  rw [openSync, exec_bind, uvFsCall, exec_bind, exec_getInstanceSafe_of_none hl]

/-- A descriptor is closed again. -/
theorem exec_closeSync (hl : Loop.getInstance loops t = some l) (fd : Int) (w : FileState) :
    (closeSync f.uv loops t fd).exec w =
      some (.ok (), { w with descriptors := w.descriptors - 1 }) := by
  have hfs : f.uv.fs (.close fd) w =
      ({ result := 0 }, { w with descriptors := w.descriptors - 1 }) := rfl
  rw [closeSync, uvFsCallVoid, exec_bind, exec_uvFsCall f.uv hl hfs (Int.le_refl 0)]
  rfl

/-- A file whose `fstat` fails is not read. -/
theorem exec_readFileFdSync_error (hl : Loop.getInstance loops t = some l) {e : Nat}
    (hs : f.fstat = .error e) (fuel : Nat) (fd flags : Int) (w : FileState) :
    (readFileFdSync f.uv loops t fuel fd flags).exec w =
      some (.error (.error ⟨.negSucc e, ""⟩), w) := by
  have hfs : f.uv.fs (.fstat fd) w = ({ result := .negSucc e }, w) := by
    rw [uv]
    dsimp only
    rw [hs]
  rw [readFileFdSync, exec_bind, exec_getInstanceSafe hl]
  dsimp only
  rw [exec_bind, fstatSync, exec_bind, exec_uvFsCall_error f.uv hl hfs (Int.negSucc_lt_zero e)]

/-- `readFileSync` on a path that can be opened: the file is read, and closed behind a read that has not
failed. -/
theorem exec_readFileSync (hl : Loop.getInstance loops t = some l) {fd : Nat}
    (hopen : f.opened = .ok fd) (fuel : Nat) (path : String) (flags : Int) (w : FileState) :
    (readFileSync f.uv loops t fuel path flags).exec w =
      ((readFileFdSync f.uv loops t fuel fd flags).exec
        { w with descriptors := w.descriptors + 1 }).map fun r =>
          (r.1, if r.1.isOk then { r.2 with descriptors := r.2.descriptors - 1 } else r.2) := by
  rw [readFileSync, exec_bind, exec_openSync hl hopen]
  dsimp only
  rw [exec_bind]
  rcases (readFileFdSync f.uv loops t fuel fd flags).exec
    { w with descriptors := w.descriptors + 1 } with _ | ⟨e | data, w'⟩
  · rfl
  · rfl
  · dsimp only
    rw [exec_bind, exec_closeSync hl]
    rfl

/-- `readFileSync` on a path leaves as many descriptors open as there were exactly when there is no loop,
the path cannot be opened, or neither `fstat` nor a read fails. Source: `fs.cpp:390-395`. -/
theorem readFileSync_descriptors_iff {fuel : Nat} {path : String} {flags : Int} {d : Nat}
    {out : Except Thrown (List UInt8)} {w : FileState}
    (h : (readFileSync f.uv loops t fuel path flags).exec { descriptors := d } = some (out, w)) :
    w.descriptors = d ↔ Loop.getInstance loops t = none ∨ (∃ e, f.opened = .error e) ∨
      ∃ s, f.fstat = .ok s ∧ ¬ f.ReadFails s.fileLen := by
  rcases hl : Loop.getInstance loops t with _ | l
  · rw [readFileSync, exec_bind, exec_openSync_of_none hl] at h
    cases h
    exact iff_of_true rfl (.inl rfl)
  rcases hopen : f.opened with e | fd
  · rw [readFileSync, exec_bind, exec_openSync_error hl hopen] at h
    cases h
    exact iff_of_true rfl (.inr (.inl ⟨e, rfl⟩))
  have hopened : ¬ ∃ e, (Except.ok fd : Except Nat Nat) = .error e := by
    rintro ⟨e, he⟩
    cases he
  rw [exec_readFileSync hl hopen] at h
  obtain ⟨r, hr, hpair⟩ := Option.map_eq_some_iff.1 h
  rcases hs : f.fstat with e | s
  · rw [exec_readFileFdSync_error hl hs] at hr
    cases hr
    cases hpair
    refine iff_of_false (Nat.succ_ne_self d) ?_
    rintro (h | h | ⟨s, h, -⟩)
    · cases h
    · exact hopened h
    · cases h
  obtain ⟨n, hn, rfl⟩ := (exec_readFileFdSync_iff hl hs fd flags (d + 1) r).1 ⟨fuel, hr⟩
  rcases hreply : f.reply n with e | b
  · rw [readResult_error hreply] at hpair
    cases hpair
    refine iff_of_false (Nat.succ_ne_self d) ?_
    rintro (h | h | ⟨s', h, hnot⟩)
    · cases h
    · exact hopened h
    · cases h
      exact hnot ⟨n, e, hreply, hn.1⟩
  · rw [readResult_ok hreply] at hpair
    cases hpair
    refine iff_of_true rfl (.inr (.inr ⟨s, rfl, ?_⟩))
    -- a read that fails would have ended the loop in its own round
    rintro ⟨m, e, hfail, hgoes⟩
    have hm : Rounds.First (f.ReadsOn s.fileLen) m := ⟨hgoes, not_readsOn_of_error hfail⟩
    rw [hm.unique hn, hreply] at hfail
    cases hfail

end

/-- The descriptor of a path that is read to its end. -/
theorem readFileSync_descriptors_of_two :
    ∃ out w, (readFileSync twoReads.uv (registerLoop [] 0 0) 0 2 "a" 0).exec { descriptors := 4 } =
      some (out, w) ∧ w.descriptors = 4 := by
  have hrun : (readFileSync twoReads.uv (registerLoop [] 0 0) 0 2 "a" 0).exec { descriptors := 4 } =
      some (.ok [1, 2, 3], twoReads.after 3 4 2) := rfl
  refine ⟨_, _, hrun, (readFileSync_descriptors_iff hrun).2 (.inr (.inr ⟨threeBytes, rfl, ?_⟩))⟩
  rintro ⟨n, e, hfail, -⟩
  rcases n with _ | _ | n <;> cases hfail

/-- The descriptor of a path that cannot be read stays open. -/
theorem readFileSync_leaks :
    (readFileSync (ofReplies threeBytes [.error 4] (by decide)).uv (registerLoop [] 0 0) 0 1 "a" 0).exec
        { descriptors := 4 } =
      some (.error (.error ⟨-5, ""⟩), { descriptors := 5, requests := [(3, 0)] }) :=
  rfl

end NodeNative.Fs.File
