import NodeNative.Fs.Calls
import NodeNative.Lib.Rounds

/-!
# Reading a whole file

`readFileSync` reads either until it has the length that `fstat` has reported, or block by block until
a read gives nothing. Both are loops through numbered states (`Rounds`): the `n`-th round starts when
the replies before it have been read (`File.after`), goes on when `File.ReadsOn` says so, and ends with
`File.readResult` otherwise. So what a call does is known from the replies of the system
(`File.exec_readFileFdSync_iff`), and what is asked for about it is a question about them.

The first loop goes on when a read gives nothing before the reported length is reached, where the
second one ends. The descriptor is closed only when the loop ends with data.
-/

namespace NodeNative.Fs

/-! ### The system -/

/-- The bytes of a reply. -/
def bytesOf : Except Nat (List UInt8) → List UInt8
  | .ok b => b
  | .error _ => []

/-- The bytes of the first `n` replies. -/
def bytesRead (reply : Nat → Except Nat (List UInt8)) : Nat → List UInt8
  | 0 => []
  | n + 1 => bytesRead reply n ++ bytesOf (reply n)

/-- The length that `readFileSync` starts with. Source: `fs.cpp:405-409`. -/
def Stats.fileLen (s : Stats) : Nat := if s.isFile then s.size else 0

/-- The length that is asked for at a position of a file whose length is known, or not. -/
def askLen (len pos : Nat) : Nat := if len = 0 then kBlockSize else uvBufLen (len - pos)

/-- What the system answers to `open`, to `fstat`, and to the reads in order: a value, or the number of
an error. A read gives no more than it was asked for. -/
structure File where
  opened : Except Nat Nat
  fstat : Except Nat Stats
  reply : Nat → Except Nat (List UInt8)
  fits : ∀ s, fstat = .ok s → ∀ i b, reply i = .ok b →
    b.length ≤ askLen s.fileLen (bytesRead reply i).length

/-- The open descriptors, the lengths and offsets of the reads so far, and what they gave. -/
structure FileState where
  descriptors : Nat := 0
  requests : List (Nat × Int) := []
  given : List UInt8 := []
deriving DecidableEq, Repr

/-- What libuv makes of a reply. -/
def readAnswer : Except Nat (List UInt8) → UvAnswer
  | .ok data => { result := data.length, data }
  | .error e => { result := .negSucc e }

/-- libuv over the file. -/
def File.uv (f : File) : Uv FileState where
  fs
    | .open _ _ _, w =>
      match f.opened with
      | .ok fd => ({ result := fd }, { w with descriptors := w.descriptors + 1 })
      | .error e => ({ result := .negSucc e }, w)
    | .fstat _, w =>
      match f.fstat with
      | .ok stat => ({ result := 0, stat }, w)
      | .error e => ({ result := .negSucc e }, w)
    | .read _ len offset, w =>
      let r := f.reply w.requests.length
      (readAnswer r,
        { w with requests := w.requests ++ [(len, offset)], given := w.given ++ bytesOf r })
    | .close _, w => ({ result := 0 }, { w with descriptors := w.descriptors - 1 })
    | _, w => ({ result := -38 }, w)
  strerror _ := "system error"

/-! ### Rounds -/

namespace File

section
variable (f : File) (len d : Nat)

/-- The bytes before the `n`-th round are this many. -/
def pos (n : Nat) : Nat := (bytesRead f.reply n).length

/-- The state outside the program before the `n`-th round. -/
def after (n : Nat) : FileState where
  descriptors := d
  requests := (List.range n).map fun i => (askLen len (f.pos i), (f.pos i : Int))
  given := bytesRead f.reply n

/-- The `n`-th round reads on. -/
def ReadsOn (n : Nat) : Prop :=
  ∃ b, f.reply n = .ok b ∧ if len = 0 then b ≠ [] else f.pos (n + 1) < len

/-- What a loop ends with in the `n`-th round. -/
def readResult (n : Nat) : Except Thrown (List UInt8) × FileState :=
  (match f.reply n with
    | .ok _ => .ok (bytesRead f.reply (n + 1))
    | .error e => .error (.error ⟨.negSucc e, ""⟩),
  f.after len d (n + 1))

variable {f len d}

/-- A reply moves the position on by its length. -/
theorem pos_succ {n : Nat} {b : List UInt8} (h : f.reply n = .ok b) :
    f.pos (n + 1) = f.pos n + b.length := by
  rw [pos, bytesRead, h, bytesOf, List.length_append, pos]

/-- What libuv does in the `n`-th round. -/
theorem fs_read (fd : Int) (n : Nat) :
    f.uv.fs (.read fd (askLen len (f.pos n)) (f.pos n)) (f.after len d n) =
      (readAnswer (f.reply n), f.after len d (n + 1)) := by
  have hcount : (f.after len d n).requests.length = n := by
    rw [after, List.length_map, List.length_range]
  rw [uv]
  dsimp only
  rw [hcount]
  simp only [after, List.range_succ, List.map_append, List.map_cons, List.map_nil, bytesRead]

/-- A read in the `n`-th round that gives bytes. -/
theorem exec_readAt (fd : Int) (buf : List UInt8) {n k : Nat} {b : List UInt8}
    (h : f.reply n = .ok b) (hk : uvBufLen k = askLen len (f.pos n)) :
    (readAt f.uv fd buf (f.pos n) k).exec (f.after len d n) =
      some (.ok (b.length, overwrite buf (f.pos n) b), f.after len d (n + 1)) := by
  have hres : ¬ ((b.length : Nat) : Int) < 0 := Int.not_lt.2 (Int.natCast_nonneg _)
  rw [readAt, exec_bind, exec_call, hk, fs_read, h, readAnswer]
  simp only [if_neg hres, Int.toNat_natCast]
  rfl

/-- A read in the `n`-th round that fails. -/
theorem exec_readAt_error (fd : Int) (buf : List UInt8) {n k e : Nat}
    (h : f.reply n = .error e) (hk : uvBufLen k = askLen len (f.pos n)) :
    (readAt f.uv fd buf (f.pos n) k).exec (f.after len d n) =
      some (.error (.error ⟨.negSucc e, ""⟩), f.after len d (n + 1)) := by
  rw [readAt, exec_bind, exec_call, hk, fs_read, h, readAnswer]
  simp only [if_pos (Int.negSucc_lt_zero e)]
  rfl

/-! ### The file of a known length -/

/-- The bytes stay within the length. -/
theorem pos_le {s : Stats} (hs : f.fstat = .ok s) (hlen : s.fileLen ≠ 0) (n : Nat) :
    f.pos n ≤ s.fileLen := by
  induction n with
  | zero => exact Nat.zero_le _
  | succ n ih =>
    rcases h : f.reply n with e | b
    · rw [pos, bytesRead, h, bytesOf, List.append_nil]
      exact ih
    · have hfit := f.fits s hs n b h
      have hask := uvBufLen_le (s.fileLen - f.pos n)
      rw [askLen, if_neg hlen] at hfit
      rw [pos_succ h]
      change b.length ≤ uvBufLen (s.fileLen - f.pos n) at hfit
      omega

/-- The buffer before the `n`-th round: the bytes so far, and zeros up to the length. -/
def known (f : File) (len d n : Nat) : List UInt8 × Nat × FileState :=
  (bytesRead f.reply n ++ List.replicate (len - f.pos n) 0, f.pos n, f.after len d n)

/-- The rounds of the loop for a file of a known length. Source: `fs.cpp:416-425`. -/
theorem rounds_readKnown {s : Stats} (hlen : s.fileLen ≠ 0) (fd : Int) (d : Nat) :
    Rounds (fun fuel x => (readKnown f.uv fd s.fileLen fuel x.1 x.2.1).exec x.2.2)
      (f.known s.fileLen d) (f.ReadsOn s.fileLen) (f.readResult s.fileLen d) := by
  have hask (n : Nat) : uvBufLen (s.fileLen - f.pos n) = askLen s.fileLen (f.pos n) := by
    rw [askLen, if_neg hlen]
  have hround (n fuel : Nat) (b : List UInt8) (h : f.reply n = .ok b) :
      (readKnown f.uv fd s.fileLen (fuel + 1) (f.known s.fileLen d n).1 (f.pos n)).exec
          (f.after s.fileLen d n) =
        if f.pos (n + 1) < s.fileLen then
          (readKnown f.uv fd s.fileLen fuel (f.known s.fileLen d (n + 1)).1 (f.pos (n + 1))).exec
            (f.after s.fileLen d (n + 1))
        else some (.ok (f.known s.fileLen d (n + 1)).1, f.after s.fileLen d (n + 1)) := by
    have hbuf : overwrite (f.known s.fileLen d n).1 (f.pos n) b = (f.known s.fileLen d (n + 1)).1 := by
      rw [known, pos, overwrite_append, known, bytesRead, h, bytesOf, pos_succ h, Nat.sub_sub]
      rfl
    rw [readKnown, exec_bind, exec_readAt fd _ h (hask n), hbuf, pos_succ h]
    dsimp only
    split <;> rfl
  refine ⟨fun _ => rfl, fun n fuel hgoes => ?_, fun n fuel hends => ?_⟩
  · obtain ⟨b, h, hlt⟩ := hgoes
    rw [if_neg hlen] at hlt
    exact (hround n fuel b h).trans (if_pos hlt)
  · rcases h : f.reply n with e | b
    · rw [readResult, h]
      change (readKnown f.uv fd s.fileLen (fuel + 1) _ (f.pos n)).exec (f.after s.fileLen d n) = _
      rw [readKnown, exec_bind, exec_readAt_error fd _ h (hask n)]
    · have hge : ¬ f.pos (n + 1) < s.fileLen := fun hlt => hends ⟨b, h, by rwa [if_neg hlen]⟩
      have hfull : s.fileLen - f.pos (n + 1) = 0 := Nat.sub_eq_zero_of_le (Nat.not_lt.1 hge)
      rw [readResult, h]
      refine (hround n fuel b h).trans ?_
      rw [if_neg hge, known, hfull, List.replicate_zero, List.append_nil]

/-! ### The file of an unknown length -/

/-- The variables before the `n`-th round: no part of the buffer is unused. -/
def head (f : File) (n : Nat) : Grow := ⟨bytesRead f.reply n, f.pos n, f.pos n⟩

/-- Before the next block the buffer is longer by the size of one. -/
theorem extend_head (n : Nat) : (f.head n).extend =
    ⟨bytesRead f.reply n ++ List.replicate kBlockSize 0, f.pos n + kBlockSize, f.pos n⟩ := by
  have hle : (bytesRead f.reply n).length ≤ f.pos n + kBlockSize := Nat.le_add_right _ _
  rw [head, Grow.extend]
  dsimp only
  rw [resize_of_le hle, ← pos, Nat.add_sub_cancel_left]

/-- The part of the extension that a short read leaves unused is taken off again. -/
theorem shrink_extend {n : Nat} {b : List UInt8} (h : f.reply n = .ok b)
    (hle : b.length ≤ kBlockSize) :
    Grow.shrink ⟨bytesRead f.reply n ++ b ++ List.replicate (kBlockSize - b.length) 0,
        f.pos n + kBlockSize, f.pos n⟩ b.length =
      ⟨bytesRead f.reply (n + 1), f.pos (n + 1), f.pos n⟩ := by
  have hlen : f.pos n + kBlockSize - (kBlockSize - b.length) = f.pos (n + 1) := by
    rw [pos_succ h]
    omega
  have hread : bytesRead f.reply (n + 1) = bytesRead f.reply n ++ b := by rw [bytesRead, h, bytesOf]
  rw [Grow.shrink]
  dsimp only
  rw [hlen, pos, hread, resize_append]

/-- One round of the loop that reads a block. Source: `fs.cpp:429-450`. -/
theorem exec_readBlocks (fd : Int) (d fuel : Nat) {n : Nat} {b : List UInt8}
    (h : f.reply n = .ok b) (hle : b.length ≤ kBlockSize) :
    (readBlocks f.uv fd (fuel + 1) (f.head n)).exec (f.after 0 d n) =
      if b = [] then some (.ok (bytesRead f.reply (n + 1)), f.after 0 d (n + 1))
      else (readBlocks f.uv fd fuel (f.head (n + 1))).exec (f.after 0 d (n + 1)) := by
  have hk : uvBufLen kBlockSize = askLen 0 (f.pos n) := by
    rw [askLen, if_pos rfl]
    rfl
  have hpos : 0 < kBlockSize := by decide
  rw [readBlocks, extend_head]
  dsimp only
  rw [Nat.add_sub_cancel_left, exec_bind, exec_readAt fd _ h hk]
  dsimp only
  rw [show f.pos n = (bytesRead f.reply n).length from rfl, overwrite_append, ← pos]
  rcases Nat.lt_or_eq_of_le hle with hlt | heq
  · rw [if_pos hlt, shrink_extend h hle]
    dsimp only
    by_cases hnil : b = []
    · rw [if_pos hnil, if_pos (by rw [hnil, List.length_nil]), exec_pure]
    · rw [if_neg hnil, if_neg (fun hz => hnil (List.length_eq_zero_iff.1 hz)), head, pos_succ h]
  · have hnil : b ≠ [] := by
      rintro rfl
      rw [List.length_nil] at heq
      omega
    have hread : bytesRead f.reply (n + 1) = bytesRead f.reply n ++ b := by
      rw [bytesRead, h, bytesOf]
    rw [if_neg (by omega), if_neg hnil, head, hread, pos_succ h, heq, Nat.sub_self,
      List.replicate_zero, List.append_nil]

/-- The rounds of the loop for a file of an unknown length. Source: `fs.cpp:429-450`. -/
theorem rounds_readBlocks {s : Stats} (hs : f.fstat = .ok s) (hlen : s.fileLen = 0) (fd : Int)
    (d : Nat) :
    Rounds (fun fuel (x : Grow × FileState) => (readBlocks f.uv fd fuel x.1).exec x.2)
      (fun n => (f.head n, f.after 0 d n)) (f.ReadsOn 0) (f.readResult 0 d) := by
  have hle {n : Nat} {b : List UInt8} (h : f.reply n = .ok b) : b.length ≤ kBlockSize := by
    have hfit := f.fits s hs n b h
    rwa [hlen, askLen, if_pos rfl] at hfit
  refine ⟨fun _ => rfl, fun n fuel hgoes => ?_, fun n fuel hends => ?_⟩
  · obtain ⟨b, h, hnil⟩ := hgoes
    rw [if_pos rfl] at hnil
    exact (exec_readBlocks fd d fuel h (hle h)).trans (if_neg hnil)
  · rcases h : f.reply n with e | b
    · have hk : uvBufLen kBlockSize = askLen 0 (f.pos n) := by
        rw [askLen, if_pos rfl]
        rfl
      rw [readResult, h]
      dsimp only
      rw [readBlocks, extend_head]
      dsimp only
      rw [Nat.add_sub_cancel_left, exec_bind, exec_readAt_error fd _ h hk]
    · have hnil : b = [] := by
        by_contra hne
        exact hends ⟨b, h, by rwa [if_pos rfl]⟩
      rw [readResult, h]
      exact (exec_readBlocks fd d fuel h (hle h)).trans (if_pos hnil)

/-! ### The whole call -/

/-- What a call of `readFileSync` on a descriptor ends with. Source: `fs.cpp:401-456`. -/
theorem exec_readFileFdSync_iff {loops : LoopMap} {t : ThreadId} {l : LoopId}
    (hl : Loop.getInstance loops t = some l) {s : Stats} (hs : f.fstat = .ok s) (fd flags : Int)
    (d : Nat) (r : Except Thrown (List UInt8) × FileState) :
    (∃ fuel, (readFileFdSync f.uv loops t fuel fd flags).exec { descriptors := d } = some r) ↔
      ∃ n, Rounds.First (f.ReadsOn s.fileLen) n ∧ r = f.readResult s.fileLen d n := by
  have hfstat : f.uv.fs (.fstat fd) { descriptors := d } =
      ({ result := 0, stat := s }, { descriptors := d }) := by rw [uv]; dsimp only; rw [hs]
  have hrun (fuel : Nat) : (readFileFdSync f.uv loops t fuel fd flags).exec { descriptors := d } =
      if s.fileLen = 0 then (readBlocks f.uv fd fuel {}).exec { descriptors := d }
      else (readKnown f.uv fd s.fileLen fuel (resize [] s.fileLen) 0).exec { descriptors := d } := by
    rw [readFileFdSync, exec_bind, exec_getInstanceSafe hl]
    dsimp only
    rw [exec_bind, fstatSync, exec_bind, exec_uvFsCall f.uv hl hfstat (Int.le_refl 0)]
    dsimp only
    rw [exec_pure]
    dsimp only
    rw [← Stats.fileLen, ite_not]
    split <;> rfl
  simp only [hrun]
  by_cases hlen : s.fileLen = 0
  · rw [hlen]
    simp only [↓reduceIte]
    exact (rounds_readBlocks hs hlen fd d).ends_iff
  · have hstart : (resize [] s.fileLen, 0, { descriptors := d }) = f.known s.fileLen d 0 := by
      rw [resize_of_le (Nat.zero_le _)]
      rfl
    have hends := (rounds_readKnown (f := f) hlen fd d).ends_iff (r := r)
    rw [← hstart] at hends
    simpa only [if_neg hlen] using hends

end

end File

end NodeNative.Fs
