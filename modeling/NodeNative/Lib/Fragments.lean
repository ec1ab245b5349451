import Mathlib.Data.List.Basic

/-!
# Marked streams and their fragments

A stream of bytes is marked with what its reader makes of it: a byte may belong to a part whose
text the reader hands over (`part`), and notifications may be due before or after it. A reader that
gets a piece of the stream hands over each maximal run of one part in it as one `Event.data`
(`events`), so where the stream is cut decides how a part is fragmented. `foldlM_events_append` says
what does not depend on it: a consumer that appends the fragments of the parts that are cut comes to
the same state, also when the stream arrives in many pieces (`Pieces.foldlM_events`).
-/

namespace Fragments

/-- A byte of the stream, the part it belongs to, and the notifications due before and after it. -/
structure Mark (B P N : Type _) where
  before : List N
  byte : B
  part : Option P
  after : List N

/-- What the reader hands over: a run of a part, or a notification. -/
inductive Event (B P N : Type _)
  | data (p : P) (bytes : List B)
  | note (n : N)

section
variable {B P N : Type _} [DecidableEq P]

/-- A run of the part `p` goes on in this stream. -/
def continues (p : P) : List (Mark B P N) → Bool
  | [] => false
  | m :: _ => m.before.isEmpty && m.part == some p

/-- The part whose run is open at the end of this stream. -/
def openPart (ms : List (Mark B P N)) : Option P :=
  ms.getLast?.bind fun m => if m.after.isEmpty then m.part else none

/-- A byte in front of the run that the events begin with. -/
def prepend (p : P) (b : B) : List (Event B P N) → List (Event B P N)
  | .data _ d :: es => .data p (b :: d) :: es
  | es => .data p [b] :: es

/-- What a reader hands over when it gets this piece of the stream at once. -/
def events : List (Mark B P N) → List (Event B P N)
  | [] => []
  | m :: ms =>
    m.before.map .note ++
      match m.part with
      | none => m.after.map .note ++ events ms
      | some p =>
        if m.after.isEmpty && continues p ms then prepend p m.byte (events ms)
        else .data p [m.byte] :: (m.after.map .note ++ events ms)

@[simp] theorem events_nil : events ([] : List (Mark B P N)) = [] := rfl

/-- A stream in which the run of `p` goes on begins with a fragment of `p`. -/
theorem events_of_continues {p : P} {ms : List (Mark B P N)} (h : continues p ms = true) :
    ∃ d es, events ms = .data p d :: es := by
  cases ms with
  | nil => cases h
  | cons m ms =>
    simp only [continues, Bool.and_eq_true, List.isEmpty_iff, beq_iff_eq] at h
    obtain ⟨hb, hp⟩ := h
    simp only [events, hb, hp, List.map_nil, List.nil_append]
    split
    · cases events ms with
      | nil => exact ⟨_, _, rfl⟩
      | cons e es =>
        cases e with
        | data q d => exact ⟨_, _, rfl⟩
        | note n => exact ⟨_, _, rfl⟩
    · exact ⟨_, _, rfl⟩

/-- What follows a non-empty stream does not decide how the run before it goes on. -/
theorem continues_append {p : P} {ms : List (Mark B P N)} (hne : ms ≠ []) (ms' : List (Mark B P N)) :
    continues p (ms ++ ms') = continues p ms := by
  cases ms with
  | nil => exact absurd rfl hne
  | cons m ms => rfl

omit [DecidableEq P] in
/-- The open part of a stream with another mark in front. -/
theorem openPart_cons {m : Mark B P N} {ms : List (Mark B P N)} (hne : ms ≠ []) :
    openPart (m :: ms) = openPart ms := by
  obtain ⟨x, xs, rfl⟩ := List.exists_cons_of_ne_nil hne
  simp only [openPart, List.getLast?_cons_cons]

/-- The events of a stream that is cut where no run goes on. -/
theorem events_append_of_closed {a b : List (Mark B P N)}
    (h : ∀ p, openPart a = some p → continues p b = false) :
    events (a ++ b) = events a ++ events b := by
  induction a with
  | nil => rfl
  | cons m a ih =>
    by_cases ha : a = []
    · subst ha
      simp only [List.cons_append, List.nil_append, events, List.append_nil, List.append_assoc]
      cases hp : m.part with
      | none => simp
      | some p =>
        have hb : (m.after.isEmpty && continues p b) = false := by
          cases haft : m.after.isEmpty with
          | false => rfl
          | true => simpa using h p (by simp [openPart, List.isEmpty_iff.1 haft, hp])
        have hnil : (m.after.isEmpty && continues p ([] : List (Mark B P N))) = false := by
          simp [continues]
        simp only [hb, hnil, Bool.false_eq_true, if_false, List.cons_append]
    · have ih' := ih fun p hp => h p (by rw [openPart_cons ha]; exact hp)
      simp only [List.cons_append, events, ih', List.append_assoc]
      cases hp : m.part with
      | none => simp
      | some p =>
        simp only [continues_append ha]
        split
        · rename_i hc
          obtain ⟨d, es, he⟩ := events_of_continues (Bool.and_eq_true_iff.1 hc).2
          simp [he, prepend]
        · simp

/-- The events of a stream that is cut inside a run: the run falls apart in two fragments. -/
theorem events_append_of_open {a b : List (Mark B P N)} {p : P} (ho : openPart a = some p)
    (hc : continues p b = true) :
    ∃ pre d₁ d₂ post, events a = pre ++ [.data p d₁] ∧ events b = .data p d₂ :: post ∧
      events (a ++ b) = pre ++ .data p (d₁ ++ d₂) :: post := by
  induction a with
  | nil => simp [openPart] at ho
  | cons m a ih =>
    by_cases ha : a = []
    · subst ha
      obtain ⟨d₂, post, hb⟩ := events_of_continues hc
      have hm : m.after.isEmpty = true ∧ m.part = some p := by
        simpa [openPart] using ho
      refine ⟨m.before.map .note, [m.byte], d₂, post, ?_, hb, ?_⟩
      · simp [events, hm.2, continues, List.isEmpty_iff.1 hm.1]
      · simp [events, hm.2, hm.1, hc, hb, prepend]
    · rw [openPart_cons ha] at ho
      obtain ⟨pre, d₁, d₂, post, h1, h2, h3⟩ := ih ho
      simp only [List.cons_append, events, h1, h3]
      cases hp : m.part with
      | none =>
        refine ⟨m.before.map .note ++ (m.after.map .note ++ pre), d₁, d₂, post, ?_, h2, ?_⟩
        · simp
        · simp
      | some q =>
        simp only [continues_append ha]
        by_cases hcont : (m.after.isEmpty && continues q a) = true
        · rw [if_pos hcont, if_pos hcont]
          obtain ⟨d, es, he⟩ := events_of_continues (Bool.and_eq_true_iff.1 hcont).2
          cases pre with
          | nil =>
            -- the run in front of `a` is the one that is cut
            rw [h1] at he
            obtain ⟨hq, -⟩ := List.cons.inj he
            cases hq
            exact ⟨m.before.map .note, m.byte :: d₁, d₂, post, rfl, h2, rfl⟩
          | cons e pre =>
            rw [h1] at he
            obtain ⟨he, -⟩ := List.cons.inj he
            subst he
            refine ⟨m.before.map .note ++ .data q (m.byte :: d) :: pre, d₁, d₂, post, ?_, h2, ?_⟩
            · simp [prepend]
            · simp [prepend]
        · rw [if_neg hcont, if_neg hcont]
          refine ⟨m.before.map .note ++ .data q [m.byte] :: (m.after.map .note ++ pre), d₁, d₂, post,
            ?_, h2, ?_⟩
          · simp
          · simp

/-- A consumer that takes a part in two fragments as it takes it whole, for every part that the cut
falls apart, does not see the cut. -/
theorem foldlM_events_append {M : Type _ → Type _} [Monad M] [LawfulMonad M] {S : Type _}
    {f : S → Event B P N → M S} {a b : List (Mark B P N)}
    (hf : ∀ p, openPart a = some p → continues p b = true →
      ∀ s d₁ d₂, f s (.data p (d₁ ++ d₂)) = f s (.data p d₁) >>= (f · (.data p d₂))) (s : S) :
    (events (a ++ b)).foldlM f s = (events a).foldlM f s >>= (events b).foldlM f := by
  by_cases h : ∀ p, openPart a = some p → continues p b = false
  · rw [events_append_of_closed h, List.foldlM_append]
  · simp only [not_forall, Bool.not_eq_false, exists_prop] at h
    obtain ⟨p, ho, hc⟩ := h
    obtain ⟨pre, d₁, d₂, post, h1, h2, h3⟩ := events_append_of_open ho hc
    simp [h1, h2, h3, hf p ho hc]

/-- A notification that the reader gives is due at one of the marks. -/
theorem exists_mark_of_note {n : N} {ms : List (Mark B P N)} (h : .note n ∈ events ms) :
    ∃ m ∈ ms, n ∈ m.before ∨ n ∈ m.after := by
  induction ms with
  | nil => cases h
  | cons m ms ih =>
    have hprep : ∀ p es, (.note n : Event B P N) ∈ prepend p m.byte es → .note n ∈ es := by
      intro p es hmem
      cases es with
      | nil => simp [prepend] at hmem
      | cons e es => cases e <;> simp_all [prepend]
    have hrest : .note n ∈ events ms → ∃ m' ∈ m :: ms, n ∈ m'.before ∨ n ∈ m'.after := by
      intro hmem
      obtain ⟨m', hm', hn⟩ := ih hmem
      exact ⟨m', .tail _ hm', hn⟩
    simp only [events, List.mem_append, List.mem_map, Event.note.injEq, exists_eq_right] at h
    rcases h with hb | h
    · exact ⟨m, .head _, .inl hb⟩
    · split at h
      · rcases List.mem_append.1 h with ha | h
        · exact ⟨m, .head _, .inr (by simpa using ha)⟩
        · exact hrest h
      · split at h
        · exact hrest (hprep _ _ h)
        · rcases List.mem_cons.1 h with h | h
          · cases h
          · rcases List.mem_append.1 h with ha | h
            · exact ⟨m, .head _, .inr (by simpa using ha)⟩
            · exact hrest h

/-- Every notification that is due is given. -/
theorem note_mem_events {n : N} {ms : List (Mark B P N)} {m : Mark B P N} (hm : m ∈ ms)
    (hn : n ∈ m.before ∨ n ∈ m.after) : .note n ∈ events ms := by
  have hprep : ∀ p b {es : List (Event B P N)}, .note n ∈ es → .note n ∈ prepend p b es := by
    intro p b es hmem
    cases es with
    | nil => cases hmem
    | cons e es => cases e <;> simp_all [prepend]
  induction ms with
  | nil => cases hm
  | cons m' ms ih =>
    rw [events]
    rcases List.mem_cons.1 hm with rfl | hm
    · rcases hn with hn | hn
      · exact List.mem_append_left _ (List.mem_map_of_mem hn)
      · have hafter : (.note n : Event B P N) ∈ m.after.map .note ++ events ms :=
          List.mem_append_left _ (List.mem_map_of_mem hn)
        refine List.mem_append_right _ ?_
        split
        · exact hafter
        · rw [if_neg fun hrun => ?_]
          · exact .tail _ hafter
          · rw [List.isEmpty_iff.1 (Bool.and_eq_true_iff.1 hrun).1] at hn
            cases hn
    · have hrest := ih hm
      refine List.mem_append_right _ ?_
      split
      · exact List.mem_append_right _ hrest
      · split
        · exact hprep _ _ hrest
        · exact .tail _ (List.mem_append_right _ hrest)

/-- A fragment that the reader hands over is of a part that one of the marks has. -/
theorem exists_mark_of_data {p : P} {d : List B} {ms : List (Mark B P N)}
    (h : .data p d ∈ events ms) : ∃ m ∈ ms, m.part = some p := by
  induction ms generalizing d with
  | nil => cases h
  | cons m ms ih =>
    have hrest : ∀ {d'}, .data p d' ∈ events ms → ∃ m' ∈ m :: ms, m'.part = some p := by
      intro d' hmem
      obtain ⟨m', hm', hp⟩ := ih hmem
      exact ⟨m', .tail _ hm', hp⟩
    simp only [events, List.mem_append, List.mem_map, reduceCtorEq, and_false, exists_false,
      false_or] at h
    split at h
    · rcases List.mem_append.1 h with ha | h
      · simp at ha
      · exact hrest h
    · rename_i q hq
      split at h
      · rename_i hc
        obtain ⟨d', es, he⟩ := events_of_continues (Bool.and_eq_true_iff.1 hc).2
        rw [he, prepend] at h
        rcases List.mem_cons.1 h with h | h
        · cases h
          exact ⟨m, .head _, hq⟩
        · exact hrest (by rw [he]; exact .tail _ h)
      · rcases List.mem_cons.1 h with h | h
        · cases h
          exact ⟨m, .head _, hq⟩
        · rcases List.mem_append.1 h with ha | h
          · simp at ha
          · exact hrest h

end

/-! ### Building streams -/

section
variable {B P N : Type _}

/-- Bytes that belong to no part. -/
def plain (bs : List B) : List (Mark B P N) := bs.map fun b => ⟨[], b, none, []⟩

/-- The bytes of one part. -/
def text (p : P) (bs : List B) : List (Mark B P N) := bs.map fun b => ⟨[], b, some p, []⟩

/-- Notifications before the first byte. -/
def addBefore (ns : List N) : List (Mark B P N) → List (Mark B P N)
  | [] => []
  | m :: ms => { m with before := ns ++ m.before } :: ms

/-- Notifications after the last byte. -/
def addAfter (ns : List N) : List (Mark B P N) → List (Mark B P N)
  | [] => []
  | [m] => [{ m with after := m.after ++ ns }]
  | m :: m' :: ms => m :: addAfter ns (m' :: ms)

/-- Notes in front of bytes in a row are in front of the first of them, -/
theorem addBefore_append (ns : List N) {a : List (Mark B P N)} (hne : a ≠ [])
    (b : List (Mark B P N)) : addBefore ns (a ++ b) = addBefore ns a ++ b := by
  obtain ⟨m, a, rfl⟩ := List.exists_cons_of_ne_nil hne
  rfl

/-- and notes behind them are behind the last. -/
theorem addAfter_concat (ns : List N) (ms : List (Mark B P N)) (m : Mark B P N) :
    addAfter ns (ms ++ [m]) = ms ++ [{ m with after := m.after ++ ns }] := by
  induction ms with
  | nil => rfl
  | cons m' ms ih =>
    obtain ⟨x, xs, hx⟩ := List.exists_cons_of_ne_nil (l := ms ++ [m]) (by simp)
    rw [List.cons_append, hx, addAfter, ← hx, ih, List.cons_append]

/-- The bytes of a marked stream. -/
def bytes (ms : List (Mark B P N)) : List B := ms.map Mark.byte

@[simp] theorem bytes_append (a b : List (Mark B P N)) : bytes (a ++ b) = bytes a ++ bytes b :=
  List.map_append

@[simp] theorem length_bytes (ms : List (Mark B P N)) : (bytes ms).length = ms.length :=
  List.length_map _

@[simp] theorem length_plain (bs : List B) : (plain bs : List (Mark B P N)).length = bs.length :=
  List.length_map _

@[simp] theorem length_text (p : P) (bs : List B) :
    (text p bs : List (Mark B P N)).length = bs.length :=
  List.length_map _

@[simp] theorem length_addBefore (ns : List N) (ms : List (Mark B P N)) :
    (addBefore ns ms).length = ms.length := by
  cases ms <;> rfl

@[simp] theorem length_addAfter (ns : List N) (ms : List (Mark B P N)) :
    (addAfter ns ms).length = ms.length := by
  fun_induction addAfter ns ms <;> simp_all

@[simp] theorem bytes_plain (bs : List B) : bytes (plain bs : List (Mark B P N)) = bs :=
  (List.map_map ..).trans (List.map_id bs)

@[simp] theorem bytes_text (p : P) (bs : List B) : bytes (text p bs : List (Mark B P N)) = bs :=
  (List.map_map ..).trans (List.map_id bs)

@[simp] theorem bytes_addBefore (ns : List N) (ms : List (Mark B P N)) :
    bytes (addBefore ns ms) = bytes ms := by
  cases ms <;> rfl

@[simp] theorem bytes_addAfter (ns : List N) (ms : List (Mark B P N)) :
    bytes (addAfter ns ms) = bytes ms := by
  fun_induction addAfter ns ms <;> simp_all [bytes]

/-- A stream that ends with text of a part leaves its run open. -/
theorem openPart_append_text {p : P} {bs : List B} (hne : bs ≠ []) (ms : List (Mark B P N)) :
    openPart (ms ++ text p bs) = some p := by
  have hlast : (text p bs : List (Mark B P N)).getLast? = some ⟨[], bs.getLast hne, some p, []⟩ := by
    rw [text, List.getLast?_map, List.getLast?_eq_some_getLast hne]
    rfl
  rw [openPart, List.getLast?_append, hlast]
  rfl

variable [DecidableEq P]

/-- A stream that begins with text of a part goes on with its run. -/
theorem continues_text_append {p : P} {bs : List B} (hne : bs ≠ []) (ms : List (Mark B P N)) :
    continues p (text p bs ++ ms) = true := by
  obtain ⟨b, bs, rfl⟩ := List.exists_cons_of_ne_nil hne
  simp [text, continues]

@[simp] theorem events_plain_append (bs : List B) (ms : List (Mark B P N)) :
    events (plain bs ++ ms) = events ms := by
  induction bs with
  | nil => rfl
  | cons b bs ih => simpa [plain, events] using ih

/-- Notifications before the first byte come first. -/
theorem events_addBefore (ns : List N) {ms : List (Mark B P N)} (hne : ms ≠ []) :
    events (addBefore ns ms) = ns.map .note ++ events ms := by
  obtain ⟨m, ms, rfl⟩ := List.exists_cons_of_ne_nil hne
  simp [addBefore, events]

/-- The whole text of a part is handed over at once when it is followed by something else. -/
theorem events_text_append {p : P} {bs : List B} (hne : bs ≠ []) {ms : List (Mark B P N)}
    (hms : continues p ms = false) : events (text p bs ++ ms) = .data p bs :: events ms := by
  induction bs with
  | nil => exact absurd rfl hne
  | cons b bs ih =>
    cases bs with
    | nil => simp [text, events, hms]
    | cons b' bs =>
      have ih' := ih (by simp)
      simp only [text, List.map_cons, List.cons_append] at ih' ⊢
      rw [events]
      simp [ih', continues, prepend]

/-- The whole text of a part with notifications at its end. -/
theorem events_addAfter_text_append {p : P} {bs : List B} (hne : bs ≠ []) {ns : List N}
    (hns : ns ≠ []) (ms : List (Mark B P N)) :
    events (addAfter ns (text p bs) ++ ms) = .data p bs :: (ns.map .note ++ events ms) := by
  induction bs with
  | nil => exact absurd rfl hne
  | cons b bs ih =>
    cases bs with
    | nil => simp [text, addAfter, events, hns]
    | cons b' bs =>
      have ih' := ih (by simp)
      have hcont : continues p (addAfter ns (text p (b' :: bs)) ++ ms) = true := by
        cases bs <;> simp [text, addAfter, continues]
      simp only [text, List.map_cons, addAfter, List.cons_append] at ih' hcont ⊢
      rw [events]
      simp [ih', hcont, prepend]

/-- Plain bytes with notifications at their end. -/
theorem events_addAfter_plain_append {bs : List B} (hne : bs ≠ []) (ns : List N)
    (ms : List (Mark B P N)) :
    events (addAfter ns (plain bs) ++ ms) = ns.map .note ++ events ms := by
  induction bs with
  | nil => exact absurd rfl hne
  | cons b bs ih =>
    cases bs with
    | nil => simp [plain, addAfter, events]
    | cons b' bs =>
      have ih' := ih (by simp)
      simpa [plain, addAfter, events] using ih'

end

/-! ### Other names for the parts -/

section
variable {B P Q N : Type _}

def Mark.mapPart (f : P → Q) (m : Mark B P N) : Mark B Q N := ⟨m.before, m.byte, m.part.map f, m.after⟩

def Event.mapPart (f : P → Q) : Event B P N → Event B Q N
  | .data p bytes => .data (f p) bytes
  | .note n => .note n

@[simp] theorem bytes_mapPart (f : P → Q) (ms : List (Mark B P N)) :
    bytes (ms.map (Mark.mapPart f)) = bytes ms :=
  List.map_map ..

variable [DecidableEq P] [DecidableEq Q] {f : P → Q}

/-- A part under another name goes on where it did. -/
theorem continues_mapPart (hf : Function.Injective f) (p : P) (ms : List (Mark B P N)) :
    continues (f p) (ms.map (Mark.mapPart f)) = continues p ms := by
  cases ms with
  | nil => rfl
  | cons m ms =>
    have hpart : (m.part.map f == some (f p)) = (m.part == some p) := by
      cases m.part with
      | none => rfl
      | some q => simp [hf.eq_iff]
    show (m.before.isEmpty && (m.part.map f == some (f p))) = _
    rw [hpart]
    rfl

/-- The names of the parts do not decide how the stream falls apart. -/
theorem events_mapPart (hf : Function.Injective f) (ms : List (Mark B P N)) :
    events (ms.map (Mark.mapPart f)) = (events ms).map (Event.mapPart f) := by
  induction ms with
  | nil => rfl
  | cons m ms ih =>
    obtain ⟨before, byte, part, after⟩ := m
    have hnotes : ∀ ns : List N, (ns.map .note : List (Event B P N)).map (Event.mapPart f) =
        ns.map .note := fun ns => List.map_map ..
    have hprepend : ∀ (p : P) (es : List (Event B P N)),
        prepend (f p) byte (es.map (Event.mapPart f)) = (prepend p byte es).map (Event.mapPart f) := by
      intro p es
      cases es with
      | nil => rfl
      | cons e es => cases e <;> rfl
    rw [List.map_cons, Mark.mapPart, events, events, List.map_append, hnotes]
    cases part with
    | none => rw [Option.map_none, List.map_append, hnotes, ih]
    | some p =>
      rw [Option.map_some]
      dsimp only
      rw [continues_mapPart hf, ih]
      by_cases hrun : (after.isEmpty && continues p ms) = true
      · rw [if_pos hrun, if_pos hrun, hprepend]
      · rw [if_neg hrun, if_neg hrun, List.map_cons, List.map_append, hnotes]
        rfl

end

/-! ### Arriving in pieces -/

section
variable {B P N : Type _} [DecidableEq P]

/-- The stream arrives in these pieces: none is empty, and where one ends inside a part, the fragments
of that part are appended. -/
structure Pieces (appended : P → Prop) (ms : List (Mark B P N)) (bufs : List (List B)) : Prop where
  ne_nil : ∀ buf ∈ bufs, buf ≠ []
  flatten : bufs.flatten = bytes ms
  cut : ∀ pre post, bufs = pre ++ post → ∀ p, openPart (ms.take pre.flatten.length) = some p →
    continues p (ms.drop pre.flatten.length) = true → appended p

variable {appended : P → Prop} {ms : List (Mark B P N)} {bufs pre post : List (List B)} {buf : List B}

/-- The pieces in front of another one with it. -/
theorem Pieces.delivered (h : Pieces appended ms (pre ++ buf :: post)) :
    pre.flatten ++ buf <+: bytes ms := by
  rw [← h.flatten]
  exact ⟨post.flatten, by simp⟩

/-- Some pieces are no longer than the whole. -/
theorem Pieces.length_le (h : Pieces appended ms (pre ++ buf :: post)) :
    pre.flatten.length + buf.length ≤ ms.length := by
  simpa using h.delivered.length_le

/-- The last piece ends the stream, the others do not. -/
theorem Pieces.length_eq_iff (h : Pieces appended ms (pre ++ buf :: post)) :
    pre.flatten.length + buf.length = ms.length ↔ post = [] := by
  have hlength := congrArg List.length h.flatten
  simp only [List.flatten_append, List.flatten_cons, List.length_append, length_bytes] at hlength
  constructor
  · intro heq
    cases post with
    | nil => rfl
    | cons buf' post =>
      have hpos := List.length_pos_iff.mpr (h.ne_nil buf' (by simp))
      rw [List.flatten_cons, List.length_append] at hlength
      omega
  · rintro rfl
    rw [List.flatten_nil, List.length_nil] at hlength
    omega

/-- A stream that arrives at once. -/
theorem Pieces.one (hne : ms ≠ []) : Pieces appended ms [bytes ms] where
  ne_nil := by simpa [bytes] using hne
  flatten := by simp
  cut := by
    intro pre post hsplit p hopen hcont
    rcases List.singleton_eq_append_iff.mp hsplit with ⟨rfl, -⟩ | ⟨rfl, -⟩
    · cases hopen
    · rw [List.flatten_singleton, length_bytes, List.drop_length] at hcont
      cases hcont

/-- What a consumer makes of the pieces so far, and of the others together. -/
theorem Pieces.foldlM_take_drop {M : Type _ → Type _} [Monad M] [LawfulMonad M] {S : Type _}
    {f : S → Event B P N → M S} (h : Pieces appended ms (pre ++ post))
    (hf : ∀ p, appended p → ∀ s d₁ d₂,
      f s (.data p (d₁ ++ d₂)) = f s (.data p d₁) >>= (f · (.data p d₂))) (s : S) :
    (events ms).foldlM f s = (events (ms.take pre.flatten.length)).foldlM f s >>=
      (events (ms.drop pre.flatten.length)).foldlM f := by
  have happend := foldlM_events_append
    (fun p hopen hcont => hf p (h.cut pre post rfl p hopen hcont)) s
  rw [List.take_append_drop] at happend
  exact happend

/-- What a consumer makes of the next piece. -/
theorem Pieces.foldlM_events {M : Type _ → Type _} [Monad M] [LawfulMonad M] {S : Type _}
    {f : S → Event B P N → M S} (h : Pieces appended ms (pre ++ buf :: post))
    (hf : ∀ p, appended p → ∀ s d₁ d₂,
      f s (.data p (d₁ ++ d₂)) = f s (.data p d₁) >>= (f · (.data p d₂))) (s : S) :
    (events (ms.take (pre.flatten.length + buf.length))).foldlM f s =
      (events (ms.take pre.flatten.length)).foldlM f s >>=
        (events ((ms.drop pre.flatten.length).take buf.length)).foldlM f := by
  rw [List.take_add]
  refine foldlM_events_append (fun p hopen hcont => hf p (h.cut pre _ rfl p hopen ?_)) s
  have hne : buf.length ≠ 0 := fun hzero =>
    h.ne_nil buf (by simp) (List.eq_nil_of_length_eq_zero hzero)
  obtain ⟨n, hn⟩ := Nat.exists_eq_succ_of_ne_zero hne
  rw [hn] at hcont
  cases hdrop : ms.drop pre.flatten.length with
  | nil =>
    rw [hdrop] at hcont
    cases hcont
  | cons m rest =>
    rw [hdrop] at hcont
    exact hcont

end

end Fragments
