import Mathlib.Data.List.Basic
import Mathlib.Tactic.NormNum

/-!
# Percent coding of URLs

`encodeUrl` keeps the alphanumeric and the allowed characters of a URL and writes every other byte
as `%HH`; `decodeUrl` reads that back. Both run over the first `n` bytes of their argument, where
`n` is an `unsigned int` that takes its size: of 2^32 bytes or more only the remainder is read.

`Canonical` is the form of what `encodeUrl` writes when it does not skip percent sequences. On texts
of that form the two loops are inverse to each other (`decodeLoop_escaped`, `escaped_decodeLoop`),
so `decodeUrl` reads an encoded text back as long as its size fits.
-/

namespace NodeNative.Http

/-- The content of a `std::string`, byte by byte. -/
abbrev Bytes := List UInt8

/-- The byte of a character literal. -/
def byte (c : Char) : UInt8 := c.toNat.toUInt8

/-- A property of all bytes, checked for one value after the other. -/
theorem forall_byte {P : UInt8 → Prop} (h : ∀ n < 256, P (UInt8.ofNat n)) (c : UInt8) : P c := by
  have hc := h c.toNat c.toNat_lt
  rwa [UInt8.ofNat_toNat] at hc

/-! ### The code -/

/-- Source: `http.cpp:9` `hexValue`. -/
def hexValue (c : UInt8) : Int :=
  if byte '0' ≤ c ∧ c ≤ byte '9' then c.toNat - (byte '0').toNat
  else if byte 'A' ≤ c ∧ c ≤ byte 'F' then c.toNat - (byte 'A').toNat + 10
  else if byte 'a' ≤ c ∧ c ≤ byte 'f' then c.toNat - (byte 'a').toNat + 10
  else -1

/-- Source: `http.cpp:25` `hexPairValue`. -/
def hexPairValue (c1 c2 : UInt8) : Int :=
  let v1 := hexValue c1
  let v2 := hexValue c2
  if v1 ≥ 0 ∧ v2 ≥ 0 then v1 * 16 + v2 else -1

/-- `std::isalnum` on ASCII. -/
def isalnum (c : UInt8) : Bool :=
  (byte '0' ≤ c && c ≤ byte '9') || (byte 'A' ≤ c && c ≤ byte 'Z') || (byte 'a' ≤ c && c ≤ byte 'z')

/-- The characters that `encodeUrl` keeps. Source: `http.cpp:54`. -/
def kept (allowedChars valueAllowedChars : Bytes) (c : UInt8) : Bool :=
  isalnum c || valueAllowedChars.contains c || allowedChars.contains c

/-- A number in a field of a stream with this width and fill character. -/
def setw (width : Nat) (fill : UInt8) (digits : Bytes) : Bytes :=
  List.replicate (width - digits.length) fill ++ digits

/-- What the stream writes for a byte under `std::hex` and `std::uppercase`. Source:
`http.cpp:66-68`. -/
def percentEncoded (c : UInt8) : Bytes :=
  byte '%' :: setw 2 (byte '0') ((Nat.toDigits 16 c.toNat).map fun d => byte d.toUpper)

/-- The bytes that a loop up to `unsigned int n = url.size()` reads. -/
def readable (url : Bytes) : Bytes := url.take (url.length % 2 ^ 32)

/-- The value that both loops find behind a percent sign at the end of 2^32 - 1 bytes: there `i + 2`
wraps to 0 and passes for an index below `n`. Everywhere else the two bytes behind `i` are there or
the test `i + 2 < n` fails. -/
def wrappedPair (url : Bytes) : Option Int :=
  if url.length % 2 ^ 32 = 2 ^ 32 - 1 then
    some (hexPairValue (url.getD (2 ^ 32 - 1) 0) (url.getD 0 0))
  else none

/-- The loop of `encodeUrl` over the bytes that are left, `none` when it starts over and does not
end. A percent sign that does not introduce a sequence is dropped when two bytes follow it. Source:
`http.cpp:51-71`. -/
def encodeLoop (skip : Bool) (wrapped : Option Int) (keep : UInt8 → Bool) : Bytes → Option Bytes
  | [] => some []
  | c :: rest =>
    if keep c then (c :: ·) <$> encodeLoop skip wrapped keep rest
    else if skip && c == byte '%' then
      match rest, wrapped with
      | h :: l :: rest', _ =>
        if hexPairValue h l ≥ 0 then (c :: h :: l :: ·) <$> encodeLoop skip wrapped keep rest'
        else encodeLoop skip wrapped keep (h :: l :: rest')
      | [], some value => if value ≥ 0 then none else some []
      | rest, _ => (percentEncoded c ++ ·) <$> encodeLoop skip wrapped keep rest
    else (percentEncoded c ++ ·) <$> encodeLoop skip wrapped keep rest

/-- The loop of `decodeUrl` over the bytes that are left, `none` when it starts over and does not
end. Source: `http.cpp:79-104`. -/
def decodeLoop (plus : Bool) (wrapped : Option Int) : Bytes → Option Bytes
  | [] => some []
  | c :: rest =>
    if c = byte '+' then ((if plus then byte ' ' else c) :: ·) <$> decodeLoop plus wrapped rest
    else if c = byte '%' then
      match rest, wrapped with
      | h :: l :: rest', _ =>
        if hexPairValue h l ≥ 0 then
          ((hexPairValue h l).toNat.toUInt8 :: ·) <$> decodeLoop plus wrapped rest'
        else (byte '?' :: ·) <$> decodeLoop plus wrapped (h :: l :: rest')
      | [], some value => if value ≥ 0 then none else some [byte '?']
      | rest, _ => (byte '?' :: ·) <$> decodeLoop plus wrapped rest
    else (c :: ·) <$> decodeLoop plus wrapped rest

/-- Source: `http.cpp:41` `encodeUrl`. -/
def encodeUrl (url : Bytes) (skipPercentSequence : Bool) (allowedChars valueAllowedChars : Bytes) :
    Option Bytes :=
  encodeLoop skipPercentSequence (wrappedPair url) (kept allowedChars valueAllowedChars)
    (readable url)

/-- Source: `http.cpp:75` `decodeUrl`. -/
def decodeUrl (url : Bytes) (spaceAsPlus : Bool) : Option Bytes :=
  decodeLoop spaceAsPlus (wrappedPair url) (readable url)

/-! ### Hex digits -/

/-- An upper-case hex digit. -/
def upperHex (c : UInt8) : Bool :=
  (byte '0' ≤ c && c ≤ byte '9') || (byte 'A' ≤ c && c ≤ byte 'F')

/-- The digit that the stream writes for a value below 16. -/
def hexDigit (d : Nat) : UInt8 := byte (Nat.digitChar d).toUpper

/-- The digit of a value has that value, -/
theorem hexValue_hexDigit : ∀ d < 16, hexValue (hexDigit d) = d := by decide

/-- and it is one that is written. -/
theorem upperHex_hexDigit : ∀ d < 16, upperHex (hexDigit d) = true := by decide

/-- The upper-case hex digits are the digits that the stream writes. -/
theorem upperHex_eq_hexDigit {c : UInt8} (hc : upperHex c = true) : ∃ d < 16, c = hexDigit d :=
  forall_byte (P := fun c => upperHex c = true → ∃ d < 16, c = hexDigit d) (by decide +kernel) c hc

/-- Two digits have the value of their byte. -/
theorem hexPairValue_hexDigit {d e : Nat} (hd : d < 16) (he : e < 16) :
    hexPairValue (hexDigit d) (hexDigit e) = ((16 * d + e : Nat) : Int) := by
  unfold hexPairValue
  rw [hexValue_hexDigit d hd, hexValue_hexDigit e he]
  rw [if_pos (by omega)]
  omega

/-- Every byte is written with two digits, the leading zero included. -/
theorem percentEncoded_eq (c : UInt8) :
    percentEncoded c = [byte '%', hexDigit (c.toNat / 16), hexDigit (c.toNat % 16)] :=
  forall_byte (P := fun c => percentEncoded c =
    [byte '%', hexDigit (c.toNat / 16), hexDigit (c.toNat % 16)]) (by decide +kernel) c

@[simp] theorem length_percentEncoded (c : UInt8) : (percentEncoded c).length = 3 := by
  rw [percentEncoded_eq]
  rfl

/-- The two digits of a byte denote it. -/
theorem hexPairValue_byte (c : UInt8) :
    hexPairValue (hexDigit (c.toNat / 16)) (hexDigit (c.toNat % 16)) = c.toNat := by
  have hc := c.toNat_lt
  rw [hexPairValue_hexDigit (by omega) (by omega)]
  omega

/-- A sequence of two upper-case digits is what the stream writes for the byte it denotes. -/
theorem percentEncoded_hexPairValue {h l : UInt8} (hh : upperHex h = true)
    (hl : upperHex l = true) :
    0 ≤ hexPairValue h l ∧
      percentEncoded (hexPairValue h l).toNat.toUInt8 = [byte '%', h, l] := by
  obtain ⟨d, hd, rfl⟩ := upperHex_eq_hexDigit hh
  obtain ⟨e, he, rfl⟩ := upperHex_eq_hexDigit hl
  rw [hexPairValue_hexDigit hd he]
  refine ⟨by omega, ?_⟩
  have hval : ((16 * d + e : Nat) : Int).toNat.toUInt8.toNat = 16 * d + e := by
    rw [Int.toNat_natCast]
    exact UInt8.toNat_ofNat_of_lt' (by show 16 * d + e < 256; omega)
  rw [percentEncoded_eq, hval]
  rw [show (16 * d + e) / 16 = d by omega, show (16 * d + e) % 16 = e by omega]

/-! ### Canonical texts -/

/-- A sequence of kept characters and of `%HH` with upper-case digits for a byte that is not
kept. -/
inductive Canonical (keep : UInt8 → Bool) : Bytes → Prop
  | nil : Canonical keep []
  | char {c : UInt8} {u : Bytes} (hc : keep c = true) (hu : Canonical keep u) :
      Canonical keep (c :: u)
  | percent {h l : UInt8} {u : Bytes} (hh : upperHex h = true) (hl : upperHex l = true)
      (hhl : keep (hexPairValue h l).toNat.toUInt8 = false) (hu : Canonical keep u) :
      Canonical keep (byte '%' :: h :: l :: u)

/-- The number of bytes that `encodeUrl` has to escape. -/
def escapes (keep : UInt8 → Bool) (s : Bytes) : Nat := s.countP fun c => !keep c

/-- What `encodeUrl` writes for a text when it skips no sequence. -/
def escaped (keep : UInt8 → Bool) (s : Bytes) : Bytes :=
  s.flatMap fun c => if keep c then [c] else percentEncoded c

section Loops

variable {keep : UInt8 → Bool}

/-- The escaped string byte by byte. -/
theorem escaped_cons (c : UInt8) (rest : Bytes) :
    escaped keep (c :: rest) = (if keep c then [c] else percentEncoded c) ++ escaped keep rest :=
  rfl

/-- Without skipping, the loop writes each byte on its own and always ends. -/
theorem encodeLoop_eq_escaped (wrapped : Option Int) (s : Bytes) :
    encodeLoop false wrapped keep s = some (escaped keep s) := by
  induction s with
  | nil => rfl
  | cons c rest ih =>
    unfold encodeLoop
    rw [ih, escaped_cons]
    cases keep c <;> simp

/-- Source: `http.cpp:51-71`. What is written is canonical. -/
theorem canonical_escaped (s : Bytes) : Canonical keep (escaped keep s) := by
  induction s with
  | nil => exact .nil
  | cons c rest ih =>
    rw [escaped_cons]
    cases hc : keep c with
    | true => exact .char hc ih
    | false =>
      have hlt := c.toNat_lt
      rw [percentEncoded_eq]
      refine .percent (upperHex_hexDigit _ (by omega)) (upperHex_hexDigit _ (by omega)) ?_ ih
      rw [hexPairValue_byte, Int.toNat_natCast]
      show keep (UInt8.ofNat c.toNat) = false
      rw [UInt8.ofNat_toNat]
      exact hc

/-- The size of what is written: an escaped byte takes two more. -/
theorem length_escaped (s : Bytes) :
    (escaped keep s).length = s.length + 2 * escapes keep s := by
  induction s with
  | nil => rfl
  | cons c rest ih =>
    rw [escaped_cons, List.length_append, ih]
    unfold escapes
    cases hc : keep c <;> simp [hc] <;> omega

/-- It is at most three times as long. -/
theorem length_escaped_le (s : Bytes) : (escaped keep s).length ≤ 3 * s.length := by
  have hle : escapes keep s ≤ s.length := List.countP_le_length
  rw [length_escaped]
  omega

variable (plus : Bool) (wrapped : Option Int)

/-- A byte that introduces nothing is read as itself. -/
theorem decodeLoop_char {c : UInt8} (hplus : c ≠ byte '+') (hpercent : c ≠ byte '%')
    (rest : Bytes) :
    decodeLoop plus wrapped (c :: rest) = (c :: ·) <$> decodeLoop plus wrapped rest := by
  match rest, wrapped with
  | [], none | [], some _ | [_], _ | _ :: _ :: _, _ => simp [decodeLoop, hplus, hpercent]

/-- A sequence is read as the byte it denotes. -/
theorem decodeLoop_percent {h l : UInt8} (hhl : 0 ≤ hexPairValue h l) (rest : Bytes) :
    decodeLoop plus wrapped (byte '%' :: h :: l :: rest)
      = ((hexPairValue h l).toNat.toUInt8 :: ·) <$> decodeLoop plus wrapped rest := by
  rw [decodeLoop, if_neg (by decide), if_pos rfl]
  exact if_pos hhl

/-- An encoded byte is decoded. -/
theorem decodeLoop_percentEncoded (c : UInt8) (rest : Bytes) :
    decodeLoop plus wrapped (percentEncoded c ++ rest)
      = (c :: ·) <$> decodeLoop plus wrapped rest := by
  rw [percentEncoded_eq]
  show decodeLoop plus wrapped (byte '%' :: _ :: _ :: rest) = _
  rw [decodeLoop_percent plus wrapped (by rw [hexPairValue_byte]; omega), hexPairValue_byte]
  show (UInt8.ofNat c.toNat :: ·) <$> _ = _
  rw [UInt8.ofNat_toNat]

/-- Each byte that is read yields at most one. -/
theorem length_decodeLoop_le {u r : Bytes} (hr : decodeLoop plus wrapped u = some r) :
    r.length ≤ u.length := by
  fun_induction decodeLoop plus wrapped u generalizing r <;> simp_all <;> grind

section

variable (hplus : keep (byte '+') = false) (hpercent : keep (byte '%') = false)
include hplus hpercent

/-- A kept character is neither of the two that the decoder treats apart. -/
theorem decodeLoop_kept {c : UInt8} (hc : keep c = true) (rest : Bytes) :
    decodeLoop plus wrapped (c :: rest) = (c :: ·) <$> decodeLoop plus wrapped rest := by
  apply decodeLoop_char
  · rintro rfl
    rw [hplus] at hc
    cases hc
  · rintro rfl
    rw [hpercent] at hc
    cases hc

/-- What was written for a byte is read as this byte, whatever follows. -/
theorem decodeLoop_escaped_cons (c : UInt8) (rest : Bytes) :
    decodeLoop plus wrapped ((if keep c then [c] else percentEncoded c) ++ rest)
      = (c :: ·) <$> decodeLoop plus wrapped rest := by
  cases hc : keep c with
  | true => exact decodeLoop_kept plus wrapped hplus hpercent hc rest
  | false => exact decodeLoop_percentEncoded plus wrapped c rest

/-- Reading back what was written. -/
theorem decodeLoop_escaped (s : Bytes) :
    decodeLoop plus wrapped (escaped keep s) = some s := by
  induction s with
  | nil => rfl
  | cons c rest ih =>
    rw [escaped_cons, decodeLoop_escaped_cons plus wrapped hplus hpercent, ih]
    rfl

/-- A canonical text is read, and writing what was read gives it back. -/
theorem escaped_decodeLoop {u : Bytes} (hu : Canonical keep u) :
    ∃ s, decodeLoop plus wrapped u = some s ∧ escaped keep s = u := by
  induction hu with
  | nil => exact ⟨[], rfl, rfl⟩
  | @char c u hc _ ih =>
    obtain ⟨s, hs, hu⟩ := ih
    refine ⟨c :: s, ?_, ?_⟩
    · rw [decodeLoop_kept plus wrapped hplus hpercent hc, hs]
      rfl
    · rw [escaped_cons, hc, hu]
      rfl
  | @percent h l u hh hl hhl _ ih =>
    obtain ⟨s, hs, hu⟩ := ih
    obtain ⟨hnonneg, hdigits⟩ := percentEncoded_hexPairValue hh hl
    refine ⟨(hexPairValue h l).toNat.toUInt8 :: s, ?_, ?_⟩
    · rw [decodeLoop_percent plus wrapped hnonneg, hs]
      rfl
    · rw [escaped_cons, hhl, hu]
      show percentEncoded _ ++ u = _
      rw [hdigits]
      rfl

/-- Reading only the first `m` bytes of what was written: each of the bytes that are cut off takes a
third of a byte from the result, but for the sequence that the cut may go through. -/
theorem length_decodeLoop_take (s : Bytes) {m : Nat} {r : Bytes}
    (hr : decodeLoop plus wrapped ((escaped keep s).take m) = some r) :
    3 * r.length + ((escaped keep s).length - m) ≤ 3 * s.length + 6 := by
  induction s generalizing m r with
  | nil =>
    have hread := length_decodeLoop_le plus wrapped hr
    simp only [escaped, List.flatMap_nil, List.take_nil, List.length_nil] at hread ⊢
    omega
  | cons c rest ih =>
    have hle : (escaped keep rest).length ≤ 3 * rest.length := length_escaped_le rest
    rw [escaped_cons] at hr ⊢
    generalize hblock : (if keep c then [c] else percentEncoded c) = block at hr ⊢
    have hblockLe : block.length ≤ 3 := by
      subst hblock
      cases keep c <;> simp
    rcases Nat.lt_or_ge m block.length with hm | hm
    · -- The cut is before the end of what `c` became: at most two bytes are read.
      have hread := length_decodeLoop_le plus wrapped hr
      simp only [List.length_take, List.length_append, List.length_cons] at hread ⊢
      omega
    · have htake : (block ++ escaped keep rest).take m
          = block ++ (escaped keep rest).take (m - block.length) := by
        rw [List.take_append, List.take_of_length_le hm]
      rw [htake, ← hblock, decodeLoop_escaped_cons plus wrapped hplus hpercent, hblock] at hr
      obtain ⟨r', hr', rfl⟩ := Option.map_eq_some_iff.mp hr
      have hrest := ih hr'
      simp only [List.length_append, List.length_cons]
      omega

/-- A text that loses 2^32 of its bytes is not read back. -/
theorem decodeLoop_take_ne (s : Bytes) {m : Nat} (hm : m + 2 ^ 32 ≤ (escaped keep s).length) :
    decodeLoop plus wrapped ((escaped keep s).take m) ≠ some s := by
  intro heq
  have hlen := length_decodeLoop_take plus wrapped hplus hpercent s heq
  omega

end

end Loops

/-! ### The two functions -/

/-- A text whose size fits an `unsigned int` is read whole. -/
theorem readable_of_lt {url : Bytes} (hlt : url.length < 2 ^ 32) : readable url = url := by
  unfold readable
  rw [Nat.mod_eq_of_lt hlt, List.take_length]

/-- A byte that is no letter or digit and in neither set is not kept. -/
theorem kept_eq_false {allowedChars valueAllowedChars : Bytes} {c : UInt8}
    (halnum : isalnum c = false) (hallowed : c ∉ allowedChars) (hvalue : c ∉ valueAllowedChars) :
    kept allowedChars valueAllowedChars c = false := by
  simp [kept, halnum, hallowed, hvalue]

/-- Source: `http.cpp:41` `encodeUrl`. Without skipping it always ends. -/
theorem encodeUrl_false (url allowedChars valueAllowedChars : Bytes) :
    encodeUrl url false allowedChars valueAllowedChars
      = some (escaped (kept allowedChars valueAllowedChars) (readable url)) :=
  encodeLoop_eq_escaped (wrappedPair url) (readable url)

section Coding

variable {allowedChars valueAllowedChars : Bytes}
  (hallowedPlus : byte '+' ∉ allowedChars) (hallowedPercent : byte '%' ∉ allowedChars)
  (hvaluePlus : byte '+' ∉ valueAllowedChars) (hvaluePercent : byte '%' ∉ valueAllowedChars)
include hallowedPlus hallowedPercent hvaluePlus hvaluePercent

/-- `decodeUrl` reads back what `encodeUrl` wrote exactly when the size of it fits. -/
theorem encodeUrl_bind_decodeUrl_iff (plus : Bool) {s : Bytes} (hs : s.length < 2 ^ 32) :
    ((encodeUrl s false allowedChars valueAllowedChars).bind fun u => decodeUrl u plus) = some s ↔
      s.length + 2 * escapes (kept allowedChars valueAllowedChars) s < 2 ^ 32 := by
  have hplus := kept_eq_false (c := byte '+') (by decide) hallowedPlus hvaluePlus
  have hpercent := kept_eq_false (c := byte '%') (by decide) hallowedPercent hvaluePercent
  rw [encodeUrl_false, readable_of_lt hs, ← length_escaped]
  show decodeUrl (escaped _ s) plus = some s ↔ _
  unfold decodeUrl
  generalize wrappedPair _ = wrapped
  constructor
  · intro heq
    rcases Nat.lt_or_ge (escaped (kept allowedChars valueAllowedChars) s).length (2 ^ 32)
      with hlt | hge
    · exact hlt
    · refine absurd heq (decodeLoop_take_ne plus wrapped hplus hpercent s ?_)
      omega
  · intro hlt
    rw [readable_of_lt hlt]
    exact decodeLoop_escaped plus wrapped hplus hpercent s

/-- `encodeUrl` writes a canonical text again that `decodeUrl` read. -/
theorem decodeUrl_bind_encodeUrl (plus : Bool) {u : Bytes}
    (hu : Canonical (kept allowedChars valueAllowedChars) u) (hlt : u.length < 2 ^ 32) :
    ((decodeUrl u plus).bind fun s => encodeUrl s false allowedChars valueAllowedChars)
      = some u := by
  have hplus := kept_eq_false (c := byte '+') (by decide) hallowedPlus hvaluePlus
  have hpercent := kept_eq_false (c := byte '%') (by decide) hallowedPercent hvaluePercent
  obtain ⟨s, hs, hescaped⟩ := escaped_decodeLoop plus (wrappedPair u) hplus hpercent hu
  have hsu := length_decodeLoop_le plus (wrappedPair u) hs
  unfold decodeUrl
  rw [readable_of_lt hlt, hs]
  show encodeUrl s false allowedChars valueAllowedChars = some u
  rw [encodeUrl_false, readable_of_lt (by omega), hescaped]

end Coding

/-! ### The coding as a whole -/

/-- Source: `http.cpp:41-106`. For allowed characters without `%` and `+`: a text is read back from
what was written for it exactly when that has fewer than 2^32 bytes; a canonical text is written
again for what was read from it; and everything written is canonical. -/
theorem url_coding_bijective (allowedChars valueAllowedChars : Bytes)
    (hallowedPlus : byte '+' ∉ allowedChars) (hallowedPercent : byte '%' ∉ allowedChars)
    (hvaluePlus : byte '+' ∉ valueAllowedChars) (hvaluePercent : byte '%' ∉ valueAllowedChars) :
    (∀ (s : Bytes) (plus : Bool), s.length < 2 ^ 32 →
      (((encodeUrl s false allowedChars valueAllowedChars).bind fun u => decodeUrl u plus) = some s ↔
        s.length + 2 * escapes (kept allowedChars valueAllowedChars) s < 2 ^ 32)) ∧
    (∀ (u : Bytes) (plus : Bool), Canonical (kept allowedChars valueAllowedChars) u →
      u.length < 2 ^ 32 →
      ((decodeUrl u plus).bind fun s => encodeUrl s false allowedChars valueAllowedChars)
        = some u) ∧
    ∀ s : Bytes, ∃ u, encodeUrl s false allowedChars valueAllowedChars = some u ∧
      Canonical (kept allowedChars valueAllowedChars) u := by
  refine ⟨fun s plus hs => ?_, fun u plus hu hlt => ?_, fun s => ?_⟩
  · exact encodeUrl_bind_decodeUrl_iff hallowedPlus hallowedPercent hvaluePlus hvaluePercent plus hs
  · exact decodeUrl_bind_encodeUrl hallowedPlus hallowedPercent hvaluePlus hvaluePercent plus hu hlt
  · exact ⟨_, encodeUrl_false s allowedChars valueAllowedChars, canonical_escaped _⟩

/-- The default of `allowedChars`. Source: `http.hpp:27`. -/
def defaultAllowedChars : Bytes := "/?=&#".toList.map byte

/-- The default of `valueAllowedChars`. Source: `http.hpp:28`. -/
def defaultValueAllowedChars : Bytes := "-_.:[]~!$()'*,;@".toList.map byte

/-- The default sets. -/
theorem url_coding_bijective_default :
    byte '+' ∉ defaultAllowedChars ∧ byte '%' ∉ defaultAllowedChars ∧
    byte '+' ∉ defaultValueAllowedChars ∧ byte '%' ∉ defaultValueAllowedChars ∧
    ∀ s : Bytes, ∃ u, encodeUrl s false defaultAllowedChars defaultValueAllowedChars = some u ∧
      Canonical (kept defaultAllowedChars defaultValueAllowedChars) u :=
  ⟨by decide, by decide, by decide, by decide,
    (url_coding_bijective defaultAllowedChars defaultValueAllowedChars (by decide) (by decide)
      (by decide) (by decide)).2.2⟩

/-- A text of percent signs takes three times its size. -/
theorem replicate_percent_read_back_iff {n : Nat} (hn : n < 2 ^ 32) :
    ((encodeUrl (List.replicate n (byte '%')) false defaultAllowedChars
        defaultValueAllowedChars).bind fun u => decodeUrl u true)
      = some (List.replicate n (byte '%')) ↔ 3 * n < 2 ^ 32 := by
  have hkept : kept defaultAllowedChars defaultValueAllowedChars (byte '%') = false := by decide
  have hescapes : escapes (kept defaultAllowedChars defaultValueAllowedChars)
      (List.replicate n (byte '%')) = n := by
    unfold escapes
    rw [List.countP_replicate, hkept]
    rfl
  rw [encodeUrl_bind_decodeUrl_iff (by decide) (by decide) (by decide) (by decide) true
    (by rwa [List.length_replicate]), hescapes, List.length_replicate]
  omega

/-- 2^31 percent signs take 3 * 2^31 bytes, of which the decoder reads the first 2^31. -/
theorem percent_signs_not_read_back :
    (List.replicate (2 ^ 31) (byte '%')).length < 2 ^ 32 ∧
      ((encodeUrl (List.replicate (2 ^ 31) (byte '%')) false defaultAllowedChars
          defaultValueAllowedChars).bind fun u => decodeUrl u true)
        ≠ some (List.replicate (2 ^ 31) (byte '%')) := by
  refine ⟨?_, fun heq => ?_⟩
  · rw [List.length_replicate]
    norm_num
  · have hfits := (replicate_percent_read_back_iff (by norm_num)).mp heq
    norm_num at hfits

end NodeNative.Http
