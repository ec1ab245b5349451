import NodeNative.Http.UrlCoding

/-!
# Skipping percent sequences

With `skipPercentSequence` the loop of `encodeUrl` copies a `%` with the two hex digits behind it.
`referenceEncoding` is what a text becomes when every other byte that is not kept is escaped, the
other percent signs included; the loop does that except for a `%` in front of two bytes that are no
hex digits, which it drops (`encodeLoop_reference`).

Whatever it writes consists of kept characters and of sequences (`Sequences`). The loop copies such
a text (`encodeLoop_sequences`), so a second pass changes nothing, and the decoder reads the same
from a text and from what was written for it (`decodeLoop_encodeLoop`).
-/

namespace NodeNative.Http

/-- `std::isxdigit` on ASCII. -/
def isxdigit (c : UInt8) : Bool :=
  (byte '0' ≤ c && c ≤ byte '9') || (byte 'A' ≤ c && c ≤ byte 'F') || (byte 'a' ≤ c && c ≤ byte 'f')

/-! ### Hex digits -/

/-- A hexadecimal digit has a value, and no other byte has. -/
theorem hexValue_nonneg_iff (c : UInt8) : 0 ≤ hexValue c ↔ isxdigit c = true :=
  forall_byte (P := fun c => 0 ≤ hexValue c ↔ isxdigit c = true) (by decide +kernel) c

/-- A pair has a value when both characters are hex digits. -/
theorem hexPairValue_nonneg_iff (h l : UInt8) :
    0 ≤ hexPairValue h l ↔ isxdigit h = true ∧ isxdigit l = true := by
  rw [← hexValue_nonneg_iff, ← hexValue_nonneg_iff]
  unfold hexPairValue
  dsimp only
  split <;> omega

/-- The digits that are written are hexadecimal, -/
theorem isxdigit_of_upperHex {c : UInt8} (hc : upperHex c = true) : isxdigit c = true := by
  unfold upperHex at hc
  unfold isxdigit
  rw [hc, Bool.true_or]

/-- as is that of each value below 16. -/
theorem isxdigit_hexDigit {d : Nat} (hd : d < 16) : isxdigit (hexDigit d) = true :=
  isxdigit_of_upperHex (upperHex_hexDigit d hd)

/-- They are letters and digits, -/
theorem isalnum_of_isxdigit {c : UInt8} (hc : isxdigit c = true) : isalnum c = true := by
  have hletters : byte 'F' ≤ byte 'Z' ∧ byte 'f' ≤ byte 'z' := by decide
  simp only [isxdigit, isalnum, Bool.or_eq_true, Bool.and_eq_true, decide_eq_true_eq] at hc ⊢
  rcases hc with (hc | ⟨hA, hF⟩) | ⟨ha, hf⟩
  · exact .inl (.inl hc)
  · exact .inl (.inr ⟨hA, UInt8.le_trans hF hletters.1⟩)
  · exact .inr ⟨ha, UInt8.le_trans hf hletters.2⟩

/-- no percent signs, -/
theorem isxdigit_ne_percent {c : UInt8} (hc : isxdigit c = true) : c ≠ byte '%' := by
  rintro rfl
  cases hc

/-- and they are kept. -/
theorem kept_of_isxdigit (allowedChars valueAllowedChars : Bytes) {c : UInt8}
    (hc : isxdigit c = true) : kept allowedChars valueAllowedChars c = true := by
  rw [kept, isalnum_of_isxdigit hc]
  rfl

/-! ### The reference -/

/-- Kept characters and sequences of a `%` and two hex digits as they are, every other byte as
`%HH`. -/
def referenceEncoding (keep : UInt8 → Bool) : Bytes → Bytes
  | [] => []
  | c :: rest =>
    if keep c then c :: referenceEncoding keep rest
    else if c = byte '%' then
      match rest with
      | h :: l :: rest' =>
        if isxdigit h && isxdigit l then c :: h :: l :: referenceEncoding keep rest'
        else percentEncoded c ++ referenceEncoding keep (h :: l :: rest')
      | rest => percentEncoded c ++ referenceEncoding keep rest
    else percentEncoded c ++ referenceEncoding keep rest

/-- Every percent sign with two bytes behind it introduces a sequence, and none is the last byte
where the loop reads on behind that. -/
structure Skippable (readsOn : Prop) (s : Bytes) : Prop where
  digits : ∀ {h l : UInt8} {rest : Bytes}, byte '%' :: h :: l :: rest <:+ s →
    isxdigit h = true ∧ isxdigit l = true
  last : readsOn → ¬ [byte '%'] <:+ s

section
variable {readsOn : Prop} {c h l : UInt8} {s rest : Bytes}

/-- Behind its first byte a string is skippable too. -/
theorem Skippable.of_cons (hs : Skippable readsOn (c :: s)) : Skippable readsOn s where
  digits hsuffix := hs.digits (hsuffix.trans (List.suffix_cons c s))
  last hreads hsuffix := hs.last hreads (hsuffix.trans (List.suffix_cons c s))

/-- Only a percent sign at the front matters for what is in front. -/
theorem skippable_cons_iff (hc : c ≠ byte '%') : Skippable readsOn (c :: s) ↔ Skippable readsOn s := by
  have hcons : ∀ {t : Bytes}, byte '%' :: t <:+ c :: s → byte '%' :: t <:+ s := by
    intro t ht
    rcases List.suffix_cons_iff.mp ht with heq | ht
    · exact absurd (List.cons.inj heq).1.symm hc
    · exact ht
  exact ⟨Skippable.of_cons, fun hs => ⟨fun ht => hs.digits (hcons ht), fun hreads ht =>
    hs.last hreads (hcons ht)⟩⟩

/-- A sequence at the front. -/
theorem skippable_sequence_iff (hh : isxdigit h = true) (hl : isxdigit l = true) :
    Skippable readsOn (byte '%' :: h :: l :: rest) ↔ Skippable readsOn rest := by
  rw [← skippable_cons_iff (s := rest) (isxdigit_ne_percent hl),
    ← skippable_cons_iff (s := l :: rest) (isxdigit_ne_percent hh)]
  refine ⟨Skippable.of_cons, fun hs => ⟨fun ht => ?_, fun hreads ht => ?_⟩⟩
  · rcases List.suffix_cons_iff.mp ht with heq | ht
    · cases heq
      exact ⟨hh, hl⟩
    · exact hs.digits ht
  · rcases List.suffix_cons_iff.mp ht with heq | ht
    · cases heq
    · exact hs.last hreads ht

/-- A percent sign with at most one byte behind it. -/
theorem skippable_short_iff (hshort : s.length < 2) (hs : readsOn → s ≠ []) :
    Skippable readsOn (byte '%' :: s) ↔ Skippable readsOn s := by
  refine ⟨Skippable.of_cons, fun hskip => ⟨fun ht => ?_, fun hreads ht => ?_⟩⟩
  · have hlen := ht.length_le
    simp only [List.length_cons] at hlen
    omega
  · rcases List.suffix_cons_iff.mp ht with heq | ht
    · exact hs hreads (List.cons.inj heq).2.symm
    · exact hskip.last hreads ht

end

/-! ### The loops, case by case -/

section
variable {skip : Bool} {wrapped : Option Int} {keep : UInt8 → Bool} {c h l : UInt8} {rest : Bytes}

/-- A byte that is kept stays, -/
theorem encodeLoop_kept (hc : keep c = true) :
    encodeLoop skip wrapped keep (c :: rest) = (c :: ·) <$> encodeLoop skip wrapped keep rest := by
  conv_lhs => unfold encodeLoop
  rw [if_pos hc]

/-- and one that is not is encoded, but for a percent sign, -/
theorem encodeLoop_other (hc : keep c = false) (hpercent : c ≠ byte '%') :
    encodeLoop skip wrapped keep (c :: rest) =
      (percentEncoded c ++ ·) <$> encodeLoop skip wrapped keep rest := by
  conv_lhs => unfold encodeLoop
  rw [hc, if_neg Bool.false_ne_true, beq_eq_false_iff_ne.mpr hpercent, Bool.and_false,
    if_neg Bool.false_ne_true]

variable (hpercent : keep (byte '%') = false)
include hpercent

/-- which is skipped with its two digits, or dropped. -/
theorem encodeLoop_pair : encodeLoop true wrapped keep (byte '%' :: h :: l :: rest) =
    if hexPairValue h l ≥ 0 then
      (byte '%' :: h :: l :: ·) <$> encodeLoop true wrapped keep rest
    else encodeLoop true wrapped keep (h :: l :: rest) := by
  rw [encodeLoop, hpercent, if_neg Bool.false_ne_true, if_pos (by decide)]

/-- A percent sign with one byte behind it, or with none at the end that the loop finds. -/
theorem encodeLoop_short (hshort : rest.length < 2) (hrest : rest = [] → wrapped = none) :
    encodeLoop true wrapped keep (byte '%' :: rest) =
      (percentEncoded (byte '%') ++ ·) <$> encodeLoop true wrapped keep rest := by
  conv_lhs => unfold encodeLoop
  rw [hpercent, if_neg Bool.false_ne_true, if_pos (by decide)]
  rcases rest with _ | ⟨h, _ | ⟨l, rest⟩⟩
  · rw [hrest rfl]
  · rfl
  · exact absurd hshort (by simp)

/-- The last byte of 2^32 - 1, where the index behind it wraps. -/
theorem encodeLoop_last {value : Int} (hvalue : value < 0) :
    encodeLoop true (some value) keep [byte '%'] = some [] := by
  rw [encodeLoop, hpercent, if_neg Bool.false_ne_true, if_pos (by decide)]
  exact if_neg (by omega)

end

/-! ### The loop and the reference -/

section
variable {wrapped : Option Int} {keep : UInt8 → Bool} (hpercent : keep (byte '%') = false)
  (hwrapped : ∀ value, wrapped = some value → value < 0)
include hpercent hwrapped

/-- What is written is the reference exactly when no percent sign is dropped. Nothing else is lost,
so what is written is not longer. -/
theorem encodeLoop_reference (s : Bytes) : ∃ u, encodeLoop true wrapped keep s = some u ∧
    u.length ≤ (referenceEncoding keep s).length ∧
    (u = referenceEncoding keep s ↔ Skippable (wrapped.isSome = true) s) := by
  have hnil : Skippable (wrapped.isSome = true) [] := ⟨fun ht => by simp at ht, fun _ ht => by simp at ht⟩
  fun_induction referenceEncoding keep s with
  | case1 => exact ⟨[], rfl, Nat.le_refl _, iff_of_true rfl hnil⟩
  | case2 c rest hc ih =>
    obtain ⟨u, hu, hle, hiff⟩ := ih
    refine ⟨c :: u, by rw [encodeLoop_kept hc, hu]; rfl, by simpa using hle, ?_⟩
    have hne : c ≠ byte '%' := by
      rintro rfl
      rw [hpercent] at hc
      cases hc
    rw [List.cons_inj_right, hiff, skippable_cons_iff hne]
  | case3 h l rest hhl _ ih =>
    obtain ⟨u, hu, hle, hiff⟩ := ih
    obtain ⟨hh, hl⟩ := Bool.and_eq_true_iff.mp hhl
    refine ⟨byte '%' :: h :: l :: u, ?_, by simpa using hle, ?_⟩
    · rw [encodeLoop_pair hpercent, if_pos ((hexPairValue_nonneg_iff h l).mpr ⟨hh, hl⟩), hu]
      rfl
    · rw [List.cons_inj_right, List.cons_inj_right, List.cons_inj_right, hiff,
        skippable_sequence_iff hh hl]
  | case4 h l rest hhl _ ih =>
    -- The percent sign is dropped, so what is written is shorter by three.
    obtain ⟨u, hu, hle, -⟩ := ih
    have hnot : ¬ hexPairValue h l ≥ 0 := fun hnonneg =>
      hhl (Bool.and_eq_true_iff.mpr ((hexPairValue_nonneg_iff h l).mp hnonneg))
    refine ⟨u, by rw [encodeLoop_pair hpercent, if_neg hnot, hu], ?_, iff_of_false ?_ fun hs => ?_⟩
    · rw [List.length_append]
      omega
    · intro heq
      have hlen := congrArg List.length heq
      rw [List.length_append, length_percentEncoded] at hlen
      omega
    · exact hhl (Bool.and_eq_true_iff.mpr (hs.digits (List.suffix_refl _)))
  | case5 rest hrest _ ih =>
    obtain ⟨u, hu, hle, hiff⟩ := ih
    have hshort : rest.length < 2 := by
      match rest with
      | [] | [_] => simp
      | h :: l :: rest' => exact (hrest h l rest' rfl).elim
    by_cases hlast : rest = [] ∧ wrapped.isSome = true
    · obtain ⟨rfl, hsome⟩ := hlast
      obtain ⟨value, rfl⟩ := Option.isSome_iff_exists.mp hsome
      refine ⟨[], encodeLoop_last hpercent (hwrapped value rfl), Nat.zero_le _, iff_of_false ?_ ?_⟩
      · rw [percentEncoded_eq]
        exact nofun
      · exact fun hs => hs.last rfl (List.suffix_refl _)
    · have hnone : rest = [] → wrapped = none := fun hrest =>
        Option.not_isSome_iff_eq_none.mp fun hsome => hlast ⟨hrest, hsome⟩
      refine ⟨percentEncoded (byte '%') ++ u, ?_, ?_, ?_⟩
      · rw [encodeLoop_short hpercent hshort hnone, hu]
        rfl
      · rw [List.length_append, List.length_append]
        omega
      · rw [List.append_cancel_left_eq, hiff, skippable_short_iff hshort]
        exact fun hsome hrest => hlast ⟨hrest, hsome⟩
  | case6 c rest hc hne ih =>
    obtain ⟨u, hu, hle, hiff⟩ := ih
    refine ⟨percentEncoded c ++ u, ?_, ?_, ?_⟩
    · rw [encodeLoop_other (Bool.eq_false_iff.mpr hc) hne, hu]
      rfl
    · rw [List.length_append, List.length_append]
      omega
    · rw [List.append_cancel_left_eq, hiff, skippable_cons_iff hne]

end

/-! ### What is written -/

/-- Kept characters, and sequences of a `%` and two hex digits. -/
inductive Sequences (keep : UInt8 → Bool) : Bytes → Prop
  | nil : Sequences keep []
  | char {c : UInt8} {u : Bytes} (hc : keep c = true) (hu : Sequences keep u) :
      Sequences keep (c :: u)
  | percent {h l : UInt8} {u : Bytes} (hh : isxdigit h = true) (hl : isxdigit l = true)
      (hu : Sequences keep u) : Sequences keep (byte '%' :: h :: l :: u)

section
variable {keep : UInt8 → Bool} {u s : Bytes}

/-- An encoded byte in front of sequences is one more. -/
theorem Sequences.percentEncoded_append (c : UInt8) (hu : Sequences keep u) :
    Sequences keep (percentEncoded c ++ u) := by
  have hc := c.toNat_lt
  rw [percentEncoded_eq]
  exact .percent (isxdigit_hexDigit (by omega)) (isxdigit_hexDigit (by omega)) hu

/-- The loop writes kept characters and sequences, at most three bytes for each that it reads. -/
theorem encodeLoop_none (skip : Bool) (s : Bytes) : ∃ u, encodeLoop skip none keep s = some u ∧
    Sequences keep u ∧ u.length ≤ 3 * s.length := by
  fun_induction encodeLoop skip none keep s with
  | case1 => exact ⟨[], rfl, .nil, Nat.le_refl _⟩
  | case2 c rest hc ih =>
    obtain ⟨u, hu, hseq, hle⟩ := ih
    rw [hu]
    refine ⟨c :: u, rfl, .char hc hseq, ?_⟩
    rw [List.length_cons, List.length_cons]
    omega
  | case3 c hkeep hskip h l rest hhl ih =>
    obtain ⟨u, hu, hseq, hle⟩ := ih
    obtain ⟨-, hc⟩ := Bool.and_eq_true_iff.mp hskip
    obtain ⟨hh, hl⟩ := (hexPairValue_nonneg_iff h l).mp hhl
    rw [hu, beq_iff_eq.mp hc]
    refine ⟨byte '%' :: h :: l :: u, rfl, .percent hh hl hseq, ?_⟩
    simp only [List.length_cons]
    omega
  | case4 c hkeep hskip h l rest hhl ih =>
    obtain ⟨u, hu, hseq, hle⟩ := ih
    refine ⟨u, hu, hseq, ?_⟩
    rw [List.length_cons]
    omega
  | case5 | case6 => contradiction
  | case7 c rest hkeep hskip hrest hvalue ih | case8 c rest hkeep hskip ih =>
    obtain ⟨u, hu, hseq, hle⟩ := ih
    rw [hu]
    refine ⟨percentEncoded c ++ u, rfl, hseq.percentEncoded_append c, ?_⟩
    rw [List.length_append, length_percentEncoded, List.length_cons]
    omega

/-- Where every percent sign introduces a sequence, the text consists of these and of other bytes. -/
theorem sequences_of_suffixes {s : Bytes} (hs : ∀ rest, byte '%' :: rest <:+ s →
    ∃ h l rest', rest = h :: l :: rest' ∧ isxdigit h = true ∧ isxdigit l = true) :
    Sequences (· != byte '%') s := by
  induction hn : s.length using Nat.strong_induction_on generalizing s with
  | _ n ih =>
    subst hn
    have hbehind : ∀ {t : Bytes}, t <:+ s → t.length < s.length → Sequences (· != byte '%') t :=
      fun ht hlt => ih _ hlt (fun rest hrest => hs rest (hrest.trans ht)) rfl
    match s with
    | [] => exact .nil
    | c :: rest =>
      by_cases hc : c = byte '%'
      · subst hc
        obtain ⟨h, l, rest', rfl, hh, hl⟩ := hs rest (List.suffix_refl _)
        refine .percent hh hl (hbehind ?_ (by simp only [List.length_cons]; omega))
        exact (List.suffix_append [byte '%', h, l] rest')
      · exact .char (bne_iff_ne.mpr hc) (hbehind (List.suffix_cons c rest) (Nat.lt_succ_self _))

/-- A byte other than `%` is read as itself when `+` stands for itself. -/
theorem decodeLoop_byte (wrapped : Option Int) {c : UInt8} (hc : c ≠ byte '%') (rest : Bytes) :
    decodeLoop false wrapped (c :: rest) = (c :: ·) <$> decodeLoop false wrapped rest := by
  by_cases hplus : c = byte '+'
  · conv_lhs => unfold decodeLoop
    rw [if_pos hplus]
    rfl
  · exact decodeLoop_char false wrapped hplus hc rest

section
variable (hdigits : ∀ {c : UInt8}, isxdigit c = true → keep c = true)
include hdigits

/-- A sequence is copied, whether percent signs are kept or skipped. -/
theorem encodeLoop_percent {h l : UInt8} (hh : isxdigit h = true) (hl : isxdigit l = true)
    (wrapped : Option Int) (rest : Bytes) :
    encodeLoop true wrapped keep (byte '%' :: h :: l :: rest) =
      (byte '%' :: h :: l :: ·) <$> encodeLoop true wrapped keep rest := by
  cases hpercent : keep (byte '%') with
  | true =>
    rw [encodeLoop_kept hpercent, encodeLoop_kept (hdigits hh), encodeLoop_kept (hdigits hl)]
    cases encodeLoop true wrapped keep rest <;> rfl
  | false =>
    rw [encodeLoop_pair hpercent, if_pos ((hexPairValue_nonneg_iff h l).mpr ⟨hh, hl⟩)]

/-- Kept characters and sequences are copied. -/
theorem encodeLoop_sequences {u : Bytes} (hu : Sequences keep u) (wrapped : Option Int) :
    encodeLoop true wrapped keep u = some u := by
  induction hu with
  | nil => rfl
  | char hc _ ih => rw [encodeLoop_kept hc, ih]; rfl
  | percent hh hl _ ih => rw [encodeLoop_percent hdigits hh hl, ih]; rfl

/-- The decoder reads the same from a text and from what is written for it. -/
theorem decodeLoop_encodeLoop {s : Bytes} (hs : Sequences (· != byte '%') s)
    (wrapped wrapped' : Option Int) : ∃ u t, encodeLoop true none keep s = some u ∧
      decodeLoop false wrapped u = some t ∧ decodeLoop false wrapped' s = some t := by
  induction hs with
  | nil => exact ⟨[], [], rfl, rfl, rfl⟩
  | @char c s hc _ ih =>
    obtain ⟨u, t, hu, hdecode, hread⟩ := ih
    have hne : c ≠ byte '%' := bne_iff_ne.mp hc
    cases hkeep : keep c with
    | true =>
      refine ⟨c :: u, c :: t, ?_, ?_, ?_⟩
      · rw [encodeLoop_kept hkeep, hu]; rfl
      · rw [decodeLoop_byte wrapped hne, hdecode]; rfl
      · rw [decodeLoop_byte wrapped' hne, hread]; rfl
    | false =>
      refine ⟨percentEncoded c ++ u, c :: t, ?_, ?_, ?_⟩
      · rw [encodeLoop_other hkeep hne, hu]; rfl
      · rw [decodeLoop_percentEncoded, hdecode]; rfl
      · rw [decodeLoop_byte wrapped' hne, hread]; rfl
  | @percent h l s hh hl _ ih =>
    obtain ⟨u, t, hu, hdecode, hread⟩ := ih
    have hnonneg := (hexPairValue_nonneg_iff h l).mpr ⟨hh, hl⟩
    refine ⟨byte '%' :: h :: l :: u, (hexPairValue h l).toNat.toUInt8 :: t, ?_, ?_, ?_⟩
    · rw [encodeLoop_percent hdigits hh hl, hu]; rfl
    · rw [decodeLoop_percent false wrapped hnonneg, hdecode]; rfl
    · rw [decodeLoop_percent false wrapped' hnonneg, hread]; rfl

end

end

/-! ### The two functions -/

/-- Below the greatest length no index wraps around, -/
theorem wrappedPair_of_lt {url : Bytes} (hlt : url.length < 2 ^ 32 - 1) : wrappedPair url = none := by
  unfold wrappedPair
  rw [if_neg (by omega)]

/-- The byte behind the last one is no hex digit, so the wrapped index leads to no sequence. -/
theorem wrappedPair_neg {url : Bytes} (hlt : url.length < 2 ^ 32) {value : Int}
    (h : wrappedPair url = some value) : value < 0 := by
  unfold wrappedPair at h
  split at h
  · rename_i hlen
    have hend : url.getD (2 ^ 32 - 1) 0 = 0 := by
      rw [List.getD_eq_getElem?_getD, List.getElem?_eq_none (by omega)]
      rfl
    cases h
    refine not_le.mp fun hnonneg => ?_
    have hzero := ((hexPairValue_nonneg_iff _ _).mp hnonneg).1
    rw [hend] at hzero
    cases hzero
  · cases h

/-- and at it one does. -/
theorem wrappedPair_isSome_iff {url : Bytes} (hlt : url.length < 2 ^ 32) :
    (wrappedPair url).isSome = true ↔ url.length = 2 ^ 32 - 1 := by
  unfold wrappedPair
  rw [Nat.mod_eq_of_lt hlt]
  split <;> simp_all

/-- A string whose length fits into 32 bits is encoded by the loop, -/
theorem encodeUrl_of_lt {url : Bytes} (hlt : url.length < 2 ^ 32) (skip : Bool)
    (allowedChars valueAllowedChars : Bytes) :
    encodeUrl url skip allowedChars valueAllowedChars =
      encodeLoop skip (wrappedPair url) (kept allowedChars valueAllowedChars) url := by
  rw [encodeUrl, readable_of_lt hlt]

/-- and decoded by the other one. -/
theorem decodeUrl_of_lt {url : Bytes} (hlt : url.length < 2 ^ 32) (plus : Bool) :
    decodeUrl url plus = decodeLoop plus (wrappedPair url) url := by
  rw [decodeUrl, readable_of_lt hlt]

/-- Source: `http.cpp:41` `encodeUrl`, with `skipPercentSequence`. What is written is the reference
encoding exactly when every percent sign with two bytes behind it is followed by two hex digits and,
in a text of 2^32 - 1 bytes, none is the last byte. -/
theorem encodeUrl_reference_iff (allowedChars valueAllowedChars : Bytes)
    (hallowed : byte '%' ∉ allowedChars) (hvalue : byte '%' ∉ valueAllowedChars) (s : Bytes)
    (hs : s.length < 2 ^ 32) :
    encodeUrl s true allowedChars valueAllowedChars =
        some (referenceEncoding (kept allowedChars valueAllowedChars) s) ↔
      (∀ h l rest, byte '%' :: h :: l :: rest <:+ s → isxdigit h = true ∧ isxdigit l = true) ∧
        (s.length = 2 ^ 32 - 1 → ¬ [byte '%'] <:+ s) := by
  have hpercent := kept_eq_false (c := byte '%') (by decide) hallowed hvalue
  obtain ⟨u, hu, -, hiff⟩ := encodeLoop_reference hpercent
    (fun _ hsome => wrappedPair_neg hs hsome) s
  rw [encodeUrl_of_lt hs, hu, Option.some_inj, hiff, wrappedPair_isSome_iff hs]
  exact ⟨fun hskip => ⟨fun _ _ _ => hskip.digits, hskip.last⟩,
    fun ⟨hdigits, hlast⟩ => ⟨hdigits _ _ _, hlast⟩⟩

/-- The wrong sequence is escaped by the reference, and loses its percent sign in the code. -/
theorem encodeUrl_drops_percent : byte '%' ∉ defaultAllowedChars ∧
    byte '%' ∉ defaultValueAllowedChars ∧ ("%ZF".toList.map byte).length < 2 ^ 32 ∧
    encodeUrl ("%ZF".toList.map byte) true defaultAllowedChars defaultValueAllowedChars =
      some ("ZF".toList.map byte) ∧
    referenceEncoding (kept defaultAllowedChars defaultValueAllowedChars) ("%ZF".toList.map byte) =
      "%25ZF".toList.map byte ∧
    "ZF".toList.map byte ≠ "%25ZF".toList.map byte := by
  decide

/-- An encoded blank is left as it is. -/
theorem encodeUrl_reference_space : byte '%' ∉ defaultAllowedChars ∧
    byte '%' ∉ defaultValueAllowedChars ∧
    encodeUrl ("%20".toList.map byte) true defaultAllowedChars defaultValueAllowedChars =
      some (referenceEncoding (kept defaultAllowedChars defaultValueAllowedChars)
        ("%20".toList.map byte)) := by
  refine ⟨by decide, by decide, (encodeUrl_reference_iff defaultAllowedChars
    defaultValueAllowedChars (by decide) (by decide) _ (by decide)).mpr ⟨?_, by decide⟩⟩
  intro h l rest hsuffix
  cases hsuffix.eq_of_length_le (by simp)
  exact ⟨by decide, by decide⟩

/-- Source: `http.cpp:41` `encodeUrl`. A second pass with `skipPercentSequence` changes nothing. -/
theorem encodeUrl_idempotent (s : Bytes) (hs : 3 * s.length < 2 ^ 31) (skip : Bool)
    (allowedChars valueAllowedChars : Bytes) :
    ∃ u, encodeUrl s skip allowedChars valueAllowedChars = some u ∧
      encodeUrl u true allowedChars valueAllowedChars = some u := by
  obtain ⟨u, hu, hseq, hle⟩ := @encodeLoop_none (kept allowedChars valueAllowedChars) skip s
  refine ⟨u, ?_, ?_⟩
  · rw [encodeUrl_of_lt (by omega), wrappedPair_of_lt (by omega), hu]
  · rw [encodeUrl_of_lt (by omega)]
    exact encodeLoop_sequences (kept_of_isxdigit allowedChars valueAllowedChars) hseq _

/-- A string with stray percent signs is encoded once. -/
theorem encodeUrl_idempotent_wrong : 3 * ("a %%41%Z".toList.map byte).length < 2 ^ 31 ∧
    ∃ u, encodeUrl ("a %%41%Z".toList.map byte) true defaultAllowedChars
        defaultValueAllowedChars = some u ∧
      encodeUrl u true defaultAllowedChars defaultValueAllowedChars = some u :=
  ⟨by decide, encodeUrl_idempotent _ (by decide) true _ _⟩

/-- Source: `http.cpp:41-106`. Where every percent sign introduces a sequence, the decoder reads the
same from a text and from what `encodeUrl` writes for it with `skipPercentSequence`. -/
theorem decodeUrl_encodeUrl_skip (s : Bytes) (hs : 3 * s.length < 2 ^ 31)
    (hsequences : ∀ rest, byte '%' :: rest <:+ s →
      ∃ h l rest', rest = h :: l :: rest' ∧ isxdigit h = true ∧ isxdigit l = true)
    (allowedChars valueAllowedChars : Bytes) :
    ∃ u t, encodeUrl s true allowedChars valueAllowedChars = some u ∧
      decodeUrl u false = some t ∧ decodeUrl s false = some t := by
  obtain ⟨u₀, hu₀, -, hle⟩ := @encodeLoop_none (kept allowedChars valueAllowedChars) true s
  obtain ⟨u, t, hu, hdecode, hread⟩ := decodeLoop_encodeLoop
    (kept_of_isxdigit allowedChars valueAllowedChars) (sequences_of_suffixes hsequences)
    (wrappedPair u₀) (wrappedPair s)
  cases hu₀.symm.trans hu
  refine ⟨u₀, t, ?_, ?_, ?_⟩
  · rw [encodeUrl_of_lt (by omega), wrappedPair_of_lt (by omega), hu]
  · rw [decodeUrl_of_lt (by omega), hdecode]
  · rw [decodeUrl_of_lt (by omega), hread]

/-- An encoded blank is decoded as before its encoding. -/
theorem decodeUrl_encodeUrl_skip_space : 3 * ("%20".toList.map byte).length < 2 ^ 31 ∧
    ∃ u t, encodeUrl ("%20".toList.map byte) true defaultAllowedChars defaultValueAllowedChars =
        some u ∧
      decodeUrl u false = some t ∧ decodeUrl ("%20".toList.map byte) false = some t := by
  refine ⟨by decide, decodeUrl_encodeUrl_skip _ (by decide) (fun rest hsuffix => ?_) _ _⟩
  have hwhole : rest = [byte '2', byte '0'] := by
    simpa [List.suffix_cons_iff, byte] using hsuffix
  exact ⟨_, _, [], hwhole, by decide, by decide⟩

end NodeNative.Http
