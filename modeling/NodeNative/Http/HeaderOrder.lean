import NodeNative.Http.Incoming
import NodeNative.Lib.Lexicographic

/-!
# The order of the header names

The headers of a message are a `std::map` whose keys are compared by `text::ci_less`: byte by byte,
each byte through `tolower`. The comparison is a strict weak order, and two names are the same key
exactly when they have the same length and agree in lower case byte for byte
(`ciLess_isStrictWeakOrder`, `equiv_ciLess_iff`). An assignment to a map that is ordered in this way
keeps its keys ascending, so that a name has at most one entry however it is written
(`Headers.nodup`). The model of the messages has texts where the source has bytes; there the order
and the assignments are the same (`ciLess_text`, `Headers.set_texts`,
`Headers.getHeader_texts`).
-/

namespace NodeNative.Text

open Lexicographic

/-! ### The comparison -/

/-- The bytes of a `std::string`. The elements are `char`s, and the conversion to the
`unsigned char` that `nocase_compare` takes keeps the byte. -/
abbrev Bytes := List UInt8

/-- `tolower` in the C locale: the capital letters of ASCII, and no other value. -/
def tolower (c : Nat) : Nat := if 65 ≤ c ∧ c ≤ 90 then c + 32 else c

/-- Source: `text.hpp:11` `ci_less::nocase_compare`. -/
def nocaseCompare (c1 c2 : UInt8) : Prop := tolower c1.toNat < tolower c2.toNat

instance : DecidableRel nocaseCompare := fun c1 c2 =>
  inferInstanceAs (Decidable (tolower c1.toNat < tolower c2.toNat))

/-- Source: `text.hpp:15` `ci_less::operator()`. -/
def ciLess (s1 s2 : Bytes) : Bool := lexicographicalCompare nocaseCompare s1 s2

/-- Neither byte is less than the other when they are equal in lower case. -/
theorem equiv_nocaseCompare {c1 c2 : UInt8} :
    OrderedMap.Equiv nocaseCompare c1 c2 ↔ tolower c1.toNat = tolower c2.toNat := by
  unfold OrderedMap.Equiv nocaseCompare
  omega

instance : IsStrictWeakOrder UInt8 nocaseCompare where
  irrefl _ := lt_irrefl _
  trans _ _ _ := lt_trans
  incomp_trans _ _ _ hab hbc :=
    equiv_nocaseCompare.mpr ((equiv_nocaseCompare.mp hab).trans (equiv_nocaseCompare.mp hbc))

/-- The texts of a header map are ordered strictly and weakly. -/
instance ciLess_isStrictWeakOrder : IsStrictWeakOrder Bytes (ciLess · · = true) :=
  isStrictWeakOrder

/-- Two names differ in the case of their letters at most. -/
def SameName (a b : Bytes) : Prop :=
  a.length = b.length ∧
    ∀ i (ha : i < a.length) (hb : i < b.length), tolower a[i].toNat = tolower b[i].toNat

/-- Names are the same key when they differ in case at most. -/
theorem equiv_ciLess_iff {a b : Bytes} :
    OrderedMap.Equiv (ciLess · · = true) a b ↔ SameName a b := by
  have hforall : OrderedMap.Equiv (ciLess · · = true) a b ↔
      List.Forall₂ (OrderedMap.Equiv nocaseCompare) a b := equiv_iff_forall₂
  rw [hforall, List.forall₂_iff_get]
  simp only [equiv_nocaseCompare, SameName, List.get_eq_getElem]

/-! ### The map -/

/-- Source: `MessageBase.hpp:102`, `_headers`. -/
abbrev Headers := List (Bytes × Bytes)

/-- Source: `_headers[key] = value`. -/
def Headers.set (headers : Headers) (key value : Bytes) : Headers :=
  OrderedMap.insert (ciLess · · = true) key value headers

/-- Source: `MessageBase.cpp:33` `MessageBase::getHeader(key, value)`: `none` for `false`. -/
def Headers.getHeader (headers : Headers) (key : Bytes) : Option Bytes :=
  OrderedMap.find? (ciLess · · = true) key headers

/-- The assignments that a message has made so far, in their order. -/
def Headers.setAll (headers : Headers) (es : List (Bytes × Bytes)) : Headers :=
  es.foldl (fun headers e => headers.set e.1 e.2) headers

/-- An assignment to a name is read under every way to write it, and under no other name. -/
theorem Headers.getHeader_set (headers : Headers) (key key' value : Bytes) :
    (headers.set key value).getHeader key' =
      if OrderedMap.Equiv (ciLess · · = true) key key' then some value
      else headers.getHeader key' :=
  OrderedMap.find?_insert key key' value headers

/-- The names of a map ascend after any assignments. -/
theorem Headers.sorted_setAll {headers : Headers}
    (h : OrderedMap.Sorted (ciLess · · = true) headers) (es : List (Bytes × Bytes)) :
    OrderedMap.Sorted (ciLess · · = true) (headers.setAll es) := h.insertAll es

/-- No two entries have the same name. -/
theorem Headers.nodup {headers : Headers} (h : OrderedMap.Sorted (ciLess · · = true) headers) :
    headers.Pairwise fun e e' => ¬ SameName e.1 e'.1 :=
  h.imp fun hlt hsame => (equiv_ciLess_iff.mpr hsame).1 hlt

/-- The header order is a strict weak order whose equivalence is equality up to case, and a header
map, whatever has been assigned to it, has one entry for a name at most. -/
theorem ciLess_order :
    (∀ a, ciLess a a = false) ∧
    (∀ a b c, ciLess a b = true → ciLess b c = true → ciLess a c = true) ∧
    (∀ a b c, (ciLess a b = false ∧ ciLess b a = false) →
      (ciLess b c = false ∧ ciLess c b = false) → ciLess a c = false ∧ ciLess c a = false) ∧
    (∀ a b, (ciLess a b = false ∧ ciLess b a = false) ↔ SameName a b) ∧
    ∀ es, (Headers.setAll [] es).Pairwise fun e e' => ¬ SameName e.1 e'.1 := by
  have hequiv (a b : Bytes) : (ciLess a b = false ∧ ciLess b a = false) ↔
      OrderedMap.Equiv (ciLess · · = true) a b := by
    simp only [OrderedMap.Equiv, Bool.not_eq_true]
  refine ⟨fun a => ?_, fun a b c => ?_, fun a b c hab hbc => ?_, fun a b => ?_, fun es => ?_⟩
  · exact Bool.eq_false_iff.mpr (lexicographicalCompare_irrefl a)
  · exact lexicographicalCompare_trans
  · exact (hequiv a c).mpr (((hequiv a b).mp hab).trans ((hequiv b c).mp hbc))
  · exact (hequiv a b).trans equiv_ciLess_iff
  · exact Headers.nodup (Headers.sorted_setAll List.Pairwise.nil es)

/-! ### Bytes and texts -/

/-- The text of a byte string, a character for each byte. -/
def text (s : Bytes) : Http.Str := s.map fun c => Char.ofNat c.toNat

/-- A byte is the number of its character. -/
theorem toNat_ofNat {n : Nat} (hn : n < 256) : (Char.ofNat n).toNat = n := by
  have hvalid : n.isValidChar := .inl (by omega)
  unfold Char.ofNat
  rw [dif_pos hvalid]
  rfl

/-- Characters of bytes are ordered as the bytes are. -/
theorem ofNat_lt_ofNat {m n : Nat} (hm : m < 256) (hn : n < 256) :
    Char.ofNat m < Char.ofNat n ↔ m < n := by
  calc Char.ofNat m < Char.ofNat n
      ↔ (Char.ofNat m).toNat < (Char.ofNat n).toNat := UInt32.lt_iff_toNat_lt
    _ ↔ m < n := by rw [toNat_ofNat hm, toNat_ofNat hn]

/-- A character is made lower as its byte is. -/
theorem toLower_ofNat {c : Nat} (hc : c < 256) :
    (Char.ofNat c).toLower = Char.ofNat (tolower c) := by
  revert c
  decide +kernel

/-- A byte made lower is a byte. -/
theorem tolower_lt {c : Nat} (hc : c < 256) : tolower c < 256 := by
  unfold tolower
  split <;> omega

/-- The texts of two names are ordered as their bytes are. -/
theorem ciLess_text (a b : Bytes) : Http.ciLess (text a) (text b) ↔ ciLess a b = true := by
  have hlower (s : Bytes) :
      (text s).map Char.toLower = s.map fun c => Char.ofNat (tolower c.toNat) := by
    rw [text, List.map_map]
    exact List.map_congr_left fun c _ => toLower_ofNat c.toNat_lt
  have hlt (c1 c2 : UInt8) :
      Char.ofNat (tolower c1.toNat) < Char.ofNat (tolower c2.toNat) ↔ nocaseCompare c1 c2 :=
    ofNat_lt_ofNat (tolower_lt c1.toNat_lt) (tolower_lt c2.toNat_lt)
  have hlist : Http.ciLess (text a) (text b) ↔
      (text a).map Char.toLower < (text b).map Char.toLower := .rfl
  rw [hlist, hlower, hlower, ← lexicographicalCompare_lt, lexicographicalCompare_map]
  simp only [hlt, ciLess]

/-- Two keys are one for the map of the model when they are one for that of the code. -/
theorem equiv_ciLess_text (a b : Bytes) :
    OrderedMap.Equiv Http.ciLess (text a) (text b) ↔ OrderedMap.Equiv (ciLess · · = true) a b := by
  simp only [OrderedMap.Equiv, ciLess_text]

/-- The entries of a map as texts. -/
def Headers.texts (headers : Headers) : Http.Headers := headers.map fun e => (text e.1, text e.2)

/-- Assigning the texts is assigning the bytes. -/
theorem Headers.set_texts (headers : Headers) (key value : Bytes) :
    headers.texts.set (text key) (text value) = (headers.set key value).texts := by
  induction headers with
  | nil => rfl
  | cons e headers ih =>
    obtain ⟨k, v⟩ := e
    simp only [Headers.texts, Headers.set, Http.Headers.set, List.map_cons, OrderedMap.insert,
      ciLess_text] at ih ⊢
    split
    · rfl
    · split
      · rw [List.map_cons, ih]
      · rfl

/-- Reading the texts is reading the bytes. -/
theorem Headers.getHeader_texts (headers : Headers) (key : Bytes) :
    headers.texts.getHeader (text key) = (headers.getHeader key).map text := by
  induction headers with
  | nil => rfl
  | cons e headers ih =>
    obtain ⟨k, v⟩ := e
    simp only [Headers.texts, Headers.getHeader, Http.Headers.getHeader, List.map_cons,
      OrderedMap.find?, equiv_ciLess_text] at ih ⊢
    split
    · rfl
    · exact ih

end NodeNative.Text
