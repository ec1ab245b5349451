import NodeNative.Http.Incoming
import NodeNative.Lib.Transition

/-!
# The components of a URL

`UrlObject` holds a string and the table in which `http_parser_parse_url` has written down where the
components of the string are. An accessor tests a bit of the table and cuts the text that the table
delimits out of the string (`component`), or returns a default. `schema`, `path` and `query` test
the bit of the component they return; `host` tests the bit of the schema and `fragment` the bit of
the query, so these two follow the components only under a condition on which components there are
(`component_eq_iff`, `accessors_iff`).

`parse` stores the string before it asks the library about it and puts nothing back when the library
rejects it: the object then has the rejected string and the table that the library has left
(`parse_rejected`).
-/

namespace NodeNative.Http.Url

/-- The exception of `std::string::substr` for a position behind the end. -/
structure OutOfRange
deriving DecidableEq, Repr

/-- `std::string::substr(pos, n)`. -/
def substr (s : Str) (pos n : Nat) : Except OutOfRange Str :=
  if s.length < pos then .error ⟨⟩ else .ok ((s.drop pos).take n)

/-! ### The accessors -/

/-- The text that the table delimits for a component. -/
def slot (u : UrlObject) (field : UrlField) : Except OutOfRange Str :=
  substr u.buf (u.handle.off field) (u.handle.len field)

/-- An accessor for the component `field` that tests the bit of `tested`. -/
def component (u : UrlObject) (tested field : UrlField) (default : String) :
    Except OutOfRange Str :=
  if u.handle.fieldSet tested then slot u field else .ok default.toList

/-- Source: `UrlObject.cpp:26`. -/
def schema (u : UrlObject) : Except OutOfRange Str := component u .schema .schema "http"

/-- Source: `UrlObject.cpp:32`, which tests `hasSchema()`. -/
def host (u : UrlObject) : Except OutOfRange Str := component u .schema .host "localhost"

/-- Source: `UrlObject.cpp:39`. -/
def port (u : UrlObject) : Except OutOfRange Nat :=
  if u.handle.port ≠ 0 then .ok u.handle.port
  else (schema u).map fun s => if s = "http".toList then 80 else 443

/-- Source: `UrlObject.cpp:48`. -/
def path (u : UrlObject) : Except OutOfRange Str := component u .path .path "/"

/-- Source: `UrlObject.cpp:54`. -/
def query (u : UrlObject) : Except OutOfRange Str := component u .query .query ""

/-- Source: `UrlObject.cpp:60`, which tests `hasQuery()`. -/
def fragment (u : UrlObject) : Except OutOfRange Str := component u .query .fragment ""

/-- Source: `UrlObject.hpp:26`. -/
def str (u : UrlObject) : Str := u.buf

/-- `substr` gives a part from a position inside the string, -/
theorem substr_eq_ok {s t : Str} {pos n : Nat} :
    substr s pos n = .ok t ↔ pos ≤ s.length ∧ (s.drop pos).take n = t := by
  unfold substr
  split
  · simp; omega
  · simp; omega

/-- and throws behind its end. -/
theorem substr_eq_error {s : Str} {pos n : Nat} : substr s pos n = .error ⟨⟩ ↔ s.length < pos := by
  unfold substr
  split <;> simp_all

/-- The path of a message is the path of its URL when the table delimits it in the string. -/
theorem path_eq {u : UrlObject} (h : u.handle.off .path ≤ u.buf.length) :
    path u = .ok u.path := by
  unfold path component UrlObject.path
  split
  · exact substr_eq_ok.mpr ⟨h, rfl⟩
  · rfl

/-! ### Accepted strings -/

/-- What `http_parser_parse_url` promises about the strings it accepts, where `text` is the text of
each component that a string has: the bit of a component is set when the string has it, and then its
place in the table delimits its text inside the string. -/
def Delimits (P : HttpParser) (text : Str → Bool → UrlField → Option Str) : Prop :=
  ∀ s isConnect old new, P.parseUrl s isConnect old = (0, new) → ∀ field,
    (new.fieldSet field = true ↔ (text s isConnect field).isSome) ∧
    ∀ t ∈ text s isConnect field, new.off field + new.len field ≤ s.length ∧
      (s.drop (new.off field)).take (new.len field) = t

section
variable {P : HttpParser} {text : Str → Bool → UrlField → Option Str} {u u' : UrlObject} {s : Str}
  {isConnect : Bool}

/-- A URL is accepted when its parser accepts it, with the table that it gives. -/
theorem parse_eq_none_iff : u.parse P s isConnect = (none, u') ↔
    ∃ new, P.parseUrl s isConnect u.handle = (0, new) ∧ u' = ⟨new, s⟩ := by
  rcases hres : P.parseUrl s isConnect u.handle with ⟨res, new⟩
  simp only [UrlObject.parse, hres]
  by_cases h : res = 0
  · simp [h, eq_comm]
  · simp [h]

/-- When an accessor that tests one component and returns another is right about a string: the
tested component is there exactly when the returned one is, or the value of the other branch happens
to be the same. For a component that the string does not have, that branch cuts at the place which
the table of the library has for it. -/
def Agrees (text : UrlField → Option Str) (s : Str) (table : HttpParserUrl)
    (tested field : UrlField) (default : String) : Prop :=
  match text field with
  | some t => (text tested).isSome ∨ t = default.toList
  | none => text tested = none ∨ substr s (table.off field) (table.len field) = .ok default.toList

/-- An accessor returns the text of its component or its default exactly when the component it
tests agrees with it. -/
theorem component_eq_iff (hP : Delimits P text) (h : u.parse P s isConnect = (none, u'))
    (tested field : UrlField) (default : String) :
    component u' tested field default = .ok ((text s isConnect field).getD default.toList) ↔
      Agrees (text s isConnect) s (P.parseUrl s isConnect u.handle).2 tested field default := by
  obtain ⟨new, hres, rfl⟩ := parse_eq_none_iff.mp h
  obtain ⟨htested, -⟩ := hP s isConnect u.handle new hres tested
  obtain ⟨-, htext⟩ := hP s isConnect u.handle new hres field
  have hslot (t : Str) (ht : text s isConnect field = some t) : slot ⟨new, s⟩ field = .ok t := by
    obtain ⟨hle, htake⟩ := htext t ht
    exact substr_eq_ok.mpr ⟨by dsimp only; omega, htake⟩
  rw [hres]
  unfold component Agrees
  cases hbit : new.fieldSet tested with
  | true =>
    have hsome : (text s isConnect tested).isSome := htested.mp hbit
    have hne : text s isConnect tested ≠ none := Option.isSome_iff_ne_none.mp hsome
    cases ht : text s isConnect field with
    | some t => simp [hslot t ht, hsome]
    | none => simp [hne, slot]
  | false =>
    have hnone : text s isConnect tested = none := by
      rw [← Option.not_isSome_iff_eq_none, ← htested, hbit]
      exact Bool.false_ne_true
    cases ht : text s isConnect field with
    | some t => simp [hnone, eq_comm]
    | none => simp [hnone]

/-- An accessor that tests its own component is right about every string. -/
theorem component_self (hP : Delimits P text) (h : u.parse P s isConnect = (none, u'))
    (field : UrlField) (default : String) :
    component u' field field default = .ok ((text s isConnect field).getD default.toList) := by
  rw [component_eq_iff hP h]
  unfold Agrees
  cases ht : text s isConnect field with
  | some t => exact .inl rfl
  | none => exact .inl rfl

/-- The accessors follow the components of an accepted string exactly when the schema agrees with
the host and the query with the fragment. -/
theorem accessors_iff (hP : Delimits P text) (h : u.parse P s isConnect = (none, u')) :
    (schema u' = .ok ((text s isConnect .schema).getD "http".toList) ∧
      host u' = .ok ((text s isConnect .host).getD "localhost".toList) ∧
      path u' = .ok ((text s isConnect .path).getD "/".toList) ∧
      query u' = .ok ((text s isConnect .query).getD "".toList) ∧
      fragment u' = .ok ((text s isConnect .fragment).getD "".toList)) ↔
    Agrees (text s isConnect) s (P.parseUrl s isConnect u.handle).2 .schema .host "localhost" ∧
      Agrees (text s isConnect) s (P.parseUrl s isConnect u.handle).2 .query .fragment "" := by
  constructor
  · rintro ⟨-, hhost, -, -, hfragment⟩
    exact ⟨(component_eq_iff hP h _ _ _).mp hhost, (component_eq_iff hP h _ _ _).mp hfragment⟩
  · rintro ⟨hhost, hfragment⟩
    exact ⟨component_self hP h _ _, (component_eq_iff hP h _ _ _).mpr hhost,
      component_self hP h _ _, component_self hP h _ _, (component_eq_iff hP h _ _ _).mpr hfragment⟩

end

/-! ### Rejected strings -/

section
variable {P : HttpParser} {u u' : UrlObject} {s : Str} {isConnect : Bool}

/-- A call of `parse` that does not throw. -/
def parseStep (P : HttpParser) (u : UrlObject) (arg : Str × Bool) : Option UrlObject :=
  match u.parse P arg.1 arg.2 with
  | (none, u') => some u'
  | (some _, _) => none

/-- The string of an object is the one that was parsed last. -/
theorem str_of_run {args : List (Str × Bool)} (h : Transition.run (parseStep P) u args = some u') :
    str u' = (args.getLast?.map (·.1)).getD (str u) := by
  induction args generalizing u with
  | nil => cases h; rfl
  | cons arg args ih =>
    rw [Transition.run_cons] at h
    obtain ⟨m, hm, hr⟩ := Option.bind_eq_some_iff.mp h
    have hstr : str m = arg.1 := by
      unfold parseStep at hm
      split at hm
      · rename_i hparse
        obtain ⟨new, -, heq⟩ := parse_eq_none_iff.mp hparse
        cases hm
        rw [heq]; rfl
      · cases hm
    rw [ih hr, hstr, List.getLast?_cons]
    cases args.getLast? <;> rfl

/-- Where the value of an accessor comes from: the default when the tested bit is not set, else the
part of the string that the table delimits, unless it starts behind the end. -/
def ReadsFrom (s : Str) (table : HttpParserUrl) (tested field : UrlField) (default : String)
    (value : Except OutOfRange Str) : Prop :=
  table.fieldSet tested = false ∧ value = .ok default.toList ∨
  table.fieldSet tested = true ∧ s.length < table.off field ∧ value = .error ⟨⟩ ∨
  table.fieldSet tested = true ∧ ∃ pre t post, s = pre ++ t ++ post ∧
    pre.length = table.off field ∧ t.length = min (table.len field) (s.length - pre.length) ∧
    value = .ok t

/-- Every accessor reads the string and the table that the object has. -/
theorem component_readsFrom (u : UrlObject) (tested field : UrlField) (default : String) :
    ReadsFrom u.buf u.handle tested field default (component u tested field default) := by
  unfold ReadsFrom component
  cases u.handle.fieldSet tested with
  | false => exact .inl ⟨rfl, rfl⟩
  | true =>
    by_cases hoff : u.buf.length < u.handle.off field
    · exact .inr (.inl ⟨rfl, hoff, substr_eq_error.mpr hoff⟩)
    · refine .inr (.inr ⟨rfl, u.buf.take (u.handle.off field),
        (u.buf.drop (u.handle.off field)).take (u.handle.len field),
        (u.buf.drop (u.handle.off field)).drop (u.handle.len field), ?_, ?_, ?_, ?_⟩)
      · rw [List.append_assoc, List.take_append_drop, List.take_append_drop]
      · rw [List.length_take]; omega
      · rw [List.length_take, List.length_take, List.length_drop]; omega
      · exact substr_eq_ok.mpr ⟨by omega, rfl⟩

/-- What is left of an object when the library rejects a string: the string is the rejected one, and
every accessor reads it through the table that the library has left. -/
theorem parse_rejected {args : List (Str × Bool)} {res : Int} {table : HttpParserUrl}
    (hu : Transition.run (parseStep P) UrlObject.new args = some u)
    (hres : P.parseUrl s isConnect u.handle = (res, table)) (hne : res ≠ 0) :
    ∃ u', u.parse P s isConnect = (some UrlParseException, u') ∧
      str u' = s ∧ (str u' = str u ↔ s = (args.getLast?.map (·.1)).getD []) ∧
      ReadsFrom s table .schema .schema "http" (schema u') ∧
      ReadsFrom s table .schema .host "localhost" (host u') ∧
      ReadsFrom s table .path .path "/" (path u') ∧
      ReadsFrom s table .query .query "" (query u') ∧
      ReadsFrom s table .query .fragment "" (fragment u') ∧
      port u' = if table.port ≠ 0 then .ok table.port
        else (schema u').map fun t => if t = "http".toList then 80 else 443 := by
  have hread := component_readsFrom (⟨table, s⟩ : UrlObject)
  refine ⟨⟨table, s⟩, ?_, rfl, ?_, hread _ _ _, hread _ _ _, hread _ _ _, hread _ _ _,
    hread .query .fragment "", rfl⟩
  · simp only [UrlObject.parse, hres, ne_eq, hne, not_false_eq_true, if_true]
  · rw [str_of_run hu]
    rfl

end

/-! ### Examples -/

/-- The number that decimal digits stand for. -/
def decimal (digits : Str) : Nat := digits.foldl (fun n c => 10 * n + (c.toNat - 48)) 0

/-- A library that knows some strings by the places of their components. Like
`http_parser_parse_url` it clears the bits and the port first, and leaves the places of the
components that it does not find. -/
def placesParser (places : Str → Bool → Option (UrlField → Option (Nat × Nat))) : HttpParser where
  State := Unit
  init := ()
  execute _ s := ((), [], s.length)
  parseUrl s isConnect old :=
    match places s isConnect with
    | none => (1, { old with fieldSet := fun _ => false, port := 0 })
    | some place =>
      (0, { fieldSet := fun field => (place field).isSome
            off := fun field => ((place field).map (·.1)).getD (old.off field)
            len := fun field => ((place field).map (·.2)).getD (old.len field)
            port := decimal (((place .port).map fun at' => (s.drop at'.1).take at'.2).getD []) })
  methodStr _ := []

/-- The text of the components of the strings that such a library knows. -/
def placesText (places : Str → Bool → Option (UrlField → Option (Nat × Nat))) (s : Str)
    (isConnect : Bool) (field : UrlField) : Option Str :=
  (places s isConnect).bind fun place => (place field).map fun at' => (s.drop at'.1).take at'.2

/-- A parser that places the components inside the string delimits them, -/
theorem delimits_placesParser {places : Str → Bool → Option (UrlField → Option (Nat × Nat))}
    (hin : ∀ s isConnect place field at', places s isConnect = some place →
      place field = some at' → at'.1 + at'.2 ≤ s.length) :
    Delimits (placesParser places) (placesText places) := by
  intro s isConnect old new hres field
  cases hplace : places s isConnect with
  | none => simp [placesParser, hplace] at hres
  | some place =>
    simp only [placesParser, hplace, Prod.mk.injEq, true_and] at hres
    subst hres
    simp only [placesText, hplace, Option.bind_some]
    cases hat : place field with
    | none => simp
    | some at' => simpa using hin s isConnect place field at' hplace hat

/-- The places of a target with a fragment, of one with a query, and of the target of a tunnel. -/
def samplePlaces (s : Str) (isConnect : Bool) : Option (UrlField → Option (Nat × Nat)) :=
  if s = "/a#b".toList ∧ isConnect = false then some fun
    | .path => some (0, 2)
    | .fragment => some (3, 1)
    | _ => none
  else if s = "/a?q".toList ∧ isConnect = false then some fun
    | .path => some (0, 2)
    | .query => some (3, 1)
    | _ => none
  else if s = "h:443".toList ∧ isConnect = true then some fun
    | .host => some (0, 1)
    | .port => some (2, 3)
    | _ => none
  else none

/-- and so does the one of the sample. -/
theorem delimits_sample : Delimits (placesParser samplePlaces) (placesText samplePlaces) := by
  refine delimits_placesParser fun s isConnect place field at' hplace hat => ?_
  unfold samplePlaces at hplace
  split at hplace
  · rename_i h
    obtain ⟨rfl, -⟩ := h
    cases hplace
    cases field <;> cases hat <;> decide
  · split at hplace
    · rename_i h
      obtain ⟨rfl, -⟩ := h
      cases hplace
      cases field <;> cases hat <;> decide
    · split at hplace
      · rename_i h
        obtain ⟨rfl, -⟩ := h
        cases hplace
        cases field <;> cases hat <;> decide
      · cases hplace

/-- A new object after it has parsed one of these strings. -/
def sampleUrl (s : String) (isConnect : Bool) : UrlObject :=
  (UrlObject.new.parse (placesParser samplePlaces) s.toList isConnect).2

/-- A target with a query and no fragment. -/
theorem accessors_query :
    schema (sampleUrl "/a?q" false) = .ok "http".toList ∧
      host (sampleUrl "/a?q" false) = .ok "localhost".toList ∧
      path (sampleUrl "/a?q" false) = .ok "/a".toList ∧
      query (sampleUrl "/a?q" false) = .ok "q".toList ∧
      fragment (sampleUrl "/a?q" false) = .ok "".toList := by
  have hparse : UrlObject.new.parse (placesParser samplePlaces) "/a?q".toList false =
      (none, sampleUrl "/a?q" false) := rfl
  refine (accessors_iff delimits_sample hparse).mpr ⟨?_, ?_⟩
  · exact .inl rfl
  · exact .inr rfl

/-- A fragment without a query is not returned, nor is a host without a schema. -/
theorem accessors_fragment :
    (placesText samplePlaces "/a#b".toList false .fragment = some "b".toList ∧
      fragment (sampleUrl "/a#b" false) = .ok []) ∧
    (placesText samplePlaces "h:443".toList true .host = some "h".toList ∧
      host (sampleUrl "h:443" true) = .ok "localhost".toList) ∧
    ¬ ∀ P text, Delimits P text → ∀ (u u' : UrlObject) s isConnect,
      u.parse P s isConnect = (none, u') →
        schema u' = .ok ((text s isConnect .schema).getD "http".toList) ∧
        host u' = .ok ((text s isConnect .host).getD "localhost".toList) ∧
        path u' = .ok ((text s isConnect .path).getD "/".toList) ∧
        query u' = .ok ((text s isConnect .query).getD "".toList) ∧
        fragment u' = .ok ((text s isConnect .fragment).getD "".toList) := by
  refine ⟨⟨by decide, rfl⟩, ⟨by decide, rfl⟩, fun hall => ?_⟩
  obtain ⟨-, -, -, -, hfragment⟩ := hall _ _ delimits_sample UrlObject.new (sampleUrl "/a#b" false)
    "/a#b".toList false rfl
  have hempty : fragment (sampleUrl "/a#b" false) = .ok [] := rfl
  rw [hempty] at hfragment
  revert hfragment
  decide

/-- An object that has parsed a target and then a blank, which the library rejects. -/
theorem parse_rejected_blank :
    ∃ u', (sampleUrl "/a?q" false).parse (placesParser samplePlaces) " ".toList false =
        (some UrlParseException, u') ∧ str u' = " ".toList ∧ path u' = .ok "/".toList := by
  have hrun : Transition.run (parseStep (placesParser samplePlaces)) UrlObject.new
      [("/a?q".toList, false)] = some (sampleUrl "/a?q" false) := rfl
  have hres : (placesParser samplePlaces).parseUrl " ".toList false
      (sampleUrl "/a?q" false).handle =
        (1, { (sampleUrl "/a?q" false).handle with fieldSet := fun _ => false, port := 0 }) := rfl
  obtain ⟨u', hparse, hstr, -, -, -, hpath, -⟩ := parse_rejected hrun hres (by decide)
  refine ⟨u', hparse, hstr, ?_⟩
  rcases hpath with ⟨-, hpath⟩ | ⟨hbit, -⟩ | ⟨hbit, -⟩
  · exact hpath
  · cases hbit
  · cases hbit

/-- The object does not keep the target. -/
theorem parse_changes_url :
    ¬ ∀ (P : HttpParser) args (u : UrlObject) s isConnect,
      Transition.run (parseStep P) UrlObject.new args = some u →
      (P.parseUrl s isConnect u.handle).1 ≠ 0 →
      ∃ u', u.parse P s isConnect = (some UrlParseException, u') ∧ str u' = str u ∧
        schema u' = schema u ∧ host u' = host u ∧ port u' = port u ∧ path u' = path u ∧
        query u' = query u ∧ fragment u' = fragment u := by
  intro hall
  obtain ⟨u', hparse, hstr, -⟩ := hall (placesParser samplePlaces) [("/a?q".toList, false)]
    (sampleUrl "/a?q" false) " ".toList false rfl (by decide)
  have hu' : u' = ((sampleUrl "/a?q" false).parse (placesParser samplePlaces)
      " ".toList false).2 := by rw [hparse]
  rw [hu'] at hstr
  revert hstr
  decide

end NodeNative.Http.Url
