import NodeNative.Http.Dispatch
import NodeNative.Uri.Extract
import NodeNative.Uri.PrefixMount

/-!
# Extracting the templates of a dispatch

`execute` extracts the template of every callback that matches, and all of them write their parameters
into the one `UriTemplateValue` of the request. A call of `uri.extract` looks up the names of the
parameters that it adds in these values, and nothing else of them. So it succeeds exactly when these
names are new and all its other checks succeed, which are those that it makes on values without children
(`Extraction.run_iff`).
-/

namespace NodeNative.Http

open Uri (Formats UriTemplate UriTemplateValue CallbackDataBase)

/-! ### The code -/

/-- A call of `uri.extract` in `execute`: the table of the formats, the template of the callback and the
path. -/
structure Extraction where
  formats : Formats
  uri : UriTemplate
  iUriPath : Str

/-- The call on the values of the request; its result is not used. Source: `ServerPlugin.cpp:91`. -/
def Extraction.run (e : Extraction) (values : UriTemplateValue) : Except String UriTemplateValue :=
  (e.uri.extract e.formats values e.iUriPath false).map (·.getD values)

/-- A registered callback, whose pattern is an expression. -/
def entryTemplate (formats : Formats) (c : CallbackDataBase) : Template UriTemplateValue where
  matchUri path := (c.matchUri path).toOption.join
  extract path := Extraction.run ⟨formats, c.uri, path⟩

/-! ### What an extraction asks for -/

/-- The extraction on values without children. -/
def Extraction.alone (e : Extraction) : Except String (Option UriTemplateValue) :=
  e.uri.extract e.formats .empty e.iUriPath false

/-- All checks of `uri.extract` succeed but for the names that the values have: the pattern is an
expression, its match has enough groups, the formats are known, and no parameter occurs twice. -/
def Extraction.Checked (e : Extraction) : Prop := ∃ o, e.alone = .ok o

/-- The names that the extraction adds: those of the parameters when the pattern matches. -/
def Extraction.added (e : Extraction) : List Str :=
  match e.alone with
  | .ok (some _) => e.uri.params
  | _ => []

/-- The names are pairwise distinct, and new to the values. -/
def Admits (values : UriTemplateValue) (names : List Str) : Prop :=
  names.Nodup ∧ ∀ name ∈ names, values.child? name = none

section
variable {e : Extraction} {values values' : UriTemplateValue}

/-- Only names of parameters are added. -/
theorem Extraction.added_subset {name : Str} (hname : name ∈ e.added) : name ∈ e.uri.params := by
  unfold added at hname
  split at hname
  · exact hname
  · cases hname

/-- Each name is added once. -/
theorem Extraction.added_nodup (e : Extraction) : e.added.Nodup := by
  unfold added
  split
  · next v h => exact ((UriTemplate.extract_ok h).1 v rfl).1
  · exact List.nodup_nil

/-- An extraction that succeeds has succeeded on the values without children too, and matches there if
it has matched. -/
theorem Extraction.alone_of_run (h : e.run values = .ok values') : ∃ o o',
    e.uri.extract e.formats values e.iUriPath false = .ok o ∧ values' = o.getD values ∧
      e.alone = .ok o' ∧ o'.isSome = o.isSome := by
  unfold run at h
  cases ho : e.uri.extract e.formats values e.iUriPath false with
  | error condition =>
    rw [ho] at h
    cases h
  | ok o =>
    rw [ho] at h
    cases h
    obtain ⟨o', halone, hsome⟩ := (UriTemplate.extract_ok ho).2 .empty fun _ _ _ => rfl
    exact ⟨o, o', rfl, rfl, halone, hsome⟩

/-- An extraction succeeds exactly when its other checks do and the names that it adds are new. -/
theorem Extraction.run_iff : (∃ values', e.run values = .ok values') ↔
    e.Checked ∧ ∀ name ∈ e.added, values.child? name = none := by
  constructor
  · rintro ⟨values', h⟩
    obtain ⟨o, o', ho, -, halone, hsome⟩ := alone_of_run h
    refine ⟨⟨o', halone⟩, fun name hname => ?_⟩
    rw [added, halone] at hname
    cases o' with
    | none => cases hname
    | some v' =>
      obtain ⟨v, rfl⟩ := Option.isSome_iff_exists.mp hsome.symm
      exact ((UriTemplate.extract_ok ho).1 v rfl).2.1 name hname
  · rintro ⟨⟨o, halone⟩, hnew⟩
    have hnew' : o.isSome = true → ∀ name ∈ e.uri.params, values.child? name = none := by
      intro hsome name hname
      obtain ⟨v, rfl⟩ := Option.isSome_iff_exists.mp hsome
      rw [added, halone] at hnew
      exact hnew name hname
    obtain ⟨o', ho', -⟩ := (UriTemplate.extract_ok halone).2 values hnew'
    exact ⟨o'.getD values, by rw [run, ho']; rfl⟩

/-- The names after an extraction. -/
theorem Extraction.child?_run (h : e.run values = .ok values') (name : Str) :
    values'.child? name = none ↔ values.child? name = none ∧ name ∉ e.added := by
  obtain ⟨o, o', ho, rfl, halone, hsome⟩ := alone_of_run h
  rw [added, halone]
  cases o with
  | none =>
    obtain rfl : o' = none := Option.isNone_iff_eq_none.mp (by simpa using hsome)
    simp
  | some v =>
    obtain ⟨v', rfl⟩ := Option.isSome_iff_exists.mp hsome
    exact ((UriTemplate.extract_ok ho).1 v rfl).2.2 name

/-- Names can be admitted one list after the other. -/
theorem admits_append {names : List Str}
    (hnames : ∀ name, values'.child? name = none ↔ values.child? name = none ∧ name ∉ names)
    (rest : List Str) : Admits values (names ++ rest) ↔ Admits values names ∧ Admits values' rest := by
  unfold Admits
  rw [List.nodup_append]
  constructor
  · rintro ⟨⟨h₁, h₂, h₃⟩, hnew⟩
    refine ⟨⟨h₁, fun n hn => hnew n (List.mem_append_left _ hn)⟩, h₂, fun n hn => ?_⟩
    exact (hnames n).mpr ⟨hnew n (List.mem_append_right _ hn), fun hmem => h₃ n hmem n hn rfl⟩
  · rintro ⟨⟨h₁, hnew⟩, h₂, hrest⟩
    refine ⟨⟨h₁, h₂, fun a ha b hb hab => ?_⟩, fun n hn => ?_⟩
    · exact ((hnames b).mp (hrest b hb)).2 (hab ▸ ha)
    · rcases List.mem_append.mp hn with hn | hn
      · exact hnew n hn
      · exact ((hnames n).mp (hrest n hn)).1

/-- A further list of names is admitted without the first one. -/
theorem Admits.right {names rest : List Str} (h : Admits values (names ++ rest)) : Admits values rest :=
  ⟨(List.nodup_append.mp h.1).2.1, fun name hname => h.2 name (List.mem_append_right _ hname)⟩

/-- Where names are free for more names, they are for fewer. -/
theorem Admits.left {names rest : List Str} (h : Admits values (names ++ rest)) : Admits values names :=
  ⟨(List.nodup_append.mp h.1).1, fun name hname => h.2 name (List.mem_append_left _ hname)⟩

end

end NodeNative.Http
