import NodeNative.Uri.Groups

/-!
# Extraction and the table of formats

A template keeps the pattern that it got from the formats at its construction, but `saveValues` looks
the formats up by name again. What it saves is as before exactly when the later table has all the
formats, and gives each path that has a value the same piece of the match (`extract_stable_iff`): after
`ClearGlobalFormats` the names may be missing, or stand for other parameters.

The engine of the regular expressions is a parameter.
-/

namespace NodeNative.Uri

open Regex Http

/-! ### The table -/

/-- A call that changes the table. -/
inductive TableCall
  | addGlobalFormat (iFormatName iTemplate : Str)
  | clearGlobalFormats

/-- A call whose assertion fails leaves the table. Source: `UriTemplateFormat.cpp:48` and
`UriTemplateFormat.hpp:77`. -/
def tableCall (formats : Formats) : TableCall → Formats
  | .addGlobalFormat iFormatName iTemplate =>
    match addGlobalFormat formats iFormatName iTemplate with
    | .ok formats' => formats'
    | .error _ => formats
  | .clearGlobalFormats => []

section
variable {formats : Formats}

/-- A call leaves the table one that calls make, -/
theorem Built.tableCall (h : Built formats) (call : TableCall) : Built (tableCall formats call) := by
  cases call with
  | addGlobalFormat iFormatName iTemplate =>
    rw [Uri.tableCall]
    cases hadd : Uri.addGlobalFormat formats iFormatName iTemplate with
    | error _ => exact h
    | ok formats' => exact .add h hadd
  | clearGlobalFormats => exact .nil

/-- and so do any number of calls. -/
theorem Built.tableCalls (h : Built formats) (calls : List TableCall) :
    Built (calls.foldl Uri.tableCall formats) := by
  induction calls generalizing formats with
  | nil => exact h
  | cons call calls ih => exact ih (h.tableCall call)

end

/-! ### Extraction with any engine -/

/-- What an engine makes of a pattern and a text, with an anchor at the end or not: the text of the
match and those of the groups. The first `none` is an exception. -/
abbrev Engine := Str → Str → Bool → Option (Option (Str × List Str))

/-- `none` is the exception of the engine. Source: `UriTemplate.cpp:117` and `:215`. -/
def UriTemplate.extractWith (engine : Engine) (formats : Formats) (t : UriTemplate)
    (oValues : UriTemplateValue) (iUri : Str) (iAnchorEnd : Bool) :
    Option (Except String (Option UriTemplateValue)) :=
  (engine t.extractPattern iUri iAnchorEnd).map fun
    | none => .ok none
    | some (text, groups) => do
      let (values, _) ← saveValues formats (text :: groups) { oValues with value := text } 1 t.params
        t.formatNames
      return some values

/-- The engine of the expressions that are modelled. -/
def backtracking : Engine := fun extractPattern iUri iAnchorEnd =>
  match Regex.parse extractPattern, groupCount extractPattern with
  | some iExtractRegex, some groups =>
    some ((matchRegex iExtractRegex iUri (if iAnchorEnd then .ANCHOR_BOTH else .ANCHOR_START)).map
      fun m => (m.text, (List.range groups).map fun i => m.str (i + 1)))
  | _, _ => none

/-- A match gives its text and then its groups. -/
theorem pieces_eq (groups : Nat) (m : Match) :
    pieces groups m = m.text :: (List.range groups).map fun i => m.str (i + 1) := by
  rw [pieces, List.range_succ_eq_map, List.map_cons, List.map_map]
  rfl

/-- `extract` is `extractWith` the engine of the standard library. -/
theorem extract_eq (formats : Formats) (t : UriTemplate) (oValues : UriTemplateValue) (iUri : Str)
    (iAnchorEnd : Bool) : t.extract formats oValues iUri iAnchorEnd =
      (t.extractWith backtracking formats oValues iUri iAnchorEnd).getD (.error "std::regex_error") := by
  rw [UriTemplate.extract, UriTemplate.extractWith, backtracking]
  cases Regex.parse t.extractPattern with
  | none => rfl
  | some iExtractRegex =>
    cases groupCount t.extractPattern with
    | none => rfl
    | some groups =>
      cases hmatch : matchRegex iExtractRegex iUri (if iAnchorEnd then .ANCHOR_BOTH else .ANCHOR_START) with
      | none => simp only [hmatch, Option.map_none, Option.map_some, Option.getD_some]
      | some matchResults =>
        simp only [hmatch, Option.map_some, Option.getD_some, pieces_eq]
        rfl

/-! ### The same tree -/

/-- The same names and values at all paths: a map has no order of its own. -/
def UriTemplateValue.Same (v v' : UriTemplateValue) : Prop :=
  ∀ path, (v.node? path).map (fun w => (w.name, w.value)) =
    (v'.node? path).map (fun w => (w.name, w.value))

/-- Two extractions do the same, and neither fails an assertion. -/
def Agree : Option (Except String (Option UriTemplateValue)) →
    Option (Except String (Option UriTemplateValue)) → Prop
  | none, none => True
  | some (.ok none), some (.ok none) => True
  | some (.ok (some v)), some (.ok (some v')) => v.Same v'
  | _, _ => False

/-- The paths that two lists have in common are all, and have the same pieces. -/
def SamePieces (groups : List Str) (paths paths' : List (List Str)) : Prop :=
  (∀ path, path ∈ paths ↔ path ∈ paths') ∧
    ∀ (i j : Nat) (path : List Str), paths[i]? = some path → paths'[j]? = some path → groups[i]? = groups[j]?

section
variable {parts parts' : Parts} {text : Str} {groups : List Str} {position : Nat}

/-- A path begins with a name of the template. -/
theorem Parts.name_of_mem_paths {path : List Str} (h : path ∈ parts.paths) :
    ∃ name rest, path = name :: rest ∧ name ∈ parts.names := by
  induction parts generalizing path with
  | last text => cases h
  | param text name inner rest _ ihrest =>
    rw [paths, List.cons_append, List.mem_cons, List.mem_append, List.mem_map] at h
    obtain rfl | ⟨path', -, rfl⟩ | hrest := h
    · exact ⟨name, [], rfl, .head _⟩
    · exact ⟨name, path', rfl, .head _⟩
    · obtain ⟨name', rest', rfl, hname⟩ := ihrest hrest
      exact ⟨name', rest', rfl, .tail _ hname⟩

/-- There is nothing else below a parameter. -/
theorem Parts.node?_fill_eq_none {iMatchResults : List Str} (hdistinct : parts.Distinct)
    (v : UriTemplateValue) {name : Str} {path : List Str} (hname : name ∈ parts.names)
    (hpath : name :: path ∉ parts.paths) :
    (parts.fill iMatchResults position v).node? (name :: path) = none := by
  induction parts generalizing position v name path with
  | last text => cases hname
  | param text name' inner rest ihinner ihrest =>
    obtain ⟨hnew, hinner, hrest⟩ := hdistinct
    rw [paths, List.cons_append, List.mem_cons, List.mem_append, not_or, not_or] at hpath
    obtain ⟨hself, hpath, hbehind⟩ := hpath
    rcases List.mem_cons.mp hname with rfl | hname
    · rw [UriTemplateValue.node?, child?_fill_param hnew, Option.bind_some]
      cases path with
      | nil => exact absurd rfl hself
      | cons name' path =>
        have hnot : name' :: path ∉ inner.paths := fun hmem => hpath (List.mem_map_of_mem hmem)
        rcases Classical.em (name' ∈ inner.names) with hmem | hmem
        · exact ihinner hinner _ hmem hnot
        · rw [UriTemplateValue.node?, child?_fill_of_notMem hmem]
          rfl
    · exact ihrest hrest _ hname hbehind

/-- Two trees that are filled for the same parameters are the same exactly when their paths and pieces
are. -/
theorem Parts.same_fill_iff (hnames : parts.names = parts'.names) (hdistinct : parts.Distinct)
    (hdistinct' : parts'.Distinct) (hlen : parts.count ≤ groups.length)
    (hlen' : parts'.count ≤ groups.length) (v : UriTemplateValue) :
    (parts.fill (text :: groups) 1 v).Same (parts'.fill (text :: groups) 1 v) ↔
      SamePieces groups parts.paths parts'.paths := by
  have hsize : 1 + parts.count ≤ (text :: groups).length := by
    rw [List.length_cons]
    omega
  have hsize' : 1 + parts'.count ≤ (text :: groups).length := by
    rw [List.length_cons]
    omega
  constructor
  · intro hsame
    -- A path of one of them has a node in both, so it is a path of the other one.
    have hpaths : ∀ {parts parts' : Parts}, parts.names = parts'.names → parts.Distinct →
        parts'.Distinct → 1 + parts.count ≤ (text :: groups).length →
        (parts.fill (text :: groups) 1 v).Same (parts'.fill (text :: groups) 1 v) →
        ∀ path ∈ parts.paths, path ∈ parts'.paths := by
      intro parts parts' hnames hdistinct hdistinct' hsize hsame path hmem
      obtain ⟨i, hi⟩ := List.getElem?_of_mem hmem
      obtain ⟨w, hnode, -, -⟩ := Parts.node?_fill hdistinct hsize v hi
      obtain ⟨name, rest, rfl, hname⟩ := Parts.name_of_mem_paths hmem
      by_contra hnot
      have hnone : (parts'.fill (text :: groups) 1 v).node? (name :: rest) = none :=
        Parts.node?_fill_eq_none hdistinct' v (hnames ▸ hname) hnot
      have heq := hsame (name :: rest)
      rw [hnode, hnone] at heq
      cases heq
    refine ⟨fun path => ⟨hpaths hnames hdistinct hdistinct' hsize hsame path,
      hpaths hnames.symm hdistinct' hdistinct hsize' (fun path => (hsame path).symm) path⟩, ?_⟩
    intro i j path hi hj
    obtain ⟨w, hnode, -, hpiece⟩ := Parts.node?_fill hdistinct hsize v hi
    obtain ⟨w', hnode', -, hpiece'⟩ := Parts.node?_fill hdistinct' hsize' v hj
    have heq := hsame path
    rw [hnode, hnode'] at heq
    have hvalue : w.value = w'.value := congrArg Prod.snd (Option.some.inj heq)
    rw [Nat.add_comm, List.getElem?_cons_succ] at hpiece hpiece'
    rw [hpiece, hpiece', hvalue]
  · rintro ⟨hpaths, hpieces⟩ path
    cases path with
    | nil =>
      rw [UriTemplateValue.node?, UriTemplateValue.node?, Option.map_some, Option.map_some,
        Parts.fill_name, Parts.fill_name, Parts.fill_value, Parts.fill_value]
    | cons name path =>
      rcases Classical.em (name ∈ parts.names) with hname | hname
      · rcases Classical.em (name :: path ∈ parts.paths) with hmem | hmem
        · obtain ⟨i, hi⟩ := List.getElem?_of_mem hmem
          obtain ⟨j, hj⟩ := List.getElem?_of_mem ((hpaths _).mp hmem)
          obtain ⟨w, hnode, hlast, hpiece⟩ := Parts.node?_fill hdistinct hsize v hi
          obtain ⟨w', hnode', hlast', hpiece'⟩ := Parts.node?_fill hdistinct' hsize' v hj
          have hname : w.name = w'.name := Option.some.inj (hlast.symm.trans hlast')
          rw [Nat.add_comm, List.getElem?_cons_succ] at hpiece hpiece'
          have hvalue : w.value = w'.value :=
            Option.some.inj (hpiece.symm.trans ((hpieces i j _ hi hj).trans hpiece'))
          rw [hnode, hnode', Option.map_some, Option.map_some, hname, hvalue]
        · rw [Parts.node?_fill_eq_none hdistinct v hname hmem,
            Parts.node?_fill_eq_none hdistinct' v (hnames ▸ hname) (mt (hpaths _).mpr hmem)]
      · rw [UriTemplateValue.node?, UriTemplateValue.node?, Parts.child?_fill_of_notMem hname,
          Parts.child?_fill_of_notMem (hnames ▸ hname)]

end

/-! ### What `saveValues` needs -/

/-- The parts of a template when its formats are looked up in a table. -/
def UriTemplate.ReadAs (formats : Formats) (t : UriTemplate) (parts : Parts) : Prop :=
  ∃ matchPattern extractPattern,
    Made formats t.params t.formatNames matchPattern extractPattern parts

section
variable {formats : Formats} {params formatNames : List Str} {matchPattern extractPattern : Str}
  {parts : Parts} {iMatchResults : List Str}

/-- The parameters of a template have different names, -/
theorem Made.nodup (h : Made formats params formatNames matchPattern extractPattern parts) :
    params.Nodup := by
  induction h with
  | last text => exact .nil
  | param hnew _ _ _ _ ihrest => exact List.nodup_cons.mpr ⟨hnew, ihrest⟩

/-- and their formats are found. -/
theorem Made.found (h : Made formats params formatNames matchPattern extractPattern parts) :
    ∀ formatName ∈ formatNames, ∃ f, formatOf formats formatName = .ok f := by
  induction h with
  | last text => nofun
  | param _ hformat _ _ _ ihrest => exact List.forall_mem_cons.mpr ⟨⟨_, hformat⟩, ihrest⟩

/-- Where the table has all the formats there are parts. -/
theorem Built.exists_made (h : Built formats) (hlength : params.length = formatNames.length)
    (hnodup : params.Nodup) (hfound : ∀ formatName ∈ formatNames, ∃ f, formatOf formats formatName = .ok f) :
    ∃ matchPattern extractPattern parts,
      Made formats params formatNames matchPattern extractPattern parts ∧
        parts.depth ≤ formats.length + 1 := by
  induction params generalizing formatNames with
  | nil =>
    obtain rfl : formatNames = [] := List.length_eq_zero_iff.mp hlength.symm
    exact ⟨[], [], .last [], .last [], Nat.zero_le _⟩
  | cons name params ih =>
    cases formatNames with
    | nil => cases hlength
    | cons formatName formatNames =>
      obtain ⟨hnew, hnodup⟩ := List.nodup_cons.mp hnodup
      obtain ⟨⟨f, hf⟩, hfound⟩ := List.forall_mem_cons.mp hfound
      obtain ⟨inner, hinner, hle⟩ := h.exists_parts.1 formatName f hf
      obtain ⟨_, _, rest, hrest, hle'⟩ := ih (Nat.succ.inj hlength) hnodup hfound
      refine ⟨_, _, .param [] name inner rest, .param hnew hf hinner hrest, ?_⟩
      rw [Parts.depth]
      omega

/-- Formats are nested at most as deep as the table is long. -/
theorem Made.depth_le (hformats : Built formats)
    (h : Made formats params formatNames matchPattern extractPattern parts) :
    parts.depth ≤ formats.length + 1 := by
  obtain ⟨_, _, parts', h', hle⟩ := hformats.exists_made h.length_eq h.nodup h.found
  rwa [h.depth_eq h']

/-- A result of two steps is one of both. -/
theorem Except.bind_eq_ok {α β : Type} {x : Except String α} {f : α → Except String β} {b : β}
    (h : x >>= f = .ok b) : ∃ a, x = .ok a ∧ f a = .ok b := by
  cases x with
  | error message => cases h
  | ok a => exact ⟨a, rfl, h⟩

/-- What a round needs. -/
theorem saveParam_eq_ok
    {save : UriTemplateValue → Nat → List Str → List Str → Except String (UriTemplateValue × Nat)}
    {v v' : UriTemplateValue} {position position' : Nat} {name formatName : Str}
    (h : saveParam formats iMatchResults save (v, position) (name, formatName) = .ok (v', position')) :
    ∃ hvalue : position < iMatchResults.length, v.child? name = none ∧
      ∃ f, formatOf formats formatName = .ok f ∧ ∃ child, v' = v.setChild name child ∧
        if f.isRegExOnly then position' = position + 1
        else save ⟨name, iMatchResults[position], []⟩ (position + 1) f.template.params
          f.template.formatNames = .ok (child, position') := by
  rw [saveParam] at h
  obtain ⟨value, hvalue, h⟩ := Except.bind_eq_ok h
  obtain ⟨parsedValues, hadd, h⟩ := Except.bind_eq_ok h
  obtain ⟨f, hformat, h⟩ := Except.bind_eq_ok h
  rw [str] at hvalue
  split at hvalue
  · next piece hpiece =>
    cases hvalue
    obtain ⟨hlt, rfl⟩ := List.getElem?_eq_some_iff.mp hpiece
    rw [UriTemplateValue.addChild] at hadd
    split at hadd
    · next hnew =>
      cases hadd
      refine ⟨hlt, hnew, f, hformat, ?_⟩
      split at h
      · next hregex =>
        cases h
        exact ⟨_, rfl, by rw [if_pos hregex]⟩
      · next hregex =>
        obtain ⟨⟨child, position''⟩, hsave, h⟩ := Except.bind_eq_ok h
        cases h
        exact ⟨child, setChild_setChild, by rw [if_neg hregex]; exact hsave⟩
    · cases hadd
  · cases hvalue

/-- A loop that ends has found the formats. -/
theorem found_of_saveParams {n : Nat} {v v' : UriTemplateValue} {position position' : Nat}
    (hlength : params.length = formatNames.length)
    (h : (params.zip formatNames).foldlM
      (saveParam formats iMatchResults (saveValuesLoop formats iMatchResults n)) (v, position) =
        .ok (v', position')) :
    ∀ formatName ∈ formatNames, ∃ f, formatOf formats formatName = .ok f := by
  induction params generalizing formatNames v position with
  | nil =>
    obtain rfl : formatNames = [] := List.length_eq_zero_iff.mp hlength.symm
    nofun
  | cons name params ih =>
    cases formatNames with
    | nil => cases hlength
    | cons formatName formatNames =>
      rw [List.zip_cons_cons, List.foldlM_cons] at h
      obtain ⟨⟨v₁, position₁⟩, hround, h⟩ := Except.bind_eq_ok h
      obtain ⟨-, -, f, hformat, -⟩ := saveParam_eq_ok hround
      exact List.forall_mem_cons.mpr ⟨⟨f, hformat⟩, ih (Nat.succ.inj hlength) h⟩

/-- A loop that ends has had a piece for each parameter, and their names were new. -/
theorem fits_of_saveParams {n : Nat}
    (h : Made formats params formatNames matchPattern extractPattern parts) (hdepth : parts.depth ≤ n)
    {v v' : UriTemplateValue} {position position' : Nat} (hposition : position ≤ iMatchResults.length)
    (hloop : (params.zip formatNames).foldlM
      (saveParam formats iMatchResults (saveValuesLoop formats iMatchResults n)) (v, position) =
        .ok (v', position')) :
    position + parts.count ≤ iMatchResults.length ∧ ∀ name ∈ params, v.child? name = none := by
  induction h generalizing n v v' position position' with
  | last text => exact ⟨hposition, nofun⟩
  | @param text name formatName _ _ params formatNames f inner rest hname hformat hinner hrest
      ihinner ihrest =>
    rw [Parts.depth] at hdepth
    rw [List.zip_cons_cons, List.foldlM_cons] at hloop
    obtain ⟨⟨v₁, position₁⟩, hround, hloop⟩ := Except.bind_eq_ok hloop
    obtain ⟨hvalue, hnew, f', hformat', child, rfl, hsave⟩ := saveParam_eq_ok hround
    cases hformat.symm.trans hformat'
    have hinner' : position₁ = position + 1 + inner.count ∧ position₁ ≤ iMatchResults.length := by
      cases hregex : f.isRegExOnly with
      | true =>
        rw [if_pos hregex] at hsave
        have hempty : f.template.params = [] := by
          simpa [UriTemplateFormat.isRegExOnly] using hregex
        rw [hempty] at hinner
        obtain ⟨_, rfl⟩ := hinner.eq_last
        exact ⟨hsave, by omega⟩
      | false =>
        rw [hregex, if_neg Bool.false_ne_true] at hsave
        obtain ⟨n, rfl⟩ : ∃ k, n = k + 1 := ⟨n - 1, by omega⟩
        rw [saveValuesLoop] at hsave
        split at hsave
        · cases hsave
        · split at hsave
          · cases hsave
          · obtain ⟨hfits, -⟩ := ihinner (n := n) (by omega) hvalue hsave
            have hfilled := saveParams_eq hinner (n := n) (by omega) ⟨name, iMatchResults[position], []⟩
              (position + 1) (fun _ _ => rfl) hfits
            cases hsave.symm.trans hfilled
            exact ⟨rfl, hfits⟩
    obtain ⟨hfits, hnew'⟩ := ihrest (n := n) (by omega) hinner'.2 hloop
    refine ⟨by rw [Parts.count]; omega, List.forall_mem_cons.mpr ⟨hnew, fun name' hname' => ?_⟩⟩
    have hne : name' ≠ name := by
      rintro rfl
      exact hname hname'
    rw [← child?_setChild_of_ne hne]
    exact hnew' name' hname'

variable {t : UriTemplate} {v : UriTemplateValue}

/-- The values that are saved for the parts that a template has in the table. -/
theorem saveValues_readAs (hformats : Built formats) (hparts : t.ReadAs formats parts)
    (hnew : ∀ name ∈ t.params, v.child? name = none) (hlen : parts.count < iMatchResults.length) :
    saveValues formats iMatchResults v 1 t.params t.formatNames =
      .ok (parts.fill iMatchResults 1 v, 1 + parts.count) := by
  obtain ⟨_, _, hmade⟩ := hparts
  have hasserts : ¬ iMatchResults.length < 1 + t.params.length := by
    have hle := hmade.length_le
    omega
  rw [saveValues, saveValuesLoop, if_neg (not_not.mpr hmade.length_eq), if_neg hasserts]
  exact saveParams_eq hmade (hmade.depth_le hformats) v 1 hnew (by omega)

/-- Saving succeeds only where the table has the formats, there are enough groups, and the names are
new. -/
theorem readAs_of_saveValues (hformats : Built formats) (hlength : t.params.length = t.formatNames.length)
    (hnodup : t.params.Nodup) {r : UriTemplateValue × Nat} (hne : iMatchResults ≠ [])
    (h : saveValues formats iMatchResults v 1 t.params t.formatNames = .ok r) :
    ∃ parts, t.ReadAs formats parts ∧ parts.count < iMatchResults.length ∧
      ∀ name ∈ t.params, v.child? name = none := by
  rw [saveValues, saveValuesLoop, if_neg (not_not.mpr hlength)] at h
  split at h
  · cases h
  · have hfound := found_of_saveParams hlength h
    obtain ⟨matchPattern, extractPattern, parts, hmade, hdepth⟩ :=
      hformats.exists_made hlength hnodup hfound
    obtain ⟨hfits, hnew⟩ := fits_of_saveParams hmade hdepth (List.length_pos_iff.mpr hne) h
    exact ⟨parts, ⟨_, _, hmade⟩, by omega, hnew⟩

end

/-! ### Later tables -/

/-- What `extract` makes of a match. -/
def saved (formats : Formats) (t : UriTemplate) (oValues : UriTemplateValue) (text : Str)
    (groups : List Str) : Except String (Option UriTemplateValue) :=
  (saveValues formats (text :: groups) { oValues with value := text } 1 t.params t.formatNames).map
    fun r => some r.1

section
variable {engine : Engine} {formats formats' : Formats} {t : UriTemplate} {oValues : UriTemplateValue}
  {iUri text : Str} {iAnchorEnd : Bool} {groups : List Str} {parts : Parts}

/-- Where the engine finds a match, `extract` saves it. -/
theorem extractWith_match
    (hmatch : engine t.extractPattern iUri iAnchorEnd = some (some (text, groups))) :
    t.extractWith engine formats oValues iUri iAnchorEnd = some (saved formats t oValues text groups) := by
  rw [UriTemplate.extractWith, hmatch, Option.map_some, saved]
  dsimp only
  cases saveValues formats (text :: groups) { oValues with value := text } 1 t.params t.formatNames <;>
    rfl

/-- A match with enough groups is saved under new names, -/
theorem saved_readAs (hformats : Built formats) (hparts : t.ReadAs formats parts)
    (hnew : ∀ name ∈ t.params, oValues.child? name = none) (hlen : parts.count ≤ groups.length) :
    saved formats t oValues text groups =
      .ok (some (parts.fill (text :: groups) 1 { oValues with value := text })) := by
  have hnew' : ∀ name ∈ t.params,
      UriTemplateValue.child? { oValues with value := text } name = none := hnew
  have hlt : parts.count < (text :: groups).length := Nat.lt_succ_of_le hlen
  rw [saved, saveValues_readAs hformats hparts hnew' hlt]
  rfl

/-- and only such a match is saved. -/
theorem readAs_of_saved (hformats : Built formats) (hlength : t.params.length = t.formatNames.length)
    (hnodup : t.params.Nodup) {result : Option UriTemplateValue}
    (h : saved formats t oValues text groups = .ok result) :
    ∃ parts, t.ReadAs formats parts ∧ parts.count ≤ groups.length ∧
      ∀ name ∈ t.params, oValues.child? name = none := by
  rw [saved] at h
  cases hsave : saveValues formats (text :: groups) { oValues with value := text } 1 t.params
      t.formatNames with
  | error message =>
    rw [hsave] at h
    cases h
  | ok r =>
    obtain ⟨parts, hparts, hlt, hnew⟩ :=
      readAs_of_saveValues hformats hlength hnodup (List.cons_ne_nil _ _) hsave
    exact ⟨parts, hparts, Nat.le_of_lt_succ hlt, hnew⟩

/-- What agrees with another extraction of a match has saved its values. -/
theorem Agree.exists_saved {result result' : Except String (Option UriTemplateValue)}
    (h : Agree (some result) (some result')) : ∃ values values', result = .ok values ∧
      result' = .ok values' := by
  cases result with
  | error message => exact h.elim
  | ok values =>
    cases result' with
    | error message =>
      cases values <;> exact h.elim
    | ok values' => exact ⟨_, _, rfl, rfl⟩

end

/-- In a later table `extract` does what it did in the table of the construction, and fails no
assertion, exactly when there is no match, or the names of the parameters are new and the later table
has all the formats, with enough groups for their parameters and the same pieces for the same paths. -/
theorem extract_stable_iff (engine : Engine) {formats : Formats} (hformats : Built formats)
    {iTemplate : Str} {t : UriTemplate} (ht : UriTemplate.parse formats iTemplate = .ok t)
    (calls : List TableCall) (oValues : UriTemplateValue) (iUri : Str) (iAnchorEnd : Bool) :
    Agree (t.extractWith engine formats oValues iUri iAnchorEnd)
        (t.extractWith engine (calls.foldl tableCall formats) oValues iUri iAnchorEnd) ↔
      ∀ text groups, engine t.extractPattern iUri iAnchorEnd = some (some (text, groups)) →
        (∀ name ∈ t.params, oValues.child? name = none) ∧
        ∃ parts parts', t.ReadAs formats parts ∧ t.ReadAs (calls.foldl tableCall formats) parts' ∧
          parts.count ≤ groups.length ∧ parts'.count ≤ groups.length ∧
          SamePieces groups parts.paths parts'.paths := by
  have hformats' : Built (calls.foldl tableCall formats) := hformats.tableCalls calls
  generalize calls.foldl tableCall formats = formats' at hformats'
  obtain ⟨_, hmade, -⟩ := hformats.exists_parts.2 iTemplate t ht
  -- The two trees, where both tables have the formats.
  have hsame : ∀ {text groups parts parts'}, t.ReadAs formats parts → t.ReadAs formats' parts' →
      parts.count ≤ groups.length → parts'.count ≤ groups.length →
      ((parts.fill (text :: groups) 1 { oValues with value := text }).Same
        (parts'.fill (text :: groups) 1 { oValues with value := text }) ↔
          SamePieces groups parts.paths parts'.paths) := by
    rintro text groups parts parts' ⟨_, _, hparts⟩ ⟨_, _, hparts'⟩ hlen hlen'
    have hnames : parts.names = parts'.names := hparts.names_eq.trans hparts'.names_eq.symm
    exact Parts.same_fill_iff hnames hparts.distinct hparts'.distinct hlen hlen' _
  cases hmatch : engine t.extractPattern iUri iAnchorEnd with
  | none =>
    rw [UriTemplate.extractWith, UriTemplate.extractWith, hmatch]
    exact iff_of_true trivial nofun
  | some found =>
    cases found with
    | none =>
      rw [UriTemplate.extractWith, UriTemplate.extractWith, hmatch]
      exact iff_of_true trivial nofun
    | some found =>
      obtain ⟨text, groups⟩ := found
      rw [extractWith_match hmatch, extractWith_match hmatch]
      constructor
      · intro hagree text' groups' heq
        cases heq
        obtain ⟨values, values', hsaved, hsaved'⟩ := hagree.exists_saved
        obtain ⟨parts, hparts, hlen, hnew⟩ :=
          readAs_of_saved hformats hmade.length_eq hmade.nodup hsaved
        obtain ⟨parts', hparts', hlen', -⟩ :=
          readAs_of_saved hformats' hmade.length_eq hmade.nodup hsaved'
        rw [saved_readAs hformats hparts hnew hlen, saved_readAs hformats' hparts' hnew hlen'] at hagree
        exact ⟨hnew, parts, parts', hparts, hparts', hlen, hlen',
          (hsame hparts hparts' hlen hlen').mp hagree⟩
      · intro hall
        obtain ⟨hnew, parts, parts', hparts, hparts', hlen, hlen', hpieces⟩ := hall text groups rfl
        rw [saved_readAs hformats hparts hnew hlen, saved_readAs hformats' hparts' hnew hlen']
        exact (hsame hparts hparts' hlen hlen').mpr hpieces

/-- A format that is added later does not change what is extracted. -/
theorem extract_stable_iff_code :
    Agree (codeTemplate.extractWith backtracking codeFormats .empty "/AB".toList true)
        (codeTemplate.extractWith backtracking ([.addGlobalFormat "n".toList "[0-9]+".toList].foldl
          tableCall codeFormats) .empty "/AB".toList true) ↔
      ∀ text groups,
        backtracking codeTemplate.extractPattern "/AB".toList true = some (some (text, groups)) →
        (∀ name ∈ codeTemplate.params, UriTemplateValue.empty.child? name = none) ∧
        ∃ parts parts', codeTemplate.ReadAs codeFormats parts ∧
          codeTemplate.ReadAs ([.addGlobalFormat "n".toList "[0-9]+".toList].foldl tableCall codeFormats)
            parts' ∧
          parts.count ≤ groups.length ∧ parts'.count ≤ groups.length ∧
          SamePieces groups parts.paths parts'.paths :=
  extract_stable_iff backtracking codeFormats_built codeTemplate_parse _ _ _ _

/-- The format of the template is gone. -/
theorem extract_cleared : UriTemplate.parse codeFormats "/\x7bc:code\x7d".toList = .ok codeTemplate ∧
    ¬ Agree (codeTemplate.extractWith backtracking codeFormats .empty "/AB".toList true)
      (codeTemplate.extractWith backtracking ([.clearGlobalFormats].foldl tableCall codeFormats) .empty
        "/AB".toList true) := by
  refine ⟨codeTemplate_parse, fun hagree => ?_⟩
  have hfails : codeTemplate.extractWith backtracking ([.clearGlobalFormats].foldl tableCall codeFormats)
      .empty "/AB".toList true = some (.error "0") := rfl
  have hsaves : ∃ values, codeTemplate.extractWith backtracking codeFormats .empty "/AB".toList true =
      some (.ok (some values)) := ⟨_, rfl⟩
  obtain ⟨values, hsaves⟩ := hsaves
  rw [hfails, hsaves] at hagree
  exact hagree

end NodeNative.Uri
