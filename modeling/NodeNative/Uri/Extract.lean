import NodeNative.Lib.CapturingGroups
import NodeNative.Uri.Parts

/-!
# Extraction

`extract` matches a path with the pattern that has a group for each parameter, and `saveValues` takes
the texts of the groups one after the other, down into the template of each format. It gets as many as
the parameters need, and the `i`-th parameter in the order of the pattern gets the `i`-th of them
(`saveValues_eq`).
-/

namespace NodeNative.Uri

open Regex Http

/-! ### Values -/

/-- The children are looked up by name only. Source: `UriTemplateValue.hpp:16`. -/
structure UriTemplateValue where
  name : Str
  value : Str
  childValues : List (Str × UriTemplateValue)

/-- Source: `UriTemplateValue.hpp:22`. -/
def UriTemplateValue.empty : UriTemplateValue := ⟨[], [], []⟩

/-- The child of a name. -/
def UriTemplateValue.child? (v : UriTemplateValue) (name : Str) : Option UriTemplateValue :=
  v.childValues.lookup name

/-- A child in place of the one that has its name. -/
def UriTemplateValue.setChild (v : UriTemplateValue) (name : Str) (child : UriTemplateValue) :
    UriTemplateValue :=
  { v with childValues := (name, child) :: v.childValues.filter (·.1 != name) }

/-- Source: `UriTemplateValue.cpp:28`. -/
def UriTemplateValue.addChild (v : UriTemplateValue) (iName iValue : Str) (replaceIfExists : Bool) :
    Except String UriTemplateValue :=
  match v.child? iName with
  | none => .ok (v.setChild iName ⟨iName, iValue, []⟩)
  | some child =>
    if replaceIfExists then .ok (v.setChild iName { child with value := iValue }) else .error "0"

/-- The text at a path of names. -/
def UriTemplateValue.at? (v : UriTemplateValue) : List Str → Option Str
  | [] => some v.value
  | name :: path => (v.child? name).bind (·.at? path)

/-- The node at a path of names. -/
def UriTemplateValue.node? (v : UriTemplateValue) : List Str → Option UriTemplateValue
  | [] => some v
  | name :: path => (v.child? name).bind (·.node? path)

/-! ### Saving -/

/-- `iMatchResults->str(ioPosition)`. Behind the last piece the code reads out of the range of an array,
which is no assertion of the code and undefined; here it is an error. Source: `Regex.cpp:42`. -/
def str (iMatchResults : List Str) (ioPosition : Nat) : Except String Str :=
  match iMatchResults[ioPosition]? with
  | some piece => .ok piece
  | none => .error "out of range"

/-- One round of the loop of `saveValues`, which calls itself for the template of the format. Source:
`UriTemplate.cpp:96-114`. -/
def saveParam (formats : Formats) (iMatchResults : List Str)
    (save : UriTemplateValue → Nat → List Str → List Str → Except String (UriTemplateValue × Nat))
    (acc : UriTemplateValue × Nat) (param : Str × Str) : Except String (UriTemplateValue × Nat) := do
  let value ← str iMatchResults acc.2
  let parsedValues ← acc.1.addChild param.1 value false
  let format ← formatOf formats param.2
  if format.isRegExOnly then return (parsedValues, acc.2 + 1)
  let (childValue, position) ←
    save ⟨param.1, value, []⟩ (acc.2 + 1) format.template.params format.template.formatNames
  return (parsedValues.setChild param.1 childValue, position)

/-- `0` says that the formats are nested deeper than expected. Source: `UriTemplate.cpp:89`. -/
def saveValuesLoop (formats : Formats) (iMatchResults : List Str) :
    Nat → UriTemplateValue → Nat → List Str → List Str → Except String (UriTemplateValue × Nat)
  | 0, _, _, _, _ => .error ""
  | n + 1, ioParsedValues, ioPosition, iParams, iFormatNames =>
    if iParams.length ≠ iFormatNames.length then .error "iParams.size() == iFormatNames.size()"
    else if iMatchResults.length < ioPosition + iParams.length then
      .error "iMatchResults->size() - ioPosition >= static_cast<int>(iParams.size())"
    else (iParams.zip iFormatNames).foldlM
      (saveParam formats iMatchResults (saveValuesLoop formats iMatchResults n))
      (ioParsedValues, ioPosition)

/-- The formats of the table are not nested deeper than it is long. -/
def saveValues (formats : Formats) (iMatchResults : List Str) :
    UriTemplateValue → Nat → List Str → List Str → Except String (UriTemplateValue × Nat) :=
  saveValuesLoop formats iMatchResults (formats.length + 2)

/-- The pieces of a match: its text and those of the groups. -/
def pieces (groups : Nat) (m : Match) : List Str := (List.range (groups + 1)).map m.str

/-- `none` is the return value `false`. Source: `UriTemplate.cpp:117` and `:215`. -/
def UriTemplate.extract (formats : Formats) (t : UriTemplate) (oValues : UriTemplateValue)
    (iUri : Str) (iAnchorEnd : Bool) : Except String (Option UriTemplateValue) :=
  match Regex.parse t.extractPattern, groupCount t.extractPattern with
  | some iExtractRegex, some groups =>
    match matchRegex iExtractRegex iUri (if iAnchorEnd then .ANCHOR_BOTH else .ANCHOR_START) with
    | none => .ok none
    | some matchResults => do
      let iMatchResults := pieces groups matchResults
      let value ← str iMatchResults 0
      let (values, _) ← saveValues formats iMatchResults { oValues with value := value } 1 t.params
        t.formatNames
      return some values
  | _, _ => .error "std::regex_error"

/-! ### Children -/

section
variable {v child child' : UriTemplateValue} {name name' : Str}

/-- The child that was set is found, -/
theorem child?_setChild_self : (v.setChild name child).child? name = some child := by
  simp [UriTemplateValue.child?, UriTemplateValue.setChild]

/-- entries under other names stay, -/
theorem lookup_filter_ne {l : List (Str × UriTemplateValue)} (h : name' ≠ name) :
    (l.filter (·.1 != name)).lookup name' = l.lookup name' := by
  induction l with
  | nil => rfl
  | cons e l ih =>
    by_cases he : e.1 = name
    · have hne : (name' == e.1) = false := beq_eq_false_iff_ne.mpr (he ▸ h)
      rw [List.filter_cons_of_neg (by simpa using he), ih, List.lookup_cons, hne]
    · rw [List.filter_cons_of_pos (by simpa using he), List.lookup_cons, List.lookup_cons, ih]

/-- and so do the other children. -/
theorem child?_setChild_of_ne (h : name' ≠ name) :
    (v.setChild name child).child? name' = v.child? name' := by
  have hne : (name' == name) = false := beq_eq_false_iff_ne.mpr h
  rw [UriTemplateValue.child?, UriTemplateValue.setChild, List.lookup_cons, hne]
  exact lookup_filter_ne h

/-- A child that is set again replaces the one before. -/
theorem setChild_setChild : (v.setChild name child').setChild name child = v.setChild name child := by
  simp [UriTemplateValue.setChild]

/-- Under a new name `addChild` sets a child. -/
theorem addChild_new (h : v.child? name = none) (iValue : Str) :
    v.addChild name iValue false = .ok (v.setChild name ⟨name, iValue, []⟩) := by
  rw [UriTemplateValue.addChild, h]

end

/-! ### The order of the parameters -/

/-- The paths of names to the parameters, in the order of the pattern. -/
def Parts.paths : Parts → List (List Str)
  | .last _ => []
  | .param _ name inner rest => [name] :: inner.paths.map (name :: ·) ++ rest.paths

section
variable {formats : Formats} {params formatNames : List Str} {matchPattern extractPattern : Str}
  {parts : Parts} {iMatchResults : List Str}

/-- Each parameter has a path. -/
theorem Parts.length_paths (parts : Parts) : parts.paths.length = parts.count := by
  induction parts with
  | last text => rfl
  | param text name inner rest ihinner ihrest =>
    simp only [paths, count, List.length_append, List.length_cons, List.length_map, ihinner, ihrest]
    omega

/-- A template has a format name for each parameter, -/
theorem Made.length_eq (h : Made formats params formatNames matchPattern extractPattern parts) :
    params.length = formatNames.length := by
  induction h with
  | last text => rfl
  | param _ _ _ _ _ ihrest => simp [ihrest]

/-- and not more parameters than groups, since formats may have parameters of their own. -/
theorem Made.length_le (h : Made formats params formatNames matchPattern extractPattern parts) :
    params.length ≤ parts.count := by
  induction h with
  | last text => exact Nat.le_refl _
  | param _ _ _ _ _ ihrest =>
    rw [List.length_cons, Parts.count]
    omega

/-- Without parameters a template is its text. -/
theorem Made.eq_last (h : Made formats [] formatNames matchPattern extractPattern parts) :
    ∃ text, parts = .last text := by
  cases h
  exact ⟨_, rfl⟩

/-- The names of the parameters themselves. -/
def Parts.names : Parts → List Str
  | .last _ => []
  | .param _ name _ rest => name :: rest.names

/-- Parameters of one template have different names. -/
def Parts.Distinct : Parts → Prop
  | .last _ => True
  | .param _ name inner rest => name ∉ rest.names ∧ inner.Distinct ∧ rest.Distinct

/-- The names of the parts are the parameters, -/
theorem Made.names_eq (h : Made formats params formatNames matchPattern extractPattern parts) :
    parts.names = params := by
  induction h with
  | last text => rfl
  | param _ _ _ _ _ ihrest => rw [Parts.names, ihrest]

/-- and no name is used twice on one level. -/
theorem Made.distinct (h : Made formats params formatNames matchPattern extractPattern parts) :
    parts.Distinct := by
  induction h with
  | last text => trivial
  | param hnew _ _ hrest ihinner ihrest => exact ⟨hrest.names_eq ▸ hnew, ihinner, ihrest⟩

/-! ### The values that are saved -/

/-- The children for the parameters, with the pieces from a position on. -/
def Parts.fill (iMatchResults : List Str) : Parts → Nat → UriTemplateValue → UriTemplateValue
  | .last _, _, v => v
  | .param _ name inner rest, position, v =>
    rest.fill iMatchResults (position + 1 + inner.count) (v.setChild name
      (inner.fill iMatchResults (position + 1) ⟨name, iMatchResults[position]?.getD [], []⟩))

/-- The children are filled in, the value is not touched, -/
theorem Parts.fill_value (position : Nat) (v : UriTemplateValue) :
    (parts.fill iMatchResults position v).value = v.value := by
  induction parts generalizing position v with
  | last text => rfl
  | param text name inner rest _ ihrest => exact ihrest _ _

/-- and neither is the name. -/
theorem Parts.fill_name (position : Nat) (v : UriTemplateValue) :
    (parts.fill iMatchResults position v).name = v.name := by
  induction parts generalizing position v with
  | last text => rfl
  | param text name inner rest _ ihrest => exact ihrest _ _

/-- The other children stay. -/
theorem Parts.child?_fill_of_notMem {name : Str} (hname : name ∉ parts.names) (position : Nat)
    (v : UriTemplateValue) :
    (parts.fill iMatchResults position v).child? name = v.child? name := by
  induction parts generalizing position v with
  | last text => rfl
  | param text name' inner rest _ ihrest =>
    obtain ⟨hne, hrest⟩ := not_or.mp (mt List.mem_cons.mpr hname)
    rw [fill, ihrest hrest, child?_setChild_of_ne hne]

/-- The child of the first parameter is not changed for the ones behind it. -/
theorem Parts.child?_fill_param {text name : Str} {inner rest : Parts} (hname : name ∉ rest.names)
    (position : Nat) (v : UriTemplateValue) :
    ((Parts.param text name inner rest).fill iMatchResults position v).child? name =
      some (inner.fill iMatchResults (position + 1)
        ⟨name, iMatchResults[position]?.getD [], []⟩) := by
  rw [fill, child?_fill_of_notMem hname, child?_setChild_self]

/-- The node of a parameter has its name and its piece. -/
theorem Parts.node?_fill (hdistinct : parts.Distinct) {position : Nat}
    (hlen : position + parts.count ≤ iMatchResults.length) (v : UriTemplateValue) {i : Nat}
    {path : List Str} (hpath : parts.paths[i]? = some path) :
    ∃ w, (parts.fill iMatchResults position v).node? path = some w ∧ path.getLast? = some w.name ∧
      iMatchResults[position + i]? = some w.value := by
  induction parts generalizing position v i path with
  | last text => cases hpath
  | param text name inner rest ihinner ihrest =>
    obtain ⟨hname, hinner, hrest⟩ := hdistinct
    rw [count] at hlen
    rw [paths, List.cons_append] at hpath
    have hvalue : position < iMatchResults.length := by omega
    have hself : ((Parts.param text name inner rest).fill iMatchResults position v).child? name =
        some (inner.fill iMatchResults (position + 1) ⟨name, iMatchResults[position]?.getD [], []⟩) :=
      child?_fill_param hname position v
    cases i with
    | zero =>
      cases hpath
      refine ⟨_, by rw [UriTemplateValue.node?, hself]; rfl, ?_, ?_⟩
      · rw [fill_name]
        rfl
      · rw [fill_value, Nat.add_zero, List.getElem?_eq_getElem hvalue]
        rfl
    | succ i =>
      rw [List.getElem?_cons_succ] at hpath
      have hlength : (inner.paths.map (name :: ·)).length = inner.count := by
        rw [List.length_map, inner.length_paths]
      rcases Nat.lt_or_ge i inner.count with hi | hi
      · rw [List.getElem?_append_left (by omega), List.getElem?_map] at hpath
        obtain ⟨path', hpath', rfl⟩ := Option.map_eq_some_iff.mp hpath
        have hlen' : position + 1 + inner.count ≤ iMatchResults.length := by omega
        obtain ⟨w, hnode, hlast, hpiece⟩ := ihinner hinner hlen'
          ⟨name, iMatchResults[position]?.getD [], []⟩ hpath'
        refine ⟨w, by rw [UriTemplateValue.node?, hself]; exact hnode, ?_, ?_⟩
        · rw [List.getLast?_cons, hlast]
          rfl
        · rw [← hpiece]
          congr 1
          omega
      · rw [List.getElem?_append_right (by omega), hlength] at hpath
        have hlen' : position + 1 + inner.count + rest.count ≤ iMatchResults.length := by omega
        obtain ⟨w, hnode, hlast, hpiece⟩ := ihrest hrest hlen' _ hpath
        refine ⟨w, hnode, hlast, ?_⟩
        rw [← hpiece]
        congr 1
        omega

/-- The text at a path is that of the node there. -/
theorem UriTemplateValue.at?_eq (v : UriTemplateValue) (path : List Str) :
    v.at? path = (v.node? path).map (·.value) := by
  induction path generalizing v with
  | nil => rfl
  | cons name path ih =>
    rw [at?, node?, Option.map_bind]
    exact congrArg _ (funext ih)

/-- The values at the paths are the pieces from a position on. -/
def Saved (iMatchResults : List Str) (position : Nat) (paths : List (List Str))
    (v : UriTemplateValue) : Prop :=
  ∀ i path, paths[i]? = some path → v.at? path = iMatchResults[position + i]?

/-- Each parameter is filled in with the text of its group. -/
theorem Parts.saved_fill (hdistinct : parts.Distinct) {position : Nat}
    (hlen : position + parts.count ≤ iMatchResults.length) (v : UriTemplateValue) :
    Saved iMatchResults position parts.paths (parts.fill iMatchResults position v) := by
  intro i path hpath
  obtain ⟨w, hnode, -, hpiece⟩ := node?_fill hdistinct hlen v hpath
  rw [UriTemplateValue.at?_eq, hnode, hpiece]
  rfl

/-- The loop over the parameters of a template. -/
theorem saveParams_eq {n : Nat}
    (h : Made formats params formatNames matchPattern extractPattern parts) (hdepth : parts.depth ≤ n)
    (v : UriTemplateValue) (position : Nat) (hnew : ∀ name ∈ params, v.child? name = none)
    (hlen : position + parts.count ≤ iMatchResults.length) :
    (params.zip formatNames).foldlM
        (saveParam formats iMatchResults (saveValuesLoop formats iMatchResults n)) (v, position) =
      .ok (parts.fill iMatchResults position v, position + parts.count) := by
  induction h generalizing n v position with
  | last text => rfl
  | @param text name formatName _ _ params formatNames f inner rest hname hformat hinner hrest
      ihinner ihrest =>
    rw [Parts.depth] at hdepth
    rw [Parts.count] at hlen
    have hvalue : position < iMatchResults.length := by omega
    have hpiece : iMatchResults[position]?.getD [] = iMatchResults[position] := by
      rw [List.getElem?_eq_getElem hvalue]
      rfl
    -- The parameter itself and those of its format.
    have hstep : saveParam formats iMatchResults (saveValuesLoop formats iMatchResults n) (v, position)
        (name, formatName) = .ok (v.setChild name (inner.fill iMatchResults (position + 1)
          ⟨name, iMatchResults[position], []⟩), position + 1 + inner.count) := by
      have hstr : str iMatchResults position = .ok iMatchResults[position] := by
        rw [str, List.getElem?_eq_getElem hvalue]
      have hadd := addChild_new (hnew name (.head _)) iMatchResults[position]
      cases hregex : f.isRegExOnly with
      | true =>
        have hempty : f.template.params = [] := by
          simpa [UriTemplateFormat.isRegExOnly] using hregex
        rw [hempty] at hinner
        obtain ⟨_, rfl⟩ := hinner.eq_last
        simp [saveParam, hstr, hadd, hformat, hregex, bind, Except.bind, pure, Except.pure, Parts.count,
          Parts.fill]
      | false =>
        obtain ⟨n, rfl⟩ : ∃ k, n = k + 1 := ⟨n - 1, by omega⟩
        have hloop := ihinner (n := n) (by omega) ⟨name, iMatchResults[position], []⟩ (position + 1)
          (fun _ _ => rfl) (by omega)
        have hasserts : ¬ iMatchResults.length < position + 1 + f.template.params.length := by
          have hle := hinner.length_le
          omega
        have hcall : saveValuesLoop formats iMatchResults (n + 1) ⟨name, iMatchResults[position], []⟩
            (position + 1) f.template.params f.template.formatNames =
              .ok (inner.fill iMatchResults (position + 1) ⟨name, iMatchResults[position], []⟩,
                position + 1 + inner.count) := by
          rw [saveValuesLoop, if_neg (not_not.mpr hinner.length_eq), if_neg hasserts, hloop]
        simp [saveParam, hstr, hadd, hformat, hregex, bind, Except.bind, pure, Except.pure, hcall,
          setChild_setChild]
    have hnew' : ∀ child name', name' ∈ params → (v.setChild name child).child? name' = none := by
      intro child name' hname'
      rw [child?_setChild_of_ne (by rintro rfl; exact hname hname')]
      exact hnew name' (.tail _ hname')
    rw [List.zip_cons_cons, List.foldlM_cons, hstep, Parts.fill, hpiece, Parts.count]
    refine (ihrest (n := n) (by omega) _ (position + 1 + inner.count) (hnew' _) (by omega)).trans ?_
    congr 2
    omega

/-- `saveValues` gets as many pieces as there are parameters, each for the path of its parameter. -/
theorem saveValues_eq (hformats : Built formats) {iTemplate : Str} {t : UriTemplate}
    (ht : UriTemplate.parse formats iTemplate = .ok t) (hparts : t.HasParts formats parts)
    (v : UriTemplateValue) (hnew : ∀ name ∈ t.params, v.child? name = none)
    (hlen : parts.count < iMatchResults.length) :
    ∃ v', saveValues formats iMatchResults v 1 t.params t.formatNames = .ok (v', 1 + parts.count) ∧
      v'.value = v.value ∧ Saved iMatchResults 1 parts.paths v' := by
  have hdepth : parts.depth ≤ formats.length + 1 := by
    obtain ⟨parts', hparts', hle⟩ := hformats.exists_parts.2 iTemplate t ht
    exact (Made.depth_eq hparts hparts').trans_le hle
  have hasserts : ¬ iMatchResults.length < 1 + t.params.length := by
    have hle := Made.length_le hparts
    omega
  have hlen' : 1 + parts.count ≤ iMatchResults.length := by omega
  refine ⟨_, ?_, parts.fill_value 1 v, Parts.saved_fill (Made.distinct hparts) hlen' v⟩
  rw [saveValues, saveValuesLoop, if_neg (not_not.mpr (Made.length_eq hparts)), if_neg hasserts,
    saveParams_eq hparts hdepth v 1 hnew hlen']

end

/-! ### Names that are taken -/

section
variable {formats : Formats} {iMatchResults : List Str} {v v' : UriTemplateValue}
  {position position' : Nat}

/-- A child can be added when its name is new. -/
theorem addChild_ok {iName iValue : Str} (h : v.addChild iName iValue false = .ok v') :
    v.child? iName = none ∧ v' = v.setChild iName ⟨iName, iValue, []⟩ := by
  unfold UriTemplateValue.addChild at h
  split at h
  · next hnew =>
    cases h
    exact ⟨hnew, rfl⟩
  · cases h

/-- A round of the loop looks up the name of its parameter in the values, and nothing else of them. -/
theorem saveParam_ok
    {save : UriTemplateValue → Nat → List Str → List Str → Except String (UriTemplateValue × Nat)}
    {param : Str × Str}
    (h : saveParam formats iMatchResults save (v, position) param = .ok (v', position')) :
    v.child? param.1 = none ∧ ∃ child, v' = v.setChild param.1 child ∧
      ∀ w : UriTemplateValue, w.child? param.1 = none →
        saveParam formats iMatchResults save (w, position) param =
          .ok (w.setChild param.1 child, position') := by
  unfold saveParam at h
  simp only [bind, Except.bind, pure, Except.pure] at h
  cases hvalue : str iMatchResults position with
  | error e => simp [hvalue] at h
  | ok value =>
    rw [hvalue] at h
    dsimp only at h
    cases hadd : v.addChild param.1 value false with
    | error e => simp [hadd] at h
    | ok v₁ =>
      rw [hadd] at h
      dsimp only at h
      obtain ⟨hnew, rfl⟩ := addChild_ok hadd
      cases hformat : formatOf formats param.2 with
      | error e => simp [hformat] at h
      | ok format =>
        rw [hformat] at h
        dsimp only at h
        refine ⟨hnew, ?_⟩
        split at h
        · next hregex =>
          cases h
          refine ⟨_, rfl, fun w hw => ?_⟩
          simp [saveParam, bind, Except.bind, pure, Except.pure, hvalue, addChild_new hw, hformat, hregex]
        · next hregex =>
          cases hsave : save ⟨param.1, value, []⟩ (position + 1) format.template.params
              format.template.formatNames with
          | error e => simp [hsave] at h
          | ok r =>
            rw [hsave] at h
            cases h
            refine ⟨r.1, setChild_setChild, fun w hw => ?_⟩
            simp [saveParam, bind, Except.bind, pure, Except.pure, hvalue, addChild_new hw, hformat,
              hregex, hsave, setChild_setChild]

/-- The names of the children after a child was set. -/
theorem child?_setChild_eq_none {name name' : Str} {child : UriTemplateValue} :
    (v.setChild name child).child? name' = none ↔ v.child? name' = none ∧ name' ≠ name := by
  rcases eq_or_ne name' name with rfl | hne
  · simp [child?_setChild_self]
  · rw [child?_setChild_of_ne hne, and_iff_left hne]

/-- The loop adds a child for each parameter, and looks up their names in the values, and nothing else
of them. -/
theorem saveParams_ok
    {save : UriTemplateValue → Nat → List Str → List Str → Except String (UriTemplateValue × Nat)}
    {params : List (Str × Str)}
    (h : params.foldlM (saveParam formats iMatchResults save) (v, position) = .ok (v', position')) :
    (params.map Prod.fst).Nodup ∧ (∀ name ∈ params.map Prod.fst, v.child? name = none) ∧
      (∀ name, v'.child? name = none ↔ v.child? name = none ∧ name ∉ params.map Prod.fst) ∧
      ∀ w : UriTemplateValue, (∀ name ∈ params.map Prod.fst, w.child? name = none) →
        ∃ w', params.foldlM (saveParam formats iMatchResults save) (w, position) = .ok (w', position') := by
  induction params generalizing v position with
  | nil =>
    cases h
    exact ⟨List.nodup_nil, by simp, by simp, fun w _ => ⟨w, rfl⟩⟩
  | cons param params ih =>
    rw [List.foldlM_cons] at h
    cases hfirst : saveParam formats iMatchResults save (v, position) param with
    | error e =>
      rw [hfirst] at h
      cases h
    | ok r =>
      obtain ⟨v₁, position₁⟩ := r
      rw [hfirst] at h
      obtain ⟨hnew, child, rfl, hany⟩ := saveParam_ok hfirst
      obtain ⟨hnodup, hfresh, hnames, hrest⟩ := ih h
      simp only [child?_setChild_eq_none] at hfresh hnames
      refine ⟨List.nodup_cons.mpr ⟨fun hmem => (hfresh _ hmem).2 rfl, hnodup⟩, fun name hname => ?_,
        fun name => ?_, fun w hw => ?_⟩
      · rcases List.mem_cons.mp hname with rfl | hname
        · exact hnew
        · exact (hfresh name hname).1
      · rw [hnames name, List.map_cons, List.mem_cons, not_or, and_assoc]
      · have hw' : ∀ name ∈ params.map Prod.fst, (w.setChild param.1 child).child? name = none := by
          intro name hname
          exact child?_setChild_eq_none.mpr ⟨hw name (.tail _ hname), (hfresh name hname).2⟩
        obtain ⟨w', hw'⟩ := hrest _ hw'
        refine ⟨w', ?_⟩
        rw [List.foldlM_cons, hany w (hw _ (.head _))]
        exact hw'

/-- `saveValues` adds a child for each parameter, and looks up their names in the values, and nothing
else of them. -/
theorem saveValues_ok {iParams iFormatNames : List Str}
    (h : saveValues formats iMatchResults v position iParams iFormatNames = .ok (v', position')) :
    iParams.Nodup ∧ (∀ name ∈ iParams, v.child? name = none) ∧
      (∀ name, v'.child? name = none ↔ v.child? name = none ∧ name ∉ iParams) ∧
      ∀ w : UriTemplateValue, (∀ name ∈ iParams, w.child? name = none) →
        ∃ w', saveValues formats iMatchResults w position iParams iFormatNames = .ok (w', position') := by
  unfold saveValues saveValuesLoop at h ⊢
  split at h
  · cases h
  · next hlength =>
    split at h
    · cases h
    · next hpieces =>
      have hparams : (iParams.zip iFormatNames).map Prod.fst = iParams :=
        List.map_fst_zip (not_not.mp hlength).le
      have hloop := saveParams_ok h
      rw [hparams] at hloop
      simpa only [if_neg hlength, if_neg hpieces] using hloop

/-- An extraction looks up the names of the parameters in the values, and nothing else of them. When it
matches it adds a child for each of them, and otherwise it leaves the values alone. -/
theorem UriTemplate.extract_ok {t : UriTemplate} {iUri : Str} {iAnchorEnd : Bool}
    {o : Option UriTemplateValue} (h : t.extract formats v iUri iAnchorEnd = .ok o) :
    (∀ v', o = some v' → t.params.Nodup ∧ (∀ name ∈ t.params, v.child? name = none) ∧
      ∀ name, v'.child? name = none ↔ v.child? name = none ∧ name ∉ t.params) ∧
    ∀ w : UriTemplateValue, (o.isSome = true → ∀ name ∈ t.params, w.child? name = none) →
      ∃ o', t.extract formats w iUri iAnchorEnd = .ok o' ∧ o'.isSome = o.isSome := by
  unfold UriTemplate.extract at h ⊢
  split at h
  · next r groups hr hgroups =>
    split at h
    · next hnone =>
      cases h
      exact ⟨nofun, fun w _ => ⟨none, by simp, rfl⟩⟩
    · next m hm =>
      simp only [bind, Except.bind, pure, Except.pure] at h
      cases hvalue : str (pieces groups m) 0 with
      | error e => simp [hvalue] at h
      | ok value =>
        rw [hvalue] at h
        dsimp only at h
        cases hsave : saveValues formats (pieces groups m) { v with value := value } 1 t.params
            t.formatNames with
        | error e => simp [hsave] at h
        | ok saved =>
          rw [hsave] at h
          cases h
          obtain ⟨hnodup, hfresh, hnames, hrest⟩ := saveValues_ok hsave
          refine ⟨?_, fun w hw => ?_⟩
          · rintro v' ⟨⟩
            exact ⟨hnodup, hfresh, hnames⟩
          · obtain ⟨w', hw'⟩ := hrest { w with value := value } (hw rfl)
            exact ⟨some w', by simp [hvalue, hw', bind, Except.bind, pure, Except.pure], rfl⟩
  · cases h

end

end NodeNative.Uri
