import Mathlib.Logic.Relation
import NodeNative.Uri.Tables

/-!
# References between formats

The template of a format may refer to other formats by name, and there is no check for cycles:
`AddGlobalFormat` constructs the template against the table, which has to have the formats that it
refers to, before it stores the new format under a name that must be new. So a failing call leaves
the table alone (`addGlobalFormat_error`), and whatever calls have built the table, a format was added
after all those that its template refers to, directly or through other formats
(`reached_refers`). The order in which the formats were added is therefore a measure for the
recursion of `saveValues`, which has no other bound: on a template of the current table it ends
after as many levels as there are formats, and two more (`saveValuesLoop_enough`).
-/

namespace NodeNative.Uri

open Http

/-! ### The global table -/

/-- Code that reads and writes the table of `GetGlobalFormats`. An assertion that fails keeps what was
written before it. -/
abbrev FormatsM := EStateM String Formats

/-- Source: `UriTemplateFormat.cpp:48`. The constructor of the format parses the template. -/
def UriTemplateFormat.addGlobalFormat (iFormatName iTemplate : Str) : FormatsM Unit := do
  if ((← get).lookup iFormatName).isSome then
    throw "0"
  let newgrobalFormat ← match UriTemplate.parse (← get) iTemplate with
    | .ok template => pure (⟨iFormatName, template⟩ : UriTemplateFormat)
    | .error condition => throw condition
  modify fun formats => (iFormatName, newgrobalFormat) :: formats

/-- Source: `UriTemplateFormat.hpp:77`. -/
def UriTemplateFormat.clearGlobalFormats : FormatsM Unit := set ([] : Formats)

/-- The code of a call. -/
def TableCall.run : TableCall → FormatsM Unit
  | .addGlobalFormat iFormatName iTemplate =>
    UriTemplateFormat.addGlobalFormat iFormatName iTemplate
  | .clearGlobalFormats => UriTemplateFormat.clearGlobalFormats

/-- The call on the global table is the function on tables, and fails with the table as it was. -/
theorem addGlobalFormat_run (formats : Formats) (iFormatName iTemplate : Str) :
    (UriTemplateFormat.addGlobalFormat iFormatName iTemplate).run formats =
      match addGlobalFormat formats iFormatName iTemplate with
      | .ok formats' => .ok () formats'
      | .error condition => .error condition formats := by
  unfold UriTemplateFormat.addGlobalFormat addGlobalFormat
  cases hlookup : formats.lookup iFormatName with
  | some f => simp [hlookup]
  | none =>
    cases hparse : UriTemplate.parse formats iTemplate with
    | ok t => simp [hlookup, hparse, Except.map]
    | error condition =>
      simp only [EStateM.run_bind, EStateM.run_get, hlookup, hparse, Option.isSome_none,
        Bool.false_eq_true, if_false, Except.map]
      rfl

/-- A failing call leaves the table. -/
theorem addGlobalFormat_error {formats formats' : Formats} {iFormatName iTemplate : Str}
    {condition : String}
    (h : (UriTemplateFormat.addGlobalFormat iFormatName iTemplate).run formats =
      .error condition formats') : formats' = formats := by
  rw [addGlobalFormat_run] at h
  split at h
  · cases h
  · cases h
    rfl

/-- The table after a call, whether it fails or not. -/
theorem run_tableCall (formats : Formats) (call : TableCall) :
    (call.run.run formats = .ok () (tableCall formats call)) ∨
      ∃ condition, call.run.run formats = .error condition (tableCall formats call) := by
  cases call with
  | addGlobalFormat iFormatName iTemplate =>
    rw [TableCall.run, addGlobalFormat_run, tableCall]
    cases addGlobalFormat formats iFormatName iTemplate with
    | ok formats' => exact .inl rfl
    | error condition => exact .inr ⟨condition, rfl⟩
  | clearGlobalFormats => exact .inl rfl

/-! ### References -/

/-- The table after some calls, of which any may have failed. -/
def reached (calls : List TableCall) : Formats := calls.foldl tableCall []

/-- The template of a stored format refers to a format by name. The empty name is the one of
`simpleFormat`, which is not in the table. -/
def Refers (formats : Formats) (iFormatName formatName : Str) : Prop :=
  ∃ f, formats.lookup iFormatName = some f ∧ formatName ∈ f.template.formatNames ∧ formatName ≠ []

/-- The format was added by the call at an index, and the table was not cleared since. -/
def AddedAt (calls : List TableCall) (i : Nat) (iFormatName : Str) : Prop :=
  (∃ iTemplate formats', calls[i]? = some (.addGlobalFormat iFormatName iTemplate) ∧
    addGlobalFormat (reached (calls.take i)) iFormatName iTemplate = .ok formats') ∧
  ∀ j, i < j → calls[j]? ≠ some .clearGlobalFormats

section
variable {calls : List TableCall} {call : TableCall} {formats : Formats} {i : Nat}
  {iFormatName formatName iTemplate : Str}

@[simp] theorem reached_append_singleton :
    reached (calls ++ [call]) = tableCall (reached calls) call := by
  simp only [reached, List.foldl_append, List.foldl_cons, List.foldl_nil]

/-- The call is one of the calls. -/
theorem AddedAt.lt_length (h : AddedAt calls i iFormatName) : i < calls.length := by
  obtain ⟨⟨iTemplate, formats', hcall, -⟩, -⟩ := h
  exact (List.getElem?_eq_some_iff.mp hcall).1

/-- Which formats were added after one more call. -/
theorem addedAt_append_singleton : AddedAt (calls ++ [call]) i iFormatName ↔
    (call ≠ .clearGlobalFormats ∧ AddedAt calls i iFormatName) ∨
    i = calls.length ∧ ∃ iTemplate formats', call = .addGlobalFormat iFormatName iTemplate ∧
      addGlobalFormat (reached calls) iFormatName iTemplate = .ok formats' := by
  have hlast : (calls ++ [call])[calls.length]? = some call := by simp
  constructor
  · rintro ⟨⟨iTemplate, formats', hcall, hadd⟩, hclear⟩
    have hle : i < (calls ++ [call]).length := (List.getElem?_eq_some_iff.mp hcall).1
    rw [List.length_append, List.length_singleton] at hle
    rcases Nat.lt_succ_iff_lt_or_eq.mp hle with hlt | rfl
    · refine .inl ⟨?_, ⟨iTemplate, formats', ?_, ?_⟩, fun j hj hcleared => ?_⟩
      · rintro rfl
        exact hclear calls.length hlt hlast
      · rwa [List.getElem?_append_left hlt] at hcall
      · rwa [List.take_append_of_le_length hlt.le] at hadd
      · refine hclear j hj ?_
        rw [List.getElem?_append_left (List.getElem?_eq_some_iff.mp hcleared).1]
        exact hcleared
    · rw [hlast] at hcall
      rw [List.take_left] at hadd
      exact .inr ⟨rfl, iTemplate, formats', Option.some.inj hcall, hadd⟩
  · rintro (⟨hne, hadded⟩ | ⟨rfl, iTemplate, formats', rfl, hadd⟩)
    · have hlt := hadded.lt_length
      obtain ⟨⟨iTemplate, formats', hcall, hadd⟩, hclear⟩ := hadded
      refine ⟨⟨iTemplate, formats', ?_, ?_⟩, fun j hj hcleared => ?_⟩
      · rwa [List.getElem?_append_left hlt]
      · rwa [List.take_append_of_le_length hlt.le]
      · rcases Nat.lt_or_ge j calls.length with hjlt | hjge
        · rw [List.getElem?_append_left hjlt] at hcleared
          exact hclear j hj hcleared
        · have hjle := (List.getElem?_eq_some_iff.mp hcleared).1
          rw [List.length_append, List.length_singleton] at hjle
          obtain rfl : j = calls.length := by omega
          rw [hlast] at hcleared
          exact hne (Option.some.inj hcleared)
    · refine ⟨⟨iTemplate, formats', hlast, by rwa [List.take_left]⟩, fun j hj hcleared => ?_⟩
      have hjle := (List.getElem?_eq_some_iff.mp hcleared).1
      rw [List.length_append, List.length_singleton] at hjle
      omega

/-- A template that is accepted refers to formats of the table. -/
theorem isSome_lookup_of_parse {t : UriTemplate} (ht : UriTemplate.parse formats iTemplate = .ok t)
    (hmem : formatName ∈ t.formatNames) (hne : formatName ≠ []) :
    (formats.lookup formatName).isSome := by
  obtain ⟨-, ps, rest, h⟩ := extends_of_parse ht
  rw [h.formatNames, List.nil_append] at hmem
  obtain ⟨e, he, rfl⟩ := List.mem_map.mp hmem
  rcases formatOf_eq_ok (h.formats e he) with ⟨heq, -⟩ | ⟨-, hlookup⟩
  · exact absurd heq hne
  · rw [hlookup]
    rfl

/-- What every sequence of calls makes of the table: the stored formats are those that were added
since the last clear, and a format refers to formats that were added before it. -/
structure Ordered (calls : List TableCall) : Prop where
  stored : ∀ iFormatName,
    ((reached calls).lookup iFormatName).isSome ↔ ∃ i, AddedAt calls i iFormatName
  refers : ∀ iFormatName formatName, Refers (reached calls) iFormatName formatName →
    ((reached calls).lookup formatName).isSome ∧
      ∀ i, AddedAt calls i iFormatName → ∃ j < i, AddedAt calls j formatName

/-- No calls are in order, -/
theorem Ordered.nil : Ordered [] where
  stored iFormatName := by
    refine ⟨fun h => absurd h Bool.false_ne_true, ?_⟩
    rintro ⟨i, h⟩
    exact absurd h.lt_length (Nat.not_lt_zero i)
  refers iFormatName formatName := by
    rintro ⟨f, hlookup, -⟩
    cases hlookup

/-- and so are calls that end with a clear. -/
theorem Ordered.clear (calls : List TableCall) : Ordered (calls ++ [.clearGlobalFormats]) := by
  have hnot (i : Nat) (iFormatName : Str) :
      ¬ AddedAt (calls ++ [.clearGlobalFormats]) i iFormatName := by
    rw [addedAt_append_singleton]
    rintro (⟨hne, -⟩ | ⟨-, _, _, hcall, -⟩)
    · exact hne rfl
    · cases hcall
  have hempty : reached (calls ++ [.clearGlobalFormats]) = [] := reached_append_singleton
  constructor
  · intro iFormatName
    rw [hempty]
    exact iff_of_false Bool.false_ne_true fun ⟨i, h⟩ => hnot i _ h
  · rintro iFormatName formatName ⟨f, hlookup, -⟩
    rw [hempty] at hlookup
    cases hlookup

/-- A call that fails. -/
theorem Ordered.fails (h : Ordered calls) {condition : String}
    (hadd : Uri.addGlobalFormat (reached calls) iFormatName iTemplate = .error condition) :
    Ordered (calls ++ [.addGlobalFormat iFormatName iTemplate]) := by
  have hreached : reached (calls ++ [.addGlobalFormat iFormatName iTemplate]) = reached calls := by
    rw [reached_append_singleton, tableCall, hadd]
  have hadded (i : Nat) (n : Str) :
      AddedAt (calls ++ [.addGlobalFormat iFormatName iTemplate]) i n ↔ AddedAt calls i n := by
    rw [addedAt_append_singleton]
    constructor
    · rintro (⟨-, hold⟩ | ⟨-, _, _, hcall, hok⟩)
      · exact hold
      · cases hcall
        rw [hadd] at hok
        cases hok
    · intro hold
      exact .inl ⟨by rintro ⟨⟩, hold⟩
  constructor
  · simpa only [hreached, hadded] using h.stored
  · simpa only [hreached, hadded] using h.refers

/-- A call that adds a format: the formats that it refers to were there. -/
theorem Ordered.adds (h : Ordered calls) {formats' : Formats}
    (hadd : Uri.addGlobalFormat (reached calls) iFormatName iTemplate = .ok formats') :
    Ordered (calls ++ [.addGlobalFormat iFormatName iTemplate]) := by
  obtain ⟨hnew, t, ht, rfl⟩ := addGlobalFormat_eq_ok hadd
  have hreached : reached (calls ++ [.addGlobalFormat iFormatName iTemplate]) =
      (iFormatName, ⟨iFormatName, t⟩) :: reached calls := by
    rw [reached_append_singleton, tableCall, hadd]
  have hadded (i : Nat) (n : Str) :
      AddedAt (calls ++ [.addGlobalFormat iFormatName iTemplate]) i n ↔
        AddedAt calls i n ∨ i = calls.length ∧ n = iFormatName := by
    rw [addedAt_append_singleton]
    constructor
    · rintro (⟨-, hold⟩ | ⟨rfl, _, _, hcall, -⟩)
      · exact .inl hold
      · cases hcall
        exact .inr ⟨rfl, rfl⟩
    · rintro (hold | ⟨rfl, rfl⟩)
      · exact .inl ⟨by rintro ⟨⟩, hold⟩
      · exact .inr ⟨rfl, iTemplate, _, rfl, hadd⟩
  -- The new name was not there before, so it was not added before either.
  have hfresh (i : Nat) : ¬ AddedAt calls i iFormatName := by
    intro hold
    have hstored := (h.stored iFormatName).mpr ⟨i, hold⟩
    rw [hnew] at hstored
    cases hstored
  have hlookup (n : Str) : ((iFormatName, (⟨iFormatName, t⟩ : UriTemplateFormat)) ::
      reached calls).lookup n = if n = iFormatName then some ⟨iFormatName, t⟩
        else (reached calls).lookup n := by
    rw [List.lookup_cons]
    split <;> simp_all
  have hkeeps {n : Str} (hn : ((reached calls).lookup n).isSome) :
      (((iFormatName, (⟨iFormatName, t⟩ : UriTemplateFormat)) ::
        reached calls).lookup n).isSome := by
    rw [hlookup]
    split
    · rfl
    · exact hn
  constructor
  · intro n
    rw [hreached, hlookup]
    split
    · rename_i hn
      exact iff_of_true rfl ⟨calls.length, (hadded _ _).mpr (.inr ⟨rfl, hn⟩)⟩
    · rename_i hn
      rw [h.stored]
      refine exists_congr fun i => ?_
      rw [hadded, or_iff_left fun hnew => hn hnew.2]
  · rintro n m ⟨f, hf, hmem, hne⟩
    rw [hreached, hlookup] at hf
    rw [hreached]
    split at hf
    · rename_i hn
      cases hf
      have hm : ((reached calls).lookup m).isSome := isSome_lookup_of_parse ht hmem hne
      refine ⟨hkeeps hm, fun i hi => ?_⟩
      obtain ⟨j, hj⟩ := (h.stored m).mp hm
      rcases (hadded i n).mp hi with hold | ⟨rfl, -⟩
      · exact absurd (hn ▸ hold) (hfresh i)
      · exact ⟨j, hj.lt_length, (hadded j m).mpr (.inl hj)⟩
    · rename_i hn
      obtain ⟨hm, hbefore⟩ := h.refers n m ⟨f, hf, hmem, hne⟩
      refine ⟨hkeeps hm, fun i hi => ?_⟩
      rcases (hadded i n).mp hi with hold | ⟨-, heq⟩
      · obtain ⟨j, hlt, hj⟩ := hbefore i hold
        exact ⟨j, hlt, (hadded j m).mpr (.inl hj)⟩
      · exact absurd heq hn

/-- Every sequence of calls. -/
theorem ordered (calls : List TableCall) : Ordered calls := by
  induction calls using List.reverseRecOn with
  | nil => exact .nil
  | append_singleton calls call ih =>
    cases call with
    | clearGlobalFormats => exact .clear calls
    | addGlobalFormat iFormatName iTemplate =>
      cases hadd : Uri.addGlobalFormat (reached calls) iFormatName iTemplate with
      | ok formats' => exact ih.adds hadd
      | error condition => exact ih.fails hadd

/-- Through any chain of references the formats were added earlier and earlier. -/
theorem reached_refers (h : Relation.TransGen (Refers (reached calls)) iFormatName formatName) :
    ((reached calls).lookup iFormatName).isSome ∧ ((reached calls).lookup formatName).isSome ∧
      ∀ i, AddedAt calls i iFormatName → ∃ j < i, AddedAt calls j formatName := by
  induction h with
  | single href =>
    obtain ⟨hstored, hbefore⟩ := (ordered calls).refers _ _ href
    obtain ⟨f, hlookup, -⟩ := href
    exact ⟨by rw [hlookup]; rfl, hstored, hbefore⟩
  | tail _ href ih =>
    obtain ⟨hstored, hbefore⟩ := (ordered calls).refers _ _ href
    refine ⟨ih.1, hstored, fun i hi => ?_⟩
    obtain ⟨j, hlt, hj⟩ := ih.2.2 i hi
    obtain ⟨k, hlt', hk⟩ := hbefore j hj
    exact ⟨k, hlt'.trans hlt, hk⟩

/-- References are well-founded: by the index of the call that added a format. -/
theorem wellFounded_refers (calls : List TableCall) :
    WellFounded fun formatName iFormatName => Refers (reached calls) iFormatName formatName := by
  have hadded (i : Nat) : ∀ n, AddedAt calls i n →
      Acc (fun formatName iFormatName => Refers (reached calls) iFormatName formatName) n := by
    induction i using Nat.strong_induction_on with
    | _ i ih =>
      refine fun n hi => ⟨n, fun m href => ?_⟩
      obtain ⟨j, hlt, hj⟩ := ((ordered calls).refers n m href).2 i hi
      exact ih j hlt m hj
  refine ⟨fun n => ⟨n, fun m href => ?_⟩⟩
  obtain ⟨i, hi⟩ := ((ordered calls).stored m).mp ((ordered calls).refers n m href).1
  exact hadded i m hi

end

/-! ### The recursion of `saveValues` -/

section
variable {formats : Formats} {params formatNames : List Str} {matchPattern extractPattern : Str}
  {parts : Parts} {iMatchResults : List Str}

/-- The result that says that the levels are used up. -/
def Exhausted (r : Except String (UriTemplateValue × Nat)) : Prop := r = .error ""

/-- A result is no failure for want of groups. -/
theorem not_exhausted_ok (acc : UriTemplateValue × Nat) : ¬ Exhausted (.ok acc) := by
  rintro ⟨⟩

/-- An assertion has a text. -/
theorem not_exhausted_error {condition : String} (h : condition ≠ "") :
    ¬ Exhausted (.error condition) := by
  rintro ⟨⟩
  exact h rfl

/-- `str` fails only out of range, -/
theorem str_eq_error {position : Nat} {condition : String}
    (h : str iMatchResults position = .error condition) : condition = "out of range" := by
  unfold str at h
  split at h
  · cases h
  · cases h
    rfl

/-- and `addChild` only on a name that is taken. -/
theorem addChild_eq_error {v : UriTemplateValue} {iName iValue : Str} {replaceIfExists : Bool}
    {condition : String} (h : v.addChild iName iValue replaceIfExists = .error condition) :
    condition = "0" := by
  unfold UriTemplateValue.addChild at h
  split at h
  · cases h
  · split at h
    · cases h
    · cases h
      rfl

/-- One round with two functions that do the same for the parameters of the format, and do not use
the levels up. -/
theorem saveParam_congr
    {save save' : UriTemplateValue → Nat → List Str → List Str → Except String (UriTemplateValue × Nat)}
    {formatName : Str} {f : UriTemplateFormat} (hformat : formatOf formats formatName = .ok f)
    (hsave : ∀ v position,
      save v position f.template.params f.template.formatNames =
          save' v position f.template.params f.template.formatNames ∧
        ¬ Exhausted (save v position f.template.params f.template.formatNames))
    (iMatchResults : List Str) (acc : UriTemplateValue × Nat) (name : Str) :
    saveParam formats iMatchResults save acc (name, formatName) =
        saveParam formats iMatchResults save' acc (name, formatName) ∧
      ¬ Exhausted (saveParam formats iMatchResults save acc (name, formatName)) := by
  unfold saveParam
  cases hstr : str iMatchResults acc.2 with
  | error condition =>
    rw [str_eq_error hstr]
    exact ⟨rfl, not_exhausted_error (by decide)⟩
  | ok value =>
    cases hadd : acc.1.addChild name value false with
    | error condition =>
      simp only [hadd, bind, Except.bind, true_and]
      rw [addChild_eq_error hadd]
      exact not_exhausted_error (by decide)
    | ok parsedValues =>
      simp only [hadd, hformat, bind, Except.bind]
      cases f.isRegExOnly with
      | true => exact ⟨rfl, not_exhausted_ok _⟩
      | false =>
        obtain ⟨heq, hne⟩ := hsave ⟨name, value, []⟩ (acc.2 + 1)
        simp only [← heq, Bool.false_eq_true, if_false, true_and]
        cases hsaved : save ⟨name, value, []⟩ (acc.2 + 1) f.template.params
            f.template.formatNames with
        | error condition =>
          rw [hsaved] at hne
          exact fun hexhausted => hne (by cases hexhausted; rfl)
        | ok acc' => exact not_exhausted_ok _

/-- The loop over the parameters of a template does not depend on the number of levels, as long as
they are as many as the formats of the template are deep. -/
theorem Made.save_enough
    (h : Made formats params formatNames matchPattern extractPattern parts) {n n' : Nat}
    (hn : parts.depth ≤ n) (hn' : parts.depth ≤ n') (acc : UriTemplateValue × Nat) :
    (params.zip formatNames).foldlM
        (saveParam formats iMatchResults (saveValuesLoop formats iMatchResults n)) acc =
      (params.zip formatNames).foldlM
        (saveParam formats iMatchResults (saveValuesLoop formats iMatchResults n')) acc ∧
    ¬ Exhausted ((params.zip formatNames).foldlM
        (saveParam formats iMatchResults (saveValuesLoop formats iMatchResults n)) acc) := by
  induction h generalizing n n' acc with
  | last text => exact ⟨rfl, not_exhausted_ok acc⟩
  | @param text name formatName _ _ params formatNames f inner rest hname hformat hinner hrest
      ihinner ihrest =>
    rw [Parts.depth] at hn hn'
    have hsave (v : UriTemplateValue) (position : Nat) :
        saveValuesLoop formats iMatchResults n v position f.template.params f.template.formatNames =
            saveValuesLoop formats iMatchResults n' v position f.template.params
              f.template.formatNames ∧
          ¬ Exhausted (saveValuesLoop formats iMatchResults n v position f.template.params
            f.template.formatNames) := by
      obtain ⟨k, rfl⟩ : ∃ k, n = k + 1 := ⟨n - 1, by omega⟩
      obtain ⟨k', rfl⟩ : ∃ k, n' = k + 1 := ⟨n' - 1, by omega⟩
      have hloop := @ihinner k k' (by omega) (by omega) (v, position)
      simp only [saveValuesLoop]
      split
      · exact ⟨rfl, not_exhausted_error (by decide)⟩
      · split
        · exact ⟨rfl, not_exhausted_error (by decide)⟩
        · exact hloop
    obtain ⟨heq, hne⟩ := saveParam_congr hformat hsave iMatchResults acc name
    rw [List.zip_cons_cons, List.foldlM_cons, List.foldlM_cons, ← heq]
    cases hacc : saveParam formats iMatchResults (saveValuesLoop formats iMatchResults n) acc
        (name, formatName) with
    | error condition =>
      rw [hacc] at hne
      exact ⟨rfl, hne⟩
    | ok acc' => exact ihrest (by omega) (by omega) acc'

/-- On a template of the table the recursion ends: with any number of levels above the number of
formats by two the result is the same, and the levels are not used up. -/
theorem saveValuesLoop_enough (hformats : Built formats) {iTemplate : Str} {t : UriTemplate}
    (ht : UriTemplate.parse formats iTemplate = .ok t) {n : Nat} (hn : formats.length + 2 ≤ n)
    (v : UriTemplateValue) (position : Nat) :
    saveValuesLoop formats iMatchResults n v position t.params t.formatNames =
        saveValues formats iMatchResults v position t.params t.formatNames ∧
      ¬ Exhausted (saveValues formats iMatchResults v position t.params t.formatNames) := by
  obtain ⟨parts, hparts, hdepth⟩ := hformats.exists_parts.2 iTemplate t ht
  obtain ⟨k, rfl⟩ : ∃ k, n = k + 1 := ⟨n - 1, by omega⟩
  have hk : parts.depth ≤ k := by omega
  obtain ⟨heq, hne⟩ := Made.save_enough hparts hdepth hk (v, position)
  simp only [saveValues, saveValuesLoop]
  split
  · exact ⟨rfl, not_exhausted_error (by decide)⟩
  · split
    · exact ⟨rfl, not_exhausted_error (by decide)⟩
    · exact ⟨heq.symm, hne⟩

end

/-- No format refers to itself through any chain. -/
theorem not_refers_self (calls : List TableCall) (iFormatName : Str) :
    ¬ Relation.TransGen (Refers (reached calls)) iFormatName iFormatName := by
  intro h
  refine (wellFounded_refers calls).transGen.asymmetric (a := iFormatName) (b := iFormatName) ?_ ?_
  all_goals exact Relation.transGen_swap.mpr h

/-- Whatever calls have built the table: a call that fails leaves it as it is, a format refers through
any chain to formats of the table that were added before it since the last clear, and so never to
itself, and the loop of `parse` and the recursion of `saveValues` for a template of the table end. -/
theorem references_wellFounded (calls : List TableCall) :
    (∀ iFormatName iTemplate condition formats',
      (UriTemplateFormat.addGlobalFormat iFormatName iTemplate).run (reached calls) =
        .error condition formats' → formats' = reached calls) ∧
    (∀ iFormatName formatName,
      Relation.TransGen (Refers (reached calls)) iFormatName formatName →
        ((reached calls).lookup formatName).isSome ∧ (∃ i, AddedAt calls i iFormatName) ∧
          ∀ i, AddedAt calls i iFormatName → ∃ j < i, AddedAt calls j formatName) ∧
    (∀ iFormatName, ¬ Relation.TransGen (Refers (reached calls)) iFormatName iFormatName) ∧
    (∀ iTemplate n, iTemplate.length < n →
      ∃ r, parseLoop (reached calls) n ⟨iTemplate, [], [], [], []⟩ iTemplate = some r) ∧
    ∀ iTemplate t, UriTemplate.parse (reached calls) iTemplate = .ok t →
      ∀ iMatchResults v position n, (reached calls).length + 2 ≤ n →
        saveValuesLoop (reached calls) iMatchResults n v position t.params t.formatNames =
            saveValues (reached calls) iMatchResults v position t.params t.formatNames ∧
          ¬ Exhausted (saveValues (reached calls) iMatchResults v position t.params
            t.formatNames) := by
  refine ⟨fun _ _ _ _ => addGlobalFormat_error, fun iFormatName formatName h => ?_,
    not_refers_self calls, fun iTemplate n hn => ?_, fun iTemplate t ht _ v position n hn => ?_⟩
  · obtain ⟨hname, hstored, hbefore⟩ := reached_refers h
    exact ⟨hstored, ((ordered calls).stored iFormatName).mp hname, hbefore⟩
  · obtain ⟨r, hr, -⟩ := (parse_lossless (reached calls) iTemplate).2.1 n hn
    exact ⟨r, hr⟩
  · exact saveValuesLoop_enough (Built.nil.tableCalls calls) ht hn v position

end NodeNative.Uri
