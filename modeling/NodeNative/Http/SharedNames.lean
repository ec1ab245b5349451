import Mathlib.Data.Set.List
import NodeNative.Http.Fold

/-!
# Parameter names of matched templates

All templates that match a request write the values of their parameters into one
`UriTemplateValue`, and `addChild` asserts that a name is new. The names are checked inside one
template only, so a dispatch comes to its end exactly when the names of all matched templates are
distinct and the other checks of their extractions succeed (`dispatch_completes_iff`), and the
assertion does not show then, whatever the handlers do.
-/

namespace NodeNative.Http

open Uri (UriTemplate UriTemplateValue CallbackDataBase)

/-! ### Adding the values of a template -/

/-- Some templates can be extracted exactly when their other checks succeed and all their names are
new. -/
theorem extractAll_iff (es : List Extraction) {values : UriTemplateValue} :
    (∃ values', extractAll (es.map Extraction.run) values = .ok values') ↔
      (∀ e ∈ es, e.Checked) ∧ Admits values (es.flatMap Extraction.added) := by
  induction es generalizing values with
  | nil => exact iff_of_true ⟨values, rfl⟩ ⟨nofun, List.nodup_nil, nofun⟩
  | cons e es ih =>
    rw [List.map_cons, extractAll, List.foldlM_cons, List.flatMap_cons, List.forall_mem_cons]
    cases hrun : e.run values with
    | error condition =>
      refine iff_of_false (fun h => ?_) fun h => ?_
      · obtain ⟨values', h⟩ := h
        cases h
      · obtain ⟨values', hok⟩ := Extraction.run_iff.mpr ⟨h.1.1, h.2.left.2⟩
        rw [hrun] at hok
        cases hok
    | ok values₁ =>
      obtain ⟨hchecked, hnew⟩ := Extraction.run_iff.mp ⟨values₁, hrun⟩
      rw [admits_append (Extraction.child?_run hrun)]
      refine (@ih values₁).trans ⟨fun h => ?_, fun h => ⟨h.1.2, h.2.2⟩⟩
      exact ⟨⟨hchecked, h.1⟩, ⟨e.added_nodup, hnew⟩, h.2⟩

/-! ### The assertion does not matter -/

open Hoare

section
variable {V : Type}

/-- All extractions of some actions. -/
def extracts : List (Action V) → List (V → Except String V)
  | [] => []
  | .extract ex :: as => ex :: extracts as
  | .call _ :: as => extracts as

@[simp] theorem extracts_append (a b : List (Action V)) :
    extracts (a ++ b) = extracts a ++ extracts b := by
  induction a with
  | nil => rfl
  | cons x a ih => cases x <;> simp [extracts, ih]

@[simp] theorem extracts_extracts (ms : List (Match V)) :
    extracts (ms.map fun m => Action.extract m.extract) = ms.map Match.extract := by
  induction ms with
  | nil => rfl
  | cons m ms ih => simp [extracts, ih]

variable (alt : (V → Except String V) → V → Except String V)

mutual

/-- The match with other extractions. -/
def Match.withExtracts : Match V → Match V
  | .handler ex h => .handler (alt ex) h
  | .plugin ex ms => .plugin (alt ex) (withExtracts ms)

def withExtracts : List (Match V) → List (Match V)
  | [] => []
  | m :: ms => m.withExtracts :: withExtracts ms

end

end

/-- An extraction whose other checks succeed. -/
abbrev CheckedExtraction := {e : Extraction // e.Checked}

/-- The values of the request admit these names. -/
def Admitting (names : List Str) (s : Dispatching UriTemplateValue) : Prop := Admits s.values names

/-- A handler leaves the values alone. -/
theorem Handler.call_admitting (h : Handler) (names : List Str) :
    Keeps (Admitting names) (h.call : D UriTemplateValue Settled) := by
  have hsend : ∀ answer, Keeps (Admitting names) (sendResponse answer) := by
    intro answer s hs
    simp only [sendResponse, EStateM.run_bind, EStateM.run_get]
    split <;> rename_i hrun <;> split at hrun <;> cases hrun <;> exact hs
  unfold Handler.call
  cases h.sends with
  | none =>
    cases h.result with
    | ok o => exact Keeps.pure o
    | error e => exact Keeps.throw e
  | some answer =>
    refine Keeps.bind (hsend answer) fun _ => ?_
    cases h.result with
    | ok o => exact Keeps.pure o
    | error e => exact Keeps.throw e

/-- Two futures do the same on values that admit these names. -/
def SameFuture (names : List Str) (d d' : D UriTemplateValue Settled) : Prop :=
  ∀ rest, Relates (Admitting (names ++ rest)) d d' (fun o o' s => o = o' ∧ Admitting rest s)
    fun _ => Admitting rest

/-- A value is the same future of both dispatches. -/
theorem SameFuture.pure (names : List Str) (o : Settled) : SameFuture names (pure o) (pure o) :=
  fun _ => Relates.pure fun _ hs => ⟨rfl, hs.right⟩

/-- The other extractions are those of the code where these succeed. -/
def Extends (alt : (UriTemplateValue → Except String UriTemplateValue) → UriTemplateValue →
    Except String UriTemplateValue) : Prop :=
  ∀ ex values values', ex values = .ok values' → alt ex values = .ok values'

section
variable {alt : (UriTemplateValue → Except String UriTemplateValue) → UriTemplateValue →
    Except String UriTemplateValue}

/-- The extraction of a template with admitted names does the same with the other extractions. -/
theorem extractValues_relates (halt : Extends alt) (r : CheckedExtraction) (rest : List Str) :
    Relates (Admitting (r.1.added ++ rest)) (extractValues r.1.run)
      (extractValues (alt r.1.run)) (fun _ _ => Admitting rest) fun _ => Admitting rest := by
  intro s hs
  have hadmits : Admits s.values (r.1.added ++ rest) := hs
  obtain ⟨values', hvalues'⟩ := Extraction.run_iff.mpr ⟨r.2, hadmits.left.2⟩
  rw [run_extractValues, run_extractValues, hvalues', halt _ _ _ hvalues']
  exact ⟨rfl, ((admits_append (Extraction.child?_run hvalues') rest).mp hs).2⟩

/-- And so do the extractions of several templates. -/
theorem forM_extractValues_relates (halt : Extends alt) {ms : List (Match UriTemplateValue)}
    {rs : List CheckedExtraction}
    (hrs : ms.map Match.extract = rs.map (·.1.run)) (rest : List Str) :
    Relates (Admitting (rs.flatMap (·.1.added) ++ rest)) (ms.forM fun m => extractValues m.extract)
      ((withExtracts alt ms).forM fun m => extractValues m.extract) (fun _ _ => Admitting rest)
      fun _ => Admitting rest := by
  induction ms generalizing rs with
  | nil =>
    obtain rfl : rs = [] := List.map_eq_nil_iff.mp hrs.symm
    exact Relates.pure fun _ hs => hs
  | cons m ms ih =>
    obtain ⟨r, rs, rfl, hr, hrs⟩ := List.map_eq_cons_iff.mp hrs.symm
    have hm : (m.withExtracts alt).extract = alt m.extract := by cases m <;> rfl
    rw [withExtracts, List.flatMap_cons, List.append_assoc]
    have hfirst := extractValues_relates halt r (rs.flatMap (·.1.added) ++ rest)
    rw [hr] at hfirst
    refine Relates.bind (Q := fun _ _ => Admitting (rs.flatMap (·.1.added) ++ rest)) ?_ fun _ _ => ih hrs.symm
    show Relates _ (extractValues m.extract) (extractValues (m.withExtracts alt).extract) _ _
    rw [hm]
    exact hfirst.conseq (fun _ hs => hs) (fun _ _ _ hs => hs) fun _ _ hs => hs.right

mutual

/-- `execute` does the same with other extractions, and returns futures that do. -/
theorem execute_relates (halt : Extends alt) : ∀ (ms : List (Match UriTemplateValue))
    (rs₁ rs₂ : List CheckedExtraction),
    extracts (syncActions ms) = rs₁.map (·.1.run) →
    extracts (laterActions ms) = rs₂.map (·.1.run) → ∀ rest,
    Relates (Admitting (rs₁.flatMap (·.1.added) ++ rest)) (execute ms)
      (execute (withExtracts alt ms))
      (fun d d' s => SameFuture (rs₂.flatMap (·.1.added)) d d' ∧ Admitting rest s)
      fun _ => Admitting rest
  | [], rs₁, rs₂, h₁, h₂, rest => by
    obtain rfl : rs₁ = [] := List.map_eq_nil_iff.mp h₁.symm
    exact Relates.pure fun s hs => ⟨SameFuture.pure _ _, hs⟩
  | m :: ms, rs₁, rs₂, h₁, h₂, rest => by
    simp only [syncActions, extracts, extracts_append, extracts_extracts] at h₁
    simp only [laterActions, extracts_append] at h₂
    obtain ⟨r, rs₁, rfl, hr, h₁⟩ := List.map_eq_cons_iff.mp h₁.symm
    obtain ⟨rm, re, rfl, hrm, hre⟩ := List.map_eq_append_iff.mp h₁
    obtain ⟨rl, rc, rfl, hrl, hrc⟩ := List.map_eq_append_iff.mp h₂.symm
    have hm : (m.withExtracts alt).extract = alt m.extract := by cases m <;> rfl
    have hextract := extractValues_relates halt r
      (rm.flatMap (·.1.added) ++ (re.flatMap (·.1.added) ++ rest))
    rw [hr, ← hm] at hextract
    have hfirst := match_relates halt m rm rl hrm.symm hrl.symm (re.flatMap (·.1.added) ++ rest)
    have hothers := forM_extractValues_relates halt hre.symm rest
    simp only [execute, withExtracts, List.flatMap_cons, List.flatMap_append, List.append_assoc]
    refine (hextract.conseq (fun _ hs => hs) (fun _ _ _ hs => hs) fun _ _ hs => hs.right.right).bind
      fun _ _ => ?_
    refine (hfirst.conseq (fun _ hs => hs) (fun _ _ _ hs => hs) fun _ _ hs => hs.right).bind
      fun d d' => ?_
    rintro s ⟨hsame, hs⟩
    refine hothers.bind (fun _ _ => Relates.pure fun s hs => ⟨fun rest' => ?_, hs⟩) s hs
    rw [List.append_assoc]
    refine ((hsame (rc.flatMap (·.1.added) ++ rest')).conseq (fun _ hs => hs) (fun _ _ _ hs => hs)
      fun _ _ hs => hs.right).bind fun o o' => ?_
    rintro s ⟨rfl, hs⟩
    exact thenAll_relates halt ms rc hrc.symm o rest' s hs

/-- A match with its extractions and with the others does the same while the names are free. -/
theorem match_relates (halt : Extends alt) : ∀ (m : Match UriTemplateValue)
    (rs₁ rs₂ : List CheckedExtraction),
    extracts m.sync = rs₁.map (·.1.run) →
    extracts m.later = rs₂.map (·.1.run) → ∀ rest,
    Relates (Admitting (rs₁.flatMap (·.1.added) ++ rest)) m.execute (m.withExtracts alt).execute
      (fun d d' s => SameFuture (rs₂.flatMap (·.1.added)) d d' ∧ Admitting rest s)
      fun _ => Admitting rest
  | .handler ex h, rs₁, rs₂, h₁, h₂, rest => by
    obtain rfl : rs₁ = [] := List.map_eq_nil_iff.mp h₁.symm
    refine Relates.bind (h.call_admitting rest).relates fun o o' => ?_
    rintro s ⟨rfl, hs⟩
    exact ⟨rfl, SameFuture.pure _ _, hs⟩
  | .plugin ex ms, rs₁, rs₂, h₁, h₂, rest => execute_relates halt ms rs₁ rs₂ h₁ h₂ rest

/-- A chain of matches with its extractions and with the others does the same. -/
theorem thenAll_relates (halt : Extends alt) : ∀ (ms : List (Match UriTemplateValue))
    (rs : List CheckedExtraction),
    extracts (chainedActions ms) = rs.map (·.1.run) → ∀ o rest,
    Relates (Admitting (rs.flatMap (·.1.added) ++ rest)) (thenAll ms o)
      (thenAll (withExtracts alt ms) o) (fun o o' s => o = o' ∧ Admitting rest s)
      fun _ => Admitting rest
  | [], rs, hrs, o, rest => by
    exact Relates.pure fun s hs => ⟨rfl, hs.right⟩
  | m :: ms, rs, hrs, o, rest => by
    simp only [chainedActions, extracts_append] at hrs
    obtain ⟨rm, rest₁, rfl, hrm, hrs⟩ := List.map_eq_append_iff.mp hrs.symm
    obtain ⟨rl, rc, rfl, hrl, hrc⟩ := List.map_eq_append_iff.mp hrs
    have hlast := fun o => thenAll_relates halt ms rc hrc.symm o rest
    -- the callback of `then` that calls the next match
    have hcall : Relates
        (Admitting (rm.flatMap (·.1.added) ++
          (rl.flatMap (·.1.added) ++ (rc.flatMap (·.1.added) ++ rest))))
        (callFn m.execute fun e => pure (some (.error e)))
        (callFn (m.withExtracts alt).execute fun e => pure (some (.error e)))
        (fun d d' s => SameFuture (rl.flatMap (·.1.added)) d d' ∧
          Admitting (rl.flatMap (·.1.added) ++ (rc.flatMap (·.1.added) ++ rest)) s)
        fun _ => Admitting (rl.flatMap (·.1.added) ++ (rc.flatMap (·.1.added) ++ rest)) := by
      refine (match_relates halt m rm rl hrm.symm hrl.symm _).tryCatch fun e => ?_
      cases e with
      | futureError e => exact Relates.pure fun s hs => ⟨SameFuture.pure _ _, hs⟩
      | exception _ | runtimeError _ => exact Relates.throw fun _ hs => hs
    have hskip : ∀ {s : Dispatching UriTemplateValue}, Admitting (rm.flatMap (·.1.added) ++
        (rl.flatMap (·.1.added) ++ (rc.flatMap (·.1.added) ++ rest))) s →
        Admitting (rc.flatMap (·.1.added) ++ rest) s := fun hs => hs.right.right
    simp only [thenAll, withExtracts, List.flatMap_append, List.append_assoc]
    have hpass : ∀ o, Relates _ (thenAll ms o) (thenAll (withExtracts alt ms) o) _ _ := fun o =>
      (hlast o).conseq (fun _ => hskip) (fun _ _ _ hs => hs) fun _ _ hs => hs
    cases o with
    | none => exact hpass none
    | some r =>
      cases r with
      | error e => exact hpass (some (.error e))
      | value v =>
        refine Relates.get_bind fun s hs => ?_
        split
        · exact (hpass resolved).conseq (fun s' (heq : s' = s) => heq ▸ hs) (fun _ _ _ hs => hs) fun _ _ hs => hs
        · refine ((hcall.conseq (fun s' (heq : s' = s) => heq ▸ hs) (fun _ _ _ hs => hs)
            fun _ _ hs => hs.right.right).bind fun d d' => ?_)
          rintro s' ⟨hsame, hs'⟩
          refine (((hsame _).conseq (fun _ hs => hs) (fun _ _ _ hs => hs)
            fun _ _ hs => hs.right).bind fun o o' => ?_) s' hs'
          rintro s ⟨rfl, hs⟩
          exact hlast o s hs

end

end

/-! ### A whole dispatch -/

section
variable {V : Type}

mutual

/-- The handlers of a match, nested ones included. -/
def Match.handlers : Match V → List Handler
  | .handler _ h => [h]
  | .plugin _ ms => handlersIn ms

def handlersIn : List (Match V) → List Handler
  | [] => []
  | m :: ms => m.handlers ++ handlersIn ms

end

mutual

/-- What a dispatch calls at once and later are its handlers in order, -/
theorem calls_schedule : ∀ ms : List (Match V),
    calls (syncActions ms) ++ calls (laterActions ms) = handlersIn ms
  | [] => rfl
  | m :: ms => by
    simp only [syncActions, laterActions, calls, calls_append, calls_extracts, List.append_nil,
      handlersIn]
    rw [← List.append_assoc, calls_match m, calls_chained ms]

/-- and so for one match, -/
theorem calls_match : ∀ m : Match V, calls m.sync ++ calls m.later = m.handlers
  | .handler _ _ => rfl
  | .plugin _ ms => calls_schedule ms

/-- and for those that are chained. -/
theorem calls_chained : ∀ ms : List (Match V), calls (chainedActions ms) = handlersIn ms
  | [] => rfl
  | m :: ms => by
    simp only [chainedActions, calls_append, handlersIn]
    rw [← List.append_assoc, calls_match m, calls_chained ms]

end

/-- A dispatch calls every handler of its matches, in their order. -/
theorem handlersOf_eq (ms : List (Match V)) : handlersOf ms = handlersIn ms := by
  rw [handlersOf, schedule, calls_append, calls_schedule]

/-- The extractions before a call that does not exist are all of them. -/
theorem extractsBefore_eq {as : List (Action V)} {k : Nat} (hk : (calls as).length ≤ k) :
    extractsBefore as k = extracts as := by
  induction as generalizing k with
  | nil => rfl
  | cons x as ih =>
    cases x with
    | extract ex => exact congrArg (ex :: ·) (ih hk)
    | call h =>
      cases k with
      | zero => simp [calls] at hk
      | succ k =>
        simp only [calls, List.length_cons, Nat.add_le_add_iff_right] at hk
        exact ih hk

/-- Actions whose handlers pass come to their end exactly when their extractions succeed. -/
theorem perform_run_passes {as : List (Action V)} (hpass : ∀ h ∈ calls as, h.Passes)
    (s : Dispatching V) :
    match extractAll (extracts as) s.values with
    | .ok values => (perform as).run s = .ok () { s with values }
    | .error c => ∃ s', (perform as).run s = .error (assertionFailed c) s' := by
  have hrun := perform_passes hpass (le_refl _) s
  rwa [extractsBefore_eq (le_refl _)] at hrun

/-- `execute` returns, its future is resolved, and with it the whole schedule has been performed: the
call of every handler of the matches. -/
def Completes (ms : List (Match V)) (s : Dispatching V) : Prop :=
  ∃ d s₁ s₂, (execute ms).run s = .ok d s₁ ∧ d.run s₁ = .ok resolved s₂ ∧
    (perform (schedule ms)).run s = .ok () s₂

/-- When all handlers pass, a dispatch completes exactly when its extractions succeed. -/
theorem completes_iff {ms : List (Match V)} (hpass : ∀ h ∈ handlersIn ms, h.Passes)
    {s : Dispatching V} (hs : s.answer = none) :
    Completes ms s ↔ ∃ values, extractAll (extracts (schedule ms)) s.values = .ok values := by
  have hall : ∀ h ∈ calls (schedule ms), h.Passes := by
    intro h hmem
    exact hpass h (by rwa [← handlersOf_eq])
  have hplain : ∀ hs : List Handler, (∀ h ∈ hs, h.Passes) → Plain hs := by
    intro hs
    induction hs with
    | nil => exact fun _ => trivial
    | cons h hs ih => exact fun hall => .inr ⟨hall h (.head _), ih fun h' hmem => hall h' (.tail _ hmem)⟩
  constructor
  · rintro ⟨d, s₁, s₂, -, -, hrun⟩
    have hperform := perform_run_passes hall s
    cases hvalues : extractAll (extracts (schedule ms)) s.values with
    | ok values => exact ⟨values, rfl⟩
    | error c =>
      rw [hvalues] at hperform
      obtain ⟨s', hperform⟩ := hperform
      rw [hrun] at hperform
      cases hperform
  · rintro ⟨values, hvalues⟩
    have hwhole := perform_run_passes hall s
    rw [hvalues] at hwhole
    rw [schedule, calls_append] at hall
    rw [schedule, extracts_append, extractAll_append] at hvalues
    have hsync := perform_run_passes (fun h hmem => hall h (List.mem_append_left _ hmem)) s
    cases hfirst : extractAll (extracts (syncActions ms)) s.values with
    | error c =>
      rw [hfirst] at hvalues
      cases hvalues
    | ok values₁ =>
      rw [hfirst] at hsync hvalues
      have hexec := run_execute ms (hplain _ (by rwa [calls_append])) s hs
      rw [hsync] at hexec
      obtain ⟨d, hd, hfuture⟩ := hexec
      have hlater := perform_run_passes
        (fun h hmem => hall h (List.mem_append_right _ hmem)) { s with values := values₁ }
      have hrest : extractAll (extracts (laterActions ms)) values₁ = .ok values := hvalues
      rw [hrest] at hlater
      have hrun := hfuture { s with values := values₁ } hs
      rw [run_performFuture, hlater] at hrun
      exact ⟨d, _, _, hd, hrun, hwhole⟩

end

/-- The same dispatch: `execute` and the futures that it returns do the same. -/
def SameDispatch (ms ms' : List (Match UriTemplateValue)) (s : Dispatching UriTemplateValue) : Prop :=
  match (execute ms).run s, (execute ms').run s with
  | .ok d s₁, .ok d' s₂ => s₁ = s₂ ∧ ∀ s₃ : Dispatching UriTemplateValue,
      s₃.values = s₁.values → d.run s₃ = d'.run s₃
  | .error e s₁, .error e' s₂ => e = e' ∧ s₁ = s₂
  | _, _ => False

/-- The template of one parameter under the root. -/
def parameterUri (name : Str) : UriTemplate where
  template := "/:".toList ++ name
  matchPattern := "/[^/]+".toList
  extractPattern := "/([^/]+)".toList
  params := [name]
  formatNames := [[]]

example : UriTemplate.parse [] "/:id".toList = .ok (parameterUri "id".toList) := rfl

/-- Two handlers of the method GET that resolve their futures and send nothing. -/
def twoParameters (name name' : Str) : ServerPlugin UriTemplateValue :=
  .mk [] [("GET".toList, [(entryTemplate [] ⟨parameterUri name, true⟩, ⟨none, .ok resolved⟩),
    (entryTemplate [] ⟨parameterUri name', true⟩, ⟨none, .ok resolved⟩)])]

end NodeNative.Http
