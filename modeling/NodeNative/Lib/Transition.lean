/-!
# Runs of a labelled transition function

A system is given by a partial step function `step : S → L → Option S`: `none` says that the label
is not enabled. `run` folds a list of labels from left to right. The rules below are the ones an
invariant proof needs: an invariant of one step is an invariant of a run (`run_invariant`), also
when the steps are restricted to labels that satisfy a side condition (`run_invariant_of`) or when
the invariant speaks about the labels seen so far (`run_history`).
-/

namespace Transition

section
variable {S L : Type _} {step : S → L → Option S}

/-- The state after a list of labels, if every one of them is enabled in turn. -/
def run (step : S → L → Option S) (s : S) (ls : List L) : Option S :=
  ls.foldlM step s

@[simp] theorem run_nil (s : S) : run step s [] = some s := rfl

/-- A run over a non-empty list takes its first step and runs on. -/
@[simp] theorem run_cons (s : S) (l : L) (ls : List L) :
    run step s (l :: ls) = (step s l).bind (run step · ls) := by
  simp only [run, List.foldlM_cons, Option.bind_eq_bind]

/-- A run over an append is the composition of the two runs. -/
theorem run_append (s : S) (ls ms : List L) :
    run step s (ls ++ ms) = (run step s ls).bind (run step · ms) := by
  simp only [run, List.foldlM_append, Option.bind_eq_bind]

/-- A run over an append passes through a state in the middle. -/
theorem run_append_some {s s' : S} {ls ms : List L} (h : run step s (ls ++ ms) = some s') :
    ∃ m, run step s ls = some m ∧ run step m ms = some s' := by
  rw [run_append] at h
  exact Option.bind_eq_some_iff.1 h

/-- What holds initially and is kept by every step whose label satisfies `p` holds at the end of
every run over such labels. -/
theorem run_invariant_of {Inv : S → Prop} {p : L → Prop}
    (hstep : ∀ s l s', p l → Inv s → step s l = some s' → Inv s') :
    ∀ {ls : List L} {s s' : S}, (∀ l ∈ ls, p l) → Inv s → run step s ls = some s' → Inv s'
  | [], s, s', _, hs, h => by
    rw [run_nil] at h
    cases h; exact hs
  | l :: ls, s, s', hp, hs, h => by
    rw [run_cons] at h
    obtain ⟨m, hm, hr⟩ := Option.bind_eq_some_iff.1 h
    have hinv : Inv m := hstep s l m (hp l (.head _)) hs hm
    exact run_invariant_of hstep (fun l hl => hp l (.tail _ hl)) hinv hr

/-- What holds initially and is kept by every step holds at the end of every run. -/
theorem run_invariant {Inv : S → Prop} (hstep : ∀ s l s', Inv s → step s l = some s' → Inv s')
    {ls : List L} {s s' : S} (hs : Inv s) (h : run step s ls = some s') : Inv s' :=
  run_invariant_of (p := fun _ => True) (fun s l s' _ => hstep s l s') (fun _ _ => trivial) hs h

/-- Every step of a run meets a condition on its label and the state before it. -/
def Along (step : S → L → Option S) (ok : S → L → Prop) : S → List L → Prop
  | _, [] => True
  | s, l :: ls => ok s l ∧ ∀ s', step s l = some s' → Along step ok s' ls

/-- A step that meets the condition, and the run behind it. -/
theorem Along.cons {ok : S → L → Prop} {s s' : S} {l : L} {ls : List L} (hok : ok s l)
    (hs : step s l = some s') (h : Along step ok s' ls) : Along step ok s (l :: ls) :=
  ⟨hok, fun _ hs' => Option.some.inj (hs.symm.trans hs') ▸ h⟩

/-- Whether a run meets a decidable condition is decided step by step. -/
instance Along.decidable {ok : S → L → Prop} [∀ s l, Decidable (ok s l)] :
    ∀ (s : S) (ls : List L), Decidable (Along step ok s ls)
  | _, [] => .isTrue trivial
  | s, l :: ls =>
    match h : step s l with
    | none => decidable_of_iff (ok s l) (by simp [Along, h])
    | some s' =>
      have : Decidable (Along step ok s' ls) := Along.decidable s' ls
      decidable_of_iff (ok s l ∧ Along step ok s' ls) (by simp [Along, h])

/-- A run that meets two conditions meets both at each step. -/
theorem Along.and {ok ok' : S → L → Prop} {ls : List L} {s : S} (h : Along step ok s ls)
    (h' : Along step ok' s ls) : Along step (fun s l => ok s l ∧ ok' s l) s ls := by
  induction ls generalizing s with
  | nil => trivial
  | cons l ls ih => exact ⟨⟨h.1, h'.1⟩, fun m hm => ih (h.2 m hm) (h'.2 m hm)⟩

/-- A run that meets a condition meets a weaker one. -/
theorem Along.mono {ok ok' : S → L → Prop} (himp : ∀ s l, ok s l → ok' s l) {ls : List L} {s : S}
    (h : Along step ok s ls) : Along step ok' s ls := by
  induction ls generalizing s with
  | nil => trivial
  | cons l ls ih => exact ⟨himp s l h.1, fun m hm => ih (h.2 m hm)⟩

/-- A condition on the label alone that every label meets. -/
theorem Along.of_forall {p : L → Prop} {ls : List L} {s : S} (h : ∀ l ∈ ls, p l) :
    Along step (fun _ l => p l) s ls := by
  induction ls generalizing s with
  | nil => trivial
  | cons l ls ih => exact ⟨h l (.head _), fun m _ => ih fun l hl => h l (.tail _ hl)⟩

/-- The two parts of a run over an append. -/
theorem Along.append {ok : S → L → Prop} {ls ms : List L} {s : S} (h : Along step ok s (ls ++ ms)) :
    Along step ok s ls ∧ ∀ {m : S}, run step s ls = some m → Along step ok m ms := by
  induction ls generalizing s with
  | nil =>
    refine ⟨trivial, fun hm => ?_⟩
    cases hm
    exact h
  | cons l ls ih =>
    refine ⟨⟨h.1, fun s' hs' => (ih (h.2 s' hs')).1⟩, fun hm => ?_⟩
    rw [run_cons] at hm
    obtain ⟨s', hs', hm⟩ := Option.bind_eq_some_iff.1 hm
    exact (ih (h.2 s' hs')).2 hm

/-- What holds initially and is kept by every step that meets the condition holds at the end of a
run whose steps all meet it. -/
theorem run_invariant_along {Inv : S → Prop} {ok : S → L → Prop}
    (hstep : ∀ s l s', ok s l → Inv s → step s l = some s' → Inv s') {ls : List L} {s s' : S}
    (hok : Along step ok s ls) (hs : Inv s) (h : run step s ls = some s') : Inv s' := by
  induction ls generalizing s with
  | nil =>
    rw [run_nil] at h
    cases h; exact hs
  | cons l ls ih =>
    rw [run_cons] at h
    obtain ⟨m, hm, hr⟩ := Option.bind_eq_some_iff.1 h
    exact ih (hok.2 m hm) (hstep s l m hok.1 hs hm) hr

/-- When the condition says of each step whether it does what it should, and such steps keep an
invariant, a run meets the condition exactly when each of its steps does what it should. -/
theorem along_iff {Inv : S → Prop} {ok : S → L → Prop} {does : S → L → S → Prop}
    (hiff : ∀ s l s', Inv s → step s l = some s' → (ok s l ↔ does s l s'))
    (hstep : ∀ s l s', ok s l → Inv s → step s l = some s' → Inv s') {ls : List L} {s s' : S}
    (hs : Inv s) (h : run step s ls = some s') :
    Along step ok s ls ↔ ∀ ls₀ l ls₁ m m', ls = ls₀ ++ l :: ls₁ → run step s ls₀ = some m →
      step m l = some m' → does m l m' := by
  induction ls generalizing s with
  | nil => simp [Along]
  | cons l ls ih =>
    rw [run_cons] at h
    obtain ⟨m, hm, hr⟩ := Option.bind_eq_some_iff.1 h
    constructor
    · rintro ⟨hok, hrest⟩ ls₀ l' ls₁ m₀ m₁ heq hrun hst
      cases ls₀ with
      | nil =>
        cases heq
        cases hrun
        exact (hiff s l m₁ hs hst).mp hok
      | cons l₀ ls₀ =>
        cases heq
        rw [run_cons, hm] at hrun
        exact (ih (hstep s l m hok hs hm) hr).mp (hrest m hm) ls₀ l' ls₁ m₀ m₁ rfl hrun hst
    · intro hall
      have hok : ok s l := (hiff s l m hs hm).mpr (hall [] l ls s m rfl rfl hm)
      refine ⟨hok, fun m' hm' => ?_⟩
      cases hm.symm.trans hm'
      refine (ih (hstep s l m hok hs hm) hr).mpr fun ls₀ l' ls₁ m₀ m₁ heq hrun hst => ?_
      refine hall (l :: ls₀) l' ls₁ m₀ m₁ (by rw [heq, List.cons_append]) ?_ hst
      rw [run_cons, hm]
      exact hrun

/-- A flag that a step leaves set, and sets otherwise on a condition, is set at the end of a run whose
steps all meet `ok` exactly when it was at its start or when some step of the run meets the condition. -/
theorem run_flag_iff {Inv flag : S → Prop} {ok sets : S → L → Prop}
    (hflag : ∀ s l s', ok s l → Inv s → step s l = some s' → (flag s' ↔ flag s ∨ sets s l))
    (hstep : ∀ s l s', ok s l → Inv s → step s l = some s' → Inv s') {ls : List L} {s s' : S}
    (hok : Along step ok s ls) (hs : Inv s) (h : run step s ls = some s') : flag s' ↔ flag s ∨
      ∃ ls₀ l ls₁ m, ls = ls₀ ++ l :: ls₁ ∧ run step s ls₀ = some m ∧ sets m l := by
  induction ls generalizing s with
  | nil =>
    rw [run_nil] at h
    cases h
    simp
  | cons l ls ih =>
    rw [run_cons] at h
    obtain ⟨m, hm, hr⟩ := Option.bind_eq_some_iff.1 h
    rw [ih (hok.2 m hm) (hstep s l m hok.1 hs hm) hr, hflag s l m hok.1 hs hm, or_assoc]
    refine or_congr_right ⟨?_, ?_⟩
    · rintro (hsets | ⟨ls₀, l', ls₁, m', rfl, hrun, hsets⟩)
      · exact ⟨[], l, ls, s, rfl, rfl, hsets⟩
      · refine ⟨l :: ls₀, l', ls₁, m', rfl, ?_, hsets⟩
        rw [run_cons, hm]
        exact hrun
    · rintro ⟨ls₀, l', ls₁, m', heq, hrun, hsets⟩
      cases ls₀ with
      | nil =>
        cases heq
        cases hrun
        exact .inl hsets
      | cons l₀ ls₀ =>
        cases heq
        rw [run_cons, hm] at hrun
        exact .inr ⟨ls₀, l', ls₁, m', rfl, hrun, hsets⟩

/-- A flag that a step leaves set, and sets otherwise when it does not meet the condition, is not set at
the end of a run exactly when it was not at its start and every step of the run meets the condition. -/
theorem not_flag_iff_along {Inv flag : S → Prop} {ok : S → L → Prop}
    (hflag : ∀ s l s', Inv s → step s l = some s' → (flag s' ↔ flag s ∨ ¬ ok s l))
    (hstep : ∀ s l s', Inv s → step s l = some s' → Inv s') {ls : List L} {s s' : S} (hs : Inv s)
    (h : run step s ls = some s') : ¬ flag s' ↔ ¬ flag s ∧ Along step ok s ls := by
  induction ls generalizing s with
  | nil =>
    rw [run_nil] at h
    cases h
    simp [Along]
  | cons l ls ih =>
    rw [run_cons] at h
    obtain ⟨m, hm, hr⟩ := Option.bind_eq_some_iff.1 h
    have hrest : Along step ok s (l :: ls) ↔ ok s l ∧ Along step ok m ls := by simp [Along, hm]
    rw [ih (hstep s l m hs hm) hr, hflag s l m hs hm, not_or, Classical.not_not, hrest, and_assoc]

/-- An invariant of the state and of the labels seen so far, in a run whose steps all meet the
condition: it holds of the empty history, and a step extends the history by its label. -/
theorem run_history_along {Inv : List L → S → Prop} {ok : S → L → Prop}
    (hstep : ∀ hs s l s', ok s l → Inv hs s → step s l = some s' → Inv (hs ++ [l]) s') :
    ∀ {ls hs : List L} {s s' : S}, Along step ok s ls → Inv hs s → run step s ls = some s' →
      Inv (hs ++ ls) s'
  | [], hs, s, s', _, h0, h => by
    rw [run_nil] at h
    cases h
    simpa using h0
  | l :: ls, hs, s, s', hok, h0, h => by
    rw [run_cons] at h
    obtain ⟨m, hm, hr⟩ := Option.bind_eq_some_iff.1 h
    have hnext := run_history_along hstep (hok.2 m hm) (hstep hs s l m hok.1 h0 hm) hr
    simpa using hnext

/-- The same for any run. -/
theorem run_history {I : List L → S → Prop}
    (hstep : ∀ hs s l s', I hs s → step s l = some s' → I (hs ++ [l]) s')
    {ls hs : List L} {s s' : S} (h0 : I hs s) (h : run step s ls = some s') : I (hs ++ ls) s' :=
  run_history_along (fun hs s l s' (_ : True) => hstep hs s l s')
    (Along.of_forall fun _ _ => trivial) h0 h

end

end Transition
