/-!
# Pre- and postconditions for stateful code with exceptions

Code is an `EStateM ε σ α`: it reads and writes a state, and an exception leaves the state as it
was when it was thrown. `Triple P x Q E` says what holds after `x` in a state with `P`: `Q` of the
result and the state when `x` returns, `E` of the exception and the state when it throws. `Keeps I x`
is the case of an invariant `I` that holds after `x` however `x` ends. `Relates P x y Q E` says
that two pieces of code do the same in a state with `P`: they end in the same way and in the same
state, with `Q` of their results and `E` of their exception.
-/

namespace Hoare

section
variable {ε σ α β : Type}

/-- `x`, started with `P`, returns with `Q` or throws with `E`. -/
def Triple (P : σ → Prop) (x : EStateM ε σ α) (Q : α → σ → Prop) (E : ε → σ → Prop) : Prop :=
  ∀ s, P s → match x.run s with
    | .ok a s' => Q a s'
    | .error e s' => E e s'

/-- `x` keeps `I`, whether it returns or throws. -/
def Keeps (I : σ → Prop) (x : EStateM ε σ α) : Prop :=
  Triple I x (fun _ => I) (fun _ => I)

/-- A stronger precondition and weaker postconditions. -/
theorem Triple.conseq {P P' : σ → Prop} {x : EStateM ε σ α} {Q Q' : α → σ → Prop}
    {E E' : ε → σ → Prop} (h : Triple P x Q E) (hP : ∀ s, P' s → P s)
    (hQ : ∀ a s, Q a s → Q' a s) (hE : ∀ e s, E e s → E' e s) : Triple P' x Q' E' := by
  intro s hs
  have := h s (hP s hs)
  cases hx : x.run s with
  | ok a s' => rw [hx] at this; exact hQ a s' this
  | error e s' => rw [hx] at this; exact hE e s' this

/-- Sequencing. -/
theorem Triple.bind {P : σ → Prop} {x : EStateM ε σ α} {f : α → EStateM ε σ β}
    {Q : α → σ → Prop} {R : β → σ → Prop} {E : ε → σ → Prop}
    (hx : Triple P x Q E) (hf : ∀ a, Triple (Q a) (f a) R E) : Triple P (x >>= f) R E := by
  intro s hs
  have h := hx s hs
  rw [EStateM.run_bind]
  cases hr : x.run s with
  | ok a s' => rw [hr] at h; exact hf a s' h
  | error e s' => rw [hr] at h; exact h

/-- A value changes nothing, -/
theorem Triple.pure {P : σ → Prop} {a : α} {E : ε → σ → Prop} :
    Triple P (Pure.pure a : EStateM ε σ α) (fun b s => b = a ∧ P s) E :=
  fun _ hs => ⟨rfl, hs⟩

/-- Reading the state: the rest of the code is proved for each state it may have read. -/
theorem Triple.get_bind {P : σ → Prop} {f : σ → EStateM ε σ β} {R : β → σ → Prop}
    {E : ε → σ → Prop} (hf : ∀ s, P s → Triple (· = s) (f s) R E) :
    Triple P (get >>= f) R E := by
  intro s hs
  have := hf s hs s rfl
  simpa using this

/-- Throwing, at any result type. -/
theorem Triple.throw {P : σ → Prop} {e : ε} {Q : α → σ → Prop} {E : ε → σ → Prop}
    (h : ∀ s, P s → E e s) : Triple P (throw e : EStateM ε σ α) Q E :=
  fun s hs => h s hs

/-- What `tryCatch` does, by how the protected code ends. -/
theorem tryCatch_run (x : EStateM ε σ α) (f : ε → EStateM ε σ α) (s : σ) :
    (MonadExcept.tryCatch x f : EStateM ε σ α).run s =
      match x.run s with
      | .ok a s' => .ok a s'
      | .error e s' => (f e).run s' := by
  simp only [EStateM.run, MonadExcept.tryCatch, tryCatchThe, MonadExceptOf.tryCatch]
  delta EStateM.tryCatch
  cases x s <;> rfl

/-- A handler keeps what the protected code keeps: it may start wherever that code throws. -/
theorem Triple.tryCatch {P : σ → Prop} {x : EStateM ε σ α} {f : ε → EStateM ε σ α}
    {Q : α → σ → Prop} {E F : ε → σ → Prop} (hx : Triple P x Q F)
    (hf : ∀ e, Triple (F e) (f e) Q E) : Triple P (tryCatch x f) Q E := by
  intro s hs
  have h := hx s hs
  rw [tryCatch_run]
  cases hr : x.run s with
  | ok a s' => rw [hr] at h; exact h
  | error e s' => rw [hr] at h; exact hf e s' h

/-- An invariant of two pieces of code is one of their sequence. -/
theorem Keeps.bind {I : σ → Prop} {x : EStateM ε σ α} {f : α → EStateM ε σ β} (hx : Keeps I x)
    (hf : ∀ a, Keeps I (f a)) : Keeps I (x >>= f) :=
  Triple.bind hx hf

/-- and keeps every invariant, -/
theorem Keeps.pure {I : σ → Prop} (a : α) : Keeps I (Pure.pure a : EStateM ε σ α) :=
  fun _ hs => hs

/-- as an exception does. -/
theorem Keeps.throw {I : σ → Prop} (e : ε) : Keeps I (throw e : EStateM ε σ α) :=
  fun _ hs => hs

/-- A handler keeps what it and its body keep. -/
theorem Keeps.tryCatch {I : σ → Prop} {x : EStateM ε σ α} {f : ε → EStateM ε σ α}
    (hx : Keeps I x) (hf : ∀ e, Keeps I (f e)) : Keeps I (MonadExcept.tryCatch x f) :=
  Triple.tryCatch hx hf

/-- Reading the state keeps every invariant that the code after it keeps. -/
theorem Keeps.get_bind {I : σ → Prop} {f : σ → EStateM ε σ β} (hf : ∀ s, Keeps I (f s)) :
    Keeps I (get >>= f) :=
  fun s hs => hf s s hs

/-- A modification keeps what its function keeps. -/
theorem Keeps.modify {I : σ → Prop} {g : σ → σ} (h : ∀ s, I s → I (g s)) :
    Keeps I (modify g : EStateM ε σ PUnit) :=
  fun s hs => h s hs

/-- A loop over a list keeps what its body keeps. -/
theorem Keeps.forM {I : σ → Prop} {f : α → EStateM ε σ PUnit} (hf : ∀ a, Keeps I (f a)) :
    ∀ as : List α, Keeps I (forM as f)
  | [] => fun _ hs => hs
  | a :: as => by
    rw [List.forM_cons]
    exact Keeps.bind (hf a) fun _ => Keeps.forM hf as

/-! ### Two pieces of code -/

variable {α' β' : Type}

/-- `x` and `y`, started in one state with `P`, both return in one state, with `Q` of their results,
or both throw the same exception in one state, with `E`. -/
def Relates (P : σ → Prop) (x : EStateM ε σ α) (y : EStateM ε σ α') (Q : α → α' → σ → Prop)
    (E : ε → σ → Prop) : Prop :=
  ∀ s, P s → match x.run s, y.run s with
    | .ok a s₁, .ok b s₂ => s₁ = s₂ ∧ Q a b s₁
    | .error e s₁, .error e' s₂ => (e = e' ∧ s₁ = s₂) ∧ E e s₁
    | _, _ => False

/-- Code does what it does itself. -/
theorem Triple.relates {P : σ → Prop} {x : EStateM ε σ α} {Q : α → σ → Prop} {E : ε → σ → Prop}
    (h : Triple P x Q E) : Relates P x x (fun a b s => a = b ∧ Q a s) E := by
  intro s hs
  have := h s hs
  cases hx : x.run s with
  | ok a s' =>
    rw [hx] at this
    exact ⟨rfl, rfl, this⟩
  | error e s' =>
    rw [hx] at this
    exact ⟨⟨rfl, rfl⟩, this⟩

/-- The rule of consequence for two programs. -/
theorem Relates.conseq {P P' : σ → Prop} {x : EStateM ε σ α} {y : EStateM ε σ α'}
    {Q Q' : α → α' → σ → Prop} {E E' : ε → σ → Prop} (h : Relates P x y Q E) (hP : ∀ s, P' s → P s)
    (hQ : ∀ a b s, Q a b s → Q' a b s) (hE : ∀ e s, E e s → E' e s) : Relates P' x y Q' E' := by
  intro s hs
  have := h s (hP s hs)
  cases hx : x.run s <;> cases hy : y.run s <;> rw [hx, hy] at this
  · exact ⟨this.1, hQ _ _ _ this.2⟩
  · exact this
  · exact this
  · exact ⟨this.1, hE _ _ this.2⟩

/-- Two values are related, -/
theorem Relates.pure {P : σ → Prop} {a : α} {b : α'} {Q : α → α' → σ → Prop} {E : ε → σ → Prop}
    (h : ∀ s, P s → Q a b s) :
    Relates P (Pure.pure a : EStateM ε σ α) (Pure.pure b : EStateM ε σ α') Q E :=
  fun s hs => ⟨rfl, h s hs⟩

/-- two programs step by step, -/
theorem Relates.bind {P : σ → Prop} {x : EStateM ε σ α} {y : EStateM ε σ α'}
    {f : α → EStateM ε σ β} {g : α' → EStateM ε σ β'} {Q : α → α' → σ → Prop}
    {R : β → β' → σ → Prop} {E : ε → σ → Prop} (h : Relates P x y Q E)
    (hfg : ∀ a b, Relates (Q a b) (f a) (g b) R E) : Relates P (x >>= f) (y >>= g) R E := by
  intro s hs
  have := h s hs
  rw [EStateM.run_bind, EStateM.run_bind]
  cases hx : x.run s <;> cases hy : y.run s <;> rw [hx, hy] at this
  · obtain ⟨rfl, hQ⟩ := this
    exact hfg _ _ _ hQ
  · exact this.elim
  · exact this.elim
  · exact this

/-- and one exception to itself. -/
theorem Relates.throw {P : σ → Prop} {e : ε} {Q : α → α' → σ → Prop} {E : ε → σ → Prop}
    (h : ∀ s, P s → E e s) :
    Relates P (throw e : EStateM ε σ α) (MonadExcept.throw e : EStateM ε σ α') Q E :=
  fun s hs => ⟨⟨rfl, rfl⟩, h s hs⟩

/-- Reading the state: the rest is related for each state that may have been read. -/
theorem Relates.get_bind {P : σ → Prop} {f : σ → EStateM ε σ β} {g : σ → EStateM ε σ β'}
    {R : β → β' → σ → Prop} {E : ε → σ → Prop}
    (hfg : ∀ s, P s → Relates (· = s) (f s) (g s) R E) : Relates P (get >>= f) (get >>= g) R E := by
  intro s hs
  have := hfg s hs s rfl
  simpa using this

/-- Handlers that do the same behind code that does the same. -/
theorem Relates.tryCatch {P : σ → Prop} {x y : EStateM ε σ α} {f : ε → EStateM ε σ α}
    {g : ε → EStateM ε σ α} {Q : α → α → σ → Prop} {E E' : ε → σ → Prop} (h : Relates P x y Q E)
    (hfg : ∀ e, Relates (E e) (f e) (g e) Q E') :
    Relates P (MonadExcept.tryCatch x f) (MonadExcept.tryCatch y g) Q E' := by
  intro s hs
  have := h s hs
  rw [tryCatch_run, tryCatch_run]
  cases hx : x.run s <;> cases hy : y.run s <;> rw [hx, hy] at this
  · exact this
  · exact this.elim
  · exact this.elim
  · obtain ⟨⟨rfl, rfl⟩, hE⟩ := this
    exact hfg _ _ hE

end

end Hoare
