import Mathlib.Data.List.Induction
import Mathlib.Logic.Function.Basic

/-! Runs of a partial deterministic machine. `step` takes a state and an event
and either fails or returns the next state; `Run step P s₀ es s` is a run over
the events `es`, taken in order, every step of which starts in a state and with
an event that satisfy `P`. -/

namespace OSK.Lib

universe u v

/-- A computation in two parts that comes back has two parts that come back. -/
theorem bind_ok {φ : Type u} {α β : Type v} {x : Except φ α} {f : α → Except φ β} {b : β}
    (h : x >>= f = .ok b) : ∃ a, x = .ok a ∧ f a = .ok b := by
  cases x with
  | error e => cases h
  | ok a => exact ⟨a, rfl, h⟩

/-- A computation in two parts fails in one of them. -/
theorem bind_error {φ : Type u} {α β : Type v} {x : Except φ α} {f : α → Except φ β} {e : φ}
    (h : x >>= f = .error e) : x = .error e ∨ ∃ a, x = .ok a ∧ f a = .error e := by
  cases x with
  | error e' =>
    cases h
    exact Or.inl rfl
  | ok a => exact Or.inr ⟨a, rfl, h⟩

/-- A computation in two parts comes back when both do. -/
theorem bind_total {φ : Type u} {α β : Type v} {x : Except φ α} {f : α → Except φ β} {a : α}
    (hx : x = .ok a) (hf : ∃ b, f a = .ok b) : ∃ b, x >>= f = .ok b := by
  subst hx
  exact hf

variable {σ ε φ : Type*} {step : σ → ε → Except φ σ} {P : σ → ε → Prop}

inductive Run (step : σ → ε → Except φ σ) (P : σ → ε → Prop) (s₀ : σ) : List ε → σ → Prop
  | nil : Run step P s₀ [] s₀
  | snoc {es : List ε} {s : σ} {e : ε} {s' : σ} :
      Run step P s₀ es s → P s e → step s e = .ok s' → Run step P s₀ (es ++ [e]) s'

/-- An invariant of the first state that every allowed step keeps holds at the end. -/
theorem Run.invariant (Inv : σ → Prop) {s₀ s : σ} {es : List ε} (h : Run step P s₀ es s)
    (h0 : Inv s₀) (hs : ∀ s e s', Inv s → P s e → step s e = .ok s' → Inv s') : Inv s := by
  induction h with
  | nil => exact h0
  | snoc _ hP hstep ih => exact hs _ _ _ ih hP hstep

theorem Run.trans {s₀ s₁ s₂ : σ} {es es' : List ε} (h : Run step P s₀ es s₁)
    (h' : Run step P s₁ es' s₂) : Run step P s₀ (es ++ es') s₂ := by
  induction h' with
  | nil => simpa using h
  | snoc _ hP hstep ih =>
    rw [← List.append_assoc]
    exact .snoc ih hP hstep

theorem Run.single {s s' : σ} {e : ε} (hP : P s e) (h : step s e = .ok s') :
    Run step P s [e] s' := Run.snoc .nil hP h

theorem Run.stays {s s' : σ} {es : List ε} (h : Run step P s es s') (hes : es = []) : s' = s := by
  cases h with
  | nil => rfl
  | snoc => simp at hes

/-- A run from a state in which no event is allowed. -/
theorem Run.idle {s s' : σ} {es : List ε} (h : Run step P s es s') (hs : ∀ e, ¬P s e) : s' = s := by
  induction h with
  | nil => rfl
  | snoc _ hP _ ih =>
    rw [ih] at hP
    exact absurd hP (hs _)

/-- The last step of a run. -/
theorem Run.last {s s' : σ} {e : ε} {es : List ε} (h : Run step P s (es ++ [e]) s') :
    ∃ s₁, Run step P s es s₁ ∧ P s₁ e ∧ step s₁ e = .ok s' := by
  generalize hes : es ++ [e] = l at h
  cases h with
  | nil => simp at hes
  | snoc hrun hP hstep =>
    obtain ⟨rfl, ⟨⟩⟩ := List.append_inj' hes rfl
    exact ⟨_, hrun, hP, hstep⟩

/-- A run over one event is a step. -/
theorem Run.one {s s' : σ} {e : ε} (h : Run step P s [e] s') : P s e ∧ step s e = .ok s' := by
  obtain ⟨s₁, hrun, hP, hstep⟩ : ∃ s₁, Run step P s [] s₁ ∧ P s₁ e ∧ step s₁ e = .ok s' :=
    Run.last h
  obtain rfl := hrun.stays rfl
  exact ⟨hP, hstep⟩

theorem Run.mono {Q : σ → ε → Prop} {s s' : σ} {es : List ε} (h : Run step P s es s')
    (hPQ : ∀ s e, P s e → Q s e) : Run step Q s es s' := by
  induction h with
  | nil => exact .nil
  | snoc _ hP hstep ih => exact .snoc ih (hPQ _ _ hP) hstep

/-- A run over two lists of events passes through a state between them, which
satisfies `P` if it is not the last one. -/
theorem Run.split {s s' : σ} {es es' : List ε} (h : Run step P s (es ++ es') s') :
    ∃ s₁, Run step P s es s₁ ∧ Run step P s₁ es' s' ∧ (s₁ = s' ∨ ∃ e, P s₁ e) := by
  induction es' using List.reverseRecOn generalizing s' with
  | nil => exact ⟨s', by simpa using h, .nil, Or.inl rfl⟩
  | append_singleton es' e ih =>
    rw [← List.append_assoc] at h
    obtain ⟨s₂, h₂, hP, hstep⟩ := h.last
    obtain ⟨s₁, h₁, h', hs₁⟩ := ih h₂
    refine ⟨s₁, h₁, .snoc h' hP hstep, Or.inr ?_⟩
    rcases hs₁ with rfl | hs₁
    · exact ⟨e, hP⟩
    · exact hs₁

/-- The events determine the run. -/
theorem Run.unique {Q : σ → ε → Prop} {s s₁ s₂ : σ} {es : List ε} (h : Run step P s es s₁)
    (h' : Run step Q s es s₂) : s₁ = s₂ := by
  induction h generalizing s₂ with
  | nil => exact (h'.stays rfl).symm
  | snoc _ _ hstep ih =>
    obtain ⟨s₃, h₃, -, hstep'⟩ := h'.last
    rw [ih h₃, hstep'] at hstep
    exact (Except.ok.inj hstep).symm

/-- A relation that every step of one machine keeps with a step of another is kept by
runs: the second machine has a run over the events `f` makes of those of the first. -/
theorem Run.simulates {τ δ ψ : Type*} {step' : τ → δ → Except ψ τ} {Q : τ → δ → Prop} (f : ε → δ)
    (R : σ → τ → Prop) {s₀ s : σ} {t₀ : τ} {es : List ε} (h : Run step P s₀ es s) (h0 : R s₀ t₀)
    (hs : ∀ s t e s', R s t → P s e → step s e = .ok s' →
      Q t (f e) ∧ ∃ t', step' t (f e) = .ok t' ∧ R s' t') :
    ∃ t, Run step' Q t₀ (es.map f) t ∧ R s t := by
  induction h with
  | nil => exact ⟨t₀, .nil, h0⟩
  | @snoc es s₁ e s₂ _ hP hstep ih =>
    obtain ⟨t₁, hrun, hR⟩ := ih
    obtain ⟨hQ, t₂, hstep', hR'⟩ := hs s₁ t₁ e s₂ hR hP hstep
    refine ⟨t₂, ?_, hR'⟩
    rw [List.map_append]
    exact hrun.snoc hQ hstep'

/-- A relation that each step of one machine keeps with some run of another is kept by runs. -/
theorem Run.refines {τ δ ψ : Type*} {step' : τ → δ → Except ψ τ} {Q : τ → δ → Prop}
    (R : σ → τ → Prop) {s₀ s : σ} {t₀ : τ} {es : List ε} (h : Run step P s₀ es s) (h0 : R s₀ t₀)
    (hs : ∀ s t e s', R s t → P s e → step s e = .ok s' →
      ∃ ds t', Run step' Q t ds t' ∧ R s' t') :
    ∃ ds t, Run step' Q t₀ ds t ∧ R s t := by
  induction h with
  | nil => exact ⟨[], t₀, .nil, h0⟩
  | @snoc es s₁ e s₂ _ hP hstep ih =>
    obtain ⟨ds, t₁, hrun, hR⟩ := ih
    obtain ⟨ds', t₂, hrun', hR'⟩ := hs s₁ t₁ e s₂ hR hP hstep
    exact ⟨ds ++ ds', t₂, hrun.trans hrun', hR'⟩

/-- When a step that meets `C` keeps an invariant of the good states and any other
step leaves a bad one, the states of a run are all good exactly when all its
steps meet `C`. -/
theorem Run.good_iff {C : σ → ε → Prop} {Good : σ → Prop} (Inv : σ → Prop) {s s' : σ}
    {es : List ε} (h : Run step P s es s') (h0 : Inv s) (hgood : ∀ s, Inv s → Good s)
    (hkeep : ∀ s e s', Inv s → P s e → C s e → step s e = .ok s' → Inv s')
    (hbreak : ∀ s e s', Inv s → P s e → ¬C s e → step s e = .ok s' → ¬Good s') :
    (∀ es₁ es₂ s₁, es = es₁ ++ es₂ → Run step P s es₁ s₁ → Good s₁) ↔
      Run step (fun s e => P s e ∧ C s e) s es s' := by
  have hinv : ∀ {es s'}, Run step (fun s e => P s e ∧ C s e) s es s' → Inv s' := by
    intro es s' h
    exact h.invariant Inv h0 fun s e s' hi hPC hstep => hkeep s e s' hi hPC.1 hPC.2 hstep
  refine ⟨?_, ?_⟩
  · intro hall
    induction h with
    | nil => exact .nil
    | @snoc es s₁ e s₂ hrun hP hstep ih =>
      have hmeets : Run step (fun s e => P s e ∧ C s e) s es s₁ :=
        ih fun es₁ es₂ s₁ hes => hall es₁ (es₂ ++ [e]) s₁ (by rw [hes, List.append_assoc])
      refine hmeets.snoc ⟨hP, ?_⟩ hstep
      by_contra hC
      exact hbreak s₁ e s₂ (hinv hmeets) hP hC hstep
        (hall (es ++ [e]) [] s₂ (by simp) (hrun.snoc hP hstep))
  · rintro hmeets es₁ es₂ s₁ rfl h₁
    obtain ⟨s₂, h₂, -⟩ := hmeets.split
    obtain rfl : s₁ = s₂ := h₁.unique h₂
    exact hgood s₁ (hinv h₂)

/-- Executing the events one after another, as long as `P` allows them and none
fails. -/
def exec (step : σ → ε → Except φ σ) (P : σ → ε → Prop) [∀ s e, Decidable (P s e)] :
    σ → List ε → Option σ
  | s, [] => some s
  | s, e :: es =>
    if P s e then
      match step s e with
      | .ok s' => exec step P s' es
      | .error _ => none
    else none

variable [∀ s e, Decidable (P s e)]

theorem run_of_exec {s s' : σ} {es : List ε} (h : exec step P s es = some s') :
    Run step P s es s' := by
  induction es generalizing s with
  | nil =>
    cases h
    exact .nil
  | cons e es ih =>
    unfold exec at h
    split_ifs at h with he
    cases hs : step s e with
    | error f => simp [hs] at h
    | ok s₁ =>
      simp only [hs] at h
      exact (Run.single he hs).trans (ih h)

theorem exec_one {s s' : σ} {e : ε} (h : exec step P s [e] = some s') : step s e = .ok s' := by
  unfold exec at h
  split_ifs at h
  cases hs : step s e with
  | error f => simp [hs] at h
  | ok s₁ =>
    simp only [hs, exec, Option.some.injEq] at h
    rw [h]

/-- A run with what can be computed about its last state. -/
theorem exists_run_from {s : σ} {es : List ε} {q : σ → Bool}
    (h : (exec step P s es).any q = true) : ∃ s', Run step P s es s' ∧ q s' = true := by
  cases hs : exec step P s es with
  | none => simp [hs] at h
  | some s' => exact ⟨s', run_of_exec hs, by simpa [hs] using h⟩

/-- A run from a first state that is itself computed, with what can be computed
about its last state. -/
theorem exists_run {o : Option σ} {es : List ε} {q : σ → Bool}
    (h : (o.bind fun s => exec step P s es).any q = true) :
    ∃ s₀ s, o = some s₀ ∧ Run step P s₀ es s ∧ q s = true := by
  cases ho : o with
  | none => simp [ho] at h
  | some s₀ =>
    rw [ho] at h
    obtain ⟨s, hs, hq⟩ := exists_run_from h
    exact ⟨s₀, s, rfl, hs, hq⟩

end OSK.Lib
