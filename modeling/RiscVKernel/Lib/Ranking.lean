import Mathlib.Data.List.Basic
import Mathlib.Data.List.TakeWhile
import RiscVKernel.Lib.Runs

/-! Waiting for a turn. When no step moves who waits back, and each step that
serves somebody moves it forward or ends the wait, the wait ends after at most
as many servings as there were places in front, and one more. -/

namespace OSK.Lib

variable {σ ε φ : Type*} {step : σ → ε → Except φ σ} {P : σ → ε → Prop}

/-- The steps over a list of events: the state each of them starts in and its
event. -/
def steps (step : σ → ε → Except φ σ) : σ → List ε → List (σ × ε)
  | _, [] => []
  | s, e :: es => (s, e) :: match step s e with
    | .ok s' => steps step s' es
    | .error _ => []

/-- How many of the steps satisfy `c`. -/
def tally (step : σ → ε → Except φ σ) (c : σ → ε → Bool) (s : σ) (es : List ε) : ℕ :=
  (steps step s es).countP fun p => c p.1 p.2

variable {s s' s₁ : σ} {e : ε} {es es' : List ε} {c : σ → ε → Bool}

theorem Run.steps_append (h : Run step P s es s₁) :
    steps step s (es ++ es') = steps step s es ++ steps step s₁ es' := by
  induction h generalizing es' with
  | nil => rfl
  | snoc _ _ hstep ih =>
    rw [List.append_assoc, ih, ih]
    simp [steps, hstep]

theorem Run.tally_snoc (h : Run step P s es s₁) :
    tally step c s (es ++ [e]) = tally step c s es + if c s₁ e then 1 else 0 := by
  unfold tally
  have hone : steps step s₁ [e] = [(s₁, e)] := by
    unfold steps
    cases step s₁ e <;> rfl
  rw [h.steps_append, hone, List.countP_append, List.countP_singleton]

/-- How often one event occurs. -/
theorem Run.tally_count [DecidableEq ε] {a : ε} (h : Run step P s es s') :
    tally step (fun _ e => decide (e = a)) s es = es.count a := by
  induction h with
  | nil => rfl
  | snoc hrun _ _ ih =>
    rw [hrun.tally_snoc, ih, List.count_append, List.count_singleton]
    simp

/-- Some step of the run from `s` over `es` to `s'` satisfies `Out`. -/
def Met (step : σ → ε → Except φ σ) (P : σ → ε → Prop) (Out : σ → ε → σ → Prop) (s : σ)
    (es : List ε) (s' : σ) : Prop :=
  ∃ es₁ e es₂ s₁ s₂, es = es₁ ++ e :: es₂ ∧ Run step P s es₁ s₁ ∧ step s₁ e = .ok s₂ ∧
    Run step P s₂ es₂ s' ∧ Out s₁ e s₂

variable {Out : σ → ε → σ → Prop} {Inv Waiting : σ → Prop} {rank : σ → ℕ}

theorem Met.snoc (h : Met step P Out s es s₁) (hP : P s₁ e) (hstep : step s₁ e = .ok s') :
    Met step P Out s (es ++ [e]) s' := by
  obtain ⟨es₁, e₁, es₂, s₂, s₃, rfl, h₁, h₂, h₃, ho⟩ := h
  exact ⟨es₁, e₁, es₂ ++ [e], s₂, s₃, by simp, h₁, h₂, h₃.snoc hP hstep, ho⟩

theorem Met.after (h : Met step P Out s₁ es' s') (h₁ : Run step P s es s₁) :
    Met step P Out s (es ++ es') s' := by
  obtain ⟨as, e, bs, s₂, s₃, rfl, h₂, hstep, h₃, ho⟩ := h
  exact ⟨es ++ as, e, bs, s₂, s₃, by simp, h₁.trans h₂, hstep, h₃, ho⟩

/-- A rank that no step raises and that every serving step lowers, as long as the
wait goes on. -/
theorem Run.ranked (h : Run step P s es s') (hi : Inv s) (hw : Waiting s)
    (hinv : ∀ s e s', Inv s → P s e → step s e = .ok s' → Inv s')
    (hrank : ∀ s e s', Inv s → P s e → Waiting s → step s e = .ok s' →
      Out s e s' ∨ Waiting s' ∧ rank s' + (if c s e then 1 else 0) ≤ rank s) :
    Inv s' ∧ (Met step P Out s es s' ∨ Waiting s' ∧ rank s' + tally step c s es ≤ rank s) := by
  induction h with
  | nil => exact ⟨hi, Or.inr ⟨hw, Nat.le_refl _⟩⟩
  | @snoc es s₁ e s' hrun hP hstep ih =>
    obtain ⟨hi₁, hcase⟩ := ih
    refine ⟨hinv _ _ _ hi₁ hP hstep, ?_⟩
    rcases hcase with hm | ⟨hw₁, hle⟩
    · exact Or.inl (hm.snoc hP hstep)
    · rcases hrank _ _ _ hi₁ hP hw₁ hstep with ho | ⟨hw', hle'⟩
      · exact Or.inl ⟨es, e, [], s₁, s', rfl, hrun, hstep, .nil, ho⟩
      · rw [hrun.tally_snoc]
        exact Or.inr ⟨hw', by omega⟩

/-- After one serving more than its rank the wait is over. -/
theorem Run.served (h : Run step P s es s') (hi : Inv s) (hw : Waiting s)
    (hinv : ∀ s e s', Inv s → P s e → step s e = .ok s' → Inv s')
    (hrank : ∀ s e s', Inv s → P s e → Waiting s → step s e = .ok s' →
      Out s e s' ∨ Waiting s' ∧ rank s' + (if c s e then 1 else 0) ≤ rank s)
    (hn : rank s + 1 ≤ tally step c s es) : Met step P Out s es s' := by
  rcases (h.ranked hi hw hinv hrank).2 with hm | ⟨-, hle⟩
  · exact hm
  · omega

/-- When no step raises a rank, each `a` lowers it or ends in a state that is never left again,
as many `a` as the rank, and one more, end there. -/
theorem Run.settles [DecidableEq ε] (Inv Done : σ → Prop) (rank : σ → ℕ) {a : ε}
    (h : Run step P s es s') (hi : Inv s)
    (hinv : ∀ s e s', Inv s → P s e → step s e = .ok s' → Inv s')
    (hrank : ∀ s e s', Inv s → P s e → step s e = .ok s' →
      Done s' ∨ rank s' + (if e = a then 1 else 0) ≤ rank s)
    (hdone : ∀ s e s', Inv s → P s e → step s e = .ok s' → Done s → Done s')
    (hn : rank s + 1 ≤ es.count a) : Done s' := by
  have hall : Inv s' ∧ (Done s' ∨ rank s' + es.count a ≤ rank s) := by
    clear hn
    induction h with
    | nil => exact ⟨hi, Or.inr (Nat.le_refl _)⟩
    | @snoc es s₁ e s' hrun hP hstep ih =>
      obtain ⟨hi₁, hcase⟩ := ih
      refine ⟨hinv _ _ _ hi₁ hP hstep, ?_⟩
      rcases hcase with hd | hle
      · exact Or.inl (hdone _ _ _ hi₁ hP hstep hd)
      · refine (hrank _ _ _ hi₁ hP hstep).imp_right fun hle' => ?_
        rw [List.count_append, List.count_singleton]
        simp only [beq_iff_eq]
        omega
  rcases hall.2 with hd | hle
  · exact hd
  · omega

/-- When `d` is spent at most `b` at a time between two steps that satisfy `c`,
it bounds how many of those there are. -/
theorem Run.spent {d : σ → ε → Bool} {b : ℕ} {saved : σ → ℕ} (h : Run step P s es s')
    (hi : Inv s) (hinv : ∀ s e s', Inv s → P s e → step s e = .ok s' → Inv s')
    (hstep : ∀ s e s', Inv s → P s e → step s e = .ok s' →
      saved s + (if d s e then 1 else 0) ≤ saved s' + if c s e then b else 0) :
    Inv s' ∧ saved s + tally step d s es ≤ saved s' + b * tally step c s es := by
  induction h with
  | nil => exact ⟨hi, Nat.le_refl _⟩
  | @snoc es s₁ e s' hrun hP hs ih =>
    obtain ⟨hi₁, hle⟩ := ih
    refine ⟨hinv _ _ _ hi₁ hP hs, ?_⟩
    have := hstep _ _ _ hi₁ hP hs
    rw [hrun.tally_snoc, hrun.tally_snoc, Nat.mul_add]
    split_ifs at * <;> omega

/-- Who leaves a queue moves nobody back. -/
theorem idxOf_le_of_sublist {α : Type*} [DecidableEq α] {l l' : List α} {x : α} (h : l'.Sublist l)
    (hnd : l.Nodup) (hx : x ∈ l') : l'.idxOf x ≤ l.idxOf x := by
  induction h with
  | slnil => cases hx
  | @cons l' l a h ih =>
    rw [List.nodup_cons] at hnd
    have hne : a ≠ x := fun he => hnd.1 (he ▸ h.subset hx)
    rw [List.idxOf_cons_ne _ hne]
    exact (ih hnd.2 hx).trans (Nat.le_succ _)
  | @cons_cons l' l a h ih =>
    rw [List.nodup_cons] at hnd
    by_cases ha : a = x
    · simp [ha]
    · rw [List.idxOf_cons_ne _ ha, List.idxOf_cons_ne _ ha]
      exact Nat.succ_le_succ (ih hnd.2 ((List.mem_cons.1 hx).resolve_left (Ne.symm ha)))

/-- The place in a queue is a rank: serving the first member that is not skipped
moves the others forward. -/
theorem served_forward {α : Type*} [DecidableEq α] {skip : α → Bool} {l l' q : List α} {a x : α}
    (h : (l ++ l').dropWhile skip = a :: q) (hx : x ∈ l) (hskip : skip x = false) :
    a = x ∨ x ∈ q ∧ q.idxOf x < l.idxOf x := by
  have hsplit := List.takeWhile_append_dropWhile (p := skip) (l := l ++ l')
  rw [h] at hsplit
  have hno : x ∉ (l ++ l').takeWhile skip := fun hin => by
    have := List.mem_takeWhile_imp hin
    simp [hskip] at this
  have hin : x ∈ a :: q := by
    have := List.mem_append_left l' hx
    rw [← hsplit] at this
    exact (List.mem_append.1 this).resolve_left hno
  have hidx := congrArg (List.idxOf x) hsplit
  rw [List.idxOf_append_of_mem hx, List.idxOf_append_of_notMem hno] at hidx
  by_cases ha : a = x
  · exact Or.inl ha
  · rw [List.idxOf_cons_ne _ ha] at hidx
    refine Or.inr ⟨(List.mem_cons.1 hin).resolve_left (Ne.symm ha), ?_⟩
    omega

end OSK.Lib
