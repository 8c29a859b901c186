import RiscVKernel.Lib.Runs

/-! Waiting lines. In every step of a machine somebody may join the line at its
end, or some of those who wait may leave it. Then they stand in the order they
came in, so that whoever is served from the front has waited longest. -/

namespace OSK.Lib

variable {σ ε φ α : Type*} {step : σ → ε → Except φ σ} {line : σ → List α}
  {joins : σ → ε → α → Prop} {Inv : σ → Prop} {s₀ s s₁ s₂ : σ} {es es₁ es₂ : List ε} {x y : α}
  {i j : ℕ}

/-- In the run over `es` from `s₀` to `s`, `x` joined the line in the step number
`i` and has stood in it ever since. -/
def Since (step : σ → ε → Except φ σ) (line : σ → List α) (joins : σ → ε → α → Prop) (s₀ : σ)
    (es : List ε) (s : σ) (x : α) (i : ℕ) : Prop :=
  ∃ es₁ e es₂ s₁ s₂, es = es₁ ++ e :: es₂ ∧ es₁.length = i ∧
    Run step (fun _ _ => True) s₀ es₁ s₁ ∧ joins s₁ e x ∧ step s₁ e = .ok s₂ ∧
    Run step (fun s _ => x ∈ line s) s₂ es₂ s ∧ x ∈ line s

/-- A line that is joined at its end, by those who do not stand in it. -/
structure Lined (step : σ → ε → Except φ σ) (line : σ → List α) (joins : σ → ε → α → Prop)
    (Inv : σ → Prop) : Prop where
  inv : ∀ s e s', Inv s → step s e = .ok s' → Inv s'
  outside : ∀ s e x, Inv s → joins s e x → x ∉ line s
  moves : ∀ s e s', Inv s → step s e = .ok s' →
    (line s').Sublist (line s) ∨ ∃ x, joins s e x ∧ line s' = line s ++ [x]

theorem Lined.run_inv (hl : Lined step line joins Inv) {P : σ → ε → Prop}
    (h : Run step P s₀ es s) (h₀ : Inv s₀) : Inv s :=
  h.invariant Inv h₀ fun _ _ _ hi _ hs => hl.inv _ _ _ hi hs

theorem Since.lt (h : Since step line joins s₀ es s x i) : i < es.length := by
  obtain ⟨es₁, e, es₂, s₁, s₂, rfl, rfl, -⟩ := h
  simp

theorem Since.stands (h : Since step line joins s₀ es s x i) : x ∈ line s := by
  obtain ⟨_, _, _, _, _, -, -, -, -, -, -, hin⟩ := h
  exact hin

/-- Who has stood in the line ever since stood in it before. -/
theorem Since.before (h : Since step line joins s₀ (es₁ ++ es₂) s₂ x i)
    (h₁ : Run step (fun _ _ => True) s₀ es₁ s₁) (hi : i < es₁.length) :
    Since step line joins s₀ es₁ s₁ x i := by
  obtain ⟨as, e, bs, sj, sk, hes, rfl, hrun, hj, hstep, hwait, hin⟩ := h
  obtain ⟨cs, rfl, rfl⟩ : ∃ cs, es₁ = as ++ e :: cs ∧ bs = cs ++ es₂ := by
    obtain ⟨cs, hcs, hcs'⟩ | ⟨cs, hcs, hcs'⟩ := List.append_eq_append_iff.1 hes
    · rw [hcs, List.length_append] at hi
      omega
    · cases cs with
      | nil => simp [hcs] at hi
      | cons c cs =>
        obtain ⟨rfl, rfl⟩ := List.cons.inj hcs'
        exact ⟨cs, hcs, rfl⟩
  obtain ⟨sm, hm, -, hend⟩ := hwait.split
  have hsame : sm = s₁ := by
    have hlong := (hrun.snoc trivial hstep).trans (hm.mono fun _ _ _ => trivial)
    rw [List.append_assoc] at hlong
    exact hlong.unique h₁
  subst hsame
  refine ⟨as, e, cs, sj, sk, rfl, rfl, hrun, hj, hstep, hm, ?_⟩
  rcases hend with rfl | ⟨-, hsm⟩
  · exact hin
  · exact hsm

/-- Who stands in the line after another step stands there since the same time. -/
theorem Since.snoc {e : ε} (h : Since step line joins s₀ es s x i) (hstep : step s e = .ok s₁)
    (hin : x ∈ line s₁) : Since step line joins s₀ (es ++ [e]) s₁ x i := by
  obtain ⟨as, e₁, bs, sj, sk, rfl, hlen, hrun, hj, hs, hwait, hold⟩ := h
  exact ⟨as, e₁, bs ++ [e], sj, sk, by simp, hlen, hrun, hj, hs, hwait.snoc hold hstep, hin⟩

/-- Those in the line stand there since different times, in the order of these. -/
def InOrder (step : σ → ε → Except φ σ) (line : σ → List α) (joins : σ → ε → α → Prop) (s₀ : σ)
    (es : List ε) (s : σ) : Prop :=
  (∀ x ∈ line s, ∃ i, Since step line joins s₀ es s x i) ∧
    (line s).Pairwise fun x y => ∀ i j, Since step line joins s₀ es s x i →
      Since step line joins s₀ es s y j → i < j

/-- Who joins in the last step stands there since that step. -/
theorem Since.last {e : ε} (h : Since step line joins s₀ (es ++ [e]) s₁ x i)
    (hrun : Run step (fun _ _ => True) s₀ es s) (hout : x ∉ line s) : i = es.length := by
  have hlt := h.lt
  rw [List.length_append, List.length_singleton] at hlt
  by_contra hne
  exact hout (h.before hrun (by omega)).stands

/-- Who stood in the line before the last step has not joined in it. -/
theorem Since.earlier {e : ε} (hl : Lined step line joins Inv) (h₀ : Inv s₀)
    (h : Since step line joins s₀ (es ++ [e]) s₁ x i)
    (hrun : Run step (fun _ _ => True) s₀ es s) (hin : x ∈ line s) : i < es.length := by
  have hlt := h.lt
  rw [List.length_append, List.length_singleton] at hlt
  by_contra hge
  obtain ⟨as, e₁, bs, sj, sk, hes, hlen, hrun', hj, -⟩ := h
  have hbs : bs = [] := by
    have hlens := congrArg List.length hes
    rw [List.length_append, List.length_append, List.length_singleton, List.length_cons] at hlens
    exact List.eq_nil_of_length_eq_zero (by omega)
  subst hbs
  obtain ⟨rfl, -⟩ := List.append_inj' hes rfl
  rw [hrun'.unique hrun] at hj
  exact hl.outside s e₁ x (hl.run_inv hrun h₀) hj hin

theorem Lined.in_order (hl : Lined step line joins Inv) (h₀ : Inv s₀) (hnil : line s₀ = [])
    (h : Run step (fun _ _ => True) s₀ es s) : InOrder step line joins s₀ es s := by
  induction h with
  | nil => simp [InOrder, hnil]
  | @snoc es s e s' hrun _ hstep ih =>
    obtain ⟨hsince, hpair⟩ := ih
    have hback : ∀ x ∈ line s, ∀ i, Since step line joins s₀ (es ++ [e]) s' x i →
        Since step line joins s₀ es s x i :=
      fun x hx i hi => hi.before hrun (hi.earlier hl h₀ hrun hx)
    have hpair' : (line s).Pairwise fun x y => ∀ i j,
        Since step line joins s₀ (es ++ [e]) s' x i →
          Since step line joins s₀ (es ++ [e]) s' y j → i < j := by
      apply hpair.imp_of_mem
      intro x y hx hy hxy i j hi hj
      exact hxy i j (hback x hx i hi) (hback y hy j hj)
    rcases hl.moves s e s' (hl.run_inv hrun h₀) hstep with hsub | ⟨z, hj, hline⟩
    · refine ⟨?_, hpair'.sublist hsub⟩
      intro x hx
      obtain ⟨i, hi⟩ := hsince x (hsub.subset hx)
      exact ⟨i, hi.snoc hstep hx⟩
    · have hz := hl.outside s e z (hl.run_inv hrun h₀) hj
      refine ⟨?_, ?_⟩
      · intro x hx
        have hx' := hx
        rw [hline, List.mem_append, List.mem_singleton] at hx
        rcases hx with hx | rfl
        · obtain ⟨i, hi⟩ := hsince x hx
          exact ⟨i, hi.snoc hstep hx'⟩
        · exact ⟨es.length, es, e, [], s, s', rfl, rfl, hrun, hj, hstep, .nil, hx'⟩
      · rw [hline, List.pairwise_append]
        refine ⟨hpair', List.pairwise_singleton _ _, ?_⟩
        intro x hx y hy i i' hi hi'
        rw [List.mem_singleton] at hy
        subst hy
        rw [hi'.last hrun hz]
        exact hi.earlier hl h₀ hrun hx

/-- Nobody who stands in the line later has joined it before one who was first and
left. -/
theorem Lined.first_first {e : ε} {l : List α} (hl : Lined step line joins Inv) (h₀ : Inv s₀)
    (hnil : line s₀ = []) (h₁ : Run step (fun _ _ => True) s₀ es₁ s₁) (hline : line s₁ = x :: l)
    (hi : Since step line joins s₀ es₁ s₁ x i) {s₃ : σ} (hstep : step s₁ e = .ok s₃)
    (hgone : x ∉ line s₃) (hj : Since step line joins s₀ (es₁ ++ e :: es₂) s₂ y j) : i < j := by
  by_cases hlt : j < es₁.length
  · have hy₁ := hj.before h₁ hlt
    have hsplit : es₁ ++ e :: es₂ = (es₁ ++ [e]) ++ es₂ := by simp
    rw [hsplit] at hj
    have hlt₃ : j < (es₁ ++ [e]).length := by
      rw [List.length_append]
      omega
    have hin₃ := (hj.before (h₁.snoc trivial hstep) hlt₃).stands
    have hin₁ := hy₁.stands
    have hne : y ≠ x := fun he => hgone (he ▸ hin₃)
    have hpair := (hl.in_order h₀ hnil h₁).2
    rw [hline, List.pairwise_cons] at hpair
    rw [hline, List.mem_cons] at hin₁
    exact hpair.1 y (hin₁.resolve_left hne) i j hi hy₁
  · have := hi.lt
    omega

end OSK.Lib
