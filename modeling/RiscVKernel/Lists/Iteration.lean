import RiscVKernel.Lists.Insertion

/-! `foreachWhile` with callbacks that change the list. The next node is read before the
callback is called, and what the callback takes out is the first entry with its
argument, which is the current node or one before it. -/

namespace OSK

open Lib

namespace NodeList

variable {ω : Type} {B : HeapBounds} {start total fuel : ℕ} {l l' l₁ : NodeList} {h : Heap}
  {k k₁ k₂ : KList ℕ} {e : Elem ℕ} {xs : List ℕ} {aux aux' : ω} {st : NodeList × ω}

/-- What happens in the memory outside the list. -/
def Elsewhere (B : HeapBounds) (l l' : NodeList) : Prop :=
  ∃ cs, Run (other B) Spares l cs l'

/-- Called for `x`, the callback leaves the list alone or removes the first occurrence
of `x` with `removeSpec`; besides it allocates, frees and writes other blocks. -/
def Callback (B : HeapBounds) (start total : ℕ)
    (func : ℕ → NodeList × ω → Except Fault (NodeList × ω)) : Prop :=
  ∀ x l aux l' aux' xs, Lists start total l xs → func x (l, aux) = .ok (l', aux') →
    Elsewhere B l l' ∨
      ∃ l₁ r l₂, Elsewhere B l l₁ ∧ l₁.removeSpec x = .ok (r, l₂) ∧ Elsewhere B l₂ l'

section Visits

variable (func : ℕ → NodeList × ω → Except Fault (NodeList × ω)) (condition : ℕ → NodeList × ω → Bool)

/-- The callback for one entry of a sequence after another, as long as the condition
holds when it is reached. -/
def visit : List ℕ → NodeList × ω → Except Fault (NodeList × ω)
  | [], st => .ok st
  | x :: xs, st =>
    if condition x st then do
      let st ← func x st
      visit xs st
    else .ok st

/-- The nodes that `foreachWhile` reads, each with the list at that time: it reads
`data` and `next` of a node before the callback for it, and nothing of it later. -/
def readsFrom : ℕ → ℕ → NodeList × ω → List (ℕ × NodeList)
  | 0, _, _ => []
  | fuel + 1, curr, st =>
    if curr = 0 then []
    else (curr, st.1) ::
      if condition (st.1.data curr) st then
        match func (st.1.data curr) st with
        | .error _ => []
        | .ok st' => readsFrom fuel (st.1.next curr) st'
      else []

def reads (st : NodeList × ω) : List (ℕ × NodeList) :=
  readsFrom func condition st.1.loopBound st.1.head st

end Visits

theorem Spells.elsewhere (hs : Spells start total l h k) (hend : start + memBlockSize * total < 2 ^ 64)
    (he : Elsewhere B l l') : ∃ h', Spells start total l' h' k := by
  obtain ⟨cs, hrun⟩ := he
  refine hrun.invariant (fun l => ∃ h, Spells start total l h k) ⟨h, hs⟩ ?_
  rintro l₁ c l₂ ⟨h₁, hs₁⟩ hc hstep
  obtain ⟨l', h', hl', hs'⟩ := hs₁.other (B := B) hend hc
  rw [hl'] at hstep
  cases hstep
  exact ⟨h', hs'⟩

/-- What `removeSpec` takes out for the datum of a node is that node or one before it. -/
theorem removeSpec_before {α : Type} [DecidableEq α] (h : Heap) (k₁ : KList α) (e : Elem α)
    (k₂ : KList α) : ∃ k', (KList.removeSpec h (k₁ ++ e :: k₂) e.data).2.2 = k' ++ k₂ ∧ k'.Sublist (k₁ ++ [e]) := by
  rcases KList.removeSpec_cases h (k₁ ++ e :: k₂) e.data with ⟨hno, -⟩ | ⟨a, f, b, hsplit, hpass, -, hr⟩
  · simp at hno
  · rw [hr]
    rcases List.append_eq_append_iff.1 hsplit with ⟨c, rfl, hc⟩ | ⟨c, rfl, hc⟩
    · cases c with
      | nil =>
        cases hc
        exact ⟨k₁, by simp, List.sublist_append_left _ _⟩
      | cons x c =>
        cases hc
        exact absurd rfl (hpass e (by simp))
    · cases c with
      | nil =>
        cases hc
        exact ⟨a, by simp, by simp⟩
      | cons x c =>
        cases hc
        exact ⟨a ++ c ++ [e], by simp, ((List.sublist_cons_self f c).append_left a).append_right [e]⟩

theorem Spells.next_eq (hs : Spells start total l h (k₁ ++ e :: k₂)) :
    l.next e.node = k₂.nodes.head?.getD 0 := by
  obtain ⟨b, -, rfl, -, hrest⟩ := seg_append.1 (KList.nodes_append k₁ (e :: k₂) ▸ hs.chain)
  exact seg_start hrest

/-- A callback for a node leaves the nodes behind it, in this order, at the end of the
list. -/
theorem Spells.callback {func : ℕ → NodeList × ω → Except Fault (NodeList × ω)}
    (hs : Spells start total l h (k₁ ++ e :: k₂)) (hend : start + memBlockSize * total < 2 ^ 64)
    (hfunc : Callback B start total func) (hok : func e.data (l, aux) = .ok (l', aux')) :
    ∃ h' k', Spells start total l' h' (k' ++ k₂) ∧ k'.Sublist (k₁ ++ [e]) := by
  have hsame : k₁ ++ e :: k₂ = (k₁ ++ [e]) ++ k₂ := by simp
  rcases hfunc _ _ _ _ _ _ ⟨h, _, hs, rfl⟩ hok with hself | ⟨l₁, r, l₂, hbefore, hremove, hafter⟩
  · obtain ⟨h', hs'⟩ := hs.elsewhere hend hself
    exact ⟨h', k₁ ++ [e], hsame ▸ hs', .refl _⟩
  · obtain ⟨h₁, hs₁⟩ := hs.elsewhere hend hbefore
    by_cases h0 : e.data = 0
    · obtain rfl : l₂ = l₁ := by
        simp only [NodeList.removeSpec, if_pos h0] at hremove
        cases hremove
        rfl
      obtain ⟨h', hs'⟩ := hs₁.elsewhere hend hafter
      exact ⟨h', k₁ ++ [e], hsame ▸ hs', .refl _⟩
    · obtain ⟨l₃, hl₃, hs₃⟩ := hs₁.removeSpec hend h0
      obtain rfl : l₃ = l₂ := by
        rw [hl₃] at hremove
        cases hremove
        rfl
      obtain ⟨k', hk', hsub⟩ := removeSpec_before h₁ k₁ e k₂
      rw [hk'] at hs₃
      obtain ⟨h', hs'⟩ := hs₃.elsewhere hend hafter
      exact ⟨h', k', hs', hsub⟩

/-- What holds of the list `l` when the node `p` of it is read. -/
def ReadsLive (p : ℕ) (l : NodeList) : Prop :=
  ∃ nodes xs taken, Shape l nodes xs ∧ p ∈ nodes ∧
    Allocator.Listed l.heap.mem l.heap.headTaken taken ∧ ∃ b ∈ taken, payload b = p

theorem Spells.readsLive (hs : Spells start total l h k) (he : e ∈ k) : ReadsLive e.node l :=
  ⟨k.nodes, k.items, h.taken, hs.shape, mem_nodes he, Allocator.represents_listed hs.heap,
    List.mem_map.1 (hs.owned _ (mem_nodes he))⟩

section Visits

variable {func : ℕ → NodeList × ω → Except Fault (NodeList × ω)} (condition : ℕ → NodeList × ω → Bool)

/-- The loop from the first of the nodes `k₂`, which are what is left of the list. -/
theorem foreachWhileFrom_visit (hend : start + memBlockSize * total < 2 ^ 64)
    (hfunc : Callback B start total func) (hs : Spells start total l h (k₁ ++ k₂))
    (hf : k₂.length < fuel) {curr : ℕ} (hcurr : curr = k₂.nodes.head?.getD 0) (aux : ω) :
    foreachWhileFrom func condition fuel curr (l, aux) = visit func condition k₂.items (l, aux) ∧
      (readsFrom func condition fuel curr (l, aux)).map (·.1) <+: k₂.nodes ∧
      (∀ r ∈ readsFrom func condition fuel curr (l, aux), ReadsLive r.1 r.2) ∧
      ∀ l' aux', visit func condition k₂.items (l, aux) = .ok (l', aux') →
        ∃ h' k', Spells start total l' h' k' ∧ k'.Sublist (k₁ ++ k₂) := by
  induction k₂ generalizing l aux h k₁ fuel curr with
  | nil =>
    obtain ⟨f, rfl⟩ : ∃ f, fuel = f + 1 := ⟨fuel - 1, by simp at hf; omega⟩
    obtain rfl : curr = 0 := hcurr
    refine ⟨by simp [foreachWhileFrom, visit], by simp [readsFrom], by simp [readsFrom], ?_⟩
    rintro l' aux' hl'
    cases hl'
    exact ⟨h, k₁ ++ [], hs, .refl _⟩
  | cons e k₂ ih =>
    obtain ⟨f, rfl⟩ : ∃ f, fuel = f + 1 := ⟨fuel - 1, by simp at hf; omega⟩
    obtain rfl : curr = e.node := hcurr
    have h0 : e.node ≠ 0 := seg_ne_zero hs.chain e.node (mem_nodes (by simp))
    have hdata : l.data e.node = e.data := hs.data e (by simp)
    have hlive : ReadsLive e.node l := hs.readsLive (by simp)
    cases hc : condition e.data (l, aux) with
    | false =>
      refine ⟨by simp [foreachWhileFrom, visit, hdata, hc], ?_, ?_, ?_⟩
      · simp [readsFrom, h0, hdata, hc]
      · simpa [readsFrom, h0, hdata, hc] using hlive
      · intro l' aux' hl'
        simp only [visit, KList.items_cons, hc, Bool.false_eq_true, if_false] at hl'
        cases hl'
        exact ⟨h, _, hs, .refl _⟩
    | true =>
      have hloop : foreachWhileFrom func condition (f + 1) e.node (l, aux) =
          func e.data (l, aux) >>= foreachWhileFrom func condition f (l.next e.node) := by
        simp [foreachWhileFrom, h0, hdata, hc]
      have hvisit : visit func condition (KList.items (e :: k₂)) (l, aux) =
          func e.data (l, aux) >>= visit func condition (KList.items k₂) := by
        simp [visit, hc]
      rw [hloop, hvisit]
      cases hfn : func e.data (l, aux) with
      | error fault =>
        refine ⟨rfl, ?_, ?_, nofun⟩
        · simp [readsFrom, h0, hdata, hc, hfn]
        · simpa [readsFrom, h0, hdata, hc, hfn] using hlive
      | ok st =>
        obtain ⟨l₁, aux₁⟩ := st
        obtain ⟨h₁, k', hs₁, hsub⟩ := hs.callback hend hfunc hfn
        have hf' : k₂.length < f := by simpa using hf
        obtain ⟨hrest, hreads, hall, hkept⟩ := ih hs₁ hf' hs.next_eq aux₁
        refine ⟨hrest, ?_, ?_, ?_⟩
        · simpa [readsFrom, h0, hdata, hc, hfn] using hreads
        · simpa [readsFrom, h0, hdata, hc, hfn] using ⟨hlive, fun p l hr => hall (p, l) hr⟩
        · intro l' aux' hl'
          obtain ⟨h', k'', hs', hsub'⟩ := hkept l' aux' hl'
          refine ⟨h', k'', hs', hsub'.trans ?_⟩
          simpa using hsub.append_right k₂

/-- For every list and every callback that for its argument leaves the list alone or
takes out the first entry with it: `foreachWhile` calls the callback as `visit` does on
the entries the list had at the start, reads each node while it is in the list and its
block in use, and leaves a list in shape. -/
theorem foreachWhile_visits (hend : start + memBlockSize * total < 2 ^ 64)
    (hfunc : Callback B start total func) (hl : Lists start total l xs) (aux : ω) :
    foreachWhile func condition (l, aux) = visit func condition xs (l, aux) ∧
      (∃ nodes, Shape l nodes xs ∧ (reads func condition (l, aux)).map (·.1) <+: nodes) ∧
      (∀ r ∈ reads func condition (l, aux), ReadsLive r.1 r.2) ∧
      ∀ l' aux', foreachWhile func condition (l, aux) = .ok (l', aux') →
        ∃ nodes ys, Lists start total l' ys ∧ Shape l' nodes ys ∧ ys.Sublist xs := by
  obtain ⟨h, k, hs, rfl⟩ := hl
  have hs₀ : Spells start total l h ([] ++ k) := hs
  obtain ⟨hloop, hreads, hlive, hkept⟩ :=
    foreachWhileFrom_visit condition hend hfunc hs₀ hs.length_lt hs.start_eq aux
  refine ⟨hloop, ⟨k.nodes, hs.shape, hreads⟩, hlive, fun l' aux' hl' => ?_⟩
  obtain ⟨h', k', hs', hsub⟩ := hkept l' aux' (hloop ▸ hl')
  exact ⟨k'.nodes, k'.items, ⟨h', k', hs', rfl⟩, hs'.shape, hsub.map _⟩

end Visits

/-- A callback that leaves the list alone when it is called first, and calls `removeSpec`
from then on. -/
def removeLater (x : ℕ) (st : NodeList × ℕ) : Except Fault (NodeList × ℕ) :=
  if st.2 = 0 then .ok (st.1, 1)
  else do
    let (_, l) ← st.1.removeSpec x
    return (l, st.2 + 1)

theorem callback_removeLater : Callback Allocator.eight 64 8 removeLater := by
  intro x l aux l' aux' xs _ hok
  unfold removeLater at hok
  split_ifs at hok
  · cases hok
    exact Or.inl ⟨[], .nil⟩
  · obtain ⟨⟨r, l₁⟩, hr, hl'⟩ := bind_ok hok
    cases hl'
    exact Or.inr ⟨l, r, l', ⟨[], .nil⟩, hr, ⟨[], .nil⟩⟩

/-- A condition that stops the loop. -/
def untilNine (x : ℕ) (_ : NodeList × ℕ) : Bool := !decide (x = 9)

/-- For the second `5` the callback takes out the first one, behind which the loop already
is, and the loop stops at `9`. -/
theorem foreachWhile_visits_repeated : ∃ l l' nodes, Lists 64 8 l [5, 7, 5, 9, 7] ∧
    foreachWhile removeLater untilNine (l, 0) = .ok (l', 3) ∧
    visit removeLater untilNine [5, 7, 5, 9, 7] (l, 0) = .ok (l', 3) ∧
    (reads removeLater untilNine (l, 0)).map (·.1) = [80, 144, 208, 272] ∧
    (∀ r ∈ reads removeLater untilNine (l, 0), ReadsLive r.1 r.2) ∧ Shape l' nodes [5, 9, 7] := by
  obtain ⟨l, -, hspells, hq⟩ := @exists_list ℕ
    [.addLast 5, .addLast 7, .addLast 5, .addLast 9, .addLast 7] (fun l =>
      ((reads removeLater untilNine (l, 0)).map (·.1) == [80, 144, 208, 272]) &&
      (foreachWhile removeLater untilNine (l, 0)).toOption.any fun st =>
        st.2 == 3 && (decide (Seg st.1.next st.1.head [208, 272, 336] 0) &&
          [208, 272, 336].map st.1.data == [5, 9, 7])) (by decide +kernel)
  have hl : Lists 64 8 l [5, 7, 5, 9, 7] := hspells
  obtain ⟨hvisit, -, hlive, hkept⟩ := foreachWhile_visits untilNine
    Allocator.eight_valid.stop_lt callback_removeLater hl 0
  obtain ⟨hreads, hend⟩ := (Bool.and_eq_true _ _).mp hq
  cases hloop : foreachWhile removeLater untilNine (l, 0) with
  | error fault =>
    rw [hloop] at hend
    cases hend
  | ok st =>
    obtain ⟨l', count⟩ := st
    rw [hloop] at hend
    obtain ⟨hcount, hend⟩ := (Bool.and_eq_true _ _).mp hend
    obtain ⟨hseg, hdata⟩ := (Bool.and_eq_true _ _).mp hend
    obtain rfl : count = 3 := eq_of_beq hcount
    obtain ⟨nodes, ys, -, hshape, -⟩ := hkept l' 3 hloop
    obtain rfl := seg_unique hshape.chain (of_decide_eq_true hseg)
    obtain rfl := hshape.data.symm.trans (eq_of_beq hdata)
    exact ⟨l, l', _, hl, hloop, hvisit.symm.trans hloop, eq_of_beq hreads, hlive, hshape⟩

end NodeList
end OSK
