import Mathlib.Algebra.Order.Ring.Int
import RiscVKernel.Lib.Runs

/-! A counting semaphore whose units are handed over: a `signal` takes the first of those who wait
out of the line, and that one goes on later. -/

namespace OSK.Lib

variable {α : Type*}

structure Gate (α : Type*) where
  val : ℤ
  waiting : List α
  woken : List α
  deriving DecidableEq, Repr

namespace Gate

/-- A `signal` that owes a unit and finds nobody, and somebody who goes on without being woken. -/
inductive Fault
  | empty
  | notWoken
  deriving DecidableEq, Repr

inductive Event (α : Type*)
  | wait (a : α)
  | signal
  | resume (a : α)
  deriving DecidableEq, Repr

def wait (g : Gate α) (a : α) : Gate α :=
  if 0 ≤ g.val - 1 then { g with val := g.val - 1 }
  else { g with val := g.val - 1, waiting := g.waiting ++ [a] }

def signal (g : Gate α) : Except Fault (Gate α) :=
  if 0 < g.val + 1 then .ok { g with val := g.val + 1 }
  else match g.waiting with
    | [] => .error .empty
    | a :: q => .ok { val := g.val + 1, waiting := q, woken := g.woken ++ [a] }

def step [DecidableEq α] (g : Gate α) : Event α → Except Fault (Gate α)
  | .wait a => .ok (g.wait a)
  | .signal => g.signal
  | .resume a => if a ∈ g.woken then .ok { g with woken := g.woken.erase a } else .error .notWoken

variable {g g' : Gate α} {a : α} {n used : ℕ}

theorem signal_ok (h : g.signal = .ok g') :
    0 < g.val + 1 ∧ g' = { g with val := g.val + 1 } ∨
      ∃ a q, g.val + 1 ≤ 0 ∧ g.waiting = a :: q ∧
        g' = { val := g.val + 1, waiting := q, woken := g.woken ++ [a] } := by
  unfold signal at h
  split_ifs at h with hv
  · cases h
    exact Or.inl ⟨hv, rfl⟩
  · cases hq : g.waiting with
    | nil => simp [hq] at h
    | cons a q =>
      simp only [hq] at h
      cases h
      exact Or.inr ⟨a, q, Int.not_lt.1 hv, rfl, rfl⟩

theorem resume_ok [DecidableEq α] (h : g.step (.resume a) = .ok g') :
    a ∈ g.woken ∧ g' = { g with woken := g.woken.erase a } := by
  have h : (if a ∈ g.woken then .ok { g with woken := g.woken.erase a }
    else Except.error Fault.notWoken) = .ok g' := h
  split_ifs at h with ha
  cases h
  exact ⟨ha, rfl⟩

/-- `used` of the `n` units are with those who came through. -/
structure Sound (n used : ℕ) (g : Gate α) : Prop where
  owed : (g.waiting.length : ℤ) = max 0 (-g.val)
  units : (used : ℤ) + g.woken.length + max 0 g.val = n

theorem sound_start : Sound n 0 (⟨n, [], []⟩ : Gate α) := by
  refine ⟨?_, ?_⟩
  · simp
  · simp

theorem Sound.passes (h : g.Sound n used) (hv : 0 ≤ g.val - 1) : (g.wait a).Sound n (used + 1) := by
  obtain ⟨howed, hunits⟩ := h
  unfold wait
  rw [if_pos hv]
  refine ⟨?_, ?_⟩ <;> dsimp only <;> push_cast <;> omega

theorem Sound.blocks (h : g.Sound n used) (hv : g.val - 1 < 0) : (g.wait a).Sound n used := by
  obtain ⟨howed, hunits⟩ := h
  unfold wait
  rw [if_neg (Int.not_le.2 hv)]
  refine ⟨?_, ?_⟩
  · rw [List.length_append, List.length_singleton]
    push_cast
    omega
  · dsimp only
    omega

theorem Sound.signal (h : g.Sound n (used + 1)) (hs : g.signal = .ok g') : g'.Sound n used := by
  obtain ⟨howed, hunits⟩ := h
  rcases signal_ok hs with ⟨hv, rfl⟩ | ⟨a, q, hv, hq, rfl⟩
  · refine ⟨?_, ?_⟩ <;> dsimp only <;> push_cast at hunits <;> omega
  · rw [hq, List.length_cons] at howed
    refine ⟨?_, ?_⟩
    · dsimp only
      push_cast at howed
      omega
    · rw [List.length_append, List.length_singleton]
      push_cast at hunits ⊢
      omega

theorem Sound.resume [DecidableEq α] (h : g.Sound n used) (hs : g.step (.resume a) = .ok g') :
    g'.Sound n (used + 1) := by
  obtain ⟨howed, hunits⟩ := h
  obtain ⟨ha, rfl⟩ := resume_ok hs
  refine ⟨howed, ?_⟩
  have hlen := List.length_erase_of_mem ha
  have hpos := List.length_pos_of_mem ha
  dsimp only
  rw [hlen]
  push_cast [hpos]
  omega

/-- Nobody waits while a unit is free. -/
theorem Sound.busy (h : g.Sound n used) (hne : g.waiting ≠ []) : used + g.woken.length = n := by
  obtain ⟨howed, hunits⟩ := h
  have hpos := List.length_pos_iff.2 hne
  omega

theorem Sound.le (h : g.Sound n used) : used + g.woken.length ≤ n := by
  have := h.units
  omega

end Gate
end OSK.Lib
