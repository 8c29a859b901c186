import Mathlib.Data.Int.Basic
import Mathlib.Logic.Relation
import Mathlib.Tactic.Linarith

/-! A counting semaphore seen from outside: its value, how many callers are
blocked on it, and how many units were signalled and acquired so far. A caller
blocks when the value goes below 0, and a caller that gives up puts the value
back. `tries` says at which values a caller may take a unit without being
counted or blocked. -/

namespace OSK.Lib

@[ext] structure Counter where
  val : ℤ
  blocked : ℕ
  signals : ℕ
  acquired : ℕ

namespace Counter

inductive Step (tries : ℤ → Prop) : Counter → Counter → Prop
  | take {c : Counter} (hv : 0 ≤ c.val - 1) :
      Step tries c { c with val := c.val - 1, acquired := c.acquired + 1 }
  | block {c : Counter} (hv : c.val - 1 < 0) :
      Step tries c { c with val := c.val - 1, blocked := c.blocked + 1 }
  | free {c : Counter} (hv : 0 < c.val + 1) :
      Step tries c { c with val := c.val + 1, signals := c.signals + 1 }
  | wake {c : Counter} {b : ℕ} (hv : c.val + 1 ≤ 0) (hb : c.blocked = b + 1) :
      Step tries c ⟨c.val + 1, b, c.signals + 1, c.acquired + 1⟩
  | giveUp {c : Counter} {b : ℕ} (hb : c.blocked = b + 1) :
      Step tries c { c with val := c.val + 1, blocked := b }
  | tryTake {c : Counter} (ht : tries c.val) : Step tries c { c with val := c.val - 1 }

def Steps (tries : ℤ → Prop) : Counter → Counter → Prop := Relation.ReflTransGen (Step tries)

/-- No more callers are blocked than the value owes. -/
def Short (c : Counter) : Prop := (c.blocked : ℤ) ≤ max 0 (-c.val)

/-- The value says how many callers are blocked. -/
def Exact (c : Counter) : Prop := (c.blocked : ℤ) = max 0 (-c.val)

/-- What was put in and is neither taken nor owed. -/
def stock (c : Counter) : ℤ := c.val + c.blocked + c.acquired - c.signals

variable {tries : ℤ → Prop} {c c' : Counter}

theorem Step.short (h : Step tries c c') (hc : c.Short) : c'.Short := by
  unfold Short at *
  cases h
  all_goals
    simp only at *
    omega

theorem Step.exact (h : Step tries c c') (ht : ∀ v, tries v → 0 < v) (hc : c.Exact) : c'.Exact := by
  unfold Exact at *
  cases h with
  | tryTake hv =>
    have := ht _ hv
    simp only
    omega
  | _ =>
    simp only at *
    omega

theorem Step.stock (h : Step tries c c') (ht : ∀ v, ¬tries v) : c'.stock = c.stock := by
  unfold Counter.stock
  cases h with
  | tryTake hv => exact absurd hv (ht _)
  | _ =>
    simp only at *
    omega

theorem Steps.short (h : Steps tries c c') (hc : c.Short) : c'.Short := by
  induction h with
  | refl => exact hc
  | tail _ hs ih => exact hs.short ih

theorem Steps.exact (h : Steps tries c c') (ht : ∀ v, tries v → 0 < v) (hc : c.Exact) :
    c'.Exact := by
  induction h with
  | refl => exact hc
  | tail _ hs ih => exact hs.exact ht ih

theorem Steps.stock (h : Steps tries c c') (ht : ∀ v, ¬tries v) : c'.stock = c.stock := by
  induction h with
  | refl => rfl
  | tail _ hs ih => exact (hs.stock ht).trans ih

/-- No unit is acquired twice, and none is left while a caller is blocked. -/
theorem Exact.acquired {n : ℤ} (he : c.Exact) (hs : c.stock = n) :
    (c.acquired : ℤ) ≤ n + c.signals ∧ (0 < c.blocked → (c.acquired : ℤ) = n + c.signals) := by
  unfold Exact Counter.stock at *
  omega

end Counter

end OSK.Lib
