import Mathlib.Data.List.Basic
import Mathlib.Logic.Function.Basic

/-! Ring buffers of `n` slots with two indices. The items are read from `tail` up
to `head`, around the end; equal indices mean an empty ring, so that one slot is
always left free. -/

namespace OSK.Lib

variable {α : Type*} {n t h i : ℕ} {buf : ℕ → α} {x : α}

def ringCount (n t h : ℕ) : ℕ := if t ≤ h then h - t else h + n - t

def ringItems (buf : ℕ → α) (n t h : ℕ) : List α :=
  (List.range (ringCount n t h)).map fun i => buf ((t + i) % n)

/-- An index beyond the last slot goes on at the first one. -/
theorem mod_wrap (hi : i < 2 * n) : i % n = if i < n then i else i - n := by
  split_ifs with hlt
  · exact Nat.mod_eq_of_lt hlt
  · rw [Nat.mod_eq_sub_mod (Nat.not_lt.1 hlt), Nat.mod_eq_of_lt (by omega)]

theorem succ_mod (hh : h < n) : (h + 1) % n = if h + 1 = n then 0 else h + 1 := by
  rw [mod_wrap (by omega)]
  split_ifs <;> omega

theorem ringCount_lt (ht : t < n) (hh : h < n) : ringCount n t h < n := by
  unfold ringCount
  split_ifs <;> omega

theorem ringCount_eq_zero (ht : t < n) : ringCount n t h = 0 ↔ h = t := by
  unfold ringCount
  split_ifs <;> omega

theorem ringCount_push (ht : t < n) (hh : h < n) (hfull : (h + 1) % n ≠ t) :
    ringCount n t ((h + 1) % n) = ringCount n t h + 1 := by
  rw [succ_mod hh] at *
  unfold ringCount
  split_ifs at * <;> omega

theorem ringCount_pop (ht : t < n) (hh : h < n) (hne : h ≠ t) :
    ringCount n t h = ringCount n ((t + 1) % n) h + 1 := by
  rw [succ_mod ht]
  unfold ringCount
  split_ifs <;> omega

/-- The slot at `head` holds no item. -/
theorem ring_slot_ne (ht : t < n) (hh : h < n) (hi : i < ringCount n t h) : (t + i) % n ≠ h := by
  have := ringCount_lt ht hh
  rw [mod_wrap (by omega)]
  unfold ringCount at *
  split_ifs at * <;> omega

/-- The slot at `head` is the next one. -/
theorem ring_slot_head (ht : t < n) (hh : h < n) : (t + ringCount n t h) % n = h := by
  have := ringCount_lt ht hh
  rw [mod_wrap (by omega)]
  unfold ringCount at *
  split_ifs at * <;> omega

@[simp] theorem length_ringItems : (ringItems buf n t h).length = ringCount n t h := by
  simp [ringItems]

@[simp] theorem ringItems_self : ringItems buf n t t = [] := by
  simp [ringItems, ringCount]

theorem ringItems_eq_nil (ht : t < n) : ringItems buf n t h = [] ↔ h = t := by
  rw [← List.length_eq_zero_iff, length_ringItems, ringCount_eq_zero ht]

/-- Writing the slot at `head` changes no item. -/
theorem ringItems_update (ht : t < n) (hh : h < n) :
    ringItems (Function.update buf h x) n t h = ringItems buf n t h := by
  apply List.map_congr_left
  intro i hi
  exact Function.update_of_ne (ring_slot_ne ht hh (List.mem_range.1 hi)) _ _

theorem ringItems_advance (ht : t < n) (hh : h < n) (hfull : (h + 1) % n ≠ t) :
    ringItems buf n t ((h + 1) % n) = ringItems buf n t h ++ [buf h] := by
  unfold ringItems
  rw [ringCount_push ht hh hfull, List.range_succ, List.map_append, List.map_singleton,
    ring_slot_head ht hh]

/-- Writing the slot at `head` and moving `head` on puts an item at the end. -/
theorem ringItems_push (ht : t < n) (hh : h < n) (hfull : (h + 1) % n ≠ t) :
    ringItems (Function.update buf h x) n t ((h + 1) % n) = ringItems buf n t h ++ [x] := by
  rw [ringItems_advance ht hh hfull, ringItems_update ht hh, Function.update_self]

/-- Moving `tail` on takes the item at `tail` away. -/
theorem ringItems_pop (ht : t < n) (hh : h < n) (hne : h ≠ t) :
    ringItems buf n t h = buf t :: ringItems buf n ((t + 1) % n) h := by
  unfold ringItems
  rw [ringCount_pop ht hh hne, List.range_succ_eq_map, List.map_cons, List.map_map, Nat.add_zero,
    Nat.mod_eq_of_lt ht]
  refine congrArg _ (List.map_congr_left ?_)
  intro i _
  simp only [Function.comp, Nat.mod_add_mod]
  congr 2
  omega

end OSK.Lib
