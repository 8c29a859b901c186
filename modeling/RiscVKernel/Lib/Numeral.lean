import Mathlib.Data.Nat.Digits.Lemmas

/-! Numerals in a base, with `0` as the numeral of zero, which `Nat.digits` does
not write. -/

namespace OSK.Lib

variable {b v k : ℕ}

/-- `ds` is the numeral of `v` in base `b`, most significant digit first. -/
structure Numeral (b v : ℕ) (ds : List ℕ) : Prop where
  digits : ∀ d ∈ ds, d < b
  nonempty : ds ≠ []
  leading : ds.head? = some 0 → ds = [0]
  value : Nat.ofDigits b ds.reverse = v

/-- The digits as repeated division finds them: at least one, the lowest first. -/
def lowDigits (b v : ℕ) : List ℕ := if v = 0 then [0] else Nat.digits b v

theorem lowDigits_div (hb : 1 < b) (v : ℕ) :
    lowDigits b v = v % b :: if v / b = 0 then [] else lowDigits b (v / b) := by
  unfold lowDigits
  by_cases hv : v = 0
  · simp [hv]
  · rw [if_neg hv, Nat.digits_eq_cons_digits_div hb hv]
    split_ifs with hdiv
    · rw [hdiv, Nat.digits_zero]
    · rfl

/-- How many digits there are. -/
theorem length_lowDigits_le_iff (hb : 1 < b) (hk : 0 < k) :
    (lowDigits b v).length ≤ k ↔ v < b ^ k := by
  unfold lowDigits
  split_ifs with hv
  · subst hv
    have hpos : 0 < b ^ k := Nat.pow_pos (Nat.zero_lt_of_lt hb)
    exact ⟨fun _ => hpos, fun _ => hk⟩
  · exact Nat.digits_length_le_iff hb v

theorem numeral_lowDigits (hb : 1 < b) (v : ℕ) : Numeral b v (lowDigits b v).reverse := by
  unfold lowDigits
  split_ifs with hv
  · subst hv
    refine ⟨?_, by simp, fun _ => rfl, by simp⟩
    intro d hd
    obtain rfl : d = 0 := by simpa using hd
    exact Nat.zero_lt_of_lt hb
  · have hne : Nat.digits b v ≠ [] := Nat.digits_ne_nil_iff_ne_zero.2 hv
    refine ⟨?_, by simpa using hne, ?_, ?_⟩
    · intro d hd
      exact Nat.digits_lt_base hb (List.mem_reverse.1 hd)
    · intro hhead
      rw [List.head?_reverse, List.getLast?_eq_some_getLast hne, Option.some.injEq] at hhead
      exact absurd hhead (Nat.getLast_digit_ne_zero b hv)
    · rw [List.reverse_reverse, Nat.ofDigits_digits]

end OSK.Lib
