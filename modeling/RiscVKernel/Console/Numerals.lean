import RiscVKernel.Console.State
import RiscVKernel.Lib.Numeral

/-! `priority_print_int`, which the kernel uses in its last messages: the digits
go into a buffer of 16 bytes, lowest first, and from its end to the terminal. -/

namespace OSK

open Lib

namespace Console

/-- The array `digits`, with the null at the end of the string. -/
def digits : List UInt8 := chars "0123456789abcdef\x00"

/-- `sizeof(buf)`. -/
def bufSize : ℕ := 16

def changeTerminalToRed (c : Console) : Console :=
  { c with terminal := c.terminal ++ (chars "\x1b[31m").map (Writer.message, ·) }

def changeTerminalToDef (c : Console) : Console :=
  { c with terminal := c.terminal ++ (chars "\x1b[0m").map (Writer.message, ·) }

/-- What the loop stores into the last `room` bytes of `buf`, of which the first
is `buf[i]`; nothing when an index is out of range. -/
def digitLoop (base : UInt32) : ℕ → UInt32 → Option (List UInt8)
  | 0, _ => none
  | room + 1, x => do
    let digit ← digits[(x % base).toNat]?
    let x := x / base
    if x ≠ 0 then (digitLoop base room x).map (digit :: ·) else some [digit]

/-- `buf[i++] = ch`, when `buf` has been filled up to `i`. -/
def pushByte (buf : List UInt8) (ch : UInt8) : Option (List UInt8) :=
  if buf.length < bufSize then some (buf ++ [ch]) else none

/-- `-xx` wraps around. -/
def priorityPrintInt (c : Console) (xx base sgn : Int32) : Option Console := do
  let c := c.changeTerminalToRed
  let neg := sgn ≠ 0 && xx < 0
  let x := if neg then (-xx).toUInt32 else xx.toUInt32
  let buf ← digitLoop base.toUInt32 bufSize x
  let buf ← if neg then pushByte buf '-'.toNat.toUInt8 else some buf
  let c := buf.reverse.foldl (fun c ch => c.putCharInTerminal .message ch) c
  return c.changeTerminalToDef

/-- A minus sign is printed. -/
def Signed (xx sgn : Int32) : Prop := sgn ≠ 0 ∧ xx < 0

instance (xx sgn : Int32) : Decidable (Signed xx sgn) :=
  inferInstanceAs (Decidable (sgn ≠ 0 ∧ xx < 0))

/-- The number whose digits are printed. -/
def magnitude (xx sgn : Int32) : ℕ :=
  if Signed xx sgn then xx.toInt.natAbs else xx.toUInt32.toNat

/-- `priority_print_int` comes back, and between the two changes of the colour it
has written the numeral of `xx`, with a minus sign when it is signed. -/
def PrintsNumeral (c : Console) (xx base sgn : Int32) : Prop :=
  ∃ ds, Numeral base.toInt.toNat (magnitude xx sgn) ds ∧
    c.priorityPrintInt xx base sgn = some
      (c.priorityPrint ((if Signed xx sgn then chars "-" else []) ++ ds.map fun d => digits.getD d 0))

variable {c : Console} {base xx sgn : Int32}

theorem putChars (l : List UInt8) (c : Console) :
    l.foldl (fun c ch => c.putCharInTerminal .message ch) c =
      { c with terminal := c.terminal ++ l.map (Writer.message, ·) } := by
  induction l generalizing c with
  | nil => simp
  | cons ch l ih =>
    rw [List.foldl_cons, ih]
    simp [putCharInTerminal]

theorem digits_getElem {d : ℕ} (hd : d < 16) : digits[d]? = some (digits.getD d 0) := by
  have hlen : d < digits.length := Nat.lt_of_lt_of_le hd (by decide)
  simp [hlen]

/-- The loop stores the digits when they fit. -/
theorem digitLoop_eq {b : UInt32} (hb : 2 ≤ b.toNat) (hb' : b.toNat ≤ 16) (room : ℕ) (x : UInt32) :
    digitLoop b room x = if (lowDigits b.toNat x.toNat).length ≤ room then
      some ((lowDigits b.toNat x.toNat).map fun d => digits.getD d 0) else none := by
  induction room generalizing x with
  | zero =>
    rw [lowDigits_div hb]
    simp [digitLoop]
  | succ room ih =>
    have hdigit : x.toNat % b.toNat < 16 := (Nat.mod_lt _ (by omega)).trans_le hb'
    have hzero : x / b = 0 ↔ x.toNat / b.toNat = 0 := by
      rw [← UInt32.toNat_inj, UInt32.toNat_div, UInt32.toNat_zero]
    rw [lowDigits_div hb]
    simp only [digitLoop, UInt32.toNat_mod, digits_getElem hdigit, Option.bind_eq_bind,
      Option.bind_some, ne_eq, ite_not, hzero, ih, UInt32.toNat_div]
    by_cases hdiv : x.toNat / b.toNat = 0
    · simp [hdiv]
    · simp only [if_neg hdiv, List.length_cons, Nat.add_le_add_iff_right]
      split_ifs with hlen <;> rfl

theorem priorityPrint_eq (c : Console) (s : List UInt8) :
    (s.foldl (fun c ch => c.putCharInTerminal .message ch) c.changeTerminalToRed).changeTerminalToDef =
      c.priorityPrint s := by
  simp [putChars, changeTerminalToRed, changeTerminalToDef, priorityPrint]

theorem magnitude_eq (xx sgn : Int32) :
    (if Signed xx sgn then (-xx).toUInt32 else xx.toUInt32).toNat = magnitude xx sgn := by
  unfold magnitude
  split_ifs with hs
  · have hneg : xx.toInt < 0 := Int32.lt_iff_toInt_lt.1 hs.2
    have hword : (-xx).toUInt32.toNat = (2 ^ 32 - xx.toBitVec.toNat) % 2 ^ 32 :=
      BitVec.toNat_neg xx.toBitVec
    have hint : xx.toInt = _ := BitVec.toInt_eq_toNat_cond xx.toBitVec
    have hlt := xx.toBitVec.isLt
    rw [hword]
    split_ifs at hint <;> omega
  · rfl

/-- What `priority_print_int` does: the sign takes one of the 16 bytes. -/
theorem priorityPrintInt_eq (c : Console) (hb : 2 ≤ base.toInt) (hb' : base.toInt ≤ 16) :
    c.priorityPrintInt xx base sgn =
      if magnitude xx sgn < base.toInt.toNat ^ (if Signed xx sgn then 15 else 16) then
        some (c.priorityPrint ((if Signed xx sgn then chars "-" else []) ++
          (lowDigits base.toInt.toNat (magnitude xx sgn)).reverse.map fun d => digits.getD d 0))
      else none := by
  have hpos : 0 ≤ base := Int32.le_iff_toInt_le.2 (by rw [Int32.toInt_zero]; omega)
  have hbase : base.toUInt32.toNat = base.toInt.toNat := Int32.toNat_toUInt32_of_le hpos
  have hlow : 2 ≤ base.toUInt32.toNat := by omega
  have hhigh : base.toUInt32.toNat ≤ 16 := by omega
  have hneg : (sgn ≠ 0 && xx < 0) = decide (Signed xx sgn) :=
    (Bool.decide_and (sgn ≠ 0) (xx < 0)).symm
  unfold priorityPrintInt
  simp only [hneg, decide_eq_true_eq, digitLoop_eq hlow hhigh, magnitude_eq, Option.bind_eq_bind,
    Option.pure_def, priorityPrint_eq, hbase]
  have hfits : ∀ k, 0 < k → ((lowDigits base.toInt.toNat (magnitude xx sgn)).length ≤ k ↔
      magnitude xx sgn < base.toInt.toNat ^ k) := fun k hk => length_lowDigits_le_iff (by omega) hk
  generalize lowDigits base.toInt.toNat (magnitude xx sgn) = ds at hfits ⊢
  rw [bufSize]
  by_cases hs : Signed xx sgn
  · simp only [if_pos hs, ← hfits 15 (by decide)]
    by_cases hlen : ds.length ≤ 15
    · simp [hlen, pushByte, bufSize, Nat.le_succ_of_le hlen, Nat.lt_succ_of_le hlen, chars]
    · rw [if_neg hlen]
      split_ifs
      · simp [pushByte, bufSize]
        omega
      · rfl
  · simp only [if_neg hs, ← hfits 16 (by decide)]
    split_ifs <;> simp

/-- In every base there are digits for, the numeral is printed if and only if it
fits into `buf` with its sign. Otherwise the code writes behind the end of `buf`. -/
theorem printInt_exact (c : Console) (xx base sgn : Int32) (hb : 2 ≤ base.toInt)
    (hb' : base.toInt ≤ 16) : c.PrintsNumeral xx base sgn ↔
      magnitude xx sgn < base.toInt.toNat ^ (if Signed xx sgn then 15 else 16) := by
  refine ⟨?_, ?_⟩
  · rintro ⟨ds, -, hprint⟩
    by_contra hbig
    rw [priorityPrintInt_eq c hb hb', if_neg hbig] at hprint
    cases hprint
  · intro hfits
    refine ⟨(lowDigits base.toInt.toNat (magnitude xx sgn)).reverse,
      numeral_lowDigits (by omega) _, ?_⟩
    rw [priorityPrintInt_eq c hb hb', if_pos hfits]

/-- The most negative number in base 10. -/
theorem printInt_exact_lowest : start.PrintsNumeral (-2147483648) 10 1 :=
  (printInt_exact start (-2147483648) 10 1 (by decide) (by decide)).2 (by decide)

/-- In base 2 the number `2 ^ 16` has 17 digits. -/
theorem printInt_exact_fails : start.priorityPrintInt 65536 2 0 = none ∧
    ¬start.PrintsNumeral 65536 2 0 := by
  have hnone : (start.priorityPrintInt 65536 2 0).isNone = true := by decide +kernel
  rw [Option.isNone_iff_eq_none] at hnone
  refine ⟨hnone, ?_⟩
  rintro ⟨ds, -, hprint⟩
  rw [hnone] at hprint
  cases hprint

end Console
end OSK
