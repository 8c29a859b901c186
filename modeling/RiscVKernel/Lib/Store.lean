import Mathlib.Data.List.Nodup
import Mathlib.Data.List.FinRange
import Mathlib.Logic.Function.Basic

/-! A memory of words of eight bytes. `store mem ws` is `mem` after the stores `ws`,
one after another. A range of bytes keeps what it holds while no store touches it. -/

namespace OSK.Lib

variable {β : Type*} {mem mem' mem₂ : ℕ → β} {ws : List (ℕ × β)} {a lo hi base : ℕ} {b : β} {n : ℕ}
  {is : List (Fin n)} {i : Fin n} {x : Fin n → β}

def store (mem : ℕ → β) (ws : List (ℕ × β)) : ℕ → β :=
  ws.foldl (fun m w => Function.update m w.1 w.2) mem

@[simp] theorem store_nil (mem : ℕ → β) : store mem [] = mem := rfl

@[simp] theorem store_cons (mem : ℕ → β) (w : ℕ × β) (ws : List (ℕ × β)) :
    store mem (w :: ws) = store (Function.update mem w.1 w.2) ws := rfl

theorem store_of_notMem (h : ∀ w ∈ ws, w.1 ≠ a) : store mem ws a = mem a := by
  induction ws generalizing mem with
  | nil => rfl
  | cons w ws ih =>
    have hne : a ≠ w.1 := (h w List.mem_cons_self).symm
    rw [store_cons, ih fun w' hw' => h w' (List.mem_cons_of_mem _ hw'), Function.update_of_ne hne]

theorem store_of_mem (hnd : (ws.map Prod.fst).Nodup) (h : (a, b) ∈ ws) : store mem ws a = b := by
  induction ws generalizing mem with
  | nil => simp at h
  | cons w ws ih =>
    rw [List.map_cons, List.nodup_cons] at hnd
    rcases List.mem_cons.1 h with rfl | h
    · rw [store_cons, store_of_notMem, Function.update_self]
      intro w hw hwa
      exact hnd.1 (List.mem_map.2 ⟨w, hw, hwa⟩)
    · exact ih hnd.2 h

/-- The word at `w` lies in the range from `lo` to `hi`. -/
def Within (w lo hi : ℕ) : Prop := lo ≤ w ∧ w + 8 ≤ hi

/-- The word at `w` lies beside the range. -/
def Off (w lo hi : ℕ) : Prop := w + 8 ≤ lo ∨ hi ≤ w

instance (w lo hi : ℕ) : Decidable (Within w lo hi) := inferInstanceAs (Decidable (_ ∧ _))

instance (w lo hi : ℕ) : Decidable (Off w lo hi) := inferInstanceAs (Decidable (_ ∨ _))

/-- The memories hold the same in the range. -/
def Agree (lo hi : ℕ) (mem mem' : ℕ → β) : Prop := ∀ w, Within w lo hi → mem' w = mem w

theorem Agree.trans (h : Agree lo hi mem mem') (h' : Agree lo hi mem' mem₂) : Agree lo hi mem mem₂ :=
  fun w hw => (h' w hw).trans (h w hw)

theorem Agree.mono {lo' hi' : ℕ} (h : Agree lo hi mem mem') (hlo : lo ≤ lo') (hhi : hi' ≤ hi) :
    Agree lo' hi' mem mem' :=
  fun w hw => h w ⟨hlo.trans hw.1, hw.2.trans hhi⟩

theorem store_agree (h : ∀ w ∈ ws, Off w.1 lo hi) : Agree lo hi mem (store mem ws) := by
  intro a ha
  apply store_of_notMem
  rintro w hw rfl
  have hoff := h w hw
  unfold Off Within at *
  omega

/-- Stores inside one range leave a disjoint one as it is. -/
theorem store_beside {lo' hi' : ℕ} (h : ∀ w ∈ ws, Within w.1 lo' hi')
    (hd : hi' ≤ lo ∨ hi ≤ lo') : Agree lo hi mem (store mem ws) := by
  apply store_agree
  intro w hw
  have := h w hw
  unfold Off Within at *
  omega

/-- The registers `is` of a file `x`, stored from `base` on, each at its number. -/
def table (base : ℕ) (is : List (Fin n)) (x : Fin n → β) : List (ℕ × β) :=
  is.map fun i => (base + i.val * 8, x i)

theorem table_within {w : ℕ × β} (h : w ∈ table base is x) : Within w.1 base (base + n * 8) := by
  obtain ⟨i, -, rfl⟩ := List.mem_map.1 h
  have := i.isLt
  unfold Within
  dsimp only
  omega

theorem store_table (hnd : is.Nodup) (hi : i ∈ is) :
    store mem (table base is x) (base + i.val * 8) = x i := by
  apply store_of_mem
  · rw [table, List.map_map]
    refine hnd.map fun j j' hj => ?_
    apply Fin.ext
    simp only [Function.comp] at hj
    omega
  · exact List.mem_map.2 ⟨i, hi, rfl⟩

end OSK.Lib
