import Mathlib.Data.List.Basic
import Mathlib.Data.List.Induction
import Mathlib.Order.Lattice

/-! Sorting by insertion and by merging, with one comparator. `insertBy cmp x` puts
`x` in front of the first element `a` for which `cmp a x` fails. When `cmp` compares
keys by `<` or by `≤`, inserting the elements one after another gives the list that
`List.mergeSort` gives, also where keys are equal. -/

namespace OSK.Lib

variable {α κ : Type*} {cmp : α → α → Bool} {x a b : α} {l l' : List α}

def insertBy (cmp : α → α → Bool) (x : α) (l : List α) : List α :=
  l.takeWhile (cmp · x) ++ x :: l.dropWhile (cmp · x)

/-- The elements inserted one after another into an empty list. -/
def insertAll (cmp : α → α → Bool) (l : List α) : List α :=
  l.foldl (fun sorted x => insertBy cmp x sorted) []

@[simp] theorem insertBy_nil : insertBy cmp x [] = [x] := rfl

theorem insertBy_cons :
    insertBy cmp x (a :: l) = if cmp a x then a :: insertBy cmp x l else x :: a :: l := by
  unfold insertBy
  cases h : cmp a x <;> simp [h]

@[simp] theorem insertAll_nil : insertAll cmp [] = [] := rfl

@[simp] theorem insertAll_concat :
    insertAll cmp (l ++ [x]) = insertBy cmp x (insertAll cmp l) := by
  simp [insertAll]

theorem insertBy_front (h : ∀ a ∈ l, cmp a x = false) : insertBy cmp x l = x :: l := by
  cases l with
  | nil => rfl
  | cons a l => simp [insertBy_cons, h]

theorem insertBy_perm : (insertBy cmp x l).Perm (x :: l) := by
  have h : (x :: (l.takeWhile (cmp · x) ++ l.dropWhile (cmp · x))).Perm (insertBy cmp x l) :=
    List.perm_middle.symm
  rw [List.takeWhile_append_dropWhile] at h
  exact h.symm

/-- What comparing keys of a linear order by `<` and by `≤` have in common. -/
structure Comparator (cmp : α → α → Bool) : Prop where
  trans : ∀ {a b c}, cmp a b = true → cmp b c = true → cmp a c = true
  neg_trans : ∀ {a b c}, cmp a b = false → cmp b c = false → cmp a c = false

theorem comparator_lt [LinearOrder κ] (key : α → κ) :
    Comparator fun a b => decide (key a < key b) := by
  constructor
  · intro a b c hab hbc
    exact decide_eq_true ((of_decide_eq_true hab).trans (of_decide_eq_true hbc))
  · intro a b c hab hbc
    simp only [decide_eq_false_iff_not, not_lt] at *
    exact hbc.trans hab

theorem comparator_le [LinearOrder κ] (key : α → κ) :
    Comparator fun a b => decide (key a ≤ key b) := by
  constructor
  · intro a b c hab hbc
    exact decide_eq_true ((of_decide_eq_true hab).trans (of_decide_eq_true hbc))
  · intro a b c hab hbc
    simp only [decide_eq_false_iff_not, not_le] at *
    exact hbc.trans hab

/-! Insertion and merging. -/

theorem insertBy_eq_merge : insertBy cmp x l = List.merge l [x] cmp := by
  induction l with
  | nil => simp
  | cons a l ih =>
    rw [insertBy_cons, List.cons_merge_cons, List.merge_right, ih]

/-- An element inserted into a merged list may as well be inserted into the right
one of the two lists before; nothing has to be sorted for that. -/
theorem insertBy_merge (hc : Comparator cmp) (l r : List α) :
    insertBy cmp x (List.merge l r cmp) = List.merge l (insertBy cmp x r) cmp := by
  induction l generalizing r with
  | nil => simp
  | cons a l ihl =>
    induction r with
    | nil => rw [List.merge_right, insertBy_nil, insertBy_eq_merge]
    | cons b r ihr =>
      rw [List.cons_merge_cons, insertBy_cons]
      cases hab : cmp a b <;> cases hbx : cmp b x
      · have hax := hc.neg_trans hab hbx
        simp [insertBy_cons, hab, hbx, hax]
      · simp [insertBy_cons, hab, hbx, ihr]
      · cases hax : cmp a x
        · simp [insertBy_cons, hab, hax]
        · have hins : insertBy cmp x (b :: r) = x :: b :: r := by simp [insertBy_cons, hbx]
          simp [insertBy_cons, hax, ihl, hins]
      · have hax := hc.trans hab hbx
        have hins : insertBy cmp x (b :: r) = b :: insertBy cmp x r := by simp [insertBy_cons, hbx]
        simp [insertBy_cons, hab, hax, ihl, hins]

theorem insertAll_append (hc : Comparator cmp) (l r : List α) :
    insertAll cmp (l ++ r) = List.merge (insertAll cmp l) (insertAll cmp r) cmp := by
  induction r using List.reverseRecOn with
  | nil => simp
  | append_singleton r x ih =>
    rw [← List.append_assoc, insertAll_concat, ih, insertBy_merge hc, insertAll_concat]

theorem mergeSort_halves (cmp : α → α → Bool) (h : 2 ≤ l.length) :
    l.mergeSort cmp = List.merge ((l.take ((l.length + 1) / 2)).mergeSort cmp)
      ((l.drop ((l.length + 1) / 2)).mergeSort cmp) cmp := by
  match l, h with
  | a :: b :: l, _ =>
    rw [List.mergeSort]
    simp only [List.MergeSort.Internal.splitInTwo_fst, List.MergeSort.Internal.splitInTwo_snd]

/-- Sorting by merging the sorted halves is sorting by insertion. -/
theorem mergeSort_eq_insertAll (hc : Comparator cmp) (l : List α) :
    l.mergeSort cmp = insertAll cmp l := by
  induction hn : l.length using Nat.strongRecOn generalizing l with
  | _ n ih =>
    subst hn
    match l with
    | [] => simp
    | [a] => simp [insertAll]
    | a :: b :: l =>
      have hlen : 2 ≤ (a :: b :: l).length := by simp
      generalize hl : a :: b :: l = l' at *
      rw [mergeSort_halves cmp hlen, ih _ (by simp; omega) _ rfl, ih _ (by simp; omega) _ rfl,
        ← insertAll_append hc, List.take_append_drop]

/-! Order. -/

/-- In order up to equal keys. -/
def Ordered (cmp : α → α → Bool) (l : List α) : Prop :=
  l.Pairwise fun a b => cmp a b = true ∨ cmp b a = false

/-- In a list in order nothing behind an element that is not before `x` is. -/
theorem Ordered.behind (hc : Comparator cmp) (h : Ordered cmp (a :: l)) (hax : cmp a x = false) :
    ∀ b ∈ a :: l, cmp b x = false := by
  intro b hb
  rcases List.mem_cons.1 hb with rfl | hb
  · exact hax
  · by_contra hbx
    rw [Bool.not_eq_false] at hbx
    rcases (List.pairwise_cons.1 h).1 b hb with hab | hba
    · rw [hc.trans hab hbx] at hax
      cases hax
    · rw [hc.neg_trans hba hax] at hbx
      cases hbx

theorem insertBy_ordered (hc : Comparator cmp) (h : Ordered cmp l) : Ordered cmp (insertBy cmp x l) := by
  induction l with
  | nil => simp [Ordered]
  | cons a l ih =>
    obtain ⟨ha, hl⟩ := List.pairwise_cons.1 h
    rw [insertBy_cons]
    cases hax : cmp a x with
    | false => exact List.pairwise_cons.2 ⟨fun b hb => Or.inr (h.behind hc hax b hb), h⟩
    | true =>
      refine List.pairwise_cons.2 ⟨fun b hb => ?_, ih hl⟩
      rcases List.mem_cons.1 (insertBy_perm.mem_iff.1 hb) with rfl | hb
      · exact Or.inl hax
      · exact ha b hb

theorem insertAll_perm : (insertAll cmp l).Perm l := by
  induction l using List.reverseRecOn with
  | nil => exact .refl _
  | append_singleton l x ih =>
    rw [insertAll_concat]
    exact insertBy_perm.trans ((ih.cons x).trans (List.perm_append_singleton x l).symm)

theorem insertAll_ordered (hc : Comparator cmp) (l : List α) : Ordered cmp (insertAll cmp l) := by
  induction l using List.reverseRecOn with
  | nil => exact List.Pairwise.nil
  | append_singleton l x ih =>
    rw [insertAll_concat]
    exact insertBy_ordered hc ih

/-! Elements left out. -/

theorem filter_insertBy (hc : Comparator cmp) (p : α → Bool) (h : Ordered cmp l) :
    (insertBy cmp x l).filter p =
      if p x then insertBy cmp x (l.filter p) else l.filter p := by
  induction l with
  | nil => cases hx : p x <;> simp [hx]
  | cons a l ih =>
    rw [insertBy_cons]
    cases hax : cmp a x with
    | true =>
      have ih := ih (List.pairwise_cons.1 h).2
      cases hpa : p a <;> cases hpx : p x <;> simp [hpa, hpx, ih, insertBy_cons, hax]
    | false =>
      have hfront : insertBy cmp x ((a :: l).filter p) = x :: (a :: l).filter p :=
        insertBy_front fun b hb => h.behind hc hax b (List.mem_of_mem_filter hb)
      simp only [Bool.false_eq_true, if_false]
      cases hpx : p x <;> simp [hfront, hpx]

/-- Sorting commutes with leaving elements out. -/
theorem filter_insertAll (hc : Comparator cmp) (p : α → Bool) (l : List α) :
    (insertAll cmp l).filter p = insertAll cmp (l.filter p) := by
  induction l using List.reverseRecOn with
  | nil => simp
  | append_singleton l x ih =>
    rw [insertAll_concat, filter_insertBy hc p (insertAll_ordered hc l), ih, List.filter_append]
    cases hx : p x <;> simp [hx]

end OSK.Lib
