import Mathlib.Data.List.Nodup
import Mathlib.Logic.Function.Basic

/-! Null-terminated linked lists in memory. `next` gives the link word of the
node at an address and address 0 is the null pointer. `Seg next a xs b` says
that following links from `a` visits exactly the nodes `xs` and arrives at `b`;
a whole list is a segment that ends at null. Since `xs` is a finite list, a
segment cannot run in a circle. -/

namespace OSK.Lib

def Seg (next : ℕ → ℕ) : ℕ → List ℕ → ℕ → Prop
  | a, [], b => a = b
  | a, x :: xs, b => a = x ∧ x ≠ 0 ∧ Seg next (next x) xs b

instance decidableSeg (next : ℕ → ℕ) :
    (a : ℕ) → (xs : List ℕ) → (b : ℕ) → Decidable (Seg next a xs b)
  | a, [], b => inferInstanceAs (Decidable (a = b))
  | _, x :: xs, b =>
    have := decidableSeg next (next x) xs b
    inferInstanceAs (Decidable (_ ∧ _ ∧ _))

variable {next next' : ℕ → ℕ} {a b c x : ℕ} {xs ys : List ℕ}

theorem seg_append : Seg next a (xs ++ ys) c ↔ ∃ b, Seg next a xs b ∧ Seg next b ys c := by
  induction xs generalizing a with
  | nil => simp [Seg]
  | cons x xs ih =>
    simp only [List.cons_append, Seg, ih]
    constructor
    · rintro ⟨h1, h2, b, h3, h4⟩
      exact ⟨b, ⟨h1, h2, h3⟩, h4⟩
    · rintro ⟨b, ⟨h1, h2, h3⟩, h4⟩
      exact ⟨h1, h2, b, h3, h4⟩

theorem seg_concat : Seg next a (xs ++ [x]) c ↔ Seg next a xs x ∧ x ≠ 0 ∧ next x = c := by
  rw [seg_append]
  constructor
  · rintro ⟨b, h1, rfl, h2, h3⟩
    exact ⟨h1, h2, h3⟩
  · rintro ⟨h1, h2, h3⟩
    exact ⟨x, h1, rfl, h2, h3⟩

/-- A segment only depends on the links of its own nodes. -/
theorem seg_frame (h : Seg next a xs b) (hf : ∀ x ∈ xs, next' x = next x) : Seg next' a xs b := by
  induction xs generalizing a with
  | nil => exact h
  | cons x xs ih =>
    obtain ⟨h1, h2, h3⟩ := h
    refine ⟨h1, h2, ?_⟩
    rw [hf x (by simp)]
    exact ih h3 (fun y hy => hf y (by simp [hy]))

/-- The last node of a segment may be linked to another place. -/
theorem seg_relink (h : Seg next a (xs ++ [x]) b) (hx : x ∉ xs) :
    Seg (Function.update next x c) a (xs ++ [x]) c := by
  obtain ⟨m, h1, h2, h3, -⟩ := seg_append.1 h
  refine seg_append.2 ⟨m, seg_frame h1 ?_, h2, h3, ?_⟩
  · intro y hy
    have hyx : y ≠ x := fun hxy => hx (by rwa [hxy] at hy)
    exact Function.update_of_ne hyx _ _
  · exact Function.update_self ..

theorem seg_null (h : Seg next a xs 0) : a = 0 ↔ xs = [] := by
  cases xs with
  | nil =>
    have ha : a = 0 := h
    simp [ha]
  | cons x xs => simp [h.1, h.2.1]

theorem seg_start (h : Seg next a xs b) : a = xs.head?.getD b := by
  cases xs with
  | nil => exact h
  | cons x xs => exact h.1

theorem seg_ne_zero (h : Seg next a xs b) : ∀ x ∈ xs, x ≠ 0 := by
  induction xs generalizing a with
  | nil => simp
  | cons x xs ih =>
    intro y hy
    rcases List.mem_cons.1 hy with rfl | hy
    · exact h.2.1
    · exact ih h.2.2 y hy

theorem seg_unique (hx : Seg next a xs 0) (hy : Seg next a ys 0) : xs = ys := by
  induction xs generalizing a ys with
  | nil => exact ((seg_null hy).1 hx).symm
  | cons x xs ih =>
    obtain ⟨rfl, h0, hx⟩ := hx
    cases ys with
    | nil => exact absurd hy h0
    | cons y ys =>
      obtain ⟨rfl, -, hy⟩ := hy
      rw [ih hx hy]

/-- A list that ends at null visits no node twice: the rest of it behind the second
visit would be that behind the first. -/
theorem seg_nodup (h : Seg next a xs 0) : xs.Nodup := by
  induction xs generalizing a with
  | nil => exact List.nodup_nil
  | cons x xs ih =>
    obtain ⟨rfl, h0, h⟩ := h
    refine List.nodup_cons.2 ⟨fun hx => ?_, ih h⟩
    obtain ⟨ys, zs, rfl⟩ := List.append_of_mem hx
    obtain ⟨b, -, rfl, -, hzs⟩ := seg_append.1 h
    have hlen := congrArg List.length (seg_unique h hzs)
    simp at hlen
    omega

/-- A list cut behind one of its nodes is two lists. -/
theorem seg_cut (h : Seg next a (xs ++ [x] ++ ys) 0) :
    Seg (Function.update next x 0) a (xs ++ [x]) 0 ∧
      Seg (Function.update next x 0) (next x) ys 0 := by
  obtain ⟨hnd, -, hdis⟩ := List.nodup_append.1 (seg_nodup h)
  obtain ⟨b, hxs, hys⟩ := seg_append.1 h
  have hx : x ∉ xs := fun hc => (List.nodup_append.1 hnd).2.2 x hc x (by simp) rfl
  obtain ⟨-, -, rfl⟩ := seg_concat.1 hxs
  refine ⟨seg_relink hxs hx, seg_frame hys fun y hy => Function.update_of_ne ?_ _ _⟩
  exact (hdis x (by simp) y hy).symm

/-- `for (; cur && go(cur); prev = cur, cur = next(cur));` with at most `fuel`
tests: the last values of `cur` and `prev`. -/
def walk (next : ℕ → ℕ) (go : ℕ → Bool) : ℕ → ℕ → ℕ → Option (ℕ × ℕ)
  | 0, _, _ => none
  | fuel + 1, cur, prev =>
    if cur ≠ 0 ∧ go cur = true then walk next go fuel (next cur) cur else some (cur, prev)

/-- The walk stops at the first node that fails the test, or at null, and it
needs one test more than there are nodes. -/
theorem walk_seg {go : ℕ → Bool} {fuel prev : ℕ} (h : Seg next a xs 0) (hf : xs.length < fuel) :
    walk next go fuel a prev =
      some ((xs.dropWhile go).head?.getD 0, (xs.takeWhile go).getLast?.getD prev) := by
  induction xs generalizing a fuel prev with
  | nil =>
    obtain ⟨f, rfl⟩ : ∃ f, fuel = f + 1 := ⟨fuel - 1, by simp at hf; omega⟩
    have : a = 0 := h
    simp [walk, this]
  | cons x xs ih =>
    obtain ⟨f, rfl⟩ : ∃ f, fuel = f + 1 := ⟨fuel - 1, by simp at hf; omega⟩
    obtain ⟨rfl, h2, h3⟩ := h
    by_cases hg : go a = true
    · rw [walk, if_pos ⟨h2, hg⟩, ih h3 (by simpa using hf)]
      simp [hg, List.getLast?_cons]
    · rw [walk, if_neg (fun hc => hg hc.2)]
      simp [hg]

/-- A walk over a list whose nodes stand for `bs`, with a test that is one on `bs`. -/
theorem walk_map {β : Type*} {f : β → ℕ} {bs : List β} {go : ℕ → Bool} {P : β → Bool} {fuel : ℕ}
    (h : Seg next a (bs.map f) 0) (hf : bs.length < fuel) (hgo : ∀ b ∈ bs, go (f b) = P b) :
    walk next go fuel a 0 =
      some (((bs.dropWhile P).map f).head?.getD 0, ((bs.takeWhile P).map f).getLast?.getD 0) := by
  rw [walk_seg h (by simpa using hf)]
  have hsplit : (bs.map f).dropWhile go = (bs.dropWhile P).map f ∧
      (bs.map f).takeWhile go = (bs.takeWhile P).map f := by
    clear h hf
    induction bs with
    | nil => simp
    | cons b bs ih =>
      have hb := hgo b (by simp)
      obtain ⟨hd, ht⟩ := ih fun c hc => hgo c (by simp [hc])
      simp only [List.map_cons, List.dropWhile_cons, List.takeWhile_cons, hb]
      split_ifs <;> simp [hd, ht]
  rw [hsplit.1, hsplit.2]

/-- The nodes whose links `walk` loads. -/
def loads (next : ℕ → ℕ) (go : ℕ → Bool) : ℕ → ℕ → List ℕ
  | 0, _ => []
  | fuel + 1, cur =>
    if cur ≠ 0 ∧ go cur = true then cur :: loads next go fuel (next cur) else []

/-- A walk loads links of the nodes of its list only. -/
theorem loads_seg {go : ℕ → Bool} {fuel : ℕ} (h : Seg next a xs 0) :
    ∀ x ∈ loads next go fuel a, x ∈ xs := by
  intro x hx
  induction fuel generalizing a xs with
  | zero => cases hx
  | succ fuel ih =>
    unfold loads at hx
    split_ifs at hx with hg
    · cases xs with
      | nil => exact absurd h hg.1
      | cons y ys =>
        obtain ⟨rfl, -, hs⟩ := h
        rcases List.mem_cons.1 hx with rfl | hx
        · exact List.mem_cons_self
        · exact List.mem_cons_of_mem _ (ih hs hx)
    · cases hx

/-- `prev->next = v`, or `head = v` when there is no node before: the links and
the head afterwards. -/
def relink (next : ℕ → ℕ) (head prev v : ℕ) : (ℕ → ℕ) × ℕ :=
  if prev ≠ 0 then (Function.update next prev v, head) else (next, v)

theorem relink_seg (h : Seg next a xs b) (hn : xs.Nodup) :
    Seg (relink next a (xs.getLast?.getD 0) c).1 (relink next a (xs.getLast?.getD 0) c).2 xs c := by
  rcases List.eq_nil_or_concat' xs with rfl | ⟨ys, x, rfl⟩
  · simp [relink, Seg]
  · have hx : x ≠ 0 := seg_ne_zero h x (by simp)
    have hys : x ∉ ys := by
      rw [List.nodup_append] at hn
      exact fun hc => hn.2.2 x hc x (by simp) rfl
    simpa [relink, hx] using seg_relink h hys

/-- Only a node of the segment gets a new link. -/
theorem relink_of_notMem (hx : x ∉ xs) : (relink next a (xs.getLast?.getD 0) c).1 x = next x := by
  unfold relink
  split_ifs with h0
  · cases hl : xs.getLast? with
    | none => simp [hl] at h0
    | some y =>
      have hne : x ≠ y := fun hxy => hx (hxy ▸ List.mem_of_getLast? hl)
      simp [hne]
  · rfl

/-- The end of a segment, or the head, is linked to a list of other nodes. -/
theorem seg_splice (hxs : Seg next a xs b) (hys : Seg next c ys 0) (hn : (xs ++ ys).Nodup) :
    Seg (relink next a (xs.getLast?.getD 0) c).1 (relink next a (xs.getLast?.getD 0) c).2
      (xs ++ ys) 0 := by
  obtain ⟨hnx, -, hdis⟩ := List.nodup_append.1 hn
  refine seg_append.2 ⟨c, relink_seg hxs hnx, seg_frame hys fun y hy => ?_⟩
  exact relink_of_notMem fun hyx => hdis y hyx y hy rfl

/-- A new node is linked to its successor, and its predecessor or the head to it. -/
theorem seg_insert (h : Seg next a (xs ++ ys) 0) (hx : x ∉ xs ++ ys) (h0 : x ≠ 0)
    (hnext : next x = ys.head?.getD 0) :
    Seg (relink next a (xs.getLast?.getD 0) x).1 (relink next a (xs.getLast?.getD 0) x).2
      (xs ++ x :: ys) 0 := by
  obtain ⟨b, hxs, hys⟩ := seg_append.1 h
  have hlink : next x = b := by rw [hnext, ← seg_start hys]
  refine seg_splice hxs ⟨rfl, h0, hlink ▸ hys⟩ ?_
  exact List.nodup_middle.2 (List.nodup_cons.2 ⟨hx, seg_nodup h⟩)

/-- The predecessor of a node, or the head, is linked to its successor. -/
theorem seg_remove (h : Seg next a (xs ++ x :: ys) 0) :
    Seg (relink next a (xs.getLast?.getD 0) (next x)).1
      (relink next a (xs.getLast?.getD 0) (next x)).2 (xs ++ ys) 0 := by
  obtain ⟨b, hxs, -, -, hys⟩ := seg_append.1 h
  exact seg_splice hxs hys ((seg_nodup h).sublist ((List.sublist_cons_self x ys).append_left xs))

end OSK.Lib
