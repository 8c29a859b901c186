import Mathlib.Data.List.Chain
import Mathlib.Data.List.Perm.Basic
import Mathlib.Tactic.Ring
import Mathlib.Tactic.Linarith

/-! Tilings of an interval of addresses by spans of whole blocks of `u` bytes.
A tile is a span tagged free or used. A first-fit allocator whose free list is
kept in address order and whose neighbouring free spans are merged is a walk
over such a tiling: its free list is `freeSpans`, and what it has handed out is
`usedSpans`. -/

namespace OSK.Lib

structure Span where
  addr : ℕ
  size : ℕ
  deriving DecidableEq, Repr

def Span.stop (u : ℕ) (s : Span) : ℕ := s.addr + u * s.size

abbrev Tile := Span × Bool

def Tiles (u : ℕ) : ℕ → List Tile → ℕ → Prop
  | a, [], b => a = b
  | a, t :: ts, b => t.1.addr = a ∧ 1 ≤ t.1.size ∧ Tiles u (t.1.stop u) ts b

def freeSpans (ts : List Tile) : List Span := (ts.filter (·.2)).map (·.1)

def usedSpans (ts : List Tile) : List Span := (ts.filter (!·.2)).map (·.1)

/-- No two neighbouring tiles are both free. -/
def Coalesced (ts : List Tile) : Prop := ts.IsChain (fun x y => ¬(x.2 = true ∧ y.2 = true))

variable {u a b c : ℕ} {ts ts' ts₁ ts₂ mid : List Tile} {t : Tile} {s s' : Span}

@[simp] theorem freeSpans_nil : freeSpans [] = [] := rfl
@[simp] theorem usedSpans_nil : usedSpans [] = [] := rfl

@[simp] theorem freeSpans_cons_free : freeSpans ((s, true) :: ts) = s :: freeSpans ts := rfl
@[simp] theorem freeSpans_cons_used : freeSpans ((s, false) :: ts) = freeSpans ts := rfl
@[simp] theorem usedSpans_cons_free : usedSpans ((s, true) :: ts) = usedSpans ts := rfl
@[simp] theorem usedSpans_cons_used : usedSpans ((s, false) :: ts) = s :: usedSpans ts := rfl

@[simp] theorem freeSpans_append : freeSpans (ts₁ ++ ts₂) = freeSpans ts₁ ++ freeSpans ts₂ := by
  simp [freeSpans]

@[simp] theorem usedSpans_append : usedSpans (ts₁ ++ ts₂) = usedSpans ts₁ ++ usedSpans ts₂ := by
  simp [usedSpans]

theorem mem_freeSpans : s ∈ freeSpans ts ↔ (s, true) ∈ ts := by
  simp [freeSpans]

theorem mem_usedSpans : s ∈ usedSpans ts ↔ (s, false) ∈ ts := by
  simp [usedSpans]

/-- A position in the free list is a position in the tiling. -/
theorem split_freeSpans {l₁ l₂ : List Span} (h : freeSpans ts = l₁ ++ s :: l₂) :
    ∃ ts₁ ts₂, ts = ts₁ ++ (s, true) :: ts₂ ∧ freeSpans ts₁ = l₁ ∧ freeSpans ts₂ = l₂ := by
  obtain ⟨m₁, m₂, hf, rfl, hm⟩ := List.map_eq_append_iff.1 h
  obtain ⟨t, m₃, rfl, rfl, rfl⟩ := List.map_eq_cons_iff.1 hm
  obtain ⟨ts₁, r, rfl, rfl, hr⟩ := List.filter_eq_append_iff.1 hf
  obtain ⟨r₁, r₂, rfl, hr₁, ht, rfl⟩ := List.filter_eq_cons_iff.1 hr
  have hnil : r₁.filter (·.2) = [] := List.filter_eq_nil_iff.2 hr₁
  refine ⟨ts₁ ++ r₁, r₂, ?_, ?_, rfl⟩
  · obtain ⟨s, f⟩ := t
    simp only at ht
    subst ht
    simp
  · simp [freeSpans, hnil]

theorem split_usedSpans (h : s ∈ usedSpans ts) :
    ∃ ts₁ ts₂, ts = ts₁ ++ (s, false) :: ts₂ := by
  obtain ⟨ts₁, ts₂, h⟩ := List.append_of_mem (mem_usedSpans.1 h)
  exact ⟨ts₁, ts₂, h⟩

/-! Cutting a tiling and putting another one into the gap. -/

theorem tiles_append : Tiles u a (ts₁ ++ ts₂) c ↔ ∃ b, Tiles u a ts₁ b ∧ Tiles u b ts₂ c := by
  induction ts₁ generalizing a with
  | nil => simp [Tiles]
  | cons t ts ih =>
    simp only [List.cons_append, Tiles, ih]
    constructor
    · rintro ⟨h1, h2, b, h3, h4⟩
      exact ⟨b, ⟨h1, h2, h3⟩, h4⟩
    · rintro ⟨b, ⟨h1, h2, h3⟩, h4⟩
      exact ⟨h1, h2, b, h3, h4⟩

theorem tiles_le (h : Tiles u a ts b) : a ≤ b := by
  induction ts generalizing a with
  | nil => exact h.le
  | cons t ts ih =>
    obtain ⟨h1, -, h3⟩ := h
    have := ih h3
    unfold Span.stop at this
    omega

theorem tiles_length (h : Tiles u a ts b) : a + u * ts.length ≤ b := by
  induction ts generalizing a with
  | nil => exact h.le
  | cons t ts ih =>
    obtain ⟨h1, h2, h3⟩ := h
    have h4 := ih h3
    have h5 := Nat.mul_le_mul_left u h2
    rw [Span.stop] at h4
    rw [List.length_cons, Nat.mul_succ]
    omega

theorem stop_ge (hs : 1 ≤ s.size) : s.addr + u ≤ s.stop u := by
  unfold Span.stop
  have := Nat.mul_le_mul_left u hs
  omega

theorem tiles_bounds (h : Tiles u a ts b) (ht : t ∈ ts) :
    a ≤ t.1.addr ∧ 1 ≤ t.1.size ∧ t.1.stop u ≤ b := by
  obtain ⟨ts₁, ts₂, rfl⟩ := List.append_of_mem ht
  obtain ⟨m, h1, h2, h3, h4⟩ := tiles_append.1 h
  exact ⟨h2 ▸ tiles_le h1, h3, tiles_le h4⟩

/-- Earlier tiles end before later ones start. -/
theorem tiles_ordered (h : Tiles u a ts b) :
    ts.Pairwise (fun x y => x.1.stop u ≤ y.1.addr) := by
  induction ts generalizing a with
  | nil => exact .nil
  | cons t ts ih => exact .cons (fun y hy => (tiles_bounds h.2.2 hy).1) (ih h.2.2)

theorem tiles_cover (h : Tiles u a ts b) {x : ℕ} (hx : a ≤ x) (hb : x < b) :
    ∃ t ∈ ts, t.1.addr ≤ x ∧ x < t.1.stop u := by
  induction ts generalizing a with
  | nil =>
    have : a = b := h
    omega
  | cons t ts ih =>
    obtain ⟨h1, -, h3⟩ := h
    by_cases hc : x < t.1.stop u
    · exact ⟨t, by simp, by omega, hc⟩
    · obtain ⟨t', ht', h'⟩ := ih h3 (by omega)
      exact ⟨t', by simp [ht'], h'⟩

theorem tiles_aligned (h : Tiles u a ts b) (ht : t ∈ ts) : ∃ k, t.1.addr = a + u * k := by
  induction ts generalizing a with
  | nil => cases ht
  | cons t' ts ih =>
    obtain ⟨h1, -, h3⟩ := h
    rcases List.mem_cons.1 ht with rfl | ht
    · exact ⟨0, by omega⟩
    · obtain ⟨k, hk⟩ := ih h3 ht
      refine ⟨t'.1.size + k, ?_⟩
      rw [hk, Span.stop, h1, Nat.mul_add, Nat.add_assoc]

/-- The tiles of a span's place may be exchanged for others that tile it too. -/
theorem tiles_replace (h : Tiles u a (ts₁ ++ t :: ts₂) b)
    (hmid : Tiles u t.1.addr mid (t.1.stop u)) : Tiles u a (ts₁ ++ mid ++ ts₂) b := by
  obtain ⟨m, h1, rfl, -, h2⟩ := tiles_append.1 h
  exact tiles_append.2 ⟨_, tiles_append.2 ⟨_, h1, hmid⟩, h2⟩

theorem tiles_addr_lt (hu : 0 < u) (h : Tiles u a (ts₁ ++ t :: ts₂) b) :
    (∀ x ∈ ts₁, x.1.addr < t.1.addr) ∧ ∀ y ∈ ts₂, t.1.addr < y.1.addr := by
  have ho := List.pairwise_append.1 (tiles_ordered h)
  constructor
  · intro x hx
    have h1 := ho.2.2 x hx t (by simp)
    have h2 := stop_ge (u := u) (tiles_bounds h (List.mem_append_left _ hx)).2.1
    omega
  · intro y hy
    have h1 := (List.pairwise_cons.1 ho.2.1).1 y hy
    have h2 := stop_ge (u := u) (tiles_bounds h (t := t) (by simp)).2.1
    omega

theorem usedSpans_perm (ts₁ ts₂ : List Tile) (s : Span) :
    (usedSpans (ts₁ ++ (s, false) :: ts₂)).Perm (s :: usedSpans (ts₁ ++ ts₂)) := by
  simp

/-! A coalesced tiling has no choice but where the used spans are. -/

/-- The used spans stand in the order of their addresses. -/
theorem usedSpans_ordered (hu : 0 < u) (h : Tiles u a ts b) :
    (usedSpans ts).Pairwise fun x y => x.addr < y.addr := by
  apply List.pairwise_map.2
  apply List.Pairwise.imp_of_mem _ ((tiles_ordered h).sublist List.filter_sublist)
  intro x y hx _ hxy
  have hs := stop_ge (u := u) (tiles_bounds h (List.mem_of_mem_filter hx)).2.1
  omega

/-- No room for a tile. -/
theorem tiles_self (hu : 0 < u) (h : Tiles u a ts a) : ts = [] := by
  have hl := tiles_length h
  apply List.eq_nil_of_length_eq_zero
  have : u * ts.length = 0 := by omega
  exact (Nat.mul_eq_zero.1 this).resolve_left hu.ne'

/-- A free tile of a coalesced tiling reaches to the next used one, or to the end. -/
theorem free_stop (h : Tiles u a ((s, true) :: ts) b) (hc : Coalesced ((s, true) :: ts)) :
    s.stop u = ((usedSpans ts).head?.map (·.addr)).getD b := by
  obtain ⟨-, -, h3⟩ := h
  cases ts with
  | nil => exact h3
  | cons t ts =>
    obtain ⟨s', f⟩ := t
    cases f with
    | true => exact absurd ⟨rfl, rfl⟩ (List.isChain_cons_cons.1 hc).1
    | false => exact h3.1.symm

theorem span_eq (hu : 0 < u) (ha : s.addr = s'.addr) (hs : s.stop u = s'.stop u) : s = s' := by
  obtain ⟨x, n⟩ := s
  obtain ⟨x', n'⟩ := s'
  obtain rfl : x = x' := ha
  have hn : u * n = u * n' := Nat.add_left_cancel hs
  rw [Nat.eq_of_mul_eq_mul_left hu hn]

/-- The first used span does not stand where a free one does. -/
theorem used_ne_free (hu : 0 < u) (h : Tiles u a ((s, true) :: ts) b) {l : List Span}
    (he : usedSpans ts = s' :: l) : s'.addr ≠ a := by
  obtain ⟨h1, h2, h3⟩ := h
  have hm : (s', false) ∈ ts := mem_usedSpans.1 (he ▸ List.mem_cons_self)
  have hle := (tiles_bounds h3 hm).1
  have hs := stop_ge (u := u) h2
  simp only at h1 hs hle
  omega

/-- A coalesced tiling is determined by its used spans. -/
theorem tiles_unique (hu : 0 < u) (h : Tiles u a ts b) (h' : Tiles u a ts' b) (hc : Coalesced ts)
    (hc' : Coalesced ts') (he : usedSpans ts = usedSpans ts') : ts = ts' := by
  induction ts generalizing a ts' with
  | nil =>
    obtain rfl : a = b := h
    exact (tiles_self hu h').symm
  | cons t ts ih =>
    cases ts' with
    | nil =>
      obtain rfl : a = b := h'
      exact tiles_self hu h
    | cons t' ts' =>
      obtain ⟨s, f⟩ := t
      obtain ⟨s', f'⟩ := t'
      have haddr : s.addr = s'.addr := h.1.trans h'.1.symm
      have htail : s = s' → f = f' → usedSpans ts = usedSpans ts' →
          (s, f) :: ts = (s', f') :: ts' := by
        intro hs hf hused
        subst hs hf
        rw [ih h.2.2 h'.2.2 hc.tail hc'.tail hused]
      cases f with
      | true =>
        cases f' with
        | true =>
          have hused : usedSpans ts = usedSpans ts' := he
          have hstop := free_stop h hc
          rw [hused, ← free_stop h' hc'] at hstop
          exact htail (span_eq hu haddr hstop) rfl hused
        | false => exact absurd h'.1 (used_ne_free hu h he)
      | false =>
        cases f' with
        | true => exact absurd h.1 (used_ne_free hu h' he.symm)
        | false =>
          have hused : s :: usedSpans ts = s' :: usedSpans ts' := he
          injection hused with hs hused
          exact htail hs rfl hused

end OSK.Lib
