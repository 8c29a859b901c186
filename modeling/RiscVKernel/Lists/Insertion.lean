import RiscVKernel.Lists.Histories

/-! `sort` and `insert_sorted` with a comparator that compares keys: sorting a list is
inserting its entries in order, one after another, into an empty one. -/

namespace OSK

open Lib

namespace NodeList

variable {B : HeapBounds} {start total : ℕ} {l l' : NodeList} {h : Heap} {k : KList ℕ} {xs : List ℕ}
  {cmp : ℕ → ℕ → Bool} {d : ℕ}

/-- The list spells `xs` in a well-formed heap. -/
def Lists (start total : ℕ) (l : NodeList) (xs : List ℕ) : Prop :=
  ∃ h k, Spells start total l h k ∧ k.items = xs

/-- `insert_sorted` for the entries of `xs`, one after another. -/
def insertEach (B : HeapBounds) (cmp : ℕ → ℕ → Bool) (l : NodeList) (xs : List ℕ) :
    Except Fault NodeList :=
  xs.foldlM (fun l data => l.insertSorted B data cmp) l

/-- `insert_sorted` comes back if it needs no node or gets one, and puts the data in
their place. -/
theorem Spells.insertSorted_exact (hs : Spells start total l h k)
    (hend : start + memBlockSize * total < 2 ^ 64) (d : ℕ) (cmp : ℕ → ℕ → Bool) :
    if d ≠ 0 ∧ h.freeBlocks = 0 then l.insertSorted B d cmp = .error .null
    else ∃ l' h' k', l.insertSorted B d cmp = .ok l' ∧ Spells start total l' h' k' ∧
      k'.items = (if d = 0 then k.items else insertBy cmp d k.items) ∧
      h.freeBlocks ≤ h'.freeBlocks + 1 := by
  by_cases h0 : d = 0
  · rw [if_neg (by simp [h0])]
    refine ⟨l, h, k, ?_, hs, by simp [h0], by omega⟩
    simp only [NodeList.insertSorted, if_pos h0]
    rfl
  · cases hm : h.kmalloc (blocksFor 16) with
    | none =>
      have hfull : h.freeBlocks = 0 := (Heap.kmalloc_one_none hs.wf).1 hm
      have hwalk := hs.walk (fun curr => cmp (l.data curr) d) (cmp ·.data d) fun e he => by
        rw [hs.data e he]
      rw [if_pos ⟨h0, hfull⟩]
      simp only [NodeList.insertSorted, if_neg h0, hwalk, ended, NodeList.newElem,
        kmalloc_null B hs.heap hs.wf hm]
      rfl
    | some r =>
      obtain ⟨p, h'⟩ := r
      have hblocks : 1 + h'.freeBlocks = h.freeBlocks := Heap.kmalloc_blocks hm
      have hk : KList.insertSorted h k d cmp = .ok (h', k.takeWhile (cmp ·.data d) ++
          ⟨p, d⟩ :: k.dropWhile (cmp ·.data d)) := by
        simp [KList.insertSorted, KList.newNode, hm]
      obtain ⟨l', hl', hs'⟩ := hs.insertSorted (B := B) hend h0 hk
      rw [if_neg (by omega)]
      exact ⟨l', h', _, hl', hs', by rw [if_neg h0, items_insertBy], by omega⟩

/-- Insertion of one entry after another, as far as there are blocks for the nodes. -/
theorem Spells.insertEach (hs : Spells start total l h k) (hend : start + memBlockSize * total < 2 ^ 64)
    (cmp : ℕ → ℕ → Bool) (xs : List ℕ) :
    (∀ l', insertEach B cmp l xs = .ok l' → ∃ h' k', Spells start total l' h' k' ∧
      k'.items = (xs.filter (· ≠ 0)).foldl (fun sorted d => insertBy cmp d sorted) k.items) ∧
    (xs.length ≤ h.freeBlocks → ∃ l', insertEach B cmp l xs = .ok l') := by
  induction xs generalizing l h k with
  | nil =>
    refine ⟨?_, fun _ => ⟨l, rfl⟩⟩
    rintro l' hl'
    cases hl'
    exact ⟨h, k, hs, rfl⟩
  | cons d xs ih =>
    have hone := hs.insertSorted_exact (B := B) hend d cmp
    have hcons : NodeList.insertEach B cmp l (d :: xs) =
        l.insertSorted B d cmp >>= fun l => NodeList.insertEach B cmp l xs := rfl
    rw [hcons]
    by_cases hfull : d ≠ 0 ∧ h.freeBlocks = 0
    · rw [if_pos hfull] at hone
      rw [hone]
      refine ⟨nofun, fun hroom => ?_⟩
      rw [hfull.2] at hroom
      simp at hroom
    · rw [if_neg hfull] at hone
      obtain ⟨l₁, h₁, k₁, hl₁, hs₁, hitems, hblocks⟩ := hone
      obtain ⟨hspells, hback⟩ := ih hs₁
      rw [hl₁]
      refine ⟨fun l' hl' => ?_, fun hroom => hback (by simp at hroom; omega)⟩
      obtain ⟨h', k', hs', hk'⟩ := hspells l' hl'
      refine ⟨h', k', hs', hk'.trans ?_⟩
      by_cases h0 : d = 0 <;> simp [hitems, h0]

/-- For a list of any entries and a comparator that compares keys by `<` or by `≤`:
`sort` comes back with a list in order by key, and the entries inserted one after
another into an empty list give the same sequence, ties and all, but for null entries,
which are not inserted. -/
theorem sort_insertion {κ : Type*} [LinearOrder κ] (key : ℕ → κ)
    (hend : start + memBlockSize * total < 2 ^ 64)
    (hcmp : (cmp = fun a b => decide (key a < key b)) ∨ cmp = fun a b => decide (key a ≤ key b))
    (hl : Lists start total l xs) :
    ∃ l' nodes ys, l.sort cmp = .ok l' ∧ Lists start total l' ys ∧ Shape l' nodes ys ∧ ys.Perm xs ∧
      ys.Pairwise (fun a b => key a ≤ key b) ∧ ∀ e, Lists start total e [] →
        (∀ e', insertEach B cmp e xs = .ok e' → Lists start total e' (ys.filter (· ≠ 0)) ∧
          (0 ∉ xs → Lists start total e' ys)) ∧
        ∀ free, Allocator.Listed e.heap.mem e.heap.headFree free → xs.length ≤ Heap.sumSizes free →
          ∃ e', insertEach B cmp e xs = .ok e' := by
  obtain ⟨h, k, hs, rfl⟩ := hl
  have hc : Comparator cmp := by
    rcases hcmp with rfl | rfl
    · exact comparator_lt key
    · exact comparator_le key
  obtain ⟨l', hl', hs'⟩ := hs.sort cmp
  have hitems : KList.items (k.mergeSort fun e e' => cmp e.data e'.data) = insertAll cmp k.items := by
    rw [← mergeSort_eq_insertAll hc]
    exact List.map_mergeSort fun _ _ _ _ => rfl
  have hord : (insertAll cmp k.items).Pairwise fun a b => key a ≤ key b := by
    refine (insertAll_ordered hc k.items).imp fun {a b} hab => ?_
    rcases hcmp with rfl | rfl <;> simp only [decide_eq_true_eq, decide_eq_false_iff_not, not_lt,
      not_le] at hab <;> rcases hab with hab | hab
    · exact hab.le
    · exact hab
    · exact hab
    · exact hab.le
  refine ⟨l', _, insertAll cmp k.items, hl', ⟨h, _, hs', hitems⟩, hitems ▸ hs'.shape, insertAll_perm,
    hord, ?_⟩
  rintro e ⟨he, ke, hse, hke⟩
  obtain ⟨hspells, hback⟩ := hse.insertEach (B := B) hend cmp k.items
  rw [hke] at hspells
  refine ⟨fun e' he' => ?_, fun free hfree hroom => ?_⟩
  · obtain ⟨h', k', hs₁, hk'⟩ := hspells e' he'
    have hlists : Lists start total e' ((insertAll cmp k.items).filter (· ≠ 0)) := by
      rw [filter_insertAll hc]
      exact ⟨h', k', hs₁, hk'⟩
    refine ⟨hlists, fun hno => ?_⟩
    rwa [List.filter_eq_self.2] at hlists
    intro d hd
    have hne : d ≠ 0 := fun h0 => hno (h0 ▸ insertAll_perm.mem_iff.1 hd)
    simpa using hne
  · have hlisted : Allocator.Listed e.heap.mem e.heap.headFree he.free :=
      ⟨hse.heap.free, fun b hb => hse.heap.sizes b (List.mem_append_left _ hb)⟩
    obtain rfl := hfree.unique hlisted
    exact hback hroom

/-- Compares entries by their tens. -/
def byTens (a b : ℕ) : Bool := decide (a / 10 < b / 10)

/-- Five entries of which two have the key 1 and three the key 2: sorted, and inserted into
an empty list, those with equal keys come in the same order, which is not the one they had. -/
theorem sort_insertion_five : ∃ l l' e', Lists 64 8 l [25, 13, 27, 15, 21] ∧
    l.sort byTens = .ok l' ∧
    insertEach Allocator.eight byTens (empty Allocator.started) [25, 13, 27, 15, 21] = .ok e' ∧
    Shape l' [272, 144, 336, 208, 80] [15, 13, 21, 27, 25] ∧
    Lists 64 8 l' [15, 13, 21, 27, 25] ∧ Lists 64 8 e' [15, 13, 21, 27, 25] := by
  obtain ⟨l, -, hspells, hq⟩ := @exists_list ℕ
    [.addLast 25, .addLast 13, .addLast 27, .addLast 15, .addLast 21] (fun l =>
      (l.sort byTens).toOption.any fun l' =>
        decide (Seg l'.next l'.head [272, 144, 336, 208, 80] 0) &&
          [272, 144, 336, 208, 80].map l'.data == [15, 13, 21, 27, 25]) (by decide +kernel)
  have hl : Lists 64 8 l [25, 13, 27, 15, 21] := hspells
  obtain ⟨h₀, hr₀, hw₀⟩ := Allocator.eight_valid.init_sound fun _ => 7
  have he : Lists 64 8 (empty Allocator.started) [] := ⟨h₀, [], .empty hr₀ hw₀, rfl⟩
  have hfree : Allocator.Listed Allocator.started.mem Allocator.started.headFree [⟨64, 8⟩] := by
    decide +kernel
  obtain ⟨l', nodes, ys, hsort, hlists, hshape, -, -, hins⟩ :=
    sort_insertion (B := Allocator.eight) (· / 10) (by decide) (Or.inl rfl) hl
  obtain ⟨hsame, hback⟩ := hins _ he
  obtain ⟨e', he'⟩ := hback _ hfree (by decide)
  rw [show l.sort byTens = .ok l' from hsort] at hq
  obtain ⟨hseg, hdata⟩ := (Bool.and_eq_true _ _).mp hq
  obtain rfl := seg_unique hshape.chain (of_decide_eq_true hseg)
  obtain rfl := hshape.data.symm.trans (eq_of_beq hdata)
  exact ⟨l, l', e', hl, hsort, he', hshape, hlists, (hsame e' he').2 (by decide)⟩

/-- A null entry is sorted, and is not inserted. -/
theorem sort_insertion_null : ∃ l nodes e, Lists 64 4 l [0] ∧
    l.sort (fun a b => decide (id a < id b)) = .ok l ∧ Shape l nodes [0] ∧ Lists 64 4 e [] ∧
    insertEach ⟨64, 320⟩ (fun a b => decide (id a < id b)) e [0] = .ok e ∧ ¬Lists 64 4 e [0] := by
  have hB : HeapBounds.Valid ⟨64, 320⟩ := ⟨by decide, by decide, by decide⟩
  obtain ⟨h₀, hr, hw⟩ := hB.init_sound fun _ => 7
  obtain ⟨l, h, k, -, hs, hk⟩ := one_entry 0
  have hshort : l.head = 0 ∨ l.next l.head = 0 := by
    obtain ⟨e, rfl, -⟩ := List.map_eq_singleton_iff.1 hk
    obtain ⟨hhead, -, hnull⟩ := hs.chain
    exact Or.inr (hhead ▸ hnull)
  refine ⟨l, k.nodes, _, ⟨h, k, hs, hk⟩, ?_, hk ▸ hs.shape, ⟨h₀, [], .empty hr hw, rfl⟩, rfl, ?_⟩
  · simp only [NodeList.sort, if_pos hshort]
    rfl
  · rintro ⟨h', k', hs', hk'⟩
    rw [hs'.head_null.1 rfl] at hk'
    cases hk'

end NodeList
end OSK
