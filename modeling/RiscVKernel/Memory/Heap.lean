import Mathlib.Data.List.Nodup
import RiscVKernel.Lib.Tiling

/-! The block allocator of `_memoryAllocator.cpp` seen as two lists of blocks:
the free list in address order and the taken list with the newest block first.
`Words` has the same functions over the memory words the lists live in, and
`Refinement` shows that the two agree. -/

namespace OSK

open Lib

/-- `MEM_BLOCK_SIZE` in bytes. -/
def memBlockSize : ℕ := 64

/-- `SIZE_HEADER`: the two words at the start of a block. -/
def sizeHeader : ℕ := 16

/-- The number of blocks an object of `n` bytes asks `_kmalloc` for. -/
def blocksFor (n : ℕ) : ℕ := (sizeHeader + n + memBlockSize - 1) / memBlockSize

abbrev Block := Span

/-- The address `_kmalloc` hands out for a block. -/
def payload (b : Block) : ℕ := b.addr + sizeHeader

structure Heap where
  free : List Block
  taken : List Block
  deriving DecidableEq, Repr

namespace Heap

/-- The state after `init`: one free block. -/
def init (start total : ℕ) : Heap := ⟨[⟨start, total⟩], []⟩

/-- The first free block of at least `n` blocks, and the free list without its
first `n` blocks. -/
def takeFit (n : ℕ) : List Block → Option (Block × List Block)
  | [] => none
  | b :: bs =>
    if b.size < n then (takeFit n bs).map fun r => (r.1, b :: r.2)
    else if n = b.size then some (b, bs)
    else some (b, ⟨b.addr + n * memBlockSize, b.size - n⟩ :: bs)

def kmalloc (h : Heap) (n : ℕ) : Option (ℕ × Heap) :=
  if n = 0 then none
  else match takeFit n h.free with
    | none => none
    | some (b, free) => some (payload b, ⟨free, ⟨b.addr, n⟩ :: h.taken⟩)

/-- `b` put before the free blocks above it, merged with the first of them
when they touch. -/
def joinNext (b : Block) : List Block → List Block
  | [] => [b]
  | n :: ns =>
    if b.addr + b.size * memBlockSize = n.addr then ⟨b.addr, b.size + n.size⟩ :: ns
    else b :: n :: ns

/-- `b` put into the free list at its place by address, merged with the block
before it and the block after it when they touch. -/
def insertFree (b : Block) (free : List Block) : List Block :=
  let lo := free.takeWhile (·.addr < b.addr)
  let hi := free.dropWhile (·.addr < b.addr)
  match lo.getLast? with
  | none => joinNext b hi
  | some p =>
    if p.addr + p.size * memBlockSize = b.addr then
      lo.dropLast ++ joinNext ⟨p.addr, p.size + b.size⟩ hi
    else lo ++ joinNext b hi

/-- The result of `_kmfree` and the state it leaves. -/
def kmfree (h : Heap) (p : ℕ) : ℤ × Heap :=
  if p = 0 then (0, h)
  else match h.taken.find? (fun b => payload b = p) with
    | none => (-1, h)
    | some b => (0, ⟨insertFree b h.free, h.taken.erase b⟩)

/-- The blocks tile the heap, the free list is their free part in address
order and fully merged, and the taken list is the rest in some order. -/
def WF (start total : ℕ) (h : Heap) : Prop :=
  ∃ ts, Tiles memBlockSize start ts (start + memBlockSize * total) ∧ Coalesced ts ∧
    h.free = freeSpans ts ∧ h.taken.Perm (usedSpans ts)

/-- The payload addresses in use. -/
def payloads (h : Heap) : List ℕ := h.taken.map payload

variable {start total n p : ℕ} {h h' : Heap} {b : Block} {free free' : List Block}

theorem init_wf (ht : 1 ≤ total) : WF start total (init start total) :=
  ⟨[(⟨start, total⟩, true)], ⟨rfl, ht, rfl⟩, .singleton _, rfl, .refl _⟩

/-! Allocation. -/

theorem takeFit_some {r : Block × List Block} (h : takeFit n free = some r) :
    ∃ l₁ l₂, free = l₁ ++ r.1 :: l₂ ∧ (∀ c ∈ l₁, c.size < n) ∧ n ≤ r.1.size ∧
      r.2 = l₁ ++ (if n = r.1.size then l₂
        else ⟨r.1.addr + n * memBlockSize, r.1.size - n⟩ :: l₂) := by
  induction free generalizing r with
  | nil => cases h
  | cons c cs ih =>
    unfold takeFit at h
    split_ifs at h with h1 h2
    · obtain ⟨r', hr', rfl⟩ := Option.map_eq_some_iff.1 h
      obtain ⟨l₁, l₂, rfl, hl, hn, he⟩ := ih hr'
      exact ⟨c :: l₁, l₂, rfl, by simpa [h1] using hl, hn, by simp [he]⟩
    · cases h
      exact ⟨[], cs, rfl, by simp, h2.le, by simp [h2]⟩
    · cases h
      exact ⟨[], cs, rfl, by simp, Nat.not_lt.1 h1, by simp [h2]⟩

theorem takeFit_eq (n : ℕ) (free : List Block) :
    takeFit n free = match free.dropWhile (·.size < n) with
      | [] => none
      | b :: bs => some (b, free.takeWhile (·.size < n) ++ (if n = b.size then bs
          else ⟨b.addr + n * memBlockSize, b.size - n⟩ :: bs)) := by
  induction free with
  | nil => rfl
  | cons c cs ih =>
    by_cases hc : c.size < n
    · simp only [takeFit, hc, if_true, ih, List.dropWhile_cons, List.takeWhile_cons, decide_true]
      cases cs.dropWhile (·.size < n) <;> simp
    · simp only [takeFit, hc, if_false, List.dropWhile_cons, List.takeWhile_cons, decide_false,
        Bool.false_eq_true]
      split_ifs <;> rfl

theorem takeFit_none (h : takeFit n free = none) : ∀ c ∈ free, c.size < n := by
  induction free with
  | nil => simp
  | cons c cs ih =>
    unfold takeFit at h
    split_ifs at h with h1
    simp only [Option.map_eq_none_iff] at h
    simpa [h1] using ih h

/-- What is left of a free tile of which the first `n` blocks are handed out. -/
def leftover (n : ℕ) (b : Block) : List Tile :=
  if n = b.size then [] else [(⟨b.addr + n * memBlockSize, b.size - n⟩, true)]

theorem tiles_leftover (hn : 1 ≤ n) (hb : n ≤ b.size) :
    Tiles memBlockSize b.addr ((⟨b.addr, n⟩, false) :: leftover n b) (b.stop memBlockSize) := by
  refine ⟨rfl, hn, ?_⟩
  unfold leftover Span.stop memBlockSize
  split_ifs with h
  · simp only [Tiles, h]
  · simp only [Tiles, Span.stop]
    omega

theorem kmalloc_some (hm : kmalloc h n = some (p, h')) :
    ∃ b l₁ l₂, 1 ≤ n ∧ p = payload b ∧ h.free = l₁ ++ b :: l₂ ∧ n ≤ b.size ∧
      h'.free = l₁ ++ freeSpans (leftover n b) ++ l₂ ∧ h'.taken = ⟨b.addr, n⟩ :: h.taken := by
  unfold kmalloc at hm
  split_ifs at hm with h0
  split at hm
  · cases hm
  next b free' hf =>
    cases hm
    obtain ⟨l₁, l₂, hfree, -, hn, he⟩ := takeFit_some hf
    refine ⟨b, l₁, l₂, by omega, rfl, hfree, hn, ?_, rfl⟩
    dsimp only at he
    rw [he, leftover]
    split_ifs <;> simp

theorem kmalloc_wf (hw : WF start total h) (hm : kmalloc h n = some (p, h')) :
    WF start total h' := by
  obtain ⟨b, l₁, l₂, hn, -, hfree, hb, hfree', htaken⟩ := kmalloc_some hm
  obtain ⟨ts, htile, hco, hf, ht⟩ := hw
  obtain ⟨ts₁, ts₂, rfl, rfl, rfl⟩ := split_freeSpans (hf.symm.trans hfree)
  refine ⟨ts₁ ++ ((⟨b.addr, n⟩, false) :: leftover n b) ++ ts₂,
    tiles_replace htile (tiles_leftover hn hb), ?_, ?_, ?_⟩
  · -- only the leftover can touch a free tile, and it stands where `b` stood
    unfold Coalesced leftover at *
    split_ifs with hs
    · simp only [List.append_assoc, List.isChain_append, List.isChain_cons] at hco ⊢
      simp_all
    · simp only [List.append_assoc, List.isChain_append, List.isChain_cons] at hco ⊢
      simp_all
  · simp [hfree']
  · rw [htaken]
    have hu : usedSpans (leftover n b) = [] := by
      unfold leftover
      split_ifs <;> rfl
    have := (ht.cons (⟨b.addr, n⟩ : Block))
    apply this.trans
    have hp : (usedSpans ts₁ ++ (⟨b.addr, n⟩ : Block) :: usedSpans ts₂).Perm
        (⟨b.addr, n⟩ :: (usedSpans ts₁ ++ usedSpans ts₂)) := List.perm_middle
    simpa [hu] using hp.symm

/-! Freeing. -/

theorem joinNext_tiles {ts₁ ts₂ : List Tile} {f : Bool} {a e : ℕ}
    (ht : Tiles memBlockSize a (ts₁ ++ (b, f) :: ts₂) e) (hco : Coalesced ts₂) :
    ∃ b' ts₃, joinNext b (freeSpans ts₂) = b' :: freeSpans ts₃ ∧ usedSpans ts₃ = usedSpans ts₂ ∧
      Tiles memBlockSize a (ts₁ ++ (b', true) :: ts₃) e ∧ Coalesced ((b', true) :: ts₃) := by
  obtain ⟨m, h1, h2, h3, h4⟩ := tiles_append.1 ht
  cases ts₂ with
  | nil => exact ⟨b, [], rfl, rfl, tiles_append.2 ⟨m, h1, h2, h3, h4⟩, .singleton _⟩
  | cons t ts₂ =>
    obtain ⟨n, f'⟩ := t
    obtain ⟨h5, h6, h7⟩ := h4
    simp only [Span.stop] at h5
    cases f' with
    | true =>
      -- the next tile is free, so the two blocks become one
      have hj : b.addr + b.size * memBlockSize = n.addr := by rw [h5, Nat.mul_comm]
      refine ⟨⟨b.addr, b.size + n.size⟩, ts₂, by simp [joinNext, hj], rfl,
        tiles_append.2 ⟨m, h1, h2, Nat.le_add_right_of_le h3, ?_⟩, ?_⟩
      · have he : Span.stop memBlockSize ⟨b.addr, b.size + n.size⟩ = n.stop memBlockSize := by
          simp only [Span.stop, h5]
          ring
        rw [he]
        exact h7
      · simp only [Coalesced, List.isChain_cons] at hco ⊢
        exact hco
    | false =>
      have hne : ∀ c ∈ freeSpans ts₂, c.addr ≠ b.addr + b.size * memBlockSize := by
        intro c hc
        have := (tiles_bounds h7 (mem_freeSpans.1 hc)).1
        simp only [Span.stop, memBlockSize] at *
        omega
      refine ⟨b, (n, false) :: ts₂, ?_, rfl, tiles_append.2 ⟨m, h1, h2, h3, h5, h6, h7⟩, ?_⟩
      · simp only [freeSpans_cons_used]
        cases hc : freeSpans ts₂ with
        | nil => rfl
        | cons c cs =>
          have := hne c (by simp [hc])
          simp [joinNext, this.symm]
      · simp only [Coalesced, List.isChain_cons] at hco ⊢
        simpa using hco

theorem takeWhile_below {ts₁ ts₂ : List Tile} {f : Bool} {a e : ℕ}
    (ht : Tiles memBlockSize a (ts₁ ++ (b, f) :: ts₂) e) :
    (freeSpans ts₁ ++ freeSpans ts₂).takeWhile (·.addr < b.addr) = freeSpans ts₁ ∧
      (freeSpans ts₁ ++ freeSpans ts₂).dropWhile (·.addr < b.addr) = freeSpans ts₂ := by
  obtain ⟨hlo, hhi⟩ := tiles_addr_lt (u := memBlockSize) (by decide) ht
  have h1 : ∀ c ∈ freeSpans ts₁, decide (c.addr < b.addr) = true := by
    intro c hc
    simpa using hlo _ (mem_freeSpans.1 hc)
  have h2 : ∀ c ∈ freeSpans ts₂, decide (c.addr < b.addr) = false := by
    intro c hc
    simpa using (hhi _ (mem_freeSpans.1 hc)).le
  rw [List.takeWhile_append_of_pos h1, List.dropWhile_append_of_pos h1]
  cases hc : freeSpans ts₂ with
  | nil => simp
  | cons c cs =>
    have := h2 c (by simp [hc])
    simp [this]

/-- Freeing a used tile: the free list becomes that of a tiling without it. -/
theorem insertFree_tiles {ts₁ ts₂ : List Tile} {a e : ℕ}
    (ht : Tiles memBlockSize a (ts₁ ++ (b, false) :: ts₂) e)
    (hco : Coalesced (ts₁ ++ (b, false) :: ts₂)) :
    ∃ ts, Tiles memBlockSize a ts e ∧ Coalesced ts ∧
      insertFree b (freeSpans ts₁ ++ freeSpans ts₂) = freeSpans ts ∧
      usedSpans ts = usedSpans ts₁ ++ usedSpans ts₂ := by
  obtain ⟨htake, hdrop⟩ := takeWhile_below ht
  unfold insertFree
  rw [htake, hdrop]
  obtain ⟨hco₁, hco₂, -⟩ := List.isChain_append.1 hco
  rw [List.isChain_cons] at hco₂
  rcases List.eq_nil_or_concat' ts₁ with rfl | ⟨ts₁', ⟨p, f⟩, rfl⟩
  · obtain ⟨b', ts₃, hj, hu, ht', hc'⟩ := joinNext_tiles ht hco₂.2
    exact ⟨_, ht', hc', by simpa using hj, by simp [hu]⟩
  · rw [List.append_assoc] at ht
    obtain ⟨m, hm, hp1, hp2, hb1, hb2, hrest⟩ := tiles_append.1 ht
    simp only [Span.stop] at hb1
    cases f with
    | true =>
      -- the tile before is free: it grows over `b`
      have hj : p.addr + p.size * memBlockSize = b.addr := by rw [hb1, Nat.mul_comm]
      have ht' : Tiles memBlockSize a (ts₁' ++ (⟨p.addr, p.size + b.size⟩, true) :: ts₂) e := by
        refine tiles_append.2 ⟨m, hm, hp1, Nat.le_add_right_of_le hp2, ?_⟩
        have he : Span.stop memBlockSize ⟨p.addr, p.size + b.size⟩ = b.stop memBlockSize := by
          simp only [Span.stop, hb1]
          ring
        rw [he]
        exact hrest
      obtain ⟨b', ts₃, hj', hu, ht'', hc'⟩ := joinNext_tiles ht' hco₂.2
      refine ⟨ts₁' ++ (b', true) :: ts₃, ht'', ?_, ?_, by simp [hu]⟩
      · rw [List.isChain_append] at hco₁
        refine List.isChain_append.2 ⟨hco₁.1, hc', ?_⟩
        intro x hx y hy
        simp only [List.head?_cons, Option.mem_def, Option.some.injEq] at hy
        subst hy
        exact hco₁.2.2 x hx (p, true) (by simp)
      · simp [hj, hj']
    | false =>
      have ht' : Tiles memBlockSize a ((ts₁' ++ [(p, false)]) ++ (b, false) :: ts₂) e := by
        simpa using ht
      obtain ⟨b', ts₃, hj', hu, ht'', hc'⟩ := joinNext_tiles ht' hco₂.2
      refine ⟨_, ht'', ?_, ?_, by simp [hu]⟩
      · refine List.isChain_append.2 ⟨hco₁, hc', ?_⟩
        intro x hx y _
        simp only [List.getLast?_concat, Option.mem_def,
          Option.some.injEq] at hx
        subst hx
        simp
      · simp only [freeSpans_append, freeSpans_cons_used, freeSpans_nil,
          List.append_nil, freeSpans_cons_free]
        cases hl : (freeSpans ts₁').getLast? with
        | none =>
          rw [List.getLast?_eq_none_iff.1 hl]
          simpa using hj'
        | some q =>
          -- the last free block below `b` ends at or before the used tile between
          have hq := (tiles_bounds hm (mem_freeSpans.1 (List.mem_of_getLast? hl))).2.2
          have hne : q.addr + q.size * memBlockSize ≠ b.addr := by
            simp only [Span.stop, memBlockSize] at *
            omega
          simp [hne, hj']

theorem kmfree_wf (hw : WF start total h) : WF start total (kmfree h p).2 := by
  unfold kmfree
  split_ifs with h0
  · exact hw
  · cases hf : h.taken.find? (fun b => payload b = p) with
    | none => exact hw
    | some b =>
      obtain ⟨ts, htile, hco, hfree, htaken⟩ := hw
      have hb := List.mem_of_find?_eq_some hf
      obtain ⟨ts₁, ts₂, rfl⟩ := split_usedSpans (htaken.mem_iff.1 hb)
      obtain ⟨ts', ht', hco', hins, hused⟩ := insertFree_tiles htile hco
      refine ⟨ts', ht', hco', by simpa [hfree] using hins, ?_⟩
      dsimp only
      rw [hused]
      have hp := (List.perm_cons_erase hb).symm.trans (htaken.trans (usedSpans_perm ts₁ ts₂ b))
      simpa using hp.cons_inv

/-! What a well-formed heap says about addresses. -/

theorem WF.bounds (hw : WF start total h) (hb : b ∈ h.free ++ h.taken) :
    start ≤ b.addr ∧ 1 ≤ b.size ∧ b.stop memBlockSize ≤ start + memBlockSize * total := by
  obtain ⟨ts, ht, -, hf, htk⟩ := hw
  rcases List.mem_append.1 hb with hb | hb
  · exact tiles_bounds ht (mem_freeSpans.1 (hf ▸ hb))
  · exact tiles_bounds ht (mem_usedSpans.1 (htk.mem_iff.1 hb))

theorem WF.aligned (hw : WF start total h) (hb : b ∈ h.free ++ h.taken) :
    ∃ k, b.addr = start + memBlockSize * k := by
  obtain ⟨ts, ht, -, hf, htk⟩ := hw
  rcases List.mem_append.1 hb with hb | hb
  · exact tiles_aligned ht (mem_freeSpans.1 (hf ▸ hb))
  · exact tiles_aligned ht (mem_usedSpans.1 (htk.mem_iff.1 hb))

theorem freeSpans_append_usedSpans_perm (ts : List Tile) :
    (freeSpans ts ++ usedSpans ts).Perm (ts.map (·.1)) := by
  unfold freeSpans usedSpans
  rw [← List.map_append]
  exact (List.filter_append_perm _ ts).map _

/-- Two blocks of the heap do not overlap. -/
theorem WF.disjoint (hw : WF start total h) :
    (h.free ++ h.taken).Pairwise
      (fun b c => b.stop memBlockSize ≤ c.addr ∨ c.stop memBlockSize ≤ b.addr) := by
  obtain ⟨ts, ht, -, hf, htk⟩ := hw
  have hp : (h.free ++ h.taken).Perm (ts.map (·.1)) := by
    rw [hf]
    exact (htk.append_left _).trans (freeSpans_append_usedSpans_perm ts)
  refine (hp.pairwise_iff (fun h => h.symm)).2 (List.pairwise_map.2 ?_)
  exact (tiles_ordered ht).imp Or.inl

theorem WF.nodup (hw : WF start total h) : ((h.free ++ h.taken).map (·.addr)).Nodup := by
  refine List.pairwise_map.2 (List.Pairwise.imp_of_mem ?_ hw.disjoint)
  intro b c hb hc hd he
  have hb' := stop_ge (u := memBlockSize) (hw.bounds hb).2.1
  have hc' := stop_ge (u := memBlockSize) (hw.bounds hc).2.1
  unfold memBlockSize at *
  omega

theorem WF.length_le (hw : WF start total h) :
    h.free.length + h.taken.length ≤ total := by
  obtain ⟨ts, ht, -, hf, htk⟩ := hw
  have hl : h.free.length + h.taken.length = ts.length := by
    rw [hf, htk.length_eq, ← List.length_append, (freeSpans_append_usedSpans_perm ts).length_eq,
      List.length_map]
  have hle := tiles_length ht
  unfold memBlockSize at hle
  omega

/-! The heap as a table of sizes and a number of free blocks. -/

/-- The size of the taken block with the payload address `p`. -/
def sizeAt (h : Heap) (p : ℕ) : Option ℕ := (h.taken.find? (payload · = p)).map (·.size)

def sumSizes (l : List Block) : ℕ := (l.map (·.size)).sum

def freeBlocks (h : Heap) : ℕ := sumSizes h.free

@[simp] theorem sumSizes_nil : sumSizes [] = 0 := rfl
@[simp] theorem sumSizes_cons (b : Block) (l : List Block) :
    sumSizes (b :: l) = b.size + sumSizes l := by simp [sumSizes]
@[simp] theorem sumSizes_append (l l' : List Block) :
    sumSizes (l ++ l') = sumSizes l + sumSizes l' := by simp [sumSizes]

theorem mem_payloads : p ∈ h.payloads ↔ h.sizeAt p ≠ none := by
  simp only [payloads, sizeAt, List.mem_map, ne_eq, Option.map_eq_none_iff, List.find?_eq_none,
    decide_eq_true_eq, not_forall, not_not, exists_prop]

theorem sizeAt_zero (h : Heap) : h.sizeAt 0 = none := by
  simp [sizeAt, payload, sizeHeader]

theorem WF.payloads_nodup (hw : WF start total h) : h.payloads.Nodup := by
  have hnd := hw.nodup
  rw [List.map_append] at hnd
  have haddr := (List.nodup_append.1 hnd).2.1
  have he : h.payloads = (h.taken.map (·.addr)).map (· + sizeHeader) := by
    rw [List.map_map]
    rfl
  rw [he]
  exact haddr.map (add_left_injective sizeHeader)

theorem WF.payload_inj (hw : WF start total h) {c : Block} (hb : b ∈ h.taken) (hc : c ∈ h.taken)
    (he : payload b = payload c) : b = c := by
  have hnd : (h.taken.map (·.addr)).Nodup := by
    have := hw.nodup
    rw [List.map_append] at this
    exact (List.nodup_append.1 this).2.1
  apply List.inj_on_of_nodup_map hnd hb hc
  simpa [payload] using he

/-- What `kmalloc` hands out was not taken and has the size asked for. -/
theorem kmalloc_sizeAt (hw : WF start total h) (hm : kmalloc h n = some (p, h')) :
    h.sizeAt p = none ∧ h'.sizeAt = Function.update h.sizeAt p (some n) := by
  have hw' := kmalloc_wf hw hm
  obtain ⟨b, l₁, l₂, -, rfl, -, -, -, htaken⟩ := kmalloc_some hm
  constructor
  · by_contra hne
    obtain ⟨c, hc, he⟩ := List.mem_map.1 (mem_payloads.2 hne)
    have hnd := hw'.nodup
    rw [htaken, List.map_append, List.map_cons] at hnd
    refine (List.nodup_cons.1 (List.nodup_append.1 hnd).2.1).1 (List.mem_map.2 ⟨c, hc, ?_⟩)
    simpa [payload] using he
  · funext q
    rw [sizeAt, htaken]
    by_cases hq : q = payload b
    · subst hq
      simp [payload]
    · have hne : payload ⟨b.addr, n⟩ ≠ q := fun he => hq he.symm
      simp [hne, hq, sizeAt]

theorem find_erase {l : List Block} {q : ℕ} (hb : payload b ≠ q) :
    (l.erase b).find? (payload · = q) = l.find? (payload · = q) := by
  induction l with
  | nil => rfl
  | cons c l ih =>
    by_cases hc : c = b
    · subst hc
      simp [hb]
    · rw [List.erase_cons_tail (by simpa using hc)]
      simp only [List.find?_cons, ih]

/-- `kmfree` gives back the block at `p` and no other one. -/
theorem kmfree_sizeAt (hw : WF start total h) (p : ℕ) :
    (h.kmfree p).2.sizeAt = Function.update h.sizeAt p none := by
  have hsame : h.sizeAt p = none → h.sizeAt = Function.update h.sizeAt p none := fun hn => by
    rw [← hn, Function.update_eq_self]
  unfold kmfree
  by_cases hp : p = 0
  · subst hp
    rw [if_pos rfl]
    exact hsame (sizeAt_zero h)
  rw [if_neg hp]
  cases hf : h.taken.find? (fun b => payload b = p) with
  | none => exact hsame (by simp [sizeAt, hf])
  | some b =>
    have hb := List.mem_of_find?_eq_some hf
    obtain rfl : payload b = p := by simpa using List.find?_some hf
    funext q
    by_cases hq : q = payload b
    · subst hq
      have hnone : (h.taken.erase b).find? (payload · = payload b) = none := by
        refine List.find?_eq_none.2 fun c hc he => ?_
        have hnd : h.taken.Nodup := by
          have := hw.nodup
          rw [List.map_append] at this
          exact List.Nodup.of_map _ (List.nodup_append.1 this).2.1
        rw [hw.payload_inj (List.mem_of_mem_erase hc) hb (by simpa using he)] at hc
        exact (hnd.mem_erase_iff.1 hc).1 rfl
      simp [sizeAt, hnone]
    · have hne : payload b ≠ q := fun he => hq he.symm
      simp [sizeAt, find_erase hne, hq]

theorem mem_kmfree (hw : WF start total h) (q : ℕ) :
    q ∈ (h.kmfree p).2.payloads ↔ q ≠ p ∧ q ∈ h.payloads := by
  rw [mem_payloads, mem_payloads, kmfree_sizeAt hw]
  by_cases he : q = p
  · subst he
    simp
  · simp [he]

theorem kmalloc_payloads (hm : kmalloc h n = some (p, h')) : h'.payloads = p :: h.payloads := by
  obtain ⟨b, l₁, l₂, -, rfl, -, -, -, htaken⟩ := kmalloc_some hm
  rw [payloads, htaken]
  rfl

/-! Free blocks are counted. -/

theorem leftover_blocks (hn : n ≤ b.size) : n + sumSizes (freeSpans (leftover n b)) = b.size := by
  unfold leftover
  split_ifs with he
  · simpa [freeSpans] using he
  · simp only [freeSpans, List.filter_cons_of_pos, List.filter_nil, List.map_cons, List.map_nil,
      sumSizes_cons, sumSizes_nil]
    omega

theorem kmalloc_blocks (hm : kmalloc h n = some (p, h')) :
    n + h'.freeBlocks = h.freeBlocks := by
  obtain ⟨b, l₁, l₂, -, -, hfree, hn, hfree', -⟩ := kmalloc_some hm
  have := leftover_blocks hn
  simp only [freeBlocks, hfree, hfree', sumSizes_append, sumSizes_cons]
  omega

theorem joinNext_blocks (b : Block) (free : List Block) :
    sumSizes (joinNext b free) = b.size + sumSizes free := by
  unfold joinNext
  cases free with
  | nil => rfl
  | cons c cs =>
    dsimp only
    split_ifs
    · simp only [sumSizes_cons, Nat.add_assoc]
    · simp only [sumSizes_cons]

theorem insertFree_blocks (b : Block) (free : List Block) :
    sumSizes (insertFree b free) = b.size + sumSizes free := by
  have hsplit : sumSizes free = sumSizes (free.takeWhile (·.addr < b.addr)) +
      sumSizes (free.dropWhile (·.addr < b.addr)) := by
    rw [← sumSizes_append, List.takeWhile_append_dropWhile]
  unfold insertFree
  dsimp only
  cases hl : (free.takeWhile (·.addr < b.addr)).getLast? with
  | none =>
    rw [List.getLast?_eq_none_iff] at hl
    rw [hl, sumSizes_nil, Nat.zero_add] at hsplit
    dsimp only
    rw [joinNext_blocks, hsplit]
  | some q =>
    have hlast : sumSizes (free.takeWhile (·.addr < b.addr)) =
        sumSizes (free.takeWhile (·.addr < b.addr)).dropLast + q.size := by
      conv_lhs => rw [← List.dropLast_append_getLast? q hl]
      simp
    dsimp only
    split_ifs <;> simp only [sumSizes_append, joinNext_blocks] <;> omega

theorem kmfree_blocks (hs : h.sizeAt p = some n) :
    (h.kmfree p).2.freeBlocks = n + h.freeBlocks := by
  have hp : p ≠ 0 := by
    rintro rfl
    rw [sizeAt_zero] at hs
    cases hs
  obtain ⟨b, hf, rfl⟩ := Option.map_eq_some_iff.1 hs
  unfold kmfree
  rw [if_neg hp, hf]
  exact insertFree_blocks b h.free

/-- `kmalloc` of one block fails exactly when no block is free. -/
theorem kmalloc_one_none (hw : WF start total h) : kmalloc h 1 = none ↔ h.freeBlocks = 0 := by
  constructor
  · intro hm
    rw [kmalloc, if_neg Nat.one_ne_zero] at hm
    cases hf : takeFit 1 h.free with
    | some r => simp [hf] at hm
    | none =>
      have hempty : h.free = [] := by
        apply List.eq_nil_iff_forall_not_mem.2
        intro c hc
        have h1 := takeFit_none hf c hc
        have h2 := (hw.bounds (List.mem_append_left _ hc)).2.1
        omega
      rw [freeBlocks, hempty, sumSizes_nil]
  · intro h0
    cases hm : kmalloc h 1 with
    | none => rfl
    | some r =>
      have := kmalloc_blocks hm
      omega

end Heap
end OSK
