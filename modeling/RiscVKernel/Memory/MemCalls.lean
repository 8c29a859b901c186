import RiscVKernel.Memory.Canonical
import RiscVKernel.Memory.FirstFit

/-! `mem_free` and `mem_alloc` for whatever a caller passes them: which pointers
`_kmfree` takes for live, and what the rounding of `mem_alloc` makes of a size. -/

namespace OSK

open Lib

namespace Allocator

variable {B : HeapBounds} {mem : ℕ → ℕ} {s s₂ : Allocator} {start total p : ℕ} {h : Heap}
  {taken : List Block}

/-! Which pointers are live. -/

/-- The words `_kmfree` loads while it looks for the block in the taken list. -/
def searchLoads (s : Allocator) (toBeFreed : ℕ) : List ℕ :=
  loads s.mem (fun next => !decide (next = wrapSub toBeFreed sizeHeader)) s.loopBound s.headTaken

/-- `_kmfree` in the state `s`, for any pointer. It refuses those that are not the
payload of a taken block: it changes nothing then and looks at no other words than
the headers of taken blocks. A live block leaves the taken list, the others stay
as they are. -/
def FreesLive (s : Allocator) : Prop :=
  ∃ taken, Listed s.mem s.headTaken taken ∧ ∀ p : UInt64, ∃ r s', s.kmfree p.toNat = some (r, s') ∧
    (r = -1 ↔ p ≠ 0 ∧ ∀ b ∈ taken, payload b ≠ p.toNat) ∧
    (r = -1 → s' = s ∧ (∀ a ∈ s.searchLoads p.toNat, a ∈ headerWords taken) ∧
      ∀ s₂ : Allocator, s₂.headTaken = s.headTaken → s₂.totalBlocks = s.totalBlocks →
        (∀ a ∈ headerWords taken, s₂.mem a = s.mem a) → s₂.kmfree p.toNat = some (-1, s₂)) ∧
    (∀ b ∈ taken, payload b = p.toNat → r = 0 ∧ Listed s'.mem s'.headTaken (taken.erase b)) ∧
    (p = 0 → r = 0 ∧ s' = s)

/-- The search ends at null when no taken block has the payload. -/
theorem kmfree_dead (hl : Listed s.mem s.headTaken taken) (hlen : taken.length ≤ s.totalBlocks)
    (h0 : p ≠ 0) (hno : ∀ b ∈ taken, b.addr ≠ wrapSub p sizeHeader) :
    s.kmfree p = some (-1, s) := by
  have hwalk : walk s.mem (fun next => !decide (next = wrapSub p sizeHeader)) s.loopBound
      s.headTaken 0 = some (0, ((taken.takeWhile fun _ => true).map (·.addr)).getLast?.getD 0) := by
    have hnone : taken.dropWhile (fun _ => true) = [] := List.dropWhile_eq_nil_iff.2 fun _ _ => rfl
    apply (walk_map (P := fun _ => true) hl.1 (Nat.lt_succ_of_le hlen) _).trans
    · rw [hnone]
      rfl
    · simpa using hno
  simp only [kmfree, if_neg h0, hwalk]
  rfl

theorem searchLoads_taken (hl : Listed s.mem s.headTaken taken) :
    ∀ a ∈ s.searchLoads p, a ∈ headerWords taken := by
  intro a ha
  obtain ⟨b, hb, rfl⟩ := List.mem_map.1 (loads_seg hl.1 a ha)
  exact mem_headerWords.2 ⟨b, hb, Or.inl rfl⟩

/-- The taken list is in the header words of its blocks. -/
theorem Listed.frame (hl : Listed s.mem s.headTaken taken) (hhead : s₂.headTaken = s.headTaken)
    (hm : ∀ a ∈ headerWords taken, s₂.mem a = s.mem a) :
    Listed s₂.mem s₂.headTaken taken := by
  have hmem : ∀ b ∈ taken, s₂.mem b.addr = s.mem b.addr ∧ s₂.mem (b.addr + 8) = s.mem (b.addr + 8) := by
    intro b hb
    exact ⟨hm _ (mem_headerWords.2 ⟨b, hb, Or.inl rfl⟩), hm _ (mem_headerWords.2 ⟨b, hb, Or.inr rfl⟩)⟩
  constructor
  · rw [hhead]
    apply seg_frame hl.1
    intro x hx
    obtain ⟨b, hb, rfl⟩ := List.mem_map.1 hx
    exact (hmem b hb).1
  · intro b hb
    exact (hmem b hb).2.trans (hl.2 b hb)

/-- A search that finds nothing, in all states with the same taken list. -/
theorem refuses (hl : Listed s.mem s.headTaken taken) (hlen : taken.length ≤ s.totalBlocks)
    (h0 : p ≠ 0) (hno : ∀ b ∈ taken, b.addr ≠ wrapSub p sizeHeader) :
    ∀ s₂ : Allocator, s₂.headTaken = s.headTaken → s₂.totalBlocks = s.totalBlocks →
      (∀ a ∈ headerWords taken, s₂.mem a = s.mem a) → s₂.kmfree p = some (-1, s₂) := by
  intro s₂ hhead htotal hm
  apply kmfree_dead (hl.frame hhead hm) _ h0 hno
  rw [htotal]
  exact hlen

theorem Sound.freesLive (hs : Sound start total s) (hend : start + memBlockSize * total < 2 ^ 64) :
    FreesLive s := by
  obtain ⟨h, hr, hw⟩ := hs
  have hl := represents_listed hr
  have hlen : h.taken.length ≤ s.totalBlocks := by
    have := hw.length_le
    rw [hr.total]
    omega
  refine ⟨h.taken, hl, ?_⟩
  intro p
  obtain ⟨s', hs', hr', -⟩ := kmfree_block hr hw hend p.toNat_lt
  have h0 : p.toNat = 0 ↔ p = 0 := UInt64.toNat_inj (b := 0)
  by_cases hlive : ∃ b ∈ h.taken, payload b = p.toNat
  · obtain ⟨b, hb, hbp⟩ := hlive
    rw [← hbp, Heap.kmfree_live hw hb, hbp] at hs'
    rw [← hbp, Heap.kmfree_live hw hb] at hr'
    refine ⟨0, s', hs', ?_, ?_, ?_, ?_⟩
    · constructor
      · intro hr0
        cases hr0
      · rintro ⟨-, hno⟩
        exact absurd hbp (hno b hb)
    · intro hr0
      cases hr0
    · intro c hc hcp
      obtain rfl : c = b := hw.payload_inj hc hb (hcp.trans hbp.symm)
      exact ⟨rfl, represents_listed hr'⟩
    · intro hp
      have : payload b = 0 := hbp.trans (h0.2 hp)
      simp [payload, sizeHeader] at this
  · have hno : ∀ b ∈ h.taken, payload b ≠ p.toNat := fun b hb hbp => hlive ⟨b, hb, hbp⟩
    by_cases hp : p = 0
    · subst hp
      refine ⟨0, s, rfl, ?_, ?_, fun b hb hbp => absurd hbp (hno b hb), fun _ => ⟨rfl, rfl⟩⟩
      · constructor
        · intro hr0
          cases hr0
        · intro hne
          exact absurd rfl hne.1
      · intro hr0
        cases hr0
    · have hne : p.toNat ≠ 0 := fun he => hp (h0.1 he)
      have haddr : ∀ b ∈ h.taken, b.addr ≠ wrapSub p.toNat sizeHeader := by
        intro b hb he
        have hlt := payload_lt hw hend (List.mem_append_right _ hb)
        exact hno b hb ((header_eq_iff p.toNat_lt hlt).1 he)
      refine ⟨-1, s, kmfree_dead hl hlen hne haddr, ?_, ?_, fun b hb hbp => absurd hbp (hno b hb),
        fun he => absurd he hp⟩
      · exact ⟨fun _ => ⟨hp, hno⟩, fun _ => rfl⟩
      · intro _
        exact ⟨rfl, searchLoads_taken hl, refuses hl hlen hne haddr⟩

/-- Before the first `_kmalloc` no pointer is live. -/
theorem static_freesLive : FreesLive (static B mem) := by
  have hl : Listed (static B mem).mem (static B mem).headTaken [] := ⟨rfl, by simp⟩
  refine ⟨[], hl, ?_⟩
  intro p
  have h0 : p.toNat = 0 ↔ p = 0 := UInt64.toNat_inj (b := 0)
  refine ⟨if p = 0 then 0 else -1, static B mem, ?_, ?_, ?_, by simp, ?_⟩
  · rw [static_kmfree]
    simp only [h0]
  · by_cases hp : p = 0 <;> simp [hp]
  · intro hr
    have hp : p.toNat ≠ 0 := fun he => by simp [h0.1 he] at hr
    exact ⟨rfl, searchLoads_taken hl, refuses hl (Nat.zero_le _) hp (by simp)⟩
  · intro hp
    simp [hp]

/-- After every history `_kmfree` frees the block of a live pointer, accepts null
and refuses everything else without looking outside the taken list. -/
theorem kmfree_live_only (B : HeapBounds) (hB : B.Valid) (mem : ℕ → ℕ) :
    (∀ cs s, Run (step B) CallerWrites (init B (static B mem)) cs s → FreesLive s) ∧
    ∀ cs s, Run (step B) CallerWrites (static B mem) cs s → FreesLive s := by
  constructor
  · intro cs s hrun
    exact (run_sound hB hrun).freesLive hB.stop_lt
  · intro cs s hrun
    rcases run_static hB hrun with ⟨-, rfl⟩ | hs
    · exact static_freesLive
    · exact hs.freesLive hB.stop_lt

/-- In a heap of four blocks of which the first is taken. -/
theorem kmfree_live_only_four :
    ∃ s, step ⟨64, 320⟩ (init ⟨64, 320⟩ (static ⟨64, 320⟩ fun _ => 7)) (.kmalloc 1) = .ok s ∧
      FreesLive s := by
  have hB : HeapBounds.Valid ⟨64, 320⟩ := ⟨by decide, by decide, by decide⟩
  have hc : CallerWrites (init ⟨64, 320⟩ (static ⟨64, 320⟩ fun _ => 7)) (.kmalloc 1) := trivial
  obtain ⟨s, hs, -⟩ := (hB.init_sound fun _ => 7).step hB.stop_lt hc
  exact ⟨s, hs, (kmfree_live_only ⟨64, 320⟩ hB fun _ => 7).1 _ s (.single hc hs)⟩

/-! What a size is rounded to. -/

/-- `numOfBlocks` of `mem_alloc`, in the arithmetic of `size_t`. -/
def numOfBlocks (size : UInt64) : UInt64 :=
  (UInt64.ofNat sizeHeader + size + UInt64.ofNat memBlockSize - 1) / UInt64.ofNat memBlockSize

def memAlloc (B : HeapBounds) (s : Allocator) (size : UInt64) : Option (ℕ × Allocator) :=
  s.kmalloc B (numOfBlocks size).toNat

/-- `mem_alloc(size)` in the state `s` returns a block with room for `size` bytes
behind its header, or null; it returns null when no free block has that room. -/
def Served (B : HeapBounds) (s : Allocator) (size : UInt64) : Prop :=
  ∃ free taken p s', Listed s.mem s.headFree free ∧ Listed s.mem s.headTaken taken ∧
    s.memAlloc B size = some (p, s') ∧
    (p ≠ 0 → ∃ b : Block, p = payload b ∧ Listed s'.mem s'.headTaken (b :: taken) ∧
      size.toNat + sizeHeader ≤ b.size * memBlockSize) ∧
    ((∀ b ∈ free, b.size * memBlockSize < size.toNat + sizeHeader) → p = 0)

theorem numOfBlocks_toNat (size : UInt64) :
    (numOfBlocks size).toNat = (size.toNat + 79) % 2 ^ 64 / 64 := by
  have hlt := size.toNat_lt
  have hsum : UInt64.ofNat sizeHeader + size + UInt64.ofNat memBlockSize - 1 = size + 79 := by
    change 16 + size + 64 - 1 = size + 79
    grind
  rw [numOfBlocks, hsum, UInt64.toNat_div, UInt64.toNat_add]
  rfl

/-- A small size is rounded up. -/
theorem numOfBlocks_fits {size : UInt64} (h : size.toNat + 79 < 2 ^ 64) :
    size.toNat + sizeHeader ≤ (numOfBlocks size).toNat * memBlockSize ∧
      (numOfBlocks size).toNat * memBlockSize < size.toNat + sizeHeader + memBlockSize := by
  rw [numOfBlocks_toNat, Nat.mod_eq_of_lt h]
  unfold sizeHeader memBlockSize
  omega

/-- The sum wraps around: no block is asked for, or a single one. -/
theorem numOfBlocks_wraps {size : UInt64} (h : 2 ^ 64 ≤ size.toNat + 79) :
    (numOfBlocks size).toNat = if size.toNat + 15 < 2 ^ 64 then 0 else 1 := by
  have hlt := size.toNat_lt
  rw [numOfBlocks_toNat]
  split_ifs <;> omega

/-- A size that wraps around to one block gets a block without room for it. -/
theorem not_served (hB : B.Valid) (hr : Represents B.totalBlocks s h)
    (hw : h.WF B.heapStartAddr B.totalBlocks) {size : UInt64} (hbig : 2 ^ 64 ≤ size.toNat + 15)
    (hfree : h.free ≠ []) : ¬Served B s size := by
  rintro ⟨free, taken, p, s', -, htaken, hcall, hfits, -⟩
  have hn : (numOfBlocks size).toNat = 1 := by
    rw [numOfBlocks_wraps (by omega), if_neg (Nat.not_lt.2 hbig)]
  obtain ⟨c, hc⟩ := List.exists_mem_of_ne_nil _ hfree
  have hgap := hw.free_gap hc (hw.bounds (List.mem_append_left _ hc)).2.1
  cases hm : h.kmalloc 1 with
  | none =>
    rcases (Heap.kmalloc_none_iff hw).1 hm with h1 | hno
    · cases h1
    · exact hno _ hgap
  | some r =>
    obtain ⟨q, h₁⟩ := r
    obtain ⟨s₁, hs₁, hr₁, -⟩ := kmalloc_block B hr hw hB.stop_lt hm
    obtain ⟨b, rfl, hb, -, ht₁, -⟩ := Heap.kmalloc_lowest hw hm
    rw [memAlloc, hn, hs₁] at hcall
    cases hcall
    obtain ⟨b', -, hl', hroom⟩ := hfits (by simp [payload, sizeHeader])
    have hbb := hl'.unique (represents_listed hr₁)
    rw [ht₁] at hbb
    injection hbb with hbb _
    rw [hbb, hb] at hroom
    unfold sizeHeader memBlockSize at hroom
    omega

/-- A size that wraps around to no block at all gets null. A smaller one gets the
blocks it needs, or null. -/
theorem served (hB : B.Valid) (hr : Represents B.totalBlocks s h)
    (hw : h.WF B.heapStartAddr B.totalBlocks) {size : UInt64}
    (hcond : size.toNat + 15 < 2 ^ 64 ∨ h.free = []) : Served B s size := by
  have hlists := represents_partitioned hr hw
  cases hm : h.kmalloc (numOfBlocks size).toNat with
  | none =>
    refine ⟨h.free, h.taken, 0, s, hlists.free_list, hlists.taken_list, kmalloc_null B hr hw hm,
      ?_, fun _ => rfl⟩
    intro h0
    exact absurd rfl h0
  | some r =>
    obtain ⟨q, h₁⟩ := r
    obtain ⟨s₁, hs₁, hr₁, -⟩ := kmalloc_block B hr hw hB.stop_lt hm
    obtain ⟨b, rfl, hb, hpos, ht₁, -⟩ := Heap.kmalloc_lowest hw hm
    obtain ⟨c, l₁, l₂, -, -, hf, hle, -⟩ := Heap.kmalloc_some hm
    have hc : c ∈ h.free := by simp [hf]
    have hsmall : size.toNat + 79 < 2 ^ 64 := by
      by_contra hbig
      have hn := numOfBlocks_wraps (Nat.not_lt.1 hbig)
      rcases hcond with hlt | hnone
      · rw [if_pos hlt] at hn
        omega
      · rw [hnone] at hc
        cases hc
    have hfits := numOfBlocks_fits hsmall
    refine ⟨h.free, h.taken, payload b, s₁, hlists.free_list, hlists.taken_list, hs₁, ?_, ?_⟩
    · intro _
      refine ⟨b, rfl, ht₁ ▸ represents_listed hr₁, ?_⟩
      rw [hb]
      exact hfits.1
    · intro hnone
      have := hnone c hc
      unfold memBlockSize at this hfits
      omega

/-- In a well-formed heap. -/
theorem served_iff (hB : B.Valid) (hr : Represents B.totalBlocks s h)
    (hw : h.WF B.heapStartAddr B.totalBlocks) (size : UInt64) :
    Served B s size ↔ size.toNat + 15 < 2 ^ 64 ∨ s.headFree = 0 := by
  have hnull : s.headFree = 0 ↔ h.free = [] := by
    rw [seg_null hr.free, List.map_eq_nil_iff]
  rw [hnull]
  refine ⟨?_, served hB hr hw⟩
  intro hserved
  by_contra hcond
  rw [not_or, Nat.not_lt] at hcond
  exact not_served hB hr hw hcond.1 hcond.2 hserved

/-- After every history `mem_alloc` returns a block with room for the size, or
null when there is no such block, if and only if the size and 15 bytes more are
below `2 ^ 64`, or no block is free at all. -/
theorem memAlloc_exact (B : HeapBounds) (hB : B.Valid) (mem : ℕ → ℕ) (size : UInt64) :
    (∀ cs s, Run (step B) CallerWrites (init B (static B mem)) cs s →
      (Served B s size ↔ size.toNat + 15 < 2 ^ 64 ∨ s.headFree = 0)) ∧
    ∀ cs s, Run (step B) CallerWrites (static B mem) cs s →
      (Served B (init B s) size ↔ size.toNat + 15 < 2 ^ 64 ∨ (init B s).headFree = 0) ∧
        s.memAlloc B size = (init B s).memAlloc B size := by
  constructor
  · intro cs s hrun
    obtain ⟨h, hr, hw⟩ := run_sound hB hrun
    exact served_iff hB hr hw size
  · intro cs s hrun
    refine ⟨?_, kmalloc_init B s _⟩
    rcases run_static hB hrun with ⟨-, rfl⟩ | hs
    · obtain ⟨h, hr, hw⟩ := hB.init_sound mem
      exact served_iff hB hr hw size
    · rw [hs.init_eq]
      obtain ⟨h, hr, hw⟩ := hs
      exact served_iff hB hr hw size

/-- A hundred bytes from a heap of four blocks. -/
theorem memAlloc_exact_hundred :
    Served ⟨64, 320⟩ (init ⟨64, 320⟩ (static ⟨64, 320⟩ fun _ => 7)) 100 := by
  have hB : HeapBounds.Valid ⟨64, 320⟩ := ⟨by decide, by decide, by decide⟩
  exact ((memAlloc_exact ⟨64, 320⟩ hB (fun _ => 7) 100).1 [] _ .nil).2 (Or.inl (by decide))

/-- All bytes there could be: `mem_alloc` returns a block of 48 bytes. -/
theorem memAlloc_exact_fails :
    ((init ⟨64, 320⟩ (static ⟨64, 320⟩ fun _ => 7)).memAlloc ⟨64, 320⟩ 18446744073709551615).map (·.1) =
        some 80 ∧
      ¬Served ⟨64, 320⟩ (init ⟨64, 320⟩ (static ⟨64, 320⟩ fun _ => 7)) 18446744073709551615 := by
  have hB : HeapBounds.Valid ⟨64, 320⟩ := ⟨by decide, by decide, by decide⟩
  refine ⟨by decide +kernel, ?_⟩
  obtain ⟨h, hr, hw⟩ := hB.init_sound fun _ => 7
  rw [served_iff hB hr hw]
  rintro (hlt | hhead)
  · exact absurd hlt (by decide +kernel)
  · cases hhead

end Allocator
end OSK
