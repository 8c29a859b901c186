import RiscVKernel.Memory.History

/-! The free list is a canonical form: it is determined by which blocks are
taken. Whatever calls lead to the same taken blocks, through whichever merges,
lead to the same heap; in particular `_kmfree` undoes `_kmalloc`, and the order
in which blocks are freed does not matter. -/

namespace OSK

open Lib

namespace Heap

variable {start total n p : ℕ} {h h' : Heap} {b : Block}

/-- Two heaps over the same blocks with the same blocks taken have the same free list. -/
theorem WF.free_unique (hw : WF start total h) (hw' : WF start total h')
    (ht : h.taken.Perm h'.taken) : h.free = h'.free := by
  obtain ⟨ts, htile, hco, hf, htk⟩ := hw
  obtain ⟨ts', htile', hco', hf', htk'⟩ := hw'
  have hu : 0 < memBlockSize := by decide
  have hperm : (usedSpans ts).Perm (usedSpans ts') := (htk.symm.trans ht).trans htk'
  have hused : usedSpans ts = usedSpans ts' := by
    apply List.Perm.eq_of_pairwise _ (usedSpans_ordered hu htile) (usedSpans_ordered hu htile') hperm
    intro x y _ _ hxy hyx
    exact absurd hxy hyx.asymm
  rw [hf, hf', tiles_unique hu htile htile' hco hco' hused]

/-- Freeing a taken block. -/
theorem kmfree_live (hw : WF start total h) (hb : b ∈ h.taken) :
    h.kmfree (payload b) = (0, ⟨insertFree b h.free, h.taken.erase b⟩) := by
  have h0 : payload b ≠ 0 := by simp [payload, sizeHeader]
  obtain ⟨c, hc⟩ : ∃ c, h.taken.find? (payload · = payload b) = some c := by
    apply Option.isSome_iff_exists.1
    rw [List.find?_isSome]
    exact ⟨b, hb, decide_eq_true rfl⟩
  have he : payload c = payload b := by simpa using List.find?_some hc
  obtain rfl : c = b := hw.payload_inj (List.mem_of_find?_eq_some hc) hb he
  simp only [kmfree, if_neg h0, hc]

/-- `_kmfree` undoes `_kmalloc`. -/
theorem kmfree_kmalloc (hw : WF start total h) (hm : kmalloc h n = some (p, h')) :
    h'.kmfree p = (0, h) := by
  have hw' := kmalloc_wf hw hm
  obtain ⟨b, -, -, -, hp, -, -, -, htaken⟩ := kmalloc_some hm
  have hlive : (⟨b.addr, n⟩ : Block) ∈ h'.taken := by
    rw [htaken]
    exact List.mem_cons_self
  have hfree : h'.kmfree p = (0, ⟨insertFree ⟨b.addr, n⟩ h'.free, h'.taken.erase ⟨b.addr, n⟩⟩) := by
    rw [hp]
    exact kmfree_live hw' hlive
  have hback := kmfree_wf (p := p) hw'
  rw [htaken, List.erase_cons_head] at hfree
  rw [hfree] at hback ⊢
  have hfree' : insertFree ⟨b.addr, n⟩ h'.free = h.free := hback.free_unique hw (.refl _)
  rw [hfree']

/-- With nothing taken the heap is one free block. -/
theorem WF.all_free (hw : WF start total h) (ht : 1 ≤ total) (he : h.taken = []) :
    h.free = [⟨start, total⟩] := by
  apply hw.free_unique (init_wf ht)
  rw [he]
  rfl

/-- Taking out the block with one payload leaves those with another. -/
theorem WF.erase_taken (hw : WF start total h) (hb : b ∈ h.taken) :
    h.taken.erase b = h.taken.filter fun c => payload c ≠ payload b := by
  have hnd : h.taken.Nodup := List.Nodup.of_map _ hw.payloads_nodup
  rw [hnd.erase_eq_filter]
  apply List.filter_congr
  intro c hc
  rw [Bool.eq_iff_iff, bne_iff_ne, decide_eq_true_eq, not_iff_not]
  exact ⟨congrArg _, hw.payload_inj hc hb⟩

end Heap

namespace Allocator

variable {B : HeapBounds} {mem : ℕ → ℕ} {s : Allocator} {start total n : ℕ} {h : Heap}

/-- When `_kmalloc(n)` in the state `s` finds a block, `_kmfree` of it brings
both lists back. -/
def Undone (B : HeapBounds) (s : Allocator) (n : ℕ) : Prop :=
  ∃ free taken p s₁, Listed s.mem s.headFree free ∧ Listed s.mem s.headTaken taken ∧
    s.kmalloc B n = some (p, s₁) ∧
    (p ≠ 0 → ∃ s₂, s₁.kmfree p = some (0, s₂) ∧ Listed s₂.mem s₂.headFree free ∧
      Listed s₂.mem s₂.headTaken taken)

theorem Sound.undone (hB : B.Valid) (hs : Sound B.heapStartAddr B.totalBlocks s) (n : ℕ) :
    Undone B s n := by
  obtain ⟨h, hr, hw⟩ := hs
  have hlists := represents_partitioned hr hw
  cases hm : h.kmalloc n with
  | none =>
    refine ⟨h.free, h.taken, 0, s, hlists.free_list, hlists.taken_list, kmalloc_null B hr hw hm, ?_⟩
    intro h0
    exact absurd rfl h0
  | some r =>
    obtain ⟨p, h₁⟩ := r
    obtain ⟨s₁, hs₁, hr₁, -⟩ := kmalloc_block B hr hw hB.stop_lt hm
    have hw₁ := Heap.kmalloc_wf hw hm
    have hp : p < 2 ^ 64 := by
      obtain ⟨b, l₁, l₂, -, rfl, hf, -⟩ := Heap.kmalloc_some hm
      exact payload_lt hw hB.stop_lt (by simp [hf])
    obtain ⟨s₂, hs₂, hr₂, -⟩ := kmfree_block hr₁ hw₁ hB.stop_lt hp
    rw [Heap.kmfree_kmalloc hw hm] at hs₂ hr₂
    have hback := represents_partitioned hr₂ hw
    exact ⟨h.free, h.taken, p, s₁, hlists.free_list, hlists.taken_list, hs₁,
      fun _ => ⟨s₂, hs₂, hback.free_list, hback.taken_list⟩⟩

/-- After every history of an initialised heap `_kmfree` undoes a `_kmalloc`. From
the static initialisers on, the first `_kmalloc` is a call in the initialised
heap. -/
theorem kmalloc_undone (B : HeapBounds) (hB : B.Valid) (mem : ℕ → ℕ) (n : UInt64) :
    (∀ cs s, Run (step B) CallerWrites (init B (static B mem)) cs s → Undone B s n.toNat) ∧
    ∀ cs s, Run (step B) CallerWrites (static B mem) cs s →
      Undone B (init B s) n.toNat ∧ s.kmalloc B n.toNat = (init B s).kmalloc B n.toNat := by
  constructor
  · intro cs s hrun
    exact (run_sound hB hrun).undone hB _
  · intro cs s hrun
    refine ⟨?_, kmalloc_init B s _⟩
    rcases run_static hB hrun with ⟨-, rfl⟩ | hs
    · exact (hB.init_sound mem).undone hB _
    · rw [hs.init_eq]
      exact hs.undone hB _

/-- In a heap of four blocks of which the first is taken. -/
theorem kmalloc_undone_four :
    ∃ s, step ⟨64, 320⟩ (init ⟨64, 320⟩ (static ⟨64, 320⟩ fun _ => 7)) (.kmalloc 1) = .ok s ∧
      Undone ⟨64, 320⟩ s 2 := by
  have hB : HeapBounds.Valid ⟨64, 320⟩ := ⟨by decide, by decide, by decide⟩
  have hc : CallerWrites (init ⟨64, 320⟩ (static ⟨64, 320⟩ fun _ => 7)) (.kmalloc 1) := trivial
  obtain ⟨s, hs, -⟩ := (hB.init_sound fun _ => 7).step hB.stop_lt hc
  exact ⟨s, hs, (kmalloc_undone ⟨64, 320⟩ hB (fun _ => 7) 2).1 _ s (.single hc hs)⟩

/-! Freeing many blocks. -/

/-- `_kmfree` of one pointer after another, as long as it returns 0. -/
def kmfreeAll (s : Allocator) : List UInt64 → Option Allocator
  | [] => some s
  | p :: ps => match s.kmfree p.toNat with
    | some (r, s') => if r = 0 then s'.kmfreeAll ps else none
    | none => none

/-- The blocks of the pointers `ps` leave the taken list, and the heap is well
formed at the end. -/
theorem kmfreeAll_represents (hr : Represents total s h) (hw : h.WF start total)
    (hend : start + memBlockSize * total < 2 ^ 64) {ps : List UInt64} (hnd : ps.Nodup)
    (hlive : ∀ p ∈ ps, ∃ b ∈ h.taken, payload b = p.toNat) :
    ∃ s' h', s.kmfreeAll ps = some s' ∧ Represents total s' h' ∧ h'.WF start total ∧
      h'.taken = h.taken.filter fun b => payload b ∉ ps.map (·.toNat) := by
  induction ps generalizing s h with
  | nil => exact ⟨s, h, rfl, hr, hw, by simp⟩
  | cons p ps ih =>
    obtain ⟨hp, hnd⟩ := List.nodup_cons.1 hnd
    obtain ⟨b, hb, hbp⟩ := hlive p List.mem_cons_self
    obtain ⟨s₁, hs₁, hr₁, -⟩ := kmfree_block hr hw hend p.toNat_lt
    have hw₁ := Heap.kmfree_wf (p := p.toNat) hw
    rw [← hbp, Heap.kmfree_live hw hb] at hs₁ hr₁ hw₁
    have herase := hw.erase_taken hb
    have hlive₁ : ∀ q ∈ ps, ∃ c ∈ h.taken.erase b, payload c = q.toNat := by
      intro q hq
      obtain ⟨c, hc, hcq⟩ := hlive q (List.mem_cons_of_mem _ hq)
      refine ⟨c, ?_, hcq⟩
      rw [herase, List.mem_filter]
      refine ⟨hc, decide_eq_true fun he => hp ?_⟩
      rwa [UInt64.toNat_inj.1 (hbp.symm.trans (he.symm.trans hcq))]
    obtain ⟨s', h', hs', hr', hw', htaken⟩ := ih hr₁ hw₁ hnd hlive₁
    refine ⟨s', h', ?_, hr', hw', ?_⟩
    · rw [kmfreeAll, ← hbp, hs₁]
      exact hs'
    · rw [htaken]
      change (h.taken.erase b).filter _ = _
      rw [herase, List.filter_filter]
      apply List.filter_congr
      intro c _
      simp only [List.map_cons, List.mem_cons, hbp, ne_eq, Bool.decide_and, decide_not, not_or]
      exact Bool.and_comm _ _

/-- In the state `s`, freeing any blocks in any two orders leads to the same free
list and the same taken list; freeing all blocks leaves one free block. -/
def OrderFree (start total : ℕ) (s : Allocator) : Prop :=
  ∃ taken, Listed s.mem s.headTaken taken ∧ ∀ ps qs : List UInt64, ps.Nodup → ps.Perm qs →
    (∀ p ∈ ps, ∃ b ∈ taken, payload b = p.toNat) →
    ∃ s₁ s₂ free left, s.kmfreeAll ps = some s₁ ∧ s.kmfreeAll qs = some s₂ ∧
      (Listed s₁.mem s₁.headFree free ∧ Listed s₁.mem s₁.headTaken left) ∧
      (Listed s₂.mem s₂.headFree free ∧ Listed s₂.mem s₂.headTaken left) ∧
      ((∀ b ∈ taken, ∃ p ∈ ps, payload b = p.toNat) → free = [⟨start, total⟩] ∧ left = [])

theorem Sound.orderFree (hB : B.Valid) (hs : Sound B.heapStartAddr B.totalBlocks s) :
    OrderFree B.heapStartAddr B.totalBlocks s := by
  obtain ⟨h, hr, hw⟩ := hs
  refine ⟨h.taken, represents_listed hr, ?_⟩
  intro ps qs hnd hperm hlive
  obtain ⟨s₁, h₁, hs₁, hr₁, hw₁, ht₁⟩ := kmfreeAll_represents hr hw hB.stop_lt hnd hlive
  obtain ⟨s₂, h₂, hs₂, hr₂, hw₂, ht₂⟩ := kmfreeAll_represents hr hw hB.stop_lt
    (hperm.nodup_iff.1 hnd) fun p hp => hlive p (hperm.mem_iff.2 hp)
  have htaken : h₁.taken = h₂.taken := by
    rw [ht₁, ht₂]
    apply List.filter_congr
    intro b _
    simp only [(hperm.map _).mem_iff]
  have hfree : h₁.free = h₂.free := hw₁.free_unique hw₂ (htaken ▸ .refl _)
  have hlists₁ := represents_partitioned hr₁ hw₁
  have hlists₂ := represents_partitioned hr₂ hw₂
  rw [← hfree, ← htaken] at hlists₂
  refine ⟨s₁, s₂, h₁.free, h₁.taken, hs₁, hs₂, ⟨hlists₁.free_list, hlists₁.taken_list⟩,
    ⟨hlists₂.free_list, hlists₂.taken_list⟩, ?_⟩
  intro hall
  have hnil : h₁.taken = [] := by
    rw [ht₁]
    apply List.filter_eq_nil_iff.2
    intro b hb
    obtain ⟨p, hp, hbp⟩ := hall b hb
    simp only [decide_eq_true_eq, not_not, List.mem_map]
    exact ⟨p, hp, hbp.symm⟩
  exact ⟨hw₁.all_free hB.totalBlocks_pos hnil, hnil⟩

/-- After every history the order of `_kmfree` calls does not matter. Before the
first `_kmalloc` nothing is taken. -/
theorem kmfree_order (B : HeapBounds) (hB : B.Valid) (mem : ℕ → ℕ) :
    (∀ cs s, Run (step B) CallerWrites (init B (static B mem)) cs s →
      OrderFree B.heapStartAddr B.totalBlocks s) ∧
    ∀ cs s, Run (step B) CallerWrites (static B mem) cs s →
      ((∀ n, Call.kmalloc n ∉ cs) ∧ Listed s.mem s.headTaken []) ∨
      OrderFree B.heapStartAddr B.totalBlocks s := by
  constructor
  · intro cs s hrun
    exact (run_sound hB hrun).orderFree hB
  · intro cs s hrun
    rcases run_static hB hrun with ⟨hno, rfl⟩ | hs
    · exact Or.inl ⟨hno, rfl, by simp⟩
    · exact Or.inr (hs.orderFree hB)

/-- Three taken blocks among free ones, freed from the bottom and in an order that leaves the
middle one to the end: different merges, the same two lists. -/
theorem kmfree_order_eight : ∃ s s₁ s₂, Run (step eight) CallerWrites started fragmenting s ∧
    Listed s.mem s.headTaken [⟨384, 1⟩, ⟨256, 1⟩, ⟨64, 1⟩] ∧
    s.kmfreeAll [80, 272, 400] = some s₁ ∧ s.kmfreeAll [400, 80, 272] = some s₂ ∧
    (Listed s₁.mem s₁.headFree [⟨64, 8⟩] ∧ Listed s₁.mem s₁.headTaken []) ∧
    (Listed s₂.mem s₂.headFree [⟨64, 8⟩] ∧ Listed s₂.mem s₂.headTaken []) := by
  obtain ⟨s, hrun, -, htaken, -⟩ := @exists_fragmented fragmenting
    [⟨128, 2⟩, ⟨320, 1⟩, ⟨448, 2⟩] [⟨384, 1⟩, ⟨256, 1⟩, ⟨64, 1⟩] (fun _ => true) (by decide +kernel)
  obtain ⟨taken, ht, hfree⟩ := (kmfree_order eight eight_valid fun _ => 7).1 _ s hrun
  obtain rfl := ht.unique htaken
  have hlive : ∀ p ∈ ([80, 272, 400] : List UInt64),
      ∃ b ∈ ([⟨384, 1⟩, ⟨256, 1⟩, ⟨64, 1⟩] : List Span), payload b = p.toNat := by
    simp only [List.forall_mem_cons, List.not_mem_nil, false_imp_iff, implies_true, and_true]
    exact ⟨⟨⟨64, 1⟩, by simp, rfl⟩, ⟨⟨256, 1⟩, by simp, rfl⟩, ⟨⟨384, 1⟩, by simp, rfl⟩⟩
  have hcover : ∀ b ∈ ([⟨384, 1⟩, ⟨256, 1⟩, ⟨64, 1⟩] : List Span),
      ∃ p ∈ ([80, 272, 400] : List UInt64), payload b = p.toNat := by
    simp only [List.forall_mem_cons, List.not_mem_nil, false_imp_iff, implies_true, and_true]
    exact ⟨⟨400, by simp, rfl⟩, ⟨272, by simp, rfl⟩, ⟨80, by simp, rfl⟩⟩
  obtain ⟨s₁, s₂, free, left, h₁, h₂, hl₁, hl₂, hall⟩ :=
    hfree [80, 272, 400] [400, 80, 272] (by decide) (by decide) hlive
  obtain ⟨rfl, rfl⟩ := hall hcover
  exact ⟨s, s₁, s₂, hrun, htaken, h₁, h₂, hl₁, hl₂⟩

end Allocator
end OSK
