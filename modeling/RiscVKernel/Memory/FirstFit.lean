import RiscVKernel.Memory.History

/-! Where `_kmalloc` finds room. A gap is a row of blocks outside every taken
block; since the free list is coalesced, a gap lies inside one free block, so
the walk over the free list finds the lowest gap there is. -/

namespace OSK

open Lib

/-- `n` blocks of the heap in a row from `a` on, none of them in a block of `taken`. -/
structure Gap (start total : ℕ) (taken : List Block) (n a : ℕ) : Prop where
  aligned : ∃ k, a = start + memBlockSize * k
  within : a + memBlockSize * n ≤ start + memBlockSize * total
  apart : ∀ b ∈ taken, b.stop memBlockSize ≤ a ∨ a + memBlockSize * n ≤ b.addr

namespace Heap

variable {start total n p a : ℕ} {h h' : Heap} {b c : Block} {free : List Block}

/-- A gap does not reach over the end of the free block it starts in. -/
theorem WF.gap_le_stop (hw : WF start total h) (hg : Gap start total h.taken n a) (hc : c ∈ h.free)
    (hca : c.addr ≤ a) (hac : a < c.stop memBlockSize) :
    a + memBlockSize * n ≤ c.stop memBlockSize := by
  by_contra hlt
  have hcm : c ∈ h.free ++ h.taken := List.mem_append_left _ hc
  have hstart := (hw.bounds hcm).1
  have hend := hg.within
  obtain ⟨d, hd, hda, had⟩ := hw.cover (a := c.stop memBlockSize) (by omega) (by omega)
  have hdc : d ≠ c := by
    rintro rfl
    omega
  have htouch : c.stop memBlockSize = d.addr := by
    rcases hw.separate hd hcm hdc with hs | hs <;> omega
  rcases List.mem_append.1 hd with hd | hd
  · exact hw.coalesced hc hd htouch
  · rcases hg.apart d hd with hs | hs <;> omega

/-- A gap lies inside one free block. -/
theorem WF.gap_covered (hw : WF start total h) (hn : 1 ≤ n) (hg : Gap start total h.taken n a) :
    ∃ c ∈ h.free, c.addr ≤ a ∧ a + memBlockSize * n ≤ c.stop memBlockSize := by
  obtain ⟨k, hk⟩ := hg.aligned
  have hend := hg.within
  have hroom := Nat.mul_le_mul_left memBlockSize hn
  have hpos : 0 < memBlockSize := by decide
  obtain ⟨c, hc, hca, hac⟩ := hw.cover (a := a) (by omega) (by omega)
  rcases List.mem_append.1 hc with hc | hc
  · exact ⟨c, hc, hca, hw.gap_le_stop hg hc hca hac⟩
  · rcases hg.apart c hc with hs | hs <;> omega

theorem WF.gap_inside (hw : WF start total h) (hn : 1 ≤ n) (hg : Gap start total h.taken n a) :
    ∃ c ∈ h.free, c.addr ≤ a ∧ n ≤ c.size := by
  obtain ⟨c, hc, hca, hstop⟩ := hw.gap_covered hn hg
  refine ⟨c, hc, hca, ?_⟩
  unfold Span.stop memBlockSize at *
  omega

/-- The front of a free block of at least `n` blocks is a gap. -/
theorem WF.free_gap (hw : WF start total h) (hc : c ∈ h.free) (hn : n ≤ c.size) :
    Gap start total h.taken n c.addr := by
  have hcm : c ∈ h.free ++ h.taken := List.mem_append_left _ hc
  have hstop : c.addr + memBlockSize * n ≤ c.stop memBlockSize := by
    unfold Span.stop memBlockSize
    omega
  refine ⟨hw.aligned hcm, hstop.trans (hw.bounds hcm).2.2, ?_⟩
  intro b hb
  have hbm : b ∈ h.free ++ h.taken := List.mem_append_right _ hb
  have hbc : b ≠ c := by
    rintro rfl
    have hnd := hw.nodup
    rw [List.map_append, List.nodup_append] at hnd
    exact hnd.2.2 _ (List.mem_map.2 ⟨b, hc, rfl⟩) _ (List.mem_map.2 ⟨b, hb, rfl⟩) rfl
  rcases hw.separate hbm hcm hbc with hs | hs
  · exact Or.inl hs
  · exact Or.inr (hstop.trans hs)

/-- The block `takeFit` cuts into stands below every other free block that would do. -/
theorem takeFit_lowest {r : Block × List Block} (hf : takeFit n free = some r)
    (hasc : free.Pairwise fun b c => b.addr < c.addr) :
    r.1 ∈ free ∧ n ≤ r.1.size ∧ ∀ c ∈ free, n ≤ c.size → r.1.addr ≤ c.addr := by
  obtain ⟨l₁, l₂, rfl, hsmall, hn, -⟩ := takeFit_some hf
  refine ⟨by simp, hn, ?_⟩
  intro c hc hcn
  rcases List.mem_append.1 hc with hc | hc
  · exact absurd (hsmall c hc) (by omega)
  · rcases List.mem_cons.1 hc with rfl | hc
    · exact le_rfl
    · have hcons := (List.pairwise_append.1 hasc).2.1
      exact ((List.pairwise_cons.1 hcons).1 c hc).le

/-- `_kmalloc` hands out the first `n` blocks of the lowest gap and takes nothing else. -/
theorem kmalloc_lowest (hw : WF start total h) (hm : kmalloc h n = some (p, h')) :
    ∃ b : Block, p = payload b ∧ b.size = n ∧ 1 ≤ n ∧ h'.taken = b :: h.taken ∧
      Gap start total h.taken n b.addr ∧ ∀ a, Gap start total h.taken n a → b.addr ≤ a := by
  unfold kmalloc at hm
  split_ifs at hm with h0
  have hn : 1 ≤ n := Nat.one_le_iff_ne_zero.2 h0
  cases hf : takeFit n h.free with
  | none => simp [hf] at hm
  | some r =>
    obtain ⟨b, free⟩ := r
    simp only [hf, Option.some.injEq, Prod.mk.injEq] at hm
    obtain ⟨rfl, rfl⟩ := hm
    obtain ⟨hb, hbn, hlow⟩ := takeFit_lowest hf hw.ascending
    refine ⟨⟨b.addr, n⟩, rfl, rfl, hn, rfl, hw.free_gap (c := b) hb hbn, ?_⟩
    intro a ha
    obtain ⟨c, hc, hca, hcn⟩ := hw.gap_inside hn ha
    exact (hlow c hc hcn).trans hca

/-- `_kmalloc` fails when it is asked for nothing or there is no gap. -/
theorem kmalloc_none_iff (hw : WF start total h) :
    kmalloc h n = none ↔ n = 0 ∨ ∀ a, ¬Gap start total h.taken n a := by
  constructor
  · intro hm
    by_cases h0 : n = 0
    · exact Or.inl h0
    · rw [kmalloc, if_neg h0] at hm
      apply Or.inr
      intro a ha
      obtain ⟨c, hc, -, hcn⟩ := hw.gap_inside (Nat.one_le_iff_ne_zero.2 h0) ha
      cases hf : takeFit n h.free with
      | some r => simp [hf] at hm
      | none => exact absurd (takeFit_none hf c hc) (by omega)
  · intro hno
    cases hm : kmalloc h n with
    | none => rfl
    | some r =>
      obtain ⟨b, -, -, hn, -, hg, -⟩ := kmalloc_lowest hw hm
      rcases hno with h0 | hno
      · omega
      · exact absurd hg (hno b.addr)

end Heap

namespace Allocator

variable {B : HeapBounds} {mem : ℕ → ℕ} {s : Allocator} {start total n : ℕ}

/-- `_kmalloc(n)` in the state `s`: null, with nothing changed, when `n` is 0 or
there is no gap of `n` blocks; else the payload of a block of `n` blocks at the
lowest gap, put before the taken blocks there were. -/
def FirstFit (B : HeapBounds) (s : Allocator) (n : ℕ) : Prop :=
  ∃ taken p s', Listed s.mem s.headTaken taken ∧ s.kmalloc B n = some (p, s') ∧
    (p = 0 ↔ n = 0 ∨ ∀ a, ¬Gap B.heapStartAddr B.totalBlocks taken n a) ∧
    (p = 0 → s' = s) ∧
    (p ≠ 0 → ∃ b : Block, p = payload b ∧ b.size = n ∧ Listed s'.mem s'.headTaken (b :: taken) ∧
      Gap B.heapStartAddr B.totalBlocks taken n b.addr ∧
      ∀ a, Gap B.heapStartAddr B.totalBlocks taken n a → b.addr ≤ a)

theorem Sound.firstFit (hB : B.Valid) (hs : Sound B.heapStartAddr B.totalBlocks s) (n : ℕ) :
    FirstFit B s n := by
  obtain ⟨h, hr, hw⟩ := hs
  cases hm : h.kmalloc n with
  | none =>
    refine ⟨h.taken, 0, s, represents_listed hr, kmalloc_null B hr hw hm, ?_, fun _ => rfl, ?_⟩
    · exact ⟨fun _ => (Heap.kmalloc_none_iff hw).1 hm, fun _ => rfl⟩
    · intro h0
      exact absurd rfl h0
  | some r =>
    obtain ⟨p, h'⟩ := r
    obtain ⟨s', hs', hr', -⟩ := kmalloc_block B hr hw hB.stop_lt hm
    obtain ⟨b, rfl, hb, -, htaken, hgap, hlow⟩ := Heap.kmalloc_lowest hw hm
    have hp : payload b ≠ 0 := by simp [payload, sizeHeader]
    have hsome : h.kmalloc n ≠ none := by simp [hm]
    refine ⟨h.taken, payload b, s', represents_listed hr, hs', ?_, fun h0 => absurd h0 hp, ?_⟩
    · exact iff_of_false hp fun hno => hsome ((Heap.kmalloc_none_iff hw).2 hno)
    · intro _
      exact ⟨b, rfl, hb, htaken ▸ represents_listed hr', hgap, hlow⟩

/-- After every history of an initialised heap `_kmalloc` is a first fit into the
gaps between the taken blocks. The static initialisers hand on to `init` at the
first `_kmalloc`, which then is a call in the initialised heap. -/
theorem kmalloc_first_fit (B : HeapBounds) (hB : B.Valid) (mem : ℕ → ℕ) (n : UInt64) :
    (∀ cs s, Run (step B) CallerWrites (init B (static B mem)) cs s → FirstFit B s n.toNat) ∧
    ∀ cs s, Run (step B) CallerWrites (static B mem) cs s →
      FirstFit B (init B s) n.toNat ∧ s.kmalloc B n.toNat = (init B s).kmalloc B n.toNat := by
  refine ⟨fun cs s hrun => (run_sound hB hrun).firstFit hB _, fun cs s hrun =>
    ⟨?_, kmalloc_init B s _⟩⟩
  rcases run_static hB hrun with ⟨-, rfl⟩ | hs
  · exact (hB.init_sound mem).firstFit hB _
  · rw [hs.init_eq]
    exact hs.firstFit hB _

/-- Two blocks fit into the first gap, and three into none although five are free. -/
theorem kmalloc_first_fit_eight : ∃ s, Run (step eight) CallerWrites started fragmenting s ∧
    (∃ s', s.kmalloc eight 2 = some (144, s')) ∧ FirstFit eight s 2 ∧
    (∃ s', s.kmalloc eight 3 = some (0, s')) ∧ FirstFit eight s 3 := by
  obtain ⟨s, hrun, -, -, hq⟩ := @exists_fragmented fragmenting
    [⟨128, 2⟩, ⟨320, 1⟩, ⟨448, 2⟩] [⟨384, 1⟩, ⟨256, 1⟩, ⟨64, 1⟩] (fun s =>
      (s.kmalloc eight 2).map (·.1) = some 144 ∧ (s.kmalloc eight 3).map (·.1) = some 0)
    (by decide +kernel)
  obtain ⟨htwo, hthree⟩ := of_decide_eq_true hq
  obtain ⟨⟨p, s₂⟩, h₂, rfl⟩ := Option.map_eq_some_iff.1 htwo
  obtain ⟨⟨p', s₃⟩, h₃, rfl⟩ := Option.map_eq_some_iff.1 hthree
  have hfit := fun n => (kmalloc_first_fit eight eight_valid (fun _ => 7) n).1 _ s hrun
  exact ⟨s, hrun, ⟨s₂, h₂⟩, hfit 2, ⟨s₃, h₃⟩, hfit 3⟩

end Allocator
end OSK
