import RiscVKernel.Memory.History

/-! The words `_kmalloc` and `_kmfree` write: header words of blocks, which no
payload of a taken block contains. -/

namespace OSK

open Lib

namespace Allocator

/-- From `s` to `s'` only header words of the blocks `bs` and the heads of the
two lists have changed, and nothing in the payload of a block of `held`. -/
structure HeadersOnly (s s' : Allocator) (bs held : List Block) : Prop where
  words : ∀ a, s'.mem a ≠ s.mem a → a ∈ headerWords bs
  payloads : ∀ b ∈ held, ∀ a, payload b ≤ a → a < b.stop memBlockSize → s'.mem a = s.mem a
  totalBlocks : s'.totalBlocks = s.totalBlocks
  initialazed : s'.initialazed = s.initialazed

/-- Whatever `_kmalloc` and `_kmfree` are called with in the state `s`, they write
header words only: of blocks that were there and of what `_kmalloc` splits off. -/
def Footprint (B : HeapBounds) (s : Allocator) : Prop :=
  ∃ free taken, Partitioned B.heapStartAddr B.totalBlocks s free taken ∧
    (∀ n : UInt64, ∃ p s' free' taken', s.kmalloc B n.toNat = some (p, s') ∧
      Partitioned B.heapStartAddr B.totalBlocks s' free' taken' ∧
      HeadersOnly s s' (free ++ free') taken) ∧
    ∀ p : UInt64, ∃ r s', s.kmfree p.toNat = some (r, s') ∧
      HeadersOnly s s' (free ++ taken) taken

end Allocator

namespace Heap

variable {start total n p a : ℕ} {h h' : Heap} {b c : Block}

/-- A header word of a block is no word of the payload of a block. -/
theorem WF.header_apart (hw : WF start total h) (hb : b ∈ h.free ++ h.taken)
    (hc : c ∈ h.free ++ h.taken) (ha : a = c.addr ∨ a = c.addr + 8) :
    a < payload b ∨ b.stop memBlockSize ≤ a := by
  by_cases hcb : c = b
  · subst hcb
    unfold payload sizeHeader
    omega
  · have hstop := stop_ge (u := memBlockSize) (hw.bounds hc).2.1
    rcases hw.separate hc hb hcb with hs | hs
    · unfold payload sizeHeader memBlockSize at *
      omega
    · omega

/-- What is taken stays taken. -/
theorem kmalloc_taken (hm : kmalloc h n = some (p, h')) (hb : b ∈ h.taken) : b ∈ h'.taken := by
  obtain ⟨c, l₁, l₂, -, -, -, -, -, htaken⟩ := kmalloc_some hm
  rw [htaken]
  exact List.mem_cons_of_mem _ hb

end Heap

namespace Allocator

variable {B : HeapBounds} {mem : ℕ → ℕ} {s s' : Allocator} {start total a : ℕ} {h : Heap}
  {bs : List Block}

theorem HeadersOnly.refl {held : List Block} : HeadersOnly s s bs held :=
  ⟨fun _ ha => absurd rfl ha, fun _ _ _ _ _ => rfl, rfl, rfl⟩

/-- Words off the headers of `bs` are kept, and `bs` shares no word with a payload. -/
theorem headersOnly_of_frame {h' : Heap} (hr : Represents total s h) (hr' : Represents total s' h')
    (hframe : ∀ a ∉ headerWords bs, s'.mem a = s.mem a)
    (hapart : ∀ b ∈ h.taken, ∀ c ∈ bs, ∀ a, a = c.addr ∨ a = c.addr + 8 →
      a < payload b ∨ b.stop memBlockSize ≤ a) : HeadersOnly s s' bs h.taken := by
  refine ⟨?_, fun b hb a hlo hhi => hframe a ?_, ?_, ?_⟩
  · intro a ha
    by_contra hnot
    exact ha (hframe a hnot)
  · intro hmem
    obtain ⟨c, hc, hac⟩ := mem_headerWords.1 hmem
    have := hapart b hb c hc a hac
    omega
  · rw [hr'.total, hr.total]
  · rw [hr'.ready, hr.ready]

theorem Sound.footprint (hB : B.Valid) (hs : Sound B.heapStartAddr B.totalBlocks s) :
    Footprint B s := by
  obtain ⟨h, hr, hw⟩ := hs
  refine ⟨h.free, h.taken, represents_partitioned hr hw, ?_, ?_⟩
  · intro n
    cases hm : h.kmalloc n.toNat with
    | none =>
      exact ⟨0, s, h.free, h.taken, kmalloc_null B hr hw hm, represents_partitioned hr hw, .refl⟩
    | some r =>
      obtain ⟨p, h'⟩ := r
      have hw' := Heap.kmalloc_wf hw hm
      obtain ⟨s', hs', hr', hframe⟩ := kmalloc_block B hr hw hB.stop_lt hm
      refine ⟨p, s', h'.free, h'.taken, hs', represents_partitioned hr' hw',
        headersOnly_of_frame hr hr' hframe fun b hb c hc a ha => ?_⟩
      rcases List.mem_append.1 hc with hc | hc
      · exact hw.header_apart (List.mem_append_right _ hb) (List.mem_append_left _ hc) ha
      · exact hw'.header_apart (List.mem_append_right _ (Heap.kmalloc_taken hm hb))
          (List.mem_append_left _ hc) ha
  · intro p
    obtain ⟨s', hs', hr', hframe⟩ := kmfree_block hr hw hB.stop_lt p.toNat_lt
    exact ⟨_, s', hs', headersOnly_of_frame hr hr' hframe fun b hb c hc a ha =>
      hw.header_apart (List.mem_append_right _ hb) hc ha⟩

/-- `init` writes the header of the one free block. -/
theorem init_mem (B : HeapBounds) (s : Allocator) (ha : a ≠ B.heapStartAddr)
    (ha' : a ≠ B.heapStartAddr + 8) : (init B s).mem a = s.mem a := by
  unfold init
  split_ifs with h
  · rfl
  · simp [store, ha, ha']

/-- After every history of an initialised heap `_kmalloc` and `_kmfree` write
header words and list heads only. From the static initialisers on, the first
`_kmalloc` does so after `init` has written the header of the one free block,
and a `_kmfree` before it writes nothing. -/
theorem calls_write_headers (B : HeapBounds) (hB : B.Valid) (mem : ℕ → ℕ) :
    (∀ cs s, Run (step B) CallerWrites (init B (static B mem)) cs s → Footprint B s) ∧
    ∀ cs s, Run (step B) CallerWrites (static B mem) cs s →
      Footprint B (init B s) ∧ (∀ n, s.kmalloc B n = (init B s).kmalloc B n) ∧
      (∀ a, (init B s).mem a ≠ s.mem a → a = B.heapStartAddr ∨ a = B.heapStartAddr + 8) ∧
      (init B s = s ∨ ∀ p, ∃ r, s.kmfree p = some (r, s)) := by
  refine ⟨fun cs s hrun => (run_sound hB hrun).footprint hB, ?_⟩
  intro cs s hrun
  have hinit : ∀ a, (init B s).mem a ≠ s.mem a → a = B.heapStartAddr ∨ a = B.heapStartAddr + 8 := by
    intro a ha
    by_contra hnot
    rw [not_or] at hnot
    exact ha (init_mem B s hnot.1 hnot.2)
  rcases run_static hB hrun with ⟨-, rfl⟩ | hs
  · exact ⟨(hB.init_sound mem).footprint hB, kmalloc_init B _, hinit,
      Or.inr fun p => ⟨_, static_kmfree p⟩⟩
  · refine ⟨?_, kmalloc_init B s, hinit, Or.inl hs.init_eq⟩
    rw [hs.init_eq]
    exact hs.footprint hB

/-- In a heap of four blocks of which the first is taken. -/
theorem calls_write_headers_four :
    ∃ s, step ⟨64, 320⟩ (init ⟨64, 320⟩ (static ⟨64, 320⟩ fun _ => 7)) (.kmalloc 1) = .ok s ∧
      Footprint ⟨64, 320⟩ s := by
  have hB : HeapBounds.Valid ⟨64, 320⟩ := ⟨by decide, by decide, by decide⟩
  have hc : CallerWrites (init ⟨64, 320⟩ (static ⟨64, 320⟩ fun _ => 7)) (.kmalloc 1) := trivial
  obtain ⟨s, hs, -⟩ := (hB.init_sound fun _ => 7).step hB.stop_lt hc
  exact ⟨s, hs, (calls_write_headers ⟨64, 320⟩ hB fun _ => 7).1 _ s (.single hc hs)⟩

end Allocator
end OSK
