import Mathlib.Data.List.Perm.Subperm
import RiscVKernel.Kernel.Storage
import RiscVKernel.Lists.Words
import RiscVKernel.Memory.History

/-! The shape of a `_list` in memory: `Spells` relates its words to the heap and to
the list of its nodes and data. A node is put in or taken out by one `link`, after
which `tail` has to be looked after only if nothing follows. -/

namespace OSK

open Lib

namespace Heap

variable {start total p q : ℕ} {h : Heap}

theorem WF.payload_apart (hw : WF start total h) (hp : p ∈ h.payloads) (hq : q ∈ h.payloads) :
    p ≠ q + 8 := by
  obtain ⟨b, hb, rfl⟩ := List.mem_map.1 hp
  obtain ⟨c, hc, rfl⟩ := List.mem_map.1 hq
  obtain ⟨i, hi⟩ := hw.aligned (List.mem_append_right _ hb)
  obtain ⟨j, hj⟩ := hw.aligned (List.mem_append_right _ hc)
  unfold payload memBlockSize at *
  omega

/-- The words of a node are no header words. -/
theorem WF.payload_words (hw : WF start total h) (hp : p ∈ h.payloads) :
    p ∉ headerWords (h.free ++ h.taken) ∧ p + 8 ∉ headerWords (h.free ++ h.taken) := by
  obtain ⟨b, hb, rfl⟩ := List.mem_map.1 hp
  have hbm := List.mem_append_right h.free hb
  have hstop : payload b + 48 ≤ b.stop memBlockSize := by
    have := (hw.bounds hbm).2.1
    unfold Span.stop payload memBlockSize sizeHeader
    omega
  exact ⟨Allocator.payload_notMem hw hbm le_rfl (by omega),
    Allocator.payload_notMem hw hbm (by omega) (by omega)⟩

theorem payload_ne_zero (hp : p ∈ h.payloads) : p ≠ 0 := by
  obtain ⟨b, -, rfl⟩ := List.mem_map.1 hp
  unfold payload sizeHeader
  omega

theorem WF.payload_lt (hw : WF start total h) (hend : start + memBlockSize * total < 2 ^ 64)
    (hp : p ∈ h.payloads) : p < 2 ^ 64 := by
  obtain ⟨b, hb, rfl⟩ := List.mem_map.1 hp
  exact OSK.payload_lt hw hend (List.mem_append_right _ hb)

end Heap

namespace NodeList

variable {B : HeapBounds} {start total p d v prev : ℕ} {l l' : NodeList} {h h' : Heap}
  {k k₁ k₂ : KList ℕ} {e : Elem ℕ}

@[simp] theorem setNext_next : (l.setNext p v).next = Function.update l.next p v := by
  funext a
  by_cases ha : a = p <;> simp [next, setNext, ha]


theorem setNext_data {a : ℕ} (ha : a ≠ p + 8) : (l.setNext p v).data a = l.data a := by
  simp [data, setNext, ha]

theorem link_next : (l.link prev v).next = (relink l.next l.head prev v).1 := by
  unfold link relink
  split_ifs
  · exact setNext_next
  · rfl

theorem link_head : (l.link prev v).head = (relink l.next l.head prev v).2 := by
  unfold link relink
  split_ifs <;> rfl

@[simp] theorem link_tail : (l.link prev v).tail = l.tail := by
  unfold link
  split_ifs <;> rfl

/-- `if (c) tail = t` after a node was linked. -/
theorem link_with_tail {c : Prop} [Decidable c] {t : ℕ} :
    (if c then { l.link prev v with tail := t } else l.link prev v) =
      { l.link prev v with tail := if c then t else l.tail } := by
  have htail : (l.link prev v).tail = l.tail := link_tail
  generalize l.link prev v = l' at *
  split_ifs
  · rfl
  · rw [← htail]

/-- The words of `l` are the list `k` of nodes, which are blocks in use of `h`. -/
structure Spells (start total : ℕ) (l : NodeList) (h : Heap) (k : KList ℕ) : Prop where
  heap : Represents total l.heap h
  wf : h.WF start total
  chain : Seg l.next l.head k.nodes 0
  data : ∀ e ∈ k, l.data e.node = e.data
  tail : l.tail = k.nodes.getLast?.getD 0
  owned : ∀ p ∈ k.nodes, p ∈ h.payloads

theorem mem_nodes (he : e ∈ k) : e.node ∈ k.nodes := List.mem_map_of_mem he

theorem Spells.empty {heap : Allocator} (hr : Represents total heap h) (hw : h.WF start total) :
    Spells start total (empty heap) h [] :=
  ⟨hr, hw, rfl, by simp, rfl, by simp⟩

theorem Spells.nodup (hs : Spells start total l h k) : k.nodes.Nodup := seg_nodup hs.chain

/-- Loops over the nodes stay within the bound. -/
theorem Spells.length_lt (hs : Spells start total l h k) : k.length < l.loopBound := by
  have hsub : k.nodes.Subperm h.payloads := List.subperm_of_subset hs.nodup hs.owned
  have hlen := hsub.length_le
  have htotal := hs.wf.length_le
  simp only [KList.nodes, Heap.payloads, List.length_map] at hlen
  unfold loopBound Allocator.loopBound
  rw [hs.heap.total]
  omega

theorem Spells.head_null (hs : Spells start total l h k) : l.head = 0 ↔ k = [] := by
  rw [seg_null hs.chain]
  simp [KList.nodes]

/-- Another memory of a heap in which the nodes are in use and hold the same words. -/
theorem Spells.frame (hs : Spells start total l h k) {s : Allocator} (hr : Represents total s h')
    (hw : h'.WF start total) (howned : ∀ p ∈ k.nodes, p ∈ h'.payloads)
    (hmem : ∀ p ∈ k.nodes, s.mem p = l.heap.mem p ∧ s.mem (p + 8) = l.heap.mem (p + 8)) :
    Spells start total { l with heap := s } h' k :=
  ⟨hr, hw, seg_frame hs.chain fun p hp => (hmem p hp).2,
    fun e he => (hmem e.node (mem_nodes he)).1.trans (hs.data e he), hs.tail, howned⟩

/-- A store outside the headers and the nodes. -/
theorem Spells.store (hs : Spells start total l h k) {a : ℕ}
    (ha : a ∉ headerWords (h.free ++ h.taken)) (hne : ∀ p ∈ k.nodes, p ≠ a ∧ p + 8 ≠ a) :
    Spells start total { l with heap := l.heap.store a v } h k := by
  refine hs.frame (Allocator.store_represents hs.heap ha) hs.wf hs.owned fun p hp => ?_
  obtain ⟨h₁, h₂⟩ := hne p hp
  exact ⟨by simp [h₁], by simp [h₂]⟩

/-- `_kmalloc` leaves the words of the blocks in use. -/
theorem kmalloc_frame (B : HeapBounds) {s : Allocator} {n : ℕ} (hr : Represents total s h)
    (hw : h.WF start total) (hend : start + memBlockSize * total < 2 ^ 64)
    (hm : h.kmalloc n = some (p, h')) :
    ∃ s', s.kmalloc B n = some (p, s') ∧ Represents total s' h' ∧
      ∀ q ∈ h.payloads, s'.mem q = s.mem q ∧ s'.mem (q + 8) = s.mem (q + 8) := by
  obtain ⟨s', hk, hr', hframe⟩ := kmalloc_block B hr hw hend hm
  refine ⟨s', hk, hr', fun q hq => ?_⟩
  have hq' : q ∈ h'.payloads := by simp [Heap.kmalloc_payloads hm, hq]
  have hoff : ∀ a, a ∉ headerWords (h.free ++ h.taken) → a ∉ headerWords (h'.free ++ h'.taken) →
      a ∉ headerWords (h.free ++ h'.free) := by
    intro a ha ha'
    rw [notMem_headerWords] at *
    intro b hb
    rcases List.mem_append.1 hb with hb | hb
    · exact ha b (List.mem_append_left _ hb)
    · exact ha' b (List.mem_append_left _ hb)
  obtain ⟨h₁, h₂⟩ := hw.payload_words hq
  obtain ⟨h₁', h₂'⟩ := (Heap.kmalloc_wf hw hm).payload_words hq'
  exact ⟨hframe q (hoff q h₁ h₁'), hframe (q + 8) (hoff (q + 8) h₂ h₂')⟩

/-- A new node is linked to nothing yet. -/
theorem Spells.newElem (hs : Spells start total l h k) (hend : start + memBlockSize * total < 2 ^ 64)
    (hm : h.kmalloc (blocksFor 16) = some (p, h')) (d v : ℕ) :
    ∃ l', l.newElem B d v = .ok (p, l') ∧ l'.head = l.head ∧ l'.tail = l.tail ∧
      Spells start total l' h' k ∧ l'.data p = d ∧ l'.next p = v ∧ p ∈ h'.payloads ∧
      p ∉ k.nodes := by
  obtain ⟨s, hk, hr, hframe⟩ := kmalloc_frame B hs.heap hs.wf hend hm
  have hw := Heap.kmalloc_wf hs.wf hm
  have hpay := Heap.kmalloc_payloads hm
  have hp : p ∈ h'.payloads := by simp [hpay]
  have hold : ∀ q ∈ k.nodes, q ∈ h'.payloads := by
    intro q hq
    simp [hpay, hs.owned q hq]
  have hnew : p ∉ k.nodes := by
    intro hpk
    exact Heap.mem_payloads.1 (hs.owned p hpk) (Heap.kmalloc_sizeAt hs.wf hm).1
  have hs₁ := hs.frame hr hw hold fun q hq => hframe q (hs.owned q hq)
  obtain ⟨hword, hword'⟩ := hw.payload_words hp
  have hs₂ := hs₁.store (v := d) hword fun q hq =>
    ⟨fun he => hnew (he ▸ hq), (hw.payload_apart hp (hold q hq)).symm⟩
  have hs₃ := hs₂.store (v := v) hword' fun q hq =>
    ⟨hw.payload_apart (hold q hq) hp, fun he => hnew (Nat.add_right_cancel he ▸ hq)⟩
  refine ⟨({ l with heap := s }.setData p d).setNext p v, ?_, rfl, rfl, hs₃, ?_, ?_, hp, hnew⟩
  · simp [NodeList.newElem, hk, Heap.payload_ne_zero hp]
  · simp [NodeList.data, setNext, setData]
  · simp

/-- `prev` is null or a node in use. -/
theorem Spells.link_words (hs : Spells start total l h k) (hp : prev = 0 ∨ prev ∈ h.payloads) :
    Represents total (l.link prev v).heap h ∧ ∀ q ∈ h.payloads, (l.link prev v).data q = l.data q := by
  unfold link
  split_ifs with h0
  · have hprev := hp.resolve_left h0
    exact ⟨Allocator.store_represents hs.heap (hs.wf.payload_words hprev).2,
      fun q hq => setNext_data (hs.wf.payload_apart hq hprev)⟩
  · exact ⟨hs.heap, fun q hq => rfl⟩

theorem Spells.last_owned (hs : Spells start total l h (k₁ ++ k₂)) :
    k₁.nodes.getLast?.getD 0 = 0 ∨ k₁.nodes.getLast?.getD 0 ∈ h.payloads := by
  cases hl : k₁.nodes.getLast? with
  | none => exact Or.inl rfl
  | some p =>
    refine Or.inr (hs.owned p ?_)
    simp [List.mem_of_getLast? hl]

/-- A new node is linked in between `k₁` and `k₂`. -/
theorem Spells.insert (hs : Spells start total l h (k₁ ++ k₂)) (hp : p ∈ h.payloads)
    (hnew : p ∉ (k₁ ++ k₂).nodes) (hd : l.data p = d) (hn : l.next p = k₂.nodes.head?.getD 0) :
    Spells start total { l.link (k₁.nodes.getLast?.getD 0) p with tail := if k₂ = [] then p else l.tail }
      h (k₁ ++ ⟨p, d⟩ :: k₂) := by
  obtain ⟨hr, hdata⟩ := hs.link_words (v := p) hs.last_owned
  have hchain := hs.chain
  rw [KList.nodes_append] at hchain hnew
  refine ⟨hr, hs.wf, ?_, ?_, ?_, ?_⟩
  · have hseg := seg_insert hchain hnew (Heap.payload_ne_zero hp) hn
    rw [← link_next, ← link_head, ← KList.nodes_cons ⟨p, d⟩, ← KList.nodes_append] at hseg
    exact hseg
  · intro e he
    have hor : e = ⟨p, d⟩ ∨ e ∈ k₁ ++ k₂ := by
      simp only [List.mem_append, List.mem_cons] at *
      tauto
    rcases hor with rfl | he
    · exact (hdata p hp).trans hd
    · exact (hdata e.node (hs.owned e.node (mem_nodes he))).trans (hs.data e he)
  · cases k₂ with
    | nil => simp
    | cons e k₂ => simpa [List.getLast?_append, List.getLast?_cons] using hs.tail
  · intro q hq
    have hor : q = p ∨ q ∈ (k₁ ++ k₂).nodes := by
      simp only [KList.nodes_append, KList.nodes_cons, List.mem_append, List.mem_cons] at *
      tauto
    rcases hor with rfl | hq
    · exact hp
    · exact hs.owned q hq

/-- A node is taken out of the chain between `k₁` and `k₂`, and can still be read. -/
theorem Spells.unlink (hs : Spells start total l h (k₁ ++ e :: k₂)) :
    let l' := { l.link (k₁.nodes.getLast?.getD 0) (l.next e.node) with
      tail := if k₂ = [] then k₁.nodes.getLast?.getD 0 else l.tail }
    Spells start total l' h (k₁ ++ k₂) ∧ l'.data e.node = e.data ∧ e.node ∉ (k₁ ++ k₂).nodes := by
  obtain ⟨hr, hdata⟩ := hs.link_words (v := l.next e.node) hs.last_owned
  have hchain := hs.chain
  have hnd := hs.nodup
  rw [KList.nodes_append, KList.nodes_cons] at hchain hnd
  have hsub : ∀ x ∈ k₁ ++ k₂, x ∈ k₁ ++ e :: k₂ := by
    intro x hx
    simp only [List.mem_append, List.mem_cons] at *
    tauto
  have hkept : ∀ x ∈ k₁ ++ e :: k₂, (l.link (k₁.nodes.getLast?.getD 0) (l.next e.node)).data x.node =
      x.data := fun x hx => (hdata x.node (hs.owned x.node (mem_nodes hx))).trans (hs.data x hx)
  refine ⟨⟨hr, hs.wf, ?_, fun x hx => hkept x (hsub x hx), ?_, ?_⟩, hkept e (by simp), ?_⟩
  · have hseg := seg_remove hchain
    rw [← link_next, ← link_head, ← KList.nodes_append] at hseg
    exact hseg
  · cases k₂ with
    | nil => simp
    | cons x k₂ => simpa [List.getLast?_append, List.getLast?_cons] using hs.tail
  · intro q hq
    obtain ⟨x, hx, rfl⟩ := List.mem_map.1 hq
    exact hs.owned x.node (mem_nodes (hsub x hx))
  · rw [KList.nodes_append]
    exact (List.nodup_cons.1 (List.nodup_middle.1 hnd)).1

/-- `_kmfree` of a block that is no node, with the words of the blocks that stay. -/
theorem Spells.kmfree (hs : Spells start total l h k) (hend : start + memBlockSize * total < 2 ^ 64)
    (hp : p < 2 ^ 64) (hno : p ∉ k.nodes) :
    ∃ s, l.heap.kmfree p = some ((h.kmfree p).1, s) ∧
      Spells start total { l with heap := s } (h.kmfree p).2 k := by
  obtain ⟨s, hk, hr, hframe⟩ := kmfree_block hs.heap hs.wf hend hp
  refine ⟨s, hk, hs.frame hr (Heap.kmfree_wf hs.wf) (fun q hq => ?_) fun q hq => ?_⟩
  · exact (Heap.mem_kmfree hs.wf q).2 ⟨fun he => hno (he ▸ hq), hs.owned q hq⟩
  · obtain ⟨h₁, h₂⟩ := hs.wf.payload_words (hs.owned q hq)
    exact ⟨hframe q h₁, hframe (q + 8) h₂⟩

end NodeList
end OSK
