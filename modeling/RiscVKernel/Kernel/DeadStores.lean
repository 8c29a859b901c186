import RiscVKernel.Kernel.Closing
import RiscVKernel.Kernel.Handover
import RiscVKernel.Memory.FirstFit

/-! A thread that exits is deleted before `dispatch` is through with it: its
registers go onto its stack and `ra` and `sp` into its record when both are free
memory already. -/

namespace OSK

open Lib

namespace Heap

variable {start total : ℕ} {h h' : Heap} {ps : List ℕ} {b : Block}

/-- The bytes of the word at `w` are in the payload of a free block, in no header
and in no block in use. -/
structure OffLimits (h : Heap) (w : ℕ) : Prop where
  free : ∃ b ∈ h.free, payload b ≤ w ∧ w + 8 ≤ b.stop memBlockSize
  headers : ∀ b ∈ h.free ++ h.taken, w + 8 ≤ b.addr ∨ payload b ≤ w
  live : ∀ b ∈ h.taken, w + 8 ≤ b.addr ∨ b.stop memBlockSize ≤ w

theorem WF.offLimits (hw : WF start total h) {w : ℕ} (hb : b ∈ h.free) (hlo : payload b ≤ w)
    (hhi : w + 8 ≤ b.stop memBlockSize) : h.OffLimits w := by
  have hbm : b ∈ h.free ++ h.taken := List.mem_append_left _ hb
  have hapart : ∀ c ∈ h.free ++ h.taken, c ≠ b → w + 8 ≤ c.addr ∨ c.stop memBlockSize ≤ w := by
    intro c hc hne
    rcases hw.separate hc hbm hne with hs | hs
    · unfold payload at hlo
      omega
    · omega
  refine ⟨⟨b, hb, hlo, hhi⟩, ?_, ?_⟩
  · intro c hc
    by_cases hcb : c = b
    · exact Or.inr (hcb ▸ hlo)
    · have hstop := stop_ge (u := memBlockSize) (hw.bounds hc).2.1
      rcases hapart c hc hcb with hs | hs
      · exact Or.inl hs
      · unfold payload sizeHeader memBlockSize at *
        omega
  · intro c hc
    refine hapart c (List.mem_append_right _ hc) ?_
    rintro rfl
    have hnd := hw.nodup
    rw [List.map_append, List.nodup_append] at hnd
    exact hnd.2.2 _ (List.mem_map_of_mem hb) _ (List.mem_map_of_mem hc) rfl

/-- What is in use after the frees was in use before and was not freed. -/
theorem Frees.taken (hf : h.Frees ps h') (hw : WF start total h) :
    WF start total h' ∧ ∀ c ∈ h'.taken, c ∈ h.taken ∧ payload c ∉ ps := by
  induction ps generalizing h with
  | nil =>
    cases hf
    exact ⟨hw, fun c hc => ⟨hc, by simp⟩⟩
  | cons p ps ih =>
    obtain ⟨hp, -, hf⟩ := hf
    obtain ⟨b, hb, rfl⟩ := List.mem_map.1 hp
    obtain ⟨hw', hsub⟩ := ih hf (kmfree_wf hw)
    refine ⟨hw', fun c hc => ?_⟩
    obtain ⟨hcm, hcps⟩ := hsub c hc
    have hne := ((mem_kmfree hw _).1 (List.mem_map_of_mem hcm)).1
    rw [kmfree_live hw hb] at hcm
    exact ⟨List.mem_of_mem_erase hcm, by simp [hne, hcps]⟩

/-- A freed block lies inside one free block, whatever was merged. -/
theorem Frees.covered (hf : h.Frees ps h') (hw : WF start total h) (hb : b ∈ h.taken)
    (hp : payload b ∈ ps) :
    ∃ c ∈ h'.free, c.addr ≤ b.addr ∧ b.stop memBlockSize ≤ c.stop memBlockSize := by
  obtain ⟨hw', hsub⟩ := hf.taken hw
  have hbm : b ∈ h.free ++ h.taken := List.mem_append_right _ hb
  apply hw'.gap_covered (hw.bounds hbm).2.1
  refine ⟨hw.aligned hbm, (hw.bounds hbm).2.2, ?_⟩
  intro c hc
  obtain ⟨hcm, hcp⟩ := hsub c hc
  have hne : c ≠ b := fun he => hcp (he ▸ hp)
  exact hw.separate (List.mem_append_right _ hcm) hbm hne

/-- The words of the payload of a freed block. -/
theorem Frees.offLimits (hf : h.Frees ps h') (hw : WF start total h) (hb : b ∈ h.taken)
    (hp : payload b ∈ ps) {w : ℕ} (hlo : payload b ≤ w) (hhi : w + 8 ≤ b.stop memBlockSize) :
    h'.OffLimits w := by
  obtain ⟨c, hc, hcb, hbc⟩ := hf.covered hw hb hp
  refine (hf.taken hw).1.offLimits hc ?_ (hhi.trans hbc)
  unfold payload at *
  omega

end Heap

namespace Allocator

variable {start total : ℕ} {s : Allocator} {h h' : Heap} {ps : List ℕ}

/-- The frees in the memory words. -/
theorem frees_words (hf : h.Frees ps h') (hr : Represents total s h) (hw : h.WF start total)
    (hend : start + memBlockSize * total < 2 ^ 64) :
    ∃ s', s.kmfreeAll (ps.map UInt64.ofNat) = some s' ∧ Represents total s' h' := by
  induction ps generalizing s h with
  | nil =>
    cases hf
    exact ⟨s, rfl, hr⟩
  | cons p ps ih =>
    obtain ⟨hp, hzero, hf⟩ := hf
    obtain ⟨b, hb, rfl⟩ := List.mem_map.1 hp
    have hlt := payload_lt hw hend (List.mem_append_right _ hb)
    obtain ⟨s₁, hs₁, hr₁, -⟩ := kmfree_block hr hw hend hlt
    obtain ⟨s', hs', hr'⟩ := ih hf hr₁ (Heap.kmfree_wf hw)
    refine ⟨s', ?_, hr'⟩
    rw [hzero] at hs₁
    rw [List.map_cons, kmfreeAll, UInt64.toNat_ofNat_of_lt' hlt, hs₁]
    exact hs'

/-- Stores of words one after another. -/
def storeAll (s : Allocator) (ws : List (ℕ × ℕ)) : Allocator :=
  ws.foldl (fun s w => s.store w.1 w.2) s

/-- Stores into free payload leave the heap as it is. -/
theorem storeAll_represents {ws : List (ℕ × ℕ)} (hr : Represents total s h)
    (hw : h.WF start total) (hws : ∀ w ∈ ws, h.OffLimits w.1) :
    Represents total (s.storeAll ws) h := by
  induction ws generalizing s with
  | nil => exact hr
  | cons w ws ih =>
    obtain ⟨b, hb, hlo, hhi⟩ := (hws w List.mem_cons_self).free
    have hoff := payload_notMem hw (List.mem_append_left _ hb) hlo hhi
    exact ih (store_represents hr hoff) fun w' hw' => hws w' (List.mem_cons_of_mem _ hw')

theorem storeAll_mem {ws : List (ℕ × ℕ)} {a : ℕ} (ha : ∀ w ∈ ws, w.1 ≠ a) :
    (s.storeAll ws).mem a = s.mem a := by
  induction ws generalizing s with
  | nil => rfl
  | cons w ws ih =>
    have hne : a ≠ w.1 := (ha w List.mem_cons_self).symm
    calc ((s.store w.1 w.2).storeAll ws).mem a
      _ = (s.store w.1 w.2).mem a := ih fun w' hw' => ha w' (List.mem_cons_of_mem _ hw')
      _ = s.mem a := by simp [hne]

end Allocator

namespace Kernel

variable {start total : ℕ} {k k' : Kernel} {th : Thread} {es : List Event} {b : Block} {sp w : ℕ}

/-- The words that `pushRegisters` stores, with the stack pointer at `sp` before. -/
def registerFrame (sp : ℕ) : List ℕ := (List.range' 3 29).map fun index => sp - 256 + index * 8

/-- The words that `contextSwitch` stores: `ra` and `sp` of the old thread. -/
def contextWords (k : Kernel) (old : Tid) : List ℕ :=
  [k.threadAddr old + contextOffset, k.threadAddr old + contextOffset + 8]

theorem mem_registerFrame (hsp : 256 ≤ sp) (hw : w ∈ registerFrame sp) :
    sp - 256 ≤ w ∧ w + 8 ≤ sp := by
  obtain ⟨index, hi, rfl⟩ := List.mem_map.1 hw
  rw [List.mem_range'_1] at hi
  omega

/-- The block of an object of `o` has a size that fits. -/
theorem Stored.held_block {o : Owner} {p : ℕ} (hs : k.Stored start total) (hp : p ∈ k.held o) :
    ∃ b ∈ k.heap.taken, payload b = p ∧ o.Fits b.size := by
  obtain ⟨n, hn, hfits⟩ := hs.allotted.taken o p hp
  obtain ⟨b, hf, rfl⟩ := Option.map_eq_some_iff.1 hn
  exact ⟨b, List.mem_of_find?_eq_some hf, by simpa using List.find?_some hf, hfits⟩

/-- The saved context lies in the block of the record. -/
theorem Stored.contextWords (hs : k.Stored start total) (hth : k.threads k.running = some th) :
    ∃ b ∈ k.heap.taken, payload b = k.threadAddr k.running ∧
      ∀ w ∈ k.contextWords k.running, payload b ≤ w ∧ w + 8 ≤ b.stop memBlockSize := by
  have htcb : k.threadAddr k.running ∈ k.held (.tcb k.running) := by simp [held, hth]
  obtain ⟨b, hb, hp, hfits⟩ := hs.held_block htcb
  refine ⟨b, hb, hp, fun w hw => ?_⟩
  have hsize : b.size = 2 := hfits
  have hstop : b.stop memBlockSize = payload b + 112 := by
    unfold Span.stop payload memBlockSize sizeHeader
    omega
  simp only [Kernel.contextWords, contextOffset, List.mem_cons, List.not_mem_nil, or_false] at hw
  rcases hw with rfl | rfl <;> omega

/-- `dispatch` from a finished thread frees its stack and its record first. -/
theorem HandsOver.finished_frees {heap : Heap} {e : Elem Tid} (ho : k.HandsOver th heap e k')
    (hth : k.threads k.running = some th) (hfin : th.threadState = .finished) :
    ∃ rest, k.heap.Frees (th.stack :: k.threadAddr k.running :: rest) k'.heap := by
  have hstop : ¬Runnable th := by simp [Runnable, hfin]
  have hfreed := ho.freed
  rw [(ho.stays_out hstop).1, freedBlocks, if_pos hfin, ownBlocks, hth] at hfreed
  exact ⟨_, hfreed⟩

/-- On the way of `thread_exit` to the stores blocks are freed, the stack and the
record first, and none is allocated. -/
theorem exit_frees (h : k.exit = .ok k') (hi : k.Inv) (hs : k.Stored start total)
    (hth : k.threads k.running = some th) :
    ∃ rest, k.heap.Frees (th.stack :: k.threadAddr k.running :: rest) k'.heap := by
  obtain ⟨_, k₁, -, hk₁, hd⟩ := exit_ok h
  have hsame : k₁.heap = k.heap ∧ k₁.queueThreads = k.queueThreads ∧ Stays k k₁ ∧
      k₁.Stored start total := by
    rcases hk₁ with ⟨rfl, -⟩ | ⟨p, -, rfl⟩
    · exact ⟨rfl, rfl, .refl _, hs⟩
    · refine ⟨?_, ?_, decNumOfChildren_stays k p, decNumOfChildren_stored p hs⟩ <;>
      · unfold decNumOfChildren
        split_ifs <;> rfl
  obtain ⟨hheap, hqueue, hstays, hs₁⟩ := hsame
  have horigin := hstays.thread k.running
  rw [hth] at horigin
  obtain ⟨th₁, hth₁, horigin⟩ := Option.map_eq_some_iff.1 horigin
  have hstack : th₁.stack = th.stack := congrArg (fun o => o.1.2.1) horigin
  have hfin : (k₁.setFinished k.running).threads (k₁.setFinished k.running).running =
      some { th₁ with threadState := .finished } := by
    simp [setFinished, hstays.running, hth₁]
  have hnd : k₁.queueThreads.items.Nodup := by
    obtain ⟨loc, hl⟩ := hi.located
    exact hqueue ▸ hl.placed.nodup_ready
  obtain ⟨heap, e, hands⟩ := dispatch_hands hd hfin hnd (modifyThread_stored (fun _ => rfl) hs₁)
  obtain ⟨rest, hfrees⟩ := hands.finished_frees hfin rfl
  refine ⟨rest, ?_⟩
  simpa [setFinished, hstays.running, hstays.threadAddr, hheap, hstack] using hfrees

/-- In any state that is reached, when the running thread exits: from the delete to
the stores of `dispatch` blocks are freed and none is allocated, and the stores of
`pushRegisters`, in the stack, and of `contextSwitch` lie in free payload. In the
memory words they leave the heap and every other word as they are. -/
theorem exit_stores {k₀ : Kernel} (hend : start + memBlockSize * total < 2 ^ 64)
    (hb : boot start total = some k₀) (h : Run step (fun _ _ => True) k₀ es k)
    (hexit : k.step .threadExit = .ok k') (hth : k.threads k.running = some th)
    (hbm : b ∈ k.heap.taken) (hstack : payload b = th.stack)
    (hlo : payload b + 256 ≤ sp) (hhi : sp ≤ b.stop memBlockSize) :
    ∃ rest, k.heap.Frees (th.stack :: k.threadAddr k.running :: rest) k'.heap ∧
      (∀ w ∈ registerFrame sp ++ k.contextWords k.running, k'.heap.OffLimits w) ∧
      ∀ s, Represents total s k.heap → ∃ s',
        s.kmfreeAll ((th.stack :: k.threadAddr k.running :: rest).map UInt64.ofNat) = some s' ∧
        Represents total s' k'.heap ∧ ∀ v : ℕ → ℕ,
          let words := registerFrame sp ++ k.contextWords k.running
          Represents total (s'.storeAll (words.map fun w => (w, v w))) k'.heap ∧
            ∀ a ∉ words, (s'.storeAll (words.map fun w => (w, v w))).mem a = s'.mem a := by
  obtain ⟨hi, hs⟩ := run_stored hb h
  obtain ⟨rest, hfrees⟩ := exit_frees hexit hi hs hth
  have hoff : ∀ w ∈ registerFrame sp ++ k.contextWords k.running, k'.heap.OffLimits w := by
    intro w hw
    rcases List.mem_append.1 hw with hw | hw
    · obtain ⟨hwlo, hwhi⟩ := mem_registerFrame (by omega) hw
      exact hfrees.offLimits hs.wf hbm (by simp [hstack]) (by omega) (hwhi.trans hhi)
    · obtain ⟨c, hc, hp, hwords⟩ := hs.contextWords hth
      obtain ⟨hwlo, hwhi⟩ := hwords w hw
      exact hfrees.offLimits hs.wf hc (by simp [hp]) hwlo hwhi
  refine ⟨rest, hfrees, hoff, fun s hr => ?_⟩
  obtain ⟨s', hs', hr'⟩ := Allocator.frees_words hfrees hr hs.wf hend
  refine ⟨s', hs', hr', fun v => ⟨?_, fun a ha => ?_⟩⟩
  · apply Allocator.storeAll_represents hr' (hfrees.taken hs.wf).1
    intro w hw
    obtain ⟨w', hw', rfl⟩ := List.mem_map.1 hw
    exact hoff w' hw'
  · apply Allocator.storeAll_mem
    intro w hw
    obtain ⟨w', hw', rfl⟩ := List.mem_map.1 hw
    rintro rfl
    exact ha hw'

/-- The second thread exits with its stack pointer at the top of its stack. -/
theorem exit_stores_two : ∃ k₀ k k' th b, boot 1024 1000 = some k₀ ∧
    Run step (fun _ _ => True) k₀ [.memAlloc 65, .threadCreate 4096 5328, .threadDispatch] k ∧
    k.step .threadExit = .ok k' ∧ k.threads k.running = some th ∧ b ∈ k.heap.taken ∧
    payload b = th.stack ∧
    ∃ rest, k.heap.Frees (th.stack :: k.threadAddr k.running :: rest) k'.heap ∧
      (∀ w ∈ registerFrame 9424 ++ k.contextWords k.running, k'.heap.OffLimits w) := by
  have hrun : ((boot 1024 1000).bind fun k₀ => exec step (fun _ _ => True) k₀ [.memAlloc 65,
      .threadCreate 4096 5328, .threadDispatch]).any (fun k =>
        (exec step (fun _ _ => True) k [.threadExit]).any fun _ =>
          ∃ th ∈ k.threads k.running, ∃ b ∈ k.heap.taken, payload b = th.stack ∧
            payload b + 256 ≤ 9424 ∧ 9424 ≤ b.stop memBlockSize) = true := by
    decide +kernel
  obtain ⟨k₀, k, hb, h, hq⟩ := exists_run hrun
  obtain ⟨k', hexit, hq⟩ := exists_run_from hq
  obtain ⟨th, hth, b, hbm, hstack, hlo, hhi⟩ := of_decide_eq_true hq
  have hexit : k.step .threadExit = .ok k' := hexit.one.2
  obtain ⟨rest, hfrees, hoff, -⟩ :=
    exit_stores (by decide) hb h hexit hth hbm hstack hlo hhi
  exact ⟨k₀, k, k', th, b, hb, h, hexit, hth, hbm, hstack, rest, hfrees, hoff⟩

end Kernel
end OSK
