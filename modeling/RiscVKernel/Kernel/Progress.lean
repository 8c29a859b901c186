import RiscVKernel.Kernel.Storage

/-! Calls that come back. A list insertion does when one block of the heap is
free, and `unblock` always does when it finds a thread: the node it frees is one
that it can use. -/

namespace OSK

open Lib

namespace Kernel

variable {k k' : Kernel} {t : Tid} {s : SemId} {cause : SemStatus} {start total : ℕ} {m : Sem}
  {loc : Tid → Place} {pend : Tid → Option Context}

theorem Stored.node (hs : k.Stored start total) (hb : 1 ≤ k.heap.freeBlocks) :
    ∃ node hp, k.heap.kmalloc (blocksFor 16) = some (node, hp) := by
  cases hm : k.heap.kmalloc (blocksFor 16) with
  | none =>
    have h0 : k.heap.freeBlocks = 0 := (Heap.kmalloc_one_none hs.wf).1 hm
    omega
  | some r => exact ⟨r.1, r.2, rfl⟩

theorem put_total (t : Tid) (hs : k.Stored start total) (hb : 1 ≤ k.heap.freeBlocks) :
    ∃ k', k.put t = .ok k' := by
  obtain ⟨node, hp, hm⟩ := hs.node hb
  refine bind_total (a := (hp, k.queueThreads ++ [⟨node, t⟩])) ?_ ⟨_, rfl⟩
  simp only [KList.addLast, KList.newNode, hm]
  rfl

theorem release_total (t : Tid) (s : SemId) (cause : SemStatus) (hs : k.Stored start total)
    (hb : 1 ≤ k.heap.freeBlocks) : ∃ k', k.release t s cause = .ok k' := by
  have hs' : (((k.setMySem t none).setThreadsSemStatus t cause).note
      (.dequeued t s cause)).Stored start total :=
    note_stored _ (setThreadsSemStatus_stored t cause (setMySem_stored t none hs))
  exact put_total t hs' hb

theorem firstBlocked_total {e : Elem Tid} {q : KList Tid} (hm : k.sems s = some m)
    (hq : m.queueBlocked = e :: q) : ∃ k₁, k.firstBlocked s = .ok (some e.data, k₁) := by
  refine ⟨{ k with heap := (k.heap.kmfree e.node).2 }.setSem s { m with queueBlocked := q }, ?_⟩
  unfold firstBlocked
  rw [show k.sem s = .ok m by simp [Kernel.sem, hm]]
  simp only [bind, Except.bind, hq]
  rfl

theorem thread_total (ht : k.threads t ≠ none) : ∃ th, k.thread t = .ok th := by
  obtain ⟨th, hth⟩ := Option.ne_none_iff_exists'.1 ht
  exact ⟨th, by simp [thread, hth]⟩

/-- The first thread of a queue is always released. -/
theorem unblock_total {e : Elem Tid} {q : KList Tid} (hp : k.Placed pend loc)
    (hs : k.Stored start total) (hm : k.sems s = some m) (hq : m.queueBlocked = e :: q) :
    ∃ k', k.unblock s cause = .ok k' := by
  obtain ⟨k₁, hf⟩ := firstBlocked_total hm hq
  obtain ⟨hs₁, hb⟩ := firstBlocked_stored hf hs
  have hrec : k₁.threads e.data ≠ none := by
    rw [← Option.isSome_iff_ne_none, (firstBlocked_stays hf).isSome, Option.isSome_iff_ne_none]
    obtain ⟨th, hth, -⟩ := hp.record (t := e.data) (by
      rcases hp.mem_queue (t := e.data) hm (by simp [hq]) with h | h <;> simp [h])
    simp [hth]
  obtain ⟨th, hth⟩ := thread_total hrec
  refine bind_total hf (bind_total hth ?_)
  dsimp only
  split_ifs
  · obtain ⟨hs₂, hle, -⟩ := removeThreadFromSleep_stored e.data hs₁
    exact release_total _ _ _ hs₂ (by omega)
  · exact release_total _ _ _ hs₁ (by omega)

theorem addVal_total {d : ℤ} (hm : k.sems s = some m) (hlow : -2 ^ 63 ≤ m.val + d)
    (hhigh : m.val + d < 2 ^ 63) :
    k.addVal s d = .ok (m.val + d, k.setSem s { m with val := m.val + d }) := by
  unfold addVal
  rw [show k.sem s = .ok m by simp [Kernel.sem, hm]]
  simp only [bind, Except.bind, if_pos (And.intro hlow hhigh)]
  rfl

end Kernel
end OSK
