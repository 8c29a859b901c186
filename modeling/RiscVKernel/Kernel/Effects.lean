import RiscVKernel.Kernel.SysCalls
import RiscVKernel.Lib.Runs

/-! What each call of the kernel does when it comes back: its result and the
parts of the state it changes. The later modules use these and do not unfold
the calls. -/

namespace OSK

open Lib

namespace KList

variable {α : Type} {h h' : Heap} {l l' : KList α} {x : α}

@[simp] theorem items_nil : items ([] : KList α) = [] := rfl
@[simp] theorem items_cons (e : Elem α) : items (e :: l) = e.data :: items l := rfl
@[simp] theorem items_append : items (l ++ l') = items l ++ items l' := by simp [items]
@[simp] theorem length_items : (items l).length = l.length := by simp [items]

theorem newNode_ok {r : ℕ × Heap} (hn : newNode h = .ok r) : h.kmalloc (blocksFor 16) = some r := by
  unfold newNode at hn
  cases hk : h.kmalloc (blocksFor 16) with
  | none => simp [hk] at hn
  | some r' => simpa [hk] using hn

theorem addLast_ok {r : Heap × KList α} (ha : addLast h l x = .ok r) :
    ∃ node h', h.kmalloc (blocksFor 16) = some (node, h') ∧ r = (h', l ++ [⟨node, x⟩]) := by
  obtain ⟨⟨node, h'⟩, hn, hr⟩ := bind_ok ha
  cases hr
  exact ⟨node, h', newNode_ok hn, rfl⟩

theorem insertSorted_ok {r : Heap × KList α} {cmp : α → α → Bool}
    (hi : insertSorted h l x cmp = .ok r) :
    ∃ node h', h.kmalloc (blocksFor 16) = some (node, h') ∧
      r = (h', l.takeWhile (cmp ·.data x) ++ ⟨node, x⟩ :: l.dropWhile (cmp ·.data x)) := by
  obtain ⟨⟨node, h'⟩, hn, hr⟩ := bind_ok hi
  cases hr
  exact ⟨node, h', newNode_ok hn, rfl⟩

theorem items_insert (p : Elem α → Bool) (node : ℕ) :
    (items (l.takeWhile p ++ ⟨node, x⟩ :: l.dropWhile p)).Perm (x :: items l) := by
  rw [items_append, items_cons]
  refine List.perm_middle.trans (List.Perm.cons x ?_)
  rw [← items_append, List.takeWhile_append_dropWhile]

variable [DecidableEq α]

theorem removeSpec_items (h : Heap) (l : KList α) (x : α) :
    (removeSpec h l x).2.2.items = l.items.erase x := by
  unfold removeSpec
  cases hf : l.find? (·.data = x) with
  | none =>
    have hx : x ∉ l.items := by
      intro hx
      obtain ⟨e, he, rfl⟩ := List.mem_map.1 hx
      simpa using List.find?_eq_none.1 hf e he
    rw [List.erase_of_not_mem hx]
  | some e =>
    clear hf
    induction l with
    | nil => rfl
    | cons a l ih =>
      by_cases ha : a.data = x
      · simp [ha]
      · simpa [ha, List.eraseP_cons, List.erase_cons] using ih

theorem removeSpec_found (h : Heap) (l : KList α) (x : α) :
    (removeSpec h l x).1 = decide (x ∈ l.items) := by
  unfold removeSpec
  cases hf : l.find? (·.data = x) with
  | none =>
    have hx : x ∉ l.items := by
      intro hx
      obtain ⟨e, he, rfl⟩ := List.mem_map.1 hx
      simpa using List.find?_eq_none.1 hf e he
    simp [hx]
  | some e =>
    have he := List.mem_of_find?_eq_some hf
    have hx := List.find?_some hf
    simp only [decide_eq_true_eq] at hx
    have : x ∈ l.items := List.mem_map.2 ⟨e, he, hx⟩
    simp [this]

end KList

namespace Kernel

variable {k k' : Kernel} {t : Tid} {s : SemId}

theorem thread_ok {th : Thread} (h : k.thread t = .ok th) : k.threads t = some th := by
  unfold thread at h
  cases hk : k.threads t with
  | none => simp [hk] at h
  | some th' => simpa [hk] using h

theorem sem_ok {m : Sem} (h : k.sem s = .ok m) : k.sems s = some m := by
  unfold sem at h
  cases hk : k.sems s with
  | none => simp [hk] at h
  | some m' => simpa [hk] using h

attribute [simp] note setSem

/-! Writing fields of a thread. -/

section Modify

variable (k : Kernel) (t : Tid) (f : Thread → Thread)

@[simp] theorem modifyThread_heap : (k.modifyThread t f).heap = k.heap := rfl
@[simp] theorem modifyThread_threads :
    (k.modifyThread t f).threads = Function.update k.threads t ((k.threads t).map f) := rfl
@[simp] theorem modifyThread_threadAddr : (k.modifyThread t f).threadAddr = k.threadAddr := rfl
@[simp] theorem modifyThread_sems : (k.modifyThread t f).sems = k.sems := rfl
@[simp] theorem modifyThread_semAddr : (k.modifyThread t f).semAddr = k.semAddr := rfl
@[simp] theorem modifyThread_running : (k.modifyThread t f).running = k.running := rfl
@[simp] theorem modifyThread_ID : (k.modifyThread t f).ID = k.ID := rfl
@[simp] theorem modifyThread_nextSem : (k.modifyThread t f).nextSem = k.nextSem := rfl
@[simp] theorem modifyThread_queueThreads : (k.modifyThread t f).queueThreads = k.queueThreads := rfl
@[simp] theorem modifyThread_listAsleepThreads :
    (k.modifyThread t f).listAsleepThreads = k.listAsleepThreads := rfl
@[simp] theorem modifyThread_allSemaphores :
    (k.modifyThread t f).allSemaphores = k.allSemaphores := rfl
@[simp] theorem modifyThread_sysTime : (k.modifyThread t f).sysTime = k.sysTime := rfl
@[simp] theorem modifyThread_cpuTime :
    (k.modifyThread t f).runningThreadCpuTime = k.runningThreadCpuTime := rfl
@[simp] theorem modifyThread_user : (k.modifyThread t f).user = k.user := rfl
@[simp] theorem modifyThread_trace : (k.modifyThread t f).trace = k.trace := rfl

end Modify

attribute [simp] setFinished setThreadState setTimeForWakingUp setMySem setThreadsSemStatus

/-! The calls on lists. -/

theorem put_ok (h : k.put t = .ok k') :
    ∃ node hp, k.heap.kmalloc (blocksFor 16) = some (node, hp) ∧
      k' = { k with heap := hp, queueThreads := k.queueThreads ++ [⟨node, t⟩] } := by
  obtain ⟨⟨hp, q⟩, ha, hr⟩ := bind_ok h
  obtain ⟨node, hp', hk, hq⟩ := KList.addLast_ok ha
  cases hq
  cases hr
  exact ⟨node, hp, hk, rfl⟩

theorem addVal_ok {d : ℤ} {r : ℤ × Kernel} (h : k.addVal s d = .ok r) :
    ∃ m, k.sems s = some m ∧ (-2 ^ 63 ≤ m.val + d ∧ m.val + d < 2 ^ 63) ∧
      r = (m.val + d, k.setSem s { m with val := m.val + d }) := by
  obtain ⟨m, hm, h⟩ := bind_ok h
  dsimp only at h
  split_ifs at h with hv
  · cases h
    exact ⟨m, sem_ok hm, hv, rfl⟩

theorem addBlocked_ok (h : k.addBlocked s t = .ok k') :
    ∃ (m : Sem) (node : ℕ) (hp : Heap),
      k.sems s = some m ∧ k.heap.kmalloc (blocksFor 16) = some (node, hp) ∧
      k' = setSem { k with heap := hp } s
        { m with queueBlocked := m.queueBlocked ++ [⟨node, t⟩] } := by
  obtain ⟨m, hm, h⟩ := bind_ok h
  obtain ⟨⟨hp, q⟩, ha, hr⟩ := bind_ok h
  obtain ⟨node, hp', hk, hq⟩ := KList.addLast_ok ha
  cases hq
  cases hr
  exact ⟨m, node, hp, sem_ok hm, hk, rfl⟩

theorem removeBlocked_ok (h : k.removeBlocked s t = .ok k') :
    ∃ m, k.sems s = some m ∧
      k' = { k with heap := (KList.removeSpec k.heap m.queueBlocked t).2.1 }.setSem s
        { m with queueBlocked := (KList.removeSpec k.heap m.queueBlocked t).2.2 } := by
  obtain ⟨m, hm, h⟩ := bind_ok h
  cases h
  exact ⟨m, sem_ok hm, rfl⟩

theorem insertAsleep_ok (h : k.insertAsleep t = .ok k') (ht : k.threads t ≠ none) :
    ∃ node hp, k.heap.kmalloc (blocksFor 16) = some (node, hp) ∧
      k' = { k with
        heap := hp
        listAsleepThreads :=
          k.listAsleepThreads.takeWhile (k.smallerSleepTime ·.data t) ++
            ⟨node, t⟩ :: k.listAsleepThreads.dropWhile (k.smallerSleepTime ·.data t) } := by
  unfold insertAsleep isThreadValid at h
  rw [if_pos (Option.isSome_iff_ne_none.2 ht)] at h
  obtain ⟨⟨hp, q⟩, ha, hr⟩ := bind_ok h
  obtain ⟨node, hp', hk, hq⟩ := KList.insertSorted_ok ha
  cases hq
  cases hr
  exact ⟨node, hp, hk, rfl⟩

theorem firstBlocked_ok {r : Option Tid × Kernel} (h : k.firstBlocked s = .ok r) :
    ∃ m, k.sems s = some m ∧
      (m.queueBlocked = [] ∧ r.1 = none ∨ ∃ e q, m.queueBlocked = e :: q ∧
        r = (some e.data, { k with heap := (k.heap.kmfree e.node).2 }.setSem s
          { m with queueBlocked := q })) := by
  obtain ⟨m, hm, h⟩ := bind_ok h
  cases h
  refine ⟨m, sem_ok hm, ?_⟩
  cases hq : m.queueBlocked with
  | nil => exact Or.inl ⟨rfl, rfl⟩
  | cons e q => exact Or.inr ⟨e, q, rfl, rfl⟩

end Kernel
end OSK
