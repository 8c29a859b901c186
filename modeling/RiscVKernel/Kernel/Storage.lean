import RiscVKernel.Kernel.Steps
import RiscVKernel.Lib.Allotment

/-! Which blocks of the heap the kernel and user code hold. In every reachable
state they are all different and each is of the size its object was allocated
with, so that freeing one never frees another. -/

namespace OSK

open Lib

/-- The pointers to blocks: nodes of the lists, records, stacks, and what user
code holds. -/
inductive Owner
  | ready
  | asleep
  | blocked (s : SemId)
  | semNode
  | sem (s : SemId)
  | tcb (t : Tid)
  | stack (t : Tid)
  | user
  deriving DecidableEq

/-- The number of blocks an object of the kernel has. -/
def Owner.Fits : Owner → ℕ → Prop
  | .ready, n => n = blocksFor 16
  | .asleep, n => n = blocksFor 16
  | .blocked _, n => n = blocksFor 16
  | .semNode, n => n = blocksFor 16
  | .sem _, n => n = blocksFor Kernel.semSize
  | .tcb _, n => n = blocksFor Kernel.threadSize
  | .stack _, _ => True
  | .user, _ => True

/-- The owners of list nodes. -/
def Owner.IsList (o : Owner) : Prop := ∀ n, o.Fits n ↔ n = blocksFor 16

namespace KList

variable {α : Type} {h : Heap} {l : KList α} {x : α}

@[simp] theorem nodes_nil : nodes ([] : KList α) = [] := rfl
@[simp] theorem nodes_cons (e : Elem α) : nodes (e :: l) = e.node :: nodes l := rfl
@[simp] theorem nodes_append (l l' : KList α) : nodes (l ++ l') = nodes l ++ nodes l' := by
  simp [nodes]

theorem nodes_insert (p : Elem α → Bool) (node : ℕ) :
    (nodes (l.takeWhile p ++ ⟨node, x⟩ :: l.dropWhile p)).Perm (node :: nodes l) := by
  rw [nodes_append, nodes_cons]
  refine List.perm_middle.trans (List.Perm.cons node ?_)
  rw [← nodes_append, List.takeWhile_append_dropWhile]

/-- `removeSpec` takes out the first node with the datum and frees it. -/
theorem removeSpec_cases [DecidableEq α] (h : Heap) (l : KList α) (x : α) :
    x ∉ l.items ∧ removeSpec h l x = (false, h, l) ∨
      ∃ l₁ e l₂, l = l₁ ++ e :: l₂ ∧ (∀ d ∈ l₁, d.data ≠ x) ∧ e.data = x ∧
        removeSpec h l x = (true, (h.kmfree e.node).2, l₁ ++ l₂) := by
  unfold removeSpec
  cases hf : l.find? (·.data = x) with
  | none =>
    refine Or.inl ⟨?_, rfl⟩
    intro hx
    obtain ⟨e, he, rfl⟩ := List.mem_map.1 hx
    simpa using List.find?_eq_none.1 hf e he
  | some e =>
    obtain ⟨hx, l₁, l₂, rfl, hl₁⟩ := List.find?_eq_some_iff_append.1 hf
    have hx : e.data = x := by simpa using hx
    have hl₁ : ∀ d ∈ l₁, d.data ≠ x := by simpa using hl₁
    refine Or.inr ⟨l₁, e, l₂, rfl, hl₁, hx, ?_⟩
    rw [List.eraseP_append_right]
    · simp [hx]
    · simpa using hl₁

end KList

namespace Kernel

variable {k k' : Kernel} {t : Tid} {s : SemId} {cause : SemStatus} {c : Context} {o : Owner}
  {start total n p : ℕ} {hp : Heap}

def held (k : Kernel) : Owner → List ℕ
  | .ready => k.queueThreads.nodes
  | .asleep => k.listAsleepThreads.nodes
  | .blocked s => match k.sems s with
    | none => []
    | some m => m.queueBlocked.nodes
  | .semNode => k.allSemaphores.nodes
  | .sem s => match k.sems s with
    | none => []
    | some _ => [k.semAddr s]
  | .tcb t => match k.threads t with
    | none => []
    | some _ => [k.threadAddr t]
  | .stack t => match k.threads t with
    | none => []
    | some th => [th.stack]
  | .user => k.user

/-- The heap is well formed and its blocks are where the kernel believes them. -/
structure Stored (start total : ℕ) (k : Kernel) : Prop where
  wf : k.heap.WF start total
  allotted : Allotted Owner.Fits k.heap.sizeAt k.held

theorem Stored.congr (h : k.Stored start total) (hh : k'.heap = k.heap)
    (ho : ∀ o, k'.held o = k.held o) : k'.Stored start total :=
  ⟨hh ▸ h.wf, by rw [hh, funext ho]; exact h.allotted⟩

/-- A block is allocated for `o`, and no owner gets another one. -/
theorem Stored.alloc (h : k.Stored start total) (hm : k.heap.kmalloc n = some (p, hp))
    (hn : o.Fits n) (hh : k'.heap = hp) (hself : (k'.held o).Perm (p :: k.held o))
    (hne : ∀ o' ≠ o, (k'.held o').Perm (k.held o')) : k'.Stored start total := by
  subst hh
  obtain ⟨hp, hs⟩ := Heap.kmalloc_sizeAt h.wf hm
  refine ⟨Heap.kmalloc_wf h.wf hm, ?_⟩
  rw [hs]
  apply (h.allotted.alloc hp hn).perm
  intro o'
  by_cases ho : o' = o
  · subst ho
    rwa [Function.update_self]
  · rw [Function.update_of_ne ho]
    exact hne o' ho

/-- The block `p` of `o` is freed. -/
theorem Stored.free (h : k.Stored start total) (hp : p ∈ k.held o)
    (hh : k'.heap = (k.heap.kmfree p).2) (hself : (k'.held o).Perm ((k.held o).erase p))
    (hne : ∀ o' ≠ o, (k'.held o').Perm (k.held o')) : k'.Stored start total := by
  refine ⟨hh ▸ Heap.kmfree_wf h.wf, ?_⟩
  rw [hh, Heap.kmfree_sizeAt h.wf]
  apply (h.allotted.free hp).perm
  intro o'
  by_cases ho : o' = o
  · subst ho
    rwa [Function.update_self]
  · rw [Function.update_of_ne ho]
    exact hne o' ho

/-- Freeing a node makes one block free. -/
theorem Stored.node_blocks (h : k.Stored start total) (ho : o.IsList) (hp : p ∈ k.held o) :
    (k.heap.kmfree p).2.freeBlocks = k.heap.freeBlocks + 1 := by
  obtain ⟨n, hs, hn⟩ := h.allotted.taken o p hp
  rw [Heap.kmfree_blocks hs, (ho n).1 hn, Nat.add_comm]
  rfl

theorem erase_perm {l₁ l₂ : List ℕ} (p : ℕ) :
    (l₁ ++ l₂).Perm ((l₁ ++ p :: l₂).erase p) := by
  have h : (l₁ ++ p :: l₂).Perm (p :: (l₁ ++ l₂)) := List.perm_middle
  have he := (h.erase p).symm
  rwa [List.erase_cons_head] at he

/-! Calls that allocate or free a node. -/

theorem put_stored (h : k.put t = .ok k') (hs : k.Stored start total) : k'.Stored start total := by
  obtain ⟨node, hp, hm, rfl⟩ := put_ok h
  refine hs.alloc (o := .ready) hm rfl rfl ?_ ?_
  · simp only [held, KList.nodes_append, KList.nodes_cons, KList.nodes_nil]
    exact List.perm_append_singleton _ _
  · intro o' ho
    cases o' <;> first | exact absurd rfl ho | exact .refl _

theorem insertAsleep_stored (h : k.insertAsleep t = .ok k') (ht : k.threads t ≠ none)
    (hs : k.Stored start total) : k'.Stored start total := by
  obtain ⟨node, hp, hm, rfl⟩ := insertAsleep_ok h ht
  refine hs.alloc (o := .asleep) hm rfl rfl (KList.nodes_insert _ _) fun o' ho => ?_
  cases o' <;> first | exact absurd rfl ho | exact .refl _

/-- The blocks of the semaphores after `s` got a new queue. -/
theorem setQueue_held {m : Sem} (m' : Sem) (hm : k.sems s = some m) :
    (setSem { k with heap := hp } s m').held =
      Function.update k.held (.blocked s) m'.queueBlocked.nodes := by
  funext o
  by_cases ho : o = .blocked s
  · subst ho
    simp [held]
  · rw [Function.update_of_ne ho]
    cases o with
    | blocked s' =>
      have hne : s' ≠ s := fun he => ho (he ▸ rfl)
      simp [held, hne]
    | sem s' =>
      by_cases he : s' = s
      · subst he
        simp [held, hm]
      · simp [held, he]
    | _ => rfl

theorem held_blocked {m : Sem} (hm : k.sems s = some m) :
    k.held (.blocked s) = m.queueBlocked.nodes := by
  simp [held, hm]

theorem addBlocked_stored (h : k.addBlocked s t = .ok k') (hs : k.Stored start total) :
    k'.Stored start total := by
  obtain ⟨m, node, hp, hm, hk, rfl⟩ := addBlocked_ok h
  refine hs.alloc (o := .blocked s) hk rfl rfl ?_ ?_
  · rw [setQueue_held _ hm, Function.update_self, held_blocked hm]
    simp only [KList.nodes_append, KList.nodes_cons, KList.nodes_nil]
    exact List.perm_append_singleton _ _
  · intro o' ho
    rw [setQueue_held _ hm, Function.update_of_ne ho]

theorem firstBlocked_stored (h : k.firstBlocked s = .ok (some t, k'))
    (hs : k.Stored start total) :
    k'.Stored start total ∧ k'.heap.freeBlocks = k.heap.freeBlocks + 1 := by
  obtain ⟨m, hm, ⟨-, hr⟩ | ⟨e, q, hq, hr⟩⟩ := firstBlocked_ok h
  · cases hr
  cases hr
  have hmem : e.node ∈ k.held (.blocked s) := by simp [held_blocked hm, hq]
  refine ⟨hs.free hmem rfl ?_ ?_, hs.node_blocks (fun _ => Iff.rfl) hmem⟩
  · rw [setQueue_held _ hm, Function.update_self, held_blocked hm, hq]
    simp
  · intro o' ho
    rw [setQueue_held _ hm, Function.update_of_ne ho]

theorem setSem_self {m : Sem} (hm : k.sems s = some m) : setSem { k with heap := k.heap } s m = k := by
  simp only [setSem, ← hm, Function.update_eq_self]

theorem removeBlocked_stored (h : k.removeBlocked s t = .ok k') (hs : k.Stored start total) :
    k'.Stored start total ∧ k.heap.freeBlocks ≤ k'.heap.freeBlocks ∧
      (∀ m, k.sems s = some m → t ∈ m.queueBlocked.items →
        k'.heap.freeBlocks = k.heap.freeBlocks + 1) := by
  obtain ⟨m, hm, rfl⟩ := removeBlocked_ok h
  rcases KList.removeSpec_cases k.heap m.queueBlocked t with ⟨hno, he⟩ | ⟨l₁, e, l₂, hl, -, -, he⟩
  · rw [he]
    rw [show (setSem { k with heap := k.heap } s { m with queueBlocked := m.queueBlocked }) = k from
      setSem_self hm]
    refine ⟨hs, le_rfl, ?_⟩
    intro m' hm' hin
    rw [hm, Option.some.injEq] at hm'
    exact absurd (hm' ▸ hin) hno
  · rw [he]
    have hmem : e.node ∈ k.held (.blocked s) := by simp [held_blocked hm, hl]
    have hb : (k.heap.kmfree e.node).2.freeBlocks = k.heap.freeBlocks + 1 :=
      hs.node_blocks (fun _ => Iff.rfl) hmem
    refine ⟨hs.free hmem rfl ?_ ?_, ?_, fun _ _ _ => hb⟩
    · rw [setQueue_held _ hm, Function.update_self, held_blocked hm, hl]
      simp only [KList.nodes_append, KList.nodes_cons]
      exact erase_perm _
    · intro o' ho
      rw [setQueue_held _ hm, Function.update_of_ne ho]
    · exact (Nat.le_succ _).trans hb.ge

theorem removeThreadFromSleep_stored (t : Tid) (hs : k.Stored start total) :
    (k.removeThreadFromSleep t).2.Stored start total ∧
      k.heap.freeBlocks ≤ (k.removeThreadFromSleep t).2.heap.freeBlocks ∧
      (t ∈ k.listAsleepThreads.items →
        (k.removeThreadFromSleep t).2.heap.freeBlocks = k.heap.freeBlocks + 1) := by
  unfold removeThreadFromSleep
  rcases KList.removeSpec_cases k.heap k.listAsleepThreads t with ⟨hno, he⟩ | ⟨l₁, e, l₂, hl, -, -, he⟩
  · rw [he]
    exact ⟨hs, le_rfl, fun hin => absurd hin hno⟩
  · rw [he]
    have hmem : e.node ∈ k.held .asleep := by simp [held, hl]
    have hb : (k.heap.kmfree e.node).2.freeBlocks = k.heap.freeBlocks + 1 :=
      hs.node_blocks (fun _ => Iff.rfl) hmem
    refine ⟨hs.free hmem rfl ?_ ?_, (Nat.le_succ _).trans hb.ge, fun _ => hb⟩
    · simp only [held, hl, KList.nodes_append, KList.nodes_cons]
      exact erase_perm _
    · intro o' ho
      cases o' <;> first | exact absurd rfl ho | exact .refl _

theorem removeReady_stored (t : Tid) (hs : k.Stored start total) :
    (k.removeReady t).2.Stored start total := by
  unfold removeReady
  rcases KList.removeSpec_cases k.heap k.queueThreads t with ⟨-, he⟩ | ⟨l₁, e, l₂, hl, -, -, he⟩
  · rw [he]
    exact hs
  · rw [he]
    refine hs.free (o := .ready) (p := e.node) (by simp [held, hl]) rfl ?_ ?_
    · simp only [held, hl, KList.nodes_append, KList.nodes_cons]
      exact erase_perm _
    · intro o' ho
      cases o' <;> first | exact absurd rfl ho | exact .refl _

theorem get_stored (hs : k.Stored start total) : k.get.2.Stored start total := by
  unfold get
  cases hq : k.queueThreads with
  | nil =>
    refine hs.congr rfl fun o => ?_
    cases o with
    | ready => simp [held, hq, KList.removeFirst]
    | _ => rfl
  | cons e q =>
    refine hs.free (o := .ready) (p := e.node) (by simp [held, hq]) rfl ?_ fun o' ho => ?_
    · simp [held, hq, KList.removeFirst]
    · cases o' <;> first | exact absurd rfl ho | exact .refl _

/-! Calls that leave the heap alone. -/

/-- Fields of a record other than its stack. -/
theorem modifyThread_held {f : Thread → Thread} (hf : ∀ th, (f th).stack = th.stack) :
    (k.modifyThread t f).held = k.held := by
  funext o
  cases o with
  | tcb t' =>
    by_cases he : t' = t
    · subst he
      cases ht : k.threads t' <;> simp [held, ht]
    · simp [held, he]
  | stack t' =>
    by_cases he : t' = t
    · subst he
      cases ht : k.threads t' <;> simp [held, ht, hf]
    · simp [held, he]
  | _ => rfl

theorem modifyThread_stored {f : Thread → Thread} (hf : ∀ th, (f th).stack = th.stack)
    (hs : k.Stored start total) : (k.modifyThread t f).Stored start total :=
  hs.congr rfl (congrFun (modifyThread_held hf))

theorem note_stored (n : Note) (hs : k.Stored start total) : (k.note n).Stored start total :=
  hs.congr rfl fun o => by cases o <;> rfl

/-- Fields of an open semaphore other than its queue. -/
theorem setSem_stored {m m' : Sem} (hm : k.sems s = some m) (hq : m'.queueBlocked = m.queueBlocked)
    (hs : k.Stored start total) : (k.setSem s m').Stored start total := by
  refine hs.congr rfl fun o => ?_
  rw [show k.setSem s m' = setSem { k with heap := k.heap } s m' from rfl, setQueue_held m' hm, hq,
    ← held_blocked hm, Function.update_eq_self]

theorem addVal_stored {d : ℤ} {r : ℤ × Kernel} (h : k.addVal s d = .ok r)
    (hs : k.Stored start total) : r.2.Stored start total ∧ r.2.heap = k.heap := by
  obtain ⟨m, hm, -, rfl⟩ := addVal_ok h
  exact ⟨setSem_stored hm rfl hs, rfl⟩

theorem incTimedWaiting_stored (h : k.incTimedWaiting s = .ok k') (hs : k.Stored start total) :
    k'.Stored start total := by
  obtain ⟨m, hm, rfl⟩ := incTimedWaiting_ok h
  exact setSem_stored hm rfl hs

theorem decTimedWaiting_stored (s : SemId) (hs : k.Stored start total) :
    (k.decTimedWaiting s).Stored start total := by
  unfold decTimedWaiting
  cases hm : k.sems s with
  | none => exact note_stored _ hs
  | some m => exact setSem_stored hm rfl hs

theorem setMySem_stored (t : Tid) (q : Option SemId) (hs : k.Stored start total) :
    (k.setMySem t q).Stored start total := modifyThread_stored (fun _ => rfl) hs

theorem setTimeForWakingUp_stored (t : Tid) (n : ℕ) (hs : k.Stored start total) :
    (k.setTimeForWakingUp t n).Stored start total := modifyThread_stored (fun _ => rfl) hs

theorem setThreadState_stored (t : Tid) (st : ThreadState) (hs : k.Stored start total) :
    (k.setThreadState t st).Stored start total := modifyThread_stored (fun _ => rfl) hs

theorem setThreadsSemStatus_stored (t : Tid) (st : SemStatus) (hs : k.Stored start total) :
    (k.setThreadsSemStatus t st).Stored start total :=
  modifyThread_stored (fun th => by split_ifs <;> rfl) hs

theorem cpu_stored (n : ℕ) (hs : k.Stored start total) :
    ({ k with runningThreadCpuTime := n } : Kernel).Stored start total :=
  hs.congr rfl fun o => by cases o <;> rfl

/-! Calls that move threads. -/

theorem release_stored (h : k.release t s cause = .ok k') (hs : k.Stored start total) :
    k'.Stored start total :=
  put_stored h (note_stored _ (setThreadsSemStatus_stored t cause (setMySem_stored t none hs)))

theorem unblock_stored (h : k.unblock s cause = .ok k') (hs : k.Stored start total) :
    k'.Stored start total := by
  obtain ⟨t, k₁, th, hf, -, hr⟩ := unblock_ok h
  have hs₁ := (firstBlocked_stored hf hs).1
  apply release_stored hr
  split_ifs
  · exact (removeThreadFromSleep_stored t hs₁).1
  · exact hs₁

theorem unblockAll_stored {n : ℕ} (h : k.unblockAll s cause n = .ok k')
    (hs : k.Stored start total) : k'.Stored start total := by
  induction n generalizing k with
  | zero =>
    cases h
    exact hs
  | succ n ih =>
    obtain ⟨k₁, r, hu, ha, h⟩ := unblockAll_ok h
    exact ih h (addVal_stored ha (unblock_stored hu hs)).1

theorem signal_stored {r : ℤ × Kernel} (h : k.signal s = .ok r) (hs : k.Stored start total) :
    r.2.Stored start total := by
  obtain ⟨val, k₁, ha, ⟨-, rfl⟩ | ⟨-, k', hu, rfl⟩⟩ := signal_ok h
  · exact note_stored _ (addVal_stored ha hs).1
  · exact unblock_stored hu (note_stored _ (addVal_stored ha hs).1)

theorem unblockedByTime_stored (h : k.unblockedByTime s t = .ok k') (hs : k.Stored start total) :
    k'.Stored start total := by
  obtain ⟨th, -, ⟨-, rfl⟩ | ⟨-, r, k₁, ha, hb, hr⟩⟩ := unblockedByTime_ok h
  · exact hs
  · have hs₁ := (removeThreadFromSleep_stored t (addVal_stored ha hs).1).1
    exact release_stored hr (removeBlocked_stored hb hs₁).1

theorem wakeThreadUp_stored (h : k.wakeThreadUp t = .ok k') (hs : k.Stored start total) :
    k'.Stored start total := by
  cases ht : k.threads t with
  | none =>
    unfold wakeThreadUp at h
    simp only [ht] at h
    cases h
    exact hs
  | some th =>
    have hs₁ := (removeThreadFromSleep_stored t hs).1
    rcases wakeThreadUp_ok h ht with ⟨-, ⟨-, rfl⟩ | ⟨s, -, hu⟩⟩ | ⟨-, ⟨-, hput⟩ | ⟨-, rfl⟩⟩
    · exact hs
    · exact unblockedByTime_stored hu hs
    · exact put_stored hput hs₁
    · exact hs₁

/-- The loops keep the account, as their calls do. -/
theorem foreachWhile_stored {func : Kernel → Tid → Except Fault Kernel}
    {condition : Kernel → Tid → Except Fault Bool} {ts : List Tid}
    (hfunc : ∀ k t k', func k t = .ok k' → k.Stored start total → k'.Stored start total)
    (h : foreachWhile func condition ts k = .ok k') : k.Stored start total → k'.Stored start total :=
  foreachWhile_rel (fun _ => id) (fun h₁ h₂ hs => h₂ (h₁ hs)) hfunc h

theorem wakeAsleepThreadsUp_stored (h : k.incTime.wakeAsleepThreadsUp = .ok k')
    (hs : k.Stored start total) : k'.Stored start total := by
  have htime : k.incTime.Stored start total := hs.congr rfl fun o => by cases o <;> rfl
  exact foreachWhile_stored (fun _ _ _ => wakeThreadUp_stored) h htime

/-! `dispatch`. -/

/-- The stack and the record of a deleted thread are freed. -/
theorem deleteThread_stored (h : k.deleteThread t = .ok k') (hs : k.Stored start total) :
    k'.Stored start total := by
  obtain ⟨th, hth, rfl⟩ := deleteThread_ok h
  have hstack : th.stack ∈ k.held (.stack t) := by simp [held, hth]
  have htcb : k.threadAddr t ∈ k.held (.tcb t) := by simp [held, hth]
  have hfree := (hs.allotted.free hstack).free (o := .tcb t) (p := k.threadAddr t) (by
    rwa [Function.update_of_ne (by simp)])
  have hwf := Heap.kmfree_wf (p := th.stack) hs.wf
  refine ⟨Heap.kmfree_wf hwf, ?_⟩
  rw [Heap.kmfree_sizeAt hwf, Heap.kmfree_sizeAt hs.wf]
  refine hfree.perm fun o => .of_eq ?_
  cases o with
  | tcb t' =>
    by_cases he : t' = t
    · subst he
      simp [held, hth]
    · simp [held, he]
  | stack t' =>
    by_cases he : t' = t
    · subst he
      simp [held, hth]
    · simp [held, he]
  | _ => simp [held]

theorem deleteThreadInDispatch_stored (h : k.deleteThreadInDispatch t = .ok k')
    (hs : k.Stored start total) : k'.Stored start total := by
  have hs₁ := removeReady_stored t hs
  unfold deleteThreadInDispatch at h
  dsimp only at h
  split_ifs at h
  · exact deleteThread_stored h hs₁
  · cases h
    exact hs₁

theorem leave_stored (h : k.leave = .ok k') (hs : k.Stored start total) : k'.Stored start total := by
  obtain ⟨th, -, ⟨-, hput⟩ | ⟨-, rfl⟩ | ⟨-, hd⟩⟩ := leave_ok h
  · exact put_stored hput (setThreadState_stored _ _ hs)
  · exact hs
  · exact deleteThread_stored hd hs

theorem saveContext_stored (t : Tid) (c : Context) (hs : k.Stored start total) :
    (k.saveContext t c).Stored start total := by
  unfold saveContext
  split_ifs
  · exact modifyThread_stored (fun _ => rfl) hs
  · exact note_stored _ hs

theorem generateWaitResponses_stored (h : k.generateWaitResponses s = .ok k')
    (hs : k.Stored start total) : k'.Stored start total := by
  obtain ⟨th, a, -, -, rfl⟩ := generateWaitResponses_ok h
  exact note_stored _ (setThreadsSemStatus_stored _ _ hs)

theorem resume_stored (h : k.resume = .ok k') (hs : k.Stored start total) :
    k'.Stored start total := by
  have hs₁ := setMySem_stored k.running none hs
  obtain ⟨th, -, ⟨-, rfl⟩ | ⟨s, -, hb⟩ | ⟨s, -, hb⟩ | ⟨-, rfl⟩⟩ := resume_ok h
  · exact hs
  · exact generateWaitResponses_stored hb hs₁
  · exact generateWaitResponses_stored hb
      (setTimeForWakingUp_stored _ _ (decTimedWaiting_stored s hs₁))
  · exact setTimeForWakingUp_stored _ _ (setThreadState_stored _ _ hs)

theorem arrive_stored (h : k.arrive c = .ok k') (hs : k.Stored start total) :
    k'.Stored start total := by
  obtain ⟨k₁, t, hsweep, -, hr⟩ := arrive_ok h
  have hs₁ := get_stored (foreachWhile_stored (fun _ _ _ => deleteThreadInDispatch_stored) hsweep hs)
  have hrun : ({ k₁.get.2 with running := t } : Kernel).Stored start total :=
    hs₁.congr rfl fun o => by cases o <;> rfl
  exact resume_stored hr (saveContext_stored _ _ (setThreadState_stored _ _ hrun))

theorem dispatch_stored (h : k.dispatch c = .ok k') (hs : k.Stored start total) :
    k'.Stored start total := by
  obtain ⟨k₁, hl, ha⟩ := dispatch_ok h
  exact arrive_stored ha (leave_stored hl (cpu_stored 0 hs))

/-! The system calls. -/

theorem decNumOfChildren_stored (t : Tid) (hs : k.Stored start total) :
    (k.decNumOfChildren t).Stored start total := by
  unfold decNumOfChildren
  split_ifs
  · exact modifyThread_stored (fun _ => rfl) hs
  · exact note_stored _ hs

theorem exit_stored (h : k.exit = .ok k') (hs : k.Stored start total) : k'.Stored start total := by
  obtain ⟨th, k₁, -, hk₁, hd⟩ := exit_ok h
  have hs₁ : k₁.Stored start total := by
    rcases hk₁ with ⟨rfl, -⟩ | ⟨p, -, rfl⟩
    · exact hs
    · exact decNumOfChildren_stored p hs
  exact dispatch_stored hd (modifyThread_stored (fun _ => rfl) hs₁)

theorem subtleKill_stored (t : Tid) (hs : k.Stored start total) :
    (k.subtleKill t).2.Stored start total := by
  unfold subtleKill
  split
  · exact hs
  · split_ifs
    · exact hs
    · exact hs
    · exact modifyThread_stored (fun _ => rfl) hs

theorem wait_stored (h : k.wait s = .ok k') (hs : k.Stored start total) : k'.Stored start total := by
  obtain ⟨r, ha, ⟨-, rfl⟩ | ⟨-, hb⟩⟩ := wait_ok h
  · exact note_stored _ (addVal_stored ha hs).1
  · obtain ⟨k₁, hadd, hd⟩ := block_ok hb
    exact dispatch_stored hd (setMySem_stored _ _ (setThreadsSemStatus_stored _ _
      (addBlocked_stored hadd (addVal_stored ha hs).1)))

theorem timedWait_stored {m : UInt64} {loc : Tid → Place} (h : k.timedWait s m = .ok k')
    (hl : k.Located loc) (hs : k.Stored start total) : k'.Stored start total := by
  obtain ⟨r, ha, ⟨-, rfl⟩ | ⟨-, k₁, k₂, k₃, hadd, hne, hi, hn, -, hd⟩⟩ := timedWait_parks h hl
  · exact note_stored _ (addVal_stored ha hs).1
  · have hs₀ : (r.2.timing k.running (wrap (m.toNat + r.2.sysTime))).Stored start total :=
      setTimeForWakingUp_stored _ _ (setThreadsSemStatus_stored _ _ (addVal_stored ha hs).1)
    exact dispatch_stored hd (setMySem_stored _ _ (incTimedWaiting_stored hn
      (insertAsleep_stored hi hne (addBlocked_stored hadd hs₀))))

theorem putThreadToSleep_stored {m : UInt64} {loc : Tid → Place}
    (h : k.putThreadToSleep m = .ok k') (hl : k.Located loc) (hs : k.Stored start total) :
    k'.Stored start total := by
  obtain ⟨k₁, hne, hi, -, hd⟩ := putThreadToSleep_parks h hl
  exact dispatch_stored hd (insertAsleep_stored hi hne
    (setTimeForWakingUp_stored _ _ (setThreadState_stored _ _ hs)))

theorem timerInterruptHandler_stored (h : k.timerInterruptHandler = .ok k')
    (hs : k.Stored start total) : k'.Stored start total := by
  obtain ⟨k₁, th, hw, -, hcase⟩ := timerInterruptHandler_ok h
  have hs₁ := wakeAsleepThreadsUp_stored hw hs
  rcases hcase with ⟨-, hd⟩ | ⟨-, rfl⟩
  · exact dispatch_stored hd hs₁
  · exact hs₁

theorem memAlloc_stored {n : UInt64} {hp : Heap} (h : k.heap.kmalloc n.toNat = some (p, hp))
    (hs : k.Stored start total) :
    ({ k with heap := hp, user := p :: k.user } : Kernel).Stored start total := by
  apply hs.alloc (o := .user) h trivial rfl (.refl _)
  intro o' ho
  cases o' <;> first | exact absurd rfl ho | exact .refl _

theorem memFree_stored (hp : p ∈ k.user ∨ p ∉ k.heap.payloads) (hs : k.Stored start total) :
    ({ k with heap := (k.heap.kmfree p).2, user := k.user.erase p } : Kernel).Stored start
      total := by
  by_cases hu : p ∈ k.user
  · apply hs.free (o := .user) hu rfl (.refl _)
    intro o' ho
    cases o' <;> first | exact absurd rfl ho | exact .refl _
  · have hnone : k.heap.sizeAt p = none := by
      by_contra hne
      exact (hp.resolve_left hu) (Heap.mem_payloads.2 hne)
    refine ⟨Heap.kmfree_wf hs.wf, ?_⟩
    rw [Heap.kmfree_sizeAt hs.wf, ← hnone, Function.update_eq_self]
    refine hs.allotted.perm fun o => .of_eq ?_
    cases o with
    | user => exact List.erase_of_not_mem hu
    | _ => rfl

theorem countChild_held (k : Kernel) : k.countChild.held = k.held :=
  modifyThread_held fun _ => rfl

/-- The blocks of a new thread are its record and its stack. -/
theorem enroll_held {th : Thread} (hnone : k.threads t = none) :
    (k.enroll t p th).held =
      Function.update (Function.update k.held (.tcb t) [p]) (.stack t) [th.stack] := by
  funext o
  cases o with
  | tcb t' =>
    by_cases he : t' = t
    · subst he
      simp [held, enroll]
    · simp [held, enroll, he]
  | stack t' =>
    by_cases he : t' = t
    · subst he
      simp [held, enroll]
    · simp [held, enroll, he]
  | _ => rfl

/-- A new thread takes a record from the heap and its stack from user code. -/
theorem newThread_stored {body : UInt64} {stack : ℕ} (h : k.newThread body stack = .ok k')
    (hi : k.Inv) (hs : k.Stored start total) : k'.Stored start total := by
  obtain ⟨hu, p, hp, k₁, hm, hk₁, rfl⟩ := newThread_ok h
  have hnone : k.threads (k.ID + 1) = none := hi.freshThread _ (Nat.lt_succ_self _)
  obtain ⟨hfree, hsize⟩ := Heap.kmalloc_sizeAt hs.wf hm
  have hrecord : (Owner.tcb (k.ID + 1)).Fits (blocksFor threadSize) := rfl
  have hstack : ∀ n, Owner.user.Fits n → (Owner.stack (k.ID + 1)).Fits n := fun _ _ => trivial
  have hgive := (hs.allotted.alloc hfree hrecord).give (o := .user) (p := stack)
    (by rwa [Function.update_of_ne (by simp)]) (by simp) hstack
  have hmade : (enroll (countChild { k with heap := hp, user := k.user.erase stack }) (k.ID + 1) p
      (k.newborn body stack)).Stored start total := by
    have hnew : (countChild { k with heap := hp, user := k.user.erase stack }).threads
        (k.ID + 1) = none := by
      rw [countChild, modifyThread_threads, Function.update_apply]
      split_ifs with hrun
      · have hrun : k.running = k.ID + 1 := hrun.symm
        simp [hrun, hnone]
      · exact hnone
    refine ⟨Heap.kmalloc_wf hs.wf hm, ?_⟩
    rw [enroll_held hnew, countChild_held]
    refine (hsize ▸ hgive).perm fun o => .of_eq ?_
    cases o with
    | tcb t' =>
      by_cases he : t' = k.ID + 1
      · subst he
        simp [held, hnone]
      · simp [held, he]
    | stack t' =>
      by_cases he : t' = k.ID + 1
      · subst he
        simp [held, hnone, newborn]
      · simp [held, he]
    | _ => simp [held]
  rcases hk₁ with ⟨-, hput⟩ | ⟨-, rfl⟩
  · obtain ⟨node, hq, hn, rfl⟩ := put_ok hput
    refine hmade.alloc (o := .ready) hn rfl rfl ?_ fun o' ho => ?_
    · simp only [held, enroll, countChild, modifyThread_queueThreads, KList.nodes_append,
        KList.nodes_cons, KList.nodes_nil]
      exact List.perm_append_singleton _ _
    · cases o' <;> first | exact absurd rfl ho | exact .refl _
  · exact hmade

theorem newSem_stored {n : UInt64} (h : k.newSem n = .ok k') (hi : k.Inv)
    (hs : k.Stored start total) : k'.Stored start total := by
  obtain ⟨p, hp, node, hp', hm, hn, rfl⟩ := newSem_ok h
  have hnone : k.sems k.nextSem = none := (hi.freshSem _ le_rfl).1
  have hmade : ({ k with
      heap := hp
      sems := Function.update k.sems k.nextSem (some ⟨n.toInt64.toInt, [], 0⟩)
      semAddr := Function.update k.semAddr k.nextSem p } : Kernel).Stored start total := by
    refine hs.alloc (o := .sem k.nextSem) hm rfl rfl ?_ fun o' ho => .of_eq ?_
    · simp [held, hnone]
    · cases o' with
      | sem s' =>
        have he : s' ≠ k.nextSem := fun he => ho (he ▸ rfl)
        simp [held, he]
      | blocked s' =>
        by_cases he : s' = k.nextSem
        · subst he
          simp [held, hnone]
        · simp [held, he]
      | _ => rfl
  refine hmade.alloc (o := .semNode) hn rfl rfl ?_ ?_
  · simp only [held, KList.nodes_append, KList.nodes_cons, KList.nodes_nil]
    exact List.perm_append_singleton _ _
  · intro o' ho
    cases o' <;> first | exact absurd rfl ho | exact .refl _

theorem deleteSem_stored (h : k.deleteSem s = .ok k') (hi : k.Inv) (hs : k.Stored start total) :
    k'.Stored start total := by
  obtain ⟨loc, hl⟩ := hi.located
  obtain ⟨m, k₁, hm, hu, rfl⟩ := deleteSem_ok h
  obtain ⟨m₁, hm₁, hempty⟩ := unblockAll_empties hm hu hi hl
  have hs₁ := unblockAll_stored hu hs
  have hnode : ({ k₁ with
      heap := (KList.removeSpec k₁.heap k₁.allSemaphores s).2.1
      allSemaphores := (KList.removeSpec k₁.heap k₁.allSemaphores s).2.2 } : Kernel).Stored start
        total := by
    rcases KList.removeSpec_cases k₁.heap k₁.allSemaphores s with ⟨-, he⟩ | ⟨l₁, e, l₂, hl, -, -, he⟩
    · rw [he]
      exact hs₁
    · rw [he]
      refine hs₁.free (o := .semNode) (p := e.node) (by simp [held, hl]) rfl ?_ ?_
      · simp only [held, hl, KList.nodes_append, KList.nodes_cons]
        exact erase_perm _
      · intro o' ho
        cases o' <;> first | exact absurd rfl ho | exact .refl _
  refine hnode.free (o := .sem s) (p := k₁.semAddr s) (by simp [held, hm₁]) rfl ?_ fun o' ho => .of_eq ?_
  · simp [held, hm₁]
  · cases o' with
    | sem s' =>
      have he : s' ≠ s := fun he => ho (he ▸ rfl)
      simp [held, he]
    | blocked s' =>
      by_cases he : s' = s
      · subst he
        simp [held, hm₁, hempty]
      · simp [held, he]
    | _ => rfl

/-- Every event keeps the account of the blocks. -/
theorem step_stored {e : Event} (h : k.step e = .ok k') (hi : k.Inv) (hs : k.Stored start total) :
    k'.Stored start total := by
  obtain ⟨loc, hl⟩ := hi.located
  cases step_effect h with
  | idle => exact hs
  | memAlloc p hp hm => exact memAlloc_stored hm hs
  | memFree hp => exact memFree_stored hp hs
  | threadCreate h => exact newThread_stored h hi hs
  | threadExit h => exact exit_stored h hs
  | threadDispatch h => exact dispatch_stored h hs
  | semOpen h => exact newSem_stored h hi hs
  | semClose s h => exact deleteSem_stored h hi hs
  | semWait s h => exact wait_stored h hs
  | semSignal s hr => exact signal_stored hr hs
  | semTimedwait s h => exact timedWait_stored h hl hs
  | semTrywait s hr => exact (addVal_stored hr hs).1
  | timeSleep h => exact putThreadToSleep_stored h hl hs
  | tick h => exact timerInterruptHandler_stored h hs
  | subtleKill t => exact subtleKill_stored t hs

/-- A heap in which `main` could be started has a block. -/
theorem boot_total (h : boot start total = some k) : 1 ≤ total := by
  obtain ⟨stack, hp, p, hp', h₁, -, -⟩ := boot_ok h
  obtain ⟨b, l₁, l₂, hn, -, hfree, hb, -, -⟩ := Heap.kmalloc_some h₁
  have hmem : b ∈ (Heap.init start total).free := hfree ▸ List.mem_append_right _ (by simp)
  obtain rfl : b = ⟨start, total⟩ := List.mem_singleton.1 hmem
  exact hn.trans hb

/-- At boot there are the stack and the record of the thread of `main`. -/
theorem boot_stored (h : boot start total = some k) : k.Stored start total := by
  have hwf : Heap.WF start total (Heap.init start total) := Heap.init_wf (boot_total h)
  obtain ⟨stack, hp, p, hp', h₁, h₂, rfl⟩ := boot_ok h
  have hinit : Allotted Owner.Fits (Heap.init start total).sizeAt fun _ => [] := allotted_nil
  obtain ⟨hn₁, hs₁⟩ := Heap.kmalloc_sizeAt hwf h₁
  have hstack : (Owner.stack mainThread).Fits (blocksFor stackSize) := trivial
  have hrecord : (Owner.tcb mainThread).Fits (blocksFor threadSize) := rfl
  have ha₁ := hinit.alloc hn₁ hstack
  rw [← hs₁] at ha₁
  have hwf₁ := Heap.kmalloc_wf hwf h₁
  obtain ⟨hn₂, hs₂⟩ := Heap.kmalloc_sizeAt hwf₁ h₂
  have ha₂ := ha₁.alloc hn₂ hrecord
  rw [← hs₂] at ha₂
  refine ⟨Heap.kmalloc_wf hwf₁ h₂, ha₂.perm fun o => .of_eq ?_⟩
  cases o with
  | tcb t =>
    by_cases he : t = mainThread <;> simp [held, bootState, he]
  | stack t =>
    by_cases he : t = mainThread <;> simp [held, bootState, he]
  | _ => simp [held, bootState]

theorem run_stored {P : Kernel → Event → Prop} {k₀ : Kernel} {es : List Event}
    (h₀ : boot start total = some k₀) (h : Run step P k₀ es k) :
    k.Inv ∧ k.Stored start total := by
  refine h.invariant (fun k => k.Inv ∧ k.Stored start total)
    ⟨boot_inv h₀, boot_stored h₀⟩ ?_
  rintro k e k' ⟨hi, hs⟩ - hstep
  exact ⟨step_inv hstep hi, step_stored hstep hi hs⟩

end Kernel
end OSK
