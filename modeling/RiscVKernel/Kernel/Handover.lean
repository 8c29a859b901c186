import RiscVKernel.Kernel.Dangling
import RiscVKernel.Kernel.Switching
import RiscVKernel.Memory.Canonical

/-! All that `dispatch` does: which threads it queues, deletes and resumes, which
blocks it frees, and in what order. -/

namespace OSK

open Lib

namespace Heap

variable {start total p : ℕ} {h h' h₂ : Heap} {ps qs : List ℕ}

/-- `ps` are blocks in use that are freed one after the other. -/
def Frees : Heap → List ℕ → Heap → Prop
  | h, [], h' => h' = h
  | h, p :: ps, h' => p ∈ h.payloads ∧ (h.kmfree p).1 = 0 ∧ Frees (h.kmfree p).2 ps h'

theorem Frees.append (hf : h.Frees ps h') (hf' : h'.Frees qs h₂) : h.Frees (ps ++ qs) h₂ := by
  induction ps generalizing h with
  | nil =>
    cases hf
    exact hf'
  | cons p ps ih => exact ⟨hf.1, hf.2.1, ih hf.2.2⟩

/-- A block in use can be freed. -/
theorem WF.frees_one (hw : WF start total h) (hp : p ∈ h.payloads) :
    h.Frees [p] (h.kmfree p).2 := by
  obtain ⟨b, hb, rfl⟩ := List.mem_map.1 hp
  refine ⟨hp, ?_, rfl⟩
  rw [kmfree_live hw hb]

/-- What is freed was in use, and no block is freed twice. -/
theorem Frees.once (hf : h.Frees ps h') (hw : WF start total h) :
    ps.Nodup ∧ ∀ p ∈ ps, p ∈ h.payloads := by
  induction ps generalizing h with
  | nil => simp
  | cons p ps ih =>
    obtain ⟨hp, -, hf⟩ := hf
    obtain ⟨hnd, hin⟩ := ih hf (kmfree_wf hw)
    refine ⟨List.nodup_cons.2 ⟨?_, hnd⟩, ?_⟩
    · intro hmem
      exact ((mem_kmfree hw p).1 (hin p hmem)).1 rfl
    · intro q hq
      rcases List.mem_cons.1 hq with rfl | hq
      · exact hp
      · exact ((mem_kmfree hw q).1 (hin q hq)).2

end Heap

namespace Kernel

variable {k k' k₁ : Kernel} {t : Tid} {c : Context} {th : Thread} {e : Elem Tid} {o : Owner}
  {start total p : ℕ} {q : KList Tid}

/-- The stack and the record of `t`. -/
def ownBlocks (k : Kernel) (t : Tid) : List ℕ :=
  match k.threads t with
  | none => []
  | some th => [th.stack, k.threadAddr t]

/-- The blocks that go with a dead entry of the ready queue. -/
def entryBlocks (k : Kernel) (e : Elem Tid) : List ℕ := e.node :: k.ownBlocks e.data

theorem Stored.held_taken (hs : k.Stored start total) (hp : p ∈ k.held o) : p ∈ k.heap.payloads := by
  obtain ⟨n, hn, -⟩ := hs.allotted.taken o p hp
  exact Heap.mem_payloads.2 (by simp [hn])

/-- Deleting a thread frees its stack and its record. -/
theorem deleteThread_frees (h : k.deleteThread t = .ok k') (hs : k.Stored start total) :
    k.heap.Frees (k.ownBlocks t) k'.heap := by
  obtain ⟨th, hth, rfl⟩ := deleteThread_ok h
  have hstack : th.stack ∈ k.held (.stack t) := by simp [held, hth]
  have htcb : k.threadAddr t ∈ k.held (.tcb t) := by simp [held, hth]
  have hne : k.threadAddr t ≠ th.stack := by
    intro he
    have := hs.allotted.apart (.tcb t) (.stack t) th.stack (he ▸ htcb) hstack
    cases this
  have hrec : k.threadAddr t ∈ (k.heap.kmfree th.stack).2.payloads :=
    (Heap.mem_kmfree hs.wf _).2 ⟨hne, hs.held_taken htcb⟩
  have h₁ := hs.wf.frees_one (hs.held_taken hstack)
  have h₂ := (Heap.kmfree_wf (p := th.stack) hs.wf).frees_one hrec
  unfold ownBlocks
  rw [hth]
  exact h₁.append h₂

theorem removeReady_head (hq : k.queueThreads = e :: q) :
    k.removeReady e.data =
      (true, { k with heap := (k.heap.kmfree e.node).2, queueThreads := q }) := by
  unfold removeReady KList.removeSpec
  simp [hq]

/-- The sweep at a dead entry. -/
theorem deleteThreadInDispatch_head (h : k.deleteThreadInDispatch e.data = .ok k')
    (hq : k.queueThreads = e :: q) (hfin : k.isFinished e.data = true)
    (hs : k.Stored start total) :
    k.heap.Frees (k.entryBlocks e) k'.heap ∧ k'.queueThreads = q ∧
      k'.threads = Function.update k.threads e.data none := by
  have hnode : e.node ∈ k.held .ready := by simp [held, hq]
  have hone := hs.wf.frees_one (hs.held_taken hnode)
  have hs₁ := removeReady_stored e.data hs
  unfold deleteThreadInDispatch at h
  rw [removeReady_head hq] at h hs₁
  dsimp only at h
  cases hth : k.threads e.data with
  | none =>
    have hinv : ({ k with heap := (k.heap.kmfree e.node).2, queueThreads := q } :
        Kernel).isThreadValid e.data = false := by simp [isThreadValid, hth]
    rw [hinv] at h
    cases h
    refine ⟨?_, rfl, ?_⟩
    · unfold entryBlocks ownBlocks
      rw [hth]
      exact hone
    · funext t
      by_cases ht : t = e.data
      · subst ht
        simp [hth]
      · simp [ht]
  | some th =>
    have hval : ({ k with heap := (k.heap.kmfree e.node).2, queueThreads := q } :
        Kernel).isThreadValid e.data = true := by simp [isThreadValid, hth]
    have hfin₁ : ({ k with heap := (k.heap.kmfree e.node).2, queueThreads := q } :
        Kernel).isFinished e.data = true := hfin
    rw [hval, hfin₁] at h
    simp only [Bool.and_self, if_true] at h
    have hfree := deleteThread_frees h hs₁
    obtain ⟨_, -, rfl⟩ := deleteThread_ok h
    exact ⟨hone.append hfree, rfl, rfl⟩

/-- The entries of the ready queue in front of the first live thread. -/
def deadEntries (k : Kernel) : KList Tid := k.queueThreads.takeWhile (k.isFinished ·.data)

theorem entryBlocks_congr (ht : k'.threads e.data = k.threads e.data)
    (ha : k'.threadAddr = k.threadAddr) : k'.entryBlocks e = k.entryBlocks e := by
  unfold entryBlocks ownBlocks
  rw [ht, ha]

/-- The sweep takes the dead entries off the queue and deletes their threads. -/
theorem sweep_frees
    (h : foreachWhile deleteThreadInDispatch threadDead q.items k = .ok k')
    (hq : k.queueThreads = q) (hnd : k.deadEntries.items.Nodup) (hs : k.Stored start total) :
    k.heap.Frees (k.deadEntries.flatMap k.entryBlocks) k'.heap ∧
      k'.queueThreads = q.dropWhile (k.isFinished ·.data) ∧
      ∀ t, k'.threads t = if t ∈ k.deadEntries.items then none else k.threads t := by
  unfold deadEntries at *
  rw [hq] at hnd ⊢
  induction q generalizing k with
  | nil =>
    cases h
    exact ⟨rfl, hq, fun t => by simp⟩
  | cons e q ih =>
    obtain ⟨b, hb, h⟩ := bind_ok h
    have hb : k.isFinished e.data = b := Except.ok.inj hb
    cases b with
    | false =>
      have htake : (e :: q).takeWhile (k.isFinished ·.data) = [] := by simp [hb]
      have hdrop : (e :: q).dropWhile (k.isFinished ·.data) = e :: q := by simp [hb]
      rw [htake, hdrop]
      cases h
      exact ⟨rfl, hq, fun t => by simp⟩
    | true =>
      obtain ⟨k₁, hd, h⟩ := bind_ok h
      obtain ⟨hfree, hq₁, hth₁⟩ := deleteThreadInDispatch_head hd hq hb hs
      have hfin := deleteThreadInDispatch_isFinished hd
      have haddr := (deleteThreadInDispatch_keeps hd).threadAddr
      have htake : (e :: q).takeWhile (k.isFinished ·.data) =
          e :: q.takeWhile (k.isFinished ·.data) := by simp [hb]
      have hdrop : (e :: q).dropWhile (k.isFinished ·.data) =
          q.dropWhile (k.isFinished ·.data) := by simp [hb]
      rw [htake, KList.items_cons, List.nodup_cons] at hnd
      rw [htake, hdrop]
      obtain ⟨hrest, hqueue, hth⟩ := ih h hq₁ (by rw [hfin]; exact hnd.2)
        (deleteThreadInDispatch_stored hd hs)
      rw [hfin] at hrest hqueue hth
      have hblocks : (q.takeWhile (k.isFinished ·.data)).flatMap k₁.entryBlocks =
          (q.takeWhile (k.isFinished ·.data)).flatMap k.entryBlocks := by
        apply List.flatMap_congr
        intro e' he'
        apply entryBlocks_congr _ haddr
        have hne : e'.data ≠ e.data := fun heq => hnd.1 (List.mem_map.2 ⟨e', he', heq⟩)
        rw [hth₁, Function.update_of_ne hne]
      refine ⟨?_, hqueue, ?_⟩
      · rw [hblocks] at hrest
        exact hfree.append hrest
      · intro t
        rw [hth t, hth₁]
        by_cases ht : t = e.data
        · subst ht
          simp
        · simp [ht]

/-! The thread that goes on. -/

theorem generateWaitResponses_frame {s : SemId} (h : k.generateWaitResponses s = .ok k') :
    k'.heap = k.heap ∧ ∀ t ≠ k.running, k'.threads t = k.threads t := by
  obtain ⟨th, a, -, -, rfl⟩ := generateWaitResponses_ok h
  refine ⟨rfl, ?_⟩
  intro t ht
  exact Function.update_of_ne ht _ _

theorem decTimedWaiting_heap (k : Kernel) (s : SemId) : (k.decTimedWaiting s).heap = k.heap := by
  unfold decTimedWaiting
  split <;> rfl

/-- Only the record of the thread itself changes while it gets back to user code. -/
theorem resume_frame (h : k.resume = .ok k') :
    k'.heap = k.heap ∧ ∀ t ≠ k.running, k'.threads t = k.threads t := by
  obtain ⟨th, -, ⟨-, rfl⟩ | ⟨s, -, hb⟩ | ⟨s, -, hb⟩ | ⟨-, rfl⟩⟩ := resume_ok h
  · exact ⟨rfl, fun _ _ => rfl⟩
  · obtain ⟨hh, ht⟩ := generateWaitResponses_frame (k := k.setMySem k.running none) hb
    refine ⟨hh, ?_⟩
    intro t hne
    rw [ht t hne]
    exact Function.update_of_ne hne _ _
  · obtain ⟨hh, ht⟩ := generateWaitResponses_frame hb
    have hrun : ((k.setMySem k.running none).decTimedWaiting s).running = k.running :=
      (decTimedWaiting_stays _ s).running
    refine ⟨hh.trans (decTimedWaiting_heap _ s), ?_⟩
    intro t hne
    rw [ht t (by rw [← hrun] at hne; exact hne), setTimeForWakingUp, modifyThread_threads,
      Function.update_of_ne hne, decTimedWaiting_threads]
    exact Function.update_of_ne hne _ _
  · refine ⟨rfl, ?_⟩
    intro t hne
    exact (Function.update_of_ne hne _ _).trans (Function.update_of_ne hne _ _)

theorem switched_frame (k : Kernel) (t old : Tid) (c : Context) :
    (switched k t old c).heap = k.get.2.heap ∧
      ∀ t', t' ≠ t → t' ≠ old → (switched k t old c).threads t' = k.threads t' := by
  have hset : ∀ t' ≠ t, (setThreadState { k.get.2 with running := t } t .running).threads t' =
      k.threads t' := fun t' ht => Function.update_of_ne ht _ _
  unfold switched saveContext
  split_ifs
  · refine ⟨rfl, ?_⟩
    intro t' ht ho
    exact (Function.update_of_ne ho _ _).trans (hset t' ht)
  · exact ⟨rfl, fun t' ht _ => hset t' ht⟩

/-- The thread that goes on has not finished. -/
theorem resume_alive {old : Tid} (h : (switched k t old c).resume = .ok k')
    (hlive : k.isFinished t = false) : k'.isFinished k'.running = false := by
  have hsome : ((switched k t old c).threads (switched k t old c).running).isSome = true := by
    rw [switched_running, switched_isSome]
    cases hth : k.threads t with
    | none => simp [isFinished, hth] at hlive
    | some th => rfl
  obtain ⟨th', hth'⟩ := Option.isSome_iff_exists.1 hsome
  have hst : th'.threadState = .running := by
    rw [switched_running] at hth'
    obtain ⟨th, -, he, -⟩ := switched_thread hth'
    rw [he, if_pos rfl]
  have hcalm : Calm (fun _ => True) (switched k t old c) k' :=
    resume_calm h hth' hst fun _ _ _ => trivial
  have halive : (switched k t old c).Alive (switched k t old c).running :=
    alive_iff.2 ⟨th', hth', by simp [hst]⟩
  rw [hcalm.running]
  exact ((hcalm.alive _).2 halive).isFinished

/-- `dispatch` after the old thread has left the processor. -/
theorem arrive_spec (h : k.arrive c = .ok k') (hnd : k.deadEntries.items.Nodup)
    (hs : k.Stored start total) :
    ∃ e, k.queueThreads = k.deadEntries ++ e :: k'.queueThreads ∧ k'.running = e.data ∧
      k.isFinished e.data = false ∧ k'.isFinished e.data = false ∧
      k.heap.Frees (k.deadEntries.flatMap k.entryBlocks ++ [e.node]) k'.heap ∧
      (∀ t, k'.threads t = none ↔ t ∈ k.deadEntries.items ∨ k.threads t = none) ∧
      ∀ t, t ∉ k.deadEntries.items → t ≠ k.running → t ≠ e.data → k'.threads t = k.threads t := by
  obtain ⟨k₁, t, hsweep, hg, hr⟩ := arrive_ok h
  obtain ⟨hfree, hq₁, hth₁⟩ := sweep_frees hsweep rfl hnd hs
  have hs₁ := foreachWhile_stored (fun _ _ _ => deleteThreadInDispatch_stored) hsweep hs
  obtain ⟨e, q, hq, rfl, hget⟩ := get_some hg
  have hr : (switched k₁ e.data k.running c).resume = .ok k' := hr
  obtain ⟨hheap, hframe⟩ := resume_frame hr
  obtain ⟨hheap₁, hframe₁⟩ := switched_frame k₁ e.data k.running c
  have hqueue : k'.queueThreads = q := by
    rw [resume_queue hr, switched_queue, hget]
  have hrun : k'.running = e.data := by
    rw [(resume_stays hr).running, switched_running]
  have hlive : k.isFinished e.data = false := by
    have hnot := List.head?_dropWhile_not (fun e : Elem Tid => k.isFinished e.data) k.queueThreads
    rw [← hq₁, hq] at hnot
    simpa using hnot
  have hlive₁ : k₁.isFinished e.data = false := by rwa [(sweep_queue hsweep rfl).2]
  refine ⟨e, ?_, hrun, hlive, ?_, ?_, ?_, ?_⟩
  · rw [hqueue, ← hq, hq₁]
    exact (List.takeWhile_append_dropWhile ..).symm
  · rw [← hrun]
    exact resume_alive hr hlive₁
  · apply hfree.append
    have hnode : e.node ∈ k₁.held .ready := by simp [held, hq]
    rw [hheap, hheap₁, hget]
    exact hs₁.wf.frees_one (hs₁.held_taken hnode)
  · intro t
    have hsome : (k'.threads t).isSome = (k₁.threads t).isSome := by
      rw [(resume_stays hr).isSome, switched_isSome]
    rw [← not_iff_not, ← ne_eq, ← Option.isSome_iff_ne_none, hsome, hth₁]
    split_ifs with hdead <;> simp [hdead, Option.isSome_iff_ne_none]
  · intro t hdead hold hnew
    rw [hframe t (by rw [switched_running]; exact hnew), hframe₁ t hnew hold, hth₁, if_neg hdead]

/-! The thread that gives up the processor. -/

theorem takeWhile_snoc {α : Type} {p : α → Bool} {x : α} (l : List α) (hx : p x = false) :
    (l ++ [x]).takeWhile p = l.takeWhile p := by
  induction l with
  | nil => simp [hx]
  | cons a l ih => simp only [List.cons_append, List.takeWhile_cons, ih]

/-- The records and the queue after the old thread has left the processor. -/
structure Leaves (k : Kernel) (th : Thread) (k₁ : Kernel) : Prop where
  running : k₁.running = k.running
  dead : k₁.deadEntries = k.deadEntries
  isFinished : k₁.isFinished = k.isFinished
  threadAddr : k₁.threadAddr = k.threadAddr
  other : ∀ t ≠ k.running, k₁.threads t = k.threads t
  self : k₁.threads k.running = none ↔ th.threadState = .finished
  enters : Runnable th → ∃ node, k.heap.kmalloc (blocksFor 16) = some (node, k₁.heap) ∧
    k₁.queueThreads = k.queueThreads ++ [⟨node, k.running⟩]
  stays_out : ¬Runnable th → k₁.queueThreads = k.queueThreads
  freed : ¬Runnable th →
    k.heap.Frees (if th.threadState = .finished then k.ownBlocks k.running else []) k₁.heap

theorem leave_isFinished (h : k.leave = .ok k₁) (hth : k.threads k.running = some th) :
    k₁.isFinished = k.isFinished := by
  obtain ⟨-, -, hother⟩ := leave_queue h hth
  have hself : k₁.isFinished k.running = k.isFinished k.running := by
    obtain ⟨th', hth', hcase⟩ := leave_ok h
    obtain rfl : th' = th := Option.some.inj (hth'.symm.trans hth)
    rcases hcase with ⟨hr, -⟩ | ⟨-, rfl⟩ | ⟨hst, hd⟩
    · rw [((leave_queue h hth).1 hr).2]
      rcases hr with hr | hr <;> simp [isFinished, hth, hr]
    · rfl
    · obtain ⟨_, -, rfl⟩ := deleteThread_ok hd
      simp [isFinished, hth, hst]
  funext t
  by_cases ht : t = k.running
  · rw [ht, hself]
  · exact hother t ht

theorem leave_spec (h : k.leave = .ok k₁) (hth : k.threads k.running = some th)
    (hs : k.Stored start total) : k.Leaves th k₁ := by
  have hfin := leave_isFinished h hth
  have hother : ∀ t ≠ k.running, k₁.threads t = k.threads t := fun t ht =>
    congrArg View.thread (leave_other h ht)
  have hdead : k₁.queueThreads = k.queueThreads → k₁.deadEntries = k.deadEntries := by
    intro hq
    unfold deadEntries
    rw [hq, hfin]
  obtain ⟨th', hth', hcase⟩ := leave_ok h
  obtain rfl : th' = th := Option.some.inj (hth'.symm.trans hth)
  rcases hcase with ⟨hr, hput⟩ | ⟨hst, he⟩ | ⟨hst, hd⟩
  · have hlive : k.isFinished k.running = false := by
      rcases hr with hr | hr <;> simp [isFinished, hth, hr]
    obtain ⟨node, hp, hm, he⟩ := put_ok hput
    have hq : k₁.queueThreads = k.queueThreads ++ [⟨node, k.running⟩] := by
      rw [he]
      rfl
    have hheap : k₁.heap = hp := by rw [he]
    refine ⟨leave_running h, ?_, hfin, (leave_keeps h).threadAddr, hother, ?_, ?_, ?_, ?_⟩
    · unfold deadEntries
      rw [hq, hfin]
      exact takeWhile_snoc _ hlive
    · rcases hr with hr | hr <;> simp [he, setThreadState, hth, hr]
    · exact fun _ => ⟨node, hheap ▸ hm, hq⟩
    · exact fun hno => absurd hr hno
    · exact fun hno => absurd hr hno
  · subst he
    refine ⟨rfl, rfl, rfl, rfl, fun _ _ => rfl, ?_, ?_, fun _ => rfl, ?_⟩
    · simp [hth, hst]
    · intro hr
      simp [Runnable, hst] at hr
    · simp [hst, Heap.Frees]
  · have hfree := deleteThread_frees hd hs
    obtain ⟨_, -, he⟩ := deleteThread_ok hd
    have hq : k₁.queueThreads = k.queueThreads := by rw [he]
    refine ⟨leave_running h, hdead hq, hfin, (leave_keeps h).threadAddr, hother, ?_, ?_, ?_, ?_⟩
    · simp [he, hst]
    · intro hr
      simp [Runnable, hst] at hr
    · exact fun _ => hq
    · intro _
      rw [if_pos hst]
      exact hfree

/-! `dispatch`. -/

/-- The blocks freed with a dead entry; the blocks of `old` went when it left. -/
def deadBlocks (k : Kernel) (old : Tid) (e : Elem Tid) : List ℕ :=
  e.node :: if e.data = old then [] else k.ownBlocks e.data

/-- The blocks `dispatch` frees, in this order: stack and record of the running
thread if that is finished, then node, stack and record for each dead entry, and
the node of the new thread. -/
def freedBlocks (k : Kernel) (th : Thread) (e : Elem Tid) : List ℕ :=
  (if th.threadState = .finished then k.ownBlocks k.running else []) ++
    (k.deadEntries.flatMap (k.deadBlocks k.running) ++ [e.node])

/-- What `dispatch` makes of `k`, whose running thread has the record `th`: `heap`
is the heap with the node for the old thread, and `e` the entry of the new one. -/
structure HandsOver (k : Kernel) (th : Thread) (heap : Heap) (e : Elem Tid) (k' : Kernel) :
    Prop where
  enters : Runnable th → ∃ node, k.heap.kmalloc (blocksFor 16) = some (node, heap) ∧
    k.queueThreads ++ [⟨node, k.running⟩] = k.deadEntries ++ e :: k'.queueThreads
  stays_out : ¬Runnable th →
    heap = k.heap ∧ k.queueThreads = k.deadEntries ++ e :: k'.queueThreads
  live : k.isFinished e.data = false
  running : k'.running = e.data
  resumed : k'.isFinished k'.running = false
  freed : heap.Frees (k.freedBlocks th e) k'.heap
  once : (k.freedBlocks th e).Nodup
  deleted : ∀ t, k'.threads t = none ↔ k.threads t = none ∨ t ∈ k.deadEntries.items ∨
    t = k.running ∧ th.threadState = .finished
  untouched : ∀ t, t ∉ k.deadEntries.items → t ≠ k.running → t ≠ e.data →
    k'.threads t = k.threads t

theorem deadEntries_finished {d : Elem Tid} (hd : d ∈ k.deadEntries) : k.isFinished d.data = true :=
  List.mem_takeWhile_imp (p := fun e : Elem Tid => k.isFinished e.data) hd

theorem deadEntries_nodup (hnd : k.queueThreads.items.Nodup) : k.deadEntries.items.Nodup :=
  hnd.sublist ((List.takeWhile_sublist _).map _)

/-- A dead entry of the old thread is that of a finished thread, deleted in `leave`. -/
theorem Leaves.entryBlocks (hl : k.Leaves th k₁) (hth : k.threads k.running = some th)
    {d : Elem Tid} (hd : d ∈ k.deadEntries) : k₁.entryBlocks d = k.deadBlocks k.running d := by
  unfold Kernel.entryBlocks deadBlocks ownBlocks
  by_cases he : d.data = k.running
  · have hfin := deadEntries_finished hd
    rw [he] at hfin ⊢
    have hst : th.threadState = .finished := by simpa [Kernel.isFinished, hth] using hfin
    rw [hl.self.2 hst, if_pos rfl]
  · rw [hl.other _ he, hl.threadAddr, if_neg he]

theorem dispatch_hands (h : k.dispatch c = .ok k') (hth : k.threads k.running = some th)
    (hnd : k.queueThreads.items.Nodup) (hs : k.Stored start total) :
    ∃ heap e, k.HandsOver th heap e k' := by
  obtain ⟨k₁, hlv, ha⟩ := dispatch_ok h
  have hl : k.Leaves th k₁ := { leave_spec hlv hth (cpu_stored 0 hs) with }
  have hs₁ := leave_stored hlv (cpu_stored 0 hs)
  obtain ⟨e, hq, hrun, hlive, hback, hfree, hgone, hframe⟩ :=
    arrive_spec ha (hl.dead ▸ deadEntries_nodup hnd) hs₁
  rw [hl.dead] at hq hfree hgone hframe
  rw [hl.isFinished] at hlive
  have hblocks : k.deadEntries.flatMap k₁.entryBlocks =
      k.deadEntries.flatMap (k.deadBlocks k.running) :=
    List.flatMap_congr fun d hd => hl.entryBlocks hth hd
  rw [hblocks] at hfree
  have hnone : ∀ t, k₁.threads t = none ↔
      k.threads t = none ∨ t = k.running ∧ th.threadState = .finished := by
    intro t
    by_cases ht : t = k.running
    · subst ht
      simp [hl.self, hth]
    · simp [hl.other t ht, ht]
  have hdeleted : ∀ t, k'.threads t = none ↔ k.threads t = none ∨ t ∈ k.deadEntries.items ∨
      t = k.running ∧ th.threadState = .finished := by
    intro t
    rw [hgone t, hnone t]
    tauto
  rw [← hrun] at hback
  by_cases hr : Runnable th
  · obtain ⟨node, hm, hq₁⟩ := hl.enters hr
    have hne : th.threadState ≠ .finished := by
      rcases hr with hr | hr <;> simp [hr]
    have hfreed : k₁.heap.Frees (k.freedBlocks th e) k'.heap := by
      unfold freedBlocks
      rw [if_neg hne]
      exact hfree
    refine ⟨k₁.heap, e, fun _ => ⟨node, hm, hq₁ ▸ hq⟩, fun hno => absurd hr hno, hlive, hrun, hback,
      hfreed, (hfreed.once hs₁.wf).1, hdeleted, ?_⟩
    intro t hdead hold hnew
    rw [hframe t hdead (by rw [hl.running]; exact hold) hnew, hl.other t hold]
  · have hfreed : k.heap.Frees (k.freedBlocks th e) k'.heap := (hl.freed hr).append hfree
    refine ⟨k.heap, e, fun hyes => absurd hyes hr, fun _ => ⟨rfl, hl.stays_out hr ▸ hq⟩, hlive, hrun,
      hback, hfreed, (hfreed.once hs.wf).1, hdeleted, ?_⟩
    intro t hdead hold hnew
    rw [hframe t hdead (by rw [hl.running]; exact hold) hnew, hl.other t hold]

/-- With a thread available, `dispatch` comes back unless the old thread needs a
node and no block is free. -/
theorem dispatch_back (c : Context) (hs : k.Stored start total)
    (hth : k.threads k.running = some th)
    (hlive : Runnable th ∨ ∃ t ∈ k.queueThreads.items, k.isFinished t = false) :
    (∃ k', k.dispatch c = .ok k') ↔ (Runnable th → 0 < k.heap.freeBlocks) := by
  constructor
  · rintro ⟨k', hd⟩ hr
    by_contra hno
    rw [dispatch_starved c hth hr hs (by omega)] at hd
    cases hd
  · intro hroom
    by_cases hr : Runnable th
    · cases hd : k.dispatch c with
      | ok k' => exact ⟨k', rfl⟩
      | error f =>
        have hfull := (dispatch_fault hd hth hr hs).2
        have hfree := hroom hr
        omega
    · obtain ⟨t, ht, htl⟩ := hlive.resolve_left hr
      cases hst : th.threadState with
      | running => exact absurd (Or.inr hst) hr
      | ready => exact absurd (Or.inl hst) hr
      | suspended => exact suspended_dispatch_total c ⟨th, hth, hst⟩ ⟨t, ht, htl⟩
      | finished =>
        refine finished_dispatch_total c hth hst ⟨t, ht, ?_, htl⟩
        rintro rfl
        simp [isFinished, hth, hst] at htl

/-! Runs. -/

/-- A record was there before, or was made in the step. -/
theorem step_recorded {e : Event} (h : k.step e = .ok k') (ht : k'.threads t ≠ none) :
    k.threads t ≠ none ∨ (∃ body stack, e = .threadCreate body stack) ∧ t = k.ID + 1 := by
  obtain ⟨th', hth'⟩ := Option.ne_none_iff_exists'.1 ht
  by_cases hcreate : ∃ body stack, e = .threadCreate body stack
  · obtain ⟨body, stack, rfl⟩ := hcreate
    rcases (newThread_origin h).1 t th' hth' with ⟨rfl, -⟩ | ⟨th, hth, -⟩
    · exact Or.inr ⟨⟨body, stack, rfl⟩, rfl⟩
    · exact Or.inl (by simp [hth])
  by_cases hopen : ∃ n, e = .semOpen n
  · obtain ⟨n, rfl⟩ := hopen
    obtain ⟨p, hp, node, hp', -, -, rfl⟩ := newSem_ok h
    exact Or.inl ht
  · obtain ⟨th, hth, -⟩ := (step_origin h (fun b st he => hcreate ⟨b, st, he⟩)
      fun n he => hopen ⟨n, he⟩).1 t th' hth'
    exact Or.inl (by simp [hth])

/-- A deleted thread stays deleted. -/
theorem step_gone {e : Event} (h : k.step e = .ok k') (ht : t ≤ k.ID) (hgone : k.threads t = none) :
    k'.threads t = none := by
  by_contra hne
  rcases step_recorded h hne with hold | ⟨-, rfl⟩
  · exact hold hgone
  · exact absurd ht (Nat.not_succ_le_self _)

/-- The addresses of the records that were made before. -/
theorem step_threadAddr {e : Event} (h : k.step e = .ok k') (ht : t ≤ k.ID) :
    k'.threadAddr t = k.threadAddr t := by
  cases step_effect h with
  | idle => rfl
  | memAlloc => rfl
  | memFree => rfl
  | threadCreate h =>
    obtain ⟨-, p, hp, k₁, -, hk₁, rfl⟩ := newThread_ok h
    have hne : t ≠ k.ID + 1 := fun he => absurd ht (he ▸ Nat.not_succ_le_self _)
    simp only [enroll, Function.update_of_ne hne]
    rcases hk₁ with ⟨-, hput⟩ | ⟨-, rfl⟩
    · exact congrFun (put_stays hput).threadAddr t
    · rfl
  | threadExit h => exact congrFun (exit_keeps h).threadAddr t
  | threadDispatch h => exact congrFun (dispatch_keeps h).threadAddr t
  | semOpen h =>
    obtain ⟨p, hp, node, hp', -, -, rfl⟩ := newSem_ok h
    rfl
  | semClose s h => exact congrFun (deleteSem_keeps h).threadAddr t
  | semWait s h => exact congrFun (wait_keeps h).threadAddr t
  | semSignal s hr => exact congrFun (signal_stays hr).keeps.threadAddr t
  | semTimedwait s h => exact congrFun (timedWait_keeps h).threadAddr t
  | semTrywait s hr => exact congrFun (addVal_stays hr).keeps.threadAddr t
  | timeSleep h => exact congrFun (putThreadToSleep_keeps h).threadAddr t
  | tick h =>
    obtain ⟨k₁, th, hw, -, ⟨-, hd⟩ | ⟨-, rfl⟩⟩ := timerInterruptHandler_ok h
    · exact congrFun ((wakeAsleepThreadsUp_stays hw).keeps.trans (dispatch_keeps hd)).threadAddr t
    · exact congrFun (wakeAsleepThreadsUp_stays hw).keeps.threadAddr t
  | subtleKill t' => exact congrFun (subtleKill_stays k t').keeps.threadAddr t

theorem run_gone {P : Kernel → Event → Prop} {es : List Event} (h : Run step P k es k') (hi : k.Inv)
    (ht : t ≤ k.ID) (hgone : k.threads t = none) : k'.threads t = none := by
  have hall : k'.Inv ∧ t ≤ k'.ID ∧ k'.threads t = none := by
    apply h.invariant (fun k => k.Inv ∧ t ≤ k.ID ∧ k.threads t = none) ⟨hi, ht, hgone⟩
    rintro k e k' ⟨hi, ht, hgone⟩ - hstep
    exact ⟨step_inv hstep hi, ht.trans (step_fresh hstep hi).2.1, step_gone hstep ht hgone⟩
  exact hall.2.2

/-- For a ready queue of distinct threads, live and finished ones in any order, and
a live thread to go on with: `dispatch` hands the processor over as it should
exactly when it has a block for the node of an old thread that can run. A finished
thread never runs, and a deleted one stays deleted. -/
theorem dispatch_exact (c : Context) (hs : k.Stored start total)
    (hth : k.threads k.running = some th) (hnd : k.queueThreads.items.Nodup)
    (hlive : Runnable th ∨ ∃ t ∈ k.queueThreads.items, k.isFinished t = false) :
    ((∃ k' heap e, k.dispatch c = .ok k' ∧ k.HandsOver th heap e k') ↔
        (Runnable th → 0 < k.heap.freeBlocks)) ∧
      ∀ (s n : ℕ) (k₀ k₁ k₂ : Kernel) (es es' : List Event), boot s n = some k₀ →
        Run step (fun _ _ => True) k₀ es k₁ → Run step (fun _ _ => True) k₁ es' k₂ →
          k₂.isFinished k₂.running = false ∧
            ∀ t ≤ k₁.ID, k₁.threads t = none → k₂.threads t = none := by
  refine ⟨?_, ?_⟩
  · rw [← dispatch_back c hs hth hlive]
    constructor
    · rintro ⟨k', -, -, hd, -⟩
      exact ⟨k', hd⟩
    · rintro ⟨k', hd⟩
      obtain ⟨heap, e, hhands⟩ := dispatch_hands hd hth hnd hs
      exact ⟨k', heap, e, hd, hhands⟩
  · intro s n k₀ k₁ k₂ es es' h₀ h h'
    have hi := run_inv h (boot_inv h₀)
    exact ⟨(run_inv h' hi).running_alive.isFinished, fun t ht hgone => run_gone h' hi ht hgone⟩

instance (th : Thread) : Decidable (Runnable th) :=
  inferInstanceAs (Decidable (th.threadState = .ready ∨ th.threadState = .running))

/-- `main` makes three threads and kills two of them. -/
def killed : List Event :=
  [.memAlloc 65, .threadCreate 4096 5328, .memAlloc 65, .threadCreate 4096 9680,
    .memAlloc 65, .threadCreate 4096 14032, .subtleKill 2, .subtleKill 3]

/-- The two finished threads stand in front of the third, and there are blocks to spare:
`main` hands over to the third, and the other two are deleted. -/
theorem dispatch_exact_finished : ∃ k₀ k th k' heap e, boot 1024 1000 = some k₀ ∧
    Run step (fun _ _ => True) k₀ killed k ∧ k.queueThreads.items = [2, 3, 4] ∧
    k.deadEntries.items = [2, 3] ∧ k.threads k.running = some th ∧ Runnable th ∧
    k.dispatch .toUser = .ok k' ∧ k.HandsOver th heap e k' ∧ k'.running = 4 ∧
    k'.threads 2 = none ∧ k'.threads 3 = none := by
  have hrun : ((boot 1024 1000).bind fun k => exec step (fun _ _ => True) k killed).any
      (fun k => (∃ th ∈ k.threads k.running, Runnable th) ∧ k.queueThreads.items = [2, 3, 4] ∧
        k.deadEntries.items = [2, 3] ∧ 0 < k.heap.freeBlocks ∧
        (k.dispatch .toUser).toOption.map (·.running) = some 4) = true := by
    decide +kernel
  obtain ⟨k₀, k, h₀, h, hq⟩ := exists_run hrun
  obtain ⟨⟨th, hth, hr⟩, hqueue, hdead, hroom, hnext⟩ := of_decide_eq_true hq
  have hnd : k.queueThreads.items.Nodup := hqueue ▸ by decide
  obtain ⟨k', heap, e, hd, hhands⟩ :=
    (dispatch_exact .toUser (run_stored h₀ h).2 hth hnd (Or.inl hr)).1.2 fun _ => hroom
  rw [hd] at hnext
  have hgone : ∀ t ∈ [2, 3], k'.threads t = none := fun t ht =>
    (hhands.deleted t).2 (Or.inr (Or.inl (hdead ▸ ht)))
  exact ⟨k₀, k, th, k', heap, e, h₀, h, hqueue, hdead, hth, hr, hd, hhands, Option.some.inj hnext,
    hgone 2 (by decide), hgone 3 (by decide)⟩

/-- On a heap of 135 blocks the second thread takes the last ones, and `dispatch`
is lost in front of the node for `main`. -/
theorem dispatch_exact_full : ∃ k₀ k th, boot 1024 135 = some k₀ ∧
    Run step (fun _ _ => True) k₀ [.memAlloc 65, .threadCreate 4096 5328] k ∧
      k.threads k.running = some th ∧ Runnable th ∧ k.queueThreads.items.Nodup ∧
      (∃ t ∈ k.queueThreads.items, k.isFinished t = false) ∧
      k.dispatch .toUser = .error .nullNode := by
  have hrun : ((boot 1024 135).bind fun k => exec step (fun _ _ => True) k
      [.memAlloc 65, .threadCreate 4096 5328]).any (fun k => (∃ th ∈ k.threads k.running,
        Runnable th) ∧ k.queueThreads.items.Nodup ∧
          (∃ t ∈ k.queueThreads.items, k.isFinished t = false) ∧ k.heap.freeBlocks = 0) = true := by
    decide +kernel
  obtain ⟨k₀, k, h₀, h, hq⟩ := exists_run hrun
  obtain ⟨⟨th, hth, hr⟩, hnd, hlive, hfull⟩ := of_decide_eq_true hq
  exact ⟨k₀, k, th, h₀, h, hth, hr, hnd, hlive,
    dispatch_starved .toUser hth hr (run_stored h₀ h).2 hfull⟩

end Kernel
end OSK
