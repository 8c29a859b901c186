import Mathlib.Data.List.TakeWhile
import RiscVKernel.Kernel.Faults
import RiscVKernel.Kernel.Lifetime
import RiscVKernel.Kernel.Progress

/-! When `dispatch` comes back and what it makes of the ready queue: the old
thread goes to the end if it can run, the dead threads at the front are dropped,
and the first one left runs. -/

namespace OSK

open Lib

namespace Kernel

variable {k k' k₁ : Kernel} {t : Tid} {s : SemId} {c : Context} {th : Thread} {f : Fault}
  {start total : ℕ} {pend : Tid → Option Context} {loc : Tid → Place}

/-! The sweep. -/

theorem deleteThreadInDispatch_total (k : Kernel) (t : Tid) :
    ∃ k', k.deleteThreadInDispatch t = .ok k' := by
  unfold deleteThreadInDispatch
  dsimp only
  split_ifs with hc
  · have hvalid : ((k.removeReady t).2.threads t).isSome = true := by
      simp only [Bool.and_eq_true] at hc
      exact hc.1.2
    obtain ⟨th, hth⟩ := thread_total (Option.isSome_iff_ne_none.1 hvalid)
    exact bind_total hth ⟨_, rfl⟩
  · exact ⟨_, rfl⟩

theorem deleteThreadInDispatch_queue (h : k.deleteThreadInDispatch t = .ok k') :
    k'.queueThreads.items = k.queueThreads.items.erase t := by
  have hq : (k.removeReady t).2.queueThreads.items = k.queueThreads.items.erase t :=
    KList.removeSpec_items ..
  unfold deleteThreadInDispatch at h
  dsimp only at h
  split_ifs at h
  · obtain ⟨th, -, rfl⟩ := deleteThread_ok h
    exact hq
  · cases h
    exact hq

/-- A thread without a record counts as finished, so deleting dead threads is
not seen by `isFinished`. -/
theorem deleteThreadInDispatch_isFinished (h : k.deleteThreadInDispatch t = .ok k') :
    k'.isFinished = k.isFinished := by
  unfold deleteThreadInDispatch at h
  dsimp only at h
  split_ifs at h with hc
  · simp only [Bool.and_eq_true] at hc
    obtain ⟨th, hth, rfl⟩ := deleteThread_ok h
    have hdead : k.isFinished t = true := hc.2
    funext t'
    by_cases ht : t' = t
    · subst ht
      rw [hdead]
      simp [isFinished]
    · simp [isFinished, removeReady, Function.update_of_ne ht]
  · cases h
    rfl

theorem sweep_total (ts : List Tid) (k : Kernel) :
    ∃ k', foreachWhile deleteThreadInDispatch threadDead ts k = .ok k' := by
  induction ts generalizing k with
  | nil => exact ⟨k, rfl⟩
  | cons t ts ih =>
    apply bind_total (a := k.isFinished t) rfl
    cases k.isFinished t with
    | false => exact ⟨k, rfl⟩
    | true =>
      obtain ⟨k₁, hd⟩ := deleteThreadInDispatch_total k t
      exact bind_total hd (ih k₁)

/-- The sweep drops the dead threads in front of the first live one. -/
theorem sweep_queue {ts : List Tid}
    (h : foreachWhile deleteThreadInDispatch threadDead ts k = .ok k')
    (hts : k.queueThreads.items = ts) :
    k'.queueThreads.items = ts.dropWhile k.isFinished ∧ k'.isFinished = k.isFinished := by
  induction ts generalizing k with
  | nil =>
    cases h
    exact ⟨hts, rfl⟩
  | cons t ts ih =>
    obtain ⟨b, hb, h⟩ := bind_ok h
    have hb : k.isFinished t = b := Except.ok.inj hb
    cases b with
    | false =>
      cases h
      rw [List.dropWhile_cons_of_neg (by simp [hb])]
      exact ⟨hts, rfl⟩
    | true =>
      obtain ⟨k₁, hd, h⟩ := bind_ok h
      have hts₁ : k₁.queueThreads.items = ts := by
        rw [deleteThreadInDispatch_queue hd, hts, List.erase_cons_head]
      have hfin := deleteThreadInDispatch_isFinished hd
      obtain ⟨hq, hfin'⟩ := ih h hts₁
      rw [List.dropWhile_cons_of_pos hb, hq, hfin', hfin]
      exact ⟨rfl, rfl⟩

/-! The thread that goes on. -/

theorem generateWaitResponses_total (s : SemId) (ht : k.threads k.running ≠ none) :
    ∃ k', k.generateWaitResponses s = .ok k' := by
  obtain ⟨th, hth⟩ := thread_total ht
  exact bind_total hth ⟨_, rfl⟩

theorem resume_total (ht : k.threads k.running ≠ none) : ∃ k', k.resume = .ok k' := by
  have hback : ∀ {k₁ : Kernel}, Stays k k₁ → k₁.threads k₁.running ≠ none := fun hs => by
    rw [hs.running, ← Option.isSome_iff_ne_none, hs.isSome, Option.isSome_iff_ne_none]
    exact ht
  obtain ⟨th, hth⟩ := thread_total ht
  apply bind_total hth
  cases th.context with
  | threadWrapper => exact ⟨_, rfl⟩
  | toUser => exact ⟨_, rfl⟩
  | block s => exact generateWaitResponses_total s (hback (setMySem_stays k k.running none))
  | timedBlock s => exact generateWaitResponses_total s (hback (afterTimedBlock_before k s))
  | sleep => exact ⟨_, rfl⟩

theorem generateWaitResponses_queue (h : k.generateWaitResponses s = .ok k') :
    k'.queueThreads = k.queueThreads := by
  obtain ⟨th, a, -, -, rfl⟩ := generateWaitResponses_ok h
  rfl

theorem resume_queue (h : k.resume = .ok k') : k'.queueThreads = k.queueThreads := by
  obtain ⟨th, -, ⟨-, rfl⟩ | ⟨s, -, hb⟩ | ⟨s, -, hb⟩ | ⟨-, rfl⟩⟩ := resume_ok h
  · rfl
  · exact generateWaitResponses_queue (k := k.setMySem k.running none) hb
  · apply (generateWaitResponses_queue hb).trans
    unfold decTimedWaiting
    split <;> rfl
  · rfl

/-! `dispatch`. -/

theorem switched_queue (k : Kernel) (t old : Tid) (c : Context) :
    (switched k t old c).queueThreads = k.get.2.queueThreads := by
  unfold switched saveContext
  split_ifs <;> rfl

theorem switched_running (k : Kernel) (t old : Tid) (c : Context) :
    (switched k t old c).running = t := by
  unfold switched saveContext
  split_ifs <;> rfl

/-- The first live thread of the ready queue runs, and those behind it stay. -/
theorem arrive_queue (h : k.arrive c = .ok k') :
    k.queueThreads.items.dropWhile k.isFinished = k'.running :: k'.queueThreads.items := by
  obtain ⟨k₁, t, hs, hg, hr⟩ := arrive_ok h
  obtain ⟨e, q, hq, rfl, hget⟩ := get_some hg
  have hr : (switched k₁ e.data k.running c).resume = .ok k' := hr
  rw [← (sweep_queue hs rfl).1, resume_queue hr, switched_queue, hget, (resume_stays hr).running,
    switched_running, hq]
  rfl

theorem arrive_total (c : Context) (hlive : ∃ t ∈ k.queueThreads.items, k.isFinished t = false) :
    ∃ k', k.arrive c = .ok k' := by
  obtain ⟨k₁, hs⟩ := sweep_total k.queueThreads.items k
  obtain ⟨hq, hfin⟩ := sweep_queue hs rfl
  obtain ⟨t, ht, hlt⟩ := hlive
  apply bind_total hs
  cases hd : k.queueThreads.items.dropWhile k.isFinished with
  | nil =>
    have := List.dropWhile_eq_nil_iff.1 hd t ht
    simp [hlt] at this
  | cons a l =>
    rw [hd] at hq
    obtain ⟨e, q, hk₁, hea, -⟩ := List.map_eq_cons_iff.1 hq
    have hg : k₁.get.1 = some a := by
      unfold get
      rw [hk₁, ← hea]
      rfl
    have hlive : k₁.isFinished a = false := by
      have := List.head?_dropWhile_not k.isFinished k.queueThreads.items
      rw [hd] at this
      rw [hfin]
      simpa using this
    have hrec : k₁.threads a ≠ none := by
      intro hnone
      simp [isFinished, hnone] at hlive
    have hr : ∃ k', (switched k₁ a k.running c).resume = .ok k' := by
      apply resume_total
      rw [switched_running, ← Option.isSome_iff_ne_none, switched_isSome,
        Option.isSome_iff_ne_none]
      exact hrec
    obtain ⟨k', hr⟩ := hr
    refine ⟨k', ?_⟩
    have hget : k₁.get = (some a, k₁.get.2) := Prod.ext hg rfl
    rw [hget]
    exact hr

theorem decNumOfChildren_queue (k : Kernel) (p : Tid) :
    (k.decNumOfChildren p).queueThreads = k.queueThreads := by
  unfold decNumOfChildren
  split_ifs <;> rfl

/-- The thread can stay in the ready queue. -/
def Runnable (th : Thread) : Prop := th.threadState = .ready ∨ th.threadState = .running

theorem put_error_free (h : k.put t = .error f) (hs : k.Stored start total) :
    f = .nullNode ∧ k.heap.freeBlocks = 0 := by
  obtain ⟨rfl, hm⟩ := put_error h
  exact ⟨rfl, (Heap.kmalloc_one_none hs.wf).1 hm⟩

theorem leave_fault (h : k.leave = .error f) (hth : k.threads k.running = some th)
    (hs : k.Stored start total) : f = .nullNode ∧ k.heap.freeBlocks = 0 := by
  rcases bind_error h with ht | ⟨th', ht, h⟩
  · simp [thread, hth] at ht
  obtain rfl : th' = th := Option.some.inj ((thread_ok ht).symm.trans hth)
  dsimp only at h
  split_ifs at h with hr
  · rcases bind_error h with hput | ⟨k₁, hput, h⟩
    · exact put_error_free (k := k.setThreadState k.running .ready) hput
        (setThreadState_stored k.running .ready hs)
    · obtain ⟨node, hp, -, rfl⟩ := put_ok hput
      simp [isFinished, hth] at h
      cases h
  · obtain ⟨k₁, hp, h⟩ := (bind_error h).resolve_left (by rintro ⟨⟩)
    cases hp
    split_ifs at h
    · obtain ⟨k', hd⟩ : ∃ k', k.deleteThread k.running = .ok k' := bind_total ht ⟨_, rfl⟩
      rw [hd] at h
      cases h
    · cases h

/-- What `leave` does to the ready queue. -/
theorem leave_queue (h : k.leave = .ok k₁) (hth : k.threads k.running = some th) :
    (Runnable th → k₁.queueThreads.items = k.queueThreads.items ++ [k.running] ∧
        k₁.isFinished k.running = false) ∧
      (¬Runnable th → k₁.queueThreads = k.queueThreads) ∧
      ∀ t ≠ k.running, k₁.isFinished t = k.isFinished t := by
  have hother : ∀ t ≠ k.running, k₁.isFinished t = k.isFinished t := fun t ht => by
    have : k₁.threads t = k.threads t := congrArg View.thread (leave_other h ht)
    simp [isFinished, this]
  obtain ⟨th', hth', hcase⟩ := leave_ok h
  obtain rfl : th' = th := Option.some.inj (hth'.symm.trans hth)
  rcases hcase with ⟨hr, hput⟩ | ⟨hst, rfl⟩ | ⟨hst, hd⟩
  · obtain ⟨node, hp, -, rfl⟩ := put_ok hput
    refine ⟨fun _ => ⟨by simp, by simp [isFinished, hth]⟩, fun hno => absurd hr hno, hother⟩
  · exact ⟨fun hr => by simp [Runnable, hst] at hr, fun _ => rfl, hother⟩
  · obtain ⟨_, -, rfl⟩ := deleteThread_ok hd
    exact ⟨fun hr => by simp [Runnable, hst] at hr, fun _ => rfl, hother⟩

/-- When the old thread can run, `dispatch` only fails for want of a block for its
node. -/
theorem dispatch_fault (h : k.dispatch c = .error f) (hth : k.threads k.running = some th)
    (hr : Runnable th) (hs : k.Stored start total) : f = .nullNode ∧ k.heap.freeBlocks = 0 := by
  rcases bind_error h with hlv | ⟨k₁, hlv, ha⟩
  · exact leave_fault (k := { k with runningThreadCpuTime := 0 }) hlv hth (cpu_stored 0 hs)
  · have hth₀ : ({ k with runningThreadCpuTime := 0 } : Kernel).threads k.running = some th := hth
    obtain ⟨hin, -⟩ := leave_queue hlv hth₀
    obtain ⟨hq, hfin⟩ := hin hr
    obtain ⟨k', hk'⟩ := arrive_total c ⟨k.running, by simp [hq], hfin⟩
    rw [hk'] at ha
    cases ha

/-- A thread that waits needs no node, so its `dispatch` only needs a thread that
can run. -/
theorem suspended_dispatch_total (c : Context) (hsus : k.Suspended k.running)
    (hlive : ∃ t ∈ k.queueThreads.items, k.isFinished t = false) : ∃ k', k.dispatch c = .ok k' := by
  obtain ⟨th, hth, hst⟩ := hsus
  have hlv : ({ k with runningThreadCpuTime := 0 } : Kernel).leave =
      .ok { k with runningThreadCpuTime := 0 } := by
    unfold leave
    simp [thread, hth, hst, isFinished, bind, Except.bind, pure, Except.pure]
  exact bind_total hlv (arrive_total c hlive)

theorem finished_dispatch_total (c : Context) (hth : k.threads k.running = some th)
    (hst : th.threadState = .finished)
    (hlive : ∃ t ∈ k.queueThreads.items, t ≠ k.running ∧ k.isFinished t = false) :
    ∃ k', k.dispatch c = .ok k' := by
  obtain ⟨t, ht, hne, hfin⟩ := hlive
  have hd : ({ k with runningThreadCpuTime := 0 } : Kernel).leave =
      ({ k with runningThreadCpuTime := 0 } : Kernel).deleteThread k.running := by
    unfold leave
    simp [thread, hth, hst, isFinished, bind, Except.bind, pure, Except.pure]
  obtain ⟨k₁, hk₁⟩ : ∃ k₁, ({ k with runningThreadCpuTime := 0 } : Kernel).leave = .ok k₁ := by
    rw [hd]
    exact bind_total (a := th) (by simp [thread, hth]) ⟨_, rfl⟩
  obtain ⟨-, hout, hother⟩ := leave_queue (k := { k with runningThreadCpuTime := 0 }) hk₁ hth
  have hq := hout (by simp [Runnable, hst])
  exact bind_total hk₁ (arrive_total c ⟨t, hq ▸ ht, (hother t hne).trans hfin⟩)

theorem put_starved (t : Tid) (hs : k.Stored start total) (hb : k.heap.freeBlocks = 0) :
    k.put t = .error .nullNode := by
  have hm := (Heap.kmalloc_one_none hs.wf).2 hb
  unfold put KList.addLast KList.newNode
  rw [show k.heap.kmalloc (blocksFor 16) = none from hm]
  rfl

/-- With no free block a thread that can run is lost. -/
theorem dispatch_starved (c : Context) (hth : k.threads k.running = some th) (hr : Runnable th)
    (hs : k.Stored start total) (hb : k.heap.freeBlocks = 0) : k.dispatch c = .error .nullNode := by
  have hlv : ({ k with runningThreadCpuTime := 0 } : Kernel).leave = .error .nullNode := by
    have hput := put_starved k.running (setThreadState_stored k.running .ready (cpu_stored 0 hs)) hb
    unfold leave
    simp only [thread, hth, bind, Except.bind]
    rw [if_pos (show th.threadState = .ready ∨ th.threadState = .running from hr), hput]
  unfold dispatch
  simp only [hlv]
  rfl

end Kernel
end OSK
