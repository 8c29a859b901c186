import RiscVKernel.Kernel.Switching
import RiscVKernel.Kernel.Values

/-! A tick always comes through the sleep list. Waking a thread that slept frees
as many blocks as it takes, and waking one that waited with a timeout frees one
more. -/

namespace OSK

open Lib

/-- A thread in both the queue of a semaphore and the sleep list. -/
def Place.isTimed : Place → Bool
  | .timed _ => true
  | _ => false

theorem takeWhile_congr {α : Type} {p q : α → Bool} {l : List α} (h : ∀ x ∈ l, p x = q x) :
    l.takeWhile p = l.takeWhile q := by
  induction l with
  | nil => rfl
  | cons a l ih =>
    rw [List.takeWhile_cons, List.takeWhile_cons, h a (by simp),
      ih fun x hx => h x (List.mem_cons_of_mem _ hx)]

namespace Kernel

variable {k k' : Kernel} {t : Tid} {s : SemId} {cause : SemStatus} {start total : ℕ} {m : Sem}
  {f : Fault} {loc : Tid → Place} {pend : Tid → Option Context}

/-- What waking the threads of the list takes for granted. -/
structure Sound (start total : ℕ) (k : Kernel) (pend : Tid → Option Context) (loc : Tid → Place) :
    Prop where
  placed : k.Placed pend loc
  cpu : loc k.running = .cpu
  stored : k.Stored start total
  ranged : k.Ranged
  short : ∀ s c, k.counter s = some c → c.Short

theorem put_blocks (h : k.put t = .ok k') : k'.heap.freeBlocks + 1 = k.heap.freeBlocks := by
  obtain ⟨node, hp, hm, rfl⟩ := put_ok h
  have := Heap.kmalloc_blocks hm
  have hone : blocksFor 16 = 1 := by decide
  change hp.freeBlocks + 1 = _
  omega

theorem release_blocks (h : k.release t s cause = .ok k') :
    k'.heap.freeBlocks + 1 = k.heap.freeBlocks := by
  obtain ⟨node, hp, hm, rfl⟩ := put_ok h
  have := Heap.kmalloc_blocks hm
  have hone : blocksFor 16 = 1 := by decide
  change hp.freeBlocks + 1 = k.heap.freeBlocks
  change _ = k.heap.freeBlocks at this
  omega

/-- A semaphore that a thread waits on owes a unit, so that `val++` does not
overflow. -/
theorem Sound.owes (h : Sound start total k pend loc) (hloc : loc t = .blocked s ∨ loc t = .timed s) :
    ∃ m, k.sems s = some m ∧ t ∈ m.queueBlocked.items ∧ m.val < 0 ∧ -2 ^ 63 ≤ m.val := by
  obtain ⟨m, hm, hin⟩ := h.placed.open_queue hloc
  refine ⟨m, hm, hin, ?_, (h.ranged s m hm).1⟩
  have hshort : ((m.queueBlocked.length : ℕ) : ℤ) ≤ max 0 (-m.val) := h.short s _ (counter_some hm)
  have hpos : 0 < m.queueBlocked.length := by
    rw [← KList.length_items]
    exact List.length_pos_of_mem hin
  omega

theorem unblockedByTime_total (h : Sound start total k pend loc) (hloc : loc t = .timed s) :
    ∃ k', k.unblockedByTime s t = .ok k' ∧ k'.heap.freeBlocks = k.heap.freeBlocks + 1 := by
  obtain ⟨th, hth, hfit⟩ := h.placed.record (t := t) (by simp [hloc])
  rw [hloc] at hfit
  obtain ⟨m, hm, hin, hval, hlow⟩ := h.owes (Or.inr hloc)
  obtain ⟨r, ha⟩ : ∃ r, k.addVal s 1 = .ok r := ⟨_, addVal_total hm (by omega) (by omega)⟩
  obtain ⟨hs₁, hheap⟩ := addVal_stored ha h.stored
  have hasleep : t ∈ r.2.listAsleepThreads.items := by
    rw [← List.count_pos_iff, (h.placed.congr (addVal_view ha)).asleep_count, hloc]
    exact Nat.one_pos
  obtain ⟨hs₂, -, hfree₂⟩ := removeThreadFromSleep_stored t hs₁
  have hm₂ : (r.2.removeThreadFromSleep t).2.sems s = some { m with val := m.val + 1 } :=
    addVal_sem ha hm
  obtain ⟨k₁, hb⟩ : ∃ k₁, (r.2.removeThreadFromSleep t).2.removeBlocked s t = .ok k₁ := by
    refine bind_total (a := { m with val := m.val + 1 }) ?_ ⟨_, rfl⟩
    simp only [Kernel.sem, hm₂]
  obtain ⟨hs₃, -, hfree₃⟩ := removeBlocked_stored hb hs₂
  have h₁ := congrArg Heap.freeBlocks hheap
  have h₂ := hfree₂ hasleep
  have h₃ := hfree₃ _ hm₂ hin
  obtain ⟨k', hk'⟩ := release_total t s .timeout hs₃ (by omega)
  have h₄ := release_blocks hk'
  refine ⟨k', ?_, by omega⟩
  unfold unblockedByTime
  simp only [thread, hth, bind, Except.bind, hfit.1, ne_eq, not_true, if_false, ha, hb, hk']

theorem wakeThreadUp_total (h : Sound start total k pend loc)
    (hloc : loc t = .asleep ∨ ∃ s, loc t = .timed s) :
    ∃ k', k.wakeThreadUp t = .ok k' ∧
      k'.heap.freeBlocks = k.heap.freeBlocks + if (loc t).isTimed then 1 else 0 := by
  obtain ⟨th, hth, hfit⟩ := h.placed.record (t := t) (by rcases hloc with h | ⟨s, h⟩ <;> simp [h])
  rcases hloc with hloc | ⟨s, hloc⟩
  · rw [hloc] at hfit
    have hasleep : t ∈ k.listAsleepThreads.items := by
      rw [← List.count_pos_iff, h.placed.asleep_count, hloc]
      exact Nat.one_pos
    obtain ⟨hs₁, -, hfree₁⟩ := removeThreadFromSleep_stored t h.stored
    have h₁ := hfree₁ hasleep
    obtain ⟨k', hput⟩ := put_total t hs₁ (by omega)
    have h₂ := put_blocks hput
    refine ⟨k', ?_, by simp [hloc, Place.isTimed]; omega⟩
    have hfound : (k.removeThreadFromSleep t).1 = true := by
      have : (k.removeThreadFromSleep t).1 = decide (t ∈ k.listAsleepThreads.items) :=
        KList.removeSpec_found ..
      simpa [hasleep] using this
    unfold wakeThreadUp
    simp only [hth, hfit.1, reduceCtorEq, if_false, hfound, if_true, hput]
  · rw [hloc] at hfit
    obtain ⟨k', hu, hfree⟩ := unblockedByTime_total h hloc
    refine ⟨k', ?_, by simp [hloc, Place.isTimed, hfree]⟩
    unfold wakeThreadUp
    simp only [hth, hfit.1, if_true, hfit.2.1, hu]

theorem Sound.wake (h : Sound start total k pend loc) (hw : k.wakeThreadUp t = .ok k')
    (hloc : loc t = .asleep ∨ ∃ s, loc t = .timed s) :
    Sound start total k' pend (Function.update loc t .ready) := by
  have hne : k.running ≠ t := Placed.running_ne h.cpu (by
    rcases hloc with hl | ⟨s, hl⟩ <;> simp [hl])
  refine ⟨(wakeThreadUp_placed hw h.placed h.cpu hloc).1, ?_, wakeThreadUp_stored hw h.stored,
    (wakeThreadUp_ranges hw).ranged h.ranged, fun s c hc => ?_⟩
  · rw [(wakeThreadUp_stays hw).running, Function.update_of_ne hne]
    exact h.cpu
  · have htr : TracksAt (fun _ => False) s k k' := wakeThreadUp_tracks hw h.placed hloc s
    cases h₀ : k.counter s with
    | none =>
      rw [counter_none.2 (htr.closed (counter_none.1 h₀)).1] at hc
      cases hc
    | some c₀ => exact (htr.live c₀ c h₀ hc).short (h.short s c₀ h₀)

/-- The time to wake has come. -/
def due (k : Kernel) (t : Tid) : Bool := k.wakeTime t ≤ k.sysTime

/-- The loop wakes the threads that are due, as far as the first one that is not. -/
theorem wakeLoop_total {ts : List Tid} (h : Sound start total k pend loc)
    (hsl : k.Sleepers pend loc ts) :
    ∃ k', foreachWhile wakeThreadUp shouldWakeUpThread ts k = .ok k' ∧
      k'.heap.freeBlocks =
        k.heap.freeBlocks + (ts.takeWhile k.due).countP fun t => (loc t).isTimed := by
  induction ts generalizing k loc with
  | nil => exact ⟨k, rfl, rfl⟩
  | cons t ts ih =>
    have hloc := hsl.asleep t (by simp)
    obtain ⟨th, hth, -⟩ := h.placed.record (t := t) (by rcases hloc with h | ⟨s, h⟩ <;> simp [h])
    have hcond : k.shouldWakeUpThread t = .ok (k.due t) := by
      simp [shouldWakeUpThread, due, thread, hth, wakeTime, bind, Except.bind, pure, Except.pure]
    cases hdue : k.due t with
    | false =>
      rw [hdue] at hcond
      refine ⟨k, ?_, by rw [List.takeWhile_cons_of_neg (by simp [hdue])]; rfl⟩
      simp only [foreachWhile, hcond]
      rfl
    | true =>
      rw [hdue] at hcond
      have hother := hsl.ne
      obtain ⟨k₁, hw, hfree⟩ := wakeThreadUp_total h hloc
      obtain ⟨hsl₁, hv⟩ := hsl.step hw
      obtain ⟨k', hrest, hfree'⟩ := ih (h.wake hw hloc) hsl₁
      refine ⟨k', ?_, ?_⟩
      · simp only [foreachWhile, hcond, hw]
        exact hrest
      · have htime : ts.takeWhile k₁.due = ts.takeWhile k.due := takeWhile_congr fun t' ht' => by
          rw [due, due, wakeTime_congr (hv t' (hother t' ht')), (wakeThreadUp_stays hw).sysTime]
        have hcount : ∀ t' ∈ ts.takeWhile k.due,
            (Function.update loc t .ready t').isTimed = (loc t').isTimed := fun t' ht' => by
          rw [Function.update_of_ne (hother t' ((List.takeWhile_prefix _).subset ht'))]
        rw [hfree', htime, hfree, List.takeWhile_cons_of_pos hdue, List.countP_cons,
          List.countP_congr fun t' ht' => by rw [hcount t' ht']]
        omega

/-- The heap after a tick has woken the threads that are due. -/
theorem wakeAsleepThreadsUp_total (hi : k.Inv) (hl : k.Located loc) (hs : k.Stored start total)
    (hr : k.Ranged) :
    ∃ k', k.incTime.wakeAsleepThreadsUp = .ok k' ∧ k'.heap.freeBlocks = k.heap.freeBlocks +
      (k.listAsleepThreads.items.takeWhile k.incTime.due).countP fun t => (loc t).isTimed :=
  wakeLoop_total (k := k.incTime)
    ⟨hl.placed.congr fun _ => rfl, hl.running_cpu, hs.congr rfl fun o => by cases o <;> rfl, hr,
      hi.short⟩ hl.sleepers

/-- How many blocks a tick from `k` frees. -/
def wokenBlocks (k : Kernel) (loc : Tid → Place) : ℕ :=
  (k.listAsleepThreads.items.takeWhile k.incTime.due).countP fun t => (loc t).isTimed

theorem Located.runnable (hl : k.Located loc) :
    ∃ th, k.threads k.running = some th ∧ Runnable th := by
  obtain ⟨th, hth, -, hst⟩ := cpu_state hl.placed hl.running_cpu
  exact ⟨th, hth, hst.symm⟩

theorem Located.recorded (hl : k.Located loc) : k.threads k.running ≠ none := by
  obtain ⟨th, hth, -⟩ := hl.runnable
  simp [hth]

/-- The running thread has had its time slice. -/
def expires (k : Kernel) : Bool :=
  match k.threads k.running with
  | none => false
  | some th => th.timeSlice ≤ wrap (k.runningThreadCpuTime + 1)

/-- A tick only fails when it preempts the running thread and there is no block
for its node. -/
theorem tick_fault (h : k.timerInterruptHandler = .error f) (hi : k.Inv) (hl : k.Located loc)
    (hs : k.Stored start total) (hr : k.Ranged) :
    f = .nullNode ∧ k.heap.freeBlocks + k.wokenBlocks loc = 0 ∧ k.expires = true := by
  obtain ⟨k₁, hw, hfree⟩ := wakeAsleepThreadsUp_total hi hl hs hr
  obtain ⟨_, _, -, -, -, hl₁, -⟩ := wake_located hw hl
  obtain ⟨th₁, hth₁, hrun⟩ := hl₁.runnable
  have hstays := wakeAsleepThreadsUp_stays hw
  obtain ⟨th, hth, horigin, -⟩ := hstays.record hth₁
  rw [hstays.running] at hth
  have hslice : th₁.timeSlice = th.timeSlice := congrArg (·.2.2.1) horigin
  rcases bind_error h with he | ⟨k₂, hw', h⟩
  · rw [hw] at he
    cases he
  obtain rfl : k₁ = k₂ := Except.ok.inj (hw.symm.trans hw')
  rcases bind_error h with he | ⟨th₂, hth₂, h⟩
  · simp [thread, hth₁] at he
  obtain rfl : th₁ = th₂ := Option.some.inj (hth₁.symm.trans (thread_ok hth₂))
  split_ifs at h with hle
  · obtain ⟨hf, hfree₁⟩ := dispatch_fault h hth₁ hrun (wakeAsleepThreadsUp_stored hw hs)
    refine ⟨hf, hfree.symm.trans hfree₁, ?_⟩
    have hcpu : k₁.runningThreadCpuTime = wrap (k.runningThreadCpuTime + 1) := hstays.cpuTime
    rw [hslice, hcpu] at hle
    have hth : k.threads k.running = some th := hth
    simpa [expires, hth] using hle
  · cases h

end Kernel
end OSK
