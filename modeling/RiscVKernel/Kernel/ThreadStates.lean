import RiscVKernel.Kernel.Lifetime
import RiscVKernel.Kernel.Switching

/-! The `threadState` of every thread. `dispatch` sets the thread it resumes to
`RUNNING` and the one it takes the processor from to `READY`; a thread that comes
back from `time_sleep` sets itself to `READY` and stays so until it leaves the
processor. -/

namespace OSK

open Lib

namespace Kernel

variable {k k' k₁ k₂ : Kernel} {t : Tid} {s : SemId} {c : Context} {cause : SemStatus}
  {loc : Tid → Place} {th : Thread}

/-- No thread but the running one is `RUNNING`. -/
def OneRunning (k : Kernel) : Prop :=
  ∀ t th, k.threads t = some th → th.threadState = .running → t = k.running

/-- The running thread is `READY` if it came back from `time_sleep` and `RUNNING`
if it came back from anywhere else. -/
structure Stated (k : Kernel) : Prop where
  running : ∀ th, k.threads k.running = some th →
    th.threadState = if th.context = .sleep then .ready else .running
  other : k.OneRunning

/-- A stretch of a call in which the same thread runs on: it stays in its state,
and no other thread comes to be `RUNNING`. -/
structure Steady (k k' : Kernel) : Prop where
  running : k'.running = k.running
  thread : ∀ t th', k'.threads t = some th' → ∃ th, k.threads t = some th ∧
    (th'.threadState = th.threadState ∧ th'.context = th.context ∨
      t ≠ k.running ∧ th'.threadState ≠ .running)

theorem Steady.refl (k : Kernel) : Steady k k :=
  ⟨rfl, fun _ th ht => ⟨th, ht, Or.inl ⟨rfl, rfl⟩⟩⟩

theorem Steady.trans (h : Steady k k') (h' : Steady k' k₂) : Steady k k₂ := by
  refine ⟨h'.running.trans h.running, ?_⟩
  intro t th₂ ht
  obtain ⟨th', ht', hs'⟩ := h'.thread t th₂ ht
  obtain ⟨th, ht, hs⟩ := h.thread t th' ht'
  refine ⟨th, ht, ?_⟩
  rcases hs' with ⟨h1, h2⟩ | ⟨hne, hst⟩
  · rw [h1, h2]
    exact hs
  · exact Or.inr ⟨h.running ▸ hne, hst⟩

theorem Steady.oneRunning (h : Steady k k') (ho : k.OneRunning) : k'.OneRunning := by
  intro t th' ht hst
  obtain ⟨th, hth, ⟨he, -⟩ | ⟨-, hne⟩⟩ := h.thread t th' ht
  · rw [h.running]
    exact ho t th hth (he ▸ hst)
  · exact absurd hst hne

theorem Steady.stated (h : Steady k k') (hs : k.Stated) : k'.Stated := by
  refine ⟨?_, h.oneRunning hs.other⟩
  intro th' ht
  rw [h.running] at ht
  obtain ⟨th, hth, ⟨h1, h2⟩ | ⟨hne, -⟩⟩ := h.thread _ th' ht
  · rw [h1, h2]
    exact hs.running th hth
  · exact absurd rfl hne

/-! Calls that leave the records of the threads alone. -/

theorem steady_of_eq (ht : k'.threads = k.threads) (hr : k'.running = k.running) :
    Steady k k' := by
  refine ⟨hr, ?_⟩
  intro t th h
  rw [ht] at h
  exact ⟨th, h, Or.inl ⟨rfl, rfl⟩⟩

theorem Stated.of_eq (hs : k.Stated) (ht : k'.threads = k.threads) (hr : k'.running = k.running) :
    k'.Stated := (steady_of_eq ht hr).stated hs

theorem put_steady (h : k.put t = .ok k') : Steady k k' := by
  obtain ⟨node, hp, -, rfl⟩ := put_ok h
  exact steady_of_eq rfl rfl

theorem addVal_steady {d : ℤ} {r : ℤ × Kernel} (h : k.addVal s d = .ok r) : Steady k r.2 := by
  obtain ⟨m, -, -, rfl⟩ := addVal_ok h
  exact steady_of_eq rfl rfl

theorem removeBlocked_steady (h : k.removeBlocked s t = .ok k') : Steady k k' := by
  obtain ⟨m, -, rfl⟩ := removeBlocked_ok h
  exact steady_of_eq rfl rfl

theorem removeThreadFromSleep_steady (k : Kernel) (t : Tid) :
    Steady k (k.removeThreadFromSleep t).2 := steady_of_eq rfl rfl

/-! Calls that write records. -/

/-- Fields other than the state and the context. -/
theorem modifyThread_steady {f : Thread → Thread}
    (hf : ∀ th, k.threads t = some th →
      (f th).threadState = th.threadState ∧ (f th).context = th.context) :
    Steady k (k.modifyThread t f) := by
  refine ⟨rfl, ?_⟩
  intro t' th' ht
  by_cases he : t' = t
  · subst he
    simp only [modifyThread_threads, Function.update_self, Option.map_eq_some_iff] at ht
    obtain ⟨th, hth, rfl⟩ := ht
    exact ⟨th, hth, Or.inl (hf th hth)⟩
  · simp only [modifyThread_threads, Function.update_of_ne he] at ht
    exact ⟨th', ht, Or.inl ⟨rfl, rfl⟩⟩

/-- A thread other than the running one, which does not come to be `RUNNING`. -/
theorem modifyOther_steady {f : Thread → Thread} (hne : t ≠ k.running)
    (hf : ∀ th, th.threadState ≠ .finished → (f th).threadState ≠ .running)
    (hfin : ∀ th, th.threadState = .finished → (f th).threadState = .finished) :
    Steady k (k.modifyThread t f) := by
  refine ⟨rfl, ?_⟩
  intro t' th' ht
  by_cases he : t' = t
  · subst he
    simp only [modifyThread_threads, Function.update_self, Option.map_eq_some_iff] at ht
    obtain ⟨th, hth, rfl⟩ := ht
    refine ⟨th, hth, Or.inr ⟨hne, ?_⟩⟩
    by_cases hst : th.threadState = .finished
    · simp [hfin th hst]
    · exact hf th hst
  · simp only [modifyThread_threads, Function.update_of_ne he] at ht
    exact ⟨th', ht, Or.inl ⟨rfl, rfl⟩⟩

/-- Whatever becomes of the record of the running thread, no other one is `RUNNING`. -/
theorem modifyRunning_one (f : Thread → Thread) (ho : k.OneRunning) :
    (k.modifyThread k.running f).OneRunning := by
  intro t th ht hst
  by_contra hne
  change t ≠ k.running at hne
  simp only [modifyThread_threads, Function.update_of_ne hne] at ht
  exact hne (ho t th ht hst)

theorem release_steady (h : k.release t s cause = .ok k') (hne : t ≠ k.running) :
    Steady k k' := by
  have h₁ : Steady k (k.setMySem t none) := modifyThread_steady fun _ _ => ⟨rfl, rfl⟩
  have h₂ : Steady (k.setMySem t none) ((k.setMySem t none).setThreadsSemStatus t cause) := by
    refine modifyOther_steady hne ?_ ?_
    · intro th hth
      have hrun : ¬(k.setMySem t none).running = t := fun he => hne he.symm
      rw [if_neg hth]
      split_ifs <;> simp
    · intro th hth
      rw [if_pos hth]
      exact hth
  have h₃ : Steady ((k.setMySem t none).setThreadsSemStatus t cause)
      (((k.setMySem t none).setThreadsSemStatus t cause).note (.dequeued t s cause)) :=
    steady_of_eq rfl rfl
  exact ((h₁.trans h₂).trans h₃).trans (put_steady h)

/-- The running thread does not stand in the queue of `s`. -/
def Outside (k : Kernel) (s : SemId) : Prop :=
  ∀ m, k.sems s = some m → k.running ∉ m.queueBlocked.items

theorem Located.outside (hl : k.Located loc) (s : SemId) : k.Outside s := by
  intro m hm hmem
  rcases hl.placed.mem_queue hm hmem with h | h <;> simp [hl.running_cpu] at h

theorem addVal_outside {d : ℤ} {r : ℤ × Kernel} (h : k.addVal s d = .ok r) (ho : k.Outside s) :
    r.2.Outside s := by
  obtain ⟨m, hm, -, -⟩ := addVal_ok h
  intro m' hm'
  rw [addVal_sem h hm, Option.some.injEq] at hm'
  subst hm'
  rw [(addVal_stays h).running]
  exact ho m hm

theorem unblock_steady (h : k.unblock s cause = .ok k') (ho : k.Outside s) :
    Steady k k' ∧ k'.Outside s := by
  obtain ⟨m', e', q', hm', hq', hsems⟩ := unblock_sems h
  obtain ⟨t, k₁, th, hf, -, hr⟩ := unblock_ok h
  obtain ⟨m, hm, ⟨-, hr'⟩ | ⟨e, q, hq, he⟩⟩ := firstBlocked_ok hf
  · cases hr'
  cases he
  have hout := ho m hm
  rw [hq, KList.items_cons, List.mem_cons, not_or] at hout
  have hst : Steady k k' := by
    refine Steady.trans ?_ (release_steady hr ?_)
    · split_ifs <;> exact steady_of_eq rfl rfl
    · split_ifs <;> exact Ne.symm hout.1
  refine ⟨hst, ?_⟩
  intro m₂ hm₂
  rw [hst.running]
  have he : m' = m := Option.some.inj (hm'.symm.trans hm)
  subst he
  rw [hsems, Function.update_self, Option.some.injEq] at hm₂
  subst hm₂
  obtain rfl : q' = q := (List.cons.inj (hq'.symm.trans hq)).2
  exact hout.2

theorem unblockAll_steady {n : ℕ} (h : k.unblockAll s cause n = .ok k') (ho : k.Outside s) :
    Steady k k' := by
  induction n generalizing k with
  | zero =>
    cases h
    exact .refl _
  | succ n ih =>
    obtain ⟨k₁, r, hu, ha, h⟩ := unblockAll_ok h
    obtain ⟨hst, ho₁⟩ := unblock_steady hu ho
    exact (hst.trans (addVal_steady ha)).trans (ih h (addVal_outside ha ho₁))

theorem unblockedByTime_steady (h : k.unblockedByTime s t = .ok k') (hne : t ≠ k.running) :
    Steady k k' := by
  obtain ⟨th, -, ⟨-, rfl⟩ | ⟨-, r, k₁, ha, hb, hr⟩⟩ := unblockedByTime_ok h
  · exact .refl _
  · have h₁ := ((addVal_steady ha).trans (removeThreadFromSleep_steady _ t)).trans
      (removeBlocked_steady hb)
    exact h₁.trans (release_steady hr (h₁.running ▸ hne))

theorem wakeThreadUp_steady (h : k.wakeThreadUp t = .ok k') (hne : t ≠ k.running) :
    Steady k k' := by
  cases ht : k.threads t with
  | none =>
    unfold wakeThreadUp at h
    simp only [ht] at h
    cases h
    exact .refl _
  | some th =>
    rcases wakeThreadUp_ok h ht with ⟨-, ⟨-, rfl⟩ | ⟨s, -, hu⟩⟩ | ⟨-, ⟨-, hput⟩ | ⟨-, rfl⟩⟩
    · exact .refl _
    · exact unblockedByTime_steady hu hne
    · exact (removeThreadFromSleep_steady _ _).trans (put_steady hput)
    · exact removeThreadFromSleep_steady _ _

/-- The timer wakes threads other than the running one. -/
theorem wakeLoop_steady {ts : List Tid}
    (h : foreachWhile wakeThreadUp shouldWakeUpThread ts k = .ok k') (hts : k.running ∉ ts) :
    Steady k k' := by
  refine foreachWhile_rel_of (R := Steady) .refl .trans (fun k ts => k.running ∉ ts) ?_ h hts
  intro k t ts k₁ hts hw
  rw [List.mem_cons, not_or] at hts
  have hst := wakeThreadUp_steady hw (Ne.symm hts.1)
  exact ⟨hst, hst.running ▸ hts.2⟩

/-! `dispatch`. -/

/-- A thread takes another one's place: nobody is `RUNNING`. -/
def NoneRunning (k : Kernel) : Prop :=
  ∀ t th, k.threads t = some th → th.threadState ≠ .running

theorem noneRunning_of_sub (hn : k.NoneRunning)
    (h : ∀ t th, k'.threads t = some th → k.threads t = some th) : k'.NoneRunning :=
  fun t th ht => hn t th (h t th ht)

theorem deleteThread_sub (h : k.deleteThread t = .ok k') {t' : Tid} {th' : Thread}
    (ht : k'.threads t' = some th') : t' ≠ t ∧ k.threads t' = some th' := by
  obtain ⟨th, -, rfl⟩ := deleteThread_ok h
  by_cases he : t' = t
  · subst he
    simp at ht
  · simp only [Function.update_of_ne he] at ht
    exact ⟨he, ht⟩

theorem leave_none (h : k.leave = .ok k') (ho : k.OneRunning) : k'.NoneRunning := by
  obtain ⟨th, hth, ⟨-, hput⟩ | ⟨hst, rfl⟩ | ⟨-, hd⟩⟩ := leave_ok h
  · obtain ⟨node, hp, -, rfl⟩ := put_ok hput
    intro t th' ht hst
    by_cases he : t = k.running
    · subst he
      simp only [setThreadState, modifyThread_threads, Function.update_self,
        Option.map_eq_some_iff] at ht
      obtain ⟨th₀, -, rfl⟩ := ht
      cases hst
    · simp only [setThreadState, modifyThread_threads, Function.update_of_ne he] at ht
      exact he (ho t th' ht hst)
  · intro t th' ht hst'
    obtain rfl := ho t th' ht hst'
    obtain rfl := Option.some.inj (hth.symm.trans ht)
    simp [hst] at hst'
  · intro t th' ht hst
    obtain ⟨hne, ht⟩ := deleteThread_sub hd ht
    exact hne (ho t th' ht hst)

theorem sweep_none {ts : List Tid}
    (h : foreachWhile deleteThreadInDispatch threadDead ts k = .ok k') (hn : k.NoneRunning) :
    k'.NoneRunning := by
  refine foreachWhile_rel (R := fun k k' => k.NoneRunning → k'.NoneRunning) (fun _ => id)
    (fun h₁ h₂ hn => h₂ (h₁ hn)) ?_ h hn
  intro k t k' h hn
  unfold deleteThreadInDispatch at h
  dsimp only at h
  split_ifs at h
  · exact noneRunning_of_sub hn fun t' th' ht => (deleteThread_sub h ht).2
  · cases h
    exact hn

/-- A thread that comes back from a wait sets itself to `RUNNING`, which it is. -/
theorem generateWaitResponses_steady (h : k.generateWaitResponses s = .ok k')
    (hst : ∀ th, k.threads k.running = some th → th.threadState = .running) : Steady k k' := by
  obtain ⟨th, a, hth, -, rfl⟩ := generateWaitResponses_ok h
  have h₁ : Steady k (k.setThreadsSemStatus k.running .nonWaiting) := by
    apply modifyThread_steady
    intro th' hth'
    rw [if_neg (by simp [hst th' hth'])]
    simp [hst th' hth']
  exact h₁.trans (steady_of_eq rfl rfl)

/-- A stretch that leaves the running thread `RUNNING`. -/
theorem Steady.still (h : Steady k k')
    (hst : ∀ th, k.threads k.running = some th → th.threadState = .running) :
    ∀ th, k'.threads k'.running = some th → th.threadState = .running := by
  intro th' ht
  rw [h.running] at ht
  obtain ⟨th, hth, ⟨he, -⟩ | ⟨hne, -⟩⟩ := h.thread _ th' ht
  · exact he.trans (hst th hth)
  · exact absurd rfl hne

theorem setMySem_steady (k : Kernel) (t : Tid) (o : Option SemId) : Steady k (k.setMySem t o) :=
  modifyThread_steady fun _ _ => ⟨rfl, rfl⟩

theorem setTimeForWakingUp_steady (k : Kernel) (t : Tid) (n : ℕ) :
    Steady k (k.setTimeForWakingUp t n) := modifyThread_steady fun _ _ => ⟨rfl, rfl⟩

/-- `resume` ends in the state that goes with the context. -/
theorem resume_stated (h : k.resume = .ok k') (ho : k.OneRunning)
    (hst : ∀ th, k.threads k.running = some th → th.threadState = .running) : k'.Stated := by
  obtain ⟨th, hth, hcase⟩ := resume_ok h
  have hs : th.context ≠ .sleep → k.Stated := by
    intro hc
    refine ⟨?_, ho⟩
    intro th' hth'
    obtain rfl := Option.some.inj (hth.symm.trans hth')
    rw [hst th hth, if_neg hc]
  rcases hcase with ⟨hc, rfl⟩ | ⟨s, hc, hb⟩ | ⟨s, hc, hb⟩ | ⟨hc, rfl⟩
  · apply hs
    rcases hc with hc | hc <;> simp [hc]
  · have h₁ := setMySem_steady k k.running none
    exact (h₁.trans (generateWaitResponses_steady hb (h₁.still hst))).stated (hs (by simp [hc]))
  · have hdec : Steady (k.setMySem k.running none) ((k.setMySem k.running none).decTimedWaiting s) :=
      steady_of_eq (decTimedWaiting_threads _ s) (decTimedWaiting_stays _ s).running
    have h₁ := ((setMySem_steady k k.running none).trans hdec).trans
      (setTimeForWakingUp_steady _ k.running 0)
    exact (h₁.trans (generateWaitResponses_steady hb (h₁.still hst))).stated (hs (by simp [hc]))
  · refine (setTimeForWakingUp_steady _ _ 0).stated ⟨?_, modifyRunning_one _ ho⟩
    intro th' hth'
    change (k.setThreadState k.running .ready).threads k.running = some th' at hth'
    simp only [setThreadState, modifyThread_threads, Function.update_self, hth, Option.map_some,
      Option.some.injEq] at hth'
    subst hth'
    simp [hc]

/-- When nobody is `RUNNING`, `arrive` makes one thread so. -/
theorem arrive_stated (h : k.arrive c = .ok k') (hn : k.NoneRunning) : k'.Stated := by
  obtain ⟨k₁, t, hs, hg, hr⟩ := arrive_ok h
  have hn₁ := sweep_none hs hn
  have hrun : (switched k₁ t k.running c).running = t := switched_running ..
  have hstate : ∀ {t' th'}, (switched k₁ t k.running c).threads t' = some th' →
      ∃ th, k₁.threads t' = some th ∧
        th'.threadState = (if t' = t then .running else th.threadState) ∧
        th'.context = if t' = k.running then c else th.context := switched_thread
  refine resume_stated hr ?_ ?_
  · intro t' th' ht hst
    change t' = (switched k₁ t k.running c).running
    rw [hrun]
    obtain ⟨th, hth, he, -⟩ := hstate ht
    by_contra hne
    rw [if_neg hne] at he
    exact hn₁ t' th hth (he ▸ hst)
  · intro th' ht
    change (switched k₁ t k.running c).threads (switched k₁ t k.running c).running = _ at ht
    rw [hrun] at ht
    obtain ⟨th, hth, he, -⟩ := hstate ht
    rw [he, if_pos rfl]

theorem dispatch_stated (h : k.dispatch c = .ok k') (ho : k.OneRunning) : k'.Stated := by
  obtain ⟨k₁, hlv, ha⟩ := dispatch_ok h
  exact arrive_stated ha (leave_none hlv ho)

/-! Any event. -/

theorem decNumOfChildren_steady (k : Kernel) (p : Tid) : Steady k (k.decNumOfChildren p) := by
  unfold decNumOfChildren
  split_ifs
  · exact modifyThread_steady fun _ _ => ⟨rfl, rfl⟩
  · exact steady_of_eq rfl rfl

theorem exit_stated (h : k.exit = .ok k') (hs : k.Stated) : k'.Stated := by
  obtain ⟨th, k₁, -, hk₁, hd⟩ := exit_ok h
  have h₁ : Steady k k₁ := by
    rcases hk₁ with ⟨rfl, -⟩ | ⟨p, -, rfl⟩
    · exact .refl _
    · exact decNumOfChildren_steady k p
  rw [← h₁.running] at hd
  exact dispatch_stated hd (modifyRunning_one _ (h₁.oneRunning hs.other))

/-- A thread that has made itself a place to wait at has changed no other one. -/
theorem Parks.oneRunning {pl : Place} (h : Parks k loc c pl k') (ho : k.OneRunning) :
    k'.OneRunning := by
  intro t th ht hst
  rw [h.running]
  by_contra hne
  have hv : k'.threads t = k.threads t := congrArg View.thread (h.views t hne)
  exact hne (ho t th (hv ▸ ht) hst)

theorem addVal_noted {d : ℤ} {r : ℤ × Kernel} (h : k.addVal s d = .ok r) (n : Note) :
    Steady k (r.2.note n) := by
  have hnote : Steady r.2 (r.2.note n) := steady_of_eq rfl rfl
  exact (addVal_steady h).trans hnote

theorem wait_stated (h : k.wait s = .ok k') (hl : k.Located loc) (hs : k.Stated) : k'.Stated := by
  obtain ⟨r, ha, ⟨-, rfl⟩ | ⟨-, hb⟩⟩ := wait_ok h
  · exact (addVal_noted ha _).stated hs
  · obtain ⟨k₁, hadd, hd⟩ := block_ok hb
    rw [addVal_running ha] at hadd hd
    exact dispatch_stated hd ((block_parks ha hadd hl).oneRunning hs.other)

theorem timedWait_stated {m : UInt64} (h : k.timedWait s m = .ok k') (hl : k.Located loc)
    (hs : k.Stated) : k'.Stated := by
  obtain ⟨r, ha, ⟨-, rfl⟩ | ⟨-, k₁, k₂, k₃, -, -, -, -, hpark, hd⟩⟩ := timedWait_parks h hl
  · exact (addVal_noted ha _).stated hs
  · exact dispatch_stated hd (hpark.oneRunning hs.other)

theorem signal_stated {r : ℤ × Kernel} (h : k.signal s = .ok r) (hl : k.Located loc)
    (hs : k.Stated) : r.2.Stated := by
  obtain ⟨val, k₁, ha, ⟨-, rfl⟩ | ⟨-, k', hu, rfl⟩⟩ := signal_ok h
  · exact (addVal_noted ha _).stated hs
  · have ho : (k₁.note (.signalled s)).Outside s := addVal_outside ha (hl.outside s)
    exact ((addVal_noted ha _).trans (unblock_steady hu ho).1).stated hs

theorem deleteSem_stated (h : k.deleteSem s = .ok k') (hl : k.Located loc) (hs : k.Stated) :
    k'.Stated := by
  obtain ⟨m, k₁, -, hu, rfl⟩ := deleteSem_ok h
  have h₁ := unblockAll_steady hu (hl.outside s)
  have hforget : Steady k₁ (k₁.forgetSem s) := steady_of_eq rfl rfl
  exact (h₁.trans hforget).stated hs

theorem timerInterruptHandler_stated (h : k.timerInterruptHandler = .ok k') (hl : k.Located loc)
    (hs : k.Stated) : k'.Stated := by
  obtain ⟨k₁, th, hw, -, hcase⟩ := timerInterruptHandler_ok h
  have hout : k.running ∉ k.listAsleepThreads.items := by
    intro hmem
    rcases hl.placed.mem_asleep hmem with h | ⟨s, h⟩ <;> simp [hl.running_cpu] at h
  have htime : Steady k k.incTime := steady_of_eq rfl rfl
  have h₁ : Steady k k₁ := htime.trans (wakeLoop_steady hw hout)
  rcases hcase with ⟨-, hd⟩ | ⟨-, rfl⟩
  · exact dispatch_stated hd (h₁.oneRunning hs.other)
  · exact h₁.stated hs

/-- A new thread is `READY`. -/
theorem newThread_stated {body : UInt64} {stack : ℕ} (h : k.newThread body stack = .ok k')
    (hi : k.Inv) (hs : k.Stated) : k'.Stated := by
  obtain ⟨-, p, hp, k₁, -, hk₁, rfl⟩ := newThread_ok h
  have h₁ : Steady k k₁ := by
    rcases hk₁ with ⟨-, hput⟩ | ⟨-, rfl⟩
    · obtain ⟨node, hp', -, rfl⟩ := put_ok hput
      exact steady_of_eq rfl rfl
    · exact steady_of_eq rfl rfl
  have h₂ : Steady k k₁.countChild := h₁.trans (modifyThread_steady fun _ _ => ⟨rfl, rfl⟩)
  have hs₂ := h₂.stated hs
  have hne : k₁.countChild.running ≠ k.ID + 1 := by
    rw [h₂.running]
    exact Nat.ne_of_lt (Nat.lt_succ_of_le hi.running_named)
  refine ⟨?_, ?_⟩
  · intro th ht
    change Function.update k₁.countChild.threads (k.ID + 1) _ k₁.countChild.running = _ at ht
    rw [Function.update_of_ne hne] at ht
    exact hs₂.running th ht
  · intro t th ht hst
    by_cases he : t = k.ID + 1
    · subst he
      simp only [enroll, Function.update_self, Option.some.injEq] at ht
      subst ht
      cases hst
    · simp only [enroll, Function.update_of_ne he] at ht
      exact hs₂.other t th ht hst

theorem subtleKill_stated (k : Kernel) (t : Tid) (hs : k.Stated) : (k.subtleKill t).2.Stated := by
  cases hth : k.threads t with
  | none => simpa only [subtleKill, hth] using hs
  | some th =>
    by_cases hpar : th.parentThread ≠ some k.running
    · simpa only [subtleKill, hth, if_pos hpar] using hs
    by_cases hrun : k.running = t
    · simpa only [subtleKill, hth, if_neg hpar, if_pos hrun] using hs
    have he : (k.subtleKill t).2 = k.setFinished t := by
      simp only [subtleKill, hth, if_neg hpar, if_neg hrun]
    rw [he]
    exact (modifyOther_steady (Ne.symm hrun) (by simp) (by simp)).stated hs

theorem step_stated {e : Event} (h : k.step e = .ok k') (hi : k.Inv) (hs : k.Stated) :
    k'.Stated := by
  obtain ⟨loc, hl⟩ := hi.located
  cases step_effect h with
  | idle => exact hs
  | memAlloc => exact hs.of_eq rfl rfl
  | memFree => exact hs.of_eq rfl rfl
  | threadCreate h => exact newThread_stated h hi hs
  | threadExit h => exact exit_stated h hs
  | threadDispatch h => exact dispatch_stated h hs.other
  | semOpen h =>
    obtain ⟨p, hp, node, hp', -, -, rfl⟩ := newSem_ok h
    exact hs.of_eq rfl rfl
  | semClose s h => exact deleteSem_stated h hl hs
  | semWait s h => exact wait_stated h hl hs
  | semSignal s hr => exact signal_stated hr hl hs
  | semTimedwait s h => exact timedWait_stated h hl hs
  | semTrywait s hr => exact (addVal_steady hr).stated hs
  | timeSleep h =>
    obtain ⟨k₁, -, -, hpark, hd⟩ := putThreadToSleep_parks h hl
    exact dispatch_stated hd (hpark.oneRunning hs.other)
  | tick h => exact timerInterruptHandler_stated h hl hs
  | subtleKill t => exact subtleKill_stated k t hs

theorem boot_stated {start total : ℕ} (h : boot start total = some k) : k.Stated := by
  have hother := fun t (ht : t ≠ mainThread) => boot_threads h ht
  obtain ⟨stack, hp, p, hp', -, -, rfl⟩ := boot_ok h
  refine ⟨?_, ?_⟩
  · intro th ht
    simp only [bootState, Function.update_self, Option.some.injEq] at ht
    subst ht
    simp
  · intro t th ht _
    by_contra hne
    rw [hother t hne] at ht
    cases ht

theorem run_stated {P : Kernel → Event → Prop} {start total : ℕ} {k₀ : Kernel} {es : List Event}
    (h₀ : boot start total = some k₀) (h : Run step P k₀ es k) : k.Stated := by
  have hboth : k.Inv ∧ k.Stated := by
    apply h.invariant (fun k => k.Inv ∧ k.Stated) ⟨boot_inv h₀, boot_stated h₀⟩
    intro k e k' hk _ hs
    exact ⟨step_inv hs hk.1, step_stated hs hk.1 hk.2⟩
  exact hboth.2

/-- The states of the threads by where they are, with `cpu` for the running thread
and `ready` for those of the ready queue. -/
structure StatesFit (cpu ready : Thread → Prop) (k : Kernel) : Prop where
  running : ∃ th, k.threads k.running = some th ∧ cpu th
  other : k.OneRunning
  ready : ∀ t ∈ k.queueThreads.items, ∃ th, k.threads t = some th ∧ ready th
  blocked : ∀ s m, k.sems s = some m → ∀ t ∈ m.queueBlocked.items, ∃ th, k.threads t = some th ∧
    (th.threadState ≠ .finished → th.threadState = .suspended)
  asleep : ∀ t ∈ k.listAsleepThreads.items, ∃ th, k.threads t = some th ∧
    (th.threadState ≠ .finished → th.threadState = .suspended)

/-- The state of a running thread. -/
def Thread.OnCpu (th : Thread) : Prop :=
  th.threadState = if th.context = .sleep then .ready else .running

/-- The states of a thread in the ready queue. -/
def Thread.Queued (th : Thread) : Prop :=
  th.threadState = .ready ∨ th.threadState = .finished ∨
    th.threadState = .suspended ∧ th.context = .sleep

/-- Unfinished threads that wait are `SUSPENDED`. -/
theorem Located.waiting (hl : k.Located loc)
    (h : loc t = .asleep ∨ ∃ s, loc t = .blocked s ∨ loc t = .timed s) :
    ∃ th, k.threads t = some th ∧ (th.threadState ≠ .finished → th.threadState = .suspended) := by
  have hne : loc t ≠ .gone := by
    rcases h with h | ⟨s, h | h⟩ <;> simp [h]
  obtain ⟨th, hth, hfit⟩ := hl.placed.record hne
  refine ⟨th, hth, ?_⟩
  intro hfin
  rcases h with h | ⟨s, h | h⟩
  · rw [h] at hfit
    exact hfit.2.1.resolve_right hfin
  · rw [h] at hfit
    exact hfit.2.2.1.resolve_right hfin
  · rw [h] at hfit
    exact hfit.2.2.1.resolve_right hfin

/-- In every state reached from boot the running thread is `RUNNING`, or `READY`
if it came back from `time_sleep`, and no other thread is `RUNNING`; the threads
of the ready queue are `READY`, finished, or still `SUSPENDED` where the timer
woke them from `time_sleep`; and the unfinished threads that wait at a semaphore or
in the sleep list are `SUSPENDED`. -/
theorem thread_states {start total : ℕ} {k₀ k : Kernel} {es : List Event}
    (h₀ : boot start total = some k₀) (h : Run step (fun _ _ => True) k₀ es k) :
    k.StatesFit Thread.OnCpu Thread.Queued := by
  obtain ⟨loc, hl⟩ := (run_inv h (boot_inv h₀)).located
  have hs := run_stated h₀ h
  refine ⟨?_, hs.other, ?_, ?_, ?_⟩
  · obtain ⟨th, hth, -⟩ := cpu_state hl.placed hl.running_cpu
    exact ⟨th, hth, hs.running th hth⟩
  · intro t ht
    have hready := hl.placed.mem_ready ht
    obtain ⟨th, hth, hfit⟩ := hl.placed.record (t := t) (by simp [hready])
    rw [hready] at hfit
    refine ⟨th, hth, ?_⟩
    rcases hfit with hfin | ⟨hr | hsus, -⟩
    · exact Or.inr (Or.inl hfin)
    · exact Or.inl hr
    · exact Or.inr (Or.inr hsus)
  · intro s m hm t ht
    exact hl.waiting (Or.inr ⟨s, hl.placed.mem_queue hm ht⟩)
  · intro t ht
    rcases hl.placed.mem_asleep ht with h | ⟨s, h⟩
    · exact hl.waiting (Or.inl h)
    · exact hl.waiting (Or.inr ⟨s, Or.inr h⟩)

/-- `main` sleeps for a tick while the thread it created runs. -/
theorem thread_states_sleep : ∃ k₀ k, boot 1024 1000 = some k₀ ∧
    Run step (fun _ _ => True) k₀ [.memAlloc 65, .threadCreate 4096 5328, .timeSleep 1, .tick] k ∧
      k.StatesFit Thread.OnCpu Thread.Queued := by
  have hrun : ((boot 1024 1000).bind fun k => exec step (fun _ _ => True) k
      [.memAlloc 65, .threadCreate 4096 5328, .timeSleep 1, .tick]).any (fun _ => true) = true := by
    rfl
  obtain ⟨k₀, k, h₀, h, -⟩ := exists_run hrun
  exact ⟨k₀, k, h₀, h, thread_states h₀ h⟩

/-- Woken from `time_sleep`, `main` stands in the ready queue `SUSPENDED`, and after
one more `dispatch` it runs on `READY`. -/
theorem thread_states_woken : ∃ k₀ k₁ k₂, boot 1024 1000 = some k₀ ∧
    Run step (fun _ _ => True) k₀ [.memAlloc 65, .threadCreate 4096 5328, .timeSleep 1, .tick] k₁ ∧
      k₁.step .threadDispatch = .ok k₂ ∧
      ¬k₁.StatesFit (fun _ => True) (fun th => th.threadState = .ready ∨ th.threadState = .finished) ∧
      ¬k₂.StatesFit (fun th => th.threadState = .running) fun _ => True := by
  have hrun : ((boot 1024 1000).bind fun k => exec step (fun _ _ => True) k
      [.memAlloc 65, .threadCreate 4096 5328, .timeSleep 1, .tick]).any (fun k₁ =>
        (∃ t ∈ k₁.queueThreads.items, ∃ th ∈ k₁.threads t, th.threadState = .suspended) ∧
        ((some k₁).bind fun k => exec step (fun _ _ => True) k [.threadDispatch]).any
          (fun k₂ => ∃ th ∈ k₂.threads k₂.running, th.threadState = .ready) = true) =
            true := by
    decide +kernel
  obtain ⟨k₀, k₁, h₀, h, hq⟩ := exists_run hrun
  obtain ⟨⟨t, ht, th, hth, hsus⟩, hq⟩ := of_decide_eq_true hq
  obtain ⟨_, k₂, ⟨⟩, hd, hq⟩ := exists_run hq
  obtain ⟨th₂, hth₂, hready⟩ := of_decide_eq_true hq
  refine ⟨k₀, k₁, k₂, h₀, h, hd.one.2, ?_, ?_⟩
  · intro hfit
    obtain ⟨th', hth', hst⟩ := hfit.ready t ht
    obtain rfl := Option.some.inj ((Option.mem_def.1 hth).symm.trans hth')
    simp [hsus] at hst
  · intro hfit
    obtain ⟨th', hth', hst⟩ := hfit.running
    obtain rfl := Option.some.inj ((Option.mem_def.1 hth₂).symm.trans hth')
    simp [hready] at hst

end Kernel
end OSK
