import RiscVKernel.Kernel.Effects

/-! What the calls of the kernel leave alone. `Stays` is for calls inside which
the same thread runs on and no object is made or deleted; `Keeps` is for all
calls that make no object. -/

namespace OSK

open Lib

/-- What a thread was created with. -/
def Thread.origin (th : Thread) : UInt64 × ℕ × ℕ × Option Tid :=
  (th.body, th.stack, th.timeSlice, th.parentThread)

namespace Kernel

structure Stays (k k' : Kernel) : Prop where
  running : k'.running = k.running
  thread : ∀ t, (k'.threads t).map (fun th => (th.origin, th.context)) =
    (k.threads t).map fun th => (th.origin, th.context)
  sem : ∀ s, (k'.sems s).isSome = (k.sems s).isSome
  ID : k'.ID = k.ID
  nextSem : k'.nextSem = k.nextSem
  threadAddr : k'.threadAddr = k.threadAddr
  semAddr : k'.semAddr = k.semAddr
  allSemaphores : k'.allSemaphores = k.allSemaphores
  user : k'.user = k.user
  sysTime : k'.sysTime = k.sysTime
  cpuTime : k'.runningThreadCpuTime = k.runningThreadCpuTime

structure Keeps (k k' : Kernel) : Prop where
  thread : ∀ t th', k'.threads t = some th' → ∃ th, k.threads t = some th ∧ th'.origin = th.origin
  sem : ∀ s, k.sems s = none → k'.sems s = none
  ID : k'.ID = k.ID
  nextSem : k'.nextSem = k.nextSem
  threadAddr : k'.threadAddr = k.threadAddr
  semAddr : k'.semAddr = k.semAddr
  user : k'.user = k.user
  sysTime : k'.sysTime = k.sysTime

variable {k k' k₂ : Kernel} {t : Tid} {s : SemId} {cause : SemStatus} {c : Context}

theorem Stays.refl (k : Kernel) : Stays k k :=
  ⟨rfl, fun _ => rfl, fun _ => rfl, rfl, rfl, rfl, rfl, rfl, rfl, rfl, rfl⟩

theorem Stays.trans (h : Stays k k') (h' : Stays k' k₂) : Stays k k₂ :=
  ⟨h'.running.trans h.running, fun t => (h'.thread t).trans (h.thread t),
    fun s => (h'.sem s).trans (h.sem s), h'.ID.trans h.ID, h'.nextSem.trans h.nextSem,
    h'.threadAddr.trans h.threadAddr, h'.semAddr.trans h.semAddr,
    h'.allSemaphores.trans h.allSemaphores, h'.user.trans h.user, h'.sysTime.trans h.sysTime,
    h'.cpuTime.trans h.cpuTime⟩

theorem Stays.isSome (h : Stays k k') (t : Tid) : (k'.threads t).isSome = (k.threads t).isSome := by
  have := congrArg Option.isSome (h.thread t)
  simpa using this

theorem Stays.record (h : Stays k k') {th' : Thread} (ht : k'.threads t = some th') :
    ∃ th, k.threads t = some th ∧ th'.origin = th.origin ∧ th'.context = th.context := by
  have := h.thread t
  rw [ht, Option.map_some, eq_comm, Option.map_eq_some_iff] at this
  obtain ⟨th, hth, he⟩ := this
  exact ⟨th, hth, (congrArg Prod.fst he).symm, (congrArg Prod.snd he).symm⟩

theorem Stays.keeps (h : Stays k k') : Keeps k k' := by
  refine ⟨?_, ?_, h.ID, h.nextSem, h.threadAddr, h.semAddr, h.user, h.sysTime⟩
  · intro t th' ht
    obtain ⟨th, hth, ho, -⟩ := h.record ht
    exact ⟨th, hth, ho⟩
  · intro s hs
    have := h.sem s
    simpa [hs] using this

theorem Keeps.refl (k : Kernel) : Keeps k k := (Stays.refl k).keeps

theorem Keeps.trans (h : Keeps k k') (h' : Keeps k' k₂) : Keeps k k₂ := by
  refine ⟨fun t th₂ ht => ?_, fun s hs => h'.sem s (h.sem s hs), h'.ID.trans h.ID,
    h'.nextSem.trans h.nextSem, h'.threadAddr.trans h.threadAddr, h'.semAddr.trans h.semAddr,
    h'.user.trans h.user, h'.sysTime.trans h.sysTime⟩
  obtain ⟨th', ht', ho'⟩ := h'.thread t th₂ ht
  obtain ⟨th, ht, ho⟩ := h.thread t th' ht'
  exact ⟨th, ht, ho'.trans ho⟩

theorem Keeps.gone (h : Keeps k k') (ht : k.threads t = none) : k'.threads t = none := by
  cases ht' : k'.threads t with
  | none => rfl
  | some th' =>
    obtain ⟨th, hth, -⟩ := h.thread t th' ht'
    simp [ht] at hth

/-! Calls inside which the same thread runs on. -/

theorem modifyThread_stays (k : Kernel) (t : Tid) (f : Thread → Thread)
    (hf : ∀ th, (f th).origin = th.origin ∧ (f th).context = th.context) :
    Stays k (k.modifyThread t f) := by
  refine ⟨rfl, ?_, fun _ => rfl, rfl, rfl, rfl, rfl, rfl, rfl, rfl, rfl⟩
  intro t'
  by_cases h : t' = t
  · subst h
    cases ht : k.threads t' <;> simp [ht, hf]
  · simp [h]

theorem note_stays (k : Kernel) (n : Note) : Stays k (k.note n) :=
  ⟨rfl, fun _ => rfl, fun _ => rfl, rfl, rfl, rfl, rfl, rfl, rfl, rfl, rfl⟩

theorem setSem_stays {m : Sem} (h : k.sems s = some m) (hp : Heap) (m' : Sem) :
    Stays k (setSem { k with heap := hp } s m') := by
  refine ⟨rfl, fun _ => rfl, ?_, rfl, rfl, rfl, rfl, rfl, rfl, rfl, rfl⟩
  intro s'
  by_cases hs : s' = s
  · subst hs
    simp [h]
  · simp [hs]

theorem lists_stay (k : Kernel) (hp : Heap) (q l : KList Tid) :
    Stays k { k with heap := hp, queueThreads := q, listAsleepThreads := l } :=
  ⟨rfl, fun _ => rfl, fun _ => rfl, rfl, rfl, rfl, rfl, rfl, rfl, rfl, rfl⟩

theorem put_stays (h : k.put t = .ok k') : Stays k k' := by
  obtain ⟨node, hp, -, rfl⟩ := put_ok h
  exact lists_stay k _ _ _

theorem removeThreadFromSleep_stays (k : Kernel) (t : Tid) :
    Stays k (k.removeThreadFromSleep t).2 := lists_stay k _ _ _

theorem removeReady_stays (k : Kernel) (t : Tid) : Stays k (k.removeReady t).2 :=
  lists_stay k _ _ _

theorem get_stays (k : Kernel) : Stays k k.get.2 := lists_stay k _ _ _

theorem insertAsleep_stays (h : k.insertAsleep t = .ok k') : Stays k k' := by
  by_cases ht : k.threads t = none
  · unfold insertAsleep isThreadValid at h
    rw [if_neg (by simp [ht])] at h
    cases h
    exact .refl k
  · obtain ⟨node, hp, -, rfl⟩ := insertAsleep_ok h ht
    exact lists_stay k _ _ _

theorem addVal_stays {d : ℤ} {r : ℤ × Kernel} (h : k.addVal s d = .ok r) : Stays k r.2 := by
  obtain ⟨m, hm, -, rfl⟩ := addVal_ok h
  exact setSem_stays hm k.heap _

theorem addBlocked_stays (h : k.addBlocked s t = .ok k') : Stays k k' := by
  obtain ⟨m, node, hp, hm, -, rfl⟩ := addBlocked_ok h
  exact setSem_stays hm _ _

theorem removeBlocked_stays (h : k.removeBlocked s t = .ok k') : Stays k k' := by
  obtain ⟨m, hm, rfl⟩ := removeBlocked_ok h
  exact setSem_stays hm _ _

theorem firstBlocked_stays (h : k.firstBlocked s = .ok (some t, k')) : Stays k k' := by
  obtain ⟨m, hm, ⟨-, hr⟩ | ⟨e, q, hq, hr⟩⟩ := firstBlocked_ok h
  · cases hr
  · cases hr
    exact setSem_stays hm _ _

theorem incTimedWaiting_ok (h : k.incTimedWaiting s = .ok k') :
    ∃ m, k.sems s = some m ∧
      k' = k.setSem s { m with numOfTimedWaiting := wrap (m.numOfTimedWaiting + 1) } := by
  obtain ⟨m, hm, h⟩ := bind_ok h
  cases h
  exact ⟨m, sem_ok hm, rfl⟩

theorem incTimedWaiting_stays (h : k.incTimedWaiting s = .ok k') : Stays k k' := by
  obtain ⟨m, hm, rfl⟩ := incTimedWaiting_ok h
  exact setSem_stays hm k.heap _

theorem decTimedWaiting_stays (k : Kernel) (s : SemId) : Stays k (k.decTimedWaiting s) := by
  unfold decTimedWaiting
  cases hm : k.sems s with
  | none => exact note_stays _ _
  | some m => exact setSem_stays hm k.heap _

theorem setMySem_stays (k : Kernel) (t : Tid) (o : Option SemId) : Stays k (k.setMySem t o) :=
  modifyThread_stays k t _ fun _ => ⟨rfl, rfl⟩

theorem setTimeForWakingUp_stays (k : Kernel) (t : Tid) (n : ℕ) :
    Stays k (k.setTimeForWakingUp t n) :=
  modifyThread_stays k t _ fun _ => ⟨rfl, rfl⟩

theorem setThreadState_stays (k : Kernel) (t : Tid) (st : ThreadState) :
    Stays k (k.setThreadState t st) :=
  modifyThread_stays k t _ fun _ => ⟨rfl, rfl⟩

theorem setFinished_stays (k : Kernel) (t : Tid) : Stays k (k.setFinished t) :=
  modifyThread_stays k t _ fun _ => ⟨rfl, rfl⟩

theorem setThreadsSemStatus_stays (k : Kernel) (t : Tid) (st : SemStatus) :
    Stays k (k.setThreadsSemStatus t st) :=
  modifyThread_stays k t _ fun th => by split_ifs <;> exact ⟨rfl, rfl⟩

theorem release_stays (h : k.release t s cause = .ok k') : Stays k k' :=
  (((setMySem_stays k t none).trans (setThreadsSemStatus_stays _ t cause)).trans
    (note_stays _ _)).trans (put_stays h)

theorem unblock_ok (h : k.unblock s cause = .ok k') :
    ∃ t k₁ th, k.firstBlocked s = .ok (some t, k₁) ∧ k₁.threads t = some th ∧
      (if th.semStatus = .timedWaiting then (k₁.removeThreadFromSleep t).2 else k₁).release t s cause
        = .ok k' := by
  obtain ⟨⟨r, k₁⟩, hf, h⟩ := bind_ok h
  cases r with
  | none => cases h
  | some t =>
    obtain ⟨th, ht, h⟩ := bind_ok h
    exact ⟨t, k₁, th, hf, thread_ok ht, h⟩

theorem unblock_stays (h : k.unblock s cause = .ok k') : Stays k k' := by
  obtain ⟨t, k₁, th, hf, -, hr⟩ := unblock_ok h
  refine (firstBlocked_stays hf).trans (.trans ?_ (release_stays hr))
  split_ifs
  · exact removeThreadFromSleep_stays _ _
  · exact .refl _

theorem signal_ok {r : ℤ × Kernel} (h : k.signal s = .ok r) :
    ∃ val k₁, k.addVal s 1 = .ok (val, k₁) ∧
      (0 < val ∧ r = (0, k₁.note (.signalled s)) ∨
        val ≤ 0 ∧ ∃ k', (k₁.note (.signalled s)).unblock s .regularlyWaited = .ok k' ∧ r = (1, k')) := by
  obtain ⟨⟨val, k₁⟩, ha, h⟩ := bind_ok h
  refine ⟨val, k₁, ha, ?_⟩
  dsimp only at h
  split_ifs at h with hv
  · cases h
    exact Or.inl ⟨hv, rfl⟩
  · obtain ⟨k', hu, h⟩ := bind_ok h
    cases h
    exact Or.inr ⟨not_lt.1 hv, k', hu, rfl⟩

theorem signal_stays {r : ℤ × Kernel} (h : k.signal s = .ok r) : Stays k r.2 := by
  obtain ⟨val, k₁, ha, ⟨-, rfl⟩ | ⟨-, k', hu, rfl⟩⟩ := signal_ok h
  · exact (addVal_stays ha).trans (note_stays _ _)
  · exact ((addVal_stays ha).trans (note_stays _ _)).trans (unblock_stays hu)

theorem unblockedByTime_ok (h : k.unblockedByTime s t = .ok k') :
    ∃ th, k.threads t = some th ∧
      (th.semStatus ≠ .timedWaiting ∧ k' = k ∨
        th.semStatus = .timedWaiting ∧ ∃ r k₁, k.addVal s 1 = .ok r ∧
          (r.2.removeThreadFromSleep t).2.removeBlocked s t = .ok k₁ ∧
          k₁.release t s .timeout = .ok k') := by
  obtain ⟨th, ht, h⟩ := bind_ok h
  refine ⟨th, thread_ok ht, ?_⟩
  split_ifs at h with hst
  · cases h
    exact Or.inl ⟨hst, rfl⟩
  · obtain ⟨r, ha, h⟩ := bind_ok h
    obtain ⟨k₁, hb, h⟩ := bind_ok h
    exact Or.inr ⟨not_not.1 hst, r, k₁, ha, hb, h⟩

theorem unblockedByTime_stays (h : k.unblockedByTime s t = .ok k') : Stays k k' := by
  obtain ⟨th, -, ⟨-, rfl⟩ | ⟨-, r, k₁, ha, hb, hr⟩⟩ := unblockedByTime_ok h
  · exact .refl _
  · exact (((addVal_stays ha).trans (removeThreadFromSleep_stays _ _)).trans
      (removeBlocked_stays hb)).trans (release_stays hr)

theorem unblockAll_ok {n : ℕ} (h : k.unblockAll s cause (n + 1) = .ok k') :
    ∃ k₁ r, k.unblock s cause = .ok k₁ ∧ k₁.addVal s 1 = .ok r ∧
      r.2.unblockAll s cause n = .ok k' := by
  obtain ⟨k₁, hu, h⟩ := bind_ok h
  obtain ⟨r, ha, h⟩ := bind_ok h
  exact ⟨k₁, r, hu, ha, h⟩

theorem unblockAll_stays {n : ℕ} (h : k.unblockAll s cause n = .ok k') : Stays k k' := by
  induction n generalizing k with
  | zero =>
    cases h
    exact .refl _
  | succ n ih =>
    obtain ⟨k₁, r, hu, ha, h⟩ := unblockAll_ok h
    exact ((unblock_stays hu).trans (addVal_stays ha)).trans (ih h)

theorem tryWait_ok {r : ℤ × Kernel} (h : k.tryWait s = .ok r) :
    ∃ r', k.addVal s (-1) = .ok r' ∧ r.2 = r'.2 := by
  obtain ⟨m, hm, h⟩ := bind_ok h
  obtain ⟨r', ha, h⟩ := bind_ok h
  cases h
  exact ⟨r', ha, rfl⟩

/-- What each of its calls does to the state, the loop does. `Before` holds before
each call, of the state and the threads that are left. -/
theorem foreachWhile_rel_of {R : Kernel → Kernel → Prop} (hrefl : ∀ k, R k k)
    (htrans : ∀ {k₁ k₂ k₃}, R k₁ k₂ → R k₂ k₃ → R k₁ k₃) {func : Kernel → Tid → Except Fault Kernel}
    {condition : Kernel → Tid → Except Fault Bool} (Before : Kernel → List Tid → Prop) {ts : List Tid}
    (hfunc : ∀ k t ts k', Before k (t :: ts) → func k t = .ok k' → R k k' ∧ Before k' ts)
    (h : foreachWhile func condition ts k = .ok k') (h₀ : Before k ts) : R k k' := by
  induction ts generalizing k with
  | nil =>
    cases h
    exact hrefl _
  | cons t ts ih =>
    obtain ⟨b, -, h⟩ := bind_ok h
    cases b with
    | false =>
      cases h
      exact hrefl _
    | true =>
      obtain ⟨k₁, hf, h⟩ := bind_ok h
      obtain ⟨hr, h₁⟩ := hfunc _ _ _ _ h₀ hf
      exact htrans hr (ih h h₁)

theorem foreachWhile_rel {R : Kernel → Kernel → Prop} (hrefl : ∀ k, R k k)
    (htrans : ∀ {k₁ k₂ k₃}, R k₁ k₂ → R k₂ k₃ → R k₁ k₃) {func : Kernel → Tid → Except Fault Kernel}
    {condition : Kernel → Tid → Except Fault Bool} {ts : List Tid}
    (hfunc : ∀ k t k', func k t = .ok k' → R k k')
    (h : foreachWhile func condition ts k = .ok k') : R k k' :=
  foreachWhile_rel_of hrefl htrans (fun _ _ => True)
    (fun k t _ k' _ hf => ⟨hfunc k t k' hf, trivial⟩) h trivial

theorem wakeThreadUp_ok (h : k.wakeThreadUp t = .ok k') {th : Thread} (ht : k.threads t = some th) :
    th.semStatus = .timedWaiting ∧
        (th.mySem = none ∧ k' = k ∨ ∃ s, th.mySem = some s ∧ k.unblockedByTime s t = .ok k') ∨
      th.semStatus ≠ .timedWaiting ∧
        (t ∈ k.listAsleepThreads.items ∧ (k.removeThreadFromSleep t).2.put t = .ok k' ∨
          t ∉ k.listAsleepThreads.items ∧ k' = (k.removeThreadFromSleep t).2) := by
  have hfound : (k.removeThreadFromSleep t).1 = decide (t ∈ k.listAsleepThreads.items) :=
    KList.removeSpec_found ..
  unfold wakeThreadUp at h
  simp only [ht, hfound, decide_eq_true_eq] at h
  split_ifs at h with hst hm
  · refine Or.inl ⟨hst, ?_⟩
    cases hs : th.mySem with
    | none =>
      simp only [hs] at h
      cases h
      exact Or.inl ⟨rfl, rfl⟩
    | some s =>
      simp only [hs] at h
      exact Or.inr ⟨s, rfl, h⟩
  · exact Or.inr ⟨hst, Or.inl ⟨hm, h⟩⟩
  · cases h
    exact Or.inr ⟨hst, Or.inr ⟨hm, rfl⟩⟩

theorem wakeThreadUp_stays (h : k.wakeThreadUp t = .ok k') : Stays k k' := by
  cases ht : k.threads t with
  | none =>
    unfold wakeThreadUp at h
    simp only [ht] at h
    cases h
    exact .refl _
  | some th =>
    rcases wakeThreadUp_ok h ht with ⟨-, ⟨-, rfl⟩ | ⟨s, -, hu⟩⟩ | ⟨-, ⟨-, hput⟩ | ⟨-, rfl⟩⟩
    · exact .refl _
    · exact unblockedByTime_stays hu
    · exact (removeThreadFromSleep_stays _ _).trans (put_stays hput)
    · exact removeThreadFromSleep_stays _ _

theorem wakeAsleepThreadsUp_stays (h : k.wakeAsleepThreadsUp = .ok k') : Stays k k' :=
  foreachWhile_rel (R := Stays) .refl .trans (fun _ _ _ => wakeThreadUp_stays) h

/-! Taking the processor from one thread and giving it to another. -/

theorem generateWaitResponses_ok (h : k.generateWaitResponses s = .ok k') :
    ∃ th a, k.threads k.running = some th ∧ (a = .didntWait → th.semStatus = .nonWaiting) ∧
      k' = (k.setThreadsSemStatus k.running .nonWaiting).note (.answer k.running s a) := by
  obtain ⟨th, ht, h⟩ := bind_ok h
  cases h
  refine ⟨th, _, thread_ok ht, ?_, rfl⟩
  cases th.semStatus <;> simp

theorem generateWaitResponses_stays (h : k.generateWaitResponses s = .ok k') : Stays k k' := by
  obtain ⟨th, a, -, -, rfl⟩ := generateWaitResponses_ok h
  exact (setThreadsSemStatus_stays _ _ _).trans (note_stays _ _)

theorem resume_ok (h : k.resume = .ok k') :
    ∃ th, k.threads k.running = some th ∧
      ((th.context = .threadWrapper ∨ th.context = .toUser) ∧ k' = k ∨
        (∃ s, th.context = .block s ∧ k.afterBlock s = .ok k') ∨
        (∃ s, th.context = .timedBlock s ∧ k.afterTimedBlock s = .ok k') ∨
        th.context = .sleep ∧ k' = k.afterSleep) := by
  obtain ⟨th, ht, h⟩ := bind_ok h
  refine ⟨th, thread_ok ht, ?_⟩
  cases hc : th.context with
  | threadWrapper =>
    simp only [hc] at h
    cases h
    exact Or.inl ⟨Or.inl rfl, rfl⟩
  | toUser =>
    simp only [hc] at h
    cases h
    exact Or.inl ⟨Or.inr rfl, rfl⟩
  | block s =>
    simp only [hc] at h
    exact Or.inr (Or.inl ⟨s, rfl, h⟩)
  | timedBlock s =>
    simp only [hc] at h
    exact Or.inr (Or.inr (Or.inl ⟨s, rfl, h⟩))
  | sleep =>
    simp only [hc] at h
    cases h
    exact Or.inr (Or.inr (Or.inr ⟨rfl, rfl⟩))

theorem afterTimedBlock_before (k : Kernel) (s : SemId) :
    Stays k (((k.setMySem k.running none).decTimedWaiting s).setTimeForWakingUp k.running 0) :=
  ((setMySem_stays _ _ _).trans (decTimedWaiting_stays _ _)).trans (setTimeForWakingUp_stays _ _ _)

theorem resume_stays (h : k.resume = .ok k') : Stays k k' := by
  obtain ⟨th, -, ⟨-, rfl⟩ | ⟨s, -, hb⟩ | ⟨s, -, hb⟩ | ⟨-, rfl⟩⟩ := resume_ok h
  · exact .refl _
  · exact (setMySem_stays _ _ _).trans (generateWaitResponses_stays hb)
  · exact (afterTimedBlock_before k s).trans (generateWaitResponses_stays hb)
  · exact (setThreadState_stays _ _ _).trans (setTimeForWakingUp_stays _ _ _)

theorem deleteThread_ok (h : k.deleteThread t = .ok k') :
    ∃ th, k.threads t = some th ∧
      k' = { k with
        heap := ((k.heap.kmfree th.stack).2.kmfree (k.threadAddr t)).2
        threads := Function.update k.threads t none } := by
  obtain ⟨th, ht, h⟩ := bind_ok h
  cases h
  exact ⟨th, thread_ok ht, rfl⟩

theorem deleteThread_keeps (h : k.deleteThread t = .ok k') : Keeps k k' := by
  obtain ⟨th, ht, rfl⟩ := deleteThread_ok h
  refine ⟨?_, fun _ hs => hs, rfl, rfl, rfl, rfl, rfl, rfl⟩
  intro t' th' ht'
  by_cases he : t' = t
  · subst he
    simp at ht'
  · simp only [ne_eq, he, not_false_eq_true, Function.update_of_ne] at ht'
    exact ⟨th', ht', rfl⟩

theorem deleteThreadInDispatch_ok (h : k.deleteThreadInDispatch t = .ok k')
    (hm : t ∈ k.queueThreads.items) {th : Thread} (ht : k.threads t = some th)
    (hf : th.threadState = .finished) : (k.removeReady t).2.deleteThread t = .ok k' := by
  have hfound : (k.removeReady t).1 = decide (t ∈ k.queueThreads.items) :=
    KList.removeSpec_found ..
  have ht' : (k.removeReady t).2.threads t = some th := ht
  unfold deleteThreadInDispatch at h
  dsimp only at h
  rwa [if_pos (by simp [hfound, hm, isThreadValid, isFinished, ht', hf])] at h

theorem deleteThreadInDispatch_keeps (h : k.deleteThreadInDispatch t = .ok k') : Keeps k k' := by
  unfold deleteThreadInDispatch at h
  dsimp only at h
  split_ifs at h
  · exact (removeReady_stays k t).keeps.trans (deleteThread_keeps h)
  · cases h
    exact (removeReady_stays k t).keeps

theorem leave_ok (h : k.leave = .ok k') :
    ∃ th, k.threads k.running = some th ∧
      ((th.threadState = .ready ∨ th.threadState = .running) ∧
          (k.setThreadState k.running .ready).put k.running = .ok k' ∨
        th.threadState = .suspended ∧ k' = k ∨
        th.threadState = .finished ∧ k.deleteThread k.running = .ok k') := by
  obtain ⟨th, ht, h⟩ := bind_ok h
  have ht := thread_ok ht
  refine ⟨th, ht, ?_⟩
  dsimp only at h
  split_ifs at h with hr
  · obtain ⟨k₁, hput, h⟩ := bind_ok h
    obtain ⟨node, hp, hk, he⟩ := put_ok hput
    have hnf : k₁.isFinished k.running = false := by
      subst he
      simp [isFinished, ht]
    simp only [hnf, Bool.false_eq_true, if_false] at h
    cases h
    exact Or.inl ⟨hr, hput⟩
  · obtain ⟨k₁, hpure, h⟩ := bind_ok h
    cases hpure
    have hf : k.isFinished k.running = decide (th.threadState = .finished) := by
      simp [isFinished, ht]
    cases hst : th.threadState with
    | ready => simp [hst] at hr
    | running => simp [hst] at hr
    | suspended =>
      simp only [hf, hst, reduceCtorEq, decide_false, Bool.false_eq_true, if_false] at h
      cases h
      exact Or.inr (Or.inl ⟨rfl, rfl⟩)
    | finished =>
      simp only [hf, hst, decide_true, if_true] at h
      exact Or.inr (Or.inr ⟨rfl, h⟩)

theorem leave_keeps (h : k.leave = .ok k') : Keeps k k' := by
  obtain ⟨th, -, ⟨-, hput⟩ | ⟨-, rfl⟩ | ⟨-, hd⟩⟩ := leave_ok h
  · exact ((setThreadState_stays _ _ _).trans (put_stays hput)).keeps
  · exact .refl _
  · exact deleteThread_keeps hd

theorem leave_running (h : k.leave = .ok k') : k'.running = k.running := by
  obtain ⟨th, -, ⟨-, hput⟩ | ⟨-, rfl⟩ | ⟨-, hd⟩⟩ := leave_ok h
  · exact (put_stays hput).running
  · rfl
  · obtain ⟨th, -, rfl⟩ := deleteThread_ok hd
    rfl

theorem get_some (h : k.get.1 = some t) :
    ∃ e q, k.queueThreads = e :: q ∧ e.data = t ∧
      k.get.2 = { k with heap := (k.heap.kmfree e.node).2, queueThreads := q } := by
  unfold get KList.removeFirst at *
  cases hq : k.queueThreads with
  | nil => simp [hq] at h
  | cons e q =>
    simp only [hq, Option.some.injEq] at h
    exact ⟨e, q, rfl, h, rfl⟩

/-- The dead threads at the front of the ready queue are gone, and the first of
the others gets the processor. -/
theorem arrive_ok (h : k.arrive c = .ok k') :
    ∃ k₁ t, foreachWhile deleteThreadInDispatch threadDead k.queueThreads.items k = .ok k₁ ∧
      k₁.get.1 = some t ∧
      ((setThreadState { k₁.get.2 with running := t } t .running).saveContext k.running c).resume =
        .ok k' := by
  obtain ⟨k₁, hs, h⟩ := bind_ok h
  cases hg : k₁.get with
  | mk r k₂ =>
    cases r with
    | none => simp [hg] at h
    | some t =>
      refine ⟨k₁, t, hs, by rw [hg], ?_⟩
      simpa only [hg] using h

theorem saveContext_keeps (k : Kernel) (t : Tid) (c : Context) : Keeps k (k.saveContext t c) := by
  unfold saveContext
  split_ifs
  · refine ⟨?_, fun _ hs => hs, rfl, rfl, rfl, rfl, rfl, rfl⟩
    intro t' th' ht
    by_cases he : t' = t
    · subst he
      simp only [modifyThread_threads, Function.update_self, Option.map_eq_some_iff] at ht
      obtain ⟨th, hth, rfl⟩ := ht
      exact ⟨th, hth, rfl⟩
    · simp only [modifyThread_threads, ne_eq, he, not_false_eq_true, Function.update_of_ne] at ht
      exact ⟨th', ht, rfl⟩
  · exact (note_stays _ _).keeps

theorem arrive_keeps (h : k.arrive c = .ok k') : Keeps k k' := by
  obtain ⟨k₁, t, hs, -, hr⟩ := arrive_ok h
  have hsweep : Keeps k k₁ :=
    foreachWhile_rel (R := Keeps) .refl .trans (fun _ _ _ => deleteThreadInDispatch_keeps) hs
  refine hsweep.trans (.trans ?_ (resume_stays hr).keeps)
  refine Keeps.trans ?_ (saveContext_keeps _ _ _)
  refine Keeps.trans ?_ (setThreadState_stays _ _ _).keeps
  exact (get_stays k₁).keeps.trans
    ⟨fun t th ht => ⟨th, ht, rfl⟩, fun _ hs => hs, rfl, rfl, rfl, rfl, rfl, rfl⟩

theorem dispatch_ok (h : k.dispatch c = .ok k') :
    ∃ k₁, { k with runningThreadCpuTime := 0 }.leave = .ok k₁ ∧ k₁.arrive c = .ok k' :=
  bind_ok h

theorem dispatch_keeps (h : k.dispatch c = .ok k') : Keeps k k' := by
  obtain ⟨k₁, hl, ha⟩ := dispatch_ok h
  refine Keeps.trans ?_ ((leave_keeps hl).trans (arrive_keeps ha))
  exact ⟨fun t th ht => ⟨th, ht, rfl⟩, fun _ hs => hs, rfl, rfl, rfl, rfl, rfl, rfl⟩

theorem decNumOfChildren_stays (k : Kernel) (t : Tid) : Stays k (k.decNumOfChildren t) := by
  unfold decNumOfChildren
  split_ifs
  · apply modifyThread_stays _ _ _
    intro th
    simp only [Thread.origin, and_self]
  · exact note_stays _ _

theorem exit_ok (h : k.exit = .ok k') :
    ∃ th k₁, k.threads k.running = some th ∧ (k₁ = k ∧ th.parentThread = none ∨
        ∃ p, th.parentThread = some p ∧ k₁ = k.decNumOfChildren p) ∧
      (k₁.setFinished k.running).dispatch .toUser = .ok k' := by
  obtain ⟨th, ht, h⟩ := bind_ok h
  cases hp : th.parentThread with
  | none =>
    simp only [hp] at h
    exact ⟨th, k, thread_ok ht, Or.inl ⟨rfl, hp⟩, h⟩
  | some p =>
    simp only [hp] at h
    refine ⟨th, k.decNumOfChildren p, thread_ok ht, Or.inr ⟨p, hp, rfl⟩, ?_⟩
    rwa [(decNumOfChildren_stays k p).running] at h

theorem exit_keeps (h : k.exit = .ok k') : Keeps k k' := by
  obtain ⟨th, k₁, -, hk, hd⟩ := exit_ok h
  have hs : Stays k k₁ := by
    rcases hk with ⟨rfl, -⟩ | ⟨p, -, rfl⟩
    · exact .refl _
    · exact decNumOfChildren_stays _ _
  exact (hs.trans (setFinished_stays _ _)).keeps.trans (dispatch_keeps hd)

theorem subtleKill_stays (k : Kernel) (t : Tid) : Stays k (k.subtleKill t).2 := by
  unfold subtleKill
  split
  · exact .refl _
  · split_ifs
    · exact .refl _
    · exact .refl _
    · exact setFinished_stays _ _

/-! The calls that may block. -/

theorem block_ok (h : k.block s = .ok k') :
    ∃ k₁, k.addBlocked s k.running = .ok k₁ ∧
      ((k₁.setThreadsSemStatus k.running .waiting).setMySem k.running (some s)).dispatch (.block s) =
        .ok k' :=
  bind_ok h

theorem block_keeps (h : k.block s = .ok k') : Keeps k k' := by
  obtain ⟨k₁, hb, hd⟩ := block_ok h
  exact (((addBlocked_stays hb).trans (setThreadsSemStatus_stays _ _ _)).trans
    (setMySem_stays _ _ _)).keeps.trans (dispatch_keeps hd)

theorem wait_ok (h : k.wait s = .ok k') :
    ∃ r, k.addVal s (-1) = .ok r ∧
      (0 ≤ r.1 ∧ k' = r.2.note (.answer r.2.running s .didntWait) ∨
        r.1 < 0 ∧ r.2.block s = .ok k') := by
  obtain ⟨r, ha, h⟩ := bind_ok h
  refine ⟨r, ha, ?_⟩
  dsimp only at h
  split_ifs at h with hv
  · cases h
    exact Or.inl ⟨hv, rfl⟩
  · exact Or.inr ⟨not_le.1 hv, h⟩

theorem wait_keeps (h : k.wait s = .ok k') : Keeps k k' := by
  obtain ⟨r, ha, ⟨-, rfl⟩ | ⟨-, hb⟩⟩ := wait_ok h
  · exact ((addVal_stays ha).trans (note_stays _ _)).keeps
  · exact (addVal_stays ha).keeps.trans (block_keeps hb)

theorem timedBlock_ok {m : UInt64} (h : k.timedBlock s m = .ok k') :
    ∃ k₀ k₁ k₂ k₃, k₀ = (k.setThreadsSemStatus k.running .timedWaiting).setTimeForWakingUp k.running
        (wrap (m.toNat + k.sysTime)) ∧
      k₀.addBlocked s k.running = .ok k₁ ∧ k₁.insertAsleep k.running = .ok k₂ ∧
      k₂.incTimedWaiting s = .ok k₃ ∧
      (k₃.setMySem k.running (some s)).dispatch (.timedBlock s) = .ok k' := by
  obtain ⟨k₁, hb, h⟩ := bind_ok h
  obtain ⟨k₂, hi, h⟩ := bind_ok h
  obtain ⟨k₃, hn, h⟩ := bind_ok h
  exact ⟨_, k₁, k₂, k₃, rfl, hb, hi, hn, h⟩

theorem timedBlock_keeps {m : UInt64} (h : k.timedBlock s m = .ok k') : Keeps k k' := by
  obtain ⟨k₀, k₁, k₂, k₃, rfl, hb, hi, hn, hd⟩ := timedBlock_ok h
  have h₀ := (setThreadsSemStatus_stays k k.running .timedWaiting).trans
    (setTimeForWakingUp_stays _ k.running (wrap (m.toNat + k.sysTime)))
  exact ((((h₀.trans (addBlocked_stays hb)).trans (insertAsleep_stays hi)).trans
    (incTimedWaiting_stays hn)).trans (setMySem_stays _ _ _)).keeps.trans (dispatch_keeps hd)

theorem timedWait_ok {m : UInt64} (h : k.timedWait s m = .ok k') :
    ∃ r, k.addVal s (-1) = .ok r ∧
      (0 ≤ r.1 ∧ k' = r.2.note (.answer r.2.running s .didntWait) ∨
        r.1 < 0 ∧ r.2.timedBlock s m = .ok k') := by
  obtain ⟨r, ha, h⟩ := bind_ok h
  refine ⟨r, ha, ?_⟩
  dsimp only at h
  split_ifs at h with hv
  · cases h
    exact Or.inl ⟨hv, rfl⟩
  · exact Or.inr ⟨not_le.1 hv, h⟩

theorem timedWait_keeps {m : UInt64} (h : k.timedWait s m = .ok k') : Keeps k k' := by
  obtain ⟨r, ha, ⟨-, rfl⟩ | ⟨-, hb⟩⟩ := timedWait_ok h
  · exact ((addVal_stays ha).trans (note_stays _ _)).keeps
  · exact (addVal_stays ha).keeps.trans (timedBlock_keeps hb)

theorem putThreadToSleep_ok {m : UInt64} (h : k.putThreadToSleep m = .ok k')
    (hr : k.threads k.running ≠ none) :
    ∃ k₀ k₁, k₀ = (k.setThreadState k.running .suspended).setTimeForWakingUp k.running
        (wrap (k.sysTime + m.toNat)) ∧
      k₀.insertAsleep k.running = .ok k₁ ∧ k₁.dispatch .sleep = .ok k' := by
  unfold putThreadToSleep isThreadValid at h
  dsimp only at h
  rw [if_pos (Option.isSome_iff_ne_none.2 hr)] at h
  obtain ⟨k₁, hi, h⟩ := bind_ok h
  exact ⟨_, k₁, rfl, hi, h⟩

theorem putThreadToSleep_keeps {m : UInt64} (h : k.putThreadToSleep m = .ok k') : Keeps k k' := by
  by_cases hr : k.threads k.running = none
  · unfold putThreadToSleep isThreadValid at h
    dsimp only at h
    rw [if_neg (by simp [hr])] at h
    cases h
    exact .refl _
  · obtain ⟨k₀, k₁, rfl, hi, hd⟩ := putThreadToSleep_ok h hr
    exact (((setThreadState_stays _ _ _).trans (setTimeForWakingUp_stays _ _ _)).trans
      (insertAsleep_stays hi)).keeps.trans (dispatch_keeps hd)

theorem timerInterruptHandler_ok (h : k.timerInterruptHandler = .ok k') :
    ∃ k₁ th, k.incTime.wakeAsleepThreadsUp = .ok k₁ ∧ k₁.threads k₁.running = some th ∧
      (th.timeSlice ≤ k₁.runningThreadCpuTime ∧ k₁.dispatch .toUser = .ok k' ∨
        k₁.runningThreadCpuTime < th.timeSlice ∧ k' = k₁) := by
  obtain ⟨k₁, hw, h⟩ := bind_ok h
  obtain ⟨th, ht, h⟩ := bind_ok h
  refine ⟨k₁, th, hw, thread_ok ht, ?_⟩
  split_ifs at h with hs
  · exact Or.inl ⟨hs, h⟩
  · cases h
    exact Or.inr ⟨not_le.1 hs, rfl⟩

/-- The end of `delete sem`, when no thread is left in the queue. -/
def forgetSem (k : Kernel) (s : SemId) : Kernel :=
  { k with
    heap := ((KList.removeSpec k.heap k.allSemaphores s).2.1.kmfree (k.semAddr s)).2
    sems := Function.update k.sems s none
    allSemaphores := (KList.removeSpec k.heap k.allSemaphores s).2.2 }

@[simp] theorem forgetSem_sems (k : Kernel) (s : SemId) :
    (k.forgetSem s).sems = Function.update k.sems s none := rfl

@[simp] theorem forgetSem_queueThreads (k : Kernel) (s : SemId) :
    (k.forgetSem s).queueThreads = k.queueThreads := rfl

@[simp] theorem forgetSem_semAddr (k : Kernel) (s : SemId) :
    (k.forgetSem s).semAddr = k.semAddr := rfl

@[simp] theorem forgetSem_allSemaphores (k : Kernel) (s : SemId) :
    (k.forgetSem s).allSemaphores.items = k.allSemaphores.items.erase s :=
  KList.removeSpec_items ..

theorem deleteSem_ok (h : k.deleteSem s = .ok k') :
    ∃ m k₁, k.sems s = some m ∧ k.unblockAll s .semDeleted (-m.val).toNat = .ok k₁ ∧
      k' = k₁.forgetSem s := by
  obtain ⟨m, hm, h⟩ := bind_ok h
  obtain ⟨k₁, hu, h⟩ := bind_ok h
  cases h
  exact ⟨m, k₁, sem_ok hm, hu, rfl⟩

theorem deleteSem_keeps (h : k.deleteSem s = .ok k') : Keeps k k' := by
  obtain ⟨m, k₁, -, hu, rfl⟩ := deleteSem_ok h
  refine (unblockAll_stays hu).keeps.trans
    ⟨fun t th ht => ⟨th, ht, rfl⟩, fun s' hs => ?_, rfl, rfl, rfl, rfl, rfl, rfl⟩
  by_cases he : s' = s
  · subst he
    simp
  · simpa [he] using hs

/-! The calls that make or hand out memory. -/

/-- A thread as `newThread` starts it. -/
def newborn (k : Kernel) (body : UInt64) (stack : ℕ) : Thread :=
  { body := body, stack := stack, context := .threadWrapper, timeSlice := defaultTimeSlice,
    threadState := .ready, parentThread := some k.running, numOfChildren := 0,
    semStatus := .nonWaiting, mySem := none, timeForWakingUp := 0 }

/-- The running thread has one more child. -/
def countChild (k : Kernel) : Kernel :=
  k.modifyThread k.running fun th => { th with numOfChildren := wrap (th.numOfChildren + 1) }

/-- The record of `t` is there, at `p`. -/
def enroll (k : Kernel) (t : Tid) (p : ℕ) (th : Thread) : Kernel :=
  { k with
    threads := Function.update k.threads t (some th)
    threadAddr := Function.update k.threadAddr t p
    ID := t }

theorem newThread_ok {body : UInt64} {stack : ℕ} (h : k.newThread body stack = .ok k') :
    stack ∈ k.user ∧ ∃ p hp k₁, k.heap.kmalloc (blocksFor threadSize) = some (p, hp) ∧
      (body ≠ 0 ∧ put { k with heap := hp, user := k.user.erase stack } (k.ID + 1) = .ok k₁ ∨
        body = 0 ∧ k₁ = { k with heap := hp, user := k.user.erase stack }) ∧
      k' = k₁.countChild.enroll (k.ID + 1) p (k.newborn body stack) := by
  unfold newThread at h
  by_cases hu : stack ∈ k.user
  swap
  · rw [if_neg hu] at h
    cases h
  refine ⟨hu, ?_⟩
  rw [if_pos hu] at h
  cases hk : k.heap.kmalloc (blocksFor threadSize) with
  | none => simp [hk] at h
  | some r =>
    obtain ⟨p, hp⟩ := r
    simp only [hk] at h
    refine ⟨p, hp, ?_⟩
    by_cases hb : body = 0
    · simp only [hb, ne_eq, not_true_eq_false, if_false] at h
      cases h
      exact ⟨_, rfl, Or.inr ⟨hb, rfl⟩, by rw [hb]; rfl⟩
    · simp only [ne_eq, hb, not_false_eq_true, if_true] at h
      obtain ⟨k₁, hput, h⟩ := bind_ok h
      cases h
      exact ⟨k₁, rfl, Or.inl ⟨hb, hput⟩, rfl⟩

theorem newSem_ok {n : UInt64} (h : k.newSem n = .ok k') :
    ∃ p hp node hp', k.heap.kmalloc (blocksFor semSize) = some (p, hp) ∧
      hp.kmalloc (blocksFor 16) = some (node, hp') ∧
      k' = { k with
        heap := hp'
        sems := Function.update k.sems k.nextSem (some ⟨n.toInt64.toInt, [], 0⟩)
        semAddr := Function.update k.semAddr k.nextSem p
        nextSem := k.nextSem + 1
        allSemaphores := k.allSemaphores ++ [⟨node, k.nextSem⟩] } := by
  unfold newSem at h
  cases hk : k.heap.kmalloc (blocksFor semSize) with
  | none => simp [hk] at h
  | some r =>
    obtain ⟨p, hp⟩ := r
    simp only [hk] at h
    obtain ⟨⟨hp', l⟩, ha, h⟩ := bind_ok h
    obtain ⟨node, hp'', hn, hl⟩ := KList.addLast_ok ha
    cases hl
    cases h
    exact ⟨p, hp, node, hp', rfl, hn, rfl⟩

theorem memAlloc_eq (k : Kernel) (n : UInt64) :
    k.memAlloc n = (0, k) ∧ k.heap.kmalloc n.toNat = none ∨
      ∃ p hp, k.heap.kmalloc n.toNat = some (p, hp) ∧
        k.memAlloc n = (p, { k with heap := hp, user := p :: k.user }) := by
  unfold memAlloc
  cases hk : k.heap.kmalloc n.toNat with
  | none => exact Or.inl ⟨rfl, rfl⟩
  | some r => exact Or.inr ⟨r.1, r.2, rfl, rfl⟩

theorem memFree_ok {p : ℕ} {r : ℤ × Kernel} (h : k.memFree p = .ok r) :
    (p ∈ k.user ∨ p ∉ k.heap.payloads) ∧
      r = ((k.heap.kmfree p).1, { k with heap := (k.heap.kmfree p).2, user := k.user.erase p }) := by
  unfold memFree at h
  split_ifs at h with hp
  cases h
  exact ⟨hp, rfl⟩

/-! One event. -/

/-- A null handle, or a `mem_alloc` that may be refused. -/
def mayIdle : Event → Bool
  | .memAlloc _ => true
  | .semClose none => true
  | .semWait none => true
  | .semSignal none => true
  | .semTimedwait none _ => true
  | .semTrywait none => true
  | _ => false

/-- What each event does to `k`. -/
inductive Effect (k : Kernel) : Event → Kernel → Prop
  | idle {e : Event} (he : mayIdle e = true) : Effect k e k
  | memAlloc {n : UInt64} (p : ℕ) (hp : Heap) (h : k.heap.kmalloc n.toNat = some (p, hp)) :
      Effect k (.memAlloc n) { k with heap := hp, user := p :: k.user }
  | memFree {p : ℕ} (h : p ∈ k.user ∨ p ∉ k.heap.payloads) :
      Effect k (.memFree p) { k with heap := (k.heap.kmfree p).2, user := k.user.erase p }
  | threadCreate {body : UInt64} {stack : ℕ} {k' : Kernel} (h : k.newThread body stack = .ok k') :
      Effect k (.threadCreate body stack) k'
  | threadExit {k' : Kernel} (h : k.exit = .ok k') : Effect k .threadExit k'
  | threadDispatch {k' : Kernel} (h : k.dispatch .toUser = .ok k') : Effect k .threadDispatch k'
  | semOpen {n : UInt32} {k' : Kernel} (h : k.newSem n.toUInt64 = .ok k') :
      Effect k (.semOpen n) k'
  | semClose (s : SemId) {k' : Kernel} (h : k.deleteSem s = .ok k') : Effect k (.semClose s) k'
  | semWait (s : SemId) {k' : Kernel} (h : k.wait s = .ok k') : Effect k (.semWait s) k'
  | semSignal (s : SemId) {r : ℤ × Kernel} (h : k.signal s = .ok r) : Effect k (.semSignal s) r.2
  | semTimedwait (s : SemId) {m : UInt64} {k' : Kernel} (h : k.timedWait s m = .ok k') :
      Effect k (.semTimedwait s m) k'
  | semTrywait (s : SemId) {r : ℤ × Kernel} (h : k.addVal s (-1) = .ok r) :
      Effect k (.semTrywait s) r.2
  | timeSleep {n : UInt64} {k' : Kernel} (h : k.timeSleep n = .ok k') : Effect k (.timeSleep n) k'
  | tick {k' : Kernel} (h : k.timerInterruptHandler = .ok k') : Effect k .tick k'
  | subtleKill (t : Tid) : Effect k (.subtleKill t) (k.subtleKill t).2

theorem withHandle_ok {o : Option SemId} {f : SemId → Except Fault Kernel}
    (h : k.withHandle o f = .ok k') : o = none ∧ k' = k ∨ ∃ s, o = some s ∧ f s = .ok k' := by
  cases o with
  | none =>
    cases h
    exact Or.inl ⟨rfl, rfl⟩
  | some s => exact Or.inr ⟨s, rfl, h⟩

theorem map_ok {α β : Type} {x : Except Fault α} {f : α → β} {b : β} (h : x.map f = .ok b) :
    ∃ a, x = .ok a ∧ b = f a := by
  cases x with
  | error e => cases h
  | ok a =>
    cases h
    exact ⟨a, rfl, rfl⟩

theorem step_effect {e : Event} (h : k.step e = .ok k') : Effect k e k' := by
  cases e with
  | memAlloc n =>
    cases h
    rcases memAlloc_eq k n with ⟨he, -⟩ | ⟨p, hp, hm, he⟩ <;> rw [he]
    · exact .idle rfl
    · exact .memAlloc p hp hm
  | memFree p =>
    obtain ⟨r, hr, rfl⟩ := map_ok h
    obtain ⟨hp, rfl⟩ := memFree_ok hr
    exact .memFree hp
  | threadCreate body stack => exact .threadCreate h
  | threadExit => exact .threadExit h
  | threadDispatch => exact .threadDispatch h
  | semOpen n => exact .semOpen h
  | semClose o =>
    rcases withHandle_ok h with ⟨rfl, rfl⟩ | ⟨s, rfl, h⟩
    · exact .idle rfl
    · exact .semClose s h
  | semWait o =>
    rcases withHandle_ok h with ⟨rfl, rfl⟩ | ⟨s, rfl, h⟩
    · exact .idle rfl
    · exact .semWait s h
  | semSignal o =>
    rcases withHandle_ok h with ⟨rfl, rfl⟩ | ⟨s, rfl, h⟩
    · exact .idle rfl
    · obtain ⟨r, hr, rfl⟩ := map_ok h
      exact .semSignal s hr
  | semTimedwait o m =>
    rcases withHandle_ok h with ⟨rfl, rfl⟩ | ⟨s, rfl, h⟩
    · exact .idle rfl
    · exact .semTimedwait s h
  | semTrywait o =>
    rcases withHandle_ok h with ⟨rfl, rfl⟩ | ⟨s, rfl, h⟩
    · exact .idle rfl
    · obtain ⟨r, hr, rfl⟩ := map_ok h
      obtain ⟨r', ha, hr'⟩ := tryWait_ok hr
      rw [hr']
      exact .semTrywait s ha
  | timeSleep n => exact .timeSleep h
  | tick => exact .tick h
  | subtleKill t =>
    cases h
    exact .subtleKill t

theorem boot_ok {start total : ℕ} (h : boot start total = some k) :
    ∃ stack hp p hp', (Heap.init start total).kmalloc (blocksFor stackSize) = some (stack, hp) ∧
      hp.kmalloc (blocksFor threadSize) = some (p, hp') ∧ k = bootState hp' stack p := by
  obtain ⟨⟨stack, hp⟩, h₁, h⟩ := Option.bind_eq_some_iff.1 h
  obtain ⟨⟨p, hp'⟩, h₂, h⟩ := Option.bind_eq_some_iff.1 h
  cases h
  exact ⟨stack, hp, p, hp', h₁, h₂, rfl⟩

end Kernel
end OSK
