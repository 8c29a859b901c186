import RiscVKernel.Kernel.Closing
import RiscVKernel.Kernel.Timeouts
import RiscVKernel.Kernel.Waking
import RiscVKernel.Lib.Line

/-! The queue of a semaphore as a waiting line: threads join it at its end when
they block, signals serve it from the front, and the timer takes threads out of
its middle. -/

namespace OSK

open Lib

namespace Kernel

variable {k k' k₁ k₂ : Kernel} {t : Tid} {s : SemId} {c : Context} {cause : SemStatus} {m : Sem}
  {loc : Tid → Place} {start total : ℕ}

/-- The threads that wait on `s`, in the order of its queue. -/
def waiters (k : Kernel) (s : SemId) : List Tid :=
  match k.sems s with
  | none => []
  | some m => m.queueBlocked.items

theorem waiters_some (hm : k.sems s = some m) : k.waiters s = m.queueBlocked.items := by
  simp [waiters, hm]

theorem waiters_congr (h : k'.sems = k.sems) (s : SemId) : k'.waiters s = k.waiters s := by
  unfold waiters
  rw [h]

/-- Writing fields other than the queue. -/
theorem setSem_waiters {m' : Sem} (hm : k.sems s = some m)
    (hq : m'.queueBlocked.items = m.queueBlocked.items) (s' : SemId) :
    (k.setSem s m').waiters s' = k.waiters s' := by
  by_cases hs : s' = s
  · subst hs
    simp [waiters, hm, hq]
  · simp [waiters, hs]

theorem addVal_waiters {d : ℤ} {r : ℤ × Kernel} (h : k.addVal s d = .ok r) (s' : SemId) :
    r.2.waiters s' = k.waiters s' := by
  obtain ⟨m, hm, -, rfl⟩ := addVal_ok h
  exact setSem_waiters hm (by rfl) s'

theorem incTimedWaiting_waiters (h : k.incTimedWaiting s = .ok k') (s' : SemId) :
    k'.waiters s' = k.waiters s' := by
  obtain ⟨m, hm, rfl⟩ := incTimedWaiting_ok h
  exact setSem_waiters hm (by rfl) s'

theorem decTimedWaiting_waiters (k : Kernel) (s s' : SemId) :
    (k.decTimedWaiting s).waiters s' = k.waiters s' := by
  unfold decTimedWaiting
  cases hm : k.sems s with
  | none => rfl
  | some m => exact setSem_waiters hm (by rfl) s'

/-- A thread joins the queue of `s` at the end. -/
theorem addBlocked_waiters (h : k.addBlocked s t = .ok k') (s' : SemId) :
    k'.waiters s' = k.waiters s' ++ if s' = s then [t] else [] := by
  obtain ⟨m, node, hp, hm, -, rfl⟩ := addBlocked_ok h
  by_cases hs : s' = s
  · subst hs
    simp [waiters, hm]
  · simp [waiters, hs]

/-- The first thread leaves the queue of `s`. -/
theorem unblock_waiters (h : k.unblock s cause = .ok k') (s' : SemId) :
    k'.waiters s' = if s' = s then (k.waiters s').tail else k.waiters s' := by
  obtain ⟨m, e, q, hm, hq, hsems⟩ := unblock_sems h
  by_cases hs : s' = s
  · subst hs
    simp [waiters, hsems, hm, hq]
  · simp [waiters, hsems, hs]

/-- `t` leaves the queue of `s` from where it stands. -/
theorem removeBlocked_waiters (h : k.removeBlocked s t = .ok k') (s' : SemId) :
    k'.waiters s' = if s' = s then (k.waiters s').erase t else k.waiters s' := by
  obtain ⟨m, hm, rfl⟩ := removeBlocked_ok h
  by_cases hs : s' = s
  · subst hs
    simp [waiters, hm, KList.removeSpec_items]
  · simp [waiters, hs]

/-- Threads only leave the queues. -/
def Shrinks (k k' : Kernel) : Prop := ∀ s, (k'.waiters s).Sublist (k.waiters s)

theorem Shrinks.refl (k : Kernel) : Shrinks k k := fun _ => .refl _

theorem Shrinks.trans (h : Shrinks k k') (h' : Shrinks k' k₂) : Shrinks k k₂ :=
  fun s => (h' s).trans (h s)

theorem shrinks_of_eq (h : ∀ s, k'.waiters s = k.waiters s) : Shrinks k k' :=
  fun s => (h s) ▸ .refl _

theorem put_sems (h : k.put t = .ok k') : k'.sems = k.sems := by
  obtain ⟨node, hp, -, rfl⟩ := put_ok h
  rfl

theorem unblock_shrinks (h : k.unblock s cause = .ok k') : Shrinks k k' := by
  intro s'
  rw [unblock_waiters h]
  split_ifs
  · exact List.tail_sublist _
  · exact .refl _

theorem unblockAll_shrinks {n : ℕ} (h : k.unblockAll s cause n = .ok k') : Shrinks k k' := by
  induction n generalizing k with
  | zero =>
    cases h
    exact .refl _
  | succ n ih =>
    obtain ⟨k₁, r, hu, ha, h⟩ := unblockAll_ok h
    exact ((unblock_shrinks hu).trans (shrinks_of_eq (addVal_waiters ha))).trans (ih h)

theorem unblockedByTime_shrinks (h : k.unblockedByTime s t = .ok k') : Shrinks k k' := by
  obtain ⟨th, -, ⟨-, rfl⟩ | ⟨-, r, k₁, ha, hb, hr⟩⟩ := unblockedByTime_ok h
  · exact .refl _
  intro s'
  have hrel : k'.waiters s' = k₁.waiters s' := waiters_congr (put_sems hr) s'
  have hsleep : (r.2.removeThreadFromSleep t).2.waiters s' = r.2.waiters s' := rfl
  rw [hrel, removeBlocked_waiters hb, hsleep, addVal_waiters ha]
  split_ifs
  · exact List.erase_sublist
  · exact .refl _

theorem wakeThreadUp_shrinks (h : k.wakeThreadUp t = .ok k') : Shrinks k k' := by
  cases ht : k.threads t with
  | none =>
    unfold wakeThreadUp at h
    simp only [ht] at h
    cases h
    exact .refl _
  | some th =>
    rcases wakeThreadUp_ok h ht with ⟨-, ⟨-, rfl⟩ | ⟨s, -, hu⟩⟩ | ⟨-, ⟨-, hput⟩ | ⟨-, rfl⟩⟩
    · exact .refl _
    · exact unblockedByTime_shrinks hu
    · exact shrinks_of_eq (waiters_congr ((put_sems hput).trans rfl))
    · exact .refl _

/-! `dispatch` leaves the queues alone. -/

theorem resume_waiters (h : k.resume = .ok k') (s : SemId) : k'.waiters s = k.waiters s := by
  obtain ⟨th, -, ⟨-, rfl⟩ | ⟨s', -, hb⟩ | ⟨s', -, hb⟩ | ⟨-, rfl⟩⟩ := resume_ok h
  · rfl
  · obtain ⟨th, a, -, -, rfl⟩ := generateWaitResponses_ok hb
    rfl
  · obtain ⟨th, a, -, -, rfl⟩ := generateWaitResponses_ok hb
    exact decTimedWaiting_waiters (k.setMySem k.running none) s' s
  · rfl

theorem deleteThreadInDispatch_sems (h : k.deleteThreadInDispatch t = .ok k') :
    k'.sems = k.sems := by
  unfold deleteThreadInDispatch at h
  dsimp only at h
  split_ifs at h
  · obtain ⟨th, -, rfl⟩ := deleteThread_ok h
    rfl
  · cases h
    rfl

theorem leave_sems (h : k.leave = .ok k') : k'.sems = k.sems := by
  obtain ⟨th, -, ⟨-, hput⟩ | ⟨-, rfl⟩ | ⟨-, hd⟩⟩ := leave_ok h
  · exact (put_sems hput).trans rfl
  · rfl
  · obtain ⟨_, -, rfl⟩ := deleteThread_ok hd
    rfl

theorem switched_sems (k : Kernel) (t old : Tid) (c : Context) :
    (switched k t old c).sems = k.sems := by
  unfold switched saveContext
  split_ifs <;> rfl

theorem dispatch_waiters (h : k.dispatch c = .ok k') (s : SemId) : k'.waiters s = k.waiters s := by
  obtain ⟨k₁, hlv, ha⟩ := dispatch_ok h
  obtain ⟨k₂, t, hsweep, -, hr⟩ := arrive_ok ha
  have hr : (switched k₂ t k₁.running c).resume = .ok k' := hr
  have hsems : k₂.sems = k₁.sems := by
    refine foreachWhile_rel (R := fun k k' => k'.sems = k.sems) (fun _ => rfl)
      (fun h₁ h₂ => h₂.trans h₁) ?_ hsweep
    exact fun _ _ _ => deleteThreadInDispatch_sems
  have hall : (switched k₂ t k₁.running c).sems = k.sems :=
    ((switched_sems ..).trans hsems).trans ((leave_sems hlv).trans rfl)
  rw [resume_waiters hr, waiters_congr hall]

/-! Any event. -/

/-- In one step the queue of `s` loses some threads, or the running thread joins it. -/
def Changes (e : Event) (s : SemId) (k k' : Kernel) : Prop :=
  (k'.waiters s).Sublist (k.waiters s) ∨
    WaitCall s e ∧ k'.waiters s = k.waiters s ++ [k.running]

theorem Shrinks.changes {e : Event} (h : Shrinks k k') (s : SemId) : Changes e s k k' :=
  Or.inl (h s)

theorem changes_of_eq {e : Event} (h : ∀ s, k'.waiters s = k.waiters s) (s : SemId) :
    Changes e s k k' := (shrinks_of_eq h).changes s

/-- The running thread joins the queue of `s`, and no other one. -/
theorem changes_of_join {e : Event} {s' : SemId} (he : WaitCall s e)
    (h : k'.waiters s' = k.waiters s' ++ if s' = s then [k.running] else []) :
    Changes e s' k k' := by
  by_cases hs : s' = s
  · subst hs
    rw [if_pos rfl] at h
    exact Or.inr ⟨he, h⟩
  · rw [if_neg hs, List.append_nil] at h
    exact Or.inl (h ▸ .refl _)

theorem addVal_noted_shrinks {d : ℤ} {r : ℤ × Kernel} (h : k.addVal s d = .ok r) (n : Note) :
    Shrinks k (r.2.note n) := by
  have heq : ∀ s', (r.2.note n).waiters s' = k.waiters s' := addVal_waiters h
  exact shrinks_of_eq heq

theorem wait_changes (h : k.wait s = .ok k') (s' : SemId) :
    Changes (.semWait (some s)) s' k k' := by
  obtain ⟨r, ha, ⟨-, rfl⟩ | ⟨-, hb⟩⟩ := wait_ok h
  · exact (addVal_noted_shrinks ha _).changes s'
  · obtain ⟨k₁, hadd, hd⟩ := block_ok hb
    apply changes_of_join (Or.inl rfl)
    rw [dispatch_waiters hd, show ((k₁.setThreadsSemStatus r.2.running .waiting).setMySem r.2.running
      (some s)).waiters s' = k₁.waiters s' from rfl, addBlocked_waiters hadd, addVal_waiters ha,
      addVal_running ha]

theorem timedWait_changes {n : UInt64} (h : k.timedWait s n = .ok k') (hl : k.Located loc)
    (s' : SemId) : Changes (.semTimedwait (some s) n) s' k k' := by
  obtain ⟨r, ha, ⟨-, rfl⟩ | ⟨-, k₁, k₂, k₃, hadd, hne, hins, hinc, -, hd⟩⟩ := timedWait_parks h hl
  · exact (addVal_noted_shrinks ha _).changes s'
  · obtain ⟨node, hp, -, hk₂⟩ := insertAsleep_ok hins hne
    have hins' : k₂.waiters s' = k₁.waiters s' := waiters_congr (by rw [hk₂]) s'
    apply changes_of_join (Or.inr ⟨n, rfl⟩)
    rw [dispatch_waiters hd, show (k₃.setMySem k.running (some s)).waiters s' = k₃.waiters s' from
      rfl, incTimedWaiting_waiters hinc, hins', addBlocked_waiters hadd]
    exact congrArg (· ++ _) (addVal_waiters ha s')

theorem signal_shrinks {r : ℤ × Kernel} (h : k.signal s = .ok r) : Shrinks k r.2 := by
  obtain ⟨val, k₁, ha, ⟨-, rfl⟩ | ⟨-, k', hu, rfl⟩⟩ := signal_ok h
  · exact addVal_noted_shrinks ha _
  · exact (addVal_noted_shrinks ha _).trans (unblock_shrinks hu)

theorem deleteSem_shrinks (h : k.deleteSem s = .ok k') : Shrinks k k' := by
  obtain ⟨m, k₁, -, hu, rfl⟩ := deleteSem_ok h
  refine (unblockAll_shrinks hu).trans ?_
  intro s'
  by_cases hs : s' = s
  · subst hs
    simp [waiters]
  · simp [waiters, hs]

theorem wake_shrinks {k₁ : Kernel} (h : k.incTime.wakeAsleepThreadsUp = .ok k₁) : Shrinks k k₁ := by
  have hloop : Shrinks k.incTime k₁ :=
    foreachWhile_rel (R := Shrinks) .refl .trans (fun _ _ _ => wakeThreadUp_shrinks) h
  exact hloop

theorem timerInterruptHandler_shrinks (h : k.timerInterruptHandler = .ok k') : Shrinks k k' := by
  obtain ⟨k₁, th, hw, -, ⟨-, hd⟩ | ⟨-, rfl⟩⟩ := timerInterruptHandler_ok h
  · exact (wake_shrinks hw).trans (shrinks_of_eq (dispatch_waiters hd))
  · exact wake_shrinks hw

theorem newThread_sems {body : UInt64} {stack : ℕ} (h : k.newThread body stack = .ok k') :
    k'.sems = k.sems := by
  obtain ⟨-, p, hp, k₁, -, ⟨-, hput⟩ | ⟨-, rfl⟩, rfl⟩ := newThread_ok h
  · exact (put_sems hput).trans rfl
  · rfl

theorem exit_waiters (h : k.exit = .ok k') (s : SemId) : k'.waiters s = k.waiters s := by
  obtain ⟨th, k₁, -, hk₁, hd⟩ := exit_ok h
  have hsems : k₁.sems = k.sems := by
    rcases hk₁ with ⟨rfl, -⟩ | ⟨p, -, rfl⟩
    · rfl
    · unfold decNumOfChildren
      split_ifs <;> rfl
  rw [dispatch_waiters hd]
  exact waiters_congr hsems s

theorem subtleKill_sems (k : Kernel) (t : Tid) : (k.subtleKill t).2.sems = k.sems := by
  unfold subtleKill
  split
  · rfl
  · split_ifs <;> rfl

theorem newSem_shrinks {n : UInt64} (h : k.newSem n = .ok k') : Shrinks k k' := by
  obtain ⟨p, hp, node, hp', -, -, rfl⟩ := newSem_ok h
  intro s'
  by_cases hs : s' = k.nextSem
  · subst hs
    simp [waiters]
  · simp [waiters, hs]

theorem step_changes {e : Event} (h : k.step e = .ok k') (hi : k.Inv) (s : SemId) :
    Changes e s k k' := by
  obtain ⟨loc, hl⟩ := hi.located
  cases step_effect h with
  | idle => exact (Shrinks.refl k).changes s
  | memAlloc => exact changes_of_eq (fun _ => rfl) s
  | memFree => exact changes_of_eq (fun _ => rfl) s
  | threadCreate h => exact changes_of_eq (waiters_congr (newThread_sems h)) s
  | threadExit h => exact changes_of_eq (exit_waiters h) s
  | threadDispatch h => exact changes_of_eq (dispatch_waiters h) s
  | semOpen h => exact (newSem_shrinks h).changes s
  | semClose s' h => exact (deleteSem_shrinks h).changes s
  | semWait s' h => exact wait_changes h s
  | semSignal s' hr => exact (signal_shrinks hr).changes s
  | semTimedwait s' h => exact timedWait_changes h hl s
  | semTrywait s' hr => exact changes_of_eq (addVal_waiters hr) s
  | timeSleep h =>
    obtain ⟨k₁, hne, hins, -, hd⟩ := putThreadToSleep_parks h hl
    obtain ⟨node, hp, -, rfl⟩ := insertAsleep_ok hins hne
    exact changes_of_eq (fun s => (dispatch_waiters hd s).trans rfl) s
  | tick h => exact (timerInterruptHandler_shrinks h).changes s
  | subtleKill t => exact changes_of_eq (waiters_congr (subtleKill_sems k t)) s

/-! The order in which the waiting threads came. -/

theorem Placed.mem_waiters (hp : k.Placed pend loc) :
    t ∈ k.waiters s ↔ loc t = .blocked s ∨ loc t = .timed s := by
  refine ⟨?_, ?_⟩
  · intro ht
    cases hm : k.sems s with
    | none => simp [waiters, hm] at ht
    | some m => exact hp.mem_queue hm (waiters_some hm ▸ ht)
  · intro hloc
    obtain ⟨m, hm, hin⟩ := hp.open_queue hloc
    exact (waiters_some hm).symm ▸ hin

theorem queued_eq (k : Kernel) (s : SemId) (t : Tid) : k.queued s t = (k.waiters s).count t := by
  unfold queued waiters
  cases k.sems s <;> simp

/-- The threads that wait on `s` stand in a line. -/
theorem waiters_lined (s : SemId) :
    Lined step (fun k => k.waiters s) (fun k e t => WaitCall s e ∧ t = k.running) Inv where
  inv _ _ _ hi h := step_inv h hi
  outside k _ t hi hj ht := by
    obtain ⟨loc, hl⟩ := hi.located
    obtain ⟨-, rfl⟩ := hj
    have hloc := hl.placed.mem_waiters.1 ht
    simp [hl.running_cpu] at hloc
  moves k e k' hi h := by
    rcases step_changes h hi s with hsub | ⟨he, hw⟩
    · exact Or.inl hsub
    · exact Or.inr ⟨k.running, ⟨he, rfl⟩, hw⟩

/-- In the run over `es` from `kb` to `k`, the thread `t` blocked on `s` in the step
number `i`, and nothing has taken it out of the queue since. -/
def BlockedSince (kb : Kernel) (es : List Event) (k : Kernel) (s : SemId) (t : Tid) (i : ℕ) : Prop :=
  Since step (fun k => k.waiters s) (fun k e t => WaitCall s e ∧ t = k.running) kb es k t i

theorem boot_waiters {kb : Kernel} (hb : boot start total = some kb) (s : SemId) :
    kb.waiters s = [] := by
  obtain ⟨stack, hp, p, hp', -, -, rfl⟩ := boot_ok hb
  rfl

/-- From `k` to `k'` the first thread of the queue of `s` became the last ready
one, and nothing happened to any other thread or queue. -/
structure Serves (s : SemId) (t : Tid) (k k' : Kernel) : Prop where
  first : k.waiters s = t :: k'.waiters s
  queues : ∀ s' ≠ s, k'.waiters s' = k.waiters s'
  ready : k'.queueThreads.items = k.queueThreads.items ++ [t]
  asleep : k'.listAsleepThreads = k.listAsleepThreads.filter (·.data ≠ t)
  record : ∃ th, k.threads t = some th ∧ k'.threads t = some (th.released .regularlyWaited)
  others : ∀ t' ≠ t, k'.threads t' = k.threads t'
  running : k'.running = k.running

theorem unblock_serves {ts : List Tid} (h : k.unblock s .regularlyWaited = .ok k')
    (hp : k.Placed pend loc) (hcpu : loc k.running = .cpu) (hw : k.waiters s = t :: ts) :
    Serves s t k k' := by
  obtain ⟨m, hm⟩ : ∃ m, k.sems s = some m := by
    cases hm : k.sems s with
    | none => simp [waiters, hm] at hw
    | some m => exact ⟨m, rfl⟩
  obtain ⟨e, q, hq, rfl, -⟩ : ∃ e q, m.queueBlocked = e :: q ∧ e.data = t ∧ KList.items q = ts :=
    List.map_eq_cons_iff.1 ((waiters_some hm).symm.trans hw)
  have hwoken : SemStatus.regularlyWaited.Woken := trivial
  have hd := unblock_drains h hp hcpu hwoken hm hq
  obtain ⟨l, hl, hitems⟩ := hd.ready
  refine ⟨?_, ?_, ?_, ?_, hd.released e.data (List.mem_singleton_self _), ?_,
    (unblock_stays h).running⟩
  · rw [unblock_waiters h, if_pos rfl, hw, List.tail_cons]
  · intro s' hne
    rw [unblock_waiters h, if_neg hne]
  · rw [hl, KList.items_append, hitems]
  · rw [hd.asleep]
    simp
  · intro t' hne
    exact hd.others t' (by simpa using hne)

/-- A signal comes back when a thread waits, and serves the first one. -/
theorem signal_serves {ts : List Tid} (hi : k.Inv) (hs : k.Stored start total) (hr : k.Ranged)
    (hw : k.waiters s = t :: ts) : ∃ k', k.step (.semSignal (some s)) = .ok k' ∧ Serves s t k k' := by
  obtain ⟨loc, hl⟩ := hi.located
  have hsound : Sound start total k (fun _ => none) loc :=
    ⟨hl.placed, hl.running_cpu, hs, hr, hi.short⟩
  obtain ⟨m, hm, -, hneg, hlow⟩ :=
    hsound.owes (hl.placed.mem_waiters.1 (hw ▸ List.mem_cons_self))
  obtain ⟨e, q, hq, -⟩ : ∃ e q, m.queueBlocked = e :: q ∧ e.data = t ∧ KList.items q = ts :=
    List.map_eq_cons_iff.1 ((waiters_some hm).symm.trans hw)
  have ha := addVal_total (d := 1) hm (by omega) (by omega)
  generalize hk₁ : k.setSem s { m with val := m.val + 1 } = k₁ at ha
  have hm₁ : (k₁.note (.signalled s)).sems s = some { m with val := m.val + 1 } := by
    simp [← hk₁, note]
  have hp₁ : (k₁.note (.signalled s)).Placed (fun _ => none) loc :=
    (hl.placed.congr (addVal_view ha)).congr fun _ => rfl
  have hrun₁ : k₁.running = k.running := addVal_running ha
  have hw₁ : ∀ s', (k₁.note (.signalled s)).waiters s' = k.waiters s' := addVal_waiters ha
  obtain ⟨k', hu⟩ : ∃ k', (k₁.note (.signalled s)).unblock s .regularlyWaited = .ok k' :=
    unblock_total hp₁ (note_stored (.signalled s) (addVal_stored ha hs).1) hm₁ hq
  have hsame : k₁.queueThreads = k.queueThreads ∧ k₁.listAsleepThreads = k.listAsleepThreads ∧
      k₁.threads = k.threads := by
    simp [← hk₁, setSem]
  obtain ⟨hready, hasleep, hthreads⟩ := hsame
  refine ⟨k', ?_, ?_⟩
  · have hsig : k.signal s = .ok (1, k') := by
      unfold signal
      simp only [ha, bind, Except.bind, if_neg (show ¬0 < m.val + 1 by omega), hu]
      rfl
    simp only [step, withHandle, hsig]
    rfl
  · -- counting the signal changes neither a queue nor a thread
    have hserves := unblock_serves hu hp₁ (hrun₁ ▸ hl.running_cpu) ((hw₁ s).trans hw)
    exact {
      first := (hw₁ s).symm.trans hserves.first
      queues := fun s' hne => (hserves.queues s' hne).trans (hw₁ s')
      ready := hready ▸ hserves.ready
      asleep := hasleep ▸ hserves.asleep
      record := hthreads ▸ hserves.record
      others := hthreads ▸ hserves.others
      running := hserves.running.trans hrun₁ }

/-- A thread that leaves the queue was the first one when `s` was signalled, or
its timeout was over at a tick, or `s` was closed. -/
theorem step_leaves {e : Event} (h : k.step e = .ok k') (hi : k.Inv) (ht : t ∈ k.waiters s)
    (ht' : t ∉ k'.waiters s) :
    e = .semSignal (some s) ∧ k.waiters s = t :: k'.waiters s ∨
      e = .tick ∧ k'.TimesOut t s (k.log t) ∨ e = .semClose (some s) := by
  obtain ⟨loc, hl⟩ := hi.located
  have hloc := hl.placed.mem_waiters.1 ht
  have hID : t ≤ k.ID := by
    by_contra hgt
    obtain ⟨th, hth, -⟩ := hl.placed.record (t := t) (by rcases hloc with h | h <;> simp [h])
    rw [hi.freshThread t (Nat.lt_of_not_le hgt)] at hth
    cases hth
  have hwaits : k.Waits t s (k.log t) := by
    refine ⟨?_, rfl⟩
    rw [hl.placed.queued]
    rcases hloc with h | h <;> simp [h, Place.inQueue]
  rcases step_waits h hi hID hwaits with hw' | ⟨c, a, hc, hend⟩
  · have hzero := List.count_eq_zero_of_not_mem ht'
    rw [← queued_eq, hw'.queued] at hzero
    cases hzero
  cases hc with
  | signal =>
    obtain ⟨r, hr, rfl⟩ := map_ok h
    left
    refine ⟨rfl, ?_⟩
    obtain ⟨val, k₁, ha, ⟨-, rfl⟩ | ⟨-, k', hu, rfl⟩⟩ := signal_ok hr
    · exact absurd ((addVal_waiters ha s).symm ▸ ht) ht'
    · have hq : k'.waiters s = (k.waiters s).tail := by
        rw [unblock_waiters hu, if_pos rfl]
        exact congrArg List.tail (addVal_waiters ha s)
      change t ∉ k'.waiters s at ht'
      change k.waiters s = t :: k'.waiters s
      rw [hq] at ht' ⊢
      cases hk : k.waiters s with
      | nil => simp [hk] at ht
      | cons t₀ ts =>
        rw [hk] at ht ht'
        rw [(List.mem_cons.1 ht).resolve_right ht', List.tail_cons]
  | tick => exact Or.inr (Or.inl ⟨rfl, hend⟩)
  | close => exact Or.inr (Or.inr rfl)

/-- In every state of a run and for every semaphore, each waiting thread has been
blocked since one of its calls. When a thread waits, a signal comes back and makes
the thread that has been blocked longest the last ready one; so a thread that an
earlier signal served had blocked before every thread that waits now. Threads
leave the queue only so, by their timeouts, or by `sem_close`, and a tick leaves
the others in their order. -/
theorem signals_in_order {kb : Kernel} {es : List Event} (hb : boot start total = some kb)
    (h : Run step (fun _ _ => True) kb es k) (s : SemId) :
    (∀ t ∈ k.waiters s, ∃ i, BlockedSince kb es k s t i) ∧
    (∀ t ts, k.waiters s = t :: ts →
      (∃ k', k.step (.semSignal (some s)) = .ok k' ∧ Serves s t k k') ∧
      ∀ t' ∈ ts, ∀ i j, BlockedSince kb es k s t i → BlockedSince kb es k s t' j → i < j) ∧
    (∀ es₁ es₂ k₁ k₂ t i, es = es₁ ++ .semSignal (some s) :: es₂ →
      Run step (fun _ _ => True) kb es₁ k₁ → k₁.step (.semSignal (some s)) = .ok k₂ →
      Serves s t k₁ k₂ → BlockedSince kb es₁ k₁ s t i →
      ∀ t' j, BlockedSince kb es k s t' j → i < j) ∧
    (∀ e k', k.step e = .ok k' → ∀ t ∈ k.waiters s, t ∉ k'.waiters s →
      e = .semSignal (some s) ∧ k.waiters s = t :: k'.waiters s ∨
        e = .tick ∧ k'.TimesOut t s (k.log t) ∨ e = .semClose (some s)) ∧
    ∀ k', k.step .tick = .ok k' → (k'.waiters s).Sublist (k.waiters s) := by
  have hlined := waiters_lined s
  have h₀ := boot_inv hb
  have hnil := boot_waiters hb s
  obtain ⟨hi, hs⟩ := run_stored hb h
  obtain ⟨hsince, hpair⟩ := hlined.in_order h₀ hnil h
  refine ⟨hsince, ?_, ?_, fun e k' hstep t => step_leaves hstep hi, ?_⟩
  · intro t ts hw
    refine ⟨signal_serves hi hs (run_ranged hb h) hw, ?_⟩
    rw [show (fun k : Kernel => k.waiters s) k = t :: ts from hw, List.pairwise_cons] at hpair
    exact hpair.1
  · rintro es₁ es₂ k₁ k₂ t i rfl h₁ hstep hserves hsince₁ t' j hsince'
    obtain ⟨loc, hl⟩ := (run_inv h₁ h₀).located
    have hgone : t ∉ k₂.waiters s := by
      have hnd : (k₁.waiters s).Nodup := List.nodup_iff_count_le_one.2 fun t => by
        rw [← queued_eq, hl.placed.queued]
        exact inQueue_le _ _
      rw [hserves.first, List.nodup_cons] at hnd
      exact hnd.1
    exact hlined.first_first h₀ hnil h₁ hserves.first hsince₁ hstep hgone hsince'
  · intro k' htick
    exact timerInterruptHandler_shrinks htick s

/-- The threads 2 and 3 block in this order, one with a timeout; a signal serves
the thread 2, and the next one would serve the thread 3. -/
theorem signals_in_order_two : ∃ kb k₁ k₂ i, boot 1024 1000 = some kb ∧
    Run step (fun _ _ => True) kb [.memAlloc 65, .threadCreate 4096 5328, .memAlloc 65,
      .threadCreate 4096 9680, .semOpen 0, .threadDispatch, .semTimedwait (some 0) 5,
      .semWait (some 0)] k₁ ∧
    k₁.waiters 0 = [2, 3] ∧ k₁.step (.semSignal (some 0)) = .ok k₂ ∧ Serves 0 2 k₁ k₂ ∧
    k₂.waiters 0 = [3] ∧ BlockedSince kb [.memAlloc 65, .threadCreate 4096 5328, .memAlloc 65,
      .threadCreate 4096 9680, .semOpen 0, .threadDispatch, .semTimedwait (some 0) 5,
      .semWait (some 0)] k₁ 0 2 i ∧
    ∀ t' j, BlockedSince kb [.memAlloc 65, .threadCreate 4096 5328, .memAlloc 65,
      .threadCreate 4096 9680, .semOpen 0, .threadDispatch, .semTimedwait (some 0) 5,
      .semWait (some 0), .semSignal (some 0)] k₂ 0 t' j → i < j := by
  have hrun : ((boot 1024 1000).bind fun kb => exec step (fun _ _ => True) kb [.memAlloc 65,
      .threadCreate 4096 5328, .memAlloc 65, .threadCreate 4096 9680, .semOpen 0, .threadDispatch,
      .semTimedwait (some 0) 5, .semWait (some 0)]).any (fun k => k.waiters 0 = [2, 3]) = true := by
    decide +kernel
  obtain ⟨kb, k₁, hb, h, hq⟩ := exists_run hrun
  have hw : k₁.waiters 0 = [2, 3] := of_decide_eq_true hq
  obtain ⟨hsince, hfirst, -⟩ := signals_in_order hb h 0
  obtain ⟨⟨k₂, hstep, hserves⟩, -⟩ := hfirst 2 [3] hw
  obtain ⟨i, hi⟩ := hsince 2 (by simp [hw])
  obtain ⟨-, -, horder, -⟩ := signals_in_order hb (h.snoc trivial hstep) 0
  have hw₂ : k₂.waiters 0 = [3] := (List.cons.inj (hserves.first.symm.trans hw)).2
  exact ⟨kb, k₁, k₂, i, hb, h, hw, hstep, hserves, hw₂, hi,
    horder _ [] k₁ k₂ 2 i rfl h hstep hserves hi⟩

end Kernel
end OSK
