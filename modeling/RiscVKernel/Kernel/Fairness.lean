import RiscVKernel.Kernel.Answers
import RiscVKernel.Kernel.Dangling
import RiscVKernel.Kernel.SleepList
import RiscVKernel.Kernel.Waking
import RiscVKernel.Lib.Ranking

/-! The ready queue is first in, first out. Everything that makes a thread ready
puts it at the end, so that the others keep their places, and a `dispatch` takes
away what stands in front. -/

namespace OSK

open Lib

namespace Kernel

variable {k k' k₀ k₁ k₂ : Kernel} {t : Tid} {s : SemId} {c : Context} {cause : SemStatus}
  {e : Event} {th : Thread} {loc : Tid → Place} {start total : ℕ}

/-! Calls that only put threads at the end. -/

/-- The ready queue grows at its end and the same thread runs, for the time it
had before. -/
structure Appends (k k' : Kernel) : Prop where
  queue : ∃ l, k'.queueThreads.items = k.queueThreads.items ++ l
  running : k'.running = k.running
  cpuTime : k'.runningThreadCpuTime = k.runningThreadCpuTime

theorem Appends.refl (k : Kernel) : Appends k k := ⟨⟨[], by simp⟩, rfl, rfl⟩

theorem Appends.trans (h : Appends k k') (h' : Appends k' k₂) : Appends k k₂ := by
  obtain ⟨⟨l, hl⟩, hr, hc⟩ := h
  obtain ⟨⟨l', hl'⟩, hr', hc'⟩ := h'
  exact ⟨⟨l ++ l', by rw [hl', hl, List.append_assoc]⟩, hr'.trans hr, hc'.trans hc⟩

theorem appends_of_stays (h : Stays k k') (hq : k'.queueThreads = k.queueThreads) :
    Appends k k' :=
  ⟨⟨[], by rw [hq, List.append_nil]⟩, h.running, h.cpuTime⟩

theorem put_appends (h : k.put t = .ok k') : Appends k k' := by
  obtain ⟨node, hp, -, rfl⟩ := put_ok h
  exact ⟨⟨[t], by simp⟩, rfl, rfl⟩

theorem addVal_appends {d : ℤ} {r : ℤ × Kernel} (h : k.addVal s d = .ok r) : Appends k r.2 := by
  apply appends_of_stays (addVal_stays h)
  obtain ⟨m, -, -, rfl⟩ := addVal_ok h
  rfl

theorem release_appends (h : k.release t s cause = .ok k') : Appends k k' := by
  obtain ⟨node, hp, -, rfl⟩ := put_ok h
  exact ⟨⟨[t], by simp [note, setMySem, setThreadsSemStatus]⟩, rfl, rfl⟩

theorem removeThreadFromSleep_appends (k : Kernel) (t : Tid) :
    Appends k (k.removeThreadFromSleep t).2 :=
  appends_of_stays (removeThreadFromSleep_stays k t) rfl

theorem unblock_appends (h : k.unblock s cause = .ok k') : Appends k k' := by
  obtain ⟨t, k₁, th, hf, -, hr⟩ := unblock_ok h
  have hfirst : Appends k k₁ := by
    apply appends_of_stays (firstBlocked_stays hf)
    obtain ⟨m, -, ⟨-, hn⟩ | ⟨e, q, -, he⟩⟩ := firstBlocked_ok hf
    · cases hn
    · cases he
      rfl
  refine hfirst.trans (Appends.trans ?_ (release_appends hr))
  split_ifs
  · exact removeThreadFromSleep_appends k₁ t
  · exact .refl k₁

theorem unblockAll_appends {n : ℕ} (h : k.unblockAll s cause n = .ok k') : Appends k k' := by
  induction n generalizing k with
  | zero =>
    cases h
    exact .refl _
  | succ n ih =>
    obtain ⟨k₁, r, hu, ha, h⟩ := unblockAll_ok h
    exact ((unblock_appends hu).trans (addVal_appends ha)).trans (ih h)

theorem unblockedByTime_appends (h : k.unblockedByTime s t = .ok k') : Appends k k' := by
  obtain ⟨th, -, ⟨-, rfl⟩ | ⟨-, r, k₁, ha, hb, hr⟩⟩ := unblockedByTime_ok h
  · exact .refl _
  · have hremove : Appends (r.2.removeThreadFromSleep t).2 k₁ := by
      apply appends_of_stays (removeBlocked_stays hb)
      obtain ⟨m, -, rfl⟩ := removeBlocked_ok hb
      rfl
    exact (((addVal_appends ha).trans (removeThreadFromSleep_appends _ t)).trans hremove).trans
      (release_appends hr)

theorem wakeThreadUp_appends (h : k.wakeThreadUp t = .ok k') : Appends k k' := by
  cases ht : k.threads t with
  | none =>
    unfold wakeThreadUp at h
    simp only [ht] at h
    cases h
    exact .refl _
  | some th =>
    rcases wakeThreadUp_ok h ht with ⟨-, ⟨-, rfl⟩ | ⟨s, -, hu⟩⟩ | ⟨-, ⟨-, hput⟩ | ⟨-, rfl⟩⟩
    · exact .refl _
    · exact unblockedByTime_appends hu
    · exact (removeThreadFromSleep_appends k t).trans (put_appends hput)
    · exact removeThreadFromSleep_appends k t

/-! `dispatch`. -/

theorem deleteThreadInDispatch_cpuTime (h : k.deleteThreadInDispatch t = .ok k') :
    k'.runningThreadCpuTime = k.runningThreadCpuTime := by
  unfold deleteThreadInDispatch at h
  dsimp only at h
  split_ifs at h
  · obtain ⟨th, -, rfl⟩ := deleteThread_ok h
    rfl
  · cases h
    rfl

theorem dispatch_cpuTime (h : k.dispatch c = .ok k') : k'.runningThreadCpuTime = 0 := by
  obtain ⟨k₁, hlv, ha⟩ := dispatch_ok h
  obtain ⟨k₂, t, hs, -, hr⟩ := arrive_ok ha
  have hleave : k₁.runningThreadCpuTime = 0 := by
    obtain ⟨th, -, ⟨-, hput⟩ | ⟨-, rfl⟩ | ⟨-, hd⟩⟩ := leave_ok hlv
    · exact (put_stays hput).cpuTime
    · rfl
    · obtain ⟨_, -, rfl⟩ := deleteThread_ok hd
      rfl
  have hsweep : k₂.runningThreadCpuTime = k₁.runningThreadCpuTime :=
    foreachWhile_rel (R := fun k k' => k'.runningThreadCpuTime = k.runningThreadCpuTime)
      (fun _ => rfl) (fun h₁ h₂ => h₂.trans h₁) (fun _ _ _ => deleteThreadInDispatch_cpuTime) hs
  refine ((resume_stays hr).cpuTime.trans ?_).trans (hsweep.trans hleave)
  unfold saveContext
  split_ifs <;> rfl

/-- A `dispatch` brings a live thread forward by the threads it takes away. -/
theorem dispatch_forward (h : k.dispatch c = .ok k') (hne : t ≠ k.running)
    (ht : t ∈ k.queueThreads.items) (hlive : k.isFinished t = false) :
    k'.running = t ∨ t ∈ k'.queueThreads.items ∧
      k'.queueThreads.items.idxOf t < k.queueThreads.items.idxOf t := by
  obtain ⟨k₁, hlv, ha⟩ := dispatch_ok h
  obtain ⟨th, hth, -⟩ := leave_ok hlv
  obtain ⟨hin, hout, hother⟩ := leave_queue hlv hth
  have hgrows : ∃ l, k₁.queueThreads.items = k.queueThreads.items ++ l := by
    by_cases hr : Runnable th
    · exact ⟨[k.running], (hin hr).1⟩
    · exact ⟨[], by rw [hout hr, List.append_nil]⟩
  obtain ⟨l, hq⟩ := hgrows
  have hserved := arrive_queue ha
  rw [hq] at hserved
  exact served_forward hserved ht ((hother t hne).trans hlive)

/-! Events. -/

/-- `val--` leaves nothing for the caller, who blocks. -/
def blocks (k : Kernel) (s : SemId) : Bool :=
  match k.sems s with
  | none => false
  | some m => m.val ≤ 0

/-- The events whose step calls `dispatch`. -/
def dispatches (k : Kernel) : Event → Bool
  | .threadExit => true
  | .threadDispatch => true
  | .semWait (some s) => k.blocks s
  | .semTimedwait (some s) _ => k.blocks s
  | .timeSleep _ => true
  | .tick => k.expires
  | _ => false

@[simp] theorem dispatches_semWait (k : Kernel) (s : SemId) :
    k.dispatches (.semWait (some s)) = k.blocks s := rfl

@[simp] theorem dispatches_semTimedwait (k : Kernel) (s : SemId) (n : UInt64) :
    k.dispatches (.semTimedwait (some s) n) = k.blocks s := rfl

@[simp] theorem dispatches_tick (k : Kernel) : k.dispatches .tick = k.expires := rfl

/-- What a step does before its `dispatch`. -/
structure Prepares (k k₁ : Kernel) : Prop where
  queue : ∃ l, k₁.queueThreads.items = k.queueThreads.items ++ l
  running : k₁.running = k.running
  alive : ∀ t ≠ k.running, k.Alive t → k₁.Alive t

/-- A step keeps the processor with its thread, or dispatches. -/
inductive Turn (k : Kernel) (e : Event) (k' : Kernel) : Prop
  | goes (hd : k.dispatches e = false) (ha : Appends (if e = .tick then k.incTime else k) k')
  | yields (k₁ : Kernel) (c : Context) (hd : k.dispatches e = true) (hp : Prepares k k₁)
      (hk : k₁.dispatch c = .ok k')

theorem blocks_iff {r : ℤ × Kernel} (h : k.addVal s (-1) = .ok r) : k.blocks s = decide (r.1 < 0) := by
  obtain ⟨m, hm, -, rfl⟩ := addVal_ok h
  simp only [blocks, hm, decide_eq_decide]
  omega

theorem wait_turn (h : k.wait s = .ok k') : Turn k (.semWait (some s)) k' := by
  obtain ⟨r, ha, ⟨hv, rfl⟩ | ⟨hv, hb⟩⟩ := wait_ok h
  · refine .goes (by simp [blocks_iff ha, hv]) ((addVal_appends ha).trans ?_)
    exact appends_of_stays (note_stays _ _) rfl
  · obtain ⟨k₁, hadd, hd⟩ := block_ok hb
    rw [addVal_running ha] at hadd hd
    have hc : Calm (fun _ => True) k ((k₁.setThreadsSemStatus k.running .waiting).setMySem k.running
        (some s)) := (((addVal_calm ha).trans (addBlocked_calm hadd)).trans
      (setThreadsSemStatus_calm _ _ _)).trans (setMySem_calm _ _ _)
    refine .yields _ _ (by simp [blocks_iff ha, hv]) ⟨⟨[], ?_⟩, hc.running,
      fun t _ ht => (hc.alive t).2 ht⟩ hd
    obtain ⟨m, node, hp, -, -, rfl⟩ := addBlocked_ok hadd
    obtain ⟨m', -, -, rfl⟩ := addVal_ok ha
    simp [setThreadsSemStatus, setMySem, setSem]

theorem timedWait_turn {n : UInt64} (h : k.timedWait s n = .ok k') (hl : k.Located loc) :
    Turn k (.semTimedwait (some s) n) k' := by
  obtain ⟨r, ha, ⟨hv, rfl⟩ | ⟨hv, k₁, k₂, k₃, hadd, hne, hi, hn, -, hd⟩⟩ := timedWait_parks h hl
  · refine .goes (by simp [blocks_iff ha, hv]) ((addVal_appends ha).trans ?_)
    exact appends_of_stays (note_stays _ _) rfl
  · have htiming : Calm (fun _ => True) r.2 (r.2.timing k.running (wrap (n.toNat + r.2.sysTime))) :=
      (setThreadsSemStatus_calm _ _ _).trans (setTimeForWakingUp_calm _ _ _)
    have hc : Calm (fun _ => True) k (k₃.setMySem k.running (some s)) :=
      (((((addVal_calm ha).trans htiming).trans (addBlocked_calm hadd)).trans
        (insertAsleep_calm hi hne)).trans (incTimedWaiting_calm hn)).trans (setMySem_calm _ _ _)
    refine .yields _ _ (by simp [blocks_iff ha, hv]) ⟨⟨[], ?_⟩, hc.running,
      fun t _ ht => (hc.alive t).2 ht⟩ hd
    obtain ⟨m₃, -, rfl⟩ := incTimedWaiting_ok hn
    obtain ⟨node₂, hp₂, -, rfl⟩ := insertAsleep_ok hi hne
    obtain ⟨m₁, node₁, hp₁, -, -, rfl⟩ := addBlocked_ok hadd
    obtain ⟨m₀, -, -, rfl⟩ := addVal_ok ha
    simp [timing, setThreadsSemStatus, setTimeForWakingUp, setMySem, setSem]

theorem putThreadToSleep_turn {n m : UInt64} (h : k.putThreadToSleep m = .ok k')
    (hl : k.Located loc) : Turn k (.timeSleep n) k' := by
  obtain ⟨k₁, hne, hi, -, hd⟩ := putThreadToSleep_parks h hl
  obtain ⟨th, hth, -, hst⟩ := cpu_state hl.placed hl.running_cpu
  have hf : th.threadState ≠ .finished := by rcases hst with h | h <;> simp [h]
  have hc : Calm (fun _ => True) k k₁ :=
    ((setThreadState_calm hth hf (by simp)).trans (setTimeForWakingUp_calm _ _ _)).trans
      (insertAsleep_calm hi hne)
  refine .yields k₁ _ rfl ⟨⟨[], ?_⟩, hc.running, fun t _ ht => (hc.alive t).2 ht⟩ hd
  obtain ⟨node, hp, -, rfl⟩ := insertAsleep_ok hi hne
  simp [dozing, setThreadState, setTimeForWakingUp]

theorem exit_turn (h : k.exit = .ok k') : Turn k .threadExit k' := by
  obtain ⟨th, k₁, -, hk₁, hd⟩ := exit_ok h
  have h₁ : k₁.queueThreads = k.queueThreads ∧ k₁.running = k.running ∧
      ∀ t, k.Alive t → k₁.Alive t := by
    rcases hk₁ with ⟨rfl, -⟩ | ⟨p, -, rfl⟩
    · exact ⟨rfl, rfl, fun t ht => ht⟩
    · have hc : Calm (fun _ => True) k (k.decNumOfChildren p) := decNumOfChildren_calm p fun _ => trivial
      exact ⟨decNumOfChildren_queue k p, hc.running, fun t ht => (hc.alive t).2 ht⟩
  obtain ⟨hq, hrun, halive⟩ := h₁
  exact .yields (k₁.setFinished k.running) _ rfl ⟨⟨[], by simp [setFinished, hq]⟩, hrun,
    fun t hne ht => (setFinished_alive ..).2 ⟨hne, halive t ht⟩⟩ hd

theorem timerInterruptHandler_turn (h : k.timerInterruptHandler = .ok k') : Turn k .tick k' := by
  obtain ⟨k₁, th, hw, hth, hcase⟩ := timerInterruptHandler_ok h
  have hstays := wakeAsleepThreadsUp_stays hw
  have happends : Appends k.incTime k₁ :=
    foreachWhile_rel (R := Appends) .refl .trans (fun _ _ _ => wakeThreadUp_appends) hw
  obtain ⟨th₀, hth₀, horigin, -⟩ := hstays.record hth
  rw [happends.running] at hth₀
  have hexpires : k.expires = decide (th.timeSlice ≤ k₁.runningThreadCpuTime) := by
    have hth₀ : k.threads k.running = some th₀ := hth₀
    rw [expires, hth₀, happends.cpuTime, show th.timeSlice = th₀.timeSlice from
      congrArg (·.2.2.1) horigin]
    rfl
  rcases hcase with ⟨hle, hd⟩ | ⟨hlt, rfl⟩
  · have hc : Calm (fun _ => True) k.incTime k₁ :=
      foreachWhile_rel .refl .trans (fun _ _ _ => wakeThreadUp_calm) hw
    exact .yields k₁ _ (by simp [hexpires, hle])
      ⟨happends.queue, happends.running, fun t _ ht => (hc.alive t).2 ht⟩ hd
  · exact .goes (by simp [hexpires, hlt]) happends

theorem memory_appends (k : Kernel) (hp : Heap) (u : List ℕ) :
    Appends k { k with heap := hp, user := u } := ⟨⟨[], by simp⟩, rfl, rfl⟩

theorem newThread_appends {body : UInt64} {stack : ℕ} (h : k.newThread body stack = .ok k') :
    Appends k k' := by
  obtain ⟨-, p, hp, k₁, -, ⟨-, hput⟩ | ⟨-, rfl⟩, rfl⟩ := newThread_ok h
  · apply ((memory_appends k _ _).trans (put_appends hput)).trans
    exact ⟨⟨[], by simp [enroll, countChild]⟩, rfl, rfl⟩
  · exact ⟨⟨[], by simp [enroll, countChild]⟩, rfl, rfl⟩

theorem subtleKill_appends (k : Kernel) (t : Tid) : Appends k (k.subtleKill t).2 := by
  apply appends_of_stays (subtleKill_stays k t)
  unfold subtleKill
  split
  · rfl
  · split_ifs <;> rfl

theorem mayIdle_dispatches (k : Kernel) (he : mayIdle e = true) :
    k.dispatches e = false ∧ e ≠ .tick := by
  cases e with
  | memAlloc n => exact ⟨rfl, nofun⟩
  | semClose sem | semWait sem | semSignal sem | semTimedwait sem n | semTrywait sem =>
    cases sem with
    | none => exact ⟨rfl, nofun⟩
    | some s => cases he
  | _ => cases he

theorem step_turn (h : k.step e = .ok k') (hi : k.Inv) : Turn k e k' := by
  obtain ⟨loc, hl⟩ := hi.located
  have hsame : ∀ {e k₁}, k.dispatches e = false → e ≠ .tick → Appends k k₁ → Turn k e k₁ :=
    fun hd he ha => .goes hd (by rw [if_neg he]; exact ha)
  cases step_effect h with
  | idle he =>
    obtain ⟨hd, hne⟩ := mayIdle_dispatches k he
    exact hsame hd hne (.refl k)
  | memAlloc => exact hsame rfl (by simp) (memory_appends k _ _)
  | memFree => exact hsame rfl (by simp) (memory_appends k _ _)
  | threadCreate h => exact hsame rfl (by simp) (newThread_appends h)
  | threadExit h => exact exit_turn h
  | threadDispatch h => exact .yields k _ rfl ⟨⟨[], by simp⟩, rfl, fun _ _ ht => ht⟩ h
  | semOpen h =>
    obtain ⟨p, hp, node, hp', -, -, rfl⟩ := newSem_ok h
    exact hsame rfl (by simp) ⟨⟨[], by simp⟩, rfl, rfl⟩
  | semClose s h =>
    obtain ⟨m, k₁, -, hu, rfl⟩ := deleteSem_ok h
    exact hsame rfl (by simp) ((unblockAll_appends hu).trans ⟨⟨[], by simp⟩, rfl, rfl⟩)
  | semWait s h => exact wait_turn h
  | semSignal s hr =>
    apply hsame rfl (by simp)
    have hnote : ∀ k₁ : Kernel, Appends k₁ (k₁.note (.signalled s)) := fun k₁ =>
      appends_of_stays (note_stays _ _) rfl
    obtain ⟨val, k₁, ha, ⟨-, rfl⟩ | ⟨-, k', hu, rfl⟩⟩ := signal_ok hr
    · exact (addVal_appends ha).trans (hnote k₁)
    · exact ((addVal_appends ha).trans (hnote k₁)).trans (unblock_appends hu)
  | semTimedwait s h => exact timedWait_turn h hl
  | semTrywait s hr => exact hsame rfl (by simp) (addVal_appends hr)
  | timeSleep h => exact putThreadToSleep_turn h hl
  | tick h => exact timerInterruptHandler_turn h
  | subtleKill t => exact hsame rfl (by simp) (subtleKill_appends k t)

/-! The turn of a thread. -/

/-- `t` waits in the ready queue for its turn. -/
def Ready (k : Kernel) (t : Tid) : Prop := k.Alive t ∧ t ∈ k.queueThreads.items

/-- `t` gets the processor, or its parent kills it. -/
def HasTurn (t : Tid) (k : Kernel) (e : Event) (k' : Kernel) : Prop :=
  k'.running = t ∨ e = .subtleKill t ∧ (k.subtleKill t).1 = 0

/-- Its place in the ready queue. -/
def place (t : Tid) (k : Kernel) : ℕ := k.queueThreads.items.idxOf t

/-- No event moves a live thread of the ready queue back, and each `dispatch`
moves it forward or lets it run. -/
theorem step_place (h : k.step e = .ok k') (hi : k.Inv) (hr : k.Ready t) :
    k'.running = t ∨ t ∈ k'.queueThreads.items ∧
      place t k' + (if k.dispatches e then 1 else 0) ≤ place t k := by
  obtain ⟨loc, hl⟩ := hi.located
  have hne : t ≠ k.running := by
    rintro rfl
    have := hl.placed.mem_ready hr.2
    simp [hl.running_cpu] at this
  rcases step_turn h hi with ⟨hd, ha⟩ | ⟨k₁, c, hd, hp, hk⟩
  · obtain ⟨l, hq⟩ := ha.queue
    have hq : k'.queueThreads.items = k.queueThreads.items ++ l := by
      rw [hq]
      split_ifs <;> rfl
    right
    rw [hd, place, place, hq, List.idxOf_append_of_mem hr.2]
    exact ⟨List.mem_append_left _ hr.2, by simp⟩
  · obtain ⟨l, hq⟩ := hp.queue
    have hin : t ∈ k₁.queueThreads.items := hq ▸ List.mem_append_left l hr.2
    have hidx : k₁.queueThreads.items.idxOf t = place t k := by
      rw [hq, List.idxOf_append_of_mem hr.2, place]
    refine (dispatch_forward hk (hp.running ▸ hne) hin (hp.alive t hne hr.1).isFinished).imp_right
      fun ⟨hmem, hlt⟩ => ⟨hmem, ?_⟩
    rw [if_pos hd, ← hidx]
    exact hlt

theorem subtleKill_fails (h : (k.subtleKill t).1 ≠ 0) : (k.subtleKill t).2 = k := by
  unfold subtleKill at *
  cases hth : k.threads t with
  | none => rfl
  | some th =>
    simp only [hth] at h ⊢
    split_ifs at h ⊢
    · rfl
    · rfl
    · exact absurd rfl h

theorem step_hasTurn (h : k.step e = .ok k') (hi : k.Inv) (hr : k.Ready t) :
    HasTurn t k e k' ∨
      k'.Ready t ∧ place t k' + (if k.dispatches e then 1 else 0) ≤ place t k := by
  rcases step_place h hi hr with hrun | ⟨hin, hle⟩
  · exact Or.inl (Or.inl hrun)
  rcases (step_passes h hi).survives t hr.1 with ha | hend
  · exact Or.inr ⟨⟨ha, hin⟩, hle⟩
  · cases e with
    | threadExit =>
      -- it is the running thread that exits
      obtain ⟨loc, hl⟩ := hi.located
      obtain rfl : k.running = t := Option.some.inj hend
      have := hl.placed.mem_ready hr.2
      simp [hl.running_cpu] at this
    | subtleKill t' =>
      obtain rfl : t' = t := Option.some.inj hend
      by_cases hkill : (k.subtleKill t').1 = 0
      · exact Or.inl (Or.inr ⟨rfl, hkill⟩)
      · cases h
        refine Or.inr ⟨⟨?_, hin⟩, hle⟩
        rw [subtleKill_fails hkill]
        exact hr.1
    | _ => cases hend

/-! Time slices. -/

/-- Every thread has the default time slice. -/
def Sliced (k : Kernel) : Prop := ∀ t th, k.threads t = some th → th.timeSlice = defaultTimeSlice

theorem step_sliced (h : k.step e = .ok k') (hs : k.Sliced) : k'.Sliced := by
  intro t th' hth'
  by_cases hcreate : ∃ body stack, e = .threadCreate body stack
  · obtain ⟨body, stack, rfl⟩ := hcreate
    rcases (newThread_origin h).1 t th' hth' with ⟨-, rfl⟩ | ⟨th, hth, ho⟩
    · rfl
    · exact (congrArg (·.2.2.1) ho).trans (hs t th hth)
  by_cases hopen : ∃ n, e = .semOpen n
  · obtain ⟨n, rfl⟩ := hopen
    obtain ⟨p, hp, node, hp', -, -, rfl⟩ := newSem_ok h
    exact hs t th' hth'
  · obtain ⟨th, hth, ho⟩ := (step_origin h (fun b st he => hcreate ⟨b, st, he⟩)
      fun n he => hopen ⟨n, he⟩).1 t th' hth'
    exact (congrArg (·.2.2.1) ho).trans (hs t th hth)

/-- A tick counts against the time slice, and a `dispatch` starts a new one. -/
theorem step_cpuTime (h : k.step e = .ok k') (hi : k.Inv) (hs : k.Sliced)
    (hc : k.runningThreadCpuTime < defaultTimeSlice) :
    k'.runningThreadCpuTime < defaultTimeSlice ∧
      k.runningThreadCpuTime + (if e = .tick then 1 else 0) ≤
        k'.runningThreadCpuTime + if k.dispatches e then defaultTimeSlice else 0 := by
  have hwrap : wrap (k.runningThreadCpuTime + 1) = k.runningThreadCpuTime + 1 :=
    Nat.mod_eq_of_lt (by unfold defaultTimeSlice at hc; omega)
  rcases step_turn h hi with ⟨hd, ha⟩ | ⟨k₁, c, hd, hp, hk⟩
  · by_cases he : e = .tick
    · subst he
      have hcpu : k'.runningThreadCpuTime = wrap (k.runningThreadCpuTime + 1) := ha.cpuTime
      obtain ⟨loc, hl⟩ := hi.located
      obtain ⟨th, hth, -⟩ := hl.runnable
      have hlt : wrap (k.runningThreadCpuTime + 1) < th.timeSlice := by
        simpa [expires, hth] using hd
      rw [hs _ th hth] at hlt
      rw [hcpu, hd, hwrap]
      exact ⟨hwrap ▸ hlt, by simp⟩
    · rw [if_neg he] at ha
      rw [ha.cpuTime, hd, if_neg he]
      exact ⟨hc, by simp⟩
  · rw [dispatch_cpuTime hk, hd]
    refine ⟨by decide, ?_⟩
    simp only [if_true]
    split_ifs <;> omega

/-- What the states of a run have in common. -/
structure Fair (k : Kernel) : Prop where
  inv : k.Inv
  sliced : k.Sliced
  slice : k.runningThreadCpuTime < defaultTimeSlice

theorem step_fair (h : k.step e = .ok k') (hf : k.Fair) : k'.Fair :=
  ⟨step_inv h hf.inv, step_sliced h hf.sliced, (step_cpuTime h hf.inv hf.sliced hf.slice).1⟩

theorem run_fair {P : Kernel → Event → Prop} {es : List Event} (h₀ : boot start total = some k₀)
    (h : Run step P k₀ es k) : k.Fair := by
  refine h.invariant Fair ⟨boot_inv h₀, ?_, ?_⟩ fun _ _ _ hf _ hs => step_fair hs hf
  · intro t th hth
    obtain ⟨stack, hp, p, hp', -, -, rfl⟩ := boot_ok h₀
    by_cases ht : t = mainThread
    · subst ht
      simp only [bootState, Function.update_self, Option.some.injEq] at hth
      rw [← hth]
    · simp [bootState, Function.update_of_ne ht] at hth
  · obtain ⟨stack, hp, p, hp', -, -, rfl⟩ := boot_ok h₀
    exact Nat.two_pos

theorem run_ticks {P : Kernel → Event → Prop} {es : List Event} (h : Run step P k es k') :
    tally step (fun _ e => decide (e = .tick)) k es = ticks es := by
  induction h with
  | nil => rfl
  | snoc hrun _ _ ih =>
    rw [hrun.tally_snoc, ticks_snoc, ih]
    simp only [decide_eq_true_eq]

/-- The ticks of a run from `k` and the dispatches among its steps. -/
theorem run_slices {P : Kernel → Event → Prop} {es : List Event} (h : Run step P k es k')
    (hf : k.Fair) : ticks es < defaultTimeSlice * (tally step dispatches k es + 1) := by
  have hspent : k'.Fair ∧ k.runningThreadCpuTime +
      tally step (fun _ e => decide (e = .tick)) k es ≤
        k'.runningThreadCpuTime + defaultTimeSlice * tally step dispatches k es :=
    h.spent hf (fun _ _ _ hf _ hs => step_fair hs hf) fun k e k' hf _ hs => by
      have := (step_cpuTime hs hf.inv hf.sliced hf.slice).2
      simpa only [decide_eq_true_eq] using this
  obtain ⟨hf', hle⟩ := hspent
  rw [run_ticks h] at hle
  have := hf'.slice
  rw [Nat.mul_add]
  omega

/-- A live thread that is ready never moves back, and forward with each
`dispatch`; no two ticks pass without a `dispatch`; so after as many dispatches as
there are threads in front of it and one more, or twice as many ticks, it has
had the processor, unless its parent killed it. -/
theorem turn_comes {kb : Kernel} {es₀ : List Event} (hb : boot start total = some kb)
    (h₀ : Run step (fun _ _ => True) kb es₀ k) :
    (∀ es k', Run step (fun _ _ => True) k es k' → tally step dispatches k es = 0 →
        ticks es < 2) ∧
      ∀ t, k.Ready t →
        (∀ e k', k.step e = .ok k' → t ∈ k'.queueThreads.items → place t k' ≤ place t k) ∧
        (∀ e k', k.step e = .ok k' → k.dispatches e = true →
          k'.running = t ∨ t ∈ k'.queueThreads.items ∧ place t k' < place t k) ∧
        ∀ es k', Run step (fun _ _ => True) k es k' →
          place t k + 1 ≤ tally step dispatches k es ∨ 2 * (place t k + 1) ≤ ticks es →
            Met step (fun _ _ => True) (HasTurn t) k es k' := by
  have hf := run_fair hb h₀
  refine ⟨?_, fun t hr => ⟨?_, ?_, ?_⟩⟩
  · intro es k' h hno
    have := run_slices h hf
    rw [hno] at this
    exact this
  · intro e k' h hin
    rcases step_place h hf.inv hr with hrun | ⟨-, hle⟩
    · obtain ⟨loc, hl⟩ := (step_inv h hf.inv).located
      have := hl.placed.mem_ready hin
      rw [← hrun, hl.running_cpu] at this
      cases this
    · omega
  · intro e k' h hd
    refine (step_place h hf.inv hr).imp_right fun ⟨hin, hle⟩ => ⟨hin, ?_⟩
    rw [if_pos hd] at hle
    exact hle
  · intro es k' h hn
    refine h.served hf hr (fun _ _ _ hf _ hs => step_fair hs hf)
      (fun _ _ _ hf _ hr hs => step_hasTurn hs hf.inv hr) ?_
    have hslices := run_slices h hf
    unfold defaultTimeSlice at hslices
    omega

/-- The second of two threads that `main` creates has its turn within four ticks. -/
theorem turn_comes_four : ∃ kb k k', boot 1024 1000 = some kb ∧
    Run step (fun _ _ => True) kb [.memAlloc 65, .threadCreate 4096 5328, .memAlloc 65,
      .threadCreate 4096 9680] k ∧
      k.Ready 3 ∧ place 3 k = 1 ∧
      Run step (fun _ _ => True) k [.tick, .tick, .tick, .tick] k' ∧
      Met step (fun _ _ => True) (HasTurn 3) k [.tick, .tick, .tick, .tick] k' := by
  have hrun : ((boot 1024 1000).bind fun kb => exec step (fun _ _ => True) kb [.memAlloc 65,
      .threadCreate 4096 5328, .memAlloc 65, .threadCreate 4096 9680]).any (fun k =>
        k.queueThreads.items = [2, 3] ∧ k.isFinished 3 = false ∧
          (exec step (fun _ _ => True) k [.tick, .tick, .tick, .tick]).isSome = true) = true := by
    decide +kernel
  obtain ⟨kb, k, hb, h₀, hq⟩ := exists_run hrun
  obtain ⟨hqueue, hlive, hq⟩ := of_decide_eq_true hq
  obtain ⟨k', hexec⟩ := Option.isSome_iff_exists.1 hq
  have h := run_of_exec hexec
  have hready : k.Ready 3 := ⟨alive_of_isFinished hlive, by simp [hqueue]⟩
  have hplace : place 3 k = 1 := by
    rw [place, hqueue]
    rfl
  refine ⟨kb, k, k', hb, h₀, hready, hplace, h, ?_⟩
  exact ((turn_comes hb h₀).2 3 hready).2.2 _ k' h (Or.inr (by rw [hplace]; decide))

end Kernel
end OSK
