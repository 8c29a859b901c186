import RiscVKernel.Kernel.Ecalls
import RiscVKernel.Kernel.Handover

/-! The parts of a step and the threads: until `dispatch` nobody's context changes, and
`dispatch` sets the one of the thread that leaves. -/

namespace OSK

open Lib

namespace Kernel

variable {k k' k₁ k₂ : Kernel} {t : Tid} {s : SemId} {c : Context} {e : Event} {o : Outcome}
  {r : Option ℤ} {th th' : Thread}

/-- Records may go; those that stay have the context they had. -/
structure Sheds (k k' : Kernel) : Prop where
  thread : ∀ t th', k'.threads t = some th' →
    ∃ th, k.threads t = some th ∧ th'.origin = th.origin ∧ th'.context = th.context
  running : k'.running = k.running
  ID : k'.ID = k.ID
  threadAddr : k'.threadAddr = k.threadAddr

theorem Stays.sheds (h : Stays k k') : Sheds k k' :=
  ⟨fun _ _ ht => h.record ht, h.running, h.ID, h.threadAddr⟩

theorem Sheds.trans (h : Sheds k k') (h' : Sheds k' k₂) : Sheds k k₂ := by
  refine ⟨fun t th₂ ht => ?_, h'.running.trans h.running, h'.ID.trans h.ID,
    h'.threadAddr.trans h.threadAddr⟩
  obtain ⟨th', ht', ho', hc'⟩ := h'.thread t th₂ ht
  obtain ⟨th, ht, ho, hc⟩ := h.thread t th' ht'
  exact ⟨th, ht, ho'.trans ho, hc'.trans hc⟩

/-- Only other fields are different. -/
theorem sheds_same (ht : k'.threads = k.threads) (hr : k'.running = k.running) (hi : k'.ID = k.ID)
    (ha : k'.threadAddr = k.threadAddr) : Sheds k k' :=
  ⟨fun _ th' h => ⟨th', ht ▸ h, rfl, rfl⟩, hr, hi, ha⟩

theorem deleteThread_sheds (h : k.deleteThread t = .ok k') : Sheds k k' := by
  obtain ⟨th, -, rfl⟩ := deleteThread_ok h
  refine ⟨fun t' th' ht' => ⟨th', ?_, rfl, rfl⟩, rfl, rfl, rfl⟩
  by_cases he : t' = t
  · subst he
    simp at ht'
  · simpa [he] using ht'

theorem deleteThreadInDispatch_sheds (h : k.deleteThreadInDispatch t = .ok k') : Sheds k k' := by
  unfold deleteThreadInDispatch at h
  dsimp only at h
  split_ifs at h
  · exact (removeReady_stays k t).sheds.trans (deleteThread_sheds h)
  · cases h
    exact (removeReady_stays k t).sheds

theorem leave_sheds (h : k.leave = .ok k') : Sheds k k' := by
  obtain ⟨th, -, ⟨-, hput⟩ | ⟨-, rfl⟩ | ⟨-, hd⟩⟩ := leave_ok h
  · exact ((setThreadState_stays _ _ _).trans (put_stays hput)).sheds
  · exact (Stays.refl _).sheds
  · exact deleteThread_sheds hd

/-! The calls as far as `dispatch`. -/

theorem enterBlock_stays (h : k.enterBlock s = .ok k') : Stays k k' := by
  obtain ⟨k₁, hadd, h⟩ := bind_ok h
  cases h
  exact ((addBlocked_stays hadd).trans (setThreadsSemStatus_stays _ _ _)).trans
    (setMySem_stays _ _ _)

theorem enterWait_stays (h : k.enterWait s = .ok (o, k')) :
    Stays k k' ∧ ∀ c, o = .dispatches c → c = .block s := by
  obtain ⟨v, ha, h⟩ := bind_ok h
  dsimp only at h
  split_ifs at h
  · cases h
    exact ⟨(addVal_stays ha).trans (note_stays _ _), by simp⟩
  · obtain ⟨k₁, hb, h⟩ := bind_ok h
    cases h
    exact ⟨(addVal_stays ha).trans (enterBlock_stays hb), by simp [eq_comm]⟩

theorem enterTimedBlock_stays {m : UInt64} (h : k.enterTimedBlock s m = .ok k') : Stays k k' := by
  obtain ⟨k₁, hadd, h⟩ := bind_ok h
  obtain ⟨k₂, hins, h⟩ := bind_ok h
  obtain ⟨k₃, hinc, h⟩ := bind_ok h
  cases h
  exact (((((setThreadsSemStatus_stays _ _ _).trans (setTimeForWakingUp_stays _ _ _)).trans
    (addBlocked_stays hadd)).trans (insertAsleep_stays hins)).trans
    (incTimedWaiting_stays hinc)).trans (setMySem_stays _ _ _)

theorem enterTimedWait_stays {m : UInt64} (h : k.enterTimedWait s m = .ok (o, k')) :
    Stays k k' ∧ ∀ c, o = .dispatches c → c = .timedBlock s := by
  obtain ⟨v, ha, h⟩ := bind_ok h
  dsimp only at h
  split_ifs at h
  · cases h
    exact ⟨(addVal_stays ha).trans (note_stays _ _), by simp⟩
  · obtain ⟨k₁, hb, h⟩ := bind_ok h
    cases h
    exact ⟨(addVal_stays ha).trans (enterTimedBlock_stays hb), by simp [eq_comm]⟩

theorem enterSleep_stays {m : UInt64} (h : k.enterSleep m = .ok (o, k')) :
    Stays k k' ∧ ∀ c, o = .dispatches c → c = .sleep := by
  unfold enterSleep at h
  dsimp only at h
  split_ifs at h
  · obtain ⟨k₁, hins, h⟩ := bind_ok h
    cases h
    exact ⟨((setThreadState_stays _ _ _).trans (setTimeForWakingUp_stays _ _ _)).trans
      (insertAsleep_stays hins), by simp [eq_comm]⟩
  · cases h
    exact ⟨.refl _, by simp⟩

theorem enterExit_stays (h : k.enterExit = .ok (o, k')) : Stays k k' ∧ o = .dispatches .toUser := by
  obtain ⟨th, -, h⟩ := bind_ok h
  cases h
  refine ⟨Stays.trans ?_ (setFinished_stays _ _), rfl⟩
  cases th.parentThread with
  | none => exact .refl _
  | some p => exact decNumOfChildren_stays k p

theorem enterTick_sheds (h : k.enterTick = .ok (o, k')) :
    Sheds k k' ∧ ∀ c, o = .dispatches c → c = .toUser := by
  obtain ⟨k₁, hw, h⟩ := bind_ok h
  obtain ⟨th, -, h⟩ := bind_ok h
  have htime : Sheds k k.incTime := sheds_same rfl rfl rfl rfl
  have hwake := htime.trans (wakeAsleepThreadsUp_stays hw).sheds
  split_ifs at h
  · cases h
    exact ⟨hwake, by simp [eq_comm]⟩
  · cases h
    exact ⟨hwake, by simp⟩

theorem enterHandle_ok {sem : Option SemId} {f : SemId → Except Fault (Outcome × Kernel)}
    (h : k.enterHandle sem f = .ok (o, k')) :
    o = .returns (some (-1)) ∧ k' = k ∨ ∃ s, f s = .ok (o, k') := by
  cases sem with
  | none =>
    cases h
    exact Or.inl ⟨rfl, rfl⟩
  | some s => exact Or.inr ⟨s, h⟩

theorem map_returning {x : Except Fault (ℤ × Kernel)} (h : x.map returning = .ok (o, k')) :
    ∃ v, x = .ok (v, k') ∧ o = .returns (some v) := by
  obtain ⟨⟨v, k₁⟩, hx, he⟩ := map_ok h
  cases he
  exact ⟨v, hx, rfl⟩

theorem map_returning_zero {x : Except Fault Kernel}
    (h : (x.map fun k => returning (0, k)) = .ok (o, k')) : x = .ok k' ∧ o = .returns (some 0) := by
  obtain ⟨k₁, hx, he⟩ := map_ok h
  cases he
  exact ⟨hx, rfl⟩

/-- A call that goes on in `dispatch` is to be resumed behind it. -/
theorem enter_dispatches (h : k.enter e = .ok (.dispatches c, k')) :
    Sheds k k' ∧ c ≠ .threadWrapper := by
  have hne : ∀ {c' : Context}, c = c' → c' ≠ .threadWrapper → c ≠ .threadWrapper :=
    fun h h' => h ▸ h'
  cases e with
  | memAlloc n => cases h
  | memFree p =>
    obtain ⟨v, -, he⟩ := map_returning h
    cases he
  | threadCreate body stack => cases (map_returning_zero h).2
  | threadExit =>
    obtain ⟨hs, he⟩ := enterExit_stays h
    cases he
    exact ⟨hs.sheds, by simp⟩
  | threadDispatch =>
    cases h
    exact ⟨(Stays.refl _).sheds, by simp⟩
  | semOpen n => cases (map_returning_zero h).2
  | semClose sem =>
    obtain ⟨he, -⟩ | ⟨s, h⟩ := enterHandle_ok h
    · cases he
    · cases (map_returning_zero h).2
  | semWait sem =>
    obtain ⟨he, -⟩ | ⟨s, h⟩ := enterHandle_ok h
    · cases he
    · obtain ⟨hs, hc⟩ := enterWait_stays h
      exact ⟨hs.sheds, hne (hc c rfl) (by simp)⟩
  | semSignal sem =>
    obtain ⟨he, -⟩ | ⟨s, h⟩ := enterHandle_ok h
    · cases he
    · obtain ⟨v, -, he⟩ := map_returning h
      cases he
  | semTimedwait sem m =>
    obtain ⟨he, -⟩ | ⟨s, h⟩ := enterHandle_ok h
    · cases he
    · obtain ⟨hs, hc⟩ := enterTimedWait_stays h
      exact ⟨hs.sheds, hne (hc c rfl) (by simp)⟩
  | semTrywait sem =>
    obtain ⟨he, -⟩ | ⟨s, h⟩ := enterHandle_ok h
    · cases he
    · obtain ⟨v, -, he⟩ := map_returning h
      cases he
  | timeSleep m =>
    obtain ⟨hs, hc⟩ := enterSleep_stays h
    exact ⟨hs.sheds, hne (hc c rfl) (by simp)⟩
  | tick =>
    obtain ⟨hs, hc⟩ := enterTick_sheds h
    exact ⟨hs, hne (hc c rfl) (by simp)⟩
  | subtleKill t => cases h

/-- The records after the creation of a thread. -/
theorem newThread_records {body : UInt64} {stack : ℕ} (h : k.newThread body stack = .ok k') :
    k'.running = k.running ∧ k'.ID = k.ID + 1 ∧
      k'.threads (k.ID + 1) = some (k.newborn body stack) ∧
      ∀ t ≠ k.ID + 1, ∀ th', k'.threads t = some th' →
        ∃ th, k.threads t = some th ∧ th'.origin = th.origin ∧ th'.context = th.context := by
  obtain ⟨-, p, hp, k₁, -, hk₁, rfl⟩ := newThread_ok h
  have hs : Stays { k with heap := hp, user := k.user.erase stack } k₁.countChild := by
    refine Stays.trans ?_ (modifyThread_stays _ _ _ fun _ => ⟨rfl, rfl⟩)
    rcases hk₁ with ⟨-, hput⟩ | ⟨-, rfl⟩
    · exact put_stays hput
    · exact .refl _
  refine ⟨hs.running, rfl, by simp [enroll], fun t ht th' hth' => ?_⟩
  have hth' : k₁.countChild.threads t = some th' := by simpa [enroll, ht] using hth'
  exact hs.record hth'

/-- A call that comes back makes a thread or leaves all contexts as they are. -/
theorem enter_returns (h : k.enter e = .ok (.returns r, k')) :
    Sheds k k' ∨ ∃ body stack, k.newThread body stack = .ok k' := by
  cases e with
  | memAlloc n =>
    cases h
    refine Or.inl ?_
    rcases memAlloc_eq k n with ⟨he, -⟩ | ⟨p, hp, -, he⟩ <;> rw [he]
    · exact (Stays.refl _).sheds
    · exact sheds_same rfl rfl rfl rfl
  | memFree p =>
    obtain ⟨v, hm, -⟩ := map_returning h
    obtain ⟨-, he⟩ := memFree_ok hm
    cases he
    exact Or.inl (sheds_same rfl rfl rfl rfl)
  | threadCreate body stack => exact Or.inr ⟨body, stack, (map_returning_zero h).1⟩
  | threadExit => cases (enterExit_stays h).2
  | threadDispatch => cases h
  | semOpen n =>
    obtain ⟨p, hp, node, hp', -, -, rfl⟩ := newSem_ok (map_returning_zero h).1
    exact Or.inl (sheds_same rfl rfl rfl rfl)
  | semClose sem =>
    refine Or.inl ?_
    obtain ⟨-, rfl⟩ | ⟨s, h⟩ := enterHandle_ok h
    · exact (Stays.refl _).sheds
    · obtain ⟨m, k₁, -, hu, rfl⟩ := deleteSem_ok (map_returning_zero h).1
      exact (unblockAll_stays hu).sheds.trans (sheds_same rfl rfl rfl rfl)
  | semWait sem =>
    refine Or.inl ?_
    obtain ⟨-, rfl⟩ | ⟨s, h⟩ := enterHandle_ok h
    · exact (Stays.refl _).sheds
    · exact (enterWait_stays h).1.sheds
  | semSignal sem =>
    refine Or.inl ?_
    obtain ⟨-, rfl⟩ | ⟨s, h⟩ := enterHandle_ok h
    · exact (Stays.refl _).sheds
    · obtain ⟨v, hm, -⟩ := map_returning h
      exact (signal_stays hm).sheds
  | semTimedwait sem m =>
    refine Or.inl ?_
    obtain ⟨-, rfl⟩ | ⟨s, h⟩ := enterHandle_ok h
    · exact (Stays.refl _).sheds
    · exact (enterTimedWait_stays h).1.sheds
  | semTrywait sem =>
    refine Or.inl ?_
    obtain ⟨-, rfl⟩ | ⟨s, h⟩ := enterHandle_ok h
    · exact (Stays.refl _).sheds
    · obtain ⟨v, hm, -⟩ := map_returning h
      obtain ⟨r', ha, hr'⟩ := tryWait_ok hm
      obtain rfl : k' = r'.2 := hr'
      exact (addVal_stays ha).sheds
  | timeSleep m => exact Or.inl (enterSleep_stays h).1.sheds
  | tick => exact Or.inl (enterTick_sheds h).1
  | subtleKill t =>
    cases h
    exact Or.inl (subtleKill_stays k t).sheds

/-! `dispatch`. -/

/-- The switch takes the processor from the running thread and saves its context. -/
theorem switch_ok (h : k.switch c = .ok k₂) :
    ∃ k₁ t, Sheds k k₁ ∧ k₁.get.1 = some t ∧ k₁.isFinished t = false ∧
      k₂ = switched k₁ t k.running c := by
  obtain ⟨k₀, hl, h⟩ := bind_ok h
  obtain ⟨k₁, hsweep, h⟩ := bind_ok h
  have hreset : Sheds k { k with runningThreadCpuTime := 0 } := sheds_same rfl rfl rfl rfl
  have hleave := hreset.trans (leave_sheds hl)
  have hsheds : Sheds k₀ k₁ := foreachWhile_rel (R := Sheds) (fun k => (Stays.refl k).sheds) .trans
    (fun _ _ _ => deleteThreadInDispatch_sheds) hsweep
  rw [hleave.running] at h
  cases hg : k₁.get with
  | mk o k₃ =>
    rw [hg] at h
    cases o with
    | none => cases h
    | some t =>
      cases h
      have hget : k₁.get.1 = some t := by rw [hg]
      obtain ⟨e, q, hq, he, -⟩ := get_some hget
      obtain ⟨hitems, hfin⟩ := sweep_queue hsweep rfl
      have hlive : k₁.isFinished t = false := by
        have := List.head?_dropWhile_not k₀.isFinished k₀.queueThreads.items
        rw [← hitems, hq, KList.items_cons, he] at this
        rw [hfin]
        simpa using this
      exact ⟨k₁, t, hleave.trans hsheds, hget, hlive, by rw [switched, hg]⟩

/-- The records after the switch. -/
theorem switch_records (h : k.switch c = .ok k₂) :
    k₂.ID = k.ID ∧ k₂.threadAddr = k.threadAddr ∧ k₂.threads k₂.running ≠ none ∧
      ∀ t th₂, k₂.threads t = some th₂ → ∃ th, k.threads t = some th ∧
        th₂.context = if t = k.running then c else th.context := by
  obtain ⟨k₁, t, hsheds, -, hlive, rfl⟩ := switch_ok h
  refine ⟨?_, ?_, ?_, fun t' th₂ ht₂ => ?_⟩
  · rw [← hsheds.ID]
    unfold switched saveContext
    split_ifs <;> rfl
  · rw [← hsheds.threadAddr]
    unfold switched saveContext
    split_ifs <;> rfl
  · rw [switched_running, ← Option.isSome_iff_ne_none, switched_isSome]
    cases hth : k₁.threads t with
    | none => simp [isFinished, hth] at hlive
    | some th => rfl
  · obtain ⟨th₁, hth₁, -, hc⟩ := switched_thread ht₂
    obtain ⟨th, hth, -, hc'⟩ := hsheds.thread t' th₁ hth₁
    exact ⟨th, hth, by rw [hc, hc']⟩

/-- A step that goes through `dispatch`. -/
theorem step_of_dispatches (h : k.enter e = .ok (.dispatches c, k₁)) :
    k.step e = k₁.switch c >>= resume := by
  rw [step_eq_enter, h]
  exact dispatch_eq_switch k₁ c

theorem step_of_returns (h : k.enter e = .ok (.returns r, k')) : k.step e = .ok k' := by
  rw [step_eq_enter, h]
  rfl

/-! A semaphore that is closed although a thread has yet to come back from `timedBlock` on it. -/

/-- A thread that does not have the processor keeps its context. -/
theorem step_context (h : k.step e = .ok k') (hi : k.Inv) (hth : k.threads t = some th)
    (hth' : k'.threads t = some th') (hne : k.running ≠ t) : th'.context = th.context := by
  have hsheds : ∀ {k₁ : Kernel} {th₁ : Thread}, Sheds k k₁ → k₁.threads t = some th₁ →
      th₁.context = th.context := by
    intro k₁ th₁ hs hth₁
    obtain ⟨th₀, hth₀, -, hc⟩ := hs.thread t th₁ hth₁
    obtain rfl := Option.some.inj (hth.symm.trans hth₀)
    exact hc
  rw [step_eq_enter] at h
  obtain ⟨⟨o, k₁⟩, henter, hproceed⟩ := bind_ok h
  cases o with
  | returns r =>
    cases hproceed
    rcases enter_returns henter with hs | ⟨body, stack, hnew⟩
    · exact hsheds hs hth'
    · have hold : t ≠ k.ID + 1 := (Nat.lt_succ_of_le (hi.named hth)).ne
      obtain ⟨th₀, hth₀, -, hc⟩ := (newThread_records hnew).2.2.2 t hold th' hth'
      obtain rfl := Option.some.inj (hth.symm.trans hth₀)
      exact hc
  | dispatches c =>
    have hproceed : k₁.dispatch c = .ok k' := hproceed
    rw [dispatch_eq_switch] at hproceed
    obtain ⟨k₂, hsw, hr⟩ := bind_ok hproceed
    obtain ⟨hs, -⟩ := enter_dispatches henter
    obtain ⟨th₂, hth₂, -, hc₂⟩ := (resume_stays hr).record hth'
    obtain ⟨th₁, hth₁, hc₁⟩ := (switch_records hsw).2.2.2 t th₂ hth₂
    rw [hs.running, if_neg hne.symm] at hc₁
    exact hc₂.trans (hc₁.trans (hsheds hs hth₁))

theorem step_resumes (h : k.step e = .ok k') (hi : k.Inv) (hr : k.Resumes t c)
    (hne : k.running ≠ t) (he : k.ended e ≠ some t) : k'.Resumes t c := by
  obtain ⟨th', hth', hf⟩ := alive_iff.1 (((step_passes h hi).survives t ⟨c, hr⟩).resolve_right he)
  obtain ⟨th, hth, -, rfl⟩ := hr
  exact ⟨th', hth', hf, step_context h hi hth hth' hne⟩

/-- When it goes on, a thread that comes back from `timedBlock` writes into its semaphore, whether
it is there or not. -/
theorem step_comeback (h : k.step e = .ok k') (hr : k.Resumes t (.timedBlock s))
    (hne : k.running ≠ t) (hgo : k'.running = t) (hn : k'.sems s = none) :
    ∃ a, Note.freedWrite (.sem s) a ∈ k'.trace := by
  obtain ⟨th, hth, -, hctx⟩ := hr
  rw [step_eq_enter] at h
  obtain ⟨⟨o, k₁⟩, henter, hproceed⟩ := bind_ok h
  cases o with
  | returns r =>
    cases hproceed
    rcases enter_returns henter with hs | ⟨body, stack, hnew⟩
    · exact absurd (hs.running.symm.trans hgo) hne
    · exact absurd ((newThread_records hnew).1.symm.trans hgo) hne
  | dispatches c =>
    have hproceed : k₁.dispatch c = .ok k' := hproceed
    rw [dispatch_eq_switch] at hproceed
    obtain ⟨k₂, hsw, hr⟩ := bind_ok hproceed
    obtain ⟨hs, -⟩ := enter_dispatches henter
    have hstays := resume_stays hr
    have hn₂ : k₂.sems s = none := by
      have hsome := hstays.sem s
      rw [hn] at hsome
      exact Option.isNone_iff_eq_none.1 (by simpa using hsome.symm)
    obtain ⟨th₂, hth₂, hcase⟩ := resume_ok hr
    have hrun₂ : k₂.running = t := hstays.running.symm.trans hgo
    rw [hrun₂] at hth₂
    obtain ⟨th₁, hth₁, hc₁⟩ := (switch_records hsw).2.2.2 t th₂ hth₂
    obtain ⟨th₀, hth₀, -, hc₀⟩ := hs.thread t th₁ hth₁
    obtain rfl := Option.some.inj (hth.symm.trans hth₀)
    rw [hs.running, if_neg hne.symm] at hc₁
    have hback : k₂.afterTimedBlock s = .ok k' := by
      rcases hcase with ⟨hx | hx, -⟩ | ⟨s', hx, -⟩ | ⟨s', hx, hb⟩ | ⟨hx, -⟩ <;>
        have heq := (hc₁.trans (hc₀.trans hctx)).symm.trans hx <;> cases heq
      exact hb
    refine ⟨k₂.semAddr s + numOfTimedWaitingOffset, ?_⟩
    obtain ⟨th₃, -, hend⟩ := bind_ok hback
    cases hend
    have hnone : (k₂.setMySem k₂.running none).sems s = none := hn₂
    simp only [decTimedWaiting, hnone]
    simp [note]

/-- The first such thread that goes on after the closing of its semaphore writes into freed
memory. -/
theorem closed_awaited {es : List Event} (hi : k.Inv) (hr : k.Resumes t (.timedBlock s))
    (hne : k.running ≠ t) (hclose : k.step (.semClose (some s)) = .ok k₁)
    (h : Run step (fun k e => k.running ≠ t ∧ k.ended e ≠ some t) k₁ es k₂) (ht : k₂.running = t) :
    ¬k₂.SemsSpared := by
  have hdel : k.deleteSem s = .ok k₁ := hclose
  obtain ⟨m, k₀, hm, hu, rfl⟩ := deleteSem_ok hdel
  have hold : s < k.nextSem := by
    by_contra hlt
    rw [(hi.freshSem s (Nat.not_lt.1 hlt)).1] at hm
    cases hm
  have hrun : (k₀.forgetSem s).running ≠ t := by
    have hsame : (k₀.forgetSem s).running = k.running := (unblockAll_stays hu).running
    rwa [hsame]
  have hfirst := step_fresh hclose hi
  have hend : k₂.Inv ∧ k₂.sems s = none ∧ s < k₂.nextSem ∧
      (k₂.running ≠ t → k₂.Resumes t (.timedBlock s)) ∧
      (k₂.running = t → ∃ a, Note.freedWrite (.sem s) a ∈ k₂.trace) := by
    refine h.invariant (fun k => k.Inv ∧ k.sems s = none ∧ s < k.nextSem ∧
      (k.running ≠ t → k.Resumes t (.timedBlock s)) ∧
      (k.running = t → ∃ a, Note.freedWrite (.sem s) a ∈ k.trace))
      ⟨step_inv hclose hi, by simp, hold.trans_le hfirst.2.2.1,
        fun _ => step_resumes hclose hi hr hne (by simp [ended]), fun hrun' => absurd hrun' hrun⟩ ?_
    rintro k e k' ⟨hi, hn, hlt, hr, -⟩ ⟨hne, he⟩ hstep
    have hn' : k'.sems s = none := ((step_tracks hstep hi fun _ _ => hlt.ne).closed hn).1
    exact ⟨step_inv hstep hi, hn', hlt.trans_le (step_fresh hstep hi).2.2.1,
      fun _ => step_resumes hstep hi (hr hne) hne he,
      fun hgo => step_comeback hstep (hr hne) hne hgo hn'⟩
  obtain ⟨a, ha⟩ := hend.2.2.2.2 ht
  exact fun hs => hs s a ha

end Kernel
end OSK
