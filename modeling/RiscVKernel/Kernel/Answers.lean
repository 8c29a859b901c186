import RiscVKernel.Kernel.Storage

/-! What `sem_wait` and `sem_timedwait` return. A thread that blocks is taken out
of the queue once, by a signal, a tick or the closing of the semaphore, and the
cause stands in its record until it runs again and returns the answer to it. -/

namespace OSK

open Lib

/-- The notes about a thread. -/
def Note.about (t : Tid) : Note → Bool
  | .answer t' _ _ => t' = t
  | .dequeued t' _ _ => t' = t
  | _ => false

/-- What `generateWAITResponses` makes of a status. -/
def SemStatus.answer : SemStatus → WaitAnswer
  | .nonWaiting => .didntWait
  | .waiting => .error
  | .timedWaiting => .error
  | .semDeleted => .dead
  | .regularlyWaited => .okayWaited
  | .timeout => .timeout

/-- The answer a thread gives when it goes on from its context. -/
def Thread.answers (th : Thread) (t : Tid) : List Note :=
  match th.context with
  | .block s => [.answer t s th.semStatus.answer]
  | .timedBlock s => [.answer t s th.semStatus.answer]
  | _ => []

namespace Kernel

variable {k k' k₁ k₂ : Kernel} {t t' : Tid} {s : SemId} {cause : SemStatus} {c : Context}
  {loc : Tid → Place} {pend : Tid → Option Context} {th : Thread} {e : Event}

/-- The notes about `t` in the record of the run. -/
def log (k : Kernel) (t : Tid) : List Note := k.trace.filter (Note.about t)

theorem log_congr (h : k'.trace = k.trace) : k'.log t = k.log t := by
  unfold log
  rw [h]

theorem log_note (k : Kernel) (n : Note) (t : Tid) :
    (k.note n).log t = k.log t ++ if n.about t then [n] else [] := by
  unfold log note
  rw [List.filter_append, List.filter_singleton]
  cases n.about t <;> rfl

/-- Nothing that concerns a wait of `t` happens: it stays in its queues with what
its record says about its wait. It may finish. -/
structure Untouched (t : Tid) (k k' : Kernel) : Prop where
  queued : ∀ s, k'.queued s t = k.queued s t
  ready : k'.queueThreads.items.count t = k.queueThreads.items.count t
  thread : ∀ th', k'.threads t = some th' → ∃ th, k.threads t = some th ∧
    th'.semStatus = th.semStatus ∧ th'.context = th.context ∧
      (th.threadState = .finished → th'.threadState = .finished)
  log : k'.log t = k.log t

theorem Untouched.refl (t : Tid) (k : Kernel) : Untouched t k k :=
  ⟨fun _ => rfl, rfl, fun th hth => ⟨th, hth, rfl, rfl, id⟩, rfl⟩

theorem Untouched.trans (h : Untouched t k k₁) (h' : Untouched t k₁ k') : Untouched t k k' := by
  refine ⟨fun s => (h'.queued s).trans (h.queued s), h'.ready.trans h.ready, ?_, h'.log.trans h.log⟩
  intro th' hth'
  obtain ⟨th₁, hth₁, hst₁, hctx₁, hfin₁⟩ := h'.thread th' hth'
  obtain ⟨th, hth, hst, hctx, hfin⟩ := h.thread th₁ hth₁
  exact ⟨th, hth, hst₁.trans hst, hctx₁.trans hctx, fun hf => hfin₁ (hfin hf)⟩

theorem untouched_of_view (hv : k'.view t = k.view t) (hlog : k'.log t = k.log t) :
    Untouched t k k' := by
  have hthread : k'.threads t = k.threads t := congrArg View.thread hv
  exact ⟨fun s => congrFun (congrArg View.queue hv) s, congrArg View.ready hv,
    fun th hth => ⟨th, hthread ▸ hth, rfl, rfl, id⟩, hlog⟩

/-- `t` is taken out of the queue of `s` and made ready for `cause`, which stands
in its record unless it has finished. -/
structure Wakes (t : Tid) (s : SemId) (cause : SemStatus) (k k' : Kernel) : Prop where
  log : k'.log t = k.log t ++ [.dequeued t s cause]
  ready : 0 < k'.queueThreads.items.count t
  queued : ∀ s, k'.queued s t = 0
  thread : ∀ th', k'.threads t = some th' → ∃ th, k.threads t = some th ∧
    th'.context = th.context ∧ (th'.threadState ≠ .finished → th'.semStatus = cause)

theorem Untouched.wakes (h : Untouched t k k₁) (h' : Wakes t s cause k₁ k') :
    Wakes t s cause k k' := by
  refine ⟨h.log ▸ h'.log, h'.ready, h'.queued, ?_⟩
  intro th' hth'
  obtain ⟨th₁, hth₁, hctx₁, hst₁⟩ := h'.thread th' hth'
  obtain ⟨th, hth, -, hctx, -⟩ := h.thread th₁ hth₁
  exact ⟨th, hth, hctx₁.trans hctx, hst₁⟩

theorem Wakes.untouched (h : Wakes t s cause k k₁) (h' : Untouched t k₁ k') :
    Wakes t s cause k k' := by
  refine ⟨h'.log.trans h.log, h'.ready ▸ h.ready, fun s => (h'.queued s).trans (h.queued s), ?_⟩
  intro th' hth'
  obtain ⟨th₁, hth₁, hst, hctx₁, hfin⟩ := h'.thread th' hth'
  obtain ⟨th, hth, hctx, hst₁⟩ := h.thread th₁ hth₁
  exact ⟨th, hth, hctx₁.trans hctx, fun hf => hst.trans (hst₁ fun hf₁ => hf (hfin hf₁))⟩

/-! Calls on other threads. -/

theorem put_untouched (h : k.put t' = .ok k') (ht : t ≠ t') : Untouched t k k' := by
  refine untouched_of_view ((put_moves h).other t ht) (log_congr ?_)
  obtain ⟨node, hp, -, rfl⟩ := put_ok h
  rfl

theorem modifyThread_untouched {f : Thread → Thread} (ht : t ≠ t') :
    Untouched t k (k.modifyThread t' f) :=
  untouched_of_view (modifyThread_view_ne f ht) rfl

theorem note_untouched (k : Kernel) {n : Note} (hn : n.about t = false) : Untouched t k (k.note n) :=
  untouched_of_view rfl (by rw [log_note, hn]; simp)

theorem addVal_untouched {d : ℤ} {r : ℤ × Kernel} (h : k.addVal s d = .ok r) (t : Tid) :
    Untouched t k r.2 := by
  refine untouched_of_view (addVal_view h t) (log_congr ?_)
  obtain ⟨m, -, -, rfl⟩ := addVal_ok h
  rfl

theorem removeThreadFromSleep_untouched (ht : t ≠ t') :
    Untouched t k (k.removeThreadFromSleep t').2 :=
  untouched_of_view (removeThreadFromSleep_moves.other t ht) rfl

theorem removeBlocked_untouched (h : k.removeBlocked s t' = .ok k') (ht : t ≠ t') :
    Untouched t k k' := by
  refine untouched_of_view ((removeBlocked_moves h).other t ht) (log_congr ?_)
  obtain ⟨m, -, rfl⟩ := removeBlocked_ok h
  rfl

theorem addBlocked_untouched (h : k.addBlocked s t' = .ok k') (ht : t ≠ t') : Untouched t k k' := by
  refine untouched_of_view ((addBlocked_moves h).other t ht) (log_congr ?_)
  obtain ⟨m, node, hp, -, -, rfl⟩ := addBlocked_ok h
  rfl

theorem release_untouched (h : k.release t' s cause = .ok k') (ht : t ≠ t') : Untouched t k k' := by
  have hsem : Untouched t k (k.setMySem t' none) := modifyThread_untouched ht
  have hstatus : Untouched t _ ((k.setMySem t' none).setThreadsSemStatus t' cause) :=
    modifyThread_untouched ht
  have hnote := note_untouched (t := t) ((k.setMySem t' none).setThreadsSemStatus t' cause)
    (n := .dequeued t' s cause) (by simpa [Note.about] using ht.symm)
  exact ((hsem.trans hstatus).trans hnote).trans (put_untouched h ht)

/-- The thread that is released. -/
theorem release_wakes (h : k.release t s cause = .ok k') (hth : k.threads t = some th)
    (hrun : k.running ≠ t) (hc : cause.Woken) (hq : ∀ s, k.queued s t = 0) :
    Wakes t s cause k k' := by
  have hm := release_moves h hth hrun hc
  refine ⟨?_, ?_, ?_, fun th' hth' => ⟨th, hth, ?_⟩⟩
  · obtain ⟨node, hp, -, rfl⟩ := put_ok h
    exact (log_note _ _ t).trans (by simp [Note.about]; rfl)
  · have hready := congrArg View.ready hm.self
    exact Nat.lt_of_lt_of_eq (Nat.succ_pos _) hready.symm
  · intro s'
    exact (congrFun (congrArg View.queue hm.self) s').trans (hq s')
  · have hrec : k'.threads t = some (th.released cause) := congrArg View.thread hm.self
    rw [hth', Option.some.injEq] at hrec
    subst hrec
    refine ⟨released_context, ?_⟩
    intro hf
    unfold Thread.released at hf ⊢
    split_ifs at hf ⊢ with hfin
    · exact absurd hfin hf
    · rfl

/-- A thread that is taken out of its queue stands in no other one. -/
theorem Placed.dequeued (hp : k.Placed pend loc) (hloc : loc t = .blocked s ∨ loc t = .timed s)
    (s' : SemId) : Function.update (k.view t).queue s ((k.view t).queue s - 1) s' = 0 := by
  rw [(hp t).queue]
  by_cases hs : s' = s
  · subst hs
    rcases hloc with hloc | hloc <;> simp [hloc, Place.inQueue]
  · rw [Function.update_of_ne hs]
    rcases hloc with hloc | hloc <;> simp [hloc, Place.inQueue, hs]

/-- `unblock` wakes the first thread of the queue and touches no other one. -/
theorem unblock_wakes (h : k.unblock s cause = .ok k') (hp : k.Placed pend loc)
    (hcpu : loc k.running = .cpu) (hc : cause.Woken) :
    ∃ t, (loc t = .blocked s ∨ loc t = .timed s) ∧
      k'.Placed pend (Function.update loc t .ready) ∧ Wakes t s cause k k' ∧
      ∀ t' ≠ t, Untouched t' k k' := by
  obtain ⟨t₀, hloc₀, hp₀, -⟩ := unblock_placed h hp hcpu hc
  obtain ⟨t, k₁, th, hf, hth, hr⟩ := unblock_ok h
  have hm₁ := firstBlocked_moves hf
  have hs₁ := firstBlocked_stays hf
  obtain ⟨m, hm, ⟨-, hr'⟩ | ⟨e, q, hq, he⟩⟩ := firstBlocked_ok hf
  · cases hr'
  cases he
  have hloc := hp.mem_queue (t := e.data) hm (by simp [hq])
  have hne : k.running ≠ e.data :=
    Placed.running_ne hcpu (by rcases hloc with hloc | hloc <;> simp [hloc])
  have hqueue : ∀ s', ({ k with heap := (k.heap.kmfree e.node).2 }.setSem s
      { m with queueBlocked := q }).queued s' e.data = 0 := fun s' =>
    (congrFun (congrArg View.queue hm₁.self) s').trans (hp.dequeued hloc s')
  have hfirst : ∀ t' ≠ e.data, Untouched t' k ({ k with heap := (k.heap.kmfree e.node).2 }.setSem s
      { m with queueBlocked := q }) := fun t' ht' => untouched_of_view (hm₁.other t' ht') rfl
  have hwakes : Wakes e.data s cause k k' ∧ ∀ t' ≠ e.data, Untouched t' k k' := by
    split_ifs at hr with hst
    · have hw := release_wakes hr hth hne hc hqueue
      exact ⟨⟨hw.log, hw.ready, hw.queued, hw.thread⟩, fun t' ht' => ((hfirst t' ht').trans
        (removeThreadFromSleep_untouched ht')).trans (release_untouched hr ht')⟩
    · have hw := release_wakes hr hth hne hc hqueue
      exact ⟨⟨hw.log, hw.ready, hw.queued, hw.thread⟩, fun t' ht' =>
        (hfirst t' ht').trans (release_untouched hr ht')⟩
  have hsame : t₀ = e.data := by
    by_contra hd
    have hready := hp₀.mem_ready (List.count_pos_iff.1 hwakes.1.ready)
    rw [Function.update_of_ne (Ne.symm hd)] at hready
    rcases hloc with hloc | hloc <;> rw [hloc] at hready <;> cases hready
  exact ⟨e.data, hloc, hsame ▸ hp₀, hwakes⟩

/-- A wait that times out wakes its thread. -/
theorem unblockedByTime_wakes (h : k.unblockedByTime s t = .ok k') (hp : k.Placed pend loc)
    (hcpu : loc k.running = .cpu) (hloc : loc t = .timed s) :
    Wakes t s .timeout k k' ∧ ∀ t' ≠ t, Untouched t' k k' := by
  obtain ⟨th, hth, hcase⟩ := unblockedByTime_ok h
  have hst : th.semStatus = .timedWaiting := by
    have hfit := hp.fits hth
    rw [hloc] at hfit
    exact hfit.1
  rcases hcase with ⟨hne, -⟩ | ⟨-, r, k₁, ha, hb, hr⟩
  · exact absurd hst hne
  have hothers : ∀ t' ≠ t, Untouched t' k k₁ := fun t' ht' =>
    ((addVal_untouched ha t').trans (removeThreadFromSleep_untouched ht')).trans
      (removeBlocked_untouched hb ht')
  have hmid : Moves k k₁ t fun v =>
      { v with asleep := v.asleep - 1, queue := Function.update v.queue s (v.queue s - 1) } :=
    ((removeThreadFromSleep_moves (k := r.2) (t := t)).trans (removeBlocked_moves hb)).of_congr
      (addVal_view ha)
  have hstays := (addVal_stays ha).trans
    ((removeThreadFromSleep_stays r.2 t).trans (removeBlocked_stays hb))
  have hne : k₁.running ≠ t := by
    rw [hstays.running]
    exact Placed.running_ne hcpu (by simp [hloc])
  have hth₁ : k₁.threads t = k.threads t := congrArg View.thread hmid.self
  have hqueue : ∀ s', k₁.queued s' t = 0 := fun s' =>
    (congrFun (congrArg View.queue hmid.self) s').trans (hp.dequeued (Or.inr hloc) s')
  have hw := release_wakes hr (hth₁.trans hth) hne trivial hqueue
  have hlog : k₁.log t = k.log t := by
    obtain ⟨m, -, -, rfl⟩ := addVal_ok ha
    obtain ⟨m', -, rfl⟩ := removeBlocked_ok hb
    rfl
  exact ⟨⟨hlog ▸ hw.log, hw.ready, hw.queued, hth₁ ▸ hw.thread⟩, fun t' ht' =>
    (hothers t' ht').trans (release_untouched hr ht')⟩

/-! The loops. -/

/-- What may have happened to a thread before `dispatch` is called. -/
def Reached (s : SemId) (cause : SemStatus) (t : Tid) (loc : Tid → Place) (k k' : Kernel) : Prop :=
  Untouched t k k' ∨ (loc t = .blocked s ∨ loc t = .timed s) ∧ Wakes t s cause k k'

theorem Untouched.reached (h : Untouched t k k₁) {loc₁ : Tid → Place} (hloc : loc₁ t = loc t)
    (h' : Reached s cause t loc₁ k₁ k') : Reached s cause t loc k k' := by
  rcases h' with hu | ⟨hl, hw⟩
  · exact Or.inl (h.trans hu)
  · exact Or.inr ⟨hloc ▸ hl, h.wakes hw⟩

theorem unblockAll_reached {n : ℕ} (h : k.unblockAll s cause n = .ok k') (hp : k.Placed pend loc)
    (hcpu : loc k.running = .cpu) (hc : cause.Woken) (t : Tid) : Reached s cause t loc k k' := by
  induction n generalizing k loc with
  | zero =>
    cases h
    exact Or.inl (.refl _ _)
  | succ n ih =>
    obtain ⟨k₁, r, hu, ha, h⟩ := unblockAll_ok h
    obtain ⟨t₀, hloc, hp₁, hw, hothers⟩ := unblock_wakes hu hp hcpu hc
    have hne : k.running ≠ t₀ :=
      Placed.running_ne hcpu (by rcases hloc with hloc | hloc <;> simp [hloc])
    have hrest := ih h (hp₁.congr (addVal_view ha)) (by
      rw [addVal_running ha, (unblock_stays hu).running, Function.update_of_ne hne]
      exact hcpu)
    by_cases ht : t = t₀
    · subst ht
      rcases hrest with hrest | ⟨hl, -⟩
      · exact Or.inr ⟨hloc, hw.untouched ((addVal_untouched ha t).trans hrest)⟩
      · simp at hl
    · exact ((hothers t ht).trans (addVal_untouched ha t)).reached (Function.update_of_ne ht _ _)
        hrest

/-- The timer wakes `t` at most once, and not if it is ready. -/
theorem wakeThreadUp_reached {t₀ : Tid} (h : k.wakeThreadUp t₀ = .ok k') (hp : k.Placed pend loc)
    (hcpu : loc k.running = .cpu) (hloc : loc t₀ = .asleep ∨ ∃ s, loc t₀ = .timed s)
    (ht : loc t ≠ .asleep) : ∃ s, Reached s .timeout t loc k k' ∧ (t ≠ t₀ → Untouched t k k') := by
  obtain ⟨th, hth, hfit⟩ := hp.record (t := t₀) (by rcases hloc with h | ⟨s, h⟩ <;> simp [h])
  rcases hloc with hloc | ⟨s, hloc⟩
  · rw [hloc] at hfit
    have hne : t ≠ t₀ := fun he => ht (he ▸ hloc)
    have hu : Untouched t k k' := by
      rcases wakeThreadUp_ok h hth with ⟨hst, -⟩ | ⟨-, ⟨-, hput⟩ | ⟨-, rfl⟩⟩
      · rw [hfit.1] at hst
        cases hst
      · exact (removeThreadFromSleep_untouched hne).trans (put_untouched hput hne)
      · exact removeThreadFromSleep_untouched hne
    exact ⟨0, Or.inl hu, fun _ => hu⟩
  · rw [hloc] at hfit
    rcases wakeThreadUp_ok h hth with ⟨-, ⟨hs, -⟩ | ⟨s', hs', hu⟩⟩ | ⟨hst, -⟩
    · rw [hfit.2.1] at hs
      cases hs
    · rw [hfit.2.1, Option.some.injEq] at hs'
      subst hs'
      obtain ⟨hw, hothers⟩ := unblockedByTime_wakes hu hp hcpu hloc
      by_cases he : t = t₀
      · subst he
        exact ⟨s, Or.inr ⟨Or.inr hloc, hw⟩, fun hne => absurd rfl hne⟩
      · exact ⟨s, Or.inl (hothers t he), fun _ => hothers t he⟩
    · exact absurd hfit.1 hst

theorem wakeLoop_reached {ts : List Tid}
    (h : foreachWhile wakeThreadUp shouldWakeUpThread ts k = .ok k')
    (hsl : k.Sleepers pend loc ts) (ht : loc t ≠ .asleep) : ∃ s, Reached s .timeout t loc k k' := by
  induction ts generalizing k loc with
  | nil =>
    cases h
    exact ⟨0, Or.inl (.refl _ _)⟩
  | cons t₀ ts ih =>
    obtain ⟨b, -, h⟩ := bind_ok h
    cases b with
    | false =>
      cases h
      exact ⟨0, Or.inl (.refl _ _)⟩
    | true =>
      obtain ⟨k₁, hw, h⟩ := bind_ok h
      obtain ⟨s, hreached, hother⟩ := wakeThreadUp_reached hw hsl.placed hsl.cpu
        (hsl.asleep t₀ (by simp)) ht
      have hawake : Function.update loc t₀ .ready t ≠ .asleep := by
        by_cases he : t = t₀
        · simp [he]
        · rwa [Function.update_of_ne he]
      obtain ⟨s', hrest⟩ := ih h (hsl.step hw).1 hawake
      by_cases he : t = t₀
      · subst he
        rcases hrest with hrest | ⟨hl, -⟩
        · rcases hreached with hu | ⟨hl, hw⟩
          · exact ⟨s, Or.inl (hu.trans hrest)⟩
          · exact ⟨s, Or.inr ⟨hl, hw.untouched hrest⟩⟩
        · simp at hl
      · exact ⟨s', (hother he).reached (Function.update_of_ne he _ _) hrest⟩

/-! `dispatch`. -/

theorem generateWaitResponses_log (h : k.generateWaitResponses s = .ok k')
    (hth : k.threads k.running = some th) (t : Tid) :
    k'.log t = k.log t ++ if t = k.running then [.answer t s th.semStatus.answer] else [] := by
  obtain ⟨th', hth', h⟩ := bind_ok h
  obtain rfl : th = th' := Option.some.inj (hth.symm.trans (thread_ok hth'))
  cases h
  apply (log_note _ _ t).trans
  by_cases ht : t = k.running
  · subst ht
    cases hst : th.semStatus <;> simp [Note.about, SemStatus.answer] <;> rfl
  · have hne : k.running ≠ t := fun he => ht he.symm
    simp [Note.about, ht, hne]
    rfl

theorem decTimedWaiting_log (k : Kernel) (s : SemId) (t : Tid) :
    (k.decTimedWaiting s).log t = k.log t := by
  unfold decTimedWaiting
  split
  · rfl
  · rw [log_note]
    simp [Note.about]

/-- The thread that goes on gives its answer. -/
theorem resume_log (h : k.resume = .ok k') (hth : k.threads k.running = some th) (t : Tid) :
    k'.log t = k.log t ++ if t = k.running then th.answers t else [] := by
  obtain ⟨th', hth', hcase⟩ := resume_ok h
  obtain rfl : th = th' := Option.some.inj (hth.symm.trans hth')
  unfold Thread.answers
  rcases hcase with ⟨hctx, rfl⟩ | ⟨s, hctx, hb⟩ | ⟨s, hctx, hb⟩ | ⟨hctx, rfl⟩
  · rcases hctx with hctx | hctx <;> simp [hctx]
  · have hrec : (k.setMySem k.running none).threads k.running = some { th with mySem := none } := by
      simp [hth]
    rw [generateWaitResponses_log hb hrec, hctx]
    rfl
  · have hrec : (((k.setMySem k.running none).decTimedWaiting s).setTimeForWakingUp k.running
        0).threads k.running = some { th with mySem := none, timeForWakingUp := 0 } := by
      simp [decTimedWaiting_threads, hth]
    have hrun := (afterTimedBlock_before k s).running
    rw [generateWaitResponses_log hb ((congrArg _ hrun).trans hrec), hctx, hrun]
    exact congrArg (· ++ _) (decTimedWaiting_log (k.setMySem k.running none) s t)
  · rw [hctx]
    simp only [ite_self, List.append_nil]
    rfl

theorem deleteThread_trace (h : k.deleteThread t = .ok k') : k'.trace = k.trace := by
  obtain ⟨th, -, rfl⟩ := deleteThread_ok h
  rfl

theorem deleteThreadInDispatch_trace (h : k.deleteThreadInDispatch t = .ok k') :
    k'.trace = k.trace := by
  unfold deleteThreadInDispatch at h
  dsimp only at h
  split_ifs at h
  · exact deleteThread_trace (k := (k.removeReady t).2) h
  · cases h
    rfl

theorem sweep_trace {ts : List Tid}
    (h : foreachWhile deleteThreadInDispatch threadDead ts k = .ok k') : k'.trace = k.trace :=
  foreachWhile_rel (R := fun k k' => k'.trace = k.trace) (fun _ => rfl) (fun h₁ h₂ => h₂.trans h₁)
    (fun _ _ _ => deleteThreadInDispatch_trace) h

theorem leave_trace (h : k.leave = .ok k') : k'.trace = k.trace := by
  obtain ⟨th, -, ⟨-, hput⟩ | ⟨-, rfl⟩ | ⟨-, hd⟩⟩ := leave_ok h
  · obtain ⟨node, hp, -, rfl⟩ := put_ok hput
    rfl
  · rfl
  · exact deleteThread_trace hd

theorem saveContext_log (k : Kernel) (old : Tid) (c : Context) (t : Tid) :
    (k.saveContext old c).log t = k.log t := by
  unfold saveContext
  split_ifs
  · rfl
  · rw [log_note]
    simp [Note.about]

/-- What `dispatch` does to a thread: it stays where it is, or is deleted because
it has finished, or gets the processor and gives its answer. -/
inductive Fate (t : Tid) (k k' : Kernel) : Prop
  | stays (h : Untouched t k k') (hrun : t ≠ k'.running)
  | dies (hready : 0 < k.queueThreads.items.count t) (hlog : k'.log t = k.log t)
      (hgone : k'.threads t = none) (hrun : t ≠ k'.running)
  | runs (hready : 0 < k.queueThreads.items.count t) (hrun : k'.running = t) (th : Thread)
      (hth : k.threads t = some th) (hlive : th.threadState ≠ .finished)
      (hlog : k'.log t = k.log t ++ th.answers t)

theorem Untouched.fate (h : Untouched t k k₁) (h' : Fate t k₁ k') : Fate t k k' := by
  cases h' with
  | stays hu hrun => exact .stays (h.trans hu) hrun
  | dies hready hlog hgone hrun => exact .dies (h.ready ▸ hready) (hlog.trans h.log) hgone hrun
  | runs hready hrun th₁ hth₁ hlive hlog =>
    obtain ⟨th, hth, hst, hctx, hfin⟩ := h.thread th₁ hth₁
    refine .runs (h.ready ▸ hready) hrun th hth (fun hf => hlive (hfin hf)) ?_
    rw [hlog, h.log, Thread.answers, Thread.answers, hst, hctx]

/-- Only the thread that gets the processor answers. -/
theorem arrive_log (h : k.arrive c = .ok k')
    (hp : k.Placed (park (fun _ => none) k.running c) loc) (ht : t ≠ k'.running) :
    k'.log t = k.log t := by
  obtain ⟨k₁, loc₁, t₁, th₁, hs, -, -, hg, -, -, hrun, hrec, -, -, hr⟩ := arrive_split h hp
  obtain ⟨e, q, hq, rfl, hget⟩ := get_some hg
  rw [(resume_stays hr).running] at ht
  rw [resume_log hr ((congrArg _ hrun).trans hrec) t, if_neg ht, List.append_nil, switched,
    saveContext_log]
  refine (log_congr ?_).trans (log_congr (sweep_trace hs))
  rw [hget]
  rfl

theorem arrive_fate (h : k.arrive c = .ok k')
    (hp : k.Placed (park (fun _ => none) k.running c) loc) (ht : t ≠ k.running) : Fate t k k' := by
  obtain ⟨k₁, loc₁, t₁, th₁, hs, hp₁, hrel, hg, hfin, hloc₁, hrun, hrec, hst, haw, hr⟩ := arrive_split h hp
  obtain ⟨e, q, hq, rfl, hget⟩ := get_some hg
  have hrunning : k'.running = e.data := (resume_stays hr).running.trans hrun
  have hlog : (switched k₁ e.data k.running c).log t = k.log t := by
    have h₁ : k₁.log t = k.log t := log_congr (sweep_trace hs)
    rw [switched, saveContext_log, ← h₁]
    exact log_congr (by rw [hget]; rfl)
  have hresume := resume_log hr ((congrArg _ hrun).trans hrec) t
  rw [hrun, hlog] at hresume
  by_cases he : t = e.data
  · subst he
    rcases hrel e.data with ⟨hl, hv⟩ | ⟨-, hgone⟩
    swap
    · rw [hloc₁] at hgone
      cases hgone
    have hready : 0 < k.queueThreads.items.count e.data := by
      rw [hp.ready_count, ← hl, hloc₁]
      exact Nat.one_pos
    have hth : k₁.threads e.data = k.threads e.data := congrArg View.thread hv
    obtain ⟨th, hth₁, -⟩ := hp₁.record (t := e.data) (by simp [hloc₁])
    have hsw := (switch_moves (k := k₁.get.2) (t := e.data) k.running c
      (by rw [hget]; exact hth₁)).1
    have hsw' : (switched k₁ e.data k.running c).threads e.data = _ := hsw
    rw [hrec, Option.some.injEq] at hsw'
    have hpark : park (fun _ => none) k.running c e.data = none := Function.update_of_ne ht _ _
    refine .runs hready hrunning th (hth ▸ hth₁) ?_ ?_
    · simpa [isFinished, hth₁] using hfin
    · rw [hresume, if_pos rfl, hsw', Thread.answers, Thread.answers, hpark]
      rfl
  · rw [if_neg he, List.append_nil] at hresume
    obtain ⟨_, -, -, hm⟩ := resume_moves hr ((congrArg _ hrun).trans hrec) hst haw
    have hview : k'.view t = k₁.view t := by
      rw [hm.other t (by rw [hrun]; exact he), switched_view hg he ht]
    rcases hrel t with ⟨-, hv⟩ | ⟨hl, hgone⟩
    · exact .stays (untouched_of_view (hview.trans hv) hresume) (by rw [hrunning]; exact he)
    · refine .dies ?_ hresume ((congrArg View.thread hview).trans (hp₁.gone hgone))
        (by rw [hrunning]; exact he)
      rw [hp.ready_count, hl]
      exact Nat.one_pos

theorem dispatch_fate (h : k.dispatch c = .ok k')
    (hp : ∀ k₁, ({ k with runningThreadCpuTime := 0 } : Kernel).leave = .ok k₁ →
      k₁.Placed (park (fun _ => none) k.running c) loc) (ht : t ≠ k.running) : Fate t k k' := by
  obtain ⟨k₁, hlv, ha⟩ := dispatch_ok h
  have hrun : k₁.running = k.running := leave_running (k := { k with runningThreadCpuTime := 0 }) hlv
  have hleave : Untouched t { k with runningThreadCpuTime := 0 } k₁ :=
    untouched_of_view (leave_other hlv ht) (log_congr (leave_trace hlv))
  have hreset : Untouched t k { k with runningThreadCpuTime := 0 } :=
    untouched_of_view (resetTime_view k t) rfl
  exact (hreset.trans hleave).fate
    (arrive_fate ha (by rw [hrun]; exact hp k₁ hlv) (by rw [hrun]; exact ht))

theorem Parks.fate {pl : Place} (h : Parks k loc c pl k₂) (hd : k₂.dispatch c = .ok k')
    (ht : t ≠ k.running) : Fate t k₂ k' := by
  have hp : ∀ k₃, ({ k₂ with runningThreadCpuTime := 0 } : Kernel).leave = .ok k₃ →
      k₃.Placed (park (fun _ => none) k₂.running c) (Function.update loc k.running pl) := by
    intro k₃ hlv
    rw [h.running]
    exact h.leave hlv
  exact dispatch_fate hd hp (h.running ▸ ht)

theorem memory_untouched (k : Kernel) (hp : Heap) (u : List ℕ) (t : Tid) :
    Untouched t k { k with heap := hp, user := u } := untouched_of_view rfl rfl

/-! Any event. -/

/-- What makes a waiting thread ready, the status it leaves and the answer to it. -/
inductive Caused (s : SemId) : Event → SemStatus → WaitAnswer → Prop
  | signal : Caused s (.semSignal (some s)) .regularlyWaited .okayWaited
  | tick : Caused s .tick .timeout .timeout
  | close : Caused s (.semClose (some s)) .semDeleted .dead

/-- A write to a record that says the same about a wait. -/
theorem record_untouched {f : Thread → Thread} (t t' : Tid)
    (hf : ∀ th, (f th).semStatus = th.semStatus ∧ (f th).context = th.context ∧
      (th.threadState = .finished → (f th).threadState = .finished)) :
    Untouched t k (k.modifyThread t' f) := by
  refine ⟨fun _ => rfl, rfl, ?_, rfl⟩
  intro th' hth'
  by_cases he : t = t'
  · subst he
    rw [modifyThread_threads, Function.update_self] at hth'
    obtain ⟨th, hth, rfl⟩ := Option.map_eq_some_iff.1 hth'
    exact ⟨th, hth, hf th⟩
  · rw [modifyThread_threads, Function.update_of_ne he] at hth'
    exact ⟨th', hth', rfl, rfl, id⟩

theorem decNumOfChildren_untouched (k : Kernel) (p t : Tid) :
    Untouched t k (k.decNumOfChildren p) := by
  unfold decNumOfChildren
  split_ifs
  · exact record_untouched t p fun th => ⟨rfl, rfl, id⟩
  · exact note_untouched k rfl

theorem setFinished_untouched (k : Kernel) (t t' : Tid) : Untouched t k (k.setFinished t') :=
  record_untouched t t' fun _ => ⟨rfl, rfl, fun _ => rfl⟩

/-- What an event does to a thread that does not run. -/
def Passed (e : Event) (t : Tid) (loc : Tid → Place) (k k' : Kernel) : Prop :=
  ∃ k₁, (Untouched t k k₁ ∨ ∃ s c a, Caused s e c a ∧ (loc t = .blocked s ∨ loc t = .timed s) ∧
    Wakes t s c k k₁) ∧ Fate t k₁ k'

theorem Untouched.passed (h : Untouched t k k') (hrun : k'.running = k.running)
    (ht : t ≠ k.running) : Passed e t loc k k' :=
  ⟨k', Or.inl h, .stays (.refl _ _) (by rw [hrun]; exact ht)⟩

theorem Reached.passed {a : WaitAnswer} (h : Reached s cause t loc k k') (hc : Caused s e cause a)
    (hrun : k'.running = k.running) (ht : t ≠ k.running) : Passed e t loc k k' := by
  rcases h with hu | ⟨hl, hw⟩
  · exact hu.passed hrun ht
  · exact ⟨k', Or.inr ⟨s, cause, a, hc, hl, hw⟩, .stays (.refl _ _) (by rw [hrun]; exact ht)⟩

theorem Untouched.dispatched (h : Untouched t k k₁) (h' : Fate t k₁ k') : Passed e t loc k k' :=
  ⟨k₁, Or.inl h, h'⟩

theorem wait_passed (h : k.wait s = .ok k') (hl : k.Located loc) (ht : t ≠ k.running) :
    Passed e t loc k k' := by
  obtain ⟨r, ha, ⟨-, rfl⟩ | ⟨-, hb⟩⟩ := wait_ok h
  · have hrun := addVal_running ha
    have hnote := note_untouched (t := t) r.2 (n := .answer r.2.running s .didntWait) (by
      rw [hrun]
      simpa [Note.about] using ht.symm)
    exact ((addVal_untouched ha t).trans hnote).passed hrun ht
  · obtain ⟨k₁, hadd, hd⟩ := block_ok hb
    rw [addVal_running ha] at hadd hd
    have hpark := block_parks ha hadd hl
    have hrecord : Untouched t k₁ ((k₁.setThreadsSemStatus k.running .waiting).setMySem k.running
        (some s)) := (modifyThread_untouched ht).trans (modifyThread_untouched ht)
    exact (((addVal_untouched ha t).trans (addBlocked_untouched hadd ht)).trans hrecord).dispatched
      (hpark.fate hd ht)

theorem insertAsleep_untouched (h : k.insertAsleep t' = .ok k') (hne : k.threads t' ≠ none)
    (ht : t ≠ t') : Untouched t k k' := by
  refine untouched_of_view ((insertAsleep_moves h hne).other t ht) (log_congr ?_)
  obtain ⟨node, hp, -, rfl⟩ := insertAsleep_ok h hne
  rfl

theorem incTimedWaiting_untouched (h : k.incTimedWaiting s = .ok k') (t : Tid) :
    Untouched t k k' := by
  refine untouched_of_view (incTimedWaiting_view h t) (log_congr ?_)
  obtain ⟨m, -, rfl⟩ := incTimedWaiting_ok h
  rfl

theorem timedWait_passed {m : UInt64} (h : k.timedWait s m = .ok k') (hl : k.Located loc)
    (ht : t ≠ k.running) : Passed e t loc k k' := by
  obtain ⟨r, ha, ⟨-, rfl⟩ | ⟨-, k₁, k₂, k₃, hadd, hne, hi, hn, hpark, hd⟩⟩ := timedWait_parks h hl
  · have hrun := addVal_running ha
    have hnote := note_untouched (t := t) r.2 (n := .answer r.2.running s .didntWait) (by
      rw [hrun]
      simpa [Note.about] using ht.symm)
    exact ((addVal_untouched ha t).trans hnote).passed hrun ht
  · have htiming : Untouched t r.2 (r.2.timing k.running (wrap (m.toNat + r.2.sysTime))) :=
      (modifyThread_untouched ht).trans (modifyThread_untouched ht)
    have hlists := (addBlocked_untouched hadd ht).trans ((insertAsleep_untouched hi hne ht).trans
      (incTimedWaiting_untouched hn t))
    have hparked : Untouched t k₃ (k₃.setMySem k.running (some s)) := modifyThread_untouched ht
    exact (((addVal_untouched ha t).trans htiming).trans (hlists.trans hparked)).dispatched
      (hpark.fate hd ht)

theorem putThreadToSleep_passed {m : UInt64} (h : k.putThreadToSleep m = .ok k')
    (hl : k.Located loc) (ht : t ≠ k.running) : Passed e t loc k k' := by
  obtain ⟨k₁, hne, hi, hpark, hd⟩ := putThreadToSleep_parks h hl
  have hdoze : Untouched t k (k.dozing k.running (wrap (k.sysTime + m.toNat))) :=
    (modifyThread_untouched ht).trans (modifyThread_untouched ht)
  exact (hdoze.trans (insertAsleep_untouched hi hne ht)).dispatched (hpark.fate hd ht)

theorem exit_passed (h : k.exit = .ok k') (hl : k.Located loc) (ht : t ≠ k.running) :
    Passed e t loc k k' := by
  obtain ⟨th, k₁, -, hk₁, hd⟩ := exit_ok h
  have h₁ : Untouched t k k₁ ∧ k₁.Located loc ∧ k₁.running = k.running := by
    rcases hk₁ with ⟨rfl, -⟩ | ⟨p, -, rfl⟩
    · exact ⟨.refl _ _, hl, rfl⟩
    · exact ⟨decNumOfChildren_untouched k p t, (decNumOfChildren_located (r := none) hl p).1,
        (decNumOfChildren_stays k p).running⟩
  obtain ⟨hu, hl₁, hrun⟩ := h₁
  rw [← hrun] at hd
  have hp : ∀ k₂, ({ k₁.setFinished k₁.running with runningThreadCpuTime := 0 } : Kernel).leave =
      .ok k₂ → k₂.Placed (park (fun _ => none) k₁.running .toUser)
        (Function.update loc k₁.running .gone) := fun _ hlv => exit_leave hl₁ hlv
  exact (hu.trans (setFinished_untouched k₁ t k₁.running)).dispatched
    (dispatch_fate hd hp (hrun ▸ ht))

theorem newThread_passed {body : UInt64} {stack : ℕ} (h : k.newThread body stack = .ok k')
    (ht : t ≠ k.running) (hID : t ≤ k.ID) : Passed e t loc k k' := by
  obtain ⟨-, p, hp, k₁, -, hk₁, rfl⟩ := newThread_ok h
  have hne : t ≠ k.ID + 1 := Nat.ne_of_lt (Nat.lt_succ_of_le hID)
  have hmem := memory_untouched k hp (k.user.erase stack) t
  have hput : Untouched t k k₁ ∧ k₁.running = k.running := by
    rcases hk₁ with ⟨-, hput⟩ | ⟨-, rfl⟩
    · exact ⟨hmem.trans (put_untouched hput hne), (put_stays hput).running⟩
    · exact ⟨hmem, rfl⟩
  have hcount : Untouched t k₁ k₁.countChild := record_untouched t k₁.running fun _ => ⟨rfl, rfl, id⟩
  have henroll : Untouched t k₁.countChild (k₁.countChild.enroll (k.ID + 1) p
      (k.newborn body stack)) :=
    untouched_of_view ((enroll_moves _ _ p _).other t hne) rfl
  exact ((hput.1.trans hcount).trans henroll).passed hput.2 ht

theorem newSem_passed {n : UInt64} (h : k.newSem n = .ok k') (hi : k.Inv) (ht : t ≠ k.running) :
    Passed e t loc k k' := by
  have hu : Untouched t k k' := by
    refine untouched_of_view (newSem_view h hi t) (log_congr ?_)
    obtain ⟨p, hp, node, hp', -, -, rfl⟩ := newSem_ok h
    rfl
  have hrun : k'.running = k.running := by
    obtain ⟨p, hp, node, hp', -, -, rfl⟩ := newSem_ok h
    rfl
  exact hu.passed hrun ht

theorem deleteSem_passed (h : k.deleteSem s = .ok k') (hi : k.Inv) (hl : k.Located loc)
    (ht : t ≠ k.running) : Passed (.semClose (some s)) t loc k k' := by
  obtain ⟨m, k₁, hm, hu, rfl⟩ := deleteSem_ok h
  obtain ⟨m₁, hm₁, hempty⟩ := unblockAll_empties hm hu hi hl
  have hreached := unblockAll_reached hu hl.placed hl.running_cpu trivial t
  have hdelete : Untouched t k₁ (k₁.forgetSem s) :=
    ⟨fun s' => forgetSem_queued hm₁ hempty s' t, rfl, fun th hth => ⟨th, hth, rfl, rfl, id⟩, rfl⟩
  have hrun := (unblockAll_stays hu).running
  refine Reached.passed (s := s) (a := .dead) ?_ .close hrun ht
  rcases hreached with hu | ⟨hl, hw⟩
  · exact Or.inl (hu.trans hdelete)
  · exact Or.inr ⟨hl, hw.untouched hdelete⟩

theorem signal_passed {r : ℤ × Kernel} (h : k.signal s = .ok r) (hl : k.Located loc)
    (ht : t ≠ k.running) : Passed (.semSignal (some s)) t loc k r.2 := by
  obtain ⟨val, k₁, ha, hcase⟩ := signal_ok h
  have hrun := addVal_running ha
  have hnote : Untouched t k (k₁.note (.signalled s)) :=
    (addVal_untouched ha t).trans (note_untouched k₁ rfl)
  rcases hcase with ⟨-, rfl⟩ | ⟨-, k', hu, rfl⟩
  · exact hnote.passed hrun ht
  · have hl₁ : (k₁.note (.signalled s)).Located loc :=
      (addVal_located ha hl).congr (fun _ => rfl) rfl
    obtain ⟨t₀, hloc, -, hw, hothers⟩ := unblock_wakes hu hl₁.placed hl₁.running_cpu trivial
    have hrun' := (unblock_stays hu).running.trans hrun
    have hreached : Reached s .regularlyWaited t loc k k' := by
      by_cases he : t = t₀
      · subst he
        exact Or.inr ⟨hloc, hnote.wakes hw⟩
      · exact Or.inl (hnote.trans (hothers t he))
    exact hreached.passed .signal hrun' ht

theorem timerInterruptHandler_passed (h : k.timerInterruptHandler = .ok k') (hl : k.Located loc)
    (ht : t ≠ k.running) (hasleep : loc t ≠ .asleep) : Passed .tick t loc k k' := by
  obtain ⟨k₁, th, hw, -, hcase⟩ := timerInterruptHandler_ok h
  obtain ⟨s, hreached⟩ := wakeLoop_reached hw hl.sleepers hasleep
  obtain ⟨_, _, -, -, -, hl₁, -⟩ := wake_located hw hl
  have htime : Untouched t k k.incTime := untouched_of_view rfl rfl
  have hrun : k₁.running = k.running := (wakeAsleepThreadsUp_stays hw).running
  have hfate : Fate t k₁ k' := by
    rcases hcase with ⟨-, hd⟩ | ⟨-, rfl⟩
    · exact dispatch_fate hd (fun _ hlv => hl₁.leave hlv) (hrun ▸ ht)
    · exact .stays (.refl _ _) (hrun ▸ ht)
  refine ⟨k₁, ?_, hfate⟩
  rcases htime.reached rfl hreached with hu | ⟨hloc, hwakes⟩
  · exact Or.inl hu
  · exact Or.inr ⟨s, _, _, .tick, hloc, hwakes⟩

theorem subtleKill_passed {t' : Tid} (ht : t ≠ k.running) :
    Passed (.subtleKill t') t loc k (k.subtleKill t').2 := by
  have hsame : Passed (.subtleKill t') t loc k k := (Untouched.refl t k).passed rfl ht
  unfold subtleKill
  split
  · exact hsame
  · split_ifs
    · exact hsame
    · exact hsame
    · exact (setFinished_untouched k t t').passed rfl ht

theorem step_passed (h : k.step e = .ok k') (hi : k.Inv) (hl : k.Located loc)
    (ht : t ≠ k.running) (hasleep : loc t ≠ .asleep) (hID : t ≤ k.ID) : Passed e t loc k k' := by
  cases step_effect h with
  | idle => exact (Untouched.refl t k).passed rfl ht
  | memAlloc p hp => exact (memory_untouched k hp _ t).passed rfl ht
  | memFree => exact (memory_untouched k _ _ t).passed rfl ht
  | threadCreate h => exact newThread_passed h ht hID
  | threadExit h => exact exit_passed h hl ht
  | threadDispatch h =>
    exact (Untouched.refl t k).dispatched (dispatch_fate h (fun _ hlv => hl.leave hlv) ht)
  | semOpen h => exact newSem_passed h hi ht
  | semClose s h => exact deleteSem_passed h hi hl ht
  | semWait s h => exact wait_passed h hl ht
  | semSignal s hr => exact signal_passed hr hl ht
  | semTimedwait s h => exact timedWait_passed h hl ht
  | semTrywait s hr => exact (addVal_untouched hr t).passed (addVal_running hr) ht
  | timeSleep h => exact putThreadToSleep_passed h hl ht
  | tick h => exact timerInterruptHandler_passed h hl ht hasleep
  | subtleKill t' => exact subtleKill_passed ht

/-! A call of `sem_wait` or `sem_timedwait`. -/

/-- `t` is in the queue of `s`, and nothing has been noted about it since `base`. -/
structure Waits (k : Kernel) (t : Tid) (s : SemId) (base : List Note) : Prop where
  queued : k.queued s t = 1
  log : k.log t = base

/-- `t` was taken out of the queue of `s` for `cause`: it is ready with the cause
in its record, or was deleted. -/
structure Marked (k : Kernel) (t : Tid) (s : SemId) (cause : SemStatus) (base : List Note) : Prop where
  log : k.log t = base ++ [.dequeued t s cause]
  place : k.threads t = none ∨ 0 < k.queueThreads.items.count t
  record : ∀ th, k.threads t = some th → (th.context = .block s ∨ th.context = .timedBlock s) ∧
    (th.threadState ≠ .finished → th.semStatus = cause)

/-- It has not gone on since. -/
structure Woken (k : Kernel) (t : Tid) (s : SemId) (cause : SemStatus) (base : List Note) : Prop
    extends k.Marked t s cause base where
  idle : t ≠ k.running

/-- `t` goes on from its wait and returns `a`. -/
structure Returned (k : Kernel) (t : Tid) (s : SemId) (cause : SemStatus) (a : WaitAnswer)
    (base : List Note) : Prop where
  running : k.running = t
  log : k.log t = base ++ [.dequeued t s cause, .answer t s a]

variable {base : List Note}

theorem Caused.answer {a : WaitAnswer} (h : Caused s e cause a) : cause.answer = a := by
  cases h <;> rfl

theorem Marked.fate (hw : k.Marked t s cause base) (h : Fate t k k') :
    k'.Woken t s cause base ∨ k'.Returned t s cause cause.answer base := by
  cases h with
  | stays hu hrun =>
    refine Or.inl ⟨⟨hu.log.trans hw.log, ?_, ?_⟩, hrun⟩
    · rcases hw.place with hnone | hready
      · refine Or.inl (Option.eq_none_iff_forall_ne_some.2 ?_)
        intro th' hth'
        obtain ⟨th, hth, -⟩ := hu.thread th' hth'
        rw [hnone] at hth
        cases hth
      · exact Or.inr (hu.ready ▸ hready)
    · intro th' hth'
      obtain ⟨th, hth, hst, hctx, hfin⟩ := hu.thread th' hth'
      obtain ⟨h₁, h₂⟩ := hw.record th hth
      exact ⟨hctx ▸ h₁, fun hf => hst.trans (h₂ fun hf' => hf (hfin hf'))⟩
  | dies hready hlog hgone hrun =>
    refine Or.inl ⟨⟨hlog.trans hw.log, Or.inl hgone, ?_⟩, hrun⟩
    intro th hth
    rw [hgone] at hth
    cases hth
  | runs hready hrun th hth hlive hlog =>
    obtain ⟨hctx, hst⟩ := hw.record th hth
    refine Or.inr ⟨hrun, ?_⟩
    rw [hlog, hw.log, List.append_assoc, Thread.answers]
    rcases hctx with hctx | hctx <;> rw [hctx, hst hlive] <;> rfl

/-- The place of a thread that was taken out of its queue. -/
theorem Woken.place_eq (hw : k.Woken t s cause base) (hl : k.Located loc) :
    loc t = .ready ∨ loc t = .gone := by
  rcases hw.place with hnone | hready
  · apply Or.inr
    by_contra hne
    obtain ⟨th, hth, -⟩ := hl.placed.record hne
    rw [hnone] at hth
    cases hth
  · exact Or.inl (hl.placed.mem_ready (List.count_pos_iff.1 hready))

theorem step_woken (h : k.step e = .ok k') (hi : k.Inv) (hID : t ≤ k.ID)
    (hw : k.Woken t s cause base) :
    k'.Woken t s cause base ∨ k'.Returned t s cause cause.answer base := by
  obtain ⟨loc, hl⟩ := hi.located
  have hloc := hw.place_eq hl
  obtain ⟨k₁, hu | ⟨s', c, a, -, hq, -⟩, hfate⟩ := step_passed h hi hl hw.idle
    (by rcases hloc with h | h <;> simp [h]) hID
  · exact hw.toMarked.fate (hu.fate hfate)
  · rcases hloc with h | h <;> rw [h] at hq <;> simp at hq

theorem Waits.place (hw : k.Waits t s base) (hl : k.Located loc) :
    loc t = .blocked s ∨ loc t = .timed s := by
  apply Place.of_inQueue
  rw [← hl.placed.queued, hw.queued]
  exact Nat.one_pos

theorem Waits.ne_running (hw : k.Waits t s base) (hl : k.Located loc) : t ≠ k.running := by
  rintro rfl
  have := hw.place hl
  simp [hl.running_cpu] at this

/-- A waiting thread waits on, or the event takes it out of the queue. -/
theorem step_waits (h : k.step e = .ok k') (hi : k.Inv) (hID : t ≤ k.ID)
    (hw : k.Waits t s base) :
    k'.Waits t s base ∨ ∃ c a, Caused s e c a ∧
      (k'.Woken t s c base ∨ k'.Returned t s c a base) := by
  obtain ⟨loc, hl⟩ := hi.located
  have hloc := hw.place hl
  obtain ⟨k₁, hcase, hfate⟩ := step_passed h hi hl (hw.ne_running hl)
    (by rcases hloc with h | h <;> simp [h]) hID
  rcases hcase with hu | ⟨s', c, a, hc, hq, hwakes⟩
  · left
    have hready : k.queueThreads.items.count t = 0 := by
      rw [hl.placed.ready_count]
      rcases hloc with h | h <;> simp [h, Place.inReady]
    cases hu.fate hfate with
    | stays hu' hrun => exact ⟨(hu'.queued s).trans hw.queued, hu'.log.trans hw.log⟩
    | dies hpos => omega
    | runs hpos => omega
  · right
    obtain rfl : s = s' := by
      rcases hloc with h | h <;> rw [h] at hq <;> simpa using hq
    -- in the state before the dispatch the thread is ready with the cause in its record
    have hrecord : ∀ th, k₁.threads t = some th → (th.context = .block s ∨
        th.context = .timedBlock s) ∧ (th.threadState ≠ .finished → th.semStatus = c) := by
      intro th₁ hth₁
      obtain ⟨th, hth, hctx, hst⟩ := hwakes.thread th₁ hth₁
      have hfit := hl.placed.fits hth
      refine ⟨hctx ▸ ?_, hst⟩
      rcases hloc with h | h <;> rw [h] at hfit
      · exact Or.inl hfit.2.2.2
      · exact Or.inr hfit.2.2.2
    have hlog : k₁.log t = base ++ [.dequeued t s c] := by rw [hwakes.log, hw.log]
    refine ⟨c, a, hc, ?_⟩
    rw [← hc.answer]
    exact Marked.fate ⟨hlog, Or.inr hwakes.ready, hrecord⟩ hfate

theorem Parks.waits {pl : Place} {s : SemId} (h : Parks k loc c pl k₂)
    (hd : k₂.dispatch c = .ok k') (hpl : pl = .blocked s ∨ pl = .timed s) :
    k'.Waits k.running s (k₂.log k.running) := by
  obtain ⟨k₃, hlv, ha⟩ := dispatch_ok hd
  have hrun : k₃.running = k.running :=
    (leave_running (k := { k₂ with runningThreadCpuTime := 0 }) hlv).trans h.running
  have hp := h.leave hlv
  rw [← hrun] at hp
  obtain ⟨loc', hp', hfrom, -, hrel⟩ := arrive_placed ha hp
  have hne : k₃.running ≠ k'.running := by
    intro he
    rw [← he, Function.update_self] at hfrom
    rcases hpl with rfl | rfl <;> cases hfrom
  refine ⟨?_, ?_⟩
  · rw [← hrun, hp'.queued]
    rcases hrel k₃.running hne with ⟨hl, -⟩ | ⟨hl, -⟩
    · rw [hl, Function.update_self]
      rcases hpl with rfl | rfl <;> simp [Place.inQueue]
    · rw [Function.update_self] at hl
      rcases hpl with rfl | rfl <;> cases hl
  · rw [← hrun, arrive_log ha hp hne]
    exact log_congr (leave_trace (k := { k₂ with runningThreadCpuTime := 0 }) hlv)

/-- The call of a wait function. -/
def WaitCall (s : SemId) (e : Event) : Prop :=
  e = .semWait (some s) ∨ ∃ m, e = .semTimedwait (some s) m

/-- The call returns at once, or its thread is in the queue. -/
theorem call_waits (h : k.step e = .ok k') (hi : k.Inv) (he : WaitCall s e) :
    k'.running = k.running ∧ k'.log k.running = k.log k.running ++
        [.answer k.running s .didntWait] ∨
      k'.Waits k.running s (k.log k.running) := by
  obtain ⟨loc, hl⟩ := hi.located
  have hanswer : ∀ {r : ℤ × Kernel}, k.addVal s (-1) = .ok r →
      (r.2.note (.answer r.2.running s .didntWait)).running = k.running ∧
      (r.2.note (.answer r.2.running s .didntWait)).log k.running = k.log k.running ++
        [.answer k.running s .didntWait] := by
    intro r ha
    refine ⟨addVal_running ha, ?_⟩
    rw [log_note, (addVal_untouched ha _).log, addVal_running ha]
    simp [Note.about]
  rcases he with rfl | ⟨m, rfl⟩
  · have h : k.wait s = .ok k' := h
    obtain ⟨r, ha, ⟨-, rfl⟩ | ⟨-, hb⟩⟩ := wait_ok h
    · exact Or.inl (hanswer ha)
    · obtain ⟨k₁, hadd, hd⟩ := block_ok hb
      rw [addVal_running ha] at hadd hd
      have hw := (block_parks ha hadd hl).waits hd (Or.inl rfl)
      have hlog : k₁.log k.running = k.log k.running := by
        obtain ⟨m, node, hp, -, -, rfl⟩ := addBlocked_ok hadd
        exact (addVal_untouched ha _).log
      exact Or.inr (hlog ▸ hw)
  · have h : k.timedWait s m = .ok k' := h
    obtain ⟨r, ha, ⟨-, rfl⟩ | ⟨-, k₁, k₂, k₃, hadd, hne, hi, hn, hpark, hd⟩⟩ := timedWait_parks h hl
    · exact Or.inl (hanswer ha)
    · have hw := hpark.waits hd (Or.inr rfl)
      have hlog : k₃.log k.running = k.log k.running := by
        obtain ⟨m₁, node₁, hp₁, -, -, rfl⟩ := addBlocked_ok hadd
        obtain ⟨node₂, hp₂, -, rfl⟩ := insertAsleep_ok hi hne
        obtain ⟨m₃, -, rfl⟩ := incTimedWaiting_ok hn
        exact (addVal_untouched ha _).log
      exact Or.inr (hlog ▸ hw)

/-- The end of a wait in the run over `es` from `k₁` to `k`: the event `e` takes
the thread out of the queue, and when the thread goes on it returns the answer to
that. -/
def Ended (k₁ : Kernel) (t : Tid) (s : SemId) (base : List Note) (es : List Event) (k : Kernel) :
    Prop :=
  ∃ es₁ e es₂ kw kw' c a, es = es₁ ++ e :: es₂ ∧ Run step (fun _ _ => True) k₁ es₁ kw ∧
    kw.Waits t s base ∧ kw.step e = .ok kw' ∧ Run step (fun _ _ => True) kw' es₂ k ∧
    Caused s e c a ∧ (kw'.Woken t s c base ∨ kw'.Returned t s c a base) ∧
    (k.Woken t s c base ∨ ∃ es₃ es₄ kr, es₂ = es₃ ++ es₄ ∧
      Run step (fun _ _ => True) kw' es₃ kr ∧ Run step (fun _ _ => True) kr es₄ k ∧
      kr.Returned t s c a base)

theorem run_waits {es : List Event} (h : Run step (fun _ _ => True) k₁ es k) (hi : k₁.Inv)
    (hID : t ≤ k₁.ID) (hw : k₁.Waits t s base) :
    (k.Inv ∧ t ≤ k.ID) ∧ (k.Waits t s base ∨ Ended k₁ t s base es k) := by
  induction h with
  | nil => exact ⟨⟨hi, hID⟩, Or.inl hw⟩
  | @snoc es k e k' hrun _ hstep ih =>
    obtain ⟨⟨hik, hIDk⟩, hcase⟩ := ih
    have hID' := hIDk.trans (step_fresh hstep hik).2.1
    refine ⟨⟨step_inv hstep hik, hID'⟩, ?_⟩
    have hone : Run step (fun _ _ => True) k [e] k' := .single trivial hstep
    rcases hcase with hw | ⟨es₁, e₁, es₂, kw, kw', c, a, rfl, h₁, hww, hs₁, h₂, hc, hkw', hend⟩
    · rcases step_waits hstep hik hIDk hw with hw' | ⟨c, a, hc, hend⟩
      · exact Or.inl hw'
      · refine Or.inr ⟨es, e, [], k, k', c, a, rfl, hrun, hw, hstep, .nil, hc, hend, ?_⟩
        exact hend.imp_right fun hr => ⟨[], [], k', rfl, .nil, .nil, hr⟩
    · refine Or.inr ⟨es₁, e₁, es₂ ++ [e], kw, kw', c, a, by simp, h₁, hww, hs₁, h₂.trans hone, hc,
        hkw', ?_⟩
      rcases hend with hwoken | ⟨es₃, es₄, kr, rfl, h₃, h₄, hr⟩
      · apply (step_woken hstep hik hIDk hwoken).imp_right
        intro hr
        exact ⟨es₂ ++ [e], [], k', by simp, h₂.trans hone, .nil, hc.answer ▸ hr⟩
      · exact Or.inr ⟨es₃, es₄ ++ [e], kr, by simp, h₃, h₄.trans hone, hr⟩

/-- Every call of `sem_wait` or `sem_timedwait` in a reachable state, in every run
after it: it returns at once and says so; or its thread is still in the queue;
or exactly one signal, tick or closing of the semaphore took it out of the queue,
and it has not gone on yet, or went on and returned the answer to that cause. -/
theorem wait_answered {start total : ℕ} {kb k₀ : Kernel} {es₀ es : List Event}
    (hb : boot start total = some kb) (h₀ : Run step (fun _ _ => True) kb es₀ k₀)
    (he : WaitCall s e) (hcall : k₀.step e = .ok k₁) (h : Run step (fun _ _ => True) k₁ es k) :
    (k₁.running = k₀.running ∧ k₁.log k₀.running = k₀.log k₀.running ++
        [.answer k₀.running s .didntWait]) ∨
      k.Waits k₀.running s (k₀.log k₀.running) ∨
      Ended k₁ k₀.running s (k₀.log k₀.running) es k := by
  have hi := run_inv h₀ (boot_inv hb)
  have hID := hi.running_named.trans (step_fresh hcall hi).2.1
  rcases call_waits hcall hi he with hnow | hw
  · exact Or.inl hnow
  · exact Or.inr (run_waits h (step_inv hcall hi) hID hw).2

/-- A thread waits with a timeout, `main` signals the semaphore, and the thread goes
on: the signal ended the wait. -/
theorem wait_answered_one : ∃ kb k₀ k₁ k, boot 1024 1000 = some kb ∧
    Run step (fun _ _ => True) kb
      [.memAlloc 65, .threadCreate 4096 5328, .semOpen 0, .threadDispatch] k₀ ∧
    k₀.step (.semTimedwait (some 0) 5) = .ok k₁ ∧
    Run step (fun _ _ => True) k₁ [.tick, .semSignal (some 0), .threadDispatch] k ∧
      k₀.running = 2 ∧ k.log 2 = [.dequeued 2 0 .regularlyWaited, .answer 2 0 .okayWaited] ∧
      Ended k₁ 2 0 [] [.tick, .semSignal (some 0), .threadDispatch] k := by
  have hrun : ((boot 1024 1000).bind fun kb => exec step (fun _ _ => True) kb
      [.memAlloc 65, .threadCreate 4096 5328, .semOpen 0, .threadDispatch]).any (fun k₀ =>
        k₀.running = 2 ∧ k₀.log 2 = [] ∧ ((some k₀).bind fun k => exec step (fun _ _ => True) k
          [.semTimedwait (some 0) 5]).any (fun k₁ => k₁.running ≠ 2 ∧
            ((some k₁).bind fun k => exec step (fun _ _ => True) k
              [.tick, .semSignal (some 0), .threadDispatch]).any (fun k => k.queued 0 2 = 0 ∧
                k.log 2 = [.dequeued 2 0 .regularlyWaited, .answer 2 0 .okayWaited]) = true) =
              true) = true := by decide +kernel
  obtain ⟨kb, k₀, hb, h₀, hq₀⟩ := exists_run hrun
  obtain ⟨hrunning, hbase, hq₀⟩ := of_decide_eq_true hq₀
  obtain ⟨_, k₁, ⟨⟩, hcall, hq₁⟩ := exists_run hq₀
  obtain ⟨hblocked, hq₁⟩ := of_decide_eq_true hq₁
  obtain ⟨_, k, ⟨⟩, h, hq⟩ := exists_run hq₁
  obtain ⟨hqueued, hlog⟩ := of_decide_eq_true hq
  have hcall := hcall.one.2
  have hends := wait_answered hb h₀ (Or.inr ⟨5, rfl⟩) hcall h
  rw [hrunning, hbase] at hends
  refine ⟨kb, k₀, k₁, k, hb, h₀, hcall, h, hrunning, hlog, ?_⟩
  rcases hends with ⟨hstay, -⟩ | hw | hended
  · exact absurd hstay hblocked
  · exact absurd (hw.queued.symm.trans hqueued) one_ne_zero
  · exact hended

end Kernel
end OSK
