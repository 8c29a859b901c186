import RiscVKernel.Kernel.Transfer

/-! `dispatch` seen from the threads: the old thread goes to the place it has
made for itself, dead threads at the front of the ready queue disappear, and the
first live one is running and back in user code. -/

namespace OSK

open Lib

namespace Kernel

variable {k k' : Kernel} {t : Tid} {s : SemId} {pend : Tid → Option Context} {loc : Tid → Place}
  {th : Thread} {c : Context}

theorem deleteThread_moves (h : k.deleteThread t = .ok k') :
    Moves k k' t fun v => { v with thread := none } := by
  obtain ⟨th, -, rfl⟩ := deleteThread_ok h
  constructor
  · simp [view, queued]
  · intro t' ht
    simp [view, queued, ht]

/-- A thread that can run goes to the end of the ready queue. -/
theorem leave_ready (h : k.leave = .ok k') (hp : k.Placed pend loc) (hcpu : loc k.running = .cpu) :
    k'.Placed (park pend k.running .toUser) (Function.update loc k.running .ready) := by
  obtain ⟨th, hth, hst, hstate⟩ := cpu_state hp hcpu
  have hat := hp k.running
  obtain ⟨th', hth', hcase⟩ := leave_ok h
  rw [hth] at hth'
  cases hth'
  rcases hcase with ⟨-, hput⟩ | ⟨hs, -⟩ | ⟨hs, -⟩
  · have hm := (modifyThread_moves k k.running _).trans (put_moves hput)
    refine hp.park hm ⟨?_, ?_, ?_, ?_⟩
    · simp [hat.ready, hcpu, Place.inReady]
    · simp [hat.asleep, hcpu, Place.inAsleep]
    · simp [hat.queue, hcpu, Place.inQueue]
    · have : (k.view k.running).thread = some th := hth
      simp [this, Thread.Fits, Context.Awaits, hst]
  · simp [hs] at hstate
  · simp [hs] at hstate

/-- Only the old thread is moved by `leave`. -/
theorem leave_other (h : k.leave = .ok k') (ht : t ≠ k.running) : k'.view t = k.view t := by
  obtain ⟨th, -, ⟨-, hput⟩ | ⟨-, rfl⟩ | ⟨-, hd⟩⟩ := leave_ok h
  · rw [(put_moves hput).other t ht]
    exact modifyThread_view_ne _ ht
  · rfl
  · exact (deleteThread_moves hd).other t ht

/-- A finished thread is deleted. -/
theorem leave_finished (h : k.leave = .ok k') {loc : Tid → Place}
    (hother : ∀ t ≠ k.running, (k.view t).At (pend t) (loc t))
    (hself : (k.view k.running).ready = 0 ∧ (k.view k.running).asleep = 0 ∧
      (k.view k.running).queue = fun _ => 0)
    (hth : k.threads k.running = some th) (hf : th.threadState = .finished) :
    k'.Placed (park pend k.running c) (Function.update loc k.running .gone) := by
  obtain ⟨th', hth', hcase⟩ := leave_ok h
  rw [hth] at hth'
  cases hth'
  rcases hcase with ⟨hs, -⟩ | ⟨hs, -⟩ | ⟨-, hd⟩
  · simp [hf] at hs
  · simp [hf] at hs
  · have hm := deleteThread_moves hd
    intro t
    by_cases ht : t = k.running
    · subst ht
      rw [Function.update_self, hm.self]
      exact ⟨hself.1, hself.2.1, hself.2.2, rfl⟩
    · rw [Function.update_of_ne ht, hm.other t ht, Kernel.park, Function.update_of_ne ht]
      exact hother t ht

/-- The dead threads at the front of the ready queue are deleted. -/
theorem sweep_placed {ts : List Tid}
    (h : foreachWhile deleteThreadInDispatch threadDead ts k = .ok k')
    (hts : ts = k.queueThreads.items) (hp : k.Placed pend loc) :
    ∃ loc', k'.Placed pend loc' ∧
      (∀ t, loc' t = loc t ∧ k'.view t = k.view t ∨ loc t = .ready ∧ loc' t = .gone) ∧
      ∀ t, k'.queueThreads.items.head? = some t → k'.isFinished t = false := by
  induction ts generalizing k loc with
  | nil =>
    cases h
    exact ⟨loc, hp, fun _ => Or.inl ⟨rfl, rfl⟩, by simp [← hts]⟩
  | cons t ts ih =>
    obtain ⟨b, hb, h⟩ := bind_ok h
    have hb : k.isFinished t = b := by simpa [threadDead] using hb
    cases b with
    | false =>
      cases h
      refine ⟨loc, hp, fun _ => Or.inl ⟨rfl, rfl⟩, ?_⟩
      intro t' ht'
      rw [← hts, List.head?_cons, Option.some.injEq] at ht'
      exact ht' ▸ hb
    | true =>
      obtain ⟨k₁, hd, h⟩ := bind_ok h
      have hin : t ∈ k.queueThreads.items := by simp [← hts]
      have hloc := hp.mem_ready hin
      obtain ⟨th, hth, -⟩ := hp.record (t := t) (by simp [hloc])
      have hfin : th.threadState = .finished := by simpa [isFinished, hth] using hb
      have hdel := deleteThreadInDispatch_ok hd hin hth hfin
      have hm := (removeReady_moves (k := k) (t := t)).trans (deleteThread_moves hdel)
      have hat := hp t
      have hp₁ : k₁.Placed pend (Function.update loc t .gone) := by
        refine hp.moves hm (fun _ _ => rfl) ⟨?_, ?_, ?_, rfl⟩
        · simp [hat.ready, hloc, Place.inReady]
        · simp [hat.asleep, hloc, Place.inAsleep]
        · simp [hat.queue, hloc, Place.inQueue]
      have hts₁ : ts = k₁.queueThreads.items := by
        obtain ⟨th', -, rfl⟩ := deleteThread_ok hdel
        have hq : (k.removeReady t).2.queueThreads.items = k.queueThreads.items.erase t :=
          KList.removeSpec_items ..
        simp only [hq, ← hts, List.erase_cons_head]
      obtain ⟨loc', hp', hrel, hhead⟩ := ih h hts₁ hp₁
      refine ⟨loc', hp', ?_, hhead⟩
      intro t'
      by_cases he : t' = t
      · subst he
        refine Or.inr ⟨hloc, ?_⟩
        rcases hrel t' with ⟨hl, -⟩ | ⟨hl, -⟩
        · rw [hl, Function.update_self]
        · simp at hl
      · rcases hrel t' with ⟨hl, hv⟩ | ⟨hl, hl'⟩
        · rw [Function.update_of_ne he] at hl
          exact Or.inl ⟨hl, by rw [hv, hm.other t' he]⟩
        · rw [Function.update_of_ne he] at hl
          exact Or.inr ⟨hl, hl'⟩

theorem fits_context {pl : Place} (c' : Context) :
    ({ th with context := c' } : Thread).Fits c pl ↔ th.Fits c pl := by
  cases pl <;> exact Iff.rfl

theorem decTimedWaiting_view (k : Kernel) (s : SemId) (t : Tid) :
    (k.decTimedWaiting s).view t = k.view t := by
  unfold decTimedWaiting
  cases hm : k.sems s with
  | none => rfl
  | some m => exact setSem_view hm rfl

theorem generateWaitResponses_moves (h : k.generateWaitResponses s = .ok k') (ht : k.running = t) :
    Moves k k' t fun v => { v with thread := v.thread.map fun th =>
      if th.threadState = .finished then th
      else { th with semStatus := .nonWaiting, threadState := .running } } := by
  obtain ⟨th, a, -, -, rfl⟩ := generateWaitResponses_ok h
  subst ht
  have hm := modifyThread_moves k k.running fun th =>
    if th.threadState = .finished then th
    else { th with semStatus := .nonWaiting, threadState := .running }
  have he : (k.setThreadsSemStatus k.running .nonWaiting) = k.modifyThread k.running fun th =>
      if th.threadState = .finished then th
      else { th with semStatus := .nonWaiting, threadState := .running } := by
    simp
  rw [he]
  exact ⟨hm.self, hm.other⟩

/-- The resumed thread is back in user code with nothing left to wait for. -/
theorem resume_moves (h : k.resume = .ok k') (hth : k.threads k.running = some th)
    (hst : th.threadState = .running) (hc : th.context.Awaits th.semStatus) :
    ∃ th', th'.semStatus = .nonWaiting ∧
      (th'.threadState = .running ∨ th'.threadState = .ready) ∧
      Moves k k' k.running fun v => { v with thread := some th' } := by
  obtain ⟨th₀, hth₀, hcase⟩ := resume_ok h
  rw [hth] at hth₀
  cases hth₀
  have hv : (k.view k.running).thread = some th := hth
  rcases hcase with ⟨hctx, rfl⟩ | ⟨s, hctx, hb⟩ | ⟨s, hctx, hb⟩ | ⟨hctx, rfl⟩
  · have hnw : th.semStatus = .nonWaiting := by rcases hctx with hctx | hctx <;> rwa [hctx] at hc
    refine ⟨th, hnw, Or.inl hst, ⟨?_, fun _ _ => rfl⟩⟩
    rw [← hv]
  · have hm := (modifyThread_moves k k.running fun th => { th with mySem := none }).trans
      (generateWaitResponses_moves hb rfl)
    refine ⟨{ th with mySem := none, semStatus := .nonWaiting, threadState := .running }, rfl,
      Or.inl rfl, ?_, hm.other⟩
    rw [hm.self]
    simp [hv, hst]
  · have hm := (((modifyThread_moves k k.running fun th => { th with mySem := none }).congr
      (decTimedWaiting_view _ s)).trans
      (modifyThread_moves _ k.running fun th => { th with timeForWakingUp := 0 })).trans
      (generateWaitResponses_moves hb (afterTimedBlock_before k s).running)
    refine ⟨{ th with
      mySem := none
      timeForWakingUp := 0
      semStatus := .nonWaiting
      threadState := .running }, rfl, Or.inl rfl, ?_, hm.other⟩
    rw [hm.self]
    simp [hv, hst]
  · refine ⟨{ th with threadState := .ready, timeForWakingUp := 0 }, ?_, Or.inr rfl, ?_⟩
    · rw [hctx] at hc
      exact hc
    · have hm := (modifyThread_moves k k.running fun th => { th with threadState := .ready }).trans
        (modifyThread_moves (k.setThreadState k.running .ready) k.running fun th =>
          { th with timeForWakingUp := 0 })
      refine ⟨?_, hm.other⟩
      apply Eq.trans (hm.self)
      simp [hv]

/-- The thread that gets the processor, with its context, before it goes on. -/
theorem switch_moves (old : Tid) (c : Context) (hth : k.threads t = some th) :
    ((setThreadState { k with running := t } t .running).saveContext old c).threads t =
        some { th with
          threadState := .running
          context := ((park (fun _ => none) old c) t).getD th.context } ∧
      ((setThreadState { k with running := t } t .running).saveContext old c).running = t := by
  unfold saveContext park
  by_cases ho : t = old
  · subst ho
    simp [isThreadValid, hth]
  · split_ifs <;> simp [hth, ho]

/-- Saving the context does what `park` promised. -/
theorem saveContext_at {pl : Place} (c : Context) (old : Tid)
    (h : (k.view t).At ((park (fun _ => none) old c) t) pl) :
    ((k.saveContext old c).view t).At none pl := by
  by_cases ho : t = old
  · subst ho
    rw [park, Function.update_self] at h
    unfold saveContext
    cases hth : k.threads t with
    | none =>
      rw [if_neg (by simp [isThreadValid, hth])]
      have hv : (k.view t).thread = none := hth
      have hf := h.fits
      rw [hv] at hf
      exact ⟨h.ready, h.asleep, h.queue, by simpa [view, hth] using hf⟩
    | some th =>
      rw [if_pos (by simp [isThreadValid, hth]), modifyThread_view_self]
      have hv : (k.view t).thread = some th := hth
      have hf := h.fits
      rw [hv] at hf
      exact ⟨h.ready, h.asleep, h.queue, by simpa [hth] using (fits_context c).2 hf⟩
  · rw [park, Function.update_of_ne ho] at h
    have hv : (k.saveContext old c).view t = k.view t := by
      unfold saveContext
      split_ifs
      · exact modifyThread_view_ne _ ho
      · rfl
    rwa [hv]

theorem saveContext_wakeTime (old : Tid) (c : Context) :
    (k.saveContext old c).wakeTime t = k.wakeTime t := by
  unfold saveContext
  split_ifs
  · by_cases ho : t = old
    · subst ho
      cases hth : k.threads t <;> simp [wakeTime, hth]
    · simp [wakeTime, ho]
  · rfl

/-- The state in which the thread that gets the processor goes on. -/
def switched (k₁ : Kernel) (t old : Tid) (c : Context) : Kernel :=
  (setThreadState { k₁.get.2 with running := t } t .running).saveContext old c

/-- `arrive` in three parts: the sweep, the choice of a live thread, its resumption. -/
theorem arrive_split (h : k.arrive c = .ok k')
    (hp : k.Placed (park (fun _ => none) k.running c) loc) :
    ∃ k₁ loc₁ t th, foreachWhile deleteThreadInDispatch threadDead k.queueThreads.items k = .ok k₁ ∧
      k₁.Placed (park (fun _ => none) k.running c) loc₁ ∧
      (∀ t, loc₁ t = loc t ∧ k₁.view t = k.view t ∨ loc t = .ready ∧ loc₁ t = .gone) ∧
      k₁.get.1 = some t ∧ k₁.isFinished t = false ∧ loc₁ t = .ready ∧ (switched k₁ t k.running c).running = t ∧
      (switched k₁ t k.running c).threads t = some th ∧ th.threadState = .running ∧
      th.context.Awaits th.semStatus ∧ (switched k₁ t k.running c).resume = .ok k' := by
  obtain ⟨k₁, t, hs, hg, hr⟩ := arrive_ok h
  obtain ⟨loc₁, hp₁, hrel, hhead⟩ := sweep_placed hs rfl hp
  obtain ⟨e, q, hq, rfl, hget⟩ := get_some hg
  have hloc₁ : loc₁ e.data = .ready := hp₁.mem_ready (by simp [hq])
  obtain ⟨th, hth, hfit⟩ := hp₁.record (t := e.data) (by simp [hloc₁])
  have hfin : k₁.isFinished e.data = false := hhead e.data (by simp [hq])
  have hlive : th.threadState ≠ .finished := by simpa [isFinished, hth] using hfin
  rw [hloc₁] at hfit
  obtain ⟨hrec, hrun⟩ := switch_moves (k := k₁.get.2) (t := e.data) k.running c
    (by rw [hget]; exact hth)
  exact ⟨k₁, loc₁, e.data, _, hs, hp₁, hrel, hg, hfin, hloc₁, hrun, hrec, rfl,
    (hfit.resolve_left hlive).2, hr⟩

/-- A thread that neither leaves nor gets the processor. -/
theorem switched_view {k₁ : Kernel} {t' : Tid} (hg : k₁.get.1 = some t) {old : Tid} (ht : t' ≠ t)
    (ho : t' ≠ old) : (switched k₁ t old c).view t' = k₁.view t' := by
  obtain ⟨e, q, hq, rfl, hget⟩ := get_some hg
  have hstart : (setThreadState { k₁.get.2 with running := e.data } e.data .running).view t' =
      k₁.view t' := by
    simp [view, queued, hget, hq, ht, ht.symm]
  unfold switched saveContext
  split_ifs
  · rw [modifyThread_view_ne _ ho, hstart]
  · exact hstart

/-- A thread at the place `gone` has no record. -/
theorem Placed.gone (hp : k.Placed pend loc) (h : loc t = .gone) : k.threads t = none := by
  cases hth : k.threads t with
  | none => rfl
  | some th =>
    have hfit := hp.fits hth
    rw [h] at hfit
    exact hfit.elim

/-- Only the new thread and the saved context are different. -/
theorem switched_at {k₁ : Kernel} {loc₁ : Tid → Place} (hg : k₁.get.1 = some t) (old : Tid)
    (hp : k₁.Placed (park (fun _ => none) old c) loc₁) :
    (∀ t' ≠ t, ((switched k₁ t old c).view t').At none (loc₁ t') ∧
      (switched k₁ t old c).wakeTime t' = k₁.wakeTime t') ∧
    ((switched k₁ t old c).view t).ready = (k₁.view t).ready - 1 ∧
    ((switched k₁ t old c).view t).asleep = (k₁.view t).asleep ∧
    ((switched k₁ t old c).view t).queue = (k₁.view t).queue := by
  obtain ⟨e, q, hq, rfl, hget⟩ := get_some hg
  unfold switched
  have hothers : ∀ t ≠ e.data, (setThreadState { k₁.get.2 with running := e.data } e.data
      .running).view t = k₁.view t := by
    intro t ht
    simp [view, queued, hget, hq, ht, ht.symm]
  have hself : ((setThreadState { k₁.get.2 with running := e.data } e.data .running).view
      e.data).ready = (k₁.view e.data).ready - 1 := by
    simp [view, hget, hq]
  refine ⟨fun t ht => ⟨saveContext_at c old ?_, ?_⟩, ?_⟩
  · rw [hothers t ht]
    exact hp t
  · rw [saveContext_wakeTime, wakeTime_congr (hothers t ht)]
  · rw [← hself]
    unfold saveContext
    split_ifs
    · exact ⟨rfl, rfl, rfl⟩
    · exact ⟨rfl, rfl, rfl⟩

/-- The first live thread of the ready queue gets the processor. -/
theorem arrive_placed (h : k.arrive c = .ok k')
    (hp : k.Placed (park (fun _ => none) k.running c) loc) :
    ∃ loc', k'.Placed (fun _ => none) loc' ∧ loc k'.running = .ready ∧ loc' k'.running = .cpu ∧
      ∀ t ≠ k'.running, loc' t = loc t ∧ k'.wakeTime t = k.wakeTime t ∨
        loc t = .ready ∧ loc' t = .gone := by
  obtain ⟨k₁, loc₁, t, th, -, hp₁, hrel, hg, -, hloc₁, hrun, hrec, hst, haw, hr⟩ := arrive_split h hp
  obtain ⟨hothers, h1, h2, h3⟩ := switched_at hg k.running hp₁
  obtain ⟨th', hst', hstate', hm⟩ := resume_moves hr ((congrArg _ hrun).trans hrec) hst haw
  rw [hrun] at hm
  have hrunning : k'.running = t := (resume_stays hr).running.trans hrun
  rw [hrunning]
  refine ⟨Function.update loc₁ t .cpu, ?_, ?_, Function.update_self .., ?_⟩
  · intro t'
    by_cases ht : t' = t
    · subst ht
      have hat := hp₁ t'
      rw [Function.update_self, hm.self]
      refine ⟨?_, ?_, ?_, ⟨hst', hstate'⟩⟩
      · simp [h1, hat.ready, hloc₁, Place.inReady]
      · simp [h2, hat.asleep, hloc₁, Place.inAsleep]
      · simp [h3, hat.queue, hloc₁, Place.inQueue]
    · rw [Function.update_of_ne ht, hm.other t' ht]
      exact (hothers t' ht).1
  · rcases hrel t with ⟨hl, -⟩ | ⟨hl, -⟩
    · rw [← hl, hloc₁]
    · exact hl
  · intro t' ht
    rw [Function.update_of_ne ht]
    rcases hrel t' with ⟨hl, hv⟩ | hl
    · refine Or.inl ⟨hl, ?_⟩
      rw [wakeTime_congr (hm.other t' ht), (hothers t' ht).2, wakeTime_congr hv]
    · exact Or.inr hl

end Kernel
end OSK
