import RiscVKernel.Kernel.Tally

/-! The invariant of the kernel between two events: every thread is at a place,
the running one alone at the processor, and no more threads are blocked on a
semaphore than its value owes. It holds in every reachable state. -/

namespace OSK

open Lib

namespace Kernel

/-- The places between two events. -/
structure Located (k : Kernel) (loc : Tid → Place) : Prop where
  placed : k.Placed (fun _ => none) loc
  cpu : ∀ t, loc t = .cpu ↔ t = k.running
  limbo : ∀ t, loc t = .limbo → t ≠ mainThread

structure Inv (k : Kernel) : Prop where
  located : ∃ loc, k.Located loc
  short : ∀ s c, k.counter s = some c → c.Short
  freshThread : ∀ t, k.ID < t → k.threads t = none
  freshSem : ∀ s, k.nextSem ≤ s →
    k.sems s = none ∧ signals s k.trace = 0 ∧ acquired s k.trace = 0
  main : mainThread ≤ k.ID

/-- The threads that sleep in `time_sleep` sleep on, and the threads in the
sleep list other than `r` were there before, to be woken at the same time. -/
structure Undisturbed (r : Option Tid) (k k' : Kernel) (loc loc' : Tid → Place) : Prop where
  stays : ∀ t, loc t = .asleep → loc' t = .asleep
  before : ∀ t, r ≠ some t → 0 < (loc' t).inAsleep →
    loc' t = loc t ∧ k'.wakeTime t = k.wakeTime t

variable {k k' k₂ : Kernel} {r : Option Tid} {t : Tid} {s : SemId} {loc loc' loc₂ : Tid → Place} {c : Context}
  {cause : SemStatus}

theorem Undisturbed.trans (h : Undisturbed r k k' loc loc') (h' : Undisturbed r k' k₂ loc' loc₂) :
    Undisturbed r k k₂ loc loc₂ := by
  refine ⟨fun t ht => h'.stays t (h.stays t ht), ?_⟩
  intro t hr ht
  obtain ⟨hl', hw'⟩ := h'.before t hr ht
  obtain ⟨hl, hw⟩ := h.before t hr (hl' ▸ ht)
  exact ⟨hl'.trans hl, hw'.trans hw⟩

theorem Undisturbed.of_time (hw : ∀ t, k'.wakeTime t = k.wakeTime t) :
    Undisturbed r k k' loc loc :=
  ⟨fun _ ht => ht, fun t _ _ => ⟨rfl, hw t⟩⟩

/-- One thread moves, and does not go to sleep unless it is `r`. -/
theorem Undisturbed.moved {pl : Place} (hloc : loc t ≠ .asleep)
    (hpl : pl.inAsleep = 0 ∨ r = some t)
    (hv : ∀ t' ≠ t, k'.view t' = k.view t') :
    Undisturbed r k k' loc (Function.update loc t pl) := by
  constructor
  · intro t' ht'
    have hne : t' ≠ t := by
      rintro rfl
      exact hloc ht'
    rwa [Function.update_of_ne hne]
  · intro t' hr ht'
    have hne : t' ≠ t := by
      rintro rfl
      rw [Function.update_self] at ht'
      rcases hpl with hpl | rfl
      · omega
      · exact hr rfl
    exact ⟨Function.update_of_ne hne _ _, wakeTime_congr (hv t' hne)⟩

theorem Located.running_cpu (hl : k.Located loc) : loc k.running = .cpu := (hl.cpu _).2 rfl

theorem Located.congr (hl : k.Located loc) (hv : ∀ t, k'.view t = k.view t)
    (hr : k'.running = k.running) : k'.Located loc :=
  ⟨hl.placed.congr hv, fun t => by rw [hr]; exact hl.cpu t, hl.limbo⟩

/-- The timer looks at the whole sleep list. -/
theorem Located.sleepers (hl : k.Located loc) :
    k.incTime.Sleepers (fun _ => none) loc k.listAsleepThreads.items :=
  ⟨hl.placed.congr fun _ => rfl, hl.running_cpu, hl.placed.nodup_asleep,
    fun _ ht => hl.placed.mem_asleep ht⟩

theorem undisturbed_of_views (hv : ∀ t, k'.view t = k.view t) : Undisturbed r k k' loc loc :=
  .of_time fun t => wakeTime_congr (hv t)

/-- The running thread does not sleep. -/
theorem Located.cpu_ne_asleep (hl : k.Located loc) : loc k.running ≠ .asleep := by
  rw [hl.running_cpu]
  decide

/-! `dispatch`. -/

theorem arrive_located (h : k.arrive c = .ok k')
    (hp : k.Placed (park (fun _ => none) k.running c) loc) (hno : ∀ t, loc t ≠ .cpu)
    (hlimbo : ∀ t, loc t = .limbo → t ≠ mainThread) :
    ∃ loc', k'.Located loc' ∧ Undisturbed r k k' loc loc' ∧ Quiet k k' := by
  obtain ⟨loc', hp', hready, hcpu, hrel⟩ := arrive_placed h hp
  refine ⟨loc', ⟨hp', fun t => ⟨?_, fun ht => ht ▸ hcpu⟩, ?_⟩, ⟨?_, ?_⟩, arrive_quiet h hp⟩
  · intro ht
    by_contra hne
    rcases hrel t hne with ⟨hl, -⟩ | ⟨-, hl⟩
    · exact hno t (hl.symm.trans ht)
    · simp [hl] at ht
  · intro t ht
    by_cases hr : t = k'.running
    · rw [hr, hcpu] at ht
      cases ht
    · rcases hrel t hr with ⟨hl, -⟩ | ⟨-, hl⟩
      · exact hlimbo t (hl.symm.trans ht)
      · simp [hl] at ht
  · intro t ht
    have hr : t ≠ k'.running := by
      rintro rfl
      simp [hready] at ht
    rcases hrel t hr with ⟨hl, -⟩ | ⟨hl, -⟩
    · exact hl.trans ht
    · simp [hl] at ht
  · intro t _ ht
    have hr : t ≠ k'.running := by
      rintro rfl
      simp [hcpu, Place.inAsleep] at ht
    rcases hrel t hr with h | ⟨-, hl⟩
    · exact h
    · simp [hl, Place.inAsleep] at ht

theorem update_ne_cpu {pl : Place} (hl : k.Located loc) (hpl : pl ≠ .cpu) (t : Tid) :
    Function.update loc k.running pl t ≠ .cpu := by
  by_cases ht : t = k.running
  · rw [ht, Function.update_self]
    exact hpl
  · rw [Function.update_of_ne ht]
    exact fun hc => ht ((hl.cpu t).1 hc)

theorem update_limbo {pl : Place} (hl : k.Located loc) (hpl : pl ≠ .limbo) (t : Tid)
    (ht : Function.update loc k.running pl t = .limbo) : t ≠ mainThread := by
  by_cases hr : t = k.running
  · rw [hr, Function.update_self] at ht
    exact absurd ht hpl
  · rw [Function.update_of_ne hr] at ht
    exact hl.limbo t ht

theorem resetTime_view (k : Kernel) (t : Tid) :
    ({ k with runningThreadCpuTime := 0 } : Kernel).view t = k.view t := rfl

theorem resetTime_quiet (k : Kernel) : Quiet k { k with runningThreadCpuTime := 0 } :=
  quiet_of_eq rfl rfl

/-- `dispatch` from user code, by the thread itself or by the timer. -/
theorem dispatch_located (h : k.dispatch .toUser = .ok k') (hl : k.Located loc) :
    ∃ loc', k'.Located loc' ∧ Undisturbed r k k' loc loc' ∧ Quiet k k' := by
  obtain ⟨k₁, hlv, ha⟩ := dispatch_ok h
  have hrun : k₁.running = k.running := by rw [leave_running hlv]
  have hp₁ := leave_ready hlv (hl.placed.congr (resetTime_view k)) hl.running_cpu
  have hq := (resetTime_quiet k).trans (leave_quiet hlv)
  obtain ⟨loc', hl', hu, hq'⟩ := arrive_located ha (by rw [hrun]; exact hp₁)
    (update_ne_cpu hl (by decide)) (update_limbo hl (by decide))
  have hu₁ : Undisturbed r k k₁ loc (Function.update loc k.running .ready) :=
    .moved hl.cpu_ne_asleep (Or.inl rfl) fun t ht =>
      (leave_other hlv ht).trans (resetTime_view k t)
  exact ⟨loc', hl', hu₁.trans hu, hq.trans hq'⟩

/-- `dispatch` by a thread that has made itself a place to wait at. -/
theorem dispatch_parked (h : k.dispatch c = .ok k')
    (hp : k.Placed (park (fun _ => none) k.running c) loc) (hs : k.Suspended k.running)
    (hno : ∀ t, loc t ≠ .cpu) (hlimbo : ∀ t, loc t = .limbo → t ≠ mainThread) :
    ∃ loc', k'.Located loc' ∧ Undisturbed r k k' loc loc' ∧ Quiet k k' := by
  obtain ⟨k₁, hlv, ha⟩ := dispatch_ok h
  obtain ⟨th, hth, hst⟩ := hs
  obtain ⟨th', hth', hcase⟩ := leave_ok hlv
  have he : th = th' := Option.some.inj (hth.symm.trans hth')
  subst he
  rcases hcase with ⟨hc, -⟩ | ⟨-, rfl⟩ | ⟨hc, -⟩
  · simp [hst] at hc
  · obtain ⟨loc', hl', hu, hq⟩ := arrive_located ha (hp.congr (resetTime_view k)) hno hlimbo
    exact ⟨loc', hl', (undisturbed_of_views (resetTime_view k)).trans hu,
      (resetTime_quiet k).trans hq⟩
  · simp [hst] at hc

/-! The system calls. -/

/-- Fields that no place looks at. -/
theorem modifyThread_located {f : Thread → Thread} (hl : k.Located loc)
    (hf : ∀ th, (f th).semStatus = th.semStatus ∧ (f th).threadState = th.threadState ∧
      (f th).mySem = th.mySem ∧ (f th).body = th.body ∧ (f th).context = th.context ∧
      (f th).timeForWakingUp = th.timeForWakingUp) :
    (k.modifyThread t f).Located loc ∧ Undisturbed r k (k.modifyThread t f) loc loc := by
  have hfits : ∀ th (o : Option Context) pl, th.Fits (o.getD th.context) pl →
      (f th).Fits (o.getD (f th).context) pl := by
    intro th o pl hfit
    obtain ⟨h1, h2, h3, h4, h5, -⟩ := hf th
    rw [h5]
    cases pl <;> simp only [Thread.Fits, h1, h2, h3, h4] at hfit ⊢ <;> exact hfit
  refine ⟨⟨?_, hl.cpu, hl.limbo⟩, .of_time ?_⟩
  · intro t'
    by_cases ht : t' = t
    · subst ht
      have hat := hl.placed t'
      rw [modifyThread_view_self]
      refine ⟨hat.ready, hat.asleep, hat.queue, ?_⟩
      have hfit := hat.fits
      cases hth : k.threads t' with
      | none =>
        have hv : (k.view t').thread = none := hth
        simpa [hv] using hfit
      | some th =>
        have hv : (k.view t').thread = some th := hth
        rw [hv] at hfit
        exact hfits th _ _ hfit
    · rw [modifyThread_view_ne f ht]
      exact hl.placed t'
  · intro t'
    by_cases ht : t' = t
    · subst ht
      cases hth : k.threads t' with
      | none => simp [wakeTime, hth]
      | some th => simp [wakeTime, hth, (hf th).2.2.2.2.2]
    · simp [wakeTime, ht]

theorem decNumOfChildren_located (hl : k.Located loc) (p : Tid) :
    (k.decNumOfChildren p).Located loc ∧ Undisturbed r k (k.decNumOfChildren p) loc loc := by
  unfold decNumOfChildren
  split_ifs
  · exact modifyThread_located hl fun th => ⟨rfl, rfl, rfl, rfl, rfl, rfl⟩
  · exact ⟨hl.congr (fun _ => rfl) rfl, .of_time fun _ => rfl⟩

/-- The running thread is finished and leaves. -/
theorem exit_leave {k₁ : Kernel} (hl : k.Located loc)
    (h : ({ k.setFinished k.running with runningThreadCpuTime := 0 } : Kernel).leave = .ok k₁) :
    k₁.Placed (park (fun _ => none) k.running c) (Function.update loc k.running .gone) := by
  have hcpu := hl.running_cpu
  obtain ⟨th, hth, -⟩ := cpu_state hl.placed hcpu
  have hat := hl.placed k.running
  have hfin : ({ k.setFinished k.running with runningThreadCpuTime := 0 } : Kernel).threads
      k.running = some { th with threadState := .finished } := by
    simp [hth]
  refine leave_finished h (fun t ht => ?_) ⟨hat.ready.trans (by rw [hcpu]; rfl),
    hat.asleep.trans (by rw [hcpu]; rfl), hat.queue.trans (by rw [hcpu]; rfl)⟩ hfin rfl
  have hv : ({ k.setFinished k.running with runningThreadCpuTime := 0 } : Kernel).view t =
      k.view t := modifyThread_view_ne _ ht
  rw [hv]
  exact hl.placed t

theorem exit_located (h : k.exit = .ok k') (hl : k.Located loc) :
    ∃ loc', k'.Located loc' ∧ Undisturbed r k k' loc loc' ∧ Quiet k k' := by
  obtain ⟨th, k₁, hth, hk₁, hd⟩ := exit_ok h
  have h₁ : k₁.Located loc ∧ Undisturbed r k k₁ loc loc ∧ Quiet k k₁ ∧ k₁.running = k.running := by
    rcases hk₁ with ⟨rfl, -⟩ | ⟨p, -, rfl⟩
    · exact ⟨hl, .of_time fun _ => rfl, .refl _, rfl⟩
    · obtain ⟨hl', hu⟩ := decNumOfChildren_located hl p
      exact ⟨hl', hu, decNumOfChildren_quiet _ _, (decNumOfChildren_stays k p).running⟩
  obtain ⟨hl₁, hu₁, hq₁, hrun₁⟩ := h₁
  obtain ⟨k₂, hlv, ha⟩ := dispatch_ok hd
  rw [← hrun₁] at hlv
  have hp₂ : k₂.Placed (park (fun _ => none) k₁.running .toUser)
      (Function.update loc k₁.running .gone) := exit_leave hl₁ hlv
  have hrun₂ : k₂.running = k₁.running := by rw [leave_running hlv]; rfl
  obtain ⟨loc', hl', hu', hq'⟩ := arrive_located ha (by rw [hrun₂]; exact hp₂)
    (update_ne_cpu hl₁ (by decide)) (update_limbo hl₁ (by decide))
  have hq₁₂ : Quiet k₁ { k₁.setFinished k₁.running with runningThreadCpuTime := 0 } :=
    quiet_of_eq rfl rfl
  have hq₂ : Quiet k₁ k₂ := hq₁₂.trans (leave_quiet hlv)
  have hu₂ : Undisturbed r k₁ k₂ loc (Function.update loc k₁.running .gone) :=
    .moved hl₁.cpu_ne_asleep (Or.inl rfl) fun t ht =>
      (leave_other hlv ht).trans (modifyThread_view_ne _ ht)
  exact ⟨loc', hl', (hu₁.trans hu₂).trans hu', (hq₁.trans hq₂).trans hq'⟩

theorem subtleKill_located (k : Kernel) (t : Tid) (hl : k.Located loc) :
    (k.subtleKill t).2.Located loc ∧ Undisturbed r k (k.subtleKill t).2 loc loc ∧
      Quiet k (k.subtleKill t).2 := by
  have hsame : k.Located loc ∧ Undisturbed r k k loc loc ∧ Quiet k k :=
    ⟨hl, .of_time fun _ => rfl, .refl _⟩
  cases hth : k.threads t with
  | none =>
    have he : (k.subtleKill t).2 = k := by simp only [subtleKill, hth]
    rwa [he]
  | some th =>
    by_cases hpar : th.parentThread ≠ some k.running
    · have he : (k.subtleKill t).2 = k := by simp only [subtleKill, hth, if_pos hpar]
      rwa [he]
    by_cases hrun : k.running = t
    · have he : (k.subtleKill t).2 = k := by
        simp only [subtleKill, hth, if_neg hpar, if_pos hrun]
      rwa [he]
    have he : (k.subtleKill t).2 = k.setFinished t := by
      simp only [subtleKill, hth, if_neg hpar, if_neg hrun]
    rw [he]
    refine ⟨⟨?_, hl.cpu, hl.limbo⟩, .of_time ?_, quiet_of_eq rfl rfl⟩
    · have hat := hl.placed t
      have hfit := hl.placed.fits hth
      have hm := modifyThread_moves k t fun th => { th with threadState := .finished }
      have hp : (k.setFinished t).Placed (fun _ => none) (Function.update loc t (loc t)) := by
        refine hl.placed.moves hm (fun _ _ => rfl) ⟨hat.ready, hat.asleep, hat.queue, ?_⟩
        have hv : (k.view t).thread = some th := hth
        simp only [hv, Option.map_some]
        have hne : loc t ≠ .cpu := fun hc => hrun ((hl.cpu t).1 hc).symm
        revert hfit hne
        cases loc t with
        | cpu => exact fun _ hne => absurd rfl hne
        | ready => exact fun _ _ => Or.inl rfl
        | blocked s => exact fun hfit _ => ⟨hfit.1, hfit.2.1, Or.inr rfl, hfit.2.2.2⟩
        | timed s => exact fun hfit _ => ⟨hfit.1, hfit.2.1, Or.inr rfl, hfit.2.2.2⟩
        | asleep => exact fun hfit _ => ⟨hfit.1, Or.inr rfl, hfit.2.2⟩
        | limbo => exact fun hfit _ => hfit
        | gone => exact fun hfit _ => hfit
      rwa [Function.update_eq_self] at hp
    · intro t'
      by_cases ht : t' = t
      · subst ht
        simp [wakeTime, hth]
      · simp [wakeTime, ht]

/-! Names. -/

theorem Inv.named (hi : k.Inv) {th : Thread} (ht : k.threads t = some th) : t ≤ k.ID := by
  by_contra hlt
  rw [hi.freshThread t (not_le.1 hlt)] at ht
  cases ht

theorem Inv.running_named (hi : k.Inv) : k.running ≤ k.ID := by
  obtain ⟨loc, hl⟩ := hi.located
  obtain ⟨th, hth, -⟩ := cpu_state hl.placed hl.running_cpu
  exact hi.named hth

end Kernel
end OSK
