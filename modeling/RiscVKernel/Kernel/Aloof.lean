import RiscVKernel.Kernel.Children
import RiscVKernel.Kernel.Phases
import RiscVKernel.Kernel.Waiters

/-! What a step leaves alone: the contexts of the threads that neither leave the
processor nor get it, and a semaphore that the call does not name. -/

namespace OSK

open Lib

/-- Where the thread that makes a call is to go on, if the call goes through `dispatch`. -/
def Event.saves : Event → Option Context
  | .threadExit => some .toUser
  | .threadDispatch => some .toUser
  | .semWait (some s) => some (.block s)
  | .semTimedwait (some s) _ => some (.timedBlock s)
  | .timeSleep _ => some .sleep
  | .tick => some .toUser
  | _ => none

namespace Kernel

variable {k k' k₁ k₂ : Kernel} {t : Tid} {s : SemId} {c : Context} {e : Event} {th : Thread}
  {o : Option Context} {r : Option ℤ} {loc : Tid → Place} {m : Sem}

/-- A step. When it goes through `dispatch`, also the context from which the thread that
then has the processor goes on. -/
def stepFrom (k : Kernel) (e : Event) : Except Fault (Option Context × Kernel) := do
  match ← k.enter e with
  | (.returns _, k) => return (none, k)
  | (.dispatches c, k) =>
    let k ← k.switch c
    let th ← k.thread k.running
    let k ← k.resume
    return (some th.context, k)

theorem stepFrom_ok (h : k.stepFrom e = .ok (o, k')) :
    (o = none ∧ ∃ r, k.enter e = .ok (.returns r, k')) ∨
      ∃ c k₁ k₂ th, o = some th.context ∧ k.enter e = .ok (.dispatches c, k₁) ∧
        k₁.switch c = .ok k₂ ∧ k₂.threads k₂.running = some th ∧ k₂.resume = .ok k' := by
  obtain ⟨⟨o', k₁⟩, he, h⟩ := bind_ok h
  cases o' with
  | returns r =>
    cases h
    exact Or.inl ⟨rfl, r, he⟩
  | dispatches c =>
    obtain ⟨k₂, hs, h⟩ := bind_ok h
    obtain ⟨th, hth, h⟩ := bind_ok h
    obtain ⟨k₃, hr, h⟩ := bind_ok h
    cases h
    exact Or.inr ⟨c, k₁, k₂, th, rfl, he, hs, thread_ok hth, hr⟩

theorem stepFrom_step (h : k.stepFrom e = .ok (o, k')) : k.step e = .ok k' := by
  rcases stepFrom_ok h with ⟨-, r, he⟩ | ⟨c, k₁, k₂, th, -, he, hs, -, hr⟩
  · exact step_of_returns he
  · rw [step_of_dispatches he, hs]
    exact hr

/-! Contexts. -/

theorem enter_saves (h : k.enter e = .ok (.dispatches c, k')) : e.saves = some c := by
  cases e with
  | memAlloc n => cases h
  | memFree p => cases (map_returning h).choose_spec.2
  | threadCreate body stack => cases (map_returning_zero h).2
  | threadExit =>
    cases (enterExit_stays h).2
    rfl
  | threadDispatch =>
    cases h
    rfl
  | semOpen n => cases (map_returning_zero h).2
  | semClose sem =>
    obtain ⟨he, -⟩ | ⟨s, h⟩ := enterHandle_ok h
    · cases he
    · cases (map_returning_zero h).2
  | semWait sem =>
    cases sem with
    | none => cases h
    | some s => exact congrArg some ((enterWait_stays h).2 c rfl).symm
  | semSignal sem =>
    obtain ⟨he, -⟩ | ⟨s, h⟩ := enterHandle_ok h
    · cases he
    · cases (map_returning h).choose_spec.2
  | semTimedwait sem m =>
    cases sem with
    | none => cases h
    | some s => exact congrArg some ((enterTimedWait_stays h).2 c rfl).symm
  | semTrywait sem =>
    obtain ⟨he, -⟩ | ⟨s, h⟩ := enterHandle_ok h
    · cases he
    · cases (map_returning h).choose_spec.2
  | timeSleep m => exact congrArg some ((enterSleep_stays h).2 c rfl).symm
  | tick => exact congrArg some ((enterTick_sheds h).2 c rfl).symm
  | subtleKill t => cases h

/-- The thread that makes a call that comes back runs on. -/
theorem stepFrom_running (h : k.stepFrom e = .ok (none, k')) : k'.running = k.running := by
  rcases stepFrom_ok h with ⟨-, r, he⟩ | ⟨_, _, _, _, ho, -⟩
  · rcases enter_returns he with hs | ⟨body, stack, hn⟩
    · exact hs.running
    · exact (newThread_records hn).1
  · cases ho

/-- Only the thread that leaves the processor gets another context. -/
theorem stepFrom_context (h : k.stepFrom e = .ok (o, k')) (ht : k'.threads t = some th) :
    (t = k.running ∧ o ≠ none ∧ e.saves = some th.context) ∨
      (∃ th₀, k.threads t = some th₀ ∧ th.context = th₀.context ∧ (t = k.running → o = none)) ∨
      o = none ∧ t = k.ID + 1 ∧ th.context = .threadWrapper := by
  rcases stepFrom_ok h with ⟨ho, r, he⟩ | ⟨c, k₁, k₂, th₂, ho, he, hs, -, hr⟩
  · rcases enter_returns he with hs | ⟨body, stack, hn⟩
    · obtain ⟨th₀, hth₀, -, hc⟩ := hs.thread t th ht
      exact Or.inr (Or.inl ⟨th₀, hth₀, hc, fun _ => ho⟩)
    · obtain ⟨-, -, hnew, hold⟩ := newThread_records hn
      by_cases hid : t = k.ID + 1
      · subst hid
        cases hnew.symm.trans ht
        exact Or.inr (Or.inr ⟨ho, rfl, rfl⟩)
      · obtain ⟨th₀, hth₀, -, hc⟩ := hold t hid th ht
        exact Or.inr (Or.inl ⟨th₀, hth₀, hc, fun _ => ho⟩)
  · obtain ⟨hsheds, -⟩ := enter_dispatches he
    obtain ⟨th₂', ht₂, -, hc₂⟩ := (resume_stays hr).record ht
    obtain ⟨-, -, -, hrec⟩ := switch_records hs
    obtain ⟨th₁, ht₁, hc₁⟩ := hrec t th₂' ht₂
    rw [hsheds.running] at hc₁
    by_cases hrun : t = k.running
    · rw [if_pos hrun] at hc₁
      exact Or.inl ⟨hrun, by simp [ho], by rw [hc₂, hc₁]; exact enter_saves he⟩
    · rw [if_neg hrun] at hc₁
      obtain ⟨th₀, hth₀, -, hc₀⟩ := hsheds.thread t th₁ ht₁
      exact Or.inr (Or.inl ⟨th₀, hth₀, hc₂.trans (hc₁.trans hc₀), fun h => absurd h hrun⟩)

/-- The context from which the thread goes on that has the processor. -/
theorem stepFrom_resumed (h : k.stepFrom e = .ok (some c, k')) :
    ∃ th, k'.threads k'.running = some th ∧ th.context = c := by
  rcases stepFrom_ok h with ⟨ho, -⟩ | ⟨_, k₁, k₂, th₂, ho, -, -, ht₂, hr⟩
  · cases ho
  · have hstays := resume_stays hr
    have hsome : (k'.threads k'.running).isSome := by
      rw [hstays.running, hstays.isSome, ht₂]
      rfl
    obtain ⟨th, hth⟩ := Option.isSome_iff_exists.1 hsome
    obtain ⟨th₀, ht₀, -, hc⟩ := hstays.record hth
    rw [hstays.running, ht₂] at ht₀
    refine ⟨th, hth, ?_⟩
    rw [hc, ← Option.some.inj ht₀]
    exact (Option.some.inj ho).symm

theorem saves_block (h : e.saves = some (.block s)) : e = .semWait (some s) := by
  cases e with
  | semWait sem =>
    cases sem with
    | none => cases h
    | some s' =>
      cases h
      rfl
  | semTimedwait sem m =>
    cases sem with
    | none => cases h
    | some s' => cases h
  | _ => cases h

theorem saves_timedBlock (h : e.saves = some (.timedBlock s)) :
    ∃ n, e = .semTimedwait (some s) n := by
  cases e with
  | semWait sem =>
    cases sem with
    | none => cases h
    | some s' => cases h
  | semTimedwait sem n =>
    cases sem with
    | none => cases h
    | some s' =>
      cases h
      exact ⟨n, rfl⟩
  | _ => cases h

theorem ended_iff : k.ended e = some t ↔ e = .threadExit ∧ t = k.running ∨ e = .subtleKill t := by
  cases e <;> simp [ended, eq_comm]

theorem Resumes.unique {c' : Context} (h : k.Resumes t c) (h' : k.Resumes t c') : c = c' := by
  obtain ⟨th, hth, -, rfl⟩ := h
  obtain ⟨th', hth', -, rfl⟩ := h'
  cases hth.symm.trans hth'
  rfl

/-- The thread that goes on is the one that left the processor, or goes on from where it waited. -/
theorem stepFrom_goes_on (h : k.stepFrom e = .ok (some c, k')) (hi : k.Inv) :
    k'.running = k.running ∧ e.saves = some c ∨
      k'.running ≠ k.running ∧ k.Resumes k'.running c := by
  have hstep := stepFrom_step h
  obtain ⟨th, hth, hc⟩ := stepFrom_resumed h
  have halive := (step_inv hstep hi).running_alive
  rcases stepFrom_context h hth with ⟨hrun, -, hsaves⟩ | ⟨th₀, hth₀, hc₀, hnone⟩ | ⟨ho, -⟩
  · exact Or.inl ⟨hrun, hc ▸ hsaves⟩
  · refine Or.inr ⟨fun hrun => absurd (hnone hrun) (by simp), th₀, hth₀, ?_, hc₀.symm.trans hc⟩
    rcases (step_passes hstep hi).alive _ halive with ha | ⟨-, hnew⟩
    · obtain ⟨th₁, hth₁, hf⟩ := alive_iff.1 ha
      cases hth₀.symm.trans hth₁
      exact hf
    · rw [hnew, hi.freshThread _ (Nat.lt_succ_self _)] at hth₀
      cases hth₀
  · cases ho

/-- Which threads are to go on behind `block` after a step: those from before, and the one
that the step blocks. -/
theorem stepFrom_resumes (h : k.stepFrom e = .ok (o, k')) (hi : k.Inv)
    (hkill : ∀ t, e ≠ .subtleKill t) (ht : t ≠ k'.running) :
    k'.Resumes t (.block s) ↔
      t ≠ k.running ∧ k.Resumes t (.block s) ∨ t = k.running ∧ e = .semWait (some s) := by
  have hstep := stepFrom_step h
  have hpasses := step_passes hstep hi
  have hback : t = k.running → o ≠ none := by
    rintro rfl rfl
    exact ht (stepFrom_running h).symm
  refine ⟨?_, ?_⟩
  · rintro ⟨th, hth, hf, hc⟩
    rcases stepFrom_context h hth with ⟨hrun, -, hsaves⟩ | ⟨th₀, hth₀, hc₀, hnone⟩ | ⟨-, -, hc₀⟩
    · rw [hc] at hsaves
      exact Or.inr ⟨hrun, saves_block hsaves⟩
    · refine Or.inl ⟨fun hrun => hback hrun (hnone hrun), th₀, hth₀, ?_, hc₀.symm.trans hc⟩
      rcases hpasses.alive t (alive_iff.2 ⟨th, hth, hf⟩) with ha | ⟨-, rfl⟩
      · obtain ⟨th₁, hth₁, hf₁⟩ := alive_iff.1 ha
        cases hth₀.symm.trans hth₁
        exact hf₁
      · rw [hi.freshThread _ (Nat.lt_succ_self _)] at hth₀
        cases hth₀
    · rw [hc] at hc₀
      cases hc₀
  · have hlives : ∀ {c}, k.Alive t → (t = k.running → e ≠ .threadExit) →
        (∀ th, k'.threads t = some th → th.context = c) → k'.Resumes t c := by
      intro c ha hexit hc
      rcases hpasses.survives t ha with ha' | hend
      · obtain ⟨th, hth, hf⟩ := alive_iff.1 ha'
        exact ⟨th, hth, hf, hc th hth⟩
      · rcases ended_iff.1 hend with ⟨he, hrun⟩ | he
        · exact absurd he (hexit hrun)
        · exact absurd he (hkill t)
    rintro (⟨hne, hr⟩ | ⟨rfl, rfl⟩)
    · obtain ⟨th₀, hth₀, hf₀, hc₀⟩ := hr
      refine hlives (alive_iff.2 ⟨th₀, hth₀, hf₀⟩) (fun hrun => absurd hrun hne) fun th hth => ?_
      rcases stepFrom_context h hth with ⟨hrun, -⟩ | ⟨th₁, hth₁, hc₁, -⟩ | ⟨-, rfl, -⟩
      · exact absurd hrun hne
      · cases hth₀.symm.trans hth₁
        exact hc₁.trans hc₀
      · rw [hi.freshThread _ (Nat.lt_succ_self _)] at hth₀
        cases hth₀
    · refine hlives hi.running_alive (by simp) fun th hth => ?_
      rcases stepFrom_context h hth with ⟨-, -, hsaves⟩ | ⟨_, -, -, hnone⟩ | ⟨ho, -⟩
      · exact (Option.some.inj hsaves).symm
      · exact absurd (hnone rfl) (hback rfl)
      · exact absurd ho (hback rfl)

theorem exists_stepFrom (h : k.step e = .ok k') : ∃ o, k.stepFrom e = .ok (o, k') := by
  rw [step_eq_enter] at h
  obtain ⟨⟨p, k₁⟩, he, h⟩ := bind_ok h
  cases p with
  | returns r =>
    cases h
    exact ⟨none, by rw [stepFrom, he]; rfl⟩
  | dispatches c =>
    have h : k₁.dispatch c = .ok k' := h
    rw [dispatch_eq_switch] at h
    obtain ⟨k₂, hs, hr⟩ := bind_ok h
    obtain ⟨th, hth⟩ := Option.ne_none_iff_exists'.1 (switch_records hs).2.2.1
    refine ⟨some th.context, ?_⟩
    simp only [stepFrom, he, hs, hr, thread, hth, bind, Except.bind]
    rfl

/-- Threads wait for semaphores that have been opened. -/
def Known (k : Kernel) : Prop :=
  ∀ t th s, k.threads t = some th → th.context = .block s ∨ th.context = .timedBlock s →
    s < k.nextSem

theorem boot_known {start total : ℕ} (h : boot start total = some k) : k.Known := by
  intro t th s hth hc
  by_cases ht : t = mainThread
  · subst ht
    obtain ⟨stack, hp, p, hp', -, -, rfl⟩ := boot_ok h
    simp only [bootState, Function.update_self, Option.some.injEq] at hth
    subst hth
    simp at hc
  · rw [boot_threads h ht] at hth
    cases hth

theorem step_known (h : k.step e = .ok k') (hi : k.Inv) (hk : k.Known) : k'.Known := by
  intro t th s hth hc
  have hnext := (step_fresh h hi).2.2.1
  -- a call that blocks on `s` finds it
  have hopen : (∃ m, k.sems s = some m) → s < k'.nextSem := by
    rintro ⟨m, hm⟩
    refine lt_of_lt_of_le ?_ hnext
    by_contra hge
    rw [(hi.freshSem s (Nat.not_lt.1 hge)).1] at hm
    cases hm
  obtain ⟨o, hf⟩ := exists_stepFrom h
  rcases stepFrom_context hf hth with ⟨-, -, hsaves⟩ | ⟨th₀, hth₀, hc₀, -⟩ | ⟨-, -, hc₀⟩
  · apply hopen
    rcases hc with hc | hc <;> rw [hc] at hsaves
    · obtain rfl := saves_block hsaves
      obtain ⟨r, ha, -⟩ := wait_ok h
      obtain ⟨m, hm, -⟩ := addVal_ok ha
      exact ⟨m, hm⟩
    · obtain ⟨n, rfl⟩ := saves_timedBlock hsaves
      obtain ⟨r, ha, -⟩ := timedWait_ok h
      obtain ⟨m, hm, -⟩ := addVal_ok ha
      exact ⟨m, hm⟩
  · exact lt_of_lt_of_le (hk t th₀ s hth₀ (hc₀ ▸ hc)) hnext
  · rw [hc₀] at hc
    simp at hc

theorem run_known {P : Kernel → Event → Prop} {kb : Kernel} {es : List Event} {start total : ℕ}
    (hb : boot start total = some kb) (h : Run step P kb es k) : k.Known :=
  (h.invariant (fun k => k.Inv ∧ k.Known) ⟨boot_inv hb, boot_known hb⟩
    fun _ _ _ ⟨hi, hk⟩ _ hs => ⟨step_inv hs hi, step_known hs hi hk⟩).2

/-- Nobody waits for a semaphore that has just been opened. -/
theorem newSem_unawaited {n : UInt32} (hk : k.Known) (h : k.step (.semOpen n) = .ok k')
    (ht : k'.threads t = some th) :
    th.context ≠ .block k.nextSem ∧ th.context ≠ .timedBlock k.nextSem := by
  obtain ⟨p, hp, node, hp', -, -, rfl⟩ := newSem_ok h
  refine ⟨fun hc => ?_, fun hc => ?_⟩
  · exact absurd (hk t th _ ht (Or.inl hc)) (Nat.lt_irrefl _)
  · exact absurd (hk t th _ ht (Or.inr hc)) (Nat.lt_irrefl _)

/-- A child stays one while it lives. -/
theorem Child.stays {p : Tid} (hc : k.Child p t) (h : k.step e = .ok k') (hi : k.Inv)
    (ha : k'.Alive t) : k'.Child p t := by
  by_cases hcreate : ∃ body stack, e = .threadCreate body stack
  · obtain ⟨body, stack, rfl⟩ := hcreate
    obtain ⟨-, -, -, hold⟩ := newThread_records h
    obtain ⟨th, hth, -, hp⟩ := hc
    obtain ⟨th', hth', hf⟩ := alive_iff.1 ha
    have hne : t ≠ k.ID + 1 := by
      rintro rfl
      rw [hi.freshThread _ (Nat.lt_succ_self _)] at hth
      cases hth
    obtain ⟨th₀, hth₀, ho, -⟩ := hold t hne th' hth'
    cases hth.symm.trans hth₀
    exact ⟨th', hth', hf, (congrArg (·.2.2.2) ho).trans hp⟩
  · exact (step_childIff h hi (fun body stack he => hcreate ⟨body, stack, he⟩) p t).2 ⟨hc, ha⟩

/-! A semaphore that a call does not name. -/

/-- No thread waits on `s` with a timeout. -/
def Untimed (k : Kernel) (s : SemId) : Prop :=
  ∀ t th, k.threads t = some th → th.context = .timedBlock s → t = k.running

theorem Untimed.sheds (hu : k.Untimed s) (h : Sheds k k') : k'.Untimed s := by
  intro t th' ht hc
  obtain ⟨th, hth, -, hc'⟩ := h.thread t th' ht
  rw [h.running]
  exact hu t th hth (hc'.symm.trans hc)

/-- Only `sem_timedwait` makes a thread wait with a timeout. -/
theorem Untimed.step (hu : k.Untimed s) (h : k.stepFrom e = .ok (o, k'))
    (he : ∀ n, e ≠ .semTimedwait (some s) n) : k'.Untimed s := by
  intro t th ht hc
  rcases stepFrom_context h ht with ⟨-, -, hsaves⟩ | ⟨th₀, hth₀, hc₀, hnone⟩ | ⟨-, -, hc₀⟩
  · rw [hc] at hsaves
    obtain ⟨n, rfl⟩ := saves_timedBlock hsaves
    exact absurd rfl (he n)
  · have hrun := hu t th₀ hth₀ (hc₀.symm.trans hc)
    obtain rfl := hnone hrun
    exact hrun.trans (stepFrom_running h).symm
  · rw [hc] at hc₀
    cases hc₀

theorem addVal_sem_ne {s' : SemId} {d : ℤ} {r : ℤ × Kernel} (h : k.addVal s' d = .ok r)
    (hs : s ≠ s') : r.2.sems s = k.sems s := by
  obtain ⟨m, -, -, rfl⟩ := addVal_ok h
  simp [hs]

theorem unblock_sem_ne {s' : SemId} {cause : SemStatus} (h : k.unblock s' cause = .ok k')
    (hs : s ≠ s') : k'.sems s = k.sems s := by
  obtain ⟨m, q, e, -, -, hsems⟩ := unblock_sems h
  rw [hsems, Function.update_of_ne hs]

theorem unblockAll_sem_ne {s' : SemId} {cause : SemStatus} {n : ℕ}
    (h : k.unblockAll s' cause n = .ok k') (hs : s ≠ s') : k'.sems s = k.sems s := by
  induction n generalizing k with
  | zero =>
    cases h
    rfl
  | succ n ih =>
    obtain ⟨k₁, r, hu, ha, h⟩ := unblockAll_ok h
    exact (ih h).trans ((addVal_sem_ne ha hs).trans (unblock_sem_ne hu hs))

theorem release_sems {s' : SemId} {cause : SemStatus} (h : k.release t s' cause = .ok k') :
    k'.sems = k.sems := (put_sems h).trans rfl

theorem unblockedByTime_sem_ne {s' : SemId} (h : k.unblockedByTime s' t = .ok k') (hs : s ≠ s') :
    k'.sems s = k.sems s := by
  obtain ⟨th, -, ⟨-, rfl⟩ | ⟨-, r, k₁, ha, hb, hr⟩⟩ := unblockedByTime_ok h
  · rfl
  · rw [release_sems hr]
    obtain ⟨m, -, rfl⟩ := removeBlocked_ok hb
    simpa [hs, removeThreadFromSleep] using addVal_sem_ne ha hs

/-- Waking a thread of the sleep list leaves a semaphore alone on which nobody waits with a
timeout. -/
theorem wakeThreadUp_untimed {ts : List Tid} (h : k.wakeThreadUp t = .ok k')
    (hsl : k.Sleepers (fun _ => none) loc (t :: ts)) (hu : k.Untimed s) :
    k'.sems s = k.sems s := by
  have hloc := hsl.asleep t (by simp)
  have hne : k.running ≠ t := Placed.running_ne hsl.cpu (by
    rcases hloc with hl | ⟨s', hl⟩ <;> simp [hl])
  obtain ⟨th, hth, hfit⟩ := hsl.placed.record (t := t) (by
    rcases hloc with hl | ⟨s', hl⟩ <;> simp [hl])
  rcases wakeThreadUp_ok h hth with ⟨hst, ⟨-, rfl⟩ | ⟨s', hs', hu'⟩⟩ | ⟨-, ⟨-, hput⟩ | ⟨-, rfl⟩⟩
  · rfl
  · apply unblockedByTime_sem_ne hu'
    rintro rfl
    rcases hloc with hl | ⟨s₁, hl⟩
    · rw [hl] at hfit
      rw [hfit.1] at hst
      cases hst
    · rw [hl] at hfit
      obtain ⟨-, hmy, -, hc⟩ := hfit
      obtain rfl : s₁ = s := Option.some.inj (hmy.symm.trans hs')
      exact hne (hu t th hth hc).symm
  · exact congrFun ((put_sems hput).trans rfl) s
  · rfl

theorem wakeAsleepThreadsUp_untimed (h : k.incTime.wakeAsleepThreadsUp = .ok k')
    (hl : k.Located loc) (hu : k.Untimed s) : k'.sems s = k.sems s := by
  have htime : Sheds k k.incTime := sheds_same rfl rfl rfl rfl
  change k'.sems s = k.incTime.sems s
  refine foreachWhile_rel_of (R := fun k k' => k'.sems s = k.sems s) (fun _ => rfl)
    (fun h₁ h₂ => h₂.trans h₁)
    (fun k ts => ∃ loc, k.Sleepers (fun _ => none) loc ts ∧ k.Untimed s) ?_ h ⟨loc, hl.sleepers, hu.sheds htime⟩
  rintro k t ts k' ⟨loc, hsl, hu⟩ hw
  exact ⟨wakeThreadUp_untimed hw hsl hu, _, (hsl.step hw).1, hu.sheds (wakeThreadUp_stays hw).sheds⟩

theorem switch_sems (h : k.switch c = .ok k') : k'.sems = k.sems := by
  obtain ⟨k₁, hl, h⟩ := bind_ok h
  obtain ⟨k₂, hs, h⟩ := bind_ok h
  have hsweep : k₂.sems = k₁.sems :=
    foreachWhile_rel (R := fun k k' => k'.sems = k.sems) (fun _ => rfl) (fun h₁ h₂ => h₂.trans h₁)
      (fun _ _ _ => deleteThreadInDispatch_sems) hs
  have hleave : k₁.sems = k.sems := (leave_sems hl).trans rfl
  rw [← hleave, ← hsweep]
  cases hg : k₂.get with
  | mk o k₃ =>
    rw [hg] at h
    cases o with
    | none => cases h
    | some t =>
      cases h
      have hget : k₃.sems = k₂.sems := congrArg (fun r => r.2.sems) hg.symm
      unfold saveContext
      split_ifs <;> exact hget

theorem resume_sem (h : k.resume = .ok k') (hth : k.threads k.running = some th)
    (hc : th.context ≠ .timedBlock s) : k'.sems s = k.sems s := by
  obtain ⟨th', hth', hcase⟩ := resume_ok h
  cases hth.symm.trans hth'
  rcases hcase with ⟨-, rfl⟩ | ⟨s', -, hb⟩ | ⟨s', hs', hb⟩ | ⟨-, rfl⟩
  · rfl
  · obtain ⟨_, a, -, -, rfl⟩ := generateWaitResponses_ok hb
    rfl
  · have hne : s ≠ s' := by
      rintro rfl
      exact hc hs'
    obtain ⟨_, a, -, -, rfl⟩ := generateWaitResponses_ok hb
    change ((k.setMySem k.running none).decTimedWaiting s').sems s = k.sems s
    unfold decTimedWaiting
    split
    · simp [hne]
    · rfl
  · rfl

theorem insertAsleep_sems (h : k.insertAsleep t = .ok k') : k'.sems = k.sems := by
  unfold insertAsleep at h
  split_ifs at h
  · obtain ⟨r, -, h⟩ := bind_ok h
    cases h
    rfl
  · cases h
    rfl

theorem addBlocked_sem_ne {s' : SemId} (h : k.addBlocked s' t = .ok k') (hs : s ≠ s') :
    k'.sems s = k.sems s := by
  obtain ⟨m, node, hp, -, -, rfl⟩ := addBlocked_ok h
  simp [hs]

theorem incTimedWaiting_sem_ne {s' : SemId} (h : k.incTimedWaiting s' = .ok k') (hs : s ≠ s') :
    k'.sems s = k.sems s := by
  obtain ⟨m, -, rfl⟩ := incTimedWaiting_ok h
  simp [hs]

theorem enterWait_sem_ne {s' : SemId} {p : Outcome × Kernel} (h : k.enterWait s' = .ok p)
    (hs : s ≠ s') : p.2.sems s = k.sems s := by
  obtain ⟨r, ha, h⟩ := bind_ok h
  dsimp only at h
  split_ifs at h
  · cases h
    exact addVal_sem_ne ha hs
  · obtain ⟨k₂, hb, h⟩ := bind_ok h
    obtain ⟨k₁, hadd, hb⟩ := bind_ok hb
    cases h
    cases hb
    exact (addBlocked_sem_ne hadd hs).trans (addVal_sem_ne ha hs)

theorem enterTimedWait_sem_ne {s' : SemId} {n : UInt64} {p : Outcome × Kernel}
    (h : k.enterTimedWait s' n = .ok p) (hs : s ≠ s') : p.2.sems s = k.sems s := by
  obtain ⟨r, ha, h⟩ := bind_ok h
  dsimp only at h
  split_ifs at h
  · cases h
    exact addVal_sem_ne ha hs
  · obtain ⟨k₄, hb, h⟩ := bind_ok h
    obtain ⟨k₁, hadd, hb⟩ := bind_ok hb
    obtain ⟨k₂, hins, hb⟩ := bind_ok hb
    obtain ⟨k₃, hinc, hb⟩ := bind_ok hb
    cases h
    cases hb
    have h₁ : k₁.sems s = r.2.sems s := (addBlocked_sem_ne hadd hs).trans rfl
    have h₂ : k₂.sems s = k₁.sems s := congrFun (insertAsleep_sems hins) s
    have h₃ : k₃.sems s = k₂.sems s := incTimedWaiting_sem_ne hinc hs
    exact h₃.trans (h₂.trans (h₁.trans (addVal_sem_ne ha hs)))

theorem enterSleep_sems {n : UInt64} {p : Outcome × Kernel} (h : k.enterSleep n = .ok p) :
    p.2.sems = k.sems := by
  unfold enterSleep at h
  dsimp only at h
  split_ifs at h
  · obtain ⟨k₁, hins, h⟩ := bind_ok h
    cases h
    exact (insertAsleep_sems hins).trans rfl
  · cases h
    rfl

theorem enterExit_sems {p : Outcome × Kernel} (h : k.enterExit = .ok p) : p.2.sems = k.sems := by
  obtain ⟨th, -, h⟩ := bind_ok h
  cases h
  cases th.parentThread with
  | none => rfl
  | some q =>
    change (k.decNumOfChildren q).sems = k.sems
    unfold decNumOfChildren
    split_ifs <;> rfl

theorem enterTick_untimed {p : Outcome × Kernel} (h : k.enterTick = .ok p) (hl : k.Located loc)
    (hu : k.Untimed s) : p.2.sems s = k.sems s := by
  obtain ⟨k₁, hw, h⟩ := bind_ok h
  obtain ⟨th, -, h⟩ := bind_ok h
  have hwake := wakeAsleepThreadsUp_untimed hw hl hu
  split_ifs at h <;> cases h <;> exact hwake

/-- A call leaves the semaphores it does not name alone, as far as `dispatch`. -/
theorem enter_untimed {p : Outcome} (h : k.enter e = .ok (p, k')) (hi : k.Inv) (hu : k.Untimed s)
    (hs : k.sems s ≠ none) (he : handle e ≠ some s) : k'.sems s = k.sems s := by
  obtain ⟨loc, hl⟩ := hi.located
  have hname : ∀ {sem : Option SemId} {f : SemId → Except Fault (Outcome × Kernel)},
      k.enterHandle sem f = .ok (p, k') → sem ≠ some s →
      (∀ s', s ≠ s' → f s' = .ok (p, k') → k'.sems s = k.sems s) → k'.sems s = k.sems s := by
    intro sem f h hne hf
    cases sem with
    | none =>
      cases h
      rfl
    | some s' => exact hf s' (fun hss => hne (hss ▸ rfl)) h
  cases e with
  | memAlloc n =>
    cases h
    rcases memAlloc_eq k n with ⟨he, -⟩ | ⟨_, _, -, he⟩ <;> rw [he]
  | memFree _ =>
    obtain ⟨v, hm, -⟩ := map_returning h
    obtain ⟨-, he⟩ := memFree_ok hm
    cases he
    rfl
  | threadCreate body stack => exact congrFun (newThread_sems (map_returning_zero h).1) s
  | threadExit => exact congrFun (enterExit_sems h) s
  | threadDispatch =>
    cases h
    rfl
  | semOpen n =>
    obtain ⟨_, _, _, _, -, -, rfl⟩ := newSem_ok (map_returning_zero h).1
    have hne : s ≠ k.nextSem := by
      rintro rfl
      exact hs (hi.freshSem _ le_rfl).1
    simp [hne]
  | semClose sem =>
    refine hname h he fun s' hne h => ?_
    obtain ⟨m, k₁, -, hall, rfl⟩ := deleteSem_ok (map_returning_zero h).1
    rw [forgetSem_sems, Function.update_of_ne hne]
    exact unblockAll_sem_ne hall hne
  | semWait sem => exact hname h he fun s' hne h => enterWait_sem_ne h hne
  | semSignal sem =>
    refine hname h he fun s' hne h => ?_
    obtain ⟨v, hr, -⟩ := map_returning h
    obtain ⟨val, k₁, ha, ⟨-, hk⟩ | ⟨-, k₂, hub, hk⟩⟩ := signal_ok hr
    · cases hk
      exact addVal_sem_ne ha hne
    · cases hk
      exact (unblock_sem_ne hub hne).trans (addVal_sem_ne ha hne)
  | semTimedwait sem n => exact hname h he fun s' hne h => enterTimedWait_sem_ne h hne
  | semTrywait sem =>
    refine hname h he fun s' hne h => ?_
    obtain ⟨v, hr, -⟩ := map_returning h
    obtain ⟨r', ha, hk⟩ := tryWait_ok hr
    obtain rfl : k' = r'.2 := hk
    exact addVal_sem_ne ha hne
  | timeSleep n => exact congrFun (enterSleep_sems h) s
  | tick => exact enterTick_untimed h hl hu
  | subtleKill t =>
    cases h
    exact congrFun (subtleKill_sems k t) s

theorem switch_resume_untimed (hs : k.switch c = .ok k₂) (hr : k₂.resume = .ok k')
    (hu : k.Untimed s) (hc : c ≠ .timedBlock s) : k'.sems s = k.sems s := by
  obtain ⟨-, -, hrun, hrec⟩ := switch_records hs
  obtain ⟨th₂, hth₂⟩ := Option.ne_none_iff_exists'.1 hrun
  obtain ⟨th, hth, hctx⟩ := hrec _ _ hth₂
  rw [resume_sem hr hth₂ ?_, switch_sems hs]
  rw [hctx]
  split_ifs with he
  · exact hc
  · exact fun hb => he (hu _ _ hth hb)

/-- After a step that goes through `dispatch` the semaphores are as the call left them. -/
theorem stepFrom_untimed (h : k.stepFrom e = .ok (o, k')) (hu : k.Untimed s)
    (he : ∀ n, e ≠ .semTimedwait (some s) n) :
    ∃ p k₁, k.enter e = .ok (p, k₁) ∧ (o = none ↔ ∃ r, p = .returns r) ∧
      k₁.running = k.running ∧ k'.sems s = k₁.sems s := by
  rcases stepFrom_ok h with ⟨rfl, r, henter⟩ | ⟨c, k₁, k₂, th, rfl, henter, hs, -, hr⟩
  · exact ⟨_, k', henter, by simp, stepFrom_running h, rfl⟩
  · obtain ⟨hsheds, -⟩ := enter_dispatches henter
    refine ⟨_, k₁, henter, by simp, hsheds.running,
      switch_resume_untimed hs hr (hu.sheds hsheds) ?_⟩
    rintro rfl
    obtain ⟨n, rfl⟩ := saves_timedBlock (enter_saves henter)
    exact he n rfl

/-- A step of a call that does not name `s` leaves it alone. -/
theorem stepFrom_sem (h : k.stepFrom e = .ok (o, k')) (hi : k.Inv) (hu : k.Untimed s)
    (hs : k.sems s ≠ none) (he : handle e ≠ some s) : k'.sems s = k.sems s := by
  obtain ⟨p, k₁, henter, -, -, hsem⟩ := stepFrom_untimed h hu fun n hn => he (hn ▸ rfl)
  exact hsem.trans (enter_untimed henter hi hu hs he)

/-- A step of `sem_wait` on `s`: the value goes down, and the caller comes back or joins the
queue. -/
theorem stepFrom_wait (h : k.stepFrom (.semWait (some s)) = .ok (o, k')) (hu : k.Untimed s)
    (hm : k.sems s = some m) :
    (o = none ∧ 0 ≤ m.val - 1 ∧ k'.sems s = some { m with val := m.val - 1 }) ∨
      (o ≠ none ∧ m.val - 1 < 0 ∧ ∃ q, q.items = m.queueBlocked.items ++ [k.running] ∧
        k'.sems s = some { m with val := m.val - 1, queueBlocked := q }) := by
  obtain ⟨p, k₁, henter, ho, -, hsem⟩ := stepFrom_untimed h hu (by simp)
  obtain ⟨r, ha, henter⟩ := bind_ok henter
  have hr := addVal_sem ha hm
  have hval : r.1 = m.val - 1 := by
    obtain ⟨m', hm', -, rfl⟩ := addVal_ok ha
    cases hm.symm.trans hm'
    rfl
  dsimp only at henter
  split_ifs at henter with hv
  · cases henter
    refine Or.inl ⟨ho.2 ⟨_, rfl⟩, hval ▸ hv, ?_⟩
    rw [hsem]
    exact hr
  · obtain ⟨k₂, hb, henter⟩ := bind_ok henter
    obtain ⟨k₃, hadd, hb⟩ := bind_ok hb
    cases henter
    cases hb
    refine Or.inr ⟨by simp [ho], hval ▸ Int.not_le.1 hv, ?_⟩
    obtain ⟨m', node, hp, hm', -, rfl⟩ := addBlocked_ok hadd
    cases hr.symm.trans hm'
    refine ⟨m.queueBlocked ++ [⟨node, r.2.running⟩], ?_, hsem.trans ?_⟩
    · simp [addVal_running ha]
    · simp [setThreadsSemStatus, setMySem]
      rfl

/-- A step of `sem_signal` on `s`: the value goes up, and the first thread leaves the queue when
the value owes. -/
theorem stepFrom_signal (h : k.stepFrom (.semSignal (some s)) = .ok (o, k')) (hm : k.sems s = some m) :
    o = none ∧ (0 < m.val + 1 ∧ k'.sems s = some { m with val := m.val + 1 } ∨
      m.val + 1 ≤ 0 ∧ ∃ e q, m.queueBlocked = e :: q ∧
        k'.sems s = some { m with val := m.val + 1, queueBlocked := q }) := by
  rcases stepFrom_ok h with ⟨ho, r, henter⟩ | ⟨_, _, _, _, -, henter, -⟩
  · refine ⟨ho, ?_⟩
    obtain ⟨v, hr, -⟩ := map_returning henter
    obtain ⟨val, k₁, ha, hcase⟩ := signal_ok hr
    have hsem := addVal_sem ha hm
    have hval : val = m.val + 1 := by
      obtain ⟨m', hm', -, hr⟩ := addVal_ok ha
      cases hm.symm.trans hm'
      exact congrArg Prod.fst hr
    rcases hcase with ⟨hv, hk⟩ | ⟨hv, k₂, hub, hk⟩
    · cases hk
      exact Or.inl ⟨hval ▸ hv, hsem⟩
    · cases hk
      obtain ⟨m', a, q, hm', hq, hsems⟩ := unblock_sems hub
      cases hsem.symm.trans hm'
      exact Or.inr ⟨hval ▸ hv, a, q, hq, by rw [hsems]; simp⟩
  · cases (map_returning henter).choose_spec.2

end Kernel
end OSK
