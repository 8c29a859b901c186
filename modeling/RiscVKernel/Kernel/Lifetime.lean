import RiscVKernel.Kernel.Steps

/-! How long objects live. A thread that waits inside `timedBlock` goes on there
with the semaphore it was called on, and a thread that exits counts itself off at
its parent; neither looks whether the object is still there. -/

namespace OSK

open Lib

namespace Kernel

variable {k k' k₂ : Kernel} {t : Tid} {s : SemId} {c : Context} {cause : SemStatus}
  {loc : Tid → Place} {th : Thread} {w : Freed → Prop}

/-- The thread `t` is to go on from `c`. -/
def Resumes (k : Kernel) (t : Tid) (c : Context) : Prop :=
  ∃ th, k.threads t = some th ∧ th.threadState ≠ .finished ∧ th.context = c

instance (k : Kernel) (t : Tid) (c : Context) : Decidable (k.Resumes t c) :=
  inferInstanceAs (Decidable (∃ th ∈ k.threads t, th.threadState ≠ .finished ∧ th.context = c))

/-- The thread `t` is there and has not finished. -/
def Alive (k : Kernel) (t : Tid) : Prop :=
  ∃ c, k.Resumes t c

theorem alive_iff : k.Alive t ↔ ∃ th, k.threads t = some th ∧ th.threadState ≠ .finished :=
  ⟨fun ⟨_, th, hth, hf, _⟩ => ⟨th, hth, hf⟩, fun ⟨th, hth, hf⟩ => ⟨_, th, hth, hf, rfl⟩⟩

/-- A stretch of a call in which the same thread runs on: no context is saved, no
thread finishes, none but finished ones disappear, no semaphore is made or
deleted, and no deleted object is written but those of `w`. -/
structure Calm (w : Freed → Prop) (k k' : Kernel) : Prop where
  resumes : ∀ t c, k'.Resumes t c ↔ k.Resumes t c
  opens : ∀ s, (k'.sems s).isSome = (k.sems s).isSome
  strays : ∀ o a, ¬w o → Note.freedWrite o a ∈ k'.trace → Note.freedWrite o a ∈ k.trace
  running : k'.running = k.running
  listed : k'.allSemaphores = k.allSemaphores

theorem Calm.refl (k : Kernel) : Calm w k k :=
  ⟨fun _ _ => Iff.rfl, fun _ => rfl, fun _ _ _ h => h, rfl, rfl⟩

theorem Calm.trans (h : Calm w k k') (h' : Calm w k' k₂) : Calm w k k₂ :=
  ⟨fun t c => (h'.resumes t c).trans (h.resumes t c), fun s => (h'.opens s).trans (h.opens s),
    fun o a hw ho => h.strays o a hw (h'.strays o a hw ho), h'.running.trans h.running,
    h'.listed.trans h.listed⟩

theorem Calm.alive (h : Calm w k k') (t : Tid) : k'.Alive t ↔ k.Alive t :=
  exists_congr fun c => h.resumes t c

theorem resumes_congr (ht : k'.threads t = k.threads t) : k'.Resumes t c ↔ k.Resumes t c := by
  simp only [Resumes, ht]

theorem calm_of_stays (h : Stays k k') (ht : k'.threads = k.threads) (htr : k'.trace = k.trace) :
    Calm w k k' := by
  refine ⟨fun t c => resumes_congr (congrFun ht t), h.sem, ?_, h.running, h.allSemaphores⟩
  intro o a _ ho
  rwa [htr] at ho

/-- Fields other than the context, when the thread does not finish. -/
theorem modifyThread_calm {f : Thread → Thread}
    (hf : ∀ th, k.threads t = some th → (f th).context = th.context ∧
      ((f th).threadState = .finished ↔ th.threadState = .finished)) :
    Calm w k (k.modifyThread t f) := by
  refine ⟨?_, fun _ => rfl, fun _ _ _ h => h, rfl, rfl⟩
  intro t' c
  by_cases he : t' = t
  · subst he
    simp only [Resumes, modifyThread_threads, Function.update_self, Option.map_eq_some_iff]
    constructor
    · rintro ⟨th', ⟨th, hth, rfl⟩, hs, rfl⟩
      obtain ⟨hc, hfin⟩ := hf th hth
      exact ⟨th, hth, fun h => hs (hfin.2 h), hc.symm⟩
    · rintro ⟨th, hth, hs, rfl⟩
      obtain ⟨hc, hfin⟩ := hf th hth
      exact ⟨f th, ⟨th, hth, rfl⟩, fun h => hs (hfin.1 h), hc⟩
  · exact resumes_congr (by simp [he])

theorem note_calm (k : Kernel) {n : Note} (hn : ∀ o a, n = .freedWrite o a → w o) :
    Calm w k (k.note n) := by
  refine ⟨fun _ _ => Iff.rfl, fun _ => rfl, ?_, rfl, rfl⟩
  intro o a hw ho
  rcases List.mem_append.1 ho with ho | ho
  · exact ho
  · exact absurd (hn o a (List.mem_singleton.1 ho).symm) hw

theorem setMySem_calm (k : Kernel) (t : Tid) (o : Option SemId) : Calm w k (k.setMySem t o) :=
  modifyThread_calm fun _ _ => ⟨rfl, Iff.rfl⟩

theorem setTimeForWakingUp_calm (k : Kernel) (t : Tid) (n : ℕ) :
    Calm w k (k.setTimeForWakingUp t n) :=
  modifyThread_calm fun _ _ => ⟨rfl, Iff.rfl⟩

theorem setThreadsSemStatus_calm (k : Kernel) (t : Tid) (st : SemStatus) :
    Calm w k (k.setThreadsSemStatus t st) := by
  apply modifyThread_calm
  intro th _
  by_cases hf : th.threadState = .finished
  · simp [hf]
  · simp only [hf, if_false, iff_false, true_and]
    split_ifs <;> simp

/-- A new state for a thread that has not finished. -/
theorem setThreadState_calm {st : ThreadState} (hth : k.threads t = some th)
    (hf : th.threadState ≠ .finished) (hst : st ≠ .finished) : Calm w k (k.setThreadState t st) := by
  refine modifyThread_calm fun th' hth' => ⟨rfl, ?_⟩
  obtain rfl : th = th' := Option.some.inj (hth.symm.trans hth')
  exact ⟨fun h => absurd h hst, fun h => absurd h hf⟩

theorem put_calm (h : k.put t = .ok k') : Calm w k k' := by
  have hs := put_stays h
  obtain ⟨node, hp, -, rfl⟩ := put_ok h
  exact calm_of_stays hs rfl rfl

theorem addVal_calm {d : ℤ} {r : ℤ × Kernel} (h : k.addVal s d = .ok r) : Calm w k r.2 := by
  have hs := addVal_stays h
  obtain ⟨m, -, -, rfl⟩ := addVal_ok h
  exact calm_of_stays hs rfl rfl

theorem addBlocked_calm (h : k.addBlocked s t = .ok k') : Calm w k k' := by
  have hs := addBlocked_stays h
  obtain ⟨m, node, hp, -, -, rfl⟩ := addBlocked_ok h
  exact calm_of_stays hs rfl rfl

theorem removeBlocked_calm (h : k.removeBlocked s t = .ok k') : Calm w k k' := by
  have hs := removeBlocked_stays h
  obtain ⟨m, -, rfl⟩ := removeBlocked_ok h
  exact calm_of_stays hs rfl rfl

theorem removeThreadFromSleep_calm (k : Kernel) (t : Tid) :
    Calm w k (k.removeThreadFromSleep t).2 :=
  calm_of_stays (removeThreadFromSleep_stays k t) rfl rfl

theorem insertAsleep_calm (h : k.insertAsleep t = .ok k') (ht : k.threads t ≠ none) :
    Calm w k k' := by
  have hs := insertAsleep_stays h
  obtain ⟨node, hp, -, rfl⟩ := insertAsleep_ok h ht
  exact calm_of_stays hs rfl rfl

theorem incTimedWaiting_calm (h : k.incTimedWaiting s = .ok k') : Calm w k k' := by
  have hs := incTimedWaiting_stays h
  obtain ⟨m, -, rfl⟩ := incTimedWaiting_ok h
  exact calm_of_stays hs rfl rfl

theorem release_calm (h : k.release t s cause = .ok k') : Calm w k k' := by
  refine Calm.trans ?_ (put_calm h)
  exact ((setMySem_calm k t none).trans (setThreadsSemStatus_calm _ t cause)).trans
    (note_calm _ (by simp))

theorem unblock_calm (h : k.unblock s cause = .ok k') : Calm w k k' := by
  obtain ⟨t, k₁, th, hf, -, hr⟩ := unblock_ok h
  have hs := firstBlocked_stays hf
  obtain ⟨m, hm, ⟨-, hr'⟩ | ⟨e, q, hq, he⟩⟩ := firstBlocked_ok hf
  · cases hr'
  cases he
  refine (calm_of_stays hs rfl rfl).trans (Calm.trans ?_ (release_calm hr))
  split_ifs
  · exact removeThreadFromSleep_calm _ _
  · exact .refl _

theorem unblockAll_calm {n : ℕ} (h : k.unblockAll s cause n = .ok k') : Calm w k k' := by
  induction n generalizing k with
  | zero =>
    cases h
    exact .refl _
  | succ n ih =>
    obtain ⟨k₁, r, hu, ha, h⟩ := unblockAll_ok h
    exact ((unblock_calm hu).trans (addVal_calm ha)).trans (ih h)

theorem unblockedByTime_calm (h : k.unblockedByTime s t = .ok k') : Calm w k k' := by
  obtain ⟨th, -, ⟨-, rfl⟩ | ⟨-, r, k₁, ha, hb, hr⟩⟩ := unblockedByTime_ok h
  · exact .refl _
  · exact (((addVal_calm ha).trans (removeThreadFromSleep_calm _ _)).trans
      (removeBlocked_calm hb)).trans (release_calm hr)

theorem wakeThreadUp_calm (h : k.wakeThreadUp t = .ok k') : Calm w k k' := by
  cases ht : k.threads t with
  | none =>
    unfold wakeThreadUp at h
    simp only [ht] at h
    cases h
    exact .refl _
  | some th =>
    rcases wakeThreadUp_ok h ht with ⟨-, ⟨-, rfl⟩ | ⟨s, -, hu⟩⟩ | ⟨-, ⟨-, hput⟩ | ⟨-, rfl⟩⟩
    · exact .refl _
    · exact unblockedByTime_calm hu
    · exact (removeThreadFromSleep_calm _ _).trans (put_calm hput)
    · exact removeThreadFromSleep_calm _ _

/-! `dispatch`. -/

/-- Deleting a thread that is not alive. -/
theorem deleteThread_calm (h : k.deleteThread t = .ok k') (hf : ¬k.Alive t) : Calm w k k' := by
  obtain ⟨th, -, rfl⟩ := deleteThread_ok h
  refine ⟨?_, fun _ => rfl, fun _ _ _ h => h, rfl, rfl⟩
  intro t' c
  by_cases he : t' = t
  · subst he
    refine ⟨?_, fun hr => absurd ⟨c, hr⟩ hf⟩
    intro hr
    obtain ⟨th, hth, -⟩ := hr
    simp at hth
  · exact resumes_congr (by simp [he])

theorem not_alive_of_isFinished (hf : k.isFinished t = true) : ¬k.Alive t := by
  rw [alive_iff]
  rintro ⟨th, hth, hs⟩
  simp [isFinished, hth, hs] at hf

theorem Alive.isFinished (h : k.Alive t) : k.isFinished t = false := by
  obtain ⟨th, hth, hst⟩ := alive_iff.1 h
  simp [Kernel.isFinished, hth, hst]

theorem alive_of_isFinished (hf : k.isFinished t = false) : k.Alive t := by
  cases hth : k.threads t with
  | none => simp [isFinished, hth] at hf
  | some th => exact alive_iff.2 ⟨th, hth, by simpa [isFinished, hth] using hf⟩

theorem deleteThreadInDispatch_calm (h : k.deleteThreadInDispatch t = .ok k') : Calm w k k' := by
  have hs : Calm w k (k.removeReady t).2 := calm_of_stays (removeReady_stays k t) rfl rfl
  unfold deleteThreadInDispatch at h
  dsimp only at h
  split_ifs at h with hcond
  · simp only [Bool.and_eq_true] at hcond
    exact hs.trans (deleteThread_calm h (not_alive_of_isFinished hcond.2))
  · cases h
    exact hs

theorem leave_calm (h : k.leave = .ok k') : Calm w k k' := by
  obtain ⟨th, hth, ⟨hst, hput⟩ | ⟨-, rfl⟩ | ⟨hst, hd⟩⟩ := leave_ok h
  · have hf : th.threadState ≠ .finished := by rcases hst with h | h <;> simp [h]
    exact (setThreadState_calm hth hf (by simp)).trans (put_calm hput)
  · exact .refl _
  · exact deleteThread_calm hd (not_alive_of_isFinished (by simp [isFinished, hth, hst]))

theorem generateWaitResponses_calm (h : k.generateWaitResponses s = .ok k') : Calm w k k' := by
  obtain ⟨th, a, -, -, rfl⟩ := generateWaitResponses_ok h
  exact (setThreadsSemStatus_calm _ _ _).trans (note_calm _ (by simp))

theorem decTimedWaiting_calm (k : Kernel) (hw : k.sems s = none → w (.sem s)) :
    Calm w k (k.decTimedWaiting s) := by
  have hs := decTimedWaiting_stays k s
  unfold decTimedWaiting at *
  cases hm : k.sems s with
  | none =>
    apply note_calm k
    intro o a ho
    cases ho
    exact hw hm
  | some m =>
    rw [hm] at hs
    exact calm_of_stays hs rfl rfl

/-- A thread goes on; the only object it may find deleted is the semaphore of
its `timedBlock`. -/
theorem resume_calm (h : k.resume = .ok k') (hth : k.threads k.running = some th)
    (hst : th.threadState = .running)
    (hw : ∀ s, th.context = .timedBlock s → k.sems s = none → w (.sem s)) : Calm w k k' := by
  obtain ⟨th₀, hth₀, hcase⟩ := resume_ok h
  obtain rfl : th = th₀ := Option.some.inj (hth.symm.trans hth₀)
  rcases hcase with ⟨-, rfl⟩ | ⟨s, -, hb⟩ | ⟨s, hctx, hb⟩ | ⟨-, rfl⟩
  · exact .refl _
  · exact (setMySem_calm k _ none).trans (generateWaitResponses_calm hb)
  · refine (((setMySem_calm k k.running none).trans (decTimedWaiting_calm _ ?_)).trans
      (setTimeForWakingUp_calm _ _ _)).trans (generateWaitResponses_calm hb)
    exact hw s hctx
  · exact (setThreadState_calm hth (by simp [hst]) (by simp)).trans (setTimeForWakingUp_calm _ _ _)

/-- A stretch of a call that gives the processor to another thread and saves `c`
for the old one. -/
structure Dispatched (w : Freed → Prop) (k : Kernel) (c : Context) (k' : Kernel) : Prop where
  resumes : ∀ t c', t ≠ k'.running → k'.Resumes t c' →
    t = k.running ∧ c' = c ∨ t ≠ k.running ∧ k.Resumes t c'
  alive : ∀ t, k'.Alive t ↔ k.Alive t
  opens : ∀ s, (k'.sems s).isSome = (k.sems s).isSome
  strays : ∀ o a, ¬w o → Note.freedWrite o a ∈ k'.trace → Note.freedWrite o a ∈ k.trace
  listed : k'.allSemaphores = k.allSemaphores

theorem Calm.dispatched (h : Calm w k k') (h' : Dispatched w k' c k₂) : Dispatched w k c k₂ := by
  refine ⟨fun t c' ht hr => ?_, fun t => (h'.alive t).trans (h.alive t),
    fun s => (h'.opens s).trans (h.opens s), fun o a hw ho => h.strays o a hw (h'.strays o a hw ho),
    h'.listed.trans h.listed⟩
  have hcase := h'.resumes t c' ht hr
  rwa [h.running, h.resumes] at hcase

theorem Dispatched.calm (h : Dispatched w k c k') (h' : Calm w k' k₂) : Dispatched w k c k₂ := by
  refine ⟨fun t c' ht hr => ?_, fun t => (h'.alive t).trans (h.alive t),
    fun s => (h'.opens s).trans (h.opens s), fun o a hw ho => h.strays o a hw (h'.strays o a hw ho),
    h'.listed.trans h.listed⟩
  rw [h'.running] at ht
  exact h.resumes t c' ht ((h'.resumes t c').1 hr)

/-- The records after the switch to `t`, one by one. -/
theorem switched_thread {k₁ : Kernel} {old t' : Tid} {th' : Thread}
    (h : (switched k₁ t old c).threads t' = some th') :
    ∃ th, k₁.threads t' = some th ∧
      th'.threadState = (if t' = t then .running else th.threadState) ∧
      th'.context = if t' = old then c else th.context := by
  have hset : ∀ {th₁}, (setThreadState { k₁.get.2 with running := t } t .running).threads t' =
      some th₁ → ∃ th, k₁.threads t' = some th ∧
        th₁.threadState = (if t' = t then .running else th.threadState) ∧
        th₁.context = th.context := by
    intro th₁ h₁
    by_cases ht : t' = t
    · subst ht
      simp only [setThreadState, modifyThread_threads, Function.update_self,
        Option.map_eq_some_iff] at h₁
      obtain ⟨th, hth, rfl⟩ := h₁
      exact ⟨th, hth, by simp, rfl⟩
    · simp only [setThreadState, modifyThread_threads, Function.update_of_ne ht] at h₁
      exact ⟨th₁, h₁, by simp [ht], rfl⟩
  unfold switched saveContext at h
  by_cases ho : t' = old
  · subst ho
    split_ifs at h with hv
    · rw [modifyThread_threads, Function.update_self, Option.map_eq_some_iff] at h
      obtain ⟨th₁, hth₁, rfl⟩ := h
      obtain ⟨th, hth, hst, -⟩ := hset hth₁
      exact ⟨th, hth, hst, by simp⟩
    · exact absurd (Option.isSome_iff_exists.2 ⟨th', h⟩) hv
  · split_ifs at h with hv
    · rw [modifyThread_threads, Function.update_of_ne ho] at h
      obtain ⟨th, hth, hst, hc⟩ := hset h
      exact ⟨th, hth, hst, by simp [ho, hc]⟩
    · obtain ⟨th, hth, hst, hc⟩ := hset h
      exact ⟨th, hth, hst, by simp [ho, hc]⟩

theorem modifyThread_isSome (k : Kernel) (t t' : Tid) (f : Thread → Thread) :
    ((k.modifyThread t f).threads t').isSome = (k.threads t').isSome := by
  by_cases h : t' = t
  · subst h
    simp
  · simp [h]

theorem switched_isSome {k₁ : Kernel} (t old t' : Tid) (c : Context) :
    ((switched k₁ t old c).threads t').isSome = (k₁.threads t').isSome := by
  unfold switched saveContext
  split_ifs
  · rw [modifyThread_isSome, setThreadState, modifyThread_isSome]
    rfl
  · exact modifyThread_isSome _ _ _ _

/-- The switch to `t`: the old thread's context is saved. -/
theorem switched_dispatched {k₁ : Kernel} (hrun : (switched k₁ t k₁.running c).running = t)
    (hlive : k₁.isFinished t = false) (hw : ∀ t, w (.context t)) :
    Dispatched w k₁ c (switched k₁ t k₁.running c) := by
  refine ⟨?_, ?_, ?_, ?_, ?_⟩
  · rintro t' c' hne ⟨th', ht', hs, rfl⟩
    rw [hrun] at hne
    obtain ⟨th, hth, hst, hc⟩ := switched_thread ht'
    rw [if_neg hne] at hst
    by_cases ho : t' = k₁.running
    · exact Or.inl ⟨ho, by rw [hc, if_pos ho]⟩
    · exact Or.inr ⟨ho, th, hth, hst ▸ hs, by rw [hc, if_neg ho]⟩
  · intro t'
    simp only [alive_iff]
    constructor
    · rintro ⟨th', ht', hs⟩
      obtain ⟨th, hth, hst, -⟩ := switched_thread ht'
      refine ⟨th, hth, ?_⟩
      intro hf
      by_cases ht : t' = t
      · subst ht
        simp [isFinished, hth, hf] at hlive
      · rw [if_neg ht] at hst
        exact hs (hst.trans hf)
    · rintro ⟨th, hth, hs⟩
      have hsome : ((switched k₁ t k₁.running c).threads t').isSome = (k₁.threads t').isSome :=
        switched_isSome t k₁.running t' c
      rw [hth] at hsome
      obtain ⟨th', ht'⟩ := Option.isSome_iff_exists.1 hsome
      obtain ⟨th₀, hth₀, hst, -⟩ := switched_thread ht'
      obtain rfl : th = th₀ := Option.some.inj (hth.symm.trans hth₀)
      refine ⟨th', ht', ?_⟩
      rw [hst]
      split_ifs
      · simp
      · exact hs
  · intro s
    unfold switched saveContext
    split_ifs <;> rfl
  · intro o a hno ho
    unfold switched saveContext at ho
    split_ifs at ho
    · exact ho
    · rcases List.mem_append.1 ho with ho | ho
      · exact ho
      · rw [List.mem_singleton, Note.freedWrite.injEq] at ho
        exact absurd (ho.1 ▸ hw _) hno
  · unfold switched saveContext
    split_ifs <;> rfl

/-- The only semaphores `arrive` may find deleted are those of a `timedBlock`
that some thread is to go on from. -/
theorem arrive_dispatched (h : k.arrive c = .ok k')
    (hp : k.Placed (park (fun _ => none) k.running c) loc) (hw : ∀ t, w (.context t))
    (hsem : ∀ s, k.sems s = none →
      (c = .timedBlock s ∨ ∃ t ≠ k.running, k.Resumes t (.timedBlock s)) → w (.sem s)) :
    Dispatched w k c k' := by
  obtain ⟨k₁, loc₁, t, th, hs, -, -, -, hlive, -, hrun, hrec, hst, -, hr⟩ := arrive_split h hp
  have hsweep : Calm w k k₁ :=
    foreachWhile_rel .refl .trans (fun _ _ _ => deleteThreadInDispatch_calm) hs
  rw [← hsweep.running] at hrun hrec hr
  have hswitch := switched_dispatched hrun hlive hw
  refine (hsweep.dispatched hswitch).calm (resume_calm hr (hrun.symm ▸ hrec) hst ?_)
  intro s hc hn
  have hclosed : k.sems s = none := by
    have := (hswitch.opens s).trans (hsweep.opens s)
    simpa [hn] using this
  apply hsem s hclosed
  obtain ⟨th₀, hth₀, -, hctx⟩ := switched_thread hrec
  split_ifs at hctx with ho
  · exact Or.inl (hctx.symm.trans hc)
  · refine Or.inr ⟨t, hsweep.running ▸ ho, (hsweep.resumes t _).1 ⟨th₀, hth₀, ?_, hctx.symm.trans hc⟩⟩
    simpa [isFinished, hth₀] using hlive

/-! Any event. -/

/-- The unfinished thread `t` has the parent `p`. -/
def Child (k : Kernel) (p t : Tid) : Prop :=
  ∃ th, k.threads t = some th ∧ th.threadState ≠ .finished ∧ th.parentThread = some p

instance (k : Kernel) (p t : Tid) : Decidable (k.Child p t) :=
  inferInstanceAs (Decidable (∃ th ∈ k.threads t,
    th.threadState ≠ .finished ∧ th.parentThread = some p))

/-- The deleted objects a step from `k` may write: the record of the thread that
gives up the processor, the semaphore of a `timedBlock` some thread is to go on
from, and the parent of the running thread. -/
def Expected (k : Kernel) : Freed → Prop
  | .context _ => True
  | .sem s => k.sems s = none ∧ ∃ t ≠ k.running, k.Resumes t (.timedBlock s)
  | .parent p => k.threads p = none ∧ k.Child p k.running

/-- The thread an event may finish. -/
def ended (k : Kernel) : Event → Option Tid
  | .threadExit => some k.running
  | .subtleKill t => some t
  | _ => none

/-- What an event does to the lives of objects. -/
structure Passes (k : Kernel) (e : Event) (k' : Kernel) : Prop where
  resumes : ∀ t s, t ≠ k'.running → k'.Resumes t (.timedBlock s) →
    t ≠ k.running ∧ k.Resumes t (.timedBlock s) ∨ k'.sems s ≠ none
  opens : ∀ s, k.sems s ≠ none → e ≠ .semClose (some s) → k'.sems s ≠ none
  alive : ∀ t, k'.Alive t → k.Alive t ∨ (∃ body stack, e = .threadCreate body stack) ∧ t = k.ID + 1
  survives : ∀ t, k.Alive t → k'.Alive t ∨ k.ended e = some t
  strays : ∀ o a, ¬k.Expected o → Note.freedWrite o a ∈ k'.trace → Note.freedWrite o a ∈ k.trace
  listed : (∀ n, e ≠ .semOpen n) → (∀ s, e ≠ .semClose (some s)) →
    k'.allSemaphores = k.allSemaphores ∧ ∀ s, (k'.sems s).isSome = (k.sems s).isSome

theorem open_iff {o o' : Option Sem} (h : o'.isSome = o.isSome) : o' ≠ none ↔ o ≠ none := by
  rw [← Option.isSome_iff_ne_none, h, Option.isSome_iff_ne_none]

theorem Calm.passes {e : Event} (h : Calm k.Expected k k') : Passes k e k' := by
  refine ⟨fun t s ht hr => Or.inl ⟨h.running ▸ ht, (h.resumes t _).1 hr⟩,
    fun s hs _ => (open_iff (h.opens s)).2 hs, fun t ht => Or.inl ((h.alive t).1 ht),
    fun t ht => Or.inl ((h.alive t).2 ht), h.strays,
    fun _ _ => ⟨h.listed, h.opens⟩⟩

theorem Dispatched.passes {e : Event} (h : Dispatched k.Expected k c k')
    (hopen : ∀ s, c = .timedBlock s → k.sems s ≠ none) : Passes k e k' := by
  refine ⟨fun t s ht hr => ?_, fun s hs _ => (open_iff (h.opens s)).2 hs,
    fun t ht => Or.inl ((h.alive t).1 ht), fun t ht => Or.inl ((h.alive t).2 ht), h.strays,
    fun _ _ => ⟨h.listed, h.opens⟩⟩
  rcases h.resumes t _ ht hr with ⟨-, hc⟩ | hold
  · exact Or.inr ((open_iff (h.opens s)).2 (hopen s hc.symm))
  · exact Or.inl hold

theorem resetTime_calm (k : Kernel) : Calm w k { k with runningThreadCpuTime := 0 } :=
  ⟨fun _ _ => Iff.rfl, fun _ => rfl, fun _ _ _ h => h, rfl, rfl⟩

/-- What the deleted objects that a `dispatch` from `k` writes may be. -/
def Covers (w : Freed → Prop) (k : Kernel) : Prop :=
  (∀ t, w (.context t)) ∧
    ∀ s, k.sems s = none → (∃ t ≠ k.running, k.Resumes t (.timedBlock s)) → w (.sem s)

theorem expected_covers (k : Kernel) : Covers k.Expected k :=
  ⟨fun _ => trivial, fun _ hn hr => ⟨hn, hr⟩⟩

theorem memory_calm (k : Kernel) (hp : Heap) (u : List ℕ) : Calm w k { k with heap := hp, user := u } :=
  ⟨fun _ _ => Iff.rfl, fun _ => rfl, fun _ _ _ h => h, rfl, rfl⟩

/-- `dispatch` after a stretch in which the running thread has run on. -/
theorem dispatched_of_leave {k₁ : Kernel} (hw : Covers w k) (hc : Calm w k k₁)
    (h : k₁.dispatch c = .ok k')
    (hp : ∀ k₂, ({ k₁ with runningThreadCpuTime := 0 } : Kernel).leave = .ok k₂ →
      k₂.Placed (park (fun _ => none) k.running c) loc)
    (hopen : ∀ s, c = .timedBlock s → k.sems s ≠ none) : Dispatched w k c k' := by
  obtain ⟨k₂, hlv, ha⟩ := dispatch_ok h
  have hc₂ : Calm w k k₂ := (hc.trans (resetTime_calm k₁)).trans (leave_calm hlv)
  refine hc₂.dispatched (arrive_dispatched ha (by rw [hc₂.running]; exact hp k₂ hlv) hw.1
    fun s hs hcase => ?_)
  have hclosed : k.sems s = none := by
    have := hc₂.opens s
    simpa [hs] using this
  apply hw.2 s hclosed
  rcases hcase with hctx | ⟨t, ht, hr⟩
  · exact absurd hclosed (hopen s hctx)
  · exact ⟨t, hc₂.running ▸ ht, (hc₂.resumes t _).1 hr⟩

/-- The dispatch of a thread that has made itself a place to wait at. -/
theorem parked_passes {k₁ : Kernel} {pl : Place} {e : Event} (hc : Calm k.Expected k k₁)
    (hpark : Parks k loc c pl k₁) (h : k₁.dispatch c = .ok k')
    (hopen : ∀ s, c = .timedBlock s → k.sems s ≠ none) : Passes k e k' := by
  exact (dispatched_of_leave (expected_covers k) hc h (fun _ hlv => hpark.leave hlv) hopen).passes
    hopen

theorem dispatch_dispatched {k₁ : Kernel} (hc : Calm k.Expected k k₁) (hl : k₁.Located loc)
    (h : k₁.dispatch .toUser = .ok k') : Dispatched k.Expected k .toUser k' := by
  have hp : ∀ k₂, ({ k₁ with runningThreadCpuTime := 0 } : Kernel).leave = .ok k₂ →
      k₂.Placed (park (fun _ => none) k.running .toUser) (Function.update loc k.running .ready) := by
    rw [← hc.running]
    exact fun _ => hl.leave
  exact dispatched_of_leave (expected_covers k) hc h hp fun s hs => by cases hs

theorem addVal_open {d : ℤ} {r : ℤ × Kernel} (h : k.addVal s d = .ok r) : k.sems s ≠ none := by
  obtain ⟨m, hm, -⟩ := addVal_ok h
  simp [hm]

theorem wait_passes {e : Event} (h : k.wait s = .ok k') (hl : k.Located loc) : Passes k e k' := by
  obtain ⟨r, ha, ⟨-, rfl⟩ | ⟨-, hb⟩⟩ := wait_ok h
  · exact ((addVal_calm ha).trans (note_calm _ (by simp))).passes
  · obtain ⟨k₁, hadd, hd⟩ := block_ok hb
    rw [addVal_running ha] at hadd hd
    have hc : Calm k.Expected k ((k₁.setThreadsSemStatus k.running .waiting).setMySem k.running
        (some s)) := (((addVal_calm ha).trans (addBlocked_calm hadd)).trans
      (setThreadsSemStatus_calm _ _ _)).trans (setMySem_calm _ _ _)
    exact parked_passes hc (block_parks ha hadd hl) hd fun s' hs => by cases hs

theorem timedWait_passes {m : UInt64} {e : Event} (h : k.timedWait s m = .ok k')
    (hl : k.Located loc) : Passes k e k' := by
  obtain ⟨r, ha, ⟨-, rfl⟩ | ⟨-, k₁, k₂, k₃, hadd, hne, hi, hn, hpark, hd⟩⟩ := timedWait_parks h hl
  · exact ((addVal_calm ha).trans (note_calm _ (by simp))).passes
  · have htiming : Calm k.Expected r.2 (r.2.timing k.running (wrap (m.toNat + r.2.sysTime))) :=
      (setThreadsSemStatus_calm _ _ _).trans (setTimeForWakingUp_calm _ _ _)
    have hc : Calm k.Expected k (k₃.setMySem k.running (some s)) :=
      (((((addVal_calm ha).trans htiming).trans (addBlocked_calm hadd)).trans
        (insertAsleep_calm hi hne)).trans (incTimedWaiting_calm hn)).trans (setMySem_calm _ _ _)
    apply parked_passes hc hpark hd
    intro s' hs
    cases hs
    exact addVal_open ha

theorem putThreadToSleep_passes {m : UInt64} {e : Event} (h : k.putThreadToSleep m = .ok k')
    (hl : k.Located loc) : Passes k e k' := by
  obtain ⟨k₁, hne, hi, hpark, hd⟩ := putThreadToSleep_parks h hl
  obtain ⟨th, hth, -, hst⟩ := cpu_state hl.placed hl.running_cpu
  have hf : th.threadState ≠ .finished := by rcases hst with h | h <;> simp [h]
  have hc : Calm k.Expected k k₁ :=
    ((setThreadState_calm hth hf (by simp)).trans (setTimeForWakingUp_calm _ _ _)).trans
      (insertAsleep_calm hi hne)
  exact parked_passes hc hpark hd fun s' hs => by cases hs

theorem timerInterruptHandler_passes {e : Event} (h : k.timerInterruptHandler = .ok k')
    (hl : k.Located loc) : Passes k e k' := by
  obtain ⟨k₁, th, hw, -, hcase⟩ := timerInterruptHandler_ok h
  obtain ⟨_, _, -, -, -, hl₁, -⟩ := wake_located hw hl
  have htime : Calm k.Expected k k.incTime := ⟨fun _ _ => Iff.rfl, fun _ => rfl, fun _ _ _ h => h, rfl, rfl⟩
  have hloop : Calm k.Expected k.incTime k₁ :=
    foreachWhile_rel .refl .trans (fun _ _ _ => wakeThreadUp_calm) hw
  have hc : Calm k.Expected k k₁ := htime.trans hloop
  rcases hcase with ⟨-, hd⟩ | ⟨-, rfl⟩
  · exact (dispatch_dispatched hc hl₁ hd).passes fun s hs => by cases hs
  · exact hc.passes

theorem signal_calm {r : ℤ × Kernel} (h : k.signal s = .ok r) : Calm w k r.2 := by
  obtain ⟨val, k₁, ha, ⟨-, rfl⟩ | ⟨-, k', hu, rfl⟩⟩ := signal_ok h
  · exact (addVal_calm ha).trans (note_calm _ (by simp))
  · exact ((addVal_calm ha).trans (note_calm _ (by simp))).trans (unblock_calm hu)

theorem deleteSem_passes (h : k.deleteSem s = .ok k') : Passes k (.semClose (some s)) k' := by
  obtain ⟨m, k₁, -, hu, rfl⟩ := deleteSem_ok h
  have hc : Passes k (.semClose (some s)) k₁ := (unblockAll_calm hu).passes
  have hsem : ∀ s', s' ≠ s → Function.update k₁.sems s none s' = k₁.sems s' := fun s' hs' =>
    Function.update_of_ne hs' _ _
  refine ⟨?_, ?_, hc.alive, hc.survives, hc.strays, fun _ hno => absurd rfl (hno s)⟩
  · intro t s' ht hr
    exact Or.inl ⟨(unblockAll_stays hu).running ▸ ht, ((unblockAll_calm (w := k.Expected) hu).resumes t _).1 hr⟩
  · intro s' hs' hne
    have hs : s' ≠ s := by
      rintro rfl
      exact hne rfl
    exact (hsem s' hs).trans_ne (hc.opens s' hs' hne)

theorem newSem_passes {n : UInt32} (h : k.newSem n.toUInt64 = .ok k') :
    Passes k (.semOpen n) k' := by
  obtain ⟨p, hp, node, hp', -, -, rfl⟩ := newSem_ok h
  refine ⟨fun t s ht hr => Or.inl ⟨ht, hr⟩, fun s hs _ => ?_, fun _ h => Or.inl h, fun _ h => Or.inl h,
    fun _ _ _ h => h, fun hno _ => absurd rfl (hno n)⟩
  dsimp only
  by_cases he : s = k.nextSem
  · simp [he]
  · rwa [Function.update_of_ne he]

theorem newThread_passes {body : UInt64} {stack : ℕ} (h : k.newThread body stack = .ok k')
    (hi : k.Inv) : Passes k (.threadCreate body stack) k' := by
  obtain ⟨-, p, hp, k₁, -, hk₁, rfl⟩ := newThread_ok h
  have hmem := memory_calm (w := k.Expected) k hp (k.user.erase stack)
  have hput : Calm k.Expected k k₁ := by
    rcases hk₁ with ⟨-, hput⟩ | ⟨-, rfl⟩
    · exact hmem.trans (put_calm hput)
    · exact hmem
  have hc : Calm k.Expected k k₁.countChild :=
    hput.trans (modifyThread_calm fun th _ => ⟨rfl, Iff.rfl⟩)
  have hnone : k.threads (k.ID + 1) = none := hi.freshThread _ (by omega)
  have hother : ∀ t c, t ≠ k.ID + 1 →
      ((k₁.countChild.enroll (k.ID + 1) p (k.newborn body stack)).Resumes t c ↔ k.Resumes t c) :=
    fun t c ht => (resumes_congr (Function.update_of_ne ht _ _)).trans (hc.resumes t c)
  refine ⟨fun t s ht hr => ?_, fun s hs _ => (open_iff (hc.opens s)).2 hs, fun t ht => ?_,
    fun t ht => ?_, hc.strays, fun _ _ => ⟨hc.listed, hc.opens⟩⟩
  · have hne : t ≠ k.ID + 1 := by
      rintro rfl
      obtain ⟨th, hth, -, hctx⟩ := hr
      simp only [enroll, Function.update_self, Option.some.injEq] at hth
      subst hth
      cases hctx
    exact Or.inl ⟨hc.running ▸ ht, (hother t _ hne).1 hr⟩
  · by_cases hne : t = k.ID + 1
    · exact Or.inr ⟨⟨body, stack, rfl⟩, hne⟩
    · obtain ⟨c, hr⟩ := ht
      exact Or.inl ⟨c, (hother t c hne).1 hr⟩
  · obtain ⟨c, hr⟩ := ht
    have hne : t ≠ k.ID + 1 := by
      rintro rfl
      obtain ⟨th, hth, -⟩ := hr
      simp [hnone] at hth
    exact Or.inl ⟨c, (hother t c hne).2 hr⟩

/-- The thread `t` finishes. -/
theorem setFinished_resumes (k : Kernel) (t t' : Tid) (c : Context) :
    (k.setFinished t).Resumes t' c ↔ t' ≠ t ∧ k.Resumes t' c := by
  by_cases he : t' = t
  · subst he
    simp [Resumes]
  · simp [Resumes, he]

theorem setFinished_alive (k : Kernel) (t t' : Tid) :
    (k.setFinished t).Alive t' ↔ t' ≠ t ∧ k.Alive t' := by
  simp only [Alive, setFinished_resumes, exists_and_left]

theorem decNumOfChildren_calm (p : Tid) (hw : k.threads p = none → w (.parent p)) :
    Calm w k (k.decNumOfChildren p) := by
  unfold decNumOfChildren
  split_ifs with hv
  · exact modifyThread_calm fun th _ => ⟨rfl, Iff.rfl⟩
  · apply note_calm k
    intro o a ho
    cases ho
    exact hw (by simpa [isThreadValid] using hv)

theorem exit_passes (h : k.exit = .ok k') (hl : k.Located loc) : Passes k .threadExit k' := by
  obtain ⟨th, k₁, hth, hk₁, hd⟩ := exit_ok h
  obtain ⟨th₀, hth₀, -, hst⟩ := cpu_state hl.placed hl.running_cpu
  obtain rfl : th = th₀ := Option.some.inj (hth.symm.trans hth₀)
  have hf : th.threadState ≠ .finished := by rcases hst with h | h <;> simp [h]
  have h₁ : Calm k.Expected k k₁ ∧ k₁.Located loc := by
    rcases hk₁ with ⟨rfl, -⟩ | ⟨p, hp, rfl⟩
    · exact ⟨.refl _, hl⟩
    · exact ⟨decNumOfChildren_calm p fun hn => ⟨hn, th, hth, hf, hp⟩,
        (decNumOfChildren_located (r := none) hl p).1⟩
  obtain ⟨hc, hl₁⟩ := h₁
  rw [← hc.running] at hd
  have hcov : Covers k.Expected (k₁.setFinished k₁.running) := by
    refine ⟨fun _ => trivial, fun s hn ⟨t, ht, hr⟩ => ⟨?_, t, hc.running ▸ ht, ?_⟩⟩
    · have := hc.opens s
      rw [show k₁.sems s = none from hn] at this
      simpa using this.symm
    · exact (hc.resumes t _).1 ((setFinished_resumes ..).1 hr).2
  have hp : ∀ k₂, ({ k₁.setFinished k₁.running with runningThreadCpuTime := 0 } : Kernel).leave =
      .ok k₂ → k₂.Placed (park (fun _ => none) k₁.running .toUser)
        (Function.update loc k₁.running .gone) := fun k₂ hlv => exit_leave hl₁ hlv
  have hdisp : Dispatched k.Expected (k₁.setFinished k₁.running) .toUser k' :=
    dispatched_of_leave hcov (.refl _) hd hp fun s hs => by cases hs
  refine ⟨fun t s ht hr => Or.inl ?_, fun s hs _ => ?_, fun t ht => Or.inl ?_, fun t ht => ?_,
    fun o a hno ho => hc.strays o a hno (hdisp.strays o a hno ho), fun _ _ =>
      ⟨hdisp.listed.trans hc.listed, fun s => (hdisp.opens s).trans (hc.opens s)⟩⟩
  · rcases hdisp.resumes t _ ht hr with ⟨-, hctx⟩ | ⟨hne, hr⟩
    · cases hctx
    · exact ⟨hc.running ▸ hne, (hc.resumes t _).1 ((setFinished_resumes ..).1 hr).2⟩
  · exact (open_iff ((hdisp.opens s).trans (hc.opens s))).2 hs
  · exact (hc.alive t).1 ((setFinished_alive ..).1 ((hdisp.alive t).1 ht)).2
  · by_cases he : t = k.running
    · exact Or.inr (he ▸ rfl)
    · exact Or.inl ((hdisp.alive t).2 ((setFinished_alive ..).2 ⟨hc.running ▸ he, (hc.alive t).2 ht⟩))

theorem subtleKill_passes (k : Kernel) (t : Tid) :
    Passes k (.subtleKill t) (k.subtleKill t).2 := by
  have hsame : Passes k (.subtleKill t) k := (Calm.refl k).passes
  unfold subtleKill
  split
  · exact hsame
  · split_ifs
    · exact hsame
    · exact hsame
    · refine ⟨fun t' s ht hr => Or.inl ⟨ht, ((setFinished_resumes ..).1 hr).2⟩, fun _ hs _ => hs,
        fun t' ht => Or.inl ((setFinished_alive ..).1 ht).2, fun t' ht => ?_, fun _ _ _ h => h,
        fun _ _ => ⟨rfl, fun _ => rfl⟩⟩
      by_cases he : t' = t
      · exact Or.inr (he ▸ rfl)
      · exact Or.inl ((setFinished_alive ..).2 ⟨he, ht⟩)

theorem step_passes {e : Event} (h : k.step e = .ok k') (hi : k.Inv) : Passes k e k' := by
  obtain ⟨loc, hl⟩ := hi.located
  cases step_effect h with
  | idle => exact (Calm.refl k).passes
  | memAlloc p hp => exact (memory_calm k _ _).passes
  | memFree => exact (memory_calm k _ _).passes
  | threadCreate h => exact newThread_passes h hi
  | threadExit h => exact exit_passes h hl
  | threadDispatch h =>
    exact (dispatch_dispatched (.refl k) hl h).passes fun s hs => by cases hs
  | semOpen h => exact newSem_passes h
  | semClose s h => exact deleteSem_passes h
  | semWait s h => exact wait_passes h hl
  | semSignal s hr => exact (signal_calm hr).passes
  | semTimedwait s h => exact timedWait_passes h hl
  | semTrywait s hr => exact (addVal_calm hr).passes
  | timeSleep h => exact putThreadToSleep_passes h hl
  | tick h => exact timerInterruptHandler_passes h hl
  | subtleKill t => exact subtleKill_passes k t

end Kernel
end OSK
