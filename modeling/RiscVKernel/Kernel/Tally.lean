import RiscVKernel.Kernel.Dispatch
import RiscVKernel.Lib.Counter

/-! Each open semaphore is a counting semaphore: every call moves its counter
by steps of `Lib.Counter`, and moves no other one. -/

namespace OSK

open Lib

/-- A unit of `s` goes to a caller, at once or by a signal. -/
def Note.acquires (s : SemId) : Note → Bool
  | .answer _ s' .didntWait => s' = s
  | .dequeued _ s' .regularlyWaited => s' = s
  | _ => false

def Note.signals (s : SemId) : Note → Bool
  | .signalled s' => s' = s
  | _ => false

/-- The units of `s` that were acquired in a run, and the signals to `s`. -/
def acquired (s : SemId) (trace : List Note) : ℕ := trace.countP (Note.acquires s)

def signals (s : SemId) (trace : List Note) : ℕ := trace.countP (Note.signals s)

/-- A note that concerns no semaphore's account. -/
def Note.Neutral (n : Note) : Prop := ∀ s, n.acquires s = false ∧ n.signals s = false

namespace Kernel

def counter (k : Kernel) (s : SemId) : Option Counter :=
  (k.sems s).map fun m => ⟨m.val, m.queueBlocked.length, signals s k.trace, acquired s k.trace⟩

/-- Nothing happens to the account of `s`. -/
structure QuietAt (s : SemId) (k k' : Kernel) : Prop where
  level : (k'.sems s).map (fun m => (m.val, m.queueBlocked.length)) =
    (k.sems s).map fun m => (m.val, m.queueBlocked.length)
  signals : signals s k'.trace = signals s k.trace
  acquired : acquired s k'.trace = acquired s k.trace

def Quiet (k k' : Kernel) : Prop := ∀ s, QuietAt s k k'

/-- The account of `s` moves by steps of a counting semaphore while `s` is
open, and stands still while it is not. -/
structure TracksAt (tries : ℤ → Prop) (s : SemId) (k k' : Kernel) : Prop where
  closed : k.sems s = none → k'.sems s = none ∧
    signals s k'.trace = signals s k.trace ∧ acquired s k'.trace = acquired s k.trace
  live : ∀ c c', k.counter s = some c → k'.counter s = some c' → Counter.Steps tries c c'

variable {k k' k₂ : Kernel} {t : Tid} {s s' : SemId} {cause : SemStatus} {c : Context}
  {tries : ℤ → Prop} {pend : Tid → Option Context} {loc : Tid → Place} {th : Thread}

theorem QuietAt.refl (s : SemId) (k : Kernel) : QuietAt s k k := ⟨rfl, rfl, rfl⟩

theorem QuietAt.trans (h : QuietAt s k k') (h' : QuietAt s k' k₂) : QuietAt s k k₂ :=
  ⟨h'.level.trans h.level, h'.signals.trans h.signals, h'.acquired.trans h.acquired⟩

theorem Quiet.refl (k : Kernel) : Quiet k k := fun s => .refl s k

theorem Quiet.trans (h : Quiet k k') (h' : Quiet k' k₂) : Quiet k k₂ :=
  fun s => (h s).trans (h' s)

theorem QuietAt.counter (h : QuietAt s k k') : k'.counter s = k.counter s := by
  have hl := h.level
  unfold Kernel.counter
  rw [h.signals, h.acquired]
  cases hm : k.sems s <;> cases hm' : k'.sems s <;> simp_all

theorem QuietAt.tracks (h : QuietAt s k k') : TracksAt tries s k k' := by
  refine ⟨fun hs => ⟨?_, h.signals, h.acquired⟩, ?_⟩
  · have := h.level
    simpa [hs] using this
  · intro c c' hc hc'
    rw [h.counter, hc, Option.some.injEq] at hc'
    subst hc'
    exact .refl

theorem counter_none : k.counter s = none ↔ k.sems s = none := by
  simp [Kernel.counter]

theorem TracksAt.trans (h : TracksAt tries s k k') (h' : TracksAt tries s k' k₂)
    : TracksAt tries s k k₂ := by
  constructor
  · intro hs
    obtain ⟨h1, h2, h3⟩ := h.closed hs
    obtain ⟨h4, h5, h6⟩ := h'.closed h1
    exact ⟨h4, h5.trans h2, h6.trans h3⟩
  · intro c c₂ hc hc₂
    cases hc' : k'.counter s with
    | none =>
      have := (h'.closed (counter_none.1 hc')).1
      rw [← counter_none, hc₂] at this
      cases this
    | some c' => exact (h.live c c' hc hc').trans (h'.live c' c₂ hc' hc₂)

/-- One step of the counter. -/
theorem TracksAt.of_step {c₀ c₁ : Counter} (h₀ : k.counter s = some c₀)
    (h₁ : k'.counter s = some c₁) (hs : Counter.Step tries c₀ c₁) : TracksAt tries s k k' := by
  constructor
  · intro hn
    rw [counter_none.2 hn] at h₀
    cases h₀
  · intro c c' hc hc'
    rw [h₀, Option.some.injEq] at hc
    rw [h₁, Option.some.injEq] at hc'
    subst hc hc'
    exact .single hs

/-! The calls that leave all accounts alone. -/

theorem quiet_of_eq (hs : k'.sems = k.sems) (ht : k'.trace = k.trace) : Quiet k k' :=
  fun s => ⟨by rw [hs], by rw [ht], by rw [ht]⟩

theorem note_quiet (k : Kernel) {n : Note} (hn : n.Neutral) : Quiet k (k.note n) := by
  intro s
  refine ⟨rfl, ?_, ?_⟩
  · simp [OSK.signals, (hn s).2]
  · simp [OSK.acquired, (hn s).1]

theorem setSem_quiet {m m' : Sem} (hm : k.sems s = some m) (hv : m'.val = m.val)
    (hq : m'.queueBlocked.length = m.queueBlocked.length) : Quiet k (k.setSem s m') := by
  intro s'
  refine ⟨?_, rfl, rfl⟩
  by_cases h : s' = s
  · subst h
    simp [hm, hv, hq]
  · simp [h]

theorem modifyThread_quiet (k : Kernel) (t : Tid) (f : Thread → Thread) :
    Quiet k (k.modifyThread t f) := quiet_of_eq rfl rfl

theorem removeReady_quiet (k : Kernel) (t : Tid) : Quiet k (k.removeReady t).2 :=
  quiet_of_eq rfl rfl

theorem put_quiet (h : k.put t = .ok k') : Quiet k k' := by
  obtain ⟨node, hp, -, rfl⟩ := put_ok h
  exact quiet_of_eq rfl rfl

theorem insertAsleep_quiet (h : k.insertAsleep t = .ok k') (ht : k.threads t ≠ none) :
    Quiet k k' := by
  obtain ⟨node, hp, -, rfl⟩ := insertAsleep_ok h ht
  exact quiet_of_eq rfl rfl

theorem incTimedWaiting_quiet (h : k.incTimedWaiting s = .ok k') : Quiet k k' := by
  obtain ⟨m, hm, rfl⟩ := incTimedWaiting_ok h
  exact setSem_quiet hm rfl rfl

theorem freedWrite_neutral (o : Freed) (a : ℕ) : (Note.freedWrite o a).Neutral :=
  fun _ => ⟨rfl, rfl⟩

theorem decTimedWaiting_quiet (k : Kernel) (s : SemId) : Quiet k (k.decTimedWaiting s) := by
  unfold decTimedWaiting
  cases hm : k.sems s with
  | none => exact note_quiet _ (freedWrite_neutral _ _)
  | some m => exact setSem_quiet hm rfl rfl

theorem decTimedWaiting_threads (k : Kernel) (s : SemId) :
    (k.decTimedWaiting s).threads = k.threads := by
  unfold decTimedWaiting
  split <;> rfl

theorem saveContext_quiet (k : Kernel) (t : Tid) (c : Context) : Quiet k (k.saveContext t c) := by
  unfold saveContext
  split_ifs
  · exact quiet_of_eq rfl rfl
  · exact note_quiet _ (freedWrite_neutral _ _)

theorem decNumOfChildren_quiet (k : Kernel) (t : Tid) : Quiet k (k.decNumOfChildren t) := by
  unfold decNumOfChildren
  split_ifs
  · exact quiet_of_eq rfl rfl
  · exact note_quiet _ (freedWrite_neutral _ _)

theorem deleteThread_quiet (h : k.deleteThread t = .ok k') : Quiet k k' := by
  obtain ⟨th, -, rfl⟩ := deleteThread_ok h
  exact quiet_of_eq rfl rfl

theorem deleteThreadInDispatch_quiet (h : k.deleteThreadInDispatch t = .ok k') : Quiet k k' := by
  unfold deleteThreadInDispatch at h
  dsimp only at h
  split_ifs at h
  · exact (removeReady_quiet k t).trans (deleteThread_quiet h)
  · cases h
    exact removeReady_quiet k t

theorem sweep_quiet {ts : List Tid}
    (h : foreachWhile deleteThreadInDispatch threadDead ts k = .ok k') : Quiet k k' :=
  foreachWhile_rel (R := Quiet) .refl .trans (fun _ _ _ => deleteThreadInDispatch_quiet) h

theorem leave_quiet (h : k.leave = .ok k') : Quiet k k' := by
  obtain ⟨th, -, ⟨-, hput⟩ | ⟨-, rfl⟩ | ⟨-, hd⟩⟩ := leave_ok h
  · exact (modifyThread_quiet _ _ _).trans (put_quiet hput)
  · exact .refl _
  · exact deleteThread_quiet hd

/-- The answer of a resumed thread is never that it did not wait. -/
theorem generateWaitResponses_quiet (h : k.generateWaitResponses s = .ok k')
    (hth : k.threads k.running = some th) (hw : th.semStatus.Woken) : Quiet k k' := by
  obtain ⟨th', a, hth', ha, rfl⟩ := generateWaitResponses_ok h
  rw [hth] at hth'
  cases hth'
  have hne : a ≠ .didntWait := by
    intro he
    rw [ha he] at hw
    exact hw
  refine (modifyThread_quiet k k.running _).trans (note_quiet _ ?_)
  intro s'
  cases a with
  | didntWait => exact absurd rfl hne
  | _ => exact ⟨rfl, rfl⟩

theorem resume_quiet (h : k.resume = .ok k') (hth : k.threads k.running = some th)
    (hc : th.context.Awaits th.semStatus) : Quiet k k' := by
  obtain ⟨th₀, hth₀, hcase⟩ := resume_ok h
  rw [hth] at hth₀
  cases hth₀
  rcases hcase with ⟨hctx, rfl⟩ | ⟨s, hctx, hb⟩ | ⟨s, hctx, hb⟩ | ⟨hctx, rfl⟩
  · exact .refl _
  · rw [hctx] at hc
    have hth' : (k.setMySem k.running none).threads k.running = some { th with mySem := none } := by
      simp [hth]
    exact (modifyThread_quiet k k.running _).trans (generateWaitResponses_quiet hb hth' hc)
  · rw [hctx] at hc
    have hth' : (((k.setMySem k.running none).decTimedWaiting s).setTimeForWakingUp k.running
        0).threads k.running = some { th with mySem := none, timeForWakingUp := 0 } := by
      simp [decTimedWaiting_threads, hth]
    have hrun := (afterTimedBlock_before k s).running
    exact ((modifyThread_quiet k k.running _).trans (decTimedWaiting_quiet _ s)).trans
      ((modifyThread_quiet _ k.running _).trans
        (generateWaitResponses_quiet hb ((congrArg _ hrun).trans hth') hc))
  · exact quiet_of_eq rfl rfl

theorem switched_quiet (k₁ : Kernel) (t old : Tid) (c : Context) :
    Quiet k₁ (switched k₁ t old c) := by
  have h : Quiet k₁ (setThreadState { k₁.get.2 with running := t } t .running) :=
    quiet_of_eq rfl rfl
  exact h.trans (saveContext_quiet _ _ _)

theorem arrive_quiet (h : k.arrive c = .ok k')
    (hp : k.Placed (park (fun _ => none) k.running c) loc) : Quiet k k' := by
  obtain ⟨k₁, loc₁, t, th, hs, -, -, -, -, -, hrun, hrec, -, haw, hr⟩ := arrive_split h hp
  exact ((sweep_quiet hs).trans (switched_quiet _ _ _ _)).trans
    (resume_quiet hr ((congrArg _ hrun).trans hrec) haw)

/-! The calls that move the account of one semaphore. -/

theorem counter_some {m : Sem} (hm : k.sems s = some m) :
    k.counter s = some ⟨m.val, m.queueBlocked.length, signals s k.trace, acquired s k.trace⟩ := by
  simp [Kernel.counter, hm]

theorem addVal_counter {d : ℤ} {r : ℤ × Kernel} (h : k.addVal s d = .ok r) :
    ∃ c, k.counter s = some c ∧ r.1 = c.val + d ∧ r.2.counter s = some { c with val := c.val + d } := by
  obtain ⟨m, hm, -, rfl⟩ := addVal_ok h
  exact ⟨_, counter_some hm, rfl, by simp [Kernel.counter]⟩

theorem addVal_quietAt {d : ℤ} {r : ℤ × Kernel} (h : k.addVal s d = .ok r) (hs : s' ≠ s) :
    QuietAt s' k r.2 := by
  obtain ⟨m, hm, -, rfl⟩ := addVal_ok h
  exact ⟨by simp [hs], rfl, rfl⟩

theorem addBlocked_counter (h : k.addBlocked s t = .ok k') {c : Counter}
    (hc : k.counter s = some c) : k'.counter s = some { c with blocked := c.blocked + 1 } := by
  obtain ⟨m, node, hp, hm, -, rfl⟩ := addBlocked_ok h
  rw [counter_some hm, Option.some.injEq] at hc
  subst hc
  simp [Kernel.counter]

theorem addBlocked_quietAt (h : k.addBlocked s t = .ok k') (hs : s' ≠ s) : QuietAt s' k k' := by
  obtain ⟨m, node, hp, hm, -, rfl⟩ := addBlocked_ok h
  exact ⟨by simp [hs], rfl, rfl⟩

theorem note_counter (n : Note) {c : Counter} (hc : k.counter s = some c) :
    (k.note n).counter s = some
      ⟨c.val, c.blocked, c.signals + (if n.signals s then 1 else 0),
        c.acquired + if n.acquires s then 1 else 0⟩ := by
  unfold Kernel.counter at *
  obtain ⟨m, hm, rfl⟩ := Option.map_eq_some_iff.1 hc
  simp [hm, OSK.signals, OSK.acquired, List.countP_append, List.countP_cons]

theorem note_quietAt {n : Note} (ha : n.acquires s = false) (hs : n.signals s = false) :
    QuietAt s k (k.note n) := by
  refine ⟨rfl, ?_, ?_⟩
  · simp [OSK.signals, hs]
  · simp [OSK.acquired, ha]

theorem unblock_trace (h : k.unblock s cause = .ok k') :
    ∃ t, k'.trace = k.trace ++ [.dequeued t s cause] := by
  obtain ⟨t, k₁, th, hf, -, hr⟩ := unblock_ok h
  obtain ⟨m, hm, ⟨-, hr'⟩ | ⟨e, q, hq, he⟩⟩ := firstBlocked_ok hf
  · cases hr'
  cases he
  refine ⟨e.data, ?_⟩
  obtain ⟨node, hp, -, rfl⟩ := put_ok hr
  split_ifs <;> rfl

theorem unblock_counter (h : k.unblock s cause = .ok k') {c : Counter} (hc : k.counter s = some c) :
    ∃ b, c.blocked = b + 1 ∧ k'.counter s = some ⟨c.val, b, c.signals,
      c.acquired + if cause = .regularlyWaited then 1 else 0⟩ := by
  obtain ⟨m, e, q, hm, hq, hsems⟩ := unblock_sems h
  obtain ⟨t, htr⟩ := unblock_trace h
  rw [counter_some hm, Option.some.injEq] at hc
  subst hc
  refine ⟨q.length, by simp [hq], ?_⟩
  unfold Kernel.counter
  rw [hsems, htr]
  cases cause <;> simp [OSK.signals, OSK.acquired, List.countP_append, Note.signals, Note.acquires]

theorem unblock_quietAt (h : k.unblock s cause = .ok k') (hs : s' ≠ s) : QuietAt s' k k' := by
  obtain ⟨m, e, q, hm, hq, hsems⟩ := unblock_sems h
  obtain ⟨t, htr⟩ := unblock_trace h
  refine ⟨by rw [hsems, Function.update_of_ne hs], ?_, ?_⟩
  · rw [htr]
    simp [OSK.signals, List.countP_append, Note.signals]
  · rw [htr]
    cases cause <;> simp [OSK.acquired, List.countP_append, Note.acquires, hs.symm]

theorem unblockAll_quietAt {n : ℕ} (h : k.unblockAll s cause n = .ok k') (hs : s' ≠ s) :
    QuietAt s' k k' := by
  induction n generalizing k with
  | zero =>
    cases h
    exact .refl _ _
  | succ n ih =>
    obtain ⟨k₁, r, hu, ha, h⟩ := unblockAll_ok h
    exact ((unblock_quietAt hu hs).trans (addVal_quietAt ha hs)).trans (ih h)

/-- A wait that times out gives its place in the queue and its claim up. -/
theorem unblockedByTime_tracks (h : k.unblockedByTime s t = .ok k') (hp : k.Placed pend loc)
    (hloc : loc t = .timed s) (s' : SemId) : TracksAt tries s' k k' := by
  obtain ⟨th, hth, ⟨-, rfl⟩ | ⟨-, r, k₁, ha, hb, hr⟩⟩ := unblockedByTime_ok h
  · exact (QuietAt.refl _ _).tracks
  obtain ⟨m₁, hm₁, rfl⟩ := removeBlocked_ok hb
  obtain ⟨node, hq, -, rfl⟩ := put_ok hr
  obtain ⟨m₀, hm₀, hin⟩ := hp.open_queue (Or.inr hloc)
  have hm₁' : m₁ = { m₀ with val := m₀.val + 1 } := by
    have := addVal_sem ha hm₀
    exact Option.some.inj (Eq.trans hm₁.symm this)
  subst hm₁'
  by_cases hs : s' = s
  · subst hs
    obtain ⟨b, hb⟩ : ∃ b, m₀.queueBlocked.length = b + 1 := by
      apply Nat.exists_eq_succ_of_ne_zero
      intro h0
      rw [List.length_eq_zero_iff] at h0
      simp [h0] at hin
    have hlen : ∀ hp, (KList.removeSpec hp m₀.queueBlocked t).2.2.length = b := by
      intro hp
      rw [← KList.length_items, KList.removeSpec_items, List.length_erase_of_mem hin,
        KList.length_items, hb]
      rfl
    have htr : r.2.trace = k.trace := by
      obtain ⟨m, hm, -, rfl⟩ := addVal_ok ha
      rfl
    refine .of_step (counter_some hm₀) ?_ (.giveUp hb)
    simp only [Kernel.counter, note, setSem, setMySem, setThreadsSemStatus, modifyThread_sems,
      modifyThread_trace, Function.update_self, Option.map_some, hlen, OSK.signals, OSK.acquired,
      List.countP_append]
    have htr' : ((r.2.removeThreadFromSleep t).2).trace = k.trace := htr
    simp [htr', Note.signals, Note.acquires]
  · refine ((addVal_quietAt ha hs).trans ⟨?_, ?_, ?_⟩).tracks
    · simp [hs]
      rfl
    · simp [OSK.signals, List.countP_append, Note.signals]
      rfl
    · simp [OSK.acquired, List.countP_append, Note.acquires]
      rfl

theorem wakeThreadUp_tracks (h : k.wakeThreadUp t = .ok k') (hp : k.Placed pend loc)
    (hloc : loc t = .asleep ∨ ∃ s, loc t = .timed s) (s' : SemId) : TracksAt tries s' k k' := by
  obtain ⟨th, hth, hfit⟩ := hp.record (t := t) (by rcases hloc with h | ⟨s, h⟩ <;> simp [h])
  have hsleep : QuietAt s' k (k.removeThreadFromSleep t).2 := ⟨rfl, rfl, rfl⟩
  rcases wakeThreadUp_ok h hth with ⟨hst, ⟨-, rfl⟩ | ⟨s, hs, hu⟩⟩ | ⟨-, ⟨-, hput⟩ | ⟨-, rfl⟩⟩
  · exact (QuietAt.refl _ _).tracks
  · rcases hloc with hloc | ⟨s₀, hloc⟩
    · rw [hloc] at hfit
      rw [hfit.1] at hst
      cases hst
    · rw [hloc] at hfit
      rw [hfit.2.1, Option.some.injEq] at hs
      subst hs
      exact unblockedByTime_tracks hu hp hloc s'
  · exact (hsleep.trans (put_quiet hput s')).tracks
  · exact hsleep.tracks

theorem wake_loop_tracks {ts : List Tid}
    (h : foreachWhile wakeThreadUp shouldWakeUpThread ts k = .ok k')
    (hsl : k.Sleepers pend loc ts) (s : SemId) : TracksAt tries s k k' := by
  refine foreachWhile_rel_of (R := TracksAt tries s) (fun _ => (QuietAt.refl _ _).tracks) .trans
    (fun k ts => ∃ loc, k.Sleepers pend loc ts) ?_ h ⟨loc, hsl⟩
  rintro k t ts k₁ ⟨loc, hsl⟩ hw
  exact ⟨wakeThreadUp_tracks hw hsl.placed (hsl.asleep t (by simp)) s, _, (hsl.step hw).1⟩

end Kernel
end OSK
