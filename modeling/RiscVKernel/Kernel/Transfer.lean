import Mathlib.Tactic.Ring
import RiscVKernel.Kernel.Frames
import RiscVKernel.Kernel.Places

/-! How the calls of the kernel take a thread from one place to another. -/

namespace OSK

open Lib

/-- The record of a thread after `release`. -/
def Thread.released (th : Thread) (cause : SemStatus) : Thread :=
  if th.threadState = .finished then { th with mySem := none }
  else { th with mySem := none, semStatus := cause, threadState := .ready }

namespace Kernel

variable {k k' : Kernel} {t : Tid} {s : SemId} {pend : Tid → Option Context} {loc : Tid → Place}
  {th : Thread} {cause : SemStatus} {c : Context}

theorem released_fits (hc : cause.Woken) (h : th.Fits c (.blocked s) ∨ th.Fits c (.timed s)) :
    (th.released cause).Fits c .ready := by
  have hctx : c.Awaits cause := by
    rcases h with ⟨-, -, -, rfl⟩ | ⟨-, -, -, rfl⟩ <;> exact hc
  unfold Thread.released
  split_ifs with hf
  · exact Or.inl hf
  · exact Or.inr ⟨Or.inl rfl, hctx⟩

@[simp] theorem released_context : (th.released cause).context = th.context := by
  unfold Thread.released
  split_ifs <;> rfl

theorem release_record (ht : k.threads t = some th) (hrun : k.running ≠ t) (hc : cause.Woken) :
    ((k.setMySem t none).setThreadsSemStatus t cause).threads t = some (th.released cause) := by
  have hw : ¬(cause = .waiting ∨ cause = .timedWaiting) := by
    rintro (rfl | rfl) <;> exact hc
  simp only [setMySem, setThreadsSemStatus, modifyThread_threads, modifyThread_running,
    Function.update_self, ht, Option.map_some, if_neg hw, hrun, if_false, Thread.released]

theorem release_moves (h : k.release t s cause = .ok k') (ht : k.threads t = some th)
    (hrun : k.running ≠ t) (hc : cause.Woken) :
    Moves k k' t fun v => { v with thread := some (th.released cause), ready := v.ready + 1 } := by
  have hm := put_moves h
  constructor
  · rw [hm.self, ← release_record ht hrun hc]
    rfl
  · intro t' hne
    rw [hm.other t' hne]
    simp [view, queued, hne]

theorem unblock_sems (h : k.unblock s cause = .ok k') :
    ∃ m e q, k.sems s = some m ∧ m.queueBlocked = e :: q ∧
      k'.sems = Function.update k.sems s (some { m with queueBlocked := q }) := by
  obtain ⟨t, k₁, th, hf, -, hr⟩ := unblock_ok h
  obtain ⟨m, hm, ⟨-, hr'⟩ | ⟨e, q, hq, he⟩⟩ := firstBlocked_ok hf
  · cases hr'
  cases he
  refine ⟨m, e, q, hm, hq, ?_⟩
  obtain ⟨node, hp, -, rfl⟩ := put_ok hr
  split_ifs <;> rfl

/-- A thread other than the running one that stood in a queue becomes ready. -/
theorem Placed.to_ready (hp : k.Placed pend loc) {f : View → View} (hm : Moves k k' t f)
    (ht : k.threads t = some th) (hc : cause.Woken)
    (hf : (f (k.view t)).thread = some (th.released cause))
    (hr : (f (k.view t)).ready = (k.view t).ready + 1)
    (ha : (f (k.view t)).asleep = (k.view t).asleep - (loc t).inAsleep)
    (hq : (f (k.view t)).queue = Function.update (k.view t).queue s ((k.view t).queue s - 1))
    (hloc : loc t = .blocked s ∨ loc t = .timed s) :
    k'.Placed pend (Function.update loc t .ready) := by
  have hat := hp t
  have hfit := hp.fits ht
  refine hp.moves hm (fun _ _ => rfl) ⟨?_, ?_, ?_, ?_⟩
  · rw [hr, hat.ready]
    rcases hloc with hloc | hloc <;> simp [hloc, Place.inReady]
  · rw [ha, hat.asleep]
    rcases hloc with hloc | hloc <;> simp [hloc, Place.inAsleep]
  · rw [hq, hat.queue]
    funext s'
    rcases hloc with hloc | hloc <;> simp [hloc, Place.inQueue, Function.update_apply]
  · rw [hf]
    apply released_fits (s := s) hc
    rw [released_context]
    rcases hloc with hloc | hloc
    · exact Or.inl (hloc ▸ hfit)
    · exact Or.inr (hloc ▸ hfit)

theorem Placed.running_ne (hcpu : loc k.running = .cpu) (hloc : loc t ≠ .cpu) : k.running ≠ t :=
  fun he => hloc (he ▸ hcpu)

/-- The first thread in the queue of `s` becomes ready. -/
theorem unblock_placed (h : k.unblock s cause = .ok k') (hp : k.Placed pend loc)
    (hcpu : loc k.running = .cpu) (hc : cause.Woken) :
    ∃ t, (loc t = .blocked s ∨ loc t = .timed s) ∧
      k'.Placed pend (Function.update loc t .ready) ∧ ∀ t' ≠ t, k'.view t' = k.view t' := by
  obtain ⟨t, k₁, th, hf, ht, hr⟩ := unblock_ok h
  have hm₁ := firstBlocked_moves hf
  obtain ⟨m, hm, ⟨-, hr'⟩ | ⟨e, q, hq, he⟩⟩ := firstBlocked_ok hf
  · cases hr'
  cases he
  have hloc := hp.mem_queue (t := e.data) hm (by simp [hq])
  have hne : k.running ≠ e.data :=
    Placed.running_ne hcpu (by rcases hloc with hloc | hloc <;> simp [hloc])
  have hth : k.threads e.data = some th := ht
  have hfit := hp.fits hth
  refine ⟨e.data, hloc, ?_⟩
  rcases hloc with hloc | hloc
  · have hst : th.semStatus = .waiting := (hloc ▸ hfit).1
    rw [if_neg (by simp [hst])] at hr
    have hm := hm₁.trans (release_moves hr ht hne hc)
    exact ⟨hp.to_ready hm hth hc rfl rfl (by simp [hloc, Place.inAsleep]) rfl (Or.inl hloc), hm.other⟩
  · have hst : th.semStatus = .timedWaiting := (hloc ▸ hfit).1
    rw [if_pos hst] at hr
    have hm := (hm₁.trans removeThreadFromSleep_moves).trans (release_moves hr ht hne hc)
    exact ⟨hp.to_ready hm hth hc rfl rfl (by simp [hloc, Place.inAsleep]) rfl (Or.inr hloc), hm.other⟩

theorem addVal_view {d : ℤ} {r : ℤ × Kernel} (h : k.addVal s d = .ok r) (t : Tid) :
    r.2.view t = k.view t := by
  obtain ⟨m, hm, -, rfl⟩ := addVal_ok h
  exact setSem_view hm rfl

theorem addVal_sem {d : ℤ} {r : ℤ × Kernel} {m : Sem} (h : k.addVal s d = .ok r)
    (hm : k.sems s = some m) : r.2.sems s = some { m with val := m.val + d } := by
  obtain ⟨m', hm', -, rfl⟩ := addVal_ok h
  rw [hm] at hm'
  cases hm'
  simp

theorem unblockedByTime_placed (h : k.unblockedByTime s t = .ok k') (hp : k.Placed pend loc)
    (hcpu : loc k.running = .cpu) (hloc : loc t = .timed s) :
    k'.Placed pend (Function.update loc t .ready) ∧ ∀ t' ≠ t, k'.view t' = k.view t' := by
  obtain ⟨th, hth, hcase⟩ := unblockedByTime_ok h
  have hst : th.semStatus = .timedWaiting := by
    have := hp.fits hth
    rw [hloc] at this
    exact this.1
  rcases hcase with ⟨hne, -⟩ | ⟨-, r, k₁, ha, hb, hr⟩
  · exact absurd hst hne
  have hs := (addVal_stays ha).trans ((removeThreadFromSleep_stays r.2 t).trans (removeBlocked_stays hb))
  have hmid : Moves k k₁ t fun v =>
      { v with asleep := v.asleep - 1, queue := Function.update v.queue s (v.queue s - 1) } :=
    ((removeThreadFromSleep_moves (k := r.2) (t := t)).trans (removeBlocked_moves hb)).of_congr
      (addVal_view ha)
  have hth₁ : k₁.threads t = some th := by
    have := congrArg View.thread hmid.self
    exact this.trans hth
  have hne : k₁.running ≠ t := by
    rw [hs.running]
    exact Placed.running_ne hcpu (by simp [hloc])
  have hwoken : SemStatus.timeout.Woken := trivial
  have hm := hmid.trans (release_moves hr hth₁ hne hwoken)
  exact ⟨hp.to_ready hm hth hwoken rfl rfl (by simp [hloc, Place.inAsleep]) rfl
    (Or.inr hloc), hm.other⟩

/-- A thread the timer wakes becomes ready, with its wait given up if it has one. -/
theorem wakeThreadUp_placed (h : k.wakeThreadUp t = .ok k') (hp : k.Placed pend loc)
    (hcpu : loc k.running = .cpu) (hloc : loc t = .asleep ∨ ∃ s, loc t = .timed s) :
    k'.Placed pend (Function.update loc t .ready) ∧ ∀ t' ≠ t, k'.view t' = k.view t' := by
  obtain ⟨th, hth, hfit⟩ := hp.record (t := t) (by rcases hloc with h | ⟨s, h⟩ <;> simp [h])
  rcases hloc with hloc | ⟨s, hloc⟩
  · rw [hloc] at hfit
    obtain ⟨hst, hstate, hctx⟩ := hfit
    have hin : t ∈ k.listAsleepThreads.items := by
      apply List.count_pos_iff.1
      rw [hp.asleep_count, hloc]
      exact Nat.one_pos
    rcases wakeThreadUp_ok h hth with ⟨hc, -⟩ | ⟨-, ⟨-, hput⟩ | ⟨hn, -⟩⟩
    · simp [hst] at hc
    · have hm := (removeThreadFromSleep_moves (k := k) (t := t)).trans (put_moves hput)
      have hat := hp t
      refine ⟨hp.moves hm (fun _ _ => rfl) ⟨?_, ?_, ?_, ?_⟩, hm.other⟩
      · simp [hat.ready, hloc, Place.inReady]
      · simp [hat.asleep, hloc, Place.inAsleep]
      · simp [hat.queue, hloc, Place.inQueue]
      · have hth' : (k.view t).thread = some th := hth
        simp only [hth']
        rcases hstate with hs | hs
        · exact Or.inr ⟨Or.inr ⟨hs, hctx⟩, by rw [hctx]; exact hst⟩
        · exact Or.inl hs
    · exact absurd hin hn
  · rw [hloc] at hfit
    rcases wakeThreadUp_ok h hth with ⟨-, ⟨hc, -⟩ | ⟨s', hs', hu⟩⟩ | ⟨hc, -⟩
    · simp [hfit.2.1] at hc
    · rw [hfit.2.1, Option.some.injEq] at hs'
      subst hs'
      exact unblockedByTime_placed hu hp hcpu hloc
    · exact absurd hfit.1 hc

/-- When a thread is to be woken, for the entries of the sleep list. -/
def wakeTime (k : Kernel) (t : Tid) : ℕ :=
  match k.threads t with
  | none => 0
  | some th => th.timeForWakingUp

theorem wakeTime_congr (h : k'.view t = k.view t) : k'.wakeTime t = k.wakeTime t := by
  have : k'.threads t = k.threads t := congrArg View.thread h
  simp [wakeTime, this]

/-- The entries `ts` of the sleep list that the timer has not looked at yet. -/
structure Sleepers (k : Kernel) (pend : Tid → Option Context) (loc : Tid → Place)
    (ts : List Tid) : Prop where
  placed : k.Placed pend loc
  cpu : loc k.running = .cpu
  nodup : ts.Nodup
  asleep : ∀ t ∈ ts, loc t = .asleep ∨ ∃ s, loc t = .timed s

theorem Sleepers.ne {ts : List Tid} (h : k.Sleepers pend loc (t :: ts)) : ∀ t' ∈ ts, t' ≠ t := by
  rintro t' ht' rfl
  exact (List.nodup_cons.1 h.nodup).1 ht'

theorem Sleepers.step {ts : List Tid} (h : k.Sleepers pend loc (t :: ts))
    (hw : k.wakeThreadUp t = .ok k') :
    k'.Sleepers pend (Function.update loc t .ready) ts ∧ ∀ t' ≠ t, k'.view t' = k.view t' := by
  have hloc := h.asleep t (by simp)
  have hne : k.running ≠ t := Placed.running_ne h.cpu (by
    rcases hloc with hl | ⟨s, hl⟩ <;> simp [hl])
  obtain ⟨hp, hv⟩ := wakeThreadUp_placed hw h.placed h.cpu hloc
  refine ⟨⟨hp, ?_, (List.nodup_cons.1 h.nodup).2, ?_⟩, hv⟩
  · rw [(wakeThreadUp_stays hw).running, Function.update_of_ne hne]
    exact h.cpu
  · intro t' ht'
    rw [Function.update_of_ne (h.ne t' ht')]
    exact h.asleep t' (List.mem_cons_of_mem _ ht')

/-- The loop wakes the entries up to the first one that is not due. -/
theorem wake_loop {ts : List Tid}
    (h : foreachWhile wakeThreadUp shouldWakeUpThread ts k = .ok k')
    (hsl : k.Sleepers pend loc ts) :
    ∃ ts₁ ts₂, ts = ts₁ ++ ts₂ ∧ (∀ t ∈ ts₁, k.wakeTime t ≤ k.sysTime) ∧
      (∀ t, ts₂.head? = some t → k.sysTime < k.wakeTime t) ∧
      k'.Placed pend (fun t => if t ∈ ts₁ then .ready else loc t) ∧
      ∀ t ∉ ts₁, k'.view t = k.view t := by
  induction ts generalizing k loc with
  | nil =>
    cases h
    exact ⟨[], [], rfl, by simp, by simp, by simpa using hsl.placed, fun _ _ => rfl⟩
  | cons t ts ih =>
    obtain ⟨b, hb, h⟩ := bind_ok h
    obtain ⟨th, hth, hb⟩ := bind_ok hb
    have hth := thread_ok hth
    have htime : k.wakeTime t = th.timeForWakingUp := by simp [wakeTime, hth]
    cases b with
    | false =>
      have hlt : k.sysTime < k.wakeTime t := by
        rw [htime]
        simpa [pure, Except.pure] using hb
      cases h
      exact ⟨[], t :: ts, rfl, by simp, by simpa using hlt, by simpa using hsl.placed,
        fun _ _ => rfl⟩
    | true =>
      have hle : k.wakeTime t ≤ k.sysTime := by
        rw [htime]
        simpa [pure, Except.pure] using hb
      obtain ⟨k₁, hw, h⟩ := bind_ok h
      obtain ⟨hsl₁, hv₁⟩ := hsl.step hw
      have hs := wakeThreadUp_stays hw
      have hother := hsl.ne
      obtain ⟨ts₁, ts₂, rfl, h1, h2, h3, h4⟩ := ih h hsl₁
      refine ⟨t :: ts₁, ts₂, rfl, ?_, ?_, ?_, ?_⟩
      · intro t' ht'
        rcases List.mem_cons.1 ht' with rfl | ht'
        · exact hle
        · rw [← wakeTime_congr (hv₁ t' (hother t' (List.mem_append_left _ ht'))), ← hs.sysTime]
          exact h1 t' ht'
      · intro t' ht'
        rw [← wakeTime_congr (hv₁ t' (hother t' (List.mem_append_right _ (List.mem_of_head? ht')))),
          ← hs.sysTime]
        exact h2 t' ht'
      · have hloc : (fun t' => if t' ∈ t :: ts₁ then Place.ready else loc t') =
            fun t' => if t' ∈ ts₁ then .ready else Function.update loc t .ready t' := by
          funext t'
          by_cases he : t' = t
          · subst he
            simp
          · simp [he]
        rw [hloc]
        exact h3
      · intro t' ht'
        rw [List.mem_cons, not_or] at ht'
        rw [h4 t' ht'.2, hv₁ t' ht'.1]

theorem Placed.nodup_asleep (hp : k.Placed pend loc) : k.listAsleepThreads.items.Nodup := by
  apply List.nodup_iff_count.2
  intro t
  rw [hp.asleep_count]
  cases loc t <;> simp [Place.inAsleep]

theorem wakeAsleepThreadsUp_placed (h : k.wakeAsleepThreadsUp = .ok k') (hp : k.Placed pend loc)
    (hcpu : loc k.running = .cpu) :
    ∃ ts₁ ts₂, k.listAsleepThreads.items = ts₁ ++ ts₂ ∧ (∀ t ∈ ts₁, k.wakeTime t ≤ k.sysTime) ∧
      (∀ t, ts₂.head? = some t → k.sysTime < k.wakeTime t) ∧
      k'.Placed pend (fun t => if t ∈ ts₁ then .ready else loc t) ∧
      ∀ t ∉ ts₁, k'.view t = k.view t :=
  wake_loop h ⟨hp, hcpu, hp.nodup_asleep, fun _ ht => hp.mem_asleep ht⟩

/-- Threads that left the queue of `s` are ready, the others are where they were. -/
def Released (k k' : Kernel) (s : SemId) (loc loc' : Tid → Place) : Prop :=
  ∀ t, loc' t = loc t ∧ k'.view t = k.view t ∨
    (loc t = .blocked s ∨ loc t = .timed s) ∧ loc' t = .ready

theorem unblockAll_placed {n : ℕ} (h : k.unblockAll s cause n = .ok k') (hp : k.Placed pend loc)
    (hcpu : loc k.running = .cpu) (hc : cause.Woken) :
    ∃ loc', k'.Placed pend loc' ∧ Released k k' s loc loc' ∧
      ∀ m, k.sems s = some m → ∃ m', k'.sems s = some m' ∧
        m'.queueBlocked.length + n = m.queueBlocked.length ∧ m'.val = m.val + n := by
  induction n generalizing k loc with
  | zero =>
    cases h
    exact ⟨loc, hp, fun _ => Or.inl ⟨rfl, rfl⟩, fun m hm => ⟨m, hm, rfl, by simp⟩⟩
  | succ n ih =>
    obtain ⟨k₁, r, hu, ha, h⟩ := unblockAll_ok h
    obtain ⟨t, hloc, hp₁, hv₁⟩ := unblock_placed hu hp hcpu hc
    have hne : k.running ≠ t :=
      Placed.running_ne hcpu (by rcases hloc with hl | hl <;> simp [hl])
    have hs := (unblock_stays hu).trans (addVal_stays ha)
    obtain ⟨loc', hp', hrel, hsem⟩ := ih h (hp₁.congr (addVal_view ha))
      (by rw [hs.running, Function.update_of_ne hne]; exact hcpu)
    refine ⟨loc', hp', ?_, ?_⟩
    · intro t'
      by_cases he : t' = t
      · subst he
        refine Or.inr ⟨hloc, ?_⟩
        rcases hrel t' with ⟨hl, -⟩ | ⟨hl, -⟩
        · rw [hl, Function.update_self]
        · simp at hl
      · rcases hrel t' with ⟨hl, hv⟩ | ⟨hl, hl'⟩
        · rw [Function.update_of_ne he] at hl
          exact Or.inl ⟨hl, by rw [hv, addVal_view ha, hv₁ t' he]⟩
        · rw [Function.update_of_ne he] at hl
          exact Or.inr ⟨hl, hl'⟩
    · intro m hm
      obtain ⟨m₀, e, q, hm₀, hq, hsems⟩ := unblock_sems hu
      rw [hm] at hm₀
      cases hm₀
      have hm₁ : k₁.sems s = some { m with queueBlocked := q } := by rw [hsems, Function.update_self]
      obtain ⟨m', hm', hl, hval⟩ := hsem _ (addVal_sem ha hm₁)
      refine ⟨m', hm', ?_, ?_⟩
      · rw [hq, List.length_cons, ← hl]
        omega
      · rw [hval]
        push_cast
        ring

/-! The running thread on its way to `dispatch`. -/

/-- The running thread `old` is about to save `c` and stands at the place `pl`. -/
def park (pend : Tid → Option Context) (old : Tid) (c : Context) : Tid → Option Context :=
  Function.update pend old (some c)

theorem Placed.park {f : View → View} {pl : Place} (hp : k.Placed pend loc) (hm : Moves k k' t f)
    (hat : (f (k.view t)).At (some c) pl) :
    k'.Placed (park pend t c) (Function.update loc t pl) :=
  hp.moves hm (fun _ h => Function.update_of_ne h _ _) (by
    rw [Kernel.park, Function.update_self]
    exact hat)

def Suspended (k : Kernel) (t : Tid) : Prop :=
  ∃ th, k.threads t = some th ∧ th.threadState = .suspended

theorem suspended_of_moves {f : View → View} (hm : Moves k k' t f)
    (h : (f (k.view t)).thread.map (·.threadState) = some .suspended) : k'.Suspended t := by
  have hv : k'.threads t = (f (k.view t)).thread := congrArg View.thread hm.self
  obtain ⟨th, hth, hs⟩ := Option.map_eq_some_iff.1 h
  exact ⟨th, hv.trans hth, hs⟩

theorem cpu_state (hp : k.Placed pend loc) (hcpu : loc t = .cpu) :
    ∃ th, k.threads t = some th ∧ th.semStatus = .nonWaiting ∧
      (th.threadState = .running ∨ th.threadState = .ready) := by
  obtain ⟨th, hth, hf⟩ := hp.record (t := t) (by simp [hcpu])
  rw [hcpu] at hf
  exact ⟨th, hth, hf⟩

/-- `block` up to `dispatch`. -/
theorem block_parked {k₁ : Kernel} (h : k.addBlocked s t = .ok k₁) (hp : k.Placed pend loc)
    (hcpu : loc t = .cpu) :
    ((k₁.setThreadsSemStatus t .waiting).setMySem t (some s)).Placed (park pend t (.block s))
        (Function.update loc t (.blocked s)) ∧
      ((k₁.setThreadsSemStatus t .waiting).setMySem t (some s)).Suspended t := by
  obtain ⟨th, hth, hst, hstate⟩ := cpu_state hp hcpu
  have hat := hp t
  have hm := addBlocked_moves h
  have hth₁ : k₁.threads t = some th := (congrArg View.thread hm.self).trans hth
  have hnf : th.threadState ≠ .finished := by rcases hstate with h | h <;> simp [h]
  have hm' := (hm.trans (modifyThread_moves k₁ t _)).trans
    (modifyThread_moves (k₁.setThreadsSemStatus t .waiting) t fun th => { th with mySem := some s })
  have hv : (k.view t).thread = some th := hth
  refine ⟨hp.park hm' ⟨?_, ?_, ?_, ?_⟩, suspended_of_moves hm' ?_⟩
  · simp [hat.ready, hcpu, Place.inReady]
  · simp [hat.asleep, hcpu, Place.inAsleep]
  · funext s'
    simp [hat.queue, hcpu, Place.inQueue, Function.update_apply]
  · simp [hv, hnf, Thread.Fits]
  · simp [hv, hnf]

/-- `put_thread_to_sleep` up to `dispatch`. -/
theorem sleep_parked {k₁ : Kernel} {n : ℕ}
    (h : ((k.setThreadState t .suspended).setTimeForWakingUp t n).insertAsleep t = .ok k₁)
    (hp : k.Placed pend loc) (hcpu : loc t = .cpu) :
    k₁.Placed (park pend t .sleep) (Function.update loc t .asleep) ∧ k₁.Suspended t := by
  obtain ⟨th, hth, hst, hstate⟩ := cpu_state hp hcpu
  have hat := hp t
  have hm := insertAsleep_moves h (by simp [hth])
  have hm' := ((modifyThread_moves k t fun th => { th with threadState := .suspended }).trans
    (modifyThread_moves (k.setThreadState t .suspended) t fun th =>
      { th with timeForWakingUp := n })).trans hm
  have hv : (k.view t).thread = some th := hth
  refine ⟨hp.park hm' ⟨?_, ?_, ?_, ?_⟩, suspended_of_moves hm' ?_⟩
  · simp [hat.ready, hcpu, Place.inReady]
  · simp [hat.asleep, hcpu, Place.inAsleep]
  · simp [hat.queue, hcpu, Place.inQueue]
  · simp [hv, Thread.Fits, hst]
  · simp [hv]

theorem incTimedWaiting_view {k₁ : Kernel} (h : k.incTimedWaiting s = .ok k₁) (t : Tid) :
    k₁.view t = k.view t := by
  obtain ⟨m, hm, rfl⟩ := incTimedWaiting_ok h
  exact setSem_view hm rfl

/-- `timedBlock` up to `dispatch`. -/
theorem timedBlock_parked {k₁ k₂ k₃ : Kernel} {n : ℕ}
    (hb : ((k.setThreadsSemStatus t .timedWaiting).setTimeForWakingUp t n).addBlocked s t = .ok k₁)
    (hi : k₁.insertAsleep t = .ok k₂) (hn : k₂.incTimedWaiting s = .ok k₃)
    (hp : k.Placed pend loc) (hcpu : loc t = .cpu) :
    (k₃.setMySem t (some s)).Placed (park pend t (.timedBlock s))
        (Function.update loc t (.timed s)) ∧ (k₃.setMySem t (some s)).Suspended t := by
  obtain ⟨th, hth, hst, hstate⟩ := cpu_state hp hcpu
  have hat := hp t
  have hnf : th.threadState ≠ .finished := by rcases hstate with h | h <;> simp [h]
  have hm₁ := ((modifyThread_moves k t _).trans
    (modifyThread_moves (k.setThreadsSemStatus t .timedWaiting) t fun th =>
      { th with timeForWakingUp := n })).trans (addBlocked_moves hb)
  have hs₁ := ((setThreadsSemStatus_stays k t .timedWaiting).trans
    (setTimeForWakingUp_stays _ t n)).trans (addBlocked_stays hb)
  have hth₁ : k₁.threads t ≠ none := by
    rw [← Option.isSome_iff_ne_none, hs₁.isSome, hth]
    rfl
  have hm₂ := hm₁.trans (insertAsleep_moves hi hth₁)
  have hm := (hm₂.congr (incTimedWaiting_view hn)).trans (modifyThread_moves k₃ t fun th => { th with mySem := some s })
  have hv : (k.view t).thread = some th := hth
  refine ⟨hp.park hm ⟨?_, ?_, ?_, ?_⟩, suspended_of_moves hm ?_⟩
  · simp [hat.ready, hcpu, Place.inReady]
  · simp [hat.asleep, hcpu, Place.inAsleep]
  · funext s'
    simp [hat.queue, hcpu, Place.inQueue, Function.update_apply]
  · simp [hv, hnf, Thread.Fits]
  · simp [hv, hnf]

end Kernel
end OSK
