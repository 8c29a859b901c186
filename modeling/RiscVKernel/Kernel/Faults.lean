import RiscVKernel.Kernel.Steps

/-! How the calls of the kernel can fail. A list insertion fails when the heap
has no block for the node, a call on a semaphore when it was deleted, `unblock`
on an empty queue. Every other fault of a call on live objects is a deleted
thread or an empty ready queue. -/

namespace OSK

open Lib

/-- Faults that concern no list node and no semaphore. -/
def Fault.Other : Fault → Prop
  | .nullNode => False
  | .nullThread => False
  | .deadHandle => False
  | _ => True

/-- The fault a step ends in. -/
def faultOf : Except Fault Kernel → Option Fault
  | .error f => some f
  | .ok _ => none

theorem faultOf_eq_some {x : Except Fault Kernel} {f : Fault} :
    faultOf x = some f ↔ x = .error f := by
  cases x <;> simp [faultOf]

namespace KList

variable {α : Type} {h : Heap} {l : KList α} {x : α} {f : Fault}

theorem newNode_error (hn : newNode h = .error f) :
    f = .nullNode ∧ h.kmalloc (blocksFor 16) = none := by
  unfold newNode at hn
  cases hk : h.kmalloc (blocksFor 16) with
  | none =>
    simp only [hk] at hn
    cases hn
    exact ⟨rfl, rfl⟩
  | some r => simp [hk] at hn

theorem addLast_error (ha : addLast h l x = .error f) :
    f = .nullNode ∧ h.kmalloc (blocksFor 16) = none := by
  rcases bind_error ha with hn | ⟨a, -, hr⟩
  · exact newNode_error hn
  · cases hr

theorem insertSorted_error {cmp : α → α → Bool} (hi : insertSorted h l x cmp = .error f) :
    f = .nullNode ∧ h.kmalloc (blocksFor 16) = none := by
  rcases bind_error hi with hn | ⟨a, -, hr⟩
  · exact newNode_error hn
  · cases hr

end KList

namespace Kernel

variable {k k' : Kernel} {t : Tid} {s : SemId} {f : Fault} {c : Context} {cause : SemStatus}
  {loc : Tid → Place}

/-- The fault of a list insertion in `k`. -/
def NoNode (k : Kernel) (f : Fault) : Prop :=
  f = .nullNode ∧ k.heap.kmalloc (blocksFor 16) = none

/-- The fault of a read of the semaphore `s` in `k`. -/
def NoSem (k : Kernel) (s : SemId) (f : Fault) : Prop :=
  f = .deadHandle ∧ k.sems s = none

theorem thread_error (h : k.thread t = .error f) : f.Other := by
  unfold thread at h
  cases hk : k.threads t with
  | none =>
    simp only [hk] at h
    cases h
    trivial
  | some th => simp [hk] at h

theorem sem_error (h : k.sem s = .error f) : k.NoSem s f := by
  unfold sem at h
  cases hk : k.sems s with
  | none =>
    simp only [hk] at h
    cases h
    exact ⟨rfl, hk⟩
  | some m => simp [hk] at h

theorem put_error (h : k.put t = .error f) : k.NoNode f := by
  rcases bind_error h with ha | ⟨a, -, hr⟩
  · exact KList.addLast_error ha
  · cases hr

theorem insertAsleep_error (h : k.insertAsleep t = .error f) : k.NoNode f := by
  unfold insertAsleep at h
  split_ifs at h
  · rcases bind_error h with ha | ⟨a, -, hr⟩
    · exact KList.insertSorted_error ha
    · cases hr
  · cases h

theorem addVal_error {d : ℤ} (h : k.addVal s d = .error f) : f.Other ∨ k.NoSem s f := by
  rcases bind_error h with hm | ⟨m, -, h⟩
  · exact Or.inr (sem_error hm)
  · dsimp only at h
    split_ifs at h
    · cases h
    · cases h
      exact Or.inl trivial

theorem addBlocked_error (h : k.addBlocked s t = .error f) : k.NoSem s f ∨ k.NoNode f := by
  rcases bind_error h with hm | ⟨m, -, h⟩
  · exact Or.inl (sem_error hm)
  · rcases bind_error h with ha | ⟨a, -, hr⟩
    · exact Or.inr (KList.addLast_error ha)
    · cases hr

theorem firstBlocked_error (h : k.firstBlocked s = .error f) : k.NoSem s f := by
  rcases bind_error h with hm | ⟨m, -, h⟩
  · exact sem_error hm
  · cases h

theorem removeBlocked_error (h : k.removeBlocked s t = .error f) : k.NoSem s f := by
  rcases bind_error h with hm | ⟨m, -, h⟩
  · exact sem_error hm
  · cases h

theorem incTimedWaiting_error (h : k.incTimedWaiting s = .error f) : k.NoSem s f := by
  rcases bind_error h with hm | ⟨m, -, h⟩
  · exact sem_error hm
  · cases h

/-! `dispatch`. -/

theorem generateWaitResponses_error (h : k.generateWaitResponses s = .error f) : f.Other := by
  rcases bind_error h with ht | ⟨th, -, h⟩
  · exact thread_error ht
  · cases h

theorem resume_error (h : k.resume = .error f) : f.Other := by
  rcases bind_error h with ht | ⟨th, -, h⟩
  · exact thread_error ht
  · cases hc : th.context with
    | threadWrapper => simp [hc, pure, Except.pure] at h
    | toUser => simp [hc, pure, Except.pure] at h
    | block s =>
      simp only [hc] at h
      exact generateWaitResponses_error h
    | timedBlock s =>
      simp only [hc] at h
      exact generateWaitResponses_error h
    | sleep => simp [hc, pure, Except.pure] at h

theorem deleteThread_error (h : k.deleteThread t = .error f) : f.Other := by
  rcases bind_error h with ht | ⟨th, -, h⟩
  · exact thread_error ht
  · cases h

theorem deleteThreadInDispatch_error (h : k.deleteThreadInDispatch t = .error f) : f.Other := by
  unfold deleteThreadInDispatch at h
  dsimp only at h
  split_ifs at h
  exact deleteThread_error h

/-- `foreachWhile` fails in one of its calls, with what holds before each of them. -/
theorem foreachWhile_error {func : Kernel → Tid → Except Fault Kernel}
    {condition : Kernel → Tid → Except Fault Bool} (Before : Kernel → List Tid → Prop)
    {ts : List Tid} (h : foreachWhile func condition ts k = .error f) (h₀ : Before k ts)
    (hs : ∀ k t ts k', Before k (t :: ts) → condition k t = .ok true → func k t = .ok k' →
      Before k' ts) :
    ∃ k₁ t ts₁, Before k₁ (t :: ts₁) ∧
      (condition k₁ t = .error f ∨ condition k₁ t = .ok true ∧ func k₁ t = .error f) := by
  induction ts generalizing k with
  | nil => cases h
  | cons t ts ih =>
    rcases bind_error h with hc | ⟨b, hb, h⟩
    · exact ⟨k, t, ts, h₀, Or.inl hc⟩
    · cases b with
      | false => cases h
      | true =>
        rcases bind_error h with hf | ⟨k₁, hf, h⟩
        · exact ⟨k, t, ts, h₀, Or.inr ⟨hb, hf⟩⟩
        · exact ih h (hs k t ts k₁ h₀ hb hf)

theorem sweep_error {ts : List Tid}
    (h : foreachWhile deleteThreadInDispatch threadDead ts k = .error f) : f.Other := by
  obtain ⟨k₁, t, -, -, hc | ⟨-, hd⟩⟩ :=
    foreachWhile_error (fun _ _ => True) h trivial fun _ _ _ _ _ _ _ => trivial
  · cases hc
  · exact deleteThreadInDispatch_error hd

theorem leave_error (h : k.leave = .error f) :
    f.Other ∨ k.NoNode f ∧ ∃ th, k.threads k.running = some th ∧
      (th.threadState = .ready ∨ th.threadState = .running) := by
  rcases bind_error h with ht | ⟨th, ht, h⟩
  · exact Or.inl (thread_error ht)
  · dsimp only at h
    split_ifs at h with hr
    · rcases bind_error h with hput | ⟨k₁, -, h⟩
      · exact Or.inr ⟨put_error (k := k.setThreadState k.running .ready) hput, th, thread_ok ht, hr⟩
      · split_ifs at h
        · exact Or.inl (deleteThread_error h)
        · cases h
    · rcases bind_error h with hp | ⟨k₁, hp, h⟩
      · cases hp
      · split_ifs at h
        · exact Or.inl (deleteThread_error h)
        · cases h

theorem arrive_error (h : k.arrive c = .error f) : f.Other := by
  rcases bind_error h with hs | ⟨k₁, -, h⟩
  · exact sweep_error hs
  · cases hg : k₁.get with
    | mk r k₂ =>
      cases r with
      | none =>
        simp only [hg] at h
        cases h
        trivial
      | some t =>
        simp only [hg] at h
        exact resume_error h

theorem dispatch_error (h : k.dispatch c = .error f) :
    f.Other ∨ k.NoNode f ∧ ∃ th, k.threads k.running = some th ∧
      (th.threadState = .ready ∨ th.threadState = .running) := by
  rcases bind_error h with hl | ⟨k₁, -, h⟩
  · exact leave_error (k := { k with runningThreadCpuTime := 0 }) hl
  · exact Or.inl (arrive_error h)

/-! The calls that move other threads. -/

theorem release_error (h : k.release t s cause = .error f) : k.NoNode f :=
  put_error (k := ((k.setMySem t none).setThreadsSemStatus t cause).note (.dequeued t s cause)) h

theorem unblock_error (h : k.unblock s cause = .error f) :
    f.Other ∨ k.NoSem s f ∨ (f = .nullThread ∧ ∃ m, k.sems s = some m ∧ m.queueBlocked = []) ∨
      ∃ t k₁ th, k.firstBlocked s = .ok (some t, k₁) ∧ k₁.threads t = some th ∧
        (if th.semStatus = .timedWaiting then (k₁.removeThreadFromSleep t).2 else k₁).NoNode f := by
  rcases bind_error h with hf | ⟨⟨r, k₁⟩, hf, h⟩
  · exact Or.inr (Or.inl (firstBlocked_error hf))
  · cases r with
    | none =>
      cases h
      obtain ⟨m, hm, ⟨hq, -⟩ | ⟨e, q, -, hr⟩⟩ := firstBlocked_ok hf
      · exact Or.inr (Or.inr (Or.inl ⟨rfl, m, hm, hq⟩))
      · cases hr
    | some t =>
      rcases bind_error h with ht | ⟨th, ht, h⟩
      · exact Or.inl (thread_error ht)
      · exact Or.inr (Or.inr (Or.inr ⟨t, k₁, th, hf, thread_ok ht, release_error h⟩))

theorem unblockedByTime_error (h : k.unblockedByTime s t = .error f) :
    f.Other ∨ k.NoSem s f ∨ ∃ r k₁, k.addVal s 1 = .ok r ∧
      (r.2.removeThreadFromSleep t).2.removeBlocked s t = .ok k₁ ∧ k₁.NoNode f := by
  rcases bind_error h with ht | ⟨th, ht, h⟩
  · exact Or.inl (thread_error ht)
  · split_ifs at h
    · cases h
    · rcases bind_error h with ha | ⟨r, ha, h⟩
      · exact (addVal_error ha).imp_right Or.inl
      · rcases bind_error h with hb | ⟨k₁, hb, h⟩
        · obtain ⟨m, hm, -, rfl⟩ := addVal_ok ha
          have hno := (removeBlocked_error hb).2
          simp [removeThreadFromSleep] at hno
        · exact Or.inr (Or.inr ⟨r, k₁, ha, hb, release_error h⟩)

theorem wakeThreadUp_error (h : k.wakeThreadUp t = .error f) :
    (∃ th s, k.threads t = some th ∧ th.semStatus = .timedWaiting ∧ th.mySem = some s ∧
        k.unblockedByTime s t = .error f) ∨
      t ∈ k.listAsleepThreads.items ∧ (k.removeThreadFromSleep t).2.NoNode f := by
  cases ht : k.threads t with
  | none =>
    simp only [wakeThreadUp, ht] at h
    cases h
  | some th =>
    have hfound : (k.removeThreadFromSleep t).1 = decide (t ∈ k.listAsleepThreads.items) :=
      KList.removeSpec_found ..
    unfold wakeThreadUp at h
    simp only [ht, hfound, decide_eq_true_eq] at h
    split_ifs at h with hst hm
    · cases hs : th.mySem with
      | none =>
        simp only [hs] at h
        cases h
      | some s =>
        simp only [hs] at h
        exact Or.inl ⟨th, s, rfl, hst, hs, h⟩
    · exact Or.inr ⟨hm, put_error h⟩

/-- A thread that waits is not put back into the ready queue. -/
theorem suspended_dispatch_error (h : k.dispatch c = .error f) (hs : k.Suspended k.running) :
    f.Other := by
  rcases dispatch_error h with ho | ⟨-, th, hth, hst⟩
  · exact ho
  · obtain ⟨th', hth', hsusp⟩ := hs
    obtain rfl : th = th' := Option.some.inj (hth.symm.trans hth')
    simp [hsusp] at hst

theorem block_error (h : k.block s = .error f) (hl : k.Located loc) : k.NoNode f ∨ f.Other ∨ k.NoSem s f := by
  rcases bind_error h with hb | ⟨k₁, hb, hd⟩
  · rcases addBlocked_error hb with hs | hn
    · exact Or.inr (Or.inr hs)
    · exact Or.inl hn
  · have hs := (block_parked hb hl.placed hl.running_cpu).2
    refine Or.inr (Or.inl (suspended_dispatch_error hd ?_))
    rwa [show ((k₁.setThreadsSemStatus k.running .waiting).setMySem k.running (some s)).running =
      k.running from (addBlocked_stays hb).running]

theorem wait_error (h : k.wait s = .error f) (hl : k.Located loc) :
    f.Other ∨ k.NoSem s f ∨
      ∃ m, k.sems s = some m ∧ -2 ^ 63 < m.val ∧ m.val ≤ 0 ∧ k.NoNode f := by
  rcases bind_error h with ha | ⟨r, ha, h⟩
  · exact (addVal_error ha).imp_right Or.inl
  have hl' := addVal_located ha hl
  obtain ⟨m, hm, ⟨hlow, -⟩, rfl⟩ := addVal_ok ha
  dsimp only at h
  split_ifs at h with hv
  · cases h
  · rcases block_error h hl' with hn | ho | ⟨-, hs⟩
    · exact Or.inr (Or.inr ⟨m, hm, by omega, by omega, hn⟩)
    · exact Or.inl ho
    · simp at hs

theorem timedBlock_error {n : UInt64} (h : k.timedBlock s n = .error f) (hl : k.Located loc) :
    f.Other ∨ k.NoSem s f ∨ k.NoNode f ∨ f = .nullNode ∧
      ∃ node hp, k.heap.kmalloc (blocksFor 16) = some (node, hp) ∧
        hp.kmalloc (blocksFor 16) = none := by
  rcases bind_error h with hb | ⟨k₁, hb, h⟩
  · rcases addBlocked_error hb with hs | hn
    · exact Or.inr (Or.inl hs)
    · exact Or.inr (Or.inr (Or.inl hn))
  have hs₁ := (timing_stays k k.running (wrap (n.toNat + k.sysTime))).trans (addBlocked_stays hb)
  obtain ⟨m, node, hp, hm, hk, hk₁⟩ := addBlocked_ok hb
  rcases bind_error h with hi | ⟨k₂, hi, h⟩
  · obtain ⟨hf, hn⟩ := insertAsleep_error hi
    subst hk₁
    exact Or.inr (Or.inr (Or.inr ⟨hf, node, hp, hk, hn⟩))
  have hs₂ := hs₁.trans (insertAsleep_stays hi)
  rcases bind_error h with hn | ⟨k₃, hn, hd⟩
  · have hm' : k.sems s = some m := hm
    have hopen := hs₂.sem s
    rw [(incTimedWaiting_error hn).2, hm'] at hopen
    cases hopen
  · have hs := (timedBlock_parked hb hi hn hl.placed hl.running_cpu).2
    refine Or.inl (suspended_dispatch_error hd ?_)
    rwa [show (k₃.setMySem k.running (some s)).running = k.running from
      (hs₂.trans (incTimedWaiting_stays hn)).running]

theorem timedWait_error {n : UInt64} (h : k.timedWait s n = .error f) (hl : k.Located loc) :
    f.Other ∨ k.NoSem s f ∨ ∃ m, k.sems s = some m ∧ -2 ^ 63 < m.val ∧ m.val ≤ 0 ∧
      (k.NoNode f ∨ f = .nullNode ∧ ∃ node hp, k.heap.kmalloc (blocksFor 16) = some (node, hp) ∧
        hp.kmalloc (blocksFor 16) = none) := by
  rcases bind_error h with ha | ⟨r, ha, h⟩
  · exact (addVal_error ha).imp_right Or.inl
  have hl' := addVal_located ha hl
  obtain ⟨m, hm, ⟨hlow, -⟩, rfl⟩ := addVal_ok ha
  dsimp only at h
  split_ifs at h with hv
  · cases h
  · rcases timedBlock_error h hl' with ho | ⟨-, hs⟩ | hn
    · exact Or.inl ho
    · simp at hs
    · exact Or.inr (Or.inr ⟨m, hm, by omega, by omega, hn⟩)

theorem putThreadToSleep_error {n : UInt64} (h : k.putThreadToSleep n = .error f)
    (hl : k.Located loc) : f.Other ∨ k.NoNode f := by
  unfold putThreadToSleep at h
  dsimp only at h
  split_ifs at h
  · rcases bind_error h with hi | ⟨k₁, hi, hd⟩
    · obtain ⟨hf, hn⟩ := insertAsleep_error hi
      exact Or.inr ⟨hf, hn⟩
    · have hs := (sleep_parked hi hl.placed hl.running_cpu).2
      refine Or.inl (suspended_dispatch_error hd ?_)
      rwa [show k₁.running = k.running from (insertAsleep_stays hi).running]
  · cases h

theorem exit_error (h : k.exit = .error f) : f.Other := by
  rcases bind_error h with ht | ⟨th, ht, hd⟩
  · exact thread_error ht
  dsimp only at hd
  rcases dispatch_error hd with ho | ⟨-, th', hth', hst⟩
  · exact ho
  · rw [(setFinished_stays _ _).running] at hth'
    simp only [setFinished, modifyThread_threads, Function.update_self, Option.map_eq_some_iff] at hth'
    obtain ⟨th₀, -, rfl⟩ := hth'
    simp at hst

theorem newThread_error {body : UInt64} {stack : ℕ} (h : k.newThread body stack = .error f) :
    f = .notOwned ∨ f = .nullObject ∨ f = .nullNode := by
  unfold newThread at h
  by_cases hu : stack ∈ k.user
  swap
  · rw [if_neg hu] at h
    cases h
    exact Or.inl rfl
  rw [if_pos hu] at h
  cases hk : k.heap.kmalloc (blocksFor threadSize) with
  | none =>
    simp only [hk] at h
    cases h
    exact Or.inr (Or.inl rfl)
  | some r =>
    simp only [hk] at h
    by_cases hb : body = 0
    · simp only [hb, ne_eq, not_true_eq_false, if_false] at h
      cases h
    · simp only [ne_eq, hb, not_false_eq_true, if_true] at h
      rcases bind_error h with hput | ⟨k₁, -, h⟩
      · exact Or.inr (Or.inr (put_error hput).1)
      · cases h

theorem newSem_error {n : UInt64} (h : k.newSem n = .error f) :
    f = .nullObject ∨ f = .nullNode := by
  unfold newSem at h
  cases hk : k.heap.kmalloc (blocksFor semSize) with
  | none =>
    simp only [hk] at h
    cases h
    exact Or.inl rfl
  | some r =>
    simp only [hk] at h
    rcases bind_error h with ha | ⟨a, -, h⟩
    · exact Or.inr (KList.addLast_error ha).1
    · cases h

theorem unblockAll_error {n : ℕ} {m : Sem} (h : k.unblockAll s cause n = .error f)
    (hm : k.sems s = some m) :
    f.Other ∨ f = .nullNode ∨ f = .nullThread ∧ m.queueBlocked.length < n := by
  induction n generalizing k m with
  | zero => cases h
  | succ n ih =>
    rcases bind_error h with hu | ⟨k₁, hu, h⟩
    · rcases unblock_error hu with ho | ⟨-, hn⟩ | ⟨hf, m', hm', hq⟩ | ⟨t, k₁, th, -, -, hf, -⟩
      · exact Or.inl ho
      · simp [hm] at hn
      · rw [hm, Option.some.injEq] at hm'
        subst hm'
        exact Or.inr (Or.inr ⟨hf, by simp [hq]⟩)
      · exact Or.inr (Or.inl hf)
    obtain ⟨m', e, q, hm', hq, hsems⟩ := unblock_sems hu
    rw [hm, Option.some.injEq] at hm'
    subst hm'
    have hm₁ : k₁.sems s = some { m with queueBlocked := q } := by
      rw [hsems, Function.update_self]
    rcases bind_error h with ha | ⟨r, ha, h⟩
    · rcases addVal_error ha with ho | ⟨-, hn⟩
      · exact Or.inl ho
      · simp [hm₁] at hn
    · rcases ih h (addVal_sem ha hm₁) with ho | hn | ⟨hf, hlt⟩
      · exact Or.inl ho
      · exact Or.inr (Or.inl hn)
      · exact Or.inr (Or.inr ⟨hf, by simpa [hq] using hlt⟩)

/-! The timer. -/

/-- The threads `ts` of the sleep list are still to be looked at. -/
def Waking (k : Kernel) (ts : List Tid) : Prop :=
  ∃ loc, k.Placed (fun _ => none) loc ∧ loc k.running = .cpu ∧ ts.Nodup ∧
    ∀ t ∈ ts, loc t = .asleep ∨ ∃ s, loc t = .timed s

theorem Located.waking (hl : k.Located loc) : k.incTime.Waking k.listAsleepThreads.items :=
  ⟨loc, hl.sleepers.placed, hl.sleepers.cpu, hl.sleepers.nodup, hl.sleepers.asleep⟩

theorem Waking.step {ts : List Tid} (hw : k.Waking (t :: ts)) (h : k.wakeThreadUp t = .ok k') :
    k'.Waking ts := by
  obtain ⟨loc, hp, hcpu, hnd, hts⟩ := hw
  have hsl : k.Sleepers (fun _ => none) loc (t :: ts) := ⟨hp, hcpu, hnd, hts⟩
  obtain ⟨hp', hcpu', hnd', hts'⟩ := (hsl.step h).1
  exact ⟨_, hp', hcpu', hnd', hts'⟩

/-- A thread that waits with a timeout waits on an open semaphore. -/
theorem Waking.open {ts : List Tid} {th : Thread} (hw : k.Waking (t :: ts))
    (hth : k.threads t = some th) (hst : th.semStatus = .timedWaiting) (hs : th.mySem = some s) :
    k.sems s ≠ none := by
  obtain ⟨loc, hp, -, -, hts⟩ := hw
  have hfit := hp.fits hth
  rcases hts t (by simp) with hl | ⟨s', hl⟩
  · rw [hl] at hfit
    have hnw := hfit.1
    simp [hst] at hnw
  · rw [hl] at hfit
    have hs' := hfit.2.1
    rw [hs, Option.some.injEq] at hs'
    subst hs'
    obtain ⟨m, hm, -⟩ := hp.open_queue (Or.inr hl)
    simp [hm]

theorem Waking.wakeThreadUp_error {ts : List Tid} (hw : k.Waking (t :: ts))
    (h : k.wakeThreadUp t = .error f) : f.Other ∨ f = .nullNode := by
  rcases Kernel.wakeThreadUp_error h with ⟨th, s, hth, hst, hs, hu⟩ | ⟨-, hn⟩
  · rcases unblockedByTime_error hu with ho | ⟨-, hn⟩ | ⟨r, k₁, -, -, hn⟩
    · exact Or.inl ho
    · exact absurd hn (hw.open hth hst hs)
    · exact Or.inr hn.1
  · exact Or.inr hn.1

theorem timerInterruptHandler_error (h : k.timerInterruptHandler = .error f) :
    f.Other ∨ k.incTime.wakeAsleepThreadsUp = .error f ∨
      ∃ k₁ th, k.incTime.wakeAsleepThreadsUp = .ok k₁ ∧ k₁.threads k₁.running = some th ∧
        th.timeSlice ≤ k₁.runningThreadCpuTime ∧ k₁.NoNode f := by
  rcases bind_error h with hw | ⟨k₁, hw, h⟩
  · exact Or.inr (Or.inl hw)
  rcases bind_error h with ht | ⟨th, ht, h⟩
  · exact Or.inl (thread_error ht)
  split_ifs at h with hslice
  · rcases dispatch_error h with ho | ⟨hn, -⟩
    · exact Or.inl ho
    · exact Or.inr (Or.inr ⟨k₁, th, hw, thread_ok ht, hslice, hn⟩)
  · cases h

theorem shouldWakeUpThread_error (h : k.shouldWakeUpThread t = .error f) : f.Other := by
  rcases bind_error h with ht | ⟨th, -, h⟩
  · exact thread_error ht
  · cases h

theorem wakeAsleepThreadsUp_error (h : k.incTime.wakeAsleepThreadsUp = .error f)
    (hl : k.Located loc) : f.Other ∨ f = .nullNode := by
  obtain ⟨k₁, t, ts, hw, hc | ⟨-, hf⟩⟩ := foreachWhile_error Waking h hl.waking
    fun _ _ _ _ hw _ hs => hw.step hs
  · exact Or.inl (shouldWakeUpThread_error hc)
  · exact hw.wakeThreadUp_error hf

/-! Any event. -/

/-- The semaphore an event is about. -/
def handle : Event → Option SemId
  | .semClose s => s
  | .semWait s => s
  | .semSignal s => s
  | .semTimedwait s _ => s
  | .semTrywait s => s
  | _ => none

theorem map_error {α β : Type} {x : Except Fault α} {g : α → β} (h : x.map g = .error f) :
    x = .error f := by
  cases x with
  | error e =>
    cases h
    rfl
  | ok a => cases h

theorem withHandle_error {o : Option SemId} {g : SemId → Except Fault Kernel}
    (h : k.withHandle o g = .error f) : ∃ s, o = some s ∧ g s = .error f := by
  cases o with
  | none => cases h
  | some s => exact ⟨s, rfl, h⟩

theorem tryWait_error (h : k.tryWait s = .error f) : f.Other ∨ k.NoSem s f := by
  rcases bind_error h with hm | ⟨m, -, h⟩
  · exact Or.inr (sem_error hm)
  rcases bind_error h with ha | ⟨r, -, h⟩
  · exact addVal_error ha
  · cases h

theorem signal_error (h : k.signal s = .error f) :
    f.Other ∨ f = .nullNode ∨ k.NoSem s f ∨ f = .nullThread ∧
      ∃ m, k.sems s = some m ∧ (m.queueBlocked.length : ℤ) < -m.val := by
  rcases bind_error h with ha | ⟨r, ha, h⟩
  · exact (addVal_error ha).imp_right fun hs => Or.inr (Or.inl hs)
  obtain ⟨m, hm, -, rfl⟩ := addVal_ok ha
  dsimp only at h
  split_ifs at h with hv
  · cases h
  rcases bind_error h with hu | ⟨k₁, -, h⟩
  swap
  · cases h
  rcases unblock_error hu with ho | ⟨-, hn⟩ | ⟨hf, m', hm', hq⟩ | ⟨t, k₁, th, -, -, hn⟩
  · exact Or.inl ho
  · simp at hn
  · simp only [note, setSem, Function.update_self, Option.some.injEq] at hm'
    subst hm'
    refine Or.inr (Or.inr (Or.inr ⟨hf, m, hm, ?_⟩))
    rw [show m.queueBlocked = [] from hq, List.length_nil]
    omega
  · exact Or.inr (Or.inl hn.1)

theorem deleteSem_error (h : k.deleteSem s = .error f) :
    f.Other ∨ f = .nullNode ∨ k.NoSem s f ∨ f = .nullThread ∧
      ∃ m, k.sems s = some m ∧ (m.queueBlocked.length : ℤ) < -m.val := by
  rcases bind_error h with hm | ⟨m, hm, h⟩
  · exact Or.inr (Or.inr (Or.inl (sem_error hm)))
  have hm := sem_ok hm
  rcases bind_error h with hu | ⟨k₁, -, h⟩
  · rcases unblockAll_error hu hm with ho | hn | ⟨hf, hlt⟩
    · exact Or.inl ho
    · exact Or.inr (Or.inl hn)
    · exact Or.inr (Or.inr (Or.inr ⟨hf, m, hm, by omega⟩))
  · cases h

/-- A step fails at a semaphore only if the handle it was given is that of a
deleted one, or its queue is shorter than its value says. -/
theorem step_error {e : Event} (h : k.step e = .error f) (hi : k.Inv) :
    f.Other ∨ f = .nullNode ∨ ∃ s, handle e = some s ∧ (k.NoSem s f ∨ f = .nullThread ∧
      ∃ m, k.sems s = some m ∧ (m.queueBlocked.length : ℤ) < -m.val) := by
  obtain ⟨loc, hl⟩ := hi.located
  cases e with
  | memAlloc n => cases h
  | memFree p =>
    have h := map_error h
    unfold memFree at h
    split_ifs at h
    cases h
    exact Or.inl trivial
  | threadCreate body stack =>
    rcases newThread_error h with rfl | rfl | hf
    · exact Or.inl trivial
    · exact Or.inl trivial
    · exact Or.inr (Or.inl hf)
  | threadExit => exact Or.inl (exit_error h)
  | threadDispatch => exact (dispatch_error h).imp_right fun hn => Or.inl hn.1.1
  | semOpen n =>
    rcases newSem_error h with rfl | hf
    · exact Or.inl trivial
    · exact Or.inr (Or.inl hf)
  | semClose o =>
    obtain ⟨s, rfl, h⟩ := withHandle_error h
    exact (deleteSem_error h).imp_right fun hf => hf.imp_right fun hs => ⟨s, rfl, hs⟩
  | semWait o =>
    obtain ⟨s, rfl, h⟩ := withHandle_error h
    rcases wait_error h hl with ho | hs | ⟨m, -, -, -, hn⟩
    · exact Or.inl ho
    · exact Or.inr (Or.inr ⟨s, rfl, Or.inl hs⟩)
    · exact Or.inr (Or.inl hn.1)
  | semSignal o =>
    obtain ⟨s, rfl, h⟩ := withHandle_error h
    exact (signal_error (map_error h)).imp_right fun hf => hf.imp_right fun hs => ⟨s, rfl, hs⟩
  | semTimedwait o n =>
    obtain ⟨s, rfl, h⟩ := withHandle_error h
    rcases timedWait_error h hl with ho | hs | ⟨m, -, -, -, hn | ⟨hf, -⟩⟩
    · exact Or.inl ho
    · exact Or.inr (Or.inr ⟨s, rfl, Or.inl hs⟩)
    · exact Or.inr (Or.inl hn.1)
    · exact Or.inr (Or.inl hf)
  | semTrywait o =>
    obtain ⟨s, rfl, h⟩ := withHandle_error h
    exact (tryWait_error (map_error h)).imp_right fun hs => Or.inr ⟨s, rfl, Or.inl hs⟩
  | timeSleep n =>
    exact (putThreadToSleep_error h hl).imp_right fun hn => Or.inl hn.1
  | tick =>
    rcases timerInterruptHandler_error h with ho | hw | ⟨k₁, th, -, -, -, hn⟩
    · exact Or.inl ho
    · exact (wakeAsleepThreadsUp_error hw hl).imp_right Or.inl
    · exact Or.inr (Or.inl hn.1)
  | subtleKill t => cases h

end Kernel
end OSK
