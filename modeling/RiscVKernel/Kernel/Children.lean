import Mathlib.Data.Finset.Card
import RiscVKernel.Kernel.Handover
import RiscVKernel.Memory.Refinement

/-! The number of children in the record of a thread. Creation counts a child in
and `exit` counts it out; being killed does not, and a new thread can get the
address of a deleted one that still has children. -/

namespace OSK

open Lib

namespace Kernel

variable {k k' k₂ : Kernel} {p t : Tid} {s : SemId} {c : Context} {cause : SemStatus} {e : Event}
  {loc : Tid → Place} {start total : ℕ}

/-- No number of children changes. -/
def SameCounts (k k' : Kernel) : Prop :=
  ∀ t th', k'.threads t = some th' → ∃ th, k.threads t = some th ∧
    th'.numOfChildren = th.numOfChildren

theorem SameCounts.refl (k : Kernel) : SameCounts k k := fun _ th h => ⟨th, h, rfl⟩

theorem SameCounts.trans (h : SameCounts k k') (h' : SameCounts k' k₂) : SameCounts k k₂ := by
  intro t th₂ h₂
  obtain ⟨th', hth', hn'⟩ := h' t th₂ h₂
  obtain ⟨th, hth, hn⟩ := h t th' hth'
  exact ⟨th, hth, hn'.trans hn⟩

theorem sameCounts_of_eq (h : k'.threads = k.threads) : SameCounts k k' :=
  fun _ th ht => ⟨th, h ▸ ht, rfl⟩

/-- Writing other fields of a record. -/
theorem modifyThread_sameCounts (k : Kernel) (t : Tid) {f : Thread → Thread}
    (hf : ∀ th, (f th).numOfChildren = th.numOfChildren) : SameCounts k (k.modifyThread t f) := by
  intro t' th' ht'
  by_cases ht : t' = t
  · subst ht
    simp only [modifyThread_threads, Function.update_self, Option.map_eq_some_iff] at ht'
    obtain ⟨th, hth, rfl⟩ := ht'
    exact ⟨th, hth, hf th⟩
  · simp only [modifyThread_threads, Function.update_of_ne ht] at ht'
    exact ⟨th', ht', rfl⟩

theorem setMySem_sameCounts (k : Kernel) (t : Tid) (o : Option SemId) :
    SameCounts k (k.setMySem t o) := modifyThread_sameCounts k t fun _ => rfl

theorem setTimeForWakingUp_sameCounts (k : Kernel) (t : Tid) (n : ℕ) :
    SameCounts k (k.setTimeForWakingUp t n) := modifyThread_sameCounts k t fun _ => rfl

theorem setThreadState_sameCounts (k : Kernel) (t : Tid) (st : ThreadState) :
    SameCounts k (k.setThreadState t st) := modifyThread_sameCounts k t fun _ => rfl

theorem setFinished_sameCounts (k : Kernel) (t : Tid) : SameCounts k (k.setFinished t) :=
  modifyThread_sameCounts k t fun _ => rfl

theorem setThreadsSemStatus_sameCounts (k : Kernel) (t : Tid) (st : SemStatus) :
    SameCounts k (k.setThreadsSemStatus t st) :=
  modifyThread_sameCounts k t fun th => by split_ifs <;> rfl

theorem put_sameCounts (h : k.put t = .ok k') : SameCounts k k' := by
  obtain ⟨node, hp, -, rfl⟩ := put_ok h
  exact sameCounts_of_eq rfl

theorem addVal_sameCounts {d : ℤ} {r : ℤ × Kernel} (h : k.addVal s d = .ok r) :
    SameCounts k r.2 := by
  obtain ⟨m, -, -, rfl⟩ := addVal_ok h
  exact sameCounts_of_eq rfl

theorem addBlocked_sameCounts (h : k.addBlocked s t = .ok k') : SameCounts k k' := by
  obtain ⟨m, node, hp, -, -, rfl⟩ := addBlocked_ok h
  exact sameCounts_of_eq rfl

theorem removeBlocked_sameCounts (h : k.removeBlocked s t = .ok k') : SameCounts k k' := by
  obtain ⟨m, -, rfl⟩ := removeBlocked_ok h
  exact sameCounts_of_eq rfl

theorem insertAsleep_sameCounts (h : k.insertAsleep t = .ok k') (ht : k.threads t ≠ none) :
    SameCounts k k' := by
  obtain ⟨node, hp, -, rfl⟩ := insertAsleep_ok h ht
  exact sameCounts_of_eq rfl

theorem incTimedWaiting_sameCounts (h : k.incTimedWaiting s = .ok k') : SameCounts k k' := by
  obtain ⟨m, -, rfl⟩ := incTimedWaiting_ok h
  exact sameCounts_of_eq rfl

theorem release_sameCounts (h : k.release t s cause = .ok k') : SameCounts k k' := by
  have hrecord : SameCounts k (((k.setMySem t none).setThreadsSemStatus t cause).note
      (.dequeued t s cause)) :=
    ((setMySem_sameCounts k t none).trans (setThreadsSemStatus_sameCounts _ t cause)).trans
      (sameCounts_of_eq rfl)
  exact hrecord.trans (put_sameCounts h)

theorem unblock_sameCounts (h : k.unblock s cause = .ok k') : SameCounts k k' := by
  obtain ⟨t, k₁, th, hf, -, hr⟩ := unblock_ok h
  obtain ⟨m, -, ⟨-, hr'⟩ | ⟨e, q, -, he⟩⟩ := firstBlocked_ok hf
  · cases hr'
  cases he
  refine SameCounts.trans ?_ (release_sameCounts hr)
  split_ifs <;> exact sameCounts_of_eq rfl

theorem unblockAll_sameCounts {n : ℕ} (h : k.unblockAll s cause n = .ok k') : SameCounts k k' := by
  induction n generalizing k with
  | zero =>
    cases h
    exact .refl _
  | succ n ih =>
    obtain ⟨k₁, r, hu, ha, h⟩ := unblockAll_ok h
    exact ((unblock_sameCounts hu).trans (addVal_sameCounts ha)).trans (ih h)

theorem unblockedByTime_sameCounts (h : k.unblockedByTime s t = .ok k') : SameCounts k k' := by
  obtain ⟨th, -, ⟨-, rfl⟩ | ⟨-, r, k₁, ha, hb, hr⟩⟩ := unblockedByTime_ok h
  · exact .refl _
  have hsleep : SameCounts r.2 (r.2.removeThreadFromSleep t).2 := sameCounts_of_eq rfl
  exact (((addVal_sameCounts ha).trans hsleep).trans (removeBlocked_sameCounts hb)).trans
    (release_sameCounts hr)

theorem wakeThreadUp_sameCounts (h : k.wakeThreadUp t = .ok k') : SameCounts k k' := by
  cases ht : k.threads t with
  | none =>
    unfold wakeThreadUp at h
    simp only [ht] at h
    cases h
    exact .refl _
  | some th =>
    have hsleep : SameCounts k (k.removeThreadFromSleep t).2 := sameCounts_of_eq rfl
    rcases wakeThreadUp_ok h ht with ⟨-, ⟨-, rfl⟩ | ⟨s, -, hu⟩⟩ | ⟨-, ⟨-, hput⟩ | ⟨-, rfl⟩⟩
    · exact .refl _
    · exact unblockedByTime_sameCounts hu
    · exact hsleep.trans (put_sameCounts hput)
    · exact hsleep

theorem wake_sameCounts (h : k.wakeAsleepThreadsUp = .ok k') : SameCounts k k' :=
  foreachWhile_rel (R := SameCounts) .refl .trans (fun _ _ _ => wakeThreadUp_sameCounts) h

/-! `dispatch`. -/

theorem deleteThread_sameCounts (h : k.deleteThread t = .ok k') : SameCounts k k' := by
  obtain ⟨th, -, rfl⟩ := deleteThread_ok h
  intro t' th' ht'
  by_cases ht : t' = t
  · subst ht
    simp at ht'
  · simp only [Function.update_of_ne ht] at ht'
    exact ⟨th', ht', rfl⟩

theorem deleteThreadInDispatch_sameCounts (h : k.deleteThreadInDispatch t = .ok k') :
    SameCounts k k' := by
  have hremove : SameCounts k (k.removeReady t).2 := sameCounts_of_eq rfl
  unfold deleteThreadInDispatch at h
  dsimp only at h
  split_ifs at h
  · exact hremove.trans (deleteThread_sameCounts h)
  · cases h
    exact hremove

theorem leave_sameCounts (h : k.leave = .ok k') : SameCounts k k' := by
  obtain ⟨th, -, ⟨-, hput⟩ | ⟨-, rfl⟩ | ⟨-, hd⟩⟩ := leave_ok h
  · exact (setThreadState_sameCounts k _ _).trans (put_sameCounts hput)
  · exact .refl _
  · exact deleteThread_sameCounts hd

theorem decTimedWaiting_sameCounts (k : Kernel) (s : SemId) : SameCounts k (k.decTimedWaiting s) :=
  sameCounts_of_eq (decTimedWaiting_threads k s)

theorem generateWaitResponses_sameCounts (h : k.generateWaitResponses s = .ok k') :
    SameCounts k k' := by
  obtain ⟨th, a, -, -, rfl⟩ := generateWaitResponses_ok h
  exact (setThreadsSemStatus_sameCounts k _ _).trans (sameCounts_of_eq rfl)

theorem resume_sameCounts (h : k.resume = .ok k') : SameCounts k k' := by
  obtain ⟨th, -, ⟨-, rfl⟩ | ⟨s, -, hb⟩ | ⟨s, -, hb⟩ | ⟨-, rfl⟩⟩ := resume_ok h
  · exact .refl _
  · exact (setMySem_sameCounts k _ _).trans (generateWaitResponses_sameCounts hb)
  · exact (((setMySem_sameCounts k k.running none).trans (decTimedWaiting_sameCounts _ s)).trans
      (setTimeForWakingUp_sameCounts _ k.running 0)).trans (generateWaitResponses_sameCounts hb)
  · exact (setThreadState_sameCounts k _ _).trans (setTimeForWakingUp_sameCounts _ _ _)

theorem saveContext_sameCounts (k : Kernel) (t : Tid) (c : Context) :
    SameCounts k (k.saveContext t c) := by
  unfold saveContext
  split_ifs
  · exact modifyThread_sameCounts k t fun _ => rfl
  · exact sameCounts_of_eq rfl

theorem dispatch_sameCounts (h : k.dispatch c = .ok k') : SameCounts k k' := by
  obtain ⟨k₁, hlv, ha⟩ := dispatch_ok h
  obtain ⟨k₂, t, hsweep, -, hr⟩ := arrive_ok ha
  have hdead : SameCounts k₁ k₂ :=
    foreachWhile_rel (R := SameCounts) .refl .trans
      (fun _ _ _ => deleteThreadInDispatch_sameCounts) hsweep
  have hget : SameCounts k₂ { k₂.get.2 with running := t } := sameCounts_of_eq rfl
  exact (((((sameCounts_of_eq rfl).trans (leave_sameCounts hlv)).trans hdead).trans hget).trans
    ((setThreadState_sameCounts _ t .running).trans (saveContext_sameCounts _ _ c))).trans
      (resume_sameCounts hr)

/-! The calls that may block. -/

theorem wait_sameCounts (h : k.wait s = .ok k') : SameCounts k k' := by
  obtain ⟨r, ha, ⟨-, rfl⟩ | ⟨-, hb⟩⟩ := wait_ok h
  · exact (addVal_sameCounts ha).trans (sameCounts_of_eq rfl)
  · obtain ⟨k₁, hadd, hd⟩ := block_ok hb
    exact ((((addVal_sameCounts ha).trans (addBlocked_sameCounts hadd)).trans
      (setThreadsSemStatus_sameCounts _ _ _)).trans (setMySem_sameCounts _ _ _)).trans
        (dispatch_sameCounts hd)

theorem timedWait_sameCounts {n : UInt64} (h : k.timedWait s n = .ok k') (hl : k.Located loc) :
    SameCounts k k' := by
  obtain ⟨r, ha, ⟨-, rfl⟩ | ⟨-, k₁, k₂, k₃, hadd, hne, hins, hinc, -, hd⟩⟩ := timedWait_parks h hl
  · exact (addVal_sameCounts ha).trans (sameCounts_of_eq rfl)
  · have htiming : SameCounts r.2 (r.2.timing k.running (wrap (n.toNat + r.2.sysTime))) :=
      (setThreadsSemStatus_sameCounts _ _ _).trans (setTimeForWakingUp_sameCounts _ _ _)
    exact ((((((addVal_sameCounts ha).trans htiming).trans (addBlocked_sameCounts hadd)).trans
      (insertAsleep_sameCounts hins hne)).trans (incTimedWaiting_sameCounts hinc)).trans
        (setMySem_sameCounts _ _ _)).trans (dispatch_sameCounts hd)

theorem putThreadToSleep_sameCounts {n : UInt64} (h : k.putThreadToSleep n = .ok k')
    (hl : k.Located loc) : SameCounts k k' := by
  obtain ⟨k₁, hne, hins, -, hd⟩ := putThreadToSleep_parks h hl
  exact (((setThreadState_sameCounts _ _ _).trans (setTimeForWakingUp_sameCounts _ _ _)).trans
    (insertAsleep_sameCounts hins hne)).trans (dispatch_sameCounts hd)

theorem signal_sameCounts {r : ℤ × Kernel} (h : k.signal s = .ok r) : SameCounts k r.2 := by
  obtain ⟨val, k₁, ha, ⟨-, rfl⟩ | ⟨-, k', hu, rfl⟩⟩ := signal_ok h
  · exact (addVal_sameCounts ha).trans (sameCounts_of_eq rfl)
  · have hnote : SameCounts k (k₁.note (.signalled s)) :=
      (addVal_sameCounts ha).trans (sameCounts_of_eq rfl)
    exact hnote.trans (unblock_sameCounts hu)

theorem timerInterruptHandler_sameCounts (h : k.timerInterruptHandler = .ok k') :
    SameCounts k k' := by
  obtain ⟨k₁, th, hw, -, hcase⟩ := timerInterruptHandler_ok h
  have htime : SameCounts k k.incTime := sameCounts_of_eq rfl
  have hwake : SameCounts k k₁ := htime.trans (wake_sameCounts hw)
  rcases hcase with ⟨-, hd⟩ | ⟨-, rfl⟩
  · exact hwake.trans (dispatch_sameCounts hd)
  · exact hwake

theorem subtleKill_sameCounts (k : Kernel) (t : Tid) : SameCounts k (k.subtleKill t).2 := by
  unfold subtleKill
  split
  · exact .refl _
  · split_ifs
    · exact .refl _
    · exact .refl _
    · exact setFinished_sameCounts k t

/-- Every event other than the creation and the exit of a thread. -/
theorem step_sameCounts (h : k.step e = .ok k') (hi : k.Inv)
    (hcreate : ∀ body stack, e ≠ .threadCreate body stack) (hexit : e ≠ .threadExit) :
    SameCounts k k' := by
  obtain ⟨loc, hl⟩ := hi.located
  cases step_effect h with
  | idle => exact .refl _
  | memAlloc => exact sameCounts_of_eq rfl
  | memFree => exact sameCounts_of_eq rfl
  | threadCreate => exact absurd rfl (hcreate _ _)
  | threadExit => exact absurd rfl hexit
  | threadDispatch h => exact dispatch_sameCounts h
  | semOpen h =>
    obtain ⟨p, hp, node, hp', -, -, rfl⟩ := newSem_ok h
    exact sameCounts_of_eq rfl
  | semClose s h =>
    obtain ⟨m, k₁, -, hu, rfl⟩ := deleteSem_ok h
    exact (unblockAll_sameCounts hu).trans (sameCounts_of_eq rfl)
  | semWait s h => exact wait_sameCounts h
  | semSignal s hr => exact signal_sameCounts hr
  | semTimedwait s h => exact timedWait_sameCounts h hl
  | semTrywait s hr => exact addVal_sameCounts hr
  | timeSleep h => exact putThreadToSleep_sameCounts h hl
  | tick h => exact timerInterruptHandler_sameCounts h
  | subtleKill t => exact subtleKill_sameCounts k t

/-! The children of a thread. -/

/-- The unfinished thread `t` has the pointer `a` in `parentThread`. -/
def ParentAt (k : Kernel) (a : ℕ) (t : Tid) : Prop :=
  ∃ th ∈ k.threads t, th.threadState ≠ .finished ∧ th.parentThread.map k.threadAddr = some a

instance (k : Kernel) (a : ℕ) (t : Tid) : Decidable (k.ParentAt a t) :=
  inferInstanceAs (Decidable (∃ th ∈ k.threads t, th.threadState ≠ .finished ∧
    th.parentThread.map k.threadAddr = some a))

/-- The threads that are not dead and whose `parentThread` is `p`. -/
def liveChildren (k : Kernel) (p : Tid) : Finset Tid :=
  (Finset.range (k.ID + 1)).filter (k.ParentAt (k.threadAddr p))

/-- Every live thread knows how many live children it has. -/
def ChildrenCounted (k : Kernel) : Prop :=
  ∀ p th, k.threads p = some th → th.threadState ≠ .finished →
    th.numOfChildren = (k.liveChildren p).card

/-- The address at which `thread_create` makes the record. -/
def newRecord (k : Kernel) : Option ℕ := (k.heap.kmalloc (blocksFor threadSize)).map (·.1)

/-- The thread an event is to kill. -/
def victim : Event → Option Tid
  | .subtleKill t => some t
  | _ => none

/-- The address of the record an event makes. -/
def creates (k : Kernel) : Event → Option ℕ
  | .threadCreate _ _ => k.newRecord
  | _ => none

/-- No unfinished child is killed, and no record is made at an address that an
unfinished thread has as its parent. -/
def CountsOn (k : Kernel) (e : Event) : Prop :=
  (∀ t ∈ victim e, ¬k.Child k.running t) ∧ ∀ a ∈ k.creates e, ∀ t ≤ k.ID, ¬k.ParentAt a t

instance (k : Kernel) (e : Event) : Decidable (CountsOn k e) :=
  inferInstanceAs (Decidable (_ ∧ _))

/-- An address that an unfinished thread has as its parent is that of one thread
with a record at most. -/
def ParentsApart (k : Kernel) : Prop :=
  ∀ q t p, k.Child q t → k.threads p ≠ none → k.threadAddr q = k.threadAddr p → q = p

/-- What the numbers of children rest on. -/
structure Family (start total : ℕ) (k : Kernel) : Prop where
  inv : k.Inv
  stored : k.Stored start total
  first : k.ParentsFirst
  apart : k.ParentsApart

theorem parentAt_iff {a : ℕ} : k.ParentAt a t ↔ ∃ q, k.Child q t ∧ k.threadAddr q = a := by
  refine ⟨?_, ?_⟩
  · rintro ⟨th, hth, hst, hp⟩
    obtain ⟨q, hq, ha⟩ := Option.map_eq_some_iff.1 hp
    exact ⟨q, ⟨th, hth, hst, hq⟩, ha⟩
  · rintro ⟨q, ⟨th, hth, hst, hq⟩, ha⟩
    exact ⟨th, hth, hst, Option.map_eq_some_iff.2 ⟨q, hq, ha⟩⟩

/-- The children of a thread with a record are those that have its name. -/
theorem Family.mem_children (hf : k.Family start total) (hp : k.threads p ≠ none) :
    t ∈ k.liveChildren p ↔ k.Child p t := by
  simp only [liveChildren, Finset.mem_filter, Finset.mem_range, parentAt_iff]
  refine ⟨?_, ?_⟩
  · rintro ⟨-, q, hc, ha⟩
    exact hf.apart q t p hc hp ha ▸ hc
  · intro hc
    obtain ⟨th, hth, -⟩ := id hc
    exact ⟨Nat.lt_succ_of_le (hf.inv.named hth), p, hc, rfl⟩

/-- Records of different threads have different addresses. -/
theorem Stored.records_apart (hs : k.Stored start total) (hp : k.threads p ≠ none)
    (ht : k.threads t ≠ none) (ha : k.threadAddr p = k.threadAddr t) : p = t := by
  obtain ⟨thp, hthp⟩ := Option.ne_none_iff_exists'.1 hp
  obtain ⟨tht, htht⟩ := Option.ne_none_iff_exists'.1 ht
  have hcase := hs.allotted.apart (.tcb p) (.tcb t) (k.threadAddr p) (by simp [held, hthp])
    (by simp [held, htht, ha])
  exact Owner.tcb.inj hcase

/-- The number of records fits into a `uint64`. -/
theorem Family.card_lt (hf : k.Family start total) (hend : start + memBlockSize * total < 2 ^ 64)
    (hp : k.threads p ≠ none) : (k.liveChildren p).card + 1 < 2 ^ 64 := by
  have hmaps : ∀ t ∈ k.liveChildren p, k.threadAddr t ∈ k.heap.payloads.toFinset := by
    intro t ht
    obtain ⟨th, hth, -⟩ := (hf.mem_children hp).1 ht
    rw [List.mem_toFinset]
    exact hf.stored.held_taken (o := .tcb t) (by simp [held, hth])
  have hinj : Set.InjOn k.threadAddr (k.liveChildren p) := by
    intro t ht t' ht' ha
    obtain ⟨th, hth, -⟩ := (hf.mem_children hp).1 ht
    obtain ⟨th', hth', -⟩ := (hf.mem_children hp).1 ht'
    exact hf.stored.records_apart (by simp [hth]) (by simp [hth']) ha
  have hcard := Finset.card_le_card_of_injOn k.threadAddr hmaps hinj
  have hlen : k.heap.payloads.toFinset.card ≤ k.heap.taken.length := by
    simpa [Heap.payloads] using List.toFinset_card_le k.heap.payloads
  have htotal := hf.stored.wf.length_le
  have hend : start + 64 * total < 2 ^ 64 := hend
  omega

/-! One step. -/

/-- In a step that creates no thread the children of a thread are those that were
its children and have not finished. -/
theorem step_childIff (h : k.step e = .ok k') (hi : k.Inv)
    (hcreate : ∀ body stack, e ≠ .threadCreate body stack) (p t : Tid) :
    k'.Child p t ↔ k.Child p t ∧ k'.Alive t := by
  refine ⟨?_, ?_⟩
  · intro hc
    obtain ⟨th', hth', hst', -⟩ := id hc
    refine ⟨(step_child h hi hc).resolve_right ?_, alive_iff.2 ⟨th', hth', hst'⟩⟩
    rintro ⟨⟨body, stack, rfl⟩, -⟩
    exact hcreate body stack rfl
  · rintro ⟨⟨th, hth, -, hpar⟩, halive⟩
    obtain ⟨th', hth', hst'⟩ := alive_iff.1 halive
    refine ⟨th', hth', hst', ?_⟩
    by_cases hopen : ∃ n, e = .semOpen n
    · obtain ⟨n, rfl⟩ := hopen
      obtain ⟨q, hp, node, hp', -, -, rfl⟩ := newSem_ok h
      obtain rfl : th = th' := Option.some.inj (hth.symm.trans hth')
      exact hpar
    · obtain ⟨th₀, hth₀, ho⟩ := (step_origin h hcreate fun n he => hopen ⟨n, he⟩).1 t th' hth'
      obtain rfl : th = th₀ := Option.some.inj (hth.symm.trans hth₀)
      exact (congrArg (·.2.2.2) ho).trans hpar

/-- What the creation of a thread does to the records. -/
structure Born (k : Kernel) (body : UInt64) (stack a : ℕ) (k' : Kernel) : Prop where
  record : k.newRecord = some a
  unused : k.heap.sizeAt a = none
  born : k'.threads (k.ID + 1) = some (k.newborn body stack)
  addr : k'.threadAddr (k.ID + 1) = a
  ID : k'.ID = k.ID + 1
  counts : ∀ p th', k'.threads p = some th' → p ≠ k.ID + 1 → ∃ th, k.threads p = some th ∧
    th'.numOfChildren = if p = k.running then wrap (th.numOfChildren + 1) else th.numOfChildren

theorem newThread_born {body : UInt64} {stack : ℕ} (h : k.newThread body stack = .ok k')
    (hs : k.Stored start total) : ∃ a, Born k body stack a k' := by
  obtain ⟨-, a, hp, k₁, hm, hk₁, rfl⟩ := newThread_ok h
  have hsame : k₁.threads = k.threads ∧ k₁.running = k.running := by
    rcases hk₁ with ⟨-, hput⟩ | ⟨-, rfl⟩
    · obtain ⟨node, hp', -, rfl⟩ := put_ok hput
      exact ⟨rfl, rfl⟩
    · exact ⟨rfl, rfl⟩
  obtain ⟨hthreads, hrun⟩ := hsame
  refine ⟨a, by simp [newRecord, hm], (Heap.kmalloc_sizeAt hs.wf hm).1, by simp [enroll],
    by simp [enroll], rfl, ?_⟩
  intro p th' hth' hne
  simp only [enroll, Function.update_of_ne hne, countChild, modifyThread_threads, hrun,
    hthreads] at hth'
  by_cases hp' : p = k.running
  · subst hp'
    rw [Function.update_self, Option.map_eq_some_iff] at hth'
    obtain ⟨th, hth, rfl⟩ := hth'
    exact ⟨th, hth, by rw [if_pos rfl]⟩
  · rw [Function.update_of_ne hp'] at hth'
    exact ⟨th', hth', by rw [if_neg hp']⟩

/-- A thread that exits is counted out at its parent. -/
theorem exit_counts {th : Thread} (h : k.exit = .ok k') (hth : k.threads k.running = some th)
    {th' : Thread} (hp : k'.threads p = some th') :
    ∃ th₀, k.threads p = some th₀ ∧ th'.numOfChildren =
      if th.parentThread = some p then wrapSub th₀.numOfChildren 1 else th₀.numOfChildren := by
  obtain ⟨th₁, k₁, hth₁, hk₁, hd⟩ := exit_ok h
  obtain rfl : th = th₁ := Option.some.inj (hth.symm.trans hth₁)
  obtain ⟨th₂, hth₂, hn⟩ :=
    ((setFinished_sameCounts k₁ k.running).trans (dispatch_sameCounts hd)) p th' hp
  rcases hk₁ with ⟨rfl, hnone⟩ | ⟨q, hq, rfl⟩
  · exact ⟨th₂, hth₂, by rw [hn, hnone, if_neg (by simp)]⟩
  by_cases hpq : p = q
  · subst hpq
    unfold decNumOfChildren at hth₂
    split_ifs at hth₂ with hv
    · rw [modifyThread_threads, Function.update_self, Option.map_eq_some_iff] at hth₂
      obtain ⟨th₀, hth₀, rfl⟩ := hth₂
      exact ⟨th₀, hth₀, by rw [hn, hq, if_pos rfl]⟩
    · exact absurd (Option.isSome_iff_exists.2 ⟨th₂, hth₂⟩) hv
  · have hother : k.threads p = some th₂ := by
      unfold decNumOfChildren at hth₂
      split_ifs at hth₂
      · rwa [modifyThread_threads, Function.update_of_ne hpq] at hth₂
      · exact hth₂
    refine ⟨th₂, hother, ?_⟩
    rw [hn, hq, if_neg (fun he => hpq (Option.some.inj he).symm)]

/-- Unless it is an unfinished child of the caller, nobody is killed. -/
theorem subtleKill_alive (hc : ¬k.Child k.running t) {t' : Tid} :
    (k.subtleKill t).2.Alive t' ↔ k.Alive t' := by
  unfold subtleKill
  cases hth : k.threads t with
  | none => rfl
  | some th =>
    dsimp only
    split_ifs with hpar hself
    · rfl
    · rfl
    · have hdead : ¬k.Alive t := by
        intro ha
        obtain ⟨th₀, hth₀, hst⟩ := alive_iff.1 ha
        obtain rfl : th = th₀ := Option.some.inj (hth.symm.trans hth₀)
        exact hc ⟨th, hth, hst, not_not.1 hpar⟩
      rw [setFinished_alive]
      refine ⟨And.right, fun ha => ⟨?_, ha⟩⟩
      rintro rfl
      exact hdead ha

/-- In a step in which nobody exits or is killed, no thread finishes. -/
theorem step_survives (h : k.step e = .ok k') (hi : k.Inv) (hexit : e ≠ .threadExit)
    (hkill : ∀ t ∈ victim e, ¬k.Child k.running t) (ha : k.Alive t) : k'.Alive t := by
  rcases (step_passes h hi).survives t ha with ha' | hend
  · exact ha'
  · cases step_effect h with
    | idle => exact ha
    | threadExit => exact absurd rfl hexit
    | subtleKill t' => exact (subtleKill_alive (hkill t' rfl)).2 ha
    | _ => cases hend

/-- A thread that there has been and that is dead stays dead. -/
theorem step_dead (h : k.step e = .ok k') (hi : k.Inv) (ht : t ≤ k.ID) (hd : ¬k.Alive t) :
    ¬k'.Alive t := by
  intro ha
  rcases (step_passes h hi).alive t ha with ha | ⟨-, hnew⟩
  · exact hd ha
  · exact absurd (hnew ▸ ht) (Nat.not_succ_le_self _)

theorem exit_alive (h : k.step .threadExit = .ok k') (hi : k.Inv) :
    k'.Alive t ↔ k.Alive t ∧ t ≠ k.running := by
  have hpass := step_passes h hi
  refine ⟨?_, ?_⟩
  · intro ha
    refine ⟨(hpass.alive t ha).resolve_right (by simp), ?_⟩
    rintro rfl
    obtain ⟨th, hth, -⟩ := alive_iff.1 ha
    rw [exit_gone h] at hth
    cases hth
  · rintro ⟨ha, hne⟩
    exact (hpass.survives t ha).resolve_right fun he => hne (Option.some.inj he).symm

/-- A new record stands at an address no unfinished thread has as its parent. -/
theorem step_apart (h : k.step e = .ok k') (hf : k.Family start total)
    (hc : ∀ a ∈ k.creates e, ∀ t ≤ k.ID, ¬k.ParentAt a t) : k'.ParentsApart := by
  intro q t p hchild hp ha
  have hq : q ≤ k.ID := by
    rcases step_child h hf.inv hchild with hold | ⟨-, rfl, -⟩
    · obtain ⟨th, hth, -⟩ := id hold
      exact (hf.first q t hold).le.trans (hf.inv.named hth)
    · obtain ⟨th, hth, -⟩ := alive_iff.1 hf.inv.running_alive
      exact hf.inv.named hth
  rw [step_threadAddr h hq] at ha
  rcases step_recorded h hp with hpold | ⟨⟨body, stack, rfl⟩, rfl⟩
  · obtain ⟨thp, hthp⟩ := Option.ne_none_iff_exists'.1 hpold
    rw [step_threadAddr h (hf.inv.named hthp)] at ha
    rcases step_child h hf.inv hchild with hold | ⟨-, rfl, -⟩
    · exact hf.apart q t p hold hpold ha
    · obtain ⟨th, hth, -⟩ := alive_iff.1 hf.inv.running_alive
      exact hf.stored.records_apart (by simp [hth]) hpold ha
  · obtain ⟨a, hborn⟩ := newThread_born h hf.stored
    rw [hborn.addr] at ha
    rcases step_child h hf.inv hchild with hold | ⟨-, rfl, -⟩
    · obtain ⟨th, hth, -⟩ := id hold
      exact absurd (parentAt_iff.2 ⟨q, hold, ha⟩) (hc a hborn.record t (hf.inv.named hth))
    · obtain ⟨th, hth, -⟩ := alive_iff.1 hf.inv.running_alive
      refine absurd ?_ (hf.stored.allotted.not_held hborn.unused (.tcb k.running))
      simp [held, hth, ha]

theorem step_family (h : k.step e = .ok k') (hf : k.Family start total)
    (hc : ∀ a ∈ k.creates e, ∀ t ≤ k.ID, ¬k.ParentAt a t) : k'.Family start total :=
  ⟨step_inv h hf.inv, step_stored h hf.inv hf.stored, step_parentsFirst h hf.inv hf.first,
    step_apart h hf hc⟩

/-- Every record has the number of the live children. -/
def RecordsCounted (k : Kernel) : Prop :=
  ∀ p th, k.threads p = some th → th.numOfChildren = (k.liveChildren p).card

/-- A child stays a child of its parent when a thread is created. -/
theorem born_child {body : UInt64} {stack : ℕ} (h : k.step (.threadCreate body stack) = .ok k')
    (hi : k.Inv) (hc : k.Child p t) : k'.Child p t := by
  obtain ⟨th, hth, hst, hpar⟩ := hc
  have halive := step_survives h hi (by simp) (by simp [victim]) (alive_iff.2 ⟨th, hth, hst⟩)
  obtain ⟨th', hth', hst'⟩ := alive_iff.1 halive
  refine ⟨th', hth', hst', ?_⟩
  rcases (newThread_origin h).1 t th' hth' with ⟨rfl, -⟩ | ⟨th₀, hth₀, ho⟩
  · rw [hi.freshThread _ (Nat.lt_succ_self _)] at hth
    cases hth
  · obtain rfl : th = th₀ := Option.some.inj (hth.symm.trans hth₀)
    exact (congrArg (·.2.2.2) ho).trans hpar

/-- The children after a thread was created. -/
theorem born_children {body : UInt64} {stack : ℕ} (h : k.step (.threadCreate body stack) = .ok k')
    (hf : k.Family start total) (hf' : k'.Family start total) (hp : k.threads p ≠ none)
    (hp' : k'.threads p ≠ none) :
    k'.liveChildren p =
      if p = k.running then insert (k.ID + 1) (k.liveChildren p) else k.liveChildren p := by
  obtain ⟨a, hborn⟩ := newThread_born h hf.stored
  have hnew : ∀ p, k'.Child p (k.ID + 1) ↔ p = k.running := by
    intro p
    simp [Child, hborn.born, newborn, eq_comm]
  ext t
  rw [hf'.mem_children hp']
  split_ifs with hr
  · rw [Finset.mem_insert, hf.mem_children hp]
    refine ⟨?_, ?_⟩
    · intro hc
      rcases step_child h hf.inv hc with hc | ⟨-, -, rfl⟩
      · exact Or.inr hc
      · exact Or.inl rfl
    · rintro (rfl | hc)
      · exact (hnew p).2 hr
      · exact born_child h hf.inv hc
  · rw [hf.mem_children hp]
    refine ⟨?_, born_child h hf.inv⟩
    intro hc
    exact (step_child h hf.inv hc).resolve_right fun hnew => hr hnew.2.1

/-- The children after any other step: those that have not finished in it. -/
theorem step_children (h : k.step e = .ok k') (hf : k.Family start total)
    (hf' : k'.Family start total) (hcreate : ∀ body stack, e ≠ .threadCreate body stack)
    (hp : k.threads p ≠ none) (hp' : k'.threads p ≠ none) :
    k'.liveChildren p = (k.liveChildren p).filter (k'.isFinished · = false) := by
  ext t
  rw [hf'.mem_children hp', Finset.mem_filter, hf.mem_children hp,
    step_childIff h hf.inv hcreate p t]
  exact and_congr_right fun _ => ⟨fun ha => ha.isFinished, alive_of_isFinished⟩

/-- A new thread starts with no children, since parents are older than their
children, and is counted in at its parent. -/
theorem born_counted {body : UInt64} {stack : ℕ} (h : k.step (.threadCreate body stack) = .ok k')
    (hf : k.Family start total) (hf' : k'.Family start total)
    (hend : start + memBlockSize * total < 2 ^ 64) (hr : k.RecordsCounted) :
    k'.RecordsCounted := by
  obtain ⟨a, hborn⟩ := newThread_born h hf.stored
  intro p th' hth'
  have hp' : k'.threads p ≠ none := by simp [hth']
  by_cases hp : p = k.ID + 1
  · subst hp
    rw [hborn.born, Option.some.injEq] at hth'
    subst hth'
    have hempty : k'.liveChildren (k.ID + 1) = ∅ := by
      refine Finset.eq_empty_of_forall_notMem ?_
      intro t ht
      have hchild := (hf'.mem_children hp').1 ht
      obtain ⟨th, hth, -⟩ := id hchild
      have hlt := hf'.first _ t hchild
      have hle := hf'.inv.named hth
      rw [hborn.ID] at hle
      exact absurd hle (Nat.not_le.2 hlt)
    rw [hempty]
    rfl
  · obtain ⟨th, hth, hn⟩ := hborn.counts p th' hth' hp
    have hpold : k.threads p ≠ none := by simp [hth]
    rw [hn, born_children h hf hf' hpold hp', hr p th hth]
    split_ifs with hrun
    · have hfresh : k.ID + 1 ∉ k.liveChildren p := by
        intro hin
        obtain ⟨th₁, hth₁, -⟩ := (hf.mem_children hpold).1 hin
        exact absurd (hf.inv.named hth₁) (Nat.not_succ_le_self _)
      rw [Finset.card_insert_of_notMem hfresh]
      exact wrap_of_lt (hf.card_lt hend hpold)
    · rfl

/-- The children after `exit`: all but the thread that called it. -/
theorem exit_children (h : k.step .threadExit = .ok k') (hf : k.Family start total)
    (hf' : k'.Family start total) (hp : k.threads p ≠ none) (hp' : k'.threads p ≠ none) :
    k'.liveChildren p = (k.liveChildren p).erase k.running := by
  rw [step_children h hf hf' (by simp) hp hp']
  ext t
  rw [Finset.mem_filter, Finset.mem_erase, and_comm]
  refine and_congr_left fun hin => ?_
  obtain ⟨th, hth, hst, -⟩ := (hf.mem_children hp).1 hin
  have halive := exit_alive h hf.inv (t := t)
  refine ⟨fun hfin => (halive.1 (alive_of_isFinished hfin)).2, fun hne => ?_⟩
  exact (halive.2 ⟨alive_iff.2 ⟨th, hth, hst⟩, hne⟩).isFinished

/-- A thread that exits is counted out at its parent, if the record is still there. -/
theorem exit_counted (h : k.step .threadExit = .ok k') (hf : k.Family start total)
    (hf' : k'.Family start total) (hend : start + memBlockSize * total < 2 ^ 64)
    (hr : k.RecordsCounted) : k'.RecordsCounted := by
  intro p th' hth'
  obtain ⟨th, hth, hst⟩ := alive_iff.1 hf.inv.running_alive
  obtain ⟨th₀, hth₀, hn⟩ := exit_counts h hth hth'
  have hp : k.threads p ≠ none := by simp [hth₀]
  have hchild : k.running ∈ k.liveChildren p ↔ th.parentThread = some p := by
    rw [hf.mem_children hp]
    refine ⟨?_, fun hpar => ⟨th, hth, hst, hpar⟩⟩
    rintro ⟨th₁, hth₁, -, hpar⟩
    obtain rfl : th = th₁ := Option.some.inj (hth.symm.trans hth₁)
    exact hpar
  rw [hn, exit_children h hf hf' hp (by simp [hth']), hr p th₀ hth₀]
  split_ifs with hpar
  · have hin := hchild.2 hpar
    have hlt := hf.card_lt hend hp
    rw [Finset.card_erase_of_mem hin]
    exact wrapSub_of_le (by omega) (Finset.card_pos.2 ⟨_, hin⟩)
  · rw [Finset.erase_eq_of_notMem (mt hchild.1 hpar)]

/-- A step that counts on keeps the counts. -/
theorem step_counted (h : k.step e = .ok k') (hf : k.Family start total)
    (hend : start + memBlockSize * total < 2 ^ 64) (hc : CountsOn k e) (hr : k.RecordsCounted) :
    k'.RecordsCounted := by
  have hf' := step_family h hf hc.2
  by_cases hcreate : ∃ body stack, e = .threadCreate body stack
  · obtain ⟨body, stack, rfl⟩ := hcreate
    exact born_counted h hf hf' hend hr
  by_cases hexit : e = .threadExit
  · subst hexit
    exact exit_counted h hf hf' hend hr
  have hcreate : ∀ body stack, e ≠ .threadCreate body stack := fun b st he => hcreate ⟨b, st, he⟩
  intro p th' hth'
  obtain ⟨th, hth, hn⟩ := step_sameCounts h hf.inv hcreate hexit p th' hth'
  have hp : k.threads p ≠ none := by simp [hth]
  rw [hn, hr p th hth, step_children h hf hf' hcreate hp (by simp [hth']),
    Finset.filter_true_of_mem]
  intro t ht
  obtain ⟨th₁, hth₁, hst₁, -⟩ := (hf.mem_children hp).1 ht
  exact (step_survives h hf.inv hexit hc.1 (alive_iff.2 ⟨th₁, hth₁, hst₁⟩)).isFinished

/-- Whoever kills an unfinished child keeps its count and has one child fewer. -/
theorem kill_miscounted (h : k.step (.subtleKill t) = .ok k') (hf : k.Family start total)
    (hchild : k.Child k.running t) (hr : k.RecordsCounted) : ¬k'.ChildrenCounted := by
  intro hcounted
  have hf' := step_family h hf (by simp [creates])
  obtain ⟨th, hth, hst, hpar⟩ := id hchild
  obtain ⟨thr, hthr, hstr⟩ := alive_iff.1 hf.inv.running_alive
  have hne : k.running ≠ t := Nat.ne_of_lt (hf.first _ _ hchild)
  have hk' : k' = k.setFinished t := by
    have hkill : (k.subtleKill t).2 = k' := Except.ok.inj h
    rw [← hkill]
    simp [subtleKill, hth, hpar, hne]
  have hrun : k'.threads k.running = some thr := by
    rw [hk']
    simp [setFinished, hne, hthr]
  have hp : k.threads k.running ≠ none := by simp [hthr]
  have hleft := step_children h hf hf' (by simp) hp (by simp [hrun])
  have hlt : (k'.liveChildren k.running).card < (k.liveChildren k.running).card := by
    rw [hleft]
    apply Finset.card_lt_card
    rw [Finset.filter_ssubset]
    refine ⟨t, (hf.mem_children hp).2 hchild, ?_⟩
    rw [hk']
    simp [isFinished, setFinished, hth]
  have hsame := (hr _ _ hthr).symm.trans (hcounted _ _ hrun hstr)
  exact absurd hsame (Nat.ne_of_gt hlt)

/-- A record made at the address of somebody's parent says zero children. -/
theorem reuse_miscounted {a : ℕ} (h : k.step e = .ok k') (hf : k.Family start total)
    (ha : a ∈ k.creates e) (ht : t ≤ k.ID) (hpar : k.ParentAt a t) : ¬k'.ChildrenCounted := by
  intro hcounted
  obtain ⟨body, stack, rfl⟩ : ∃ body stack, e = .threadCreate body stack := by
    cases e <;> first | exact ⟨_, _, rfl⟩ | cases ha
  obtain ⟨a', hborn⟩ := newThread_born h hf.stored
  obtain rfl : a = a' := Option.some.inj (ha.symm.trans hborn.record)
  obtain ⟨q, hchild, haddr⟩ := parentAt_iff.1 hpar
  have hq : q ≤ k.ID := (hf.first q t hchild).le.trans ht
  have hin : t ∈ k'.liveChildren (k.ID + 1) := by
    simp only [liveChildren, Finset.mem_filter, Finset.mem_range, hborn.ID, hborn.addr]
    refine ⟨Nat.lt_succ_of_le (Nat.le_succ_of_le ht),
      parentAt_iff.2 ⟨q, born_child h hf.inv hchild, ?_⟩⟩
    rw [step_threadAddr h hq, haddr]
  have hzero := hcounted _ _ hborn.born (by simp [newborn])
  exact absurd hzero (Nat.ne_of_lt (Finset.card_pos.2 ⟨t, hin⟩))

/-- A step that does not count on leaves a live thread with a wrong count. -/
theorem step_miscounted (h : k.step e = .ok k') (hf : k.Family start total) (hc : ¬CountsOn k e)
    (hr : k.RecordsCounted) : ¬k'.ChildrenCounted := by
  intro hcounted
  apply hc
  refine ⟨?_, ?_⟩
  · intro t ht hchild
    obtain rfl : e = .subtleKill t := by
      cases e <;> cases ht
      rfl
    exact kill_miscounted h hf hchild hr hcounted
  · intro a ha t ht hpar
    exact reuse_miscounted h hf ha ht hpar hcounted

/-! Runs. -/

theorem boot_family (hb : boot start total = some k) : k.Family start total := by
  refine ⟨boot_inv hb, boot_stored hb, ?_, ?_⟩
  · rintro p t ⟨th, hth, -, hpar⟩
    simp [(boot_single hb hth).2.1] at hpar
  · rintro q t p ⟨th, hth, -, hpar⟩
    simp [(boot_single hb hth).2.1] at hpar

theorem boot_counted (hb : boot start total = some k) : k.RecordsCounted := by
  have hf := boot_family hb
  intro p th hth
  have hempty : k.liveChildren p = ∅ := by
    refine Finset.eq_empty_of_forall_notMem ?_
    intro t ht
    obtain ⟨th', hth', -, hpar⟩ := (hf.mem_children (by simp [hth])).1 ht
    simp [(boot_single hb hth').2.1] at hpar
  obtain ⟨rfl, -, -⟩ := boot_single hb hth
  obtain ⟨stack, hp, a, hp', -, -, rfl⟩ := boot_ok hb
  simp only [bootState, Function.update_self, Option.some.injEq] at hth
  subst hth
  rw [hempty]
  rfl

/-- In every state of a run the live threads know how many live children they have
exactly when no step of the run kills an unfinished child or makes a record at the
address of the parent of an unfinished thread. -/
theorem children_counted {kb : Kernel} {es : List Event}
    (hend : start + memBlockSize * total < 2 ^ 64) (hb : boot start total = some kb)
    (h : Run step (fun _ _ => True) kb es k) :
    (∀ es₁ es₂ k₁, es = es₁ ++ es₂ → Run step (fun _ _ => True) kb es₁ k₁ → k₁.ChildrenCounted) ↔
      Run step CountsOn kb es k := by
  have hiff := h.good_iff (fun k => k.Family start total ∧ k.RecordsCounted)
    ⟨boot_family hb, boot_counted hb⟩ (fun k hk p th hth _ => hk.2 p th hth)
    (fun k e k' hk _ hc hstep =>
      ⟨step_family hstep hk.1 hc.2, step_counted hstep hk.1 hend hc hk.2⟩)
    (fun k e k' hk _ hc hstep => step_miscounted hstep hk.1 hc hk.2)
  rw [hiff]
  exact ⟨fun h => h.mono fun _ _ => And.right, fun h => h.mono fun _ _ => And.intro trivial⟩

/-- `main` creates a thread, which creates another one, which exits. -/
theorem children_counted_two : ∃ kb k, boot 1024 1000 = some kb ∧
    Run step CountsOn kb [.memAlloc 65, .threadCreate 4096 5328, .threadDispatch, .memAlloc 65,
      .threadCreate 4096 9744, .threadDispatch, .threadDispatch, .threadExit] k ∧
    ((∀ es₁ es₂ k₁, [.memAlloc 65, .threadCreate 4096 5328, .threadDispatch, .memAlloc 65,
      .threadCreate 4096 9744, .threadDispatch, .threadDispatch, .threadExit] = es₁ ++ es₂ →
        Run step (fun _ _ => True) kb es₁ k₁ → k₁.ChildrenCounted) ↔
      Run step CountsOn kb [.memAlloc 65, .threadCreate 4096 5328, .threadDispatch, .memAlloc 65,
        .threadCreate 4096 9744, .threadDispatch, .threadDispatch, .threadExit] k) := by
  have hrun : ((boot 1024 1000).bind fun kb => exec step CountsOn kb [.memAlloc 65,
      .threadCreate 4096 5328, .threadDispatch, .memAlloc 65, .threadCreate 4096 9744,
      .threadDispatch, .threadDispatch, .threadExit]).any (fun _ => true) = true := by
    decide +kernel
  obtain ⟨kb, k, hb, h, -⟩ := exists_run hrun
  exact ⟨kb, k, hb, h, children_counted (by decide) hb (h.mono fun _ _ _ => trivial)⟩

/-- `main` kills its only child and is left with one child in its record. In a
second run a thread exits before its child, and the next thread gets its address
and no child in its record. -/
theorem children_counted_fails :
    (∃ kb k, boot 1024 1000 = some kb ∧ Run step (fun _ _ => True) kb [.memAlloc 65,
      .threadCreate 4096 5328, .subtleKill 2] k ∧ ¬k.ChildrenCounted) ∧
    ∃ kb k, boot 1024 1000 = some kb ∧ Run step (fun _ _ => True) kb [.memAlloc 65,
      .threadCreate 4096 5328, .threadDispatch, .memAlloc 65, .threadCreate 4096 9744, .threadExit,
      .memAlloc 65, .threadCreate 4096 5328] k ∧ ¬k.ChildrenCounted := by
  have hkill : ((boot 1024 1000).bind fun kb => exec step (fun _ _ => True) kb [.memAlloc 65,
      .threadCreate 4096 5328, .subtleKill 2]).any (fun k => ∃ th ∈ k.threads 1,
        th.threadState ≠ .finished ∧ th.numOfChildren ≠ (k.liveChildren 1).card) = true := by
    decide +kernel
  have hreuse : ((boot 1024 1000).bind fun kb => exec step (fun _ _ => True) kb [.memAlloc 65,
      .threadCreate 4096 5328, .threadDispatch, .memAlloc 65, .threadCreate 4096 9744, .threadExit,
      .memAlloc 65, .threadCreate 4096 5328]).any (fun k => ∃ th ∈ k.threads 4,
        th.threadState ≠ .finished ∧ th.numOfChildren ≠ (k.liveChildren 4).card) = true := by
    decide +kernel
  refine ⟨?_, ?_⟩
  · obtain ⟨kb, k, hb, h, hq⟩ := exists_run hkill
    obtain ⟨th, hth, hst, hne⟩ := of_decide_eq_true hq
    exact ⟨kb, k, hb, h, fun hc => hne (hc 1 th hth hst)⟩
  · obtain ⟨kb, k, hb, h, hq⟩ := exists_run hreuse
    obtain ⟨th, hth, hst, hne⟩ := of_decide_eq_true hq
    exact ⟨kb, k, hb, h, fun hc => hne (hc 4 th hth hst)⟩

end Kernel
end OSK
