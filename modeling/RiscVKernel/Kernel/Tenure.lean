import RiscVKernel.Kernel.Accounts

/-! Blocks stay where they are. Whatever happens between, a block that one object or
user code holds all the time is never moved and never gets another size: the frees
of the kernel are of blocks that nobody else holds. -/

namespace OSK

open Lib

/-- The owners that hold the same blocks until they give them back; the lists of the
kernel get a node and lose it with each thread that comes and goes. -/
def Owner.lasts : Owner → Bool
  | .sem _ => true
  | .tcb _ => true
  | .stack _ => true
  | .user => true
  | _ => false

namespace Kernel

variable {k k' k₂ : Kernel} {t : Tid} {s : SemId} {cause : SemStatus} {c : Context} {o o' : Owner}
  {start total n p : ℕ} {hp : Heap}

/-- What `o` holds it held before, with the size it had before. -/
def Tenure (start total : ℕ) (o : Owner) (k k' : Kernel) : Prop :=
  k.Stored start total → k'.Stored start total ∧
    ∀ p ∈ k'.held o, p ∈ k.held o ∧ k'.heap.sizeAt p = k.heap.sizeAt p

theorem Tenure.refl (k : Kernel) : Tenure start total o k k := fun hs => ⟨hs, fun _ hp => ⟨hp, rfl⟩⟩

theorem Tenure.trans (h : Tenure start total o k k') (h' : Tenure start total o k' k₂) :
    Tenure start total o k k₂ := by
  intro hs
  obtain ⟨hs', hback⟩ := h hs
  obtain ⟨hs₂, hback'⟩ := h' hs'
  refine ⟨hs₂, fun p hp => ?_⟩
  obtain ⟨hp', he'⟩ := hback' p hp
  obtain ⟨hp, he⟩ := hback p hp'
  exact ⟨hp, he'.trans he⟩

/-- The heap is left alone. -/
theorem Tenure.same (hst : k.Stored start total → k'.Stored start total) (hh : k'.heap = k.heap)
    (ho : k'.held o = k.held o) : Tenure start total o k k' :=
  fun hs => ⟨hst hs, fun p hp => ⟨ho ▸ hp, by rw [hh]⟩⟩

/-- A block is allocated for another owner. -/
theorem Tenure.alloc (hst : k.Stored start total → k'.Stored start total)
    (hm : k.heap.kmalloc n = some (p, hp)) (hh : k'.heap = hp) (ho : k'.held o = k.held o) :
    Tenure start total o k k' := by
  intro hs
  obtain ⟨hfresh, hsize⟩ := Heap.kmalloc_sizeAt hs.wf hm
  refine ⟨hst hs, fun q hq => ?_⟩
  rw [ho] at hq
  have hne : q ≠ p := by
    rintro rfl
    exact hs.allotted.not_held hfresh o hq
  exact ⟨hq, by rw [hh, hsize, Function.update_of_ne hne]⟩

/-- A block of another owner is freed. -/
theorem Tenure.free (hst : k.Stored start total → k'.Stored start total) (hp : p ∈ k.held o')
    (hne : o' ≠ o) (hh : k'.heap = (k.heap.kmfree p).2) (ho : ∀ q ∈ k'.held o, q ∈ k.held o) :
    Tenure start total o k k' := by
  intro hs
  refine ⟨hst hs, fun q hq => ?_⟩
  have hqp : q ≠ p := by
    rintro rfl
    exact hne (hs.allotted.apart _ _ _ hp (ho q hq))
  exact ⟨ho q hq, by rw [hh, Heap.kmfree_sizeAt hs.wf, Function.update_of_ne hqp]⟩

/-- Calls that make and delete no object leave these owners alone. -/
theorem Stays.held (h : Stays k k') (ho : o.lasts = true) : k'.held o = k.held o := by
  cases o with
  | sem s =>
    have hsome := h.sem s
    cases hs : k.sems s <;> cases hs' : k'.sems s <;> simp [hs, hs'] at hsome <;>
      simp [Kernel.held, hs, hs', h.semAddr]
  | tcb t =>
    have hsome := h.isSome t
    cases ht : k.threads t <;> cases ht' : k'.threads t <;> simp [ht, ht'] at hsome <;>
      simp [Kernel.held, ht, ht', h.threadAddr]
  | stack t =>
    cases ht' : k'.threads t with
    | none =>
      have hsome := h.isSome t
      cases ht : k.threads t <;> simp [ht, ht'] at hsome
      simp [Kernel.held, ht, ht']
    | some th' =>
      obtain ⟨th, hth, horigin, -⟩ := h.record ht'
      have hstack : th'.stack = th.stack := congrArg (·.2.1) horigin
      simp [Kernel.held, ht', hth, hstack]
  | user => exact h.user
  | ready => cases ho
  | asleep => cases ho
  | blocked s => cases ho
  | semNode => cases ho

section

variable (ho : o.lasts = true)

include ho

theorem modifyThread_tenure (f : Thread → Thread)
    (hf : ∀ th, (f th).origin = th.origin ∧ (f th).context = th.context) :
    Tenure start total o k (k.modifyThread t f) :=
  .same (modifyThread_stored fun th => congrArg (·.2.1) (hf th).1) rfl
    ((modifyThread_stays k t f hf).held ho)

theorem note_tenure (n : Note) : Tenure start total o k (k.note n) :=
  .same (note_stored n) rfl ((note_stays k n).held ho)

theorem setThreadsSemStatus_tenure (st : SemStatus) :
    Tenure start total o k (k.setThreadsSemStatus t st) :=
  .same (setThreadsSemStatus_stored t st) rfl ((setThreadsSemStatus_stays k t st).held ho)

theorem setMySem_tenure (q : Option SemId) : Tenure start total o k (k.setMySem t q) :=
  modifyThread_tenure ho _ fun _ => ⟨rfl, rfl⟩

theorem setTimeForWakingUp_tenure (m : ℕ) : Tenure start total o k (k.setTimeForWakingUp t m) :=
  modifyThread_tenure ho _ fun _ => ⟨rfl, rfl⟩

theorem setThreadState_tenure (st : ThreadState) :
    Tenure start total o k (k.setThreadState t st) :=
  modifyThread_tenure ho _ fun _ => ⟨rfl, rfl⟩

theorem addVal_tenure {d : ℤ} {r : ℤ × Kernel} (h : k.addVal s d = .ok r) :
    Tenure start total o k r.2 := by
  intro hs
  obtain ⟨hs', hh⟩ := addVal_stored h hs
  exact Tenure.same (fun _ => hs') hh ((addVal_stays h).held ho) hs

theorem incTimedWaiting_tenure (h : k.incTimedWaiting s = .ok k') : Tenure start total o k k' := by
  have hh : k'.heap = k.heap := by
    obtain ⟨m, -, rfl⟩ := incTimedWaiting_ok h
    rfl
  exact .same (incTimedWaiting_stored h) hh ((incTimedWaiting_stays h).held ho)

theorem decTimedWaiting_tenure (s : SemId) : Tenure start total o k (k.decTimedWaiting s) := by
  have hh : (k.decTimedWaiting s).heap = k.heap := by
    unfold decTimedWaiting
    cases k.sems s <;> rfl
  exact .same (decTimedWaiting_stored s) hh ((decTimedWaiting_stays k s).held ho)

theorem put_tenure (h : k.put t = .ok k') : Tenure start total o k k' := by
  obtain ⟨node, hp, hm, he⟩ := put_ok h
  exact .alloc (put_stored h) hm (by rw [he]) ((put_stays h).held ho)

theorem insertAsleep_tenure (h : k.insertAsleep t = .ok k') (ht : k.threads t ≠ none) :
    Tenure start total o k k' := by
  obtain ⟨node, hp, hm, he⟩ := insertAsleep_ok h ht
  exact .alloc (insertAsleep_stored h ht) hm (by rw [he]) ((insertAsleep_stays h).held ho)

theorem addBlocked_tenure (h : k.addBlocked s t = .ok k') : Tenure start total o k k' := by
  obtain ⟨m, node, hp, hm, hk, he⟩ := addBlocked_ok h
  exact .alloc (addBlocked_stored h) hk (by rw [he]; rfl) ((addBlocked_stays h).held ho)

theorem firstBlocked_tenure (h : k.firstBlocked s = .ok (some t, k')) :
    Tenure start total o k k' := by
  have hheld := (firstBlocked_stays h).held ho
  obtain ⟨m, hm, ⟨-, hr⟩ | ⟨e, q, hq, hr⟩⟩ := firstBlocked_ok h
  · cases hr
  · have hmem : e.node ∈ k.held (.blocked s) := by simp [held_blocked hm, hq]
    have hne : Owner.blocked s ≠ o := by
      rintro rfl
      cases ho
    refine .free (fun hs => (firstBlocked_stored h hs).1) hmem hne ?_ fun q hq => hheld ▸ hq
    cases hr
    rfl

theorem removeBlocked_tenure (h : k.removeBlocked s t = .ok k') : Tenure start total o k k' := by
  have hheld := (removeBlocked_stays h).held ho
  have hst : k.Stored start total → k'.Stored start total := fun hs => (removeBlocked_stored h hs).1
  obtain ⟨m, hm, he⟩ := removeBlocked_ok h
  rcases KList.removeSpec_cases k.heap m.queueBlocked t with ⟨-, hr⟩ | ⟨l₁, e, l₂, hl, -, -, hr⟩
  · exact .same hst (by rw [he, hr]; rfl) hheld
  · have hmem : e.node ∈ k.held (.blocked s) := by simp [held_blocked hm, hl]
    have hne : Owner.blocked s ≠ o := by
      rintro rfl
      cases ho
    exact .free hst hmem hne (by rw [he, hr]; rfl) fun q hq => hheld ▸ hq

theorem removeThreadFromSleep_tenure (t : Tid) :
    Tenure start total o k (k.removeThreadFromSleep t).2 := by
  have hheld := (removeThreadFromSleep_stays k t).held ho
  have hst : k.Stored start total → (k.removeThreadFromSleep t).2.Stored start total :=
    fun hs => (removeThreadFromSleep_stored t hs).1
  rcases KList.removeSpec_cases k.heap k.listAsleepThreads t with ⟨-, hr⟩ | ⟨l₁, e, l₂, hl, -, -, hr⟩
  · exact .same hst (by simp [removeThreadFromSleep, hr]) hheld
  · have hmem : e.node ∈ k.held .asleep := by simp [Kernel.held, hl]
    have hne : Owner.asleep ≠ o := by
      rintro rfl
      cases ho
    exact .free hst hmem hne (by simp [removeThreadFromSleep, hr]) fun q hq => hheld ▸ hq

theorem removeReady_tenure (t : Tid) : Tenure start total o k (k.removeReady t).2 := by
  have hheld := (removeReady_stays k t).held ho
  rcases KList.removeSpec_cases k.heap k.queueThreads t with ⟨-, hr⟩ | ⟨l₁, e, l₂, hl, -, -, hr⟩
  · exact .same (removeReady_stored t) (by simp [removeReady, hr]) hheld
  · have hmem : e.node ∈ k.held .ready := by simp [Kernel.held, hl]
    have hne : Owner.ready ≠ o := by
      rintro rfl
      cases ho
    exact .free (removeReady_stored t) hmem hne (by simp [removeReady, hr]) fun q hq => hheld ▸ hq

theorem get_tenure (h : k.get.1 = some t) : Tenure start total o k k.get.2 := by
  have hheld := (get_stays k).held ho
  obtain ⟨e, q, hq, -, he⟩ := get_some h
  have hmem : e.node ∈ k.held .ready := by simp [Kernel.held, hq]
  have hne : Owner.ready ≠ o := by
    rintro rfl
    cases ho
  exact .free get_stored hmem hne (by rw [he]) fun q hq => hheld ▸ hq

/-! Calls that move threads. -/

theorem release_tenure (h : k.release t s cause = .ok k') : Tenure start total o k k' :=
  (((setMySem_tenure ho none).trans (setThreadsSemStatus_tenure ho cause)).trans
    (note_tenure ho _)).trans (put_tenure ho h)

theorem unblock_tenure (h : k.unblock s cause = .ok k') : Tenure start total o k k' := by
  obtain ⟨t, k₁, th, hf, -, hr⟩ := unblock_ok h
  refine (firstBlocked_tenure ho hf).trans (.trans ?_ (release_tenure ho hr))
  split_ifs
  · exact removeThreadFromSleep_tenure ho t
  · exact .refl _

theorem unblockAll_tenure {n : ℕ} (h : k.unblockAll s cause n = .ok k') :
    Tenure start total o k k' := by
  induction n generalizing k with
  | zero =>
    cases h
    exact .refl _
  | succ n ih =>
    obtain ⟨k₁, r, hu, ha, h⟩ := unblockAll_ok h
    exact ((unblock_tenure ho hu).trans (addVal_tenure ho ha)).trans (ih h)

theorem signal_tenure {r : ℤ × Kernel} (h : k.signal s = .ok r) : Tenure start total o k r.2 := by
  obtain ⟨val, k₁, ha, ⟨-, rfl⟩ | ⟨-, k', hu, rfl⟩⟩ := signal_ok h
  · exact (addVal_tenure ho ha).trans (note_tenure ho _)
  · exact ((addVal_tenure ho ha).trans (note_tenure ho _)).trans (unblock_tenure ho hu)

theorem unblockedByTime_tenure (h : k.unblockedByTime s t = .ok k') :
    Tenure start total o k k' := by
  obtain ⟨th, -, ⟨-, rfl⟩ | ⟨-, r, k₁, ha, hb, hr⟩⟩ := unblockedByTime_ok h
  · exact .refl _
  · exact (((addVal_tenure ho ha).trans (removeThreadFromSleep_tenure ho t)).trans
      (removeBlocked_tenure ho hb)).trans (release_tenure ho hr)

theorem wakeThreadUp_tenure (h : k.wakeThreadUp t = .ok k') : Tenure start total o k k' := by
  cases ht : k.threads t with
  | none =>
    unfold wakeThreadUp at h
    simp only [ht] at h
    cases h
    exact .refl _
  | some th =>
    rcases wakeThreadUp_ok h ht with ⟨-, ⟨-, rfl⟩ | ⟨s, -, hu⟩⟩ | ⟨-, ⟨-, hput⟩ | ⟨-, rfl⟩⟩
    · exact .refl _
    · exact unblockedByTime_tenure ho hu
    · exact (removeThreadFromSleep_tenure ho t).trans (put_tenure ho hput)
    · exact removeThreadFromSleep_tenure ho t

theorem wakeAsleepThreadsUp_tenure (h : k.incTime.wakeAsleepThreadsUp = .ok k') :
    Tenure start total o k k' := by
  have htime : Tenure start total o k k.incTime :=
    .same (fun hs => hs.congr rfl fun o => by cases o <;> rfl) rfl (by cases o <;> rfl)
  refine htime.trans ?_
  exact foreachWhile_rel (R := Tenure start total o) .refl .trans
    (fun _ _ _ => wakeThreadUp_tenure ho) h

/-! `dispatch`. -/

/-- The stack and the record of the deleted thread are not held any more. -/
theorem deleteThread_tenure (h : k.deleteThread t = .ok k') : Tenure start total o k k' := by
  intro hs
  refine ⟨deleteThread_stored h hs, fun q hq => ?_⟩
  obtain ⟨th, hth, rfl⟩ := deleteThread_ok h
  have hstack : th.stack ∈ k.held (.stack t) := by simp [Kernel.held, hth]
  have htcb : k.threadAddr t ∈ k.held (.tcb t) := by simp [Kernel.held, hth]
  have hold : q ∈ k.held o ∧ o ≠ .stack t ∧ o ≠ .tcb t := by
    cases o with
    | tcb t' =>
      by_cases he : t' = t
      · subst he
        simp [Kernel.held] at hq
      · simpa [Kernel.held, he] using hq
    | stack t' =>
      by_cases he : t' = t
      · subst he
        simp [Kernel.held] at hq
      · simpa [Kernel.held, he] using hq
    | sem s => exact ⟨hq, by simp, by simp⟩
    | user => exact ⟨hq, by simp, by simp⟩
    | ready => cases ho
    | asleep => cases ho
    | blocked s => cases ho
    | semNode => cases ho
  obtain ⟨hqo, hne₁, hne₂⟩ := hold
  have hq₁ : q ≠ th.stack := by
    rintro rfl
    exact hne₁ (hs.allotted.apart _ _ _ hqo hstack)
  have hq₂ : q ≠ k.threadAddr t := by
    rintro rfl
    exact hne₂ (hs.allotted.apart _ _ _ hqo htcb)
  refine ⟨hqo, ?_⟩
  rw [Heap.kmfree_sizeAt (Heap.kmfree_wf hs.wf), Heap.kmfree_sizeAt hs.wf,
    Function.update_of_ne hq₂, Function.update_of_ne hq₁]

theorem deleteThreadInDispatch_tenure (h : k.deleteThreadInDispatch t = .ok k') :
    Tenure start total o k k' := by
  unfold deleteThreadInDispatch at h
  dsimp only at h
  split_ifs at h
  · exact (removeReady_tenure ho t).trans (deleteThread_tenure ho h)
  · cases h
    exact removeReady_tenure ho t

theorem leave_tenure (h : k.leave = .ok k') : Tenure start total o k k' := by
  obtain ⟨th, -, ⟨-, hput⟩ | ⟨-, rfl⟩ | ⟨-, hd⟩⟩ := leave_ok h
  · exact (setThreadState_tenure ho _).trans (put_tenure ho hput)
  · exact .refl _
  · exact deleteThread_tenure ho hd

omit ho in
theorem saveContext_tenure (t : Tid) (c : Context) : Tenure start total o k (k.saveContext t c) := by
  have hheld : (k.saveContext t c).held = k.held := by
    unfold saveContext
    split_ifs
    · exact modifyThread_held fun _ => rfl
    · funext o
      cases o <;> rfl
  have hh : (k.saveContext t c).heap = k.heap := by
    unfold saveContext
    split_ifs <;> rfl
  exact .same (saveContext_stored t c) hh (congrFun hheld o)

theorem generateWaitResponses_tenure (h : k.generateWaitResponses s = .ok k') :
    Tenure start total o k k' := by
  obtain ⟨th, a, -, -, rfl⟩ := generateWaitResponses_ok h
  exact (setThreadsSemStatus_tenure ho _).trans (note_tenure ho _)

theorem resume_tenure (h : k.resume = .ok k') : Tenure start total o k k' := by
  obtain ⟨th, -, ⟨-, rfl⟩ | ⟨s, -, hb⟩ | ⟨s, -, hb⟩ | ⟨-, rfl⟩⟩ := resume_ok h
  · exact .refl _
  · exact (setMySem_tenure ho none).trans (generateWaitResponses_tenure ho hb)
  · exact (((setMySem_tenure ho none).trans (decTimedWaiting_tenure ho s)).trans
      (setTimeForWakingUp_tenure ho 0)).trans (generateWaitResponses_tenure ho hb)
  · exact (setThreadState_tenure ho _).trans (setTimeForWakingUp_tenure ho 0)

theorem arrive_tenure (h : k.arrive c = .ok k') : Tenure start total o k k' := by
  obtain ⟨k₁, t, hsweep, hg, hr⟩ := arrive_ok h
  have hrun : Tenure start total o k₁.get.2 { k₁.get.2 with running := t } :=
    .same (fun hs => hs.congr rfl fun o => by cases o <;> rfl) rfl (by cases o <;> rfl)
  refine Tenure.trans ?_ (resume_tenure ho hr)
  refine Tenure.trans ?_ (saveContext_tenure k.running c)
  refine Tenure.trans ?_ (setThreadState_tenure ho _)
  refine Tenure.trans ?_ (hrun)
  refine Tenure.trans ?_ (get_tenure ho hg)
  exact foreachWhile_rel (R := Tenure start total o) .refl .trans
    (fun _ _ _ => deleteThreadInDispatch_tenure ho) hsweep

theorem dispatch_tenure (h : k.dispatch c = .ok k') : Tenure start total o k k' := by
  obtain ⟨k₁, hl, ha⟩ := dispatch_ok h
  have hcpu : Tenure start total o k { k with runningThreadCpuTime := 0 } :=
    .same (cpu_stored 0) rfl (by cases o <;> rfl)
  exact (hcpu.trans (leave_tenure ho hl)).trans (arrive_tenure ho ha)

/-! The system calls. -/

theorem exit_tenure (h : k.exit = .ok k') : Tenure start total o k k' := by
  obtain ⟨th, k₁, -, hk₁, hd⟩ := exit_ok h
  have hfirst : Tenure start total o k k₁ := by
    rcases hk₁ with ⟨rfl, -⟩ | ⟨p, -, rfl⟩
    · exact .refl _
    · refine .same (decNumOfChildren_stored p) ?_ ((decNumOfChildren_stays k p).held ho)
      unfold decNumOfChildren
      split_ifs <;> rfl
  have hfin : Tenure start total o k₁ (k₁.setFinished k.running) :=
    modifyThread_tenure ho _ fun _ => ⟨rfl, rfl⟩
  exact (hfirst.trans hfin).trans (dispatch_tenure ho hd)

theorem wait_tenure (h : k.wait s = .ok k') : Tenure start total o k k' := by
  obtain ⟨r, ha, ⟨-, rfl⟩ | ⟨-, hb⟩⟩ := wait_ok h
  · exact (addVal_tenure ho ha).trans (note_tenure ho _)
  · obtain ⟨k₁, hadd, hd⟩ := block_ok hb
    exact ((((addVal_tenure ho ha).trans (addBlocked_tenure ho hadd)).trans
      (setThreadsSemStatus_tenure ho _)).trans (setMySem_tenure ho _)).trans (dispatch_tenure ho hd)

theorem timedWait_tenure {m : UInt64} {loc : Tid → Place} (h : k.timedWait s m = .ok k')
    (hl : k.Located loc) : Tenure start total o k k' := by
  obtain ⟨r, ha, ⟨-, rfl⟩ | ⟨-, k₁, k₂, k₃, hadd, hne, hi, hn, -, hd⟩⟩ := timedWait_parks h hl
  · exact (addVal_tenure ho ha).trans (note_tenure ho _)
  · have htiming : Tenure start total o r.2 (r.2.timing k.running (wrap (m.toNat + r.2.sysTime))) :=
      (setThreadsSemStatus_tenure ho _).trans (setTimeForWakingUp_tenure ho _)
    exact ((((((addVal_tenure ho ha).trans htiming).trans (addBlocked_tenure ho hadd)).trans
      (insertAsleep_tenure ho hi hne)).trans (incTimedWaiting_tenure ho hn)).trans
      (setMySem_tenure ho _)).trans (dispatch_tenure ho hd)

theorem putThreadToSleep_tenure {m : UInt64} {loc : Tid → Place}
    (h : k.putThreadToSleep m = .ok k') (hl : k.Located loc) : Tenure start total o k k' := by
  obtain ⟨k₁, hne, hi, -, hd⟩ := putThreadToSleep_parks h hl
  have hdozing : Tenure start total o k (k.dozing k.running (wrap (k.sysTime + m.toNat))) :=
    (setThreadState_tenure ho _).trans (setTimeForWakingUp_tenure ho _)
  exact (hdozing.trans (insertAsleep_tenure ho hi hne)).trans (dispatch_tenure ho hd)

theorem timerInterruptHandler_tenure (h : k.timerInterruptHandler = .ok k') :
    Tenure start total o k k' := by
  obtain ⟨k₁, th, hw, -, ⟨-, hd⟩ | ⟨-, rfl⟩⟩ := timerInterruptHandler_ok h
  · exact (wakeAsleepThreadsUp_tenure ho hw).trans (dispatch_tenure ho hd)
  · exact wakeAsleepThreadsUp_tenure ho hw

end

/-! Any event. -/

/-- An allocation leaves the blocks in use as they are. -/
theorem alloc_sizeAt {h : Heap} {q : ℕ} (hw : h.WF start total) (hm : h.kmalloc n = some (p, hp))
    (hq : h.sizeAt q ≠ none) : hp.sizeAt q = h.sizeAt q := by
  obtain ⟨hfresh, hsize⟩ := Heap.kmalloc_sizeAt hw hm
  have hne : q ≠ p := by
    rintro rfl
    exact hq hfresh
  rw [hsize, Function.update_of_ne hne]

theorem Stored.in_use (hs : k.Stored start total) (hp : p ∈ k.held o) : k.heap.sizeAt p ≠ none := by
  obtain ⟨n, hn, -⟩ := hs.allotted.taken o p hp
  simp [hn]

/-- All nodes of lists have one size. -/
theorem Stored.node_size (hs : k.Stored start total) (ho : o.lasts = false) (hp : p ∈ k.held o) :
    k.heap.sizeAt p = some (blocksFor 16) := by
  obtain ⟨n, hn, hfits⟩ := hs.allotted.taken o p hp
  cases o with
  | ready => exact hfits ▸ hn
  | asleep => exact hfits ▸ hn
  | blocked s => exact hfits ▸ hn
  | semNode => exact hfits ▸ hn
  | sem s => cases ho
  | tcb t => cases ho
  | stack t => cases ho
  | user => cases ho

/-- A block that is freed for its owner is another one. -/
theorem memFree_sizeAt {q : ℕ} (hs : k.Stored start total) (hq : q ∈ k.user ∨ q ∉ k.heap.payloads)
    (hp : p ∈ k.held o) (hp' : p ∈ held { k with heap := (k.heap.kmfree q).2, user := k.user.erase q } o) :
    (k.heap.kmfree q).2.sizeAt p = k.heap.sizeAt p := by
  have hne : p ≠ q := by
    rintro rfl
    rcases hq with hq | hq
    · obtain rfl := hs.allotted.apart o .user p hp hq
      exact ((hs.allotted.nodup .user).mem_erase_iff.1 hp').1 rfl
    · exact hq (Heap.mem_payloads.2 (hs.in_use hp))
  rw [Heap.kmfree_sizeAt hs.wf, Function.update_of_ne hne]

theorem newThread_sizeAt {body : UInt64} {stack : ℕ} (h : k.newThread body stack = .ok k')
    (hs : k.Stored start total) (hp : p ∈ k.held o) : k'.heap.sizeAt p = k.heap.sizeAt p := by
  obtain ⟨-, q, h₁, k₁, hm, hk₁, rfl⟩ := newThread_ok h
  have hfirst := alloc_sizeAt hs.wf hm (hs.in_use hp)
  rcases hk₁ with ⟨-, hput⟩ | ⟨-, rfl⟩
  · obtain ⟨node, h₂, hm', rfl⟩ := put_ok hput
    have hm' : h₁.kmalloc (blocksFor 16) = some (node, h₂) := hm'
    exact (alloc_sizeAt (Heap.kmalloc_wf hs.wf hm) hm' (hfirst ▸ hs.in_use hp)).trans hfirst
  · exact hfirst

theorem newSem_sizeAt {m : UInt64} (h : k.newSem m = .ok k') (hs : k.Stored start total)
    (hp : p ∈ k.held o) : k'.heap.sizeAt p = k.heap.sizeAt p := by
  obtain ⟨q, h₁, node, h₂, hm, hm', rfl⟩ := newSem_ok h
  have hfirst := alloc_sizeAt hs.wf hm (hs.in_use hp)
  exact (alloc_sizeAt (Heap.kmalloc_wf hs.wf hm) hm' (hfirst ▸ hs.in_use hp)).trans hfirst

/-- The node and the record of the semaphore are freed, which others do not hold. -/
theorem forgetSem_sizeAt (hs : k.Stored start total) (hopen : k.sems s ≠ none)
    (ho : o.lasts = true) (hne : o ≠ .sem s) (hp : p ∈ k.held o) :
    (k.forgetSem s).heap.sizeAt p = k.heap.sizeAt p := by
  obtain ⟨m, hm⟩ := Option.ne_none_iff_exists'.1 hopen
  have hrecord : k.semAddr s ∈ k.held (.sem s) := by simp [held, hm]
  have hp₁ : p ≠ k.semAddr s := by
    rintro rfl
    exact hne (hs.allotted.apart _ _ _ hp hrecord)
  unfold forgetSem
  rcases KList.removeSpec_cases k.heap k.allSemaphores s with ⟨-, hr⟩ | ⟨l₁, e, l₂, hl, -, -, hr⟩
  · simp only [hr]
    rw [Heap.kmfree_sizeAt hs.wf, Function.update_of_ne hp₁]
  · have hnode : e.node ∈ k.held .semNode := by simp [held, hl]
    have hp₂ : p ≠ e.node := by
      rintro rfl
      have hsame := hs.allotted.apart _ _ _ hp hnode
      rw [hsame] at ho
      cases ho
    simp only [hr]
    rw [Heap.kmfree_sizeAt (Heap.kmfree_wf hs.wf), Heap.kmfree_sizeAt hs.wf,
      Function.update_of_ne hp₁, Function.update_of_ne hp₂]

theorem deleteSem_sizeAt (h : k.deleteSem s = .ok k') (hs : k.Stored start total)
    (ho : o.lasts = true) (hp' : p ∈ k'.held o) : k'.heap.sizeAt p = k.heap.sizeAt p := by
  obtain ⟨m, k₁, hm, hu, rfl⟩ := deleteSem_ok h
  obtain ⟨hs₁, hback⟩ := unblockAll_tenure ho hu hs
  have hopen : k₁.sems s ≠ none := by
    have := (unblockAll_stays hu).sem s
    simpa [hm, Option.isSome_iff_ne_none] using this
  have hne : o ≠ .sem s := by
    rintro rfl
    simp [held] at hp'
  have hp₁ : p ∈ k₁.held o := by
    cases o with
    | sem s' =>
      have he : s' ≠ s := fun he => hne (he ▸ rfl)
      simpa [held, he] using hp'
    | tcb t => exact hp'
    | stack t => exact hp'
    | user => exact hp'
    | ready => cases ho
    | asleep => cases ho
    | blocked s => cases ho
    | semNode => cases ho
  exact (forgetSem_sizeAt hs₁ hopen ho hne hp₁).trans (hback p hp₁).2

/-- What an owner holds before and after an event has kept its size. -/
theorem step_sizeAt {e : Event} (h : k.step e = .ok k') (hi : k.Inv) (hs : k.Stored start total)
    (hp : p ∈ k.held o) (hp' : p ∈ k'.held o) : k'.heap.sizeAt p = k.heap.sizeAt p := by
  obtain ⟨loc, hl⟩ := hi.located
  cases ho : o.lasts with
  | false => rw [hs.node_size ho hp, (step_stored h hi hs).node_size ho hp']
  | true =>
    have hkept : Tenure start total o k k' → k'.heap.sizeAt p = k.heap.sizeAt p :=
      fun ht => ((ht hs).2 p hp').2
    cases step_effect h with
    | idle => rfl
    | memAlloc q hq hm => exact alloc_sizeAt hs.wf hm (hs.in_use hp)
    | memFree hq => exact memFree_sizeAt hs hq hp hp'
    | threadCreate h => exact newThread_sizeAt h hs hp
    | threadExit h => exact hkept (exit_tenure ho h)
    | threadDispatch h => exact hkept (dispatch_tenure ho h)
    | semOpen h => exact newSem_sizeAt h hs hp
    | semClose s h => exact deleteSem_sizeAt h hs ho hp'
    | semWait s h => exact hkept (wait_tenure ho h)
    | semSignal s hr => exact hkept (signal_tenure ho hr)
    | semTimedwait s h => exact hkept (timedWait_tenure ho h hl)
    | semTrywait s hr => exact hkept (addVal_tenure ho hr)
    | timeSleep h => exact hkept (putThreadToSleep_tenure ho h hl)
    | tick h => exact hkept (timerInterruptHandler_tenure ho h)
    | subtleKill t =>
      have hheap : (k.subtleKill t).2.heap = k.heap := by
        unfold subtleKill
        split
        · rfl
        · split_ifs <;> rfl
      rw [hheap]

/-- In every run, whatever all threads do: as long as an object, a list or user code
holds a block, the block is in use and has the size it was allocated with. -/
theorem run_sizeAt {k₀ : Kernel} {es es' : List Event} (hb : boot start total = some k₀)
    (h : Run step (fun _ _ => True) k₀ es k) (h' : Run step (fun k _ => p ∈ k.held o) k es' k')
    (hp : p ∈ k.held o) (hp' : p ∈ k'.held o) :
    k'.heap.sizeAt p = k.heap.sizeAt p ∧ k'.heap.sizeAt p ≠ none := by
  obtain ⟨hi, hs⟩ := run_stored hb h
  have hsize : k'.heap.sizeAt p = k.heap.sizeAt p := by
    induction h' with
    | nil => rfl
    | @snoc es k₁ e k₂ hrun hP hstep ih =>
      have h₁ := h.trans (hrun.mono fun _ _ _ => trivial)
      obtain ⟨hi₁, hs₁⟩ := run_stored hb h₁
      exact (step_sizeAt hstep hi₁ hs₁ hP hp').trans (ih hP)
  exact ⟨hsize, hsize ▸ hs.in_use hp⟩

/-- User code holds a block while another is freed and a thread is made and runs. -/
theorem run_sizeAt_two : ∃ k₀ k k', boot 1024 1000 = some k₀ ∧
    Run step (fun _ _ => True) k₀ [.memAlloc 2, .memAlloc 65, .memAlloc 1] k ∧
    Run step (fun k _ => 5328 ∈ k.held .user) k
      [.memFree 9616, .threadCreate 4096 5456, .threadDispatch] k' ∧
    k'.heap.sizeAt 5328 = k.heap.sizeAt 5328 ∧ k'.heap.sizeAt 5328 ≠ none := by
  have hrun : ((boot 1024 1000).bind fun k₀ => exec step (fun _ _ => True) k₀
      [.memAlloc 2, .memAlloc 65, .memAlloc 1]).any (fun k =>
        decide (5328 ∈ k.held .user) &&
        (exec step (fun k _ => 5328 ∈ k.held .user) k
          [.memFree 9616, .threadCreate 4096 5456, .threadDispatch]).any fun k' =>
            decide (5328 ∈ k'.held .user)) = true := by
    decide +kernel
  obtain ⟨k₀, k, hb, h, hq⟩ := exists_run hrun
  obtain ⟨hp, hq⟩ := Bool.and_eq_true_iff.1 hq
  obtain ⟨k', h', hp'⟩ := exists_run_from hq
  exact ⟨k₀, k, k', hb, h, h', run_sizeAt hb h h' (of_decide_eq_true hp) (of_decide_eq_true hp')⟩

end Kernel
end OSK
