import RiscVKernel.Kernel.Steps

/-! The list of sleeping threads. It stands in the order of the times to wake,
so that a tick, which stops at the first thread that is not due, wakes all that
are: a thread sleeps exactly as many ticks as it asked for. -/

namespace OSK

open Lib

/-- Inserting in front of the first entry that is not smaller keeps the order. -/
theorem KList.insert_sorted {α : Type} {f : α → ℕ} {l : KList α} {p : Elem α → Bool} {x : α}
    {node : ℕ} (hp : ∀ e ∈ l, p e = true ↔ f e.data < f x)
    (hs : l.items.Pairwise fun a b => f a ≤ f b) :
    (items (l.takeWhile p ++ ⟨node, x⟩ :: l.dropWhile p)).Pairwise fun a b => f a ≤ f b := by
  induction l with
  | nil => simp
  | cons a l ih =>
    rw [items_cons, List.pairwise_cons] at hs
    by_cases ha : p a = true
    · have hlt := (hp a (by simp)).1 ha
      rw [List.takeWhile_cons_of_pos ha, List.dropWhile_cons_of_pos ha, List.cons_append,
        items_cons, List.pairwise_cons]
      refine ⟨?_, ih (fun e he => hp e (List.mem_cons_of_mem _ he)) hs.2⟩
      intro b hb
      rcases List.mem_cons.1 ((items_insert p node).mem_iff.1 hb) with rfl | hb
      · exact hlt.le
      · exact hs.1 b hb
    · have hle : f x ≤ f a.data := not_lt.1 fun h => ha ((hp a (by simp)).2 h)
      rw [List.takeWhile_cons_of_neg ha, List.dropWhile_cons_of_neg ha, List.nil_append,
        items_cons, items_cons]
      refine List.pairwise_cons.2 ⟨?_, List.pairwise_cons.2 hs⟩
      intro b hb
      rcases List.mem_cons.1 hb with rfl | hb
      · exact hle
      · exact hle.trans (hs.1 b hb)

namespace Kernel

variable {k k' k₂ : Kernel} {t : Tid} {s : SemId} {loc loc' : Tid → Place} {c : Context}
  {cause : SemStatus}

/-- The sleep list is in the order of the times to wake. -/
def SleepSorted (k : Kernel) : Prop :=
  k.listAsleepThreads.items.Pairwise fun a b => k.wakeTime a ≤ k.wakeTime b

/-! Calls that put no thread to sleep. -/

def Thins (k k' : Kernel) : Prop :=
  k'.listAsleepThreads.items.Sublist k.listAsleepThreads.items

theorem Thins.refl (k : Kernel) : Thins k k := List.Sublist.refl _

theorem Thins.trans (h : Thins k k') (h' : Thins k' k₂) : Thins k k₂ := List.Sublist.trans h' h

theorem thins_of_eq (h : k'.listAsleepThreads = k.listAsleepThreads) : Thins k k' := by
  unfold Thins
  rw [h]

theorem Thins.of_eq {k₀ : Kernel} (h : Thins k k')
    (he : k.listAsleepThreads = k₀.listAsleepThreads) : Thins k₀ k' := by
  unfold Thins at *
  rwa [← he]

theorem put_thins (h : k.put t = .ok k') : Thins k k' := by
  obtain ⟨node, hp, -, rfl⟩ := put_ok h
  exact thins_of_eq rfl

theorem addVal_thins {d : ℤ} {r : ℤ × Kernel} (h : k.addVal s d = .ok r) : Thins k r.2 := by
  obtain ⟨m, -, -, rfl⟩ := addVal_ok h
  exact thins_of_eq rfl

theorem addBlocked_thins (h : k.addBlocked s t = .ok k') : Thins k k' := by
  obtain ⟨m, node, hp, -, -, rfl⟩ := addBlocked_ok h
  exact thins_of_eq rfl

theorem removeBlocked_thins (h : k.removeBlocked s t = .ok k') : Thins k k' := by
  obtain ⟨m, -, rfl⟩ := removeBlocked_ok h
  exact thins_of_eq rfl

theorem removeThreadFromSleep_thins (k : Kernel) (t : Tid) :
    Thins k (k.removeThreadFromSleep t).2 := by
  have hl : (k.removeThreadFromSleep t).2.listAsleepThreads.items =
      k.listAsleepThreads.items.erase t := KList.removeSpec_items ..
  unfold Thins
  rw [hl]
  exact List.erase_sublist

theorem release_thins (h : k.release t s cause = .ok k') : Thins k k' := by
  obtain ⟨node, hp, -, rfl⟩ := put_ok h
  exact thins_of_eq rfl

theorem unblock_thins (h : k.unblock s cause = .ok k') : Thins k k' := by
  obtain ⟨t, k₁, th, hf, -, hr⟩ := unblock_ok h
  obtain ⟨m, hm, ⟨-, hr'⟩ | ⟨e, q, hq, he⟩⟩ := firstBlocked_ok hf
  · cases hr'
  cases he
  refine Thins.trans ?_ (release_thins hr)
  split_ifs
  · exact removeThreadFromSleep_thins _ _
  · exact thins_of_eq rfl

theorem unblockAll_thins {n : ℕ} (h : k.unblockAll s cause n = .ok k') : Thins k k' := by
  induction n generalizing k with
  | zero =>
    cases h
    exact .refl _
  | succ n ih =>
    obtain ⟨k₁, r, hu, ha, h⟩ := unblockAll_ok h
    exact ((unblock_thins hu).trans (addVal_thins ha)).trans (ih h)

theorem unblockedByTime_thins (h : k.unblockedByTime s t = .ok k') : Thins k k' := by
  obtain ⟨th, -, ⟨-, rfl⟩ | ⟨-, r, k₁, ha, hb, hr⟩⟩ := unblockedByTime_ok h
  · exact .refl _
  · exact (((addVal_thins ha).trans (removeThreadFromSleep_thins _ _)).trans
      (removeBlocked_thins hb)).trans (release_thins hr)

theorem wakeThreadUp_thins (h : k.wakeThreadUp t = .ok k') : Thins k k' := by
  cases ht : k.threads t with
  | none =>
    unfold wakeThreadUp at h
    simp only [ht] at h
    cases h
    exact .refl _
  | some th =>
    rcases wakeThreadUp_ok h ht with ⟨-, ⟨-, rfl⟩ | ⟨s, -, hu⟩⟩ | ⟨-, ⟨-, hput⟩ | ⟨-, rfl⟩⟩
    · exact .refl _
    · exact unblockedByTime_thins hu
    · exact (removeThreadFromSleep_thins _ _).trans (put_thins hput)
    · exact removeThreadFromSleep_thins _ _

theorem generateWaitResponses_thins (h : k.generateWaitResponses s = .ok k') : Thins k k' := by
  obtain ⟨th, a, -, -, rfl⟩ := generateWaitResponses_ok h
  exact thins_of_eq rfl

theorem decTimedWaiting_asleep (k : Kernel) (s : SemId) :
    (k.decTimedWaiting s).listAsleepThreads = k.listAsleepThreads := by
  unfold decTimedWaiting
  split <;> rfl

theorem resume_thins (h : k.resume = .ok k') : Thins k k' := by
  obtain ⟨th, -, ⟨-, rfl⟩ | ⟨s, -, hb⟩ | ⟨s, -, hb⟩ | ⟨-, rfl⟩⟩ := resume_ok h
  · exact .refl _
  · exact (generateWaitResponses_thins (k := k.setMySem k.running none) hb).of_eq rfl
  · exact (generateWaitResponses_thins hb).of_eq (decTimedWaiting_asleep _ s)
  · exact thins_of_eq rfl

theorem deleteThreadInDispatch_thins (h : k.deleteThreadInDispatch t = .ok k') : Thins k k' := by
  unfold deleteThreadInDispatch at h
  dsimp only at h
  split_ifs at h
  · obtain ⟨th, -, rfl⟩ := deleteThread_ok h
    exact thins_of_eq rfl
  · cases h
    exact thins_of_eq rfl

theorem leave_thins (h : k.leave = .ok k') : Thins k k' := by
  obtain ⟨th, -, ⟨-, hput⟩ | ⟨-, rfl⟩ | ⟨-, hd⟩⟩ := leave_ok h
  · exact (put_thins hput).of_eq rfl
  · exact .refl _
  · obtain ⟨th, -, rfl⟩ := deleteThread_ok hd
    exact thins_of_eq rfl

theorem dispatch_thins (h : k.dispatch c = .ok k') : Thins k k' := by
  obtain ⟨k₁, hlv, ha⟩ := dispatch_ok h
  obtain ⟨k₂, t, hs, -, hr⟩ := arrive_ok ha
  have h₁ : Thins k k₁ := (leave_thins hlv).of_eq rfl
  have h₂ : Thins k₁ k₂ :=
    foreachWhile_rel (R := Thins) .refl .trans (fun _ _ _ => deleteThreadInDispatch_thins) hs
  refine (h₁.trans h₂).trans ((resume_thins hr).of_eq ?_)
  unfold saveContext
  split_ifs <;> rfl

theorem exit_thins (h : k.exit = .ok k') : Thins k k' := by
  obtain ⟨th, k₁, -, hk, hd⟩ := exit_ok h
  apply (dispatch_thins hd).of_eq
  rcases hk with ⟨rfl, -⟩ | ⟨p, -, rfl⟩
  · rfl
  · unfold decNumOfChildren
    split_ifs <;> rfl

theorem subtleKill_thins (k : Kernel) (t : Tid) : Thins k (k.subtleKill t).2 := by
  unfold subtleKill
  apply thins_of_eq
  split
  · rfl
  · split_ifs <;> rfl

theorem newThread_thins {body : UInt64} {stack : ℕ} (h : k.newThread body stack = .ok k') :
    Thins k k' := by
  obtain ⟨-, p, hp, k₁, -, ⟨-, hput⟩ | ⟨-, rfl⟩, rfl⟩ := newThread_ok h
  · exact ((put_thins hput).of_eq rfl).trans (thins_of_eq rfl)
  · exact thins_of_eq rfl

/-- The events that may put the running thread to sleep. -/
def putsToSleep : Event → Bool
  | .semTimedwait _ _ => true
  | .timeSleep _ => true
  | _ => false

theorem step_thins {e : Event} (h : k.step e = .ok k') (he : putsToSleep e = false) :
    Thins k k' := by
  cases step_effect h with
  | idle => exact .refl _
  | memAlloc => exact thins_of_eq rfl
  | memFree => exact thins_of_eq rfl
  | threadCreate h => exact newThread_thins h
  | threadExit h => exact exit_thins h
  | threadDispatch h => exact dispatch_thins h
  | semOpen h =>
    obtain ⟨p, hp, node, hp', -, -, rfl⟩ := newSem_ok h
    exact thins_of_eq rfl
  | semClose s h =>
    obtain ⟨m, k₁, -, hu, rfl⟩ := deleteSem_ok h
    exact (unblockAll_thins hu).trans (thins_of_eq rfl)
  | semWait s h =>
    obtain ⟨r, ha, ⟨-, rfl⟩ | ⟨-, hb⟩⟩ := wait_ok h
    · exact (addVal_thins ha).trans (thins_of_eq rfl)
    · obtain ⟨k₁, hadd, hd⟩ := block_ok hb
      exact ((addVal_thins ha).trans (addBlocked_thins hadd)).trans ((dispatch_thins hd).of_eq rfl)
  | semSignal s hr =>
    obtain ⟨val, k₁, ha, ⟨-, rfl⟩ | ⟨-, k', hu, rfl⟩⟩ := signal_ok hr
    · exact (addVal_thins ha).trans (thins_of_eq rfl)
    · exact (addVal_thins ha).trans ((unblock_thins hu).of_eq rfl)
  | semTimedwait => cases he
  | semTrywait s hr => exact addVal_thins hr
  | timeSleep => cases he
  | tick h =>
    obtain ⟨k₁, th, hw, -, hcase⟩ := timerInterruptHandler_ok h
    have hloop : Thins k.incTime k₁ :=
      foreachWhile_rel (R := Thins) .refl .trans (fun _ _ _ => wakeThreadUp_thins) hw
    have h₁ : Thins k k₁ := hloop.of_eq rfl
    rcases hcase with ⟨-, hd⟩ | ⟨-, rfl⟩
    · exact h₁.trans (dispatch_thins hd)
    · exact h₁
  | subtleKill t => exact subtleKill_thins k t

/-! The order of the list. -/

theorem Located.mem_asleep (hl : k.Located loc) :
    t ∈ k.listAsleepThreads.items ↔ 0 < (loc t).inAsleep := by
  rw [← hl.placed.asleep_count, List.count_pos_iff]

theorem Located.ne_running (hl : k.Located loc) (ht : t ∈ k.listAsleepThreads.items) :
    t ≠ k.running := by
  rintro rfl
  have := hl.mem_asleep.1 ht
  rw [hl.running_cpu] at this
  simp [Place.inAsleep] at this

theorem SleepSorted.thins (hs : k.SleepSorted) (ht : Thins k k')
    (hw : ∀ t ∈ k'.listAsleepThreads.items, k'.wakeTime t = k.wakeTime t) : k'.SleepSorted := by
  refine (List.Pairwise.sublist ht hs).imp_of_mem fun ha hb hab => ?_
  rw [hw _ ha, hw _ hb]
  exact hab

theorem smallerSleepTime_iff {a b : Tid} (ha : k.threads a ≠ none) (hb : k.threads b ≠ none) :
    k.smallerSleepTime a b = true ↔ k.wakeTime a < k.wakeTime b := by
  obtain ⟨tha, hta⟩ := Option.ne_none_iff_exists'.1 ha
  obtain ⟨thb, htb⟩ := Option.ne_none_iff_exists'.1 hb
  simp [smallerSleepTime, wakeTime, hta, htb]

theorem insertAsleep_sorted (h : k.insertAsleep t = .ok k') (ht : k.threads t ≠ none)
    (hrec : ∀ t' ∈ k.listAsleepThreads.items, k.threads t' ≠ none) (hs : k.SleepSorted) :
    k'.SleepSorted := by
  obtain ⟨node, hp, -, rfl⟩ := insertAsleep_ok h ht
  refine KList.insert_sorted ?_ hs
  intro e he
  exact smallerSleepTime_iff (hrec e.data (List.mem_map.2 ⟨e, he, rfl⟩)) ht

/-- The running thread is inserted when nothing has happened to the sleepers. -/
theorem insert_running_sorted {k₁ : Kernel} (hl : k.Located loc) (hs : k.SleepSorted)
    (hlist : k₁.listAsleepThreads = k.listAsleepThreads)
    (hv : ∀ t ≠ k.running, k₁.view t = k.view t) (hne : k₁.threads k.running ≠ none)
    (hi : k₁.insertAsleep k.running = .ok k₂) : k₂.SleepSorted := by
  refine insertAsleep_sorted hi hne ?_ (hs.thins (thins_of_eq hlist) ?_)
  · intro t ht
    rw [hlist] at ht
    obtain ⟨th, hth, -⟩ := hl.placed.record (t := t) (by
      rcases hl.placed.mem_asleep ht with h | ⟨s, h⟩ <;> simp [h])
    have : k₁.threads t = k.threads t := congrArg View.thread (hv t (hl.ne_running ht))
    simp [this, hth]
  · intro t ht
    rw [hlist] at ht
    exact wakeTime_congr (hv t (hl.ne_running ht))

/-- The dispatch behind the insertion leaves the other sleepers alone. -/
theorem Parks.sorted {pl : Place} (h : Parks k loc c pl k₂) (hl : k.Located loc)
    (hd : k₂.dispatch c = .ok k') (hpl : pl ≠ .cpu ∧ pl ≠ .limbo) (hs : k₂.SleepSorted) :
    k'.SleepSorted := by
  obtain ⟨loc', hl', hu, -⟩ := h.dispatch (r := none) hl hd hpl
  exact hs.thins (dispatch_thins hd) fun t ht => (hu.before t (by simp) (hl'.mem_asleep.1 ht)).2

theorem putThreadToSleep_sorted {m : UInt64} (h : k.putThreadToSleep m = .ok k')
    (hl : k.Located loc) (hs : k.SleepSorted) : k'.SleepSorted := by
  obtain ⟨k₁, hne, hi, hpark, hd⟩ := putThreadToSleep_parks h hl
  refine hpark.sorted hl hd ⟨by simp, by simp⟩ (insert_running_sorted hl hs ?_ ?_ hne hi)
  · rfl
  · exact fun t ht => dozing_view_ne ht

theorem timedWait_sorted {m : UInt64} (h : k.timedWait s m = .ok k') (hl : k.Located loc)
    (hs : k.SleepSorted) : k'.SleepSorted := by
  obtain ⟨r, ha, ⟨-, rfl⟩ | ⟨-, k₁, k₂, k₃, hadd, hne, hi, hn, hpark, hd⟩⟩ := timedWait_parks h hl
  · exact hs.thins ((addVal_thins ha).trans (thins_of_eq rfl)) fun t _ =>
      wakeTime_congr (addVal_view ha t)
  · have hlist : k₁.listAsleepThreads = k.listAsleepThreads := by
      obtain ⟨m₁, node, hp, -, -, rfl⟩ := addBlocked_ok hadd
      obtain ⟨m₂, -, -, rfl⟩ := addVal_ok ha
      rfl
    have hv : ∀ t ≠ k.running, k₁.view t = k.view t := fun t ht => by
      rw [(addBlocked_moves hadd).other t ht, timing_view_ne ht, addVal_view ha]
    have hs₂ := insert_running_sorted hl hs hlist hv hne hi
    refine hpark.sorted hl hd ⟨by simp, by simp⟩ ?_
    obtain ⟨m₃, -, rfl⟩ := incTimedWaiting_ok hn
    refine hs₂.thins (thins_of_eq rfl) fun t _ => ?_
    by_cases ht : t = k.running
    · subst ht
      cases hth : k₂.threads k.running <;> simp [wakeTime, hth]
    · simp [wakeTime, ht]

theorem step_sorted {e : Event} (h : k.step e = .ok k') (hi : k.Inv) (hs : k.SleepSorted) :
    k'.SleepSorted := by
  obtain ⟨loc, hl⟩ := hi.located
  by_cases he : putsToSleep e = false
  · obtain ⟨loc', hl', -, hbefore⟩ := step_located h hi hl
    have ht := step_thins h he
    exact hs.thins ht fun t hmem =>
      (hbefore t (hl.ne_running (ht.subset hmem)) (hl'.mem_asleep.1 hmem)).2
  · cases step_effect h with
    | idle => exact hs
    | semTimedwait s h => exact timedWait_sorted h hl hs
    | timeSleep h => exact putThreadToSleep_sorted h hl hs
    | _ => exact absurd rfl he

/-! A tick. -/

/-- The list is in order, so the threads a tick leaves in it are not due. -/
theorem tick_leaves {k₁ : Kernel} (hw : k.incTime.wakeAsleepThreadsUp = .ok k₁)
    (hl : k.Located loc) (hs : k.SleepSorted) :
    ∃ loc₁, k₁.Located loc₁ ∧
      ∀ t, 0 < (loc t).inAsleep →
        (k.wakeTime t ≤ k.incTime.sysTime → loc₁ t = .ready) ∧
        (k.incTime.sysTime < k.wakeTime t → loc₁ t = loc t ∧ k₁.wakeTime t = k.wakeTime t) := by
  obtain ⟨ts₁, ts₂, hts, hdue, hnext, hl₁, hv, -⟩ := wake_located hw hl
  refine ⟨_, hl₁, fun t ht => ⟨?_, ?_⟩⟩
  · intro hle
    have hmem := hl.mem_asleep.2 ht
    unfold SleepSorted at hs
    rw [hts] at hmem hs
    rcases List.mem_append.1 hmem with h₁ | h₂
    · simp [h₁]
    · -- the first thread that is not due comes no later than `t`
      exfalso
      have hsorted := (List.pairwise_append.1 hs).2.1
      cases ts₂ with
      | nil => cases h₂
      | cons a ts₂ =>
        have ha := hnext a rfl
        rcases List.mem_cons.1 h₂ with rfl | h₂
        · omega
        · have := (List.pairwise_cons.1 hsorted).1 t h₂
          omega
  · intro hlt
    have hno : t ∉ ts₁ := fun h₁ => by
      have := hdue t h₁
      omega
    exact ⟨if_neg hno, wakeTime_congr (hv t hno)⟩

theorem tick_sysTime (h : k.timerInterruptHandler = .ok k') :
    k'.sysTime = wrap (k.sysTime + 1) := by
  obtain ⟨k₁, th, hw, -, hcase⟩ := timerInterruptHandler_ok h
  have h₁ := (wakeAsleepThreadsUp_stays hw).sysTime
  rcases hcase with ⟨-, hd⟩ | ⟨-, rfl⟩
  · exact (dispatch_keeps hd).sysTime.trans h₁
  · exact h₁

/-- After a tick no thread in the sleep list is due. -/
theorem tick_notDue (h : k.timerInterruptHandler = .ok k') (hi : k.Inv) (hs : k.SleepSorted)
    (ht : t ∈ k'.listAsleepThreads.items) : k'.sysTime < k'.wakeTime t := by
  obtain ⟨loc, hl⟩ := hi.located
  obtain ⟨k₁, th, hw, -, hcase⟩ := timerInterruptHandler_ok h
  obtain ⟨loc₁, hl₁, hleft⟩ := tick_leaves hw hl hs
  obtain ⟨loc', hl', hu, -⟩ := preempt_located (r := none) hl₁ hcase
  obtain ⟨h1, h2⟩ := hu.before t (by simp) (hl'.mem_asleep.1 ht)
  have hmem : t ∈ k.listAsleepThreads.items := (step_thins (e := .tick) h rfl).subset ht
  have hasleep := hl'.mem_asleep.1 ht
  have hsys : k'.sysTime = k.incTime.sysTime := tick_sysTime h
  obtain ⟨h3, h4⟩ := hleft t (hl.mem_asleep.1 hmem)
  rcases le_or_gt (k.wakeTime t) k.incTime.sysTime with hle | hlt
  · rw [h1, h3 hle] at hasleep
    simp [Place.inAsleep] at hasleep
  · rw [h2, (h4 hlt).2, hsys]
    exact hlt

/-! Sleeping for `n` ticks. -/

/-- How many of the events are ticks. -/
def ticks (es : List Event) : ℕ := es.count .tick

theorem ticks_snoc (es : List Event) (e : Event) :
    ticks (es ++ [e]) = ticks es + if e = .tick then 1 else 0 := by
  unfold ticks
  rw [List.count_append, List.count_singleton]
  simp only [beq_iff_eq]

theorem step_sysTime {e : Event} (h : k.step e = .ok k') (he : e ≠ .tick) :
    k'.sysTime = k.sysTime := by
  cases step_effect h with
  | idle => rfl
  | memAlloc => rfl
  | memFree => rfl
  | threadCreate h =>
    obtain ⟨-, p, hp, k₁, -, ⟨-, hput⟩ | ⟨-, rfl⟩, rfl⟩ := newThread_ok h
    · exact (put_stays hput).sysTime
    · rfl
  | threadExit h => exact (exit_keeps h).sysTime
  | threadDispatch h => exact (dispatch_keeps h).sysTime
  | semOpen h =>
    obtain ⟨p, hp, node, hp', -, -, rfl⟩ := newSem_ok h
    rfl
  | semClose s h => exact (deleteSem_keeps h).sysTime
  | semWait s h => exact (wait_keeps h).sysTime
  | semSignal s hr => exact (signal_stays hr).sysTime
  | semTimedwait s h => exact (timedWait_keeps h).sysTime
  | semTrywait s hr => exact (addVal_stays hr).sysTime
  | timeSleep h => exact (putThreadToSleep_keeps h).sysTime
  | tick => exact absurd rfl he
  | subtleKill t => exact (subtleKill_stays k t).sysTime

/-- A time that `time_sleep` does not halve. -/
theorem timeSleep_eq {n : UInt64} (hn : n.toNat ≤ 2 ^ 63) :
    k.timeSleep n = k.putThreadToSleep n := by
  unfold timeSleep
  rw [if_neg]
  intro hgt
  have hlt : ((1 : UInt64) <<< 63).toNat < n.toNat := UInt64.lt_iff_toNat_lt.1 hgt
  have hval : ((1 : UInt64) <<< 63).toNat = 2 ^ 63 := by decide
  omega

/-- The thread that called `time_sleep` is asleep, to be woken `n` later. -/
theorem timeSleep_asleep {n : UInt64} (h : k.step (.timeSleep n) = .ok k')
    (hn : n.toNat ≤ 2 ^ 63) (hl : k.Located loc) :
    ∃ loc', k'.Located loc' ∧ loc' k.running = .asleep ∧
      k'.wakeTime k.running = wrap (k.sysTime + n.toNat) := by
  have h' : k.putThreadToSleep n = .ok k' := timeSleep_eq hn ▸ h
  obtain ⟨k₁, hne, hi, hpark, hd⟩ := putThreadToSleep_parks h' hl
  obtain ⟨loc', hl', hu, -⟩ := hpark.dispatch (r := none) hl hd ⟨by simp, by simp⟩
  have hasleep := hu.stays k.running (Function.update_self ..)
  refine ⟨loc', hl', hasleep, ?_⟩
  rw [(hu.before k.running (by simp) (by rw [hasleep]; decide)).2]
  obtain ⟨node, hp, -, rfl⟩ := insertAsleep_ok hi hne
  obtain ⟨th, hth, -⟩ := cpu_state hl.placed hl.running_cpu
  simp [wakeTime, dozing, hth]

/-- The thread `r` sleeps until the clock shows `time`. -/
def SleepsUntil (k : Kernel) (r : Tid) (time : ℕ) : Prop :=
  ∃ loc, k.Located loc ∧ loc r = .asleep ∧ k.wakeTime r = time

theorem step_sleepsUntil {e : Event} {r : Tid} {time : ℕ} (h : k.step e = .ok k') (hi : k.Inv)
    (hs : k.SleepSorted) (hr : k.SleepsUntil r time)
    (htime : e = .tick → k.incTime.sysTime < time) : k'.SleepsUntil r time := by
  obtain ⟨loc, hl, hasleep, hwake⟩ := hr
  have hin : 0 < (loc r).inAsleep := by
    rw [hasleep]
    decide
  by_cases he : e = .tick
  · subst he
    obtain ⟨k₁, th, hw, -, hcase⟩ := timerInterruptHandler_ok h
    obtain ⟨loc₁, hl₁, hleft⟩ := tick_leaves hw hl hs
    obtain ⟨loc', hl', hu, -⟩ := preempt_located (r := none) hl₁ hcase
    obtain ⟨h1, h2⟩ := (hleft r hin).2 (hwake.symm ▸ htime rfl)
    have hasleep' := hu.stays r (h1.trans hasleep)
    have hsame := hu.before r (by simp) (by rw [hasleep']; decide)
    exact ⟨loc', hl', hasleep', (hsame.2.trans h2).trans hwake⟩
  · obtain ⟨loc', hl', hstays, hbefore⟩ := step_located h hi hl
    have hasleep' := hstays he r hasleep
    have hne := hl.ne_running (hl.mem_asleep.2 hin)
    have hsame := hbefore r hne (by rw [hasleep']; decide)
    exact ⟨loc', hl', hasleep', hsame.2.trans hwake⟩

/-- A run after `time_sleep` with fewer ticks than it asked for. -/
theorem run_sleepsUntil {P : Kernel → Event → Prop} {k₁ : Kernel} {es : List Event} {r : Tid}
    {start n : ℕ} (h : Run step P k₁ es k) (hi : k₁.Inv) (hs : k₁.SleepSorted)
    (hr : k₁.SleepsUntil r (start + n)) (hstart : k₁.sysTime = start) (hmax : start + n < 2 ^ 64)
    (hn : ticks es < n) :
    k.Inv ∧ k.SleepSorted ∧ k.SleepsUntil r (start + n) ∧ k.sysTime = start + ticks es := by
  induction h with
  | nil => exact ⟨hi, hs, hr, hstart⟩
  | @snoc es k e k' _ _ hstep ih =>
    rw [ticks_snoc] at hn ⊢
    obtain ⟨hi₁, hs₁, hr₁, hsys⟩ := ih (by omega)
    refine ⟨step_inv hstep hi₁, step_sorted hstep hi₁ hs₁,
      step_sleepsUntil hstep hi₁ hs₁ hr₁ fun he => ?_, ?_⟩
    · rw [if_pos he] at hn
      have : k.incTime.sysTime = (k.sysTime + 1) % 2 ^ 64 := rfl
      omega
    · by_cases he : e = .tick
      · subst he
        rw [tick_sysTime hstep, hsys, if_pos rfl, wrap]
        rw [if_pos rfl] at hn
        omega
      · rw [step_sysTime hstep he, hsys, if_neg he, Nat.add_zero]

theorem boot_sorted {start total : ℕ} (h : boot start total = some k) : k.SleepSorted := by
  obtain ⟨stack, hp, p, hp', -, -, rfl⟩ := boot_ok h
  exact List.Pairwise.nil

theorem run_sorted {P : Kernel → Event → Prop} {k₀ : Kernel} {es : List Event} {start total : ℕ}
    (h₀ : boot start total = some k₀) (h : Run step P k₀ es k) : k.SleepSorted :=
  (h.invariant (fun k => k.Inv ∧ k.SleepSorted) ⟨boot_inv h₀, boot_sorted h₀⟩ fun _ _ _ hk _ hs =>
    ⟨step_inv hs hk.1, step_sorted hs hk.1 hk.2⟩).2

/-- In every reachable state: the sleep list is in order; a tick leaves no thread
in it that is due; and a thread that sleeps for `n` ticks is in it, and not
ready, for all of them but the last, at which it is taken out and made ready. -/
theorem sleep_exact {start total : ℕ} {kb k₀ : Kernel} {es₀ : List Event}
    (hb : boot start total = some kb) (h₀ : Run step (fun _ _ => True) kb es₀ k₀) :
    k₀.SleepSorted ∧
      (∀ k', k₀.step .tick = .ok k' →
        ∀ t ∈ k'.listAsleepThreads.items, k'.sysTime < k'.wakeTime t) ∧
      ∀ (n : UInt64) (k₁ k : Kernel) (es : List Event), k₀.sysTime < 2 ^ 63 → 1 ≤ n.toNat →
        n.toNat ≤ 2 ^ 63 → k₀.step (.timeSleep n) = .ok k₁ →
        Run step (fun _ _ => True) k₁ es k → ticks es < n.toNat →
        (k.sysTime = k₀.sysTime + ticks es ∧ k₀.running ∈ k.listAsleepThreads.items ∧
          k₀.running ∉ k.queueThreads.items ∧ k₀.running ≠ k.running) ∧
        (ticks es + 1 = n.toNat → ∀ k', k.step .tick = .ok k' →
          k'.sysTime = k₀.sysTime + n.toNat ∧ k₀.running ∉ k'.listAsleepThreads.items ∧
            ∃ kw, k.incTime.wakeAsleepThreadsUp = .ok kw ∧
              k₀.running ∉ kw.listAsleepThreads.items ∧ k₀.running ∈ kw.queueThreads.items) := by
  have hi := run_inv h₀ (boot_inv hb)
  have hs := run_sorted hb h₀
  refine ⟨hs, fun k' ht t hmem => tick_notDue ht hi hs hmem, ?_⟩
  intro n k₁ k es hT h1 h2 hsleep h hn
  obtain ⟨loc₀, hl₀⟩ := hi.located
  obtain ⟨loc₁, hl₁, hasleep₁, hwake₁⟩ := timeSleep_asleep hsleep h2 hl₀
  have hmax : k₀.sysTime + n.toNat < 2 ^ 64 := by omega
  rw [wrap, Nat.mod_eq_of_lt hmax] at hwake₁
  have hstart : k₁.sysTime = k₀.sysTime := step_sysTime hsleep (by simp)
  obtain ⟨hik, hsk, ⟨loc, hl, hasleep, hwake⟩, hsys⟩ := run_sleepsUntil h (step_inv hsleep hi)
    (step_sorted hsleep hi hs) ⟨loc₁, hl₁, hasleep₁, hwake₁⟩ hstart hmax hn
  have hin : 0 < (loc k₀.running).inAsleep := by
    rw [hasleep]
    decide
  have hmem := hl.mem_asleep.2 hin
  have hnotReady : ∀ {k : Kernel} {loc : Tid → Place}, k.Located loc →
      loc k₀.running ≠ .ready → k₀.running ∉ k.queueThreads.items := fun hl hne hq =>
    hne (hl.placed.mem_ready hq)
  refine ⟨⟨hsys, hmem, hnotReady hl (by simp [hasleep]), hl.ne_running hmem⟩, ?_⟩
  intro hlast k' htick
  have hsys' := tick_sysTime htick
  have hdue : k.incTime.sysTime = k₀.sysTime + n.toNat := by
    change (k.sysTime + 1) % 2 ^ 64 = _
    omega
  refine ⟨hsys'.trans hdue, ?_, ?_⟩
  · intro hmem'
    have hlt := tick_notDue htick hik hsk hmem'
    obtain ⟨loc', hl', -, hbefore⟩ := step_located htick hik hl
    rw [(hbefore _ (hl.ne_running hmem) (hl'.mem_asleep.1 hmem')).2, hwake, hsys'] at hlt
    exact absurd hdue (Nat.ne_of_lt hlt)
  · obtain ⟨kw, th, hw, -, -⟩ := timerInterruptHandler_ok htick
    obtain ⟨locw, hlw, hleft⟩ := tick_leaves hw hl hsk
    have hready := (hleft _ hin).1 (by rw [hwake, hdue])
    refine ⟨kw, hw, ?_, ?_⟩
    · intro hmem'
      have := hlw.mem_asleep.1 hmem'
      simp [hready, Place.inAsleep] at this
    · rw [← List.count_pos_iff, hlw.placed.ready_count, hready]
      exact Nat.one_pos

/-- `main` sleeps for two ticks while the thread it created runs. -/
theorem sleep_exact_two : ∃ kb k₀ k₁ k k', boot 1024 1000 = some kb ∧
    Run step (fun _ _ => True) kb [.memAlloc 65, .threadCreate 4096 5328] k₀ ∧
      k₀.SleepSorted ∧ k₀.step (.timeSleep 2) = .ok k₁ ∧
      Run step (fun _ _ => True) k₁ [.tick] k ∧ k₀.running ∈ k.listAsleepThreads.items ∧
      k.step .tick = .ok k' ∧ k'.sysTime = k₀.sysTime + 2 ∧
      k₀.running ∉ k'.listAsleepThreads.items := by
  have hrun : ((boot 1024 1000).bind fun kb =>
      (exec step (fun _ _ => True) kb [.memAlloc 65, .threadCreate 4096 5328]).bind fun k₀ =>
      (exec step (fun _ _ => True) k₀ [.timeSleep 2]).bind fun k₁ =>
      (exec step (fun _ _ => True) k₁ [.tick]).bind fun k =>
      (exec step (fun _ _ => True) k [.tick]).bind fun k' =>
      if k₀.sysTime = 0 then some k' else none).isSome = true := by rfl
  obtain ⟨_, hm⟩ := Option.isSome_iff_exists.1 hrun
  simp only [Option.bind_eq_some_iff] at hm
  obtain ⟨kb, hb, k₀, h₀, k₁, h₁, k, h, k', h', hT⟩ := hm
  have hT : k₀.sysTime = 0 := by
    by_contra hne
    rw [if_neg hne] at hT
    cases hT
  have hrun₀ := run_of_exec h₀
  have hsleep := exec_one h₁
  have htick := exec_one h'
  obtain ⟨hs, -, hall⟩ := sleep_exact hb hrun₀
  obtain ⟨⟨-, hmem, -⟩, hlast⟩ := hall 2 k₁ k [.tick] (by rw [hT]; decide) (by decide) (by decide)
    hsleep (run_of_exec h) (by decide)
  obtain ⟨hsys, hnot, -⟩ := hlast (by decide) k' htick
  exact ⟨kb, k₀, k₁, k, k', hb, hrun₀, hs, hsleep, run_of_exec h, hmem, htick, hsys, hnot⟩

end Kernel
end OSK
