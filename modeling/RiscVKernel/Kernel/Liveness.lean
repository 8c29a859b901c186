import RiscVKernel.Kernel.Aloof
import RiscVKernel.Kernel.Fairness
import RiscVKernel.Kernel.Timeouts
import RiscVKernel.Kernel.Waiters

/-! No thread starves. Wherever a live thread waits, in the ready queue, on a semaphore or for
the clock, a bounded number of signals and ticks brings it back to the processor. -/

namespace OSK

open Lib

namespace Kernel

variable {k k' k₀ k₁ : Kernel} {t : Tid} {s : SemId} {e : Event} {es es' : List Event}
  {loc : Tid → Place} {start total : ℕ} {base : List Note}

/-- A thread that does not run lives on, or its parent kills it. -/
theorem step_lives (h : k.step e = .ok k') (hi : k.Inv) (ha : k.Alive t) (hne : t ≠ k.running) :
    HasTurn t k e k' ∨ k'.Alive t := by
  rcases (step_passes h hi).survives t ha with ha' | hend
  · exact Or.inr ha'
  rcases ended_iff.1 hend with ⟨rfl, rfl⟩ | rfl
  · exact absurd rfl hne
  · by_cases hkill : (k.subtleKill t).1 = 0
    · exact Or.inl (Or.inr ⟨rfl, hkill⟩)
    · cases h
      rw [subtleKill_fails hkill]
      exact Or.inr ha

/-- The thread need not wait any more, for anything but its turn. -/
def Served (t : Tid) (k : Kernel) (e : Event) (k' : Kernel) : Prop :=
  HasTurn t k e k' ∨ k'.Ready t

/-! In the queue of a semaphore. -/

theorem Waits.mem (hw : k.Waits t s base) : t ∈ k.waiters s := by
  rw [← List.count_pos_iff, ← queued_eq, hw.queued]
  exact Nat.one_pos

theorem waits_of_mem (hi : k.Inv) (ht : t ∈ k.waiters s) : k.Waits t s (k.log t) ∧ t ≤ k.ID := by
  obtain ⟨loc, hl⟩ := hi.located
  have hloc := hl.placed.mem_waiters.1 ht
  refine ⟨⟨?_, rfl⟩, ?_⟩
  · rw [hl.placed.queued]
    rcases hloc with h | h <;> simp [h, Place.inQueue]
  · obtain ⟨th, hth, -⟩ := hl.placed.record (t := t) (by rcases hloc with h | h <;> simp [h])
    exact hi.named hth

theorem step_waiting (h : k.step e = .ok k') (hi : k.Inv) (ht : t ∈ k.waiters s) (ha : k.Alive t) :
    Served t k e k' ∨ k'.Waits t s (k.log t) ∧ k'.Alive t := by
  obtain ⟨loc, hl⟩ := hi.located
  obtain ⟨hw, hID⟩ := waits_of_mem hi ht
  rcases step_lives h hi ha (hw.ne_running hl) with hturn | ha'
  · exact Or.inl (Or.inl hturn)
  rcases step_waits h hi hID hw with hw' | ⟨c, a, -, hwoken | hback⟩
  · exact Or.inr ⟨hw', ha'⟩
  · refine Or.inl (Or.inr ⟨ha', List.count_pos_iff.1 (hwoken.place.resolve_left ?_)⟩)
    obtain ⟨th, hth, -⟩ := alive_iff.1 ha'
    simp [hth]
  · exact Or.inl (Or.inl (Or.inl hback.running))

theorem Placed.nodup_waiters {pend : Tid → Option Context} (hp : k.Placed pend loc) (s : SemId) :
    (k.waiters s).Nodup := by
  rw [List.nodup_iff_count_le_one]
  intro t
  rw [← queued_eq, hp.queued]
  exact inQueue_le _ _

/-- A signal to a semaphore on which threads wait takes the first one out of the queue. -/
theorem signal_tail (h : k.step (.semSignal (some s)) = .ok k') (hi : k.Inv)
    (ht : t ∈ k.waiters s) : k'.waiters s = (k.waiters s).tail := by
  obtain ⟨r, hr, rfl⟩ := map_ok h
  obtain ⟨val, k₁, ha, ⟨hv, rfl⟩ | ⟨-, k', hu, rfl⟩⟩ := signal_ok hr
  · -- the value owes as many threads as stand in the queue
    exfalso
    obtain ⟨m, hm, -, heq⟩ := addVal_ok ha
    obtain ⟨rfl, -⟩ := Prod.mk.inj heq
    have hshort := hi.short s _ (counter_some hm)
    have hpos : 0 < (k.waiters s).length := List.length_pos_of_mem ht
    rw [waiters_some hm, KList.length_items] at hpos
    unfold Counter.Short at hshort
    simp only at hshort
    omega
  · have hq : k'.waiters s = (k.waiters s).tail := by
      rw [unblock_waiters hu, if_pos rfl]
      exact congrArg List.tail (addVal_waiters ha s)
    exact hq

/-- Nobody moves back in the queue of a semaphore, and everybody forward with a signal. -/
theorem step_forward (h : k.step e = .ok k') (hi : k.Inv) (ht : t ∈ k.waiters s)
    (ht' : t ∈ k'.waiters s) :
    (k'.waiters s).idxOf t + (if e = .semSignal (some s) then 1 else 0) ≤ (k.waiters s).idxOf t := by
  obtain ⟨loc, hl⟩ := hi.located
  have hnd := hl.placed.nodup_waiters s
  by_cases he : e = .semSignal (some s)
  · subst he
    rw [signal_tail h hi ht] at ht' ⊢
    cases hq : k.waiters s with
    | nil => simp [hq] at ht
    | cons t₀ ts =>
      rw [hq, List.nodup_cons] at hnd
      rw [hq, List.tail_cons] at ht'
      have hne : t₀ ≠ t := fun he => hnd.1 (he ▸ ht')
      rw [List.idxOf_cons_ne _ hne]
      simp
  · rw [if_neg he, Nat.add_zero]
    rcases step_changes h hi s with hsub | ⟨-, hjoin⟩
    · exact idxOf_le_of_sublist hsub hnd ht'
    · rw [hjoin, List.idxOf_append_of_mem ht]

/-- As many signals as there are threads in front, and one more. -/
theorem waiting_served {P : Kernel → Event → Prop} (h : Run step P k es k') (hi : k.Inv)
    (ht : t ∈ k.waiters s) (ha : k.Alive t)
    (hn : (k.waiters s).idxOf t < es.count (.semSignal (some s))) :
    Met step P (Served t) k es k' := by
  have hrank : ∀ k e k', k.Inv → P k e → t ∈ k.waiters s ∧ k.Alive t → k.step e = .ok k' →
      Served t k e k' ∨ (t ∈ k'.waiters s ∧ k'.Alive t) ∧ (k'.waiters s).idxOf t +
        (if decide (e = .semSignal (some s)) then 1 else 0) ≤ (k.waiters s).idxOf t := by
    rintro k e k' hi - ⟨ht, ha⟩ hs
    refine (step_waiting hs hi ht ha).imp_right fun ⟨hw, ha'⟩ => ⟨⟨hw.mem, ha'⟩, ?_⟩
    simpa only [decide_eq_true_eq] using step_forward hs hi ht hw.mem
  refine Run.served h hi ⟨ht, ha⟩ (fun _ _ _ hi _ hs => step_inv hs hi) hrank ?_
  rw [h.tally_count]
  exact hn

/-! In the sleep list. -/

theorem step_dozing (h : k.step e = .ok k') (hi : k.Inv) (hs : k.SleepSorted)
    (ht : t ∈ k.listAsleepThreads.items) (ha : k.Alive t) :
    Served t k e k' ∨ t ∈ k'.listAsleepThreads.items ∧ k'.Alive t ∧ k'.wakeTime t = k.wakeTime t := by
  obtain ⟨loc, hl⟩ := hi.located
  have hne := hl.ne_running ht
  have hin := hl.mem_asleep.1 ht
  rcases step_lives h hi ha hne with hturn | ha'
  · exact Or.inl (Or.inl hturn)
  cases hloc : loc t with
  | timed s =>
    have hmem := hl.placed.mem_waiters.2 (Or.inr hloc)
    obtain ⟨hw, hID⟩ := waits_of_mem hi hmem
    refine (step_waiting h hi hmem ha).imp_right fun ⟨hw', _⟩ => ?_
    have hp := step_pending h hi hID ⟨hw, ht, rfl⟩ hw'
    exact ⟨hp.asleep, ha', hp.wake⟩
  | asleep =>
    by_cases he : e = .tick
    · subst he
      obtain ⟨k₁, th, hw, -, hcase⟩ := timerInterruptHandler_ok h
      obtain ⟨loc₁, hl₁, hleft⟩ := tick_leaves hw hl hs
      obtain ⟨hdue, hlater⟩ := hleft t hin
      rcases le_or_gt (k.wakeTime t) k.incTime.sysTime with hle | hlt
      · left
        have hready : t ∈ k₁.queueThreads.items := by
          rw [← List.count_pos_iff, hl₁.placed.ready_count, hdue hle]
          exact Nat.one_pos
        rcases hcase with ⟨-, hd⟩ | ⟨-, rfl⟩
        · have hc : Calm (fun _ => True) k.incTime k₁ :=
            foreachWhile_rel .refl .trans (fun _ _ _ => wakeThreadUp_calm) hw
          have hlive : k₁.Alive t := (hc.alive t).2 ha
          rcases dispatch_forward hd (hc.running ▸ hne) hready hlive.isFinished with hrun | ⟨hin', -⟩
          · exact Or.inl (Or.inl hrun)
          · exact Or.inr ⟨ha', hin'⟩
        · exact Or.inr ⟨ha', hready⟩
      · right
        obtain ⟨h1, h2⟩ := hlater hlt
        obtain ⟨loc', hl', hu, -⟩ := preempt_located (r := none) hl₁ hcase
        have hasleep := hu.stays t (h1.trans hloc)
        refine ⟨hl'.mem_asleep.2 (by rw [hasleep]; decide), ha', ?_⟩
        exact (hu.before t (by simp) (by rw [hasleep]; decide)).2.trans h2
    · right
      obtain ⟨loc', hl', hstays, hbefore⟩ := step_located h hi hl
      have hasleep := hstays he t hloc
      have hpos : 0 < (loc' t).inAsleep := by
        rw [hasleep]
        decide
      exact ⟨hl'.mem_asleep.2 hpos, ha', (hbefore t hne hpos).2⟩
  | _ => simp [hloc, Place.inAsleep] at hin

/-- As many ticks as are left until the time to wake, and not less than one. -/
theorem dozing_served {P : Kernel → Event → Prop} (h : Run step P k es k') (hi : k.Inv)
    (hs : k.SleepSorted) (ht : t ∈ k.listAsleepThreads.items) (ha : k.Alive t)
    (hmax : k.sysTime + ticks es < 2 ^ 64) :
    Met step P (Served t) k es k' ∨ (t ∈ k'.listAsleepThreads.items ∧ k'.Alive t) ∧
      (0 < ticks es → k.sysTime + ticks es < k.wakeTime t) := by
  suffices hall : k'.Inv ∧ k'.SleepSorted ∧ k'.sysTime = k.sysTime + ticks es ∧
      (Met step P (Served t) k es k' ∨ t ∈ k'.listAsleepThreads.items ∧ k'.Alive t ∧
        k'.wakeTime t = k.wakeTime t ∧ (0 < ticks es → k.sysTime + ticks es < k.wakeTime t)) by
    obtain ⟨-, -, -, hm | ⟨hin, ha', -, hlt⟩⟩ := hall
    · exact Or.inl hm
    · exact Or.inr ⟨⟨hin, ha'⟩, hlt⟩
  induction h with
  | nil => exact ⟨hi, hs, rfl, Or.inr ⟨ht, ha, rfl, by simp [ticks]⟩⟩
  | @snoc es k₁ e k' hrun hP hstep ih =>
    rw [ticks_snoc] at hmax ⊢
    obtain ⟨hi₁, hs₁, hsys, hcase⟩ := ih (by omega)
    have hsys' : k'.sysTime = k.sysTime + (ticks es + if e = .tick then 1 else 0) := by
      by_cases he : e = .tick
      · subst he
        rw [tick_sysTime hstep, hsys, if_pos rfl, wrap]
        rw [if_pos rfl] at hmax
        omega
      · rw [step_sysTime hstep he, hsys, if_neg he, Nat.add_zero]
    refine ⟨step_inv hstep hi₁, step_sorted hstep hi₁ hs₁, hsys', ?_⟩
    rcases hcase with hm | ⟨hin, ha₁, hwake, hlt⟩
    · exact Or.inl (hm.snoc hP hstep)
    rcases step_dozing hstep hi₁ hs₁ hin ha₁ with ho | ⟨hin', ha', hwake'⟩
    · exact Or.inl ⟨es, e, [], k₁, k', rfl, hrun, hstep, .nil, ho⟩
    · refine Or.inr ⟨hin', ha', hwake'.trans hwake, fun hpos => ?_⟩
      by_cases he : e = .tick
      · subst he
        have hdue := tick_notDue hstep hi₁ hs₁ hin'
        rwa [hsys', hwake', hwake] at hdue
      · rw [if_neg he, Nat.add_zero] at hpos ⊢
        exact hlt hpos

/-! The turn. -/

theorem place_lt (hi : k.Inv) (hr : k.Ready t) : place t k < k.ID := by
  obtain ⟨loc, hl⟩ := hi.located
  have hnd : (k.running :: k.queueThreads.items).Nodup := by
    refine List.nodup_cons.2 ⟨fun hin => ?_, hl.placed.nodup_ready⟩
    have := hl.placed.mem_ready hin
    rw [hl.running_cpu] at this
    cases this
  have hsub : (k.running :: k.queueThreads.items) ⊆ List.range (k.ID + 1) := by
    intro t ht
    rw [List.mem_range, Nat.lt_succ_iff]
    rcases List.mem_cons.1 ht with rfl | ht
    · exact hi.running_named
    · obtain ⟨th, hth, -⟩ := hl.placed.record (t := t) (by simp [hl.placed.mem_ready ht])
      exact hi.named hth
  have hlen := (hnd.subperm hsub).length_le
  rw [List.length_cons, List.length_range] at hlen
  have := List.idxOf_lt_length_of_mem hr.2
  unfold place
  omega

theorem run_ID {P : Kernel → Event → Prop} (h : Run step P k es k') (hi : k.Inv) : k.ID ≤ k'.ID :=
  (h.invariant (fun k' => k'.Inv ∧ k.ID ≤ k'.ID) ⟨hi, Nat.le_refl _⟩ fun _ _ _ ⟨hi, hle⟩ _ hs =>
    ⟨step_inv hs hi, hle.trans (step_fresh hs hi).2.1⟩).2

/-- Two ticks for each thread there has ever been. -/
theorem ready_served {P : Kernel → Event → Prop} (h : Run step P k es k') (hf : k.Fair)
    (hr : k.Ready t) (hn : 2 * k'.ID ≤ ticks es) : Met step P (HasTurn t) k es k' := by
  refine h.served hf hr (fun _ _ _ hf _ hs => step_fair hs hf)
    (fun _ _ _ hf _ hr hs => step_hasTurn hs hf.inv hr) ?_
  have hplace := place_lt hf.inv hr
  have hID := run_ID h hf.inv
  have hslices := run_slices h hf
  unfold defaultTimeSlice at hslices
  omega

/-- What `t` waits for comes in `es`: nothing but its turn; as many signals as threads stand in
front of it, and one more; or a tick at which it is due. -/
def Awaits (k : Kernel) (t : Tid) (es : List Event) : Prop :=
  t ∈ k.queueThreads.items ∨
    (∃ s, t ∈ k.waiters s ∧ (k.waiters s).idxOf t < es.count (.semSignal (some s))) ∨
    t ∈ k.listAsleepThreads.items ∧ 0 < ticks es ∧ k.wakeTime t ≤ k.sysTime + ticks es ∧
      k.sysTime + ticks es < 2 ^ 64

/-- No thread starves. -/
theorem comes_back {kb : Kernel} {es₀ : List Event} (hb : boot start total = some kb)
    (h₀ : Run step (fun _ _ => True) kb es₀ k) (ha : k.Alive t)
    (hw : k.Awaits t es) (h : Run step (fun _ _ => True) k (es ++ es') k')
    (hn : 2 * k'.ID ≤ ticks es') :
    Met step (fun _ _ => True) (HasTurn t) k (es ++ es') k' := by
  have hf := run_fair hb h₀
  have hs := run_sorted hb h₀
  obtain ⟨k₁, h₁, h₂, -⟩ := h.split
  have hserved : k.Ready t ∨ Met step (fun _ _ => True) (Served t) k es k₁ := by
    rcases hw with hin | ⟨s, hin, hn⟩ | ⟨hin, hpos, hle, hmax⟩
    · exact Or.inl ⟨ha, hin⟩
    · exact Or.inr (waiting_served h₁ hf.inv hin ha hn)
    · refine Or.inr ((dozing_served h₁ hf.inv hs hin ha hmax).resolve_right fun ⟨_, hlt⟩ => ?_)
      exact absurd (hlt hpos) (Nat.not_lt.2 hle)
  rcases hserved with hr | hm
  · refine ready_served h hf hr (hn.trans ?_)
    simp [ticks]
  · obtain ⟨as, e, bs, k₂, k₃, rfl, hbefore, hstep, hafter, hturn | hr⟩ := hm
    · exact ⟨as, e, bs ++ es', k₂, k₃, by simp, hbefore, hstep, hafter.trans h₂, hturn⟩
    · have hf₃ := run_fair hb ((h₀.trans hbefore).snoc trivial hstep)
      have hlast := ready_served (hafter.trans h₂) hf₃ hr (hn.trans (by simp [ticks]))
      have hall := hlast.after (hbefore.snoc trivial hstep)
      simpa using hall

/-- Of two threads that wait the second one is served by the second signal. -/
theorem comes_back_two : ∃ kb k k', boot 1024 1000 = some kb ∧
    Run step (fun _ _ => True) kb [.memAlloc 65, .threadCreate 4096 5328, .memAlloc 65,
      .threadCreate 4096 9680, .semOpen 0, .threadDispatch, .semWait (some 0), .semWait (some 0)] k ∧
    k.waiters 0 = [2, 3] ∧
    Run step (fun _ _ => True) k ([.semSignal (some 0), .semSignal (some 0)] ++
      List.replicate 6 .tick) k' ∧
    Met step (fun _ _ => True) (HasTurn 3) k ([.semSignal (some 0), .semSignal (some 0)] ++
      List.replicate 6 .tick) k' := by
  have hrun : ((boot 1024 1000).bind fun kb => exec step (fun _ _ => True) kb [.memAlloc 65,
      .threadCreate 4096 5328, .memAlloc 65, .threadCreate 4096 9680, .semOpen 0, .threadDispatch,
      .semWait (some 0), .semWait (some 0)]).any (fun k =>
        (k.waiters 0 = [2, 3] ∧ k.isFinished 3 = false) ∧
          (exec step (fun _ _ => True) k ([.semSignal (some 0), .semSignal (some 0)] ++
            List.replicate 6 .tick)).any (fun k' => 2 * k'.ID ≤ 6) = true) = true := by
    decide +kernel
  obtain ⟨kb, k, hb, h₀, hq⟩ := exists_run hrun
  obtain ⟨⟨hw, hlive⟩, hq⟩ := of_decide_eq_true hq
  obtain ⟨k', h, hn⟩ := exists_run_from hq
  have hin : 3 ∈ k.waiters 0 := by simp [hw]
  have hidx : (k.waiters 0).idxOf 3 < 2 := by simp [hw]
  exact ⟨kb, k, k', hb, h₀, hw, h, comes_back hb h₀ (alive_of_isFinished hlive)
    (Or.inr (Or.inl ⟨0, hin, hidx⟩)) h (of_decide_eq_true hn)⟩

end Kernel
end OSK
