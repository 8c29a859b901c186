import RiscVKernel.Kernel.Answers
import RiscVKernel.Kernel.SleepList
import RiscVKernel.Kernel.Waking

/-! The timeout of `sem_timedwait`. The time to wake is the sum of the clock and
the timeout as the machine adds them. Where it wraps around, the thread is due
at the next tick. -/

namespace OSK

open Lib

/-- In a sorted list everything up to a bound stands in front of everything above. -/
theorem mem_takeWhile_sorted {α : Type} {f : α → ℕ} {n : ℕ} {l : List α} {x : α}
    (hs : l.Pairwise fun a b => f a ≤ f b) (hx : x ∈ l) (hle : f x ≤ n) :
    x ∈ l.takeWhile fun a => f a ≤ n := by
  induction l with
  | nil => cases hx
  | cons a l ih =>
    rw [List.pairwise_cons] at hs
    have ha : f a ≤ n := by
      rcases List.mem_cons.1 hx with rfl | hx
      · exact hle
      · exact (hs.1 x hx).trans hle
    rw [List.takeWhile_cons_of_pos (by simpa using ha)]
    rcases List.mem_cons.1 hx with rfl | hx
    · exact List.mem_cons_self ..
    · exact List.mem_cons_of_mem _ (ih hs.2 hx)

namespace Kernel

variable {k k' k₀ k₁ : Kernel} {t : Tid} {s : SemId} {e : Event} {base : List Note} {time : ℕ}
  {loc : Tid → Place} {start total : ℕ}

/-- `t` waits on `s` and is to be woken when the clock shows `time`. -/
structure Pending (k : Kernel) (t : Tid) (s : SemId) (base : List Note) (time : ℕ) : Prop
    extends k.Waits t s base where
  asleep : t ∈ k.listAsleepThreads.items
  wake : k.wakeTime t = time

theorem Pending.timed (h : k.Pending t s base time) (hl : k.Located loc) : loc t = .timed s := by
  have hasleep := hl.mem_asleep.1 h.asleep
  apply (h.toWaits.place hl).resolve_left
  intro hb
  rw [hb] at hasleep
  exact absurd hasleep (lt_irrefl 0)

/-- While the thread waits its time to wake does not change. -/
theorem step_pending (h : k.step e = .ok k') (hi : k.Inv) (hID : t ≤ k.ID)
    (hp : k.Pending t s base time) (hw' : k'.Waits t s base) : k'.Pending t s base time := by
  obtain ⟨loc, hl⟩ := hi.located
  have ht := hp.timed hl
  have hne := hp.ne_running hl
  obtain ⟨loc', hl', -, hbefore⟩ := step_located h hi hl
  have hloc' : loc' t = .timed s := by
    apply (hw'.place hl').resolve_left
    intro hb
    obtain ⟨th', hth', hfit'⟩ := hl'.placed.record (t := t) (by simp [hb])
    rw [hb] at hfit'
    obtain ⟨k₁, hcase, hfate⟩ := step_passed h hi hl hne (by simp [ht]) hID
    rcases hcase with hu | ⟨s', c, a, -, -, hwakes⟩
    · cases hu.fate hfate with
      | stays hu' =>
        -- its record still says that it waits with a timeout
        obtain ⟨th, hth, hst, -⟩ := hu'.thread th' hth'
        have hfit := hl.placed.fits hth
        rw [ht] at hfit
        have hwaiting := hfit'.1
        rw [hst, hfit.1] at hwaiting
        cases hwaiting
      | dies _ _ hgone => simp [hgone] at hth'
      | runs _ hrun => exact hw'.ne_running hl' hrun.symm
    · have hlog := hwakes.log
      rw [hp.log] at hlog
      have hlog' := hw'.log
      cases hfate with
      | stays hu' =>
        rw [hu'.log, hlog] at hlog'
        simp at hlog'
      | dies _ hd =>
        rw [hd, hlog] at hlog'
        simp at hlog'
      | runs _ hrun => exact hw'.ne_running hl' hrun.symm
  have hin : 0 < (loc' t).inAsleep := by
    rw [hloc']
    exact Nat.one_pos
  exact ⟨hw', hl'.mem_asleep.2 hin, (hbefore t hne hin).2.trans hp.wake⟩

/-- A thread that blocks in `sem_timedwait` at the time `T` with the timeout `m`
is to be woken at `T + m`, modulo 2⁶⁴. -/
theorem timedWait_pending {m : UInt64} (h : k.step (.semTimedwait (some s) m) = .ok k')
    (hi : k.Inv) (hb : k'.running ≠ k.running) :
    k'.Pending k.running s (k.log k.running) (wrap (m.toNat + k.sysTime)) := by
  obtain ⟨loc, hl⟩ := hi.located
  have hw := (call_waits h hi (Or.inr ⟨m, rfl⟩)).resolve_left fun hnow => hb hnow.1
  have h : k.timedWait s m = .ok k' := h
  obtain ⟨r, ha, ⟨-, rfl⟩ | ⟨-, k₁, k₂, k₃, hadd, hne, hins, hn, hpark, hd⟩⟩ := timedWait_parks h hl
  · exact absurd (addVal_running ha) hb
  obtain ⟨k₄, hlv, harr⟩ := dispatch_ok hd
  have hp := hpark.leave hlv
  have hrun : k₄.running = k.running := (leave_running (k := { k₃.setMySem k.running (some s) with
    runningThreadCpuTime := 0 }) hlv).trans hpark.running
  rw [← hrun] at hp
  obtain ⟨loc', hp', hfrom, -, hrel⟩ := arrive_placed harr hp
  obtain ⟨hloc', htime⟩ := (hrel k.running hb.symm).resolve_right fun hdead => by
    rw [← hrun, Function.update_self] at hdead
    cases hdead.1
  rw [← hrun, Function.update_self] at hloc'
  refine ⟨hw, ?_, ?_⟩
  · rw [← List.count_pos_iff, hp'.asleep_count, ← hrun, hloc']
    exact Nat.one_pos
  · rw [htime, hpark.left hlv]
    obtain ⟨m₃, -, rfl⟩ := incTimedWaiting_ok hn
    obtain ⟨node₂, hp₂, -, rfl⟩ := insertAsleep_ok hins hne
    obtain ⟨m₁, node₁, hp₁, -, -, rfl⟩ := addBlocked_ok hadd
    obtain ⟨m₀, -, -, rfl⟩ := addVal_ok ha
    obtain ⟨th, hth, hst⟩ := cpu_state hl.placed hl.running_cpu
    simp [wakeTime, timing, setThreadsSemStatus, setTimeForWakingUp, setSem, setMySem, hth]

/-- A tick before the time to wake leaves the thread in the queue. -/
theorem tick_early (h : k.timerInterruptHandler = .ok k') (hi : k.Inv) (hs : k.SleepSorted)
    (hp : k.Pending t s base time) (hlt : k.incTime.sysTime < time) : k'.Waits t s base := by
  obtain ⟨loc, hl⟩ := hi.located
  have ht := hp.timed hl
  have hin : 0 < (loc t).inAsleep := by
    rw [ht]
    exact Nat.one_pos
  obtain ⟨k₁, th, hw, -, hcase⟩ := timerInterruptHandler_ok h
  obtain ⟨loc₁, hl₁, hleft⟩ := tick_leaves hw hl hs
  have ht₁ : loc₁ t = .timed s := ((hleft t hin).2 (hp.wake ▸ hlt)).1.trans ht
  have hqueued : k₁.queued s t = 1 := by
    rw [hl₁.placed.queued, ht₁]
    simp [Place.inQueue]
  obtain ⟨s', hreached⟩ := wakeLoop_reached (k := k.incTime) (t := t) hw hl.sleepers (by simp [ht])
  have hw₁ : k₁.Waits t s base := by
    rcases hreached with hu | ⟨-, hwakes⟩
    · exact ⟨hqueued, hu.log.trans hp.log⟩
    · have := hwakes.queued s
      omega
  rcases hcase with ⟨-, hd⟩ | ⟨-, rfl⟩
  · have hready : k₁.queueThreads.items.count t = 0 := by
      rw [hl₁.placed.ready_count, ht₁]
      rfl
    cases dispatch_fate hd (fun _ hlv => hl₁.leave hlv) (hw₁.ne_running hl₁) with
    | stays hu => exact ⟨(hu.queued s).trans hw₁.queued, hu.log.trans hw₁.log⟩
    | dies hpos => omega
    | runs hpos => omega
  · exact hw₁

/-- The tick at or after the time to wake takes the thread out of the queue. -/
theorem tick_due (h : k.timerInterruptHandler = .ok k') (hi : k.Inv) (hID : t ≤ k.ID)
    (hs : k.SleepSorted) (hp : k.Pending t s base time) (hle : time ≤ k.incTime.sysTime) :
    k'.Woken t s .timeout base ∨ k'.Returned t s .timeout .timeout base := by
  have hstep : k.step .tick = .ok k' := h
  rcases step_waits hstep hi hID hp.toWaits with hw' | ⟨c, a, hc, hend⟩
  · have hp' := step_pending hstep hi hID hp hw'
    have hlt := tick_notDue h hi hs hp'.asleep
    rw [hp'.wake, tick_sysTime h] at hlt
    exact absurd hle (not_le.2 hlt)
  · cases hc
    exact hend

/-- A tick at which a thread with a timeout is due comes back. -/
theorem tick_total (hi : k.Inv) (hs : k.SleepSorted) (hst : k.Stored start total) (hr : k.Ranged)
    (hp : k.Pending t s base time) (hle : time ≤ k.incTime.sysTime) :
    ∃ k', k.step .tick = .ok k' := by
  obtain ⟨loc, hl⟩ := hi.located
  cases htick : k.timerInterruptHandler with
  | ok k' => exact ⟨k', htick⟩
  | error f =>
    obtain ⟨-, hfree, -⟩ := tick_fault htick hi hl hst hr
    have hmem : t ∈ k.listAsleepThreads.items.takeWhile k.incTime.due :=
      mem_takeWhile_sorted hs hp.asleep (hp.wake ▸ hle)
    have hpos : 0 < k.wokenBlocks loc :=
      List.countP_pos_iff.2 ⟨t, hmem, by rw [hp.timed hl]; rfl⟩
    omega

theorem step_clock (h : k.step e = .ok k') (hc : k.sysTime < 2 ^ 64) : k'.sysTime < 2 ^ 64 := by
  by_cases he : e = .tick
  · subst he
    rw [tick_sysTime h]
    exact Nat.mod_lt _ (by decide)
  · rw [step_sysTime h he]
    exact hc

theorem run_clock {P : Kernel → Event → Prop} {es : List Event} (h₀ : boot start total = some k₀)
    (h : Run step P k₀ es k) : k.sysTime < 2 ^ 64 := by
  refine h.invariant (fun k => k.sysTime < 2 ^ 64) ?_ fun _ _ _ hc _ hs => step_clock hs hc
  obtain ⟨stack, hp, p, hp', -, -, rfl⟩ := boot_ok h₀
  exact Nat.two_pow_pos 64

/-- While a thread waits, the clock counts the ticks from the time of its call. -/
theorem run_pending {P : Kernel → Event → Prop} {es : List Event} {start : ℕ}
    (h : Run step P k₁ es k) (hP : ∀ k e, P k e → k.Waits t s base) (hi : k₁.Inv)
    (hs : k₁.SleepSorted) (hID : t ≤ k₁.ID) (hp : k₁.Pending t s base time)
    (hstart : k₁.sysTime = start) (hclock : start < 2 ^ 64) :
    k.Inv ∧ k.SleepSorted ∧ t ≤ k.ID ∧ k.sysTime = wrap (start + ticks es) ∧
      (k.Waits t s base → k.Pending t s base time) := by
  induction h with
  | nil => exact ⟨hi, hs, hID, by rw [hstart]; exact (Nat.mod_eq_of_lt hclock).symm, fun _ => hp⟩
  | @snoc es k e k' _ he hstep ih =>
    obtain ⟨hik, hsk, hIDk, hsys, hwait⟩ := ih
    refine ⟨step_inv hstep hik, step_sorted hstep hik hsk,
      hIDk.trans (step_fresh hstep hik).2.1, ?_, step_pending hstep hik hIDk (hwait (hP k e he))⟩
    rw [ticks_snoc]
    by_cases htick : e = .tick
    · subst htick
      rw [tick_sysTime hstep, hsys, if_pos rfl]
      unfold wrap
      omega
    · rw [step_sysTime hstep htick, hsys, if_neg htick, Nat.add_zero]

/-- `t` is taken out of the queue of `s` because its timeout is over. -/
def TimesOut (k : Kernel) (t : Tid) (s : SemId) (base : List Note) : Prop :=
  k.Woken t s .timeout base ∨ k.Returned t s .timeout .timeout base

theorem Waits.not_timesOut (hw : k.Waits t s base) : ¬k.TimesOut t s base := by
  rintro (h | h)
  · have := hw.log.symm.trans h.log
    simp at this
  · have := hw.log.symm.trans h.log
    simp at this

/-- A thread blocks in `sem_timedwait` at the time `T` with the timeout `m`. It
is never told of a timeout at a tick before the `m`-th if and only if `T + m`
does not wrap around, or the clock itself wraps around at the first tick. -/
theorem timeout_exact {kb : Kernel} {es₀ : List Event} {m : UInt64}
    (hb : boot start total = some kb) (h₀ : Run step (fun _ _ => True) kb es₀ k₀)
    (hcall : k₀.step (.semTimedwait (some s) m) = .ok k₁) (hblocks : k₁.running ≠ k₀.running) :
    (∀ es k, Run step (fun k _ => k.Waits k₀.running s (k₀.log k₀.running)) k₁ (es ++ [.tick]) k →
        ticks (es ++ [.tick]) < m.toNat → ¬k.TimesOut k₀.running s (k₀.log k₀.running)) ↔
      k₀.sysTime + m.toNat < 2 ^ 64 ∨ k₀.sysTime + 1 = 2 ^ 64 := by
  have h₁ : Run step (fun _ _ => True) kb (es₀ ++ [.semTimedwait (some s) m]) k₁ :=
    h₀.snoc trivial hcall
  have hi₀ := run_inv h₀ (boot_inv hb)
  have hclock : k₀.sysTime < 2 ^ 64 := run_clock hb h₀
  obtain ⟨hi, hst⟩ := run_stored hb h₁
  have hs := run_sorted hb h₁
  have hID : k₀.running ≤ k₁.ID := hi₀.running_named.trans (step_fresh hcall hi₀).2.1
  have hp := timedWait_pending hcall hi₀ hblocks
  have hsys : k₁.sysTime = k₀.sysTime := step_sysTime hcall (by simp)
  have hm := m.toNat_lt
  constructor
  · intro hall
    by_contra hcond
    have hnext : k₁.incTime.sysTime = (k₀.sysTime + 1) % 2 ^ 64 := hsys ▸ rfl
    have hdue : wrap (m.toNat + k₀.sysTime) ≤ k₁.incTime.sysTime := by
      rw [hnext]
      unfold wrap
      omega
    obtain ⟨k', htick⟩ := tick_total hi hs hst (run_ranged hb h₁) hp hdue
    refine hall [] k' (Run.single hp.toWaits htick) ?_ (tick_due htick hi hID hs hp hdue)
    change 1 < m.toNat
    omega
  · intro hcond es k hrun hlt
    rw [ticks_snoc, if_pos rfl] at hlt
    obtain ⟨k₂, hrun, hw, htick⟩ := hrun.last
    obtain ⟨hi₂, hs₂, -, hsys₂, hp₂⟩ :=
      run_pending hrun (fun _ _ hw => hw) hi hs hID hp hsys hclock
    have hnext : k₂.incTime.sysTime = (k₂.sysTime + 1) % 2 ^ 64 := rfl
    refine (tick_early htick hi₂ hs₂ (hp₂ hw) ?_).not_timesOut
    rw [hnext, hsys₂]
    unfold wrap
    omega

/-- `main` waits for five ticks while the clock shows zero. -/
theorem timeout_exact_five : ∃ kb k₀ k₁, boot 1024 1000 = some kb ∧
    Run step (fun _ _ => True) kb [.memAlloc 65, .threadCreate 4096 5328, .semOpen 0] k₀ ∧
      k₀.step (.semTimedwait (some 0) 5) = .ok k₁ ∧ k₁.running ≠ k₀.running ∧
      ∀ es k, Run step (fun k _ => k.Waits k₀.running 0 (k₀.log k₀.running)) k₁ (es ++ [.tick]) k →
        ticks (es ++ [.tick]) < 5 → ¬k.TimesOut k₀.running 0 (k₀.log k₀.running) := by
  have hrun : ((boot 1024 1000).bind fun kb => exec step (fun _ _ => True) kb
      [.memAlloc 65, .threadCreate 4096 5328, .semOpen 0]).any (fun k₀ => k₀.sysTime = 0 ∧
        ((some k₀).bind fun k => exec step (fun _ _ => True) k
          [.semTimedwait (some 0) 5]).any (fun k₁ => k₁.running ≠ k₀.running) = true) = true := by
    decide +kernel
  obtain ⟨kb, k₀, hb, h₀, hq₀⟩ := exists_run hrun
  obtain ⟨hT, hq₀⟩ := of_decide_eq_true hq₀
  obtain ⟨_, k₁, ⟨⟩, hcall, hq₁⟩ := exists_run hq₀
  have hblocks := of_decide_eq_true hq₁
  refine ⟨kb, k₀, k₁, hb, h₀, hcall.one.2, hblocks, ?_⟩
  exact (timeout_exact hb h₀ hcall.one.2 hblocks).2 (Or.inl (by rw [hT]; decide))

/-- After one tick `main` asks to wait for 2⁶⁴ - 1 ticks and is told of a timeout
at the next. -/
theorem timeout_exact_fails : ∃ kb k₀ k₁ k, boot 1024 1000 = some kb ∧
    Run step (fun _ _ => True) kb [.memAlloc 65, .threadCreate 4096 5328, .semOpen 0, .tick] k₀ ∧
      k₀.step (.semTimedwait (some 0) 18446744073709551615) = .ok k₁ ∧
      k₁.running ≠ k₀.running ∧ k₁.step .tick = .ok k ∧
      k.TimesOut k₀.running 0 (k₀.log k₀.running) := by
  have hrun : ((boot 1024 1000).bind fun kb => exec step (fun _ _ => True) kb
      [.memAlloc 65, .threadCreate 4096 5328, .semOpen 0, .tick]).any (fun k₀ => k₀.sysTime = 1 ∧
        ((some k₀).bind fun k => exec step (fun _ _ => True) k
          [.semTimedwait (some 0) 18446744073709551615]).any (fun k₁ => k₁.running ≠ k₀.running ∧
            (exec step (fun _ _ => True) k₁ [.tick]).isSome = true) = true) = true := by
    decide +kernel
  obtain ⟨kb, k₀, hb, h₀, hq₀⟩ := exists_run hrun
  obtain ⟨hT, hq₀⟩ := of_decide_eq_true hq₀
  obtain ⟨_, k₁, ⟨⟩, hcall, hq₁⟩ := exists_run hq₀
  obtain ⟨hblocks, hq₁⟩ := of_decide_eq_true hq₁
  obtain ⟨k, htick⟩ := Option.isSome_iff_exists.1 hq₁
  have htick : k₁.timerInterruptHandler = .ok k := exec_one htick
  have hcall := hcall.one.2
  have hi := run_inv h₀ (boot_inv hb)
  have hi₁ := step_inv hcall hi
  have hID := hi.running_named.trans (step_fresh hcall hi).2.1
  have hp := timedWait_pending hcall hi hblocks
  rw [hT] at hp
  exact ⟨kb, k₀, k₁, k, hb, h₀, hcall, hblocks, htick,
    tick_due htick hi₁ hID (run_sorted hb (h₀.snoc trivial hcall)) hp (Nat.zero_le _)⟩

end Kernel
end OSK
