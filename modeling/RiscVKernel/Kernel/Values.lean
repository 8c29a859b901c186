import RiscVKernel.Kernel.Steps

/-! The values of semaphores stay in the range of a `long`: an addition that
would leave it is a fault. -/

namespace OSK

open Lib

namespace Kernel

variable {k k' k₂ : Kernel} {t : Tid} {s : SemId} {cause : SemStatus} {loc : Tid → Place}

/-- The values in `k'` are those of `k` or the results of checked additions. -/
def Ranges (k k' : Kernel) : Prop :=
  ∀ s m', k'.sems s = some m' → (∃ m, k.sems s = some m ∧ m.val = m'.val) ∨
    (-2 ^ 63 ≤ m'.val ∧ m'.val < 2 ^ 63)

def Ranged (k : Kernel) : Prop :=
  ∀ s m, k.sems s = some m → -2 ^ 63 ≤ m.val ∧ m.val < 2 ^ 63

theorem Ranges.refl (k : Kernel) : Ranges k k := fun _ m hm => Or.inl ⟨m, hm, rfl⟩

theorem Ranges.trans (h : Ranges k k') (h' : Ranges k' k₂) : Ranges k k₂ := by
  intro s m₂ hm₂
  rcases h' s m₂ hm₂ with ⟨m', hm', he'⟩ | hr
  · rcases h s m' hm' with ⟨m, hm, he⟩ | hr
    · exact Or.inl ⟨m, hm, he.trans he'⟩
    · exact Or.inr (he' ▸ hr)
  · exact Or.inr hr

theorem Ranges.ranged (h : Ranges k k') (hr : k.Ranged) : k'.Ranged := by
  intro s m' hm'
  rcases h s m' hm' with ⟨m, hm, he⟩ | hin
  · exact he ▸ hr s m hm
  · exact hin

theorem ranges_of_eq (h : k'.sems = k.sems) : Ranges k k' := fun _ m' hm' =>
  Or.inl ⟨m', h ▸ hm', rfl⟩

theorem Quiet.ranges (h : Quiet k k') : Ranges k k' := by
  intro s m' hm'
  have hl := (h s).level
  rw [hm'] at hl
  obtain ⟨m, hm, he⟩ := Option.map_eq_some_iff.1 hl.symm
  exact Or.inl ⟨m, hm, congrArg Prod.fst he⟩

/-- A semaphore gets a record with a value in range or with the value it had. -/
theorem update_ranges {m m₁ : Sem} (hs : k'.sems = Function.update k.sems s (some m₁))
    (hm : k.sems s = some m) (hv : m.val = m₁.val ∨ (-2 ^ 63 ≤ m₁.val ∧ m₁.val < 2 ^ 63)) :
    Ranges k k' := by
  intro s' m' hm'
  rw [hs] at hm'
  by_cases he : s' = s
  · subst he
    rw [Function.update_self, Option.some.injEq] at hm'
    subst hm'
    exact hv.imp_left fun h => ⟨m, hm, h⟩
  · rw [Function.update_of_ne he] at hm'
    exact Or.inl ⟨m', hm', rfl⟩

theorem addVal_ranges {d : ℤ} {r : ℤ × Kernel} (h : k.addVal s d = .ok r) : Ranges k r.2 := by
  obtain ⟨m, hm, hv, rfl⟩ := addVal_ok h
  exact update_ranges rfl hm (Or.inr hv)

theorem addBlocked_ranges (h : k.addBlocked s t = .ok k') : Ranges k k' := by
  obtain ⟨m, node, hp, hm, -, rfl⟩ := addBlocked_ok h
  exact update_ranges rfl hm (Or.inl rfl)

theorem removeBlocked_ranges (h : k.removeBlocked s t = .ok k') : Ranges k k' := by
  obtain ⟨m, hm, rfl⟩ := removeBlocked_ok h
  exact update_ranges rfl hm (Or.inl rfl)

theorem put_ranges (h : k.put t = .ok k') : Ranges k k' := (put_quiet h).ranges

theorem release_ranges (h : k.release t s cause = .ok k') : Ranges k k' := by
  obtain ⟨node, hp, -, rfl⟩ := put_ok h
  exact ranges_of_eq rfl

theorem unblock_ranges (h : k.unblock s cause = .ok k') : Ranges k k' := by
  obtain ⟨m, e, q, hm, -, hs⟩ := unblock_sems h
  exact update_ranges hs hm (Or.inl rfl)

theorem unblockAll_ranges {n : ℕ} (h : k.unblockAll s cause n = .ok k') : Ranges k k' := by
  induction n generalizing k with
  | zero =>
    cases h
    exact .refl _
  | succ n ih =>
    obtain ⟨k₁, r, hu, ha, h⟩ := unblockAll_ok h
    exact ((unblock_ranges hu).trans (addVal_ranges ha)).trans (ih h)

theorem unblockedByTime_ranges (h : k.unblockedByTime s t = .ok k') : Ranges k k' := by
  obtain ⟨th, -, ⟨-, rfl⟩ | ⟨-, r, k₁, ha, hb, hr⟩⟩ := unblockedByTime_ok h
  · exact .refl _
  · have hsleep : Ranges r.2 (r.2.removeThreadFromSleep t).2 := ranges_of_eq rfl
    exact (((addVal_ranges ha).trans hsleep).trans (removeBlocked_ranges hb)).trans
      (release_ranges hr)

theorem wakeThreadUp_ranges (h : k.wakeThreadUp t = .ok k') : Ranges k k' := by
  cases ht : k.threads t with
  | none =>
    unfold wakeThreadUp at h
    simp only [ht] at h
    cases h
    exact .refl _
  | some th =>
    have hsleep : Ranges k (k.removeThreadFromSleep t).2 := ranges_of_eq rfl
    rcases wakeThreadUp_ok h ht with ⟨-, ⟨-, rfl⟩ | ⟨s, -, hu⟩⟩ | ⟨-, ⟨-, hput⟩ | ⟨-, rfl⟩⟩
    · exact .refl _
    · exact unblockedByTime_ranges hu
    · exact hsleep.trans (put_ranges hput)
    · exact hsleep

theorem wakeLoop_ranges {ts : List Tid}
    (h : foreachWhile wakeThreadUp shouldWakeUpThread ts k = .ok k') : Ranges k k' :=
  foreachWhile_rel (R := Ranges) .refl .trans (fun _ _ _ => wakeThreadUp_ranges) h

theorem parked_ranges {c : Context} {pl : Place} (hl : k.Located loc) (hpark : Parks k loc c pl k₂)
    (hd : k₂.dispatch c = .ok k') (hpl : pl ≠ .cpu ∧ pl ≠ .limbo) (h : Ranges k k₂) :
    Ranges k k' := by
  obtain ⟨-, -, -, hq⟩ := hpark.dispatch (r := none) hl hd hpl
  exact h.trans hq.ranges

theorem wait_ranges (h : k.wait s = .ok k') (hl : k.Located loc) : Ranges k k' := by
  obtain ⟨r, ha, ⟨-, rfl⟩ | ⟨-, hb⟩⟩ := wait_ok h
  · exact (addVal_ranges ha).trans (ranges_of_eq rfl)
  · obtain ⟨k₁, hadd, hd⟩ := block_ok hb
    rw [addVal_running ha] at hadd hd
    exact parked_ranges hl (block_parks ha hadd hl) hd ⟨by simp, by simp⟩
      (((addVal_ranges ha).trans (addBlocked_ranges hadd)).trans (ranges_of_eq rfl))

theorem timedWait_ranges {m : UInt64} (h : k.timedWait s m = .ok k') (hl : k.Located loc) :
    Ranges k k' := by
  obtain ⟨r, ha, ⟨-, rfl⟩ | ⟨-, k₁, k₂, k₃, hadd, hne, hi, hn, hpark, hd⟩⟩ := timedWait_parks h hl
  · exact (addVal_ranges ha).trans (ranges_of_eq rfl)
  · have htiming : Ranges r.2 (r.2.timing k.running (wrap (m.toNat + r.2.sysTime))) :=
      ranges_of_eq rfl
    have hlists := (addVal_ranges ha).trans (htiming.trans (addBlocked_ranges hadd))
    refine parked_ranges hl hpark hd ⟨by simp, by simp⟩ ?_
    exact (hlists.trans (insertAsleep_quiet hi hne).ranges).trans
      ((incTimedWaiting_quiet hn).ranges.trans (ranges_of_eq rfl))

theorem putThreadToSleep_ranges {m : UInt64} (h : k.putThreadToSleep m = .ok k')
    (hl : k.Located loc) : Ranges k k' := by
  obtain ⟨k₁, hne, hi, hpark, hd⟩ := putThreadToSleep_parks h hl
  have hdoze : Ranges k (k.dozing k.running (wrap (k.sysTime + m.toNat))) := ranges_of_eq rfl
  exact parked_ranges hl hpark hd ⟨by simp, by simp⟩
    (hdoze.trans (insertAsleep_quiet hi hne).ranges)

theorem deleteSem_ranges (h : k.deleteSem s = .ok k') : Ranges k k' := by
  obtain ⟨m, k₁, -, hu, rfl⟩ := deleteSem_ok h
  apply (unblockAll_ranges hu).trans
  intro s' m' hm'
  rw [forgetSem_sems] at hm'
  by_cases he : s' = s
  · subst he
    simp at hm'
  · rw [Function.update_of_ne he] at hm'
    exact Or.inl ⟨m', hm', rfl⟩

theorem newSem_ranges {n : UInt32} (h : k.newSem n.toUInt64 = .ok k') : Ranges k k' := by
  obtain ⟨p, hp, node, hp', -, -, rfl⟩ := newSem_ok h
  intro s m' hm'
  dsimp only at hm'
  by_cases he : s = k.nextSem
  · subst he
    rw [Function.update_self, Option.some.injEq] at hm'
    subst hm'
    have hlt := n.toNat_lt
    rw [initial_val]
    dsimp only
    exact Or.inr ⟨by omega, by omega⟩
  · rw [Function.update_of_ne he] at hm'
    exact Or.inl ⟨m', hm', rfl⟩

theorem newThread_ranges {body : UInt64} {stack : ℕ} (h : k.newThread body stack = .ok k') :
    Ranges k k' := by
  obtain ⟨-, p, hp, k₁, -, ⟨-, hput⟩ | ⟨-, rfl⟩, rfl⟩ := newThread_ok h
  · obtain ⟨node, hp', -, rfl⟩ := put_ok hput
    exact ranges_of_eq rfl
  · exact ranges_of_eq rfl

theorem step_ranges {e : Event} (h : k.step e = .ok k') (hi : k.Inv) : Ranges k k' := by
  obtain ⟨loc, hl⟩ := hi.located
  cases step_effect h with
  | idle => exact .refl _
  | memAlloc => exact ranges_of_eq rfl
  | memFree => exact ranges_of_eq rfl
  | threadCreate h => exact newThread_ranges h
  | threadExit h =>
    obtain ⟨-, -, -, hq⟩ := exit_located (r := none) h hl
    exact hq.ranges
  | threadDispatch h =>
    obtain ⟨-, -, -, hq⟩ := dispatch_located (r := none) h hl
    exact hq.ranges
  | semOpen h => exact newSem_ranges h
  | semClose s h => exact deleteSem_ranges h
  | semWait s h => exact wait_ranges h hl
  | semSignal s hr =>
    obtain ⟨val, k₁, ha, ⟨-, rfl⟩ | ⟨-, k', hu, rfl⟩⟩ := signal_ok hr
    · exact (addVal_ranges ha).trans (ranges_of_eq rfl)
    · have hnote : Ranges k₁ (k₁.note (.signalled s)) := ranges_of_eq rfl
      exact ((addVal_ranges ha).trans hnote).trans (unblock_ranges hu)
  | semTimedwait s h => exact timedWait_ranges h hl
  | semTrywait s hr => exact addVal_ranges hr
  | timeSleep h => exact putThreadToSleep_ranges h hl
  | tick h =>
    obtain ⟨k₁, th, hw, -, hcase⟩ := timerInterruptHandler_ok h
    obtain ⟨_, _, -, -, -, hl₁, -⟩ := wake_located hw hl
    obtain ⟨-, -, -, hq⟩ := preempt_located (r := none) hl₁ hcase
    have htime : Ranges k k.incTime := ranges_of_eq rfl
    exact (htime.trans (wakeLoop_ranges hw)).trans hq.ranges
  | subtleKill t =>
    obtain ⟨-, -, hq⟩ := subtleKill_located (r := none) k t hl
    exact hq.ranges

theorem boot_ranged {start total : ℕ} (h : boot start total = some k) : k.Ranged := by
  obtain ⟨stack, hp, p, hp', -, -, rfl⟩ := boot_ok h
  intro s m hm
  simp [bootState] at hm

theorem run_ranged {P : Kernel → Event → Prop} {k₀ : Kernel} {es : List Event} {start total : ℕ}
    (h₀ : boot start total = some k₀) (h : Run step P k₀ es k) : k.Ranged :=
  (h.invariant (fun k => k.Inv ∧ k.Ranged) ⟨boot_inv h₀, boot_ranged h₀⟩
    fun _ _ _ hk _ hs => ⟨step_inv hs hk.1, (step_ranges hs hk.1).ranged hk.2⟩).2

end Kernel
end OSK
