import RiscVKernel.Kernel.Aloof
import RiscVKernel.Lib.Gate

/-! A semaphore on which nobody waits with a timeout, nobody tries and which stays open is a
`Gate`: the threads of its queue wait, and those that are to go on behind their `sem_wait` and
do not stand in the queue any more are woken. -/

namespace OSK

open Lib

namespace Kernel

variable {k k' : Kernel} {e : Event} {o : Option Context} {s : SemId} {t : Tid} {g g' : Gate Tid}

structure Gated (k : Kernel) (s : SemId) (g : Gate Tid) : Prop where
  sem : ∃ m, k.sems s = some m ∧ g.val = m.val ∧ g.waiting = m.queueBlocked.items
  waits : ∀ t, t ∈ g.waiting ∨ t ∈ g.woken ↔ t ≠ k.running ∧ k.Resumes t (.block s)
  apart : (g.waiting ++ g.woken).Nodup

theorem Gated.waiters (hg : k.Gated s g) : k.waiters s = g.waiting := by
  obtain ⟨m, hm, -, hq⟩ := hg.sem
  exact (waiters_some hm).trans hq.symm

/-- What the thread does to the gate that has the processor behind a call. -/
def passing (s : SemId) (o : Option Context) (k' : Kernel) : List (Gate.Event Tid) :=
  if o = some (.block s) then [.resume k'.running] else []

/-- The threads that the gate has behind a call, before one of them goes on: those that are to go
on as before, and the one that the call has blocked. -/
structure Called (k : Kernel) (s : SemId) (e : Event) (o : Option Context) (k' : Kernel)
    (g : Gate Tid) : Prop where
  sem : ∃ m, k'.sems s = some m ∧ g.val = m.val ∧ g.waiting = m.queueBlocked.items
  waits : ∀ t, t ∈ g.waiting ∨ t ∈ g.woken ↔
    t ≠ k.running ∧ k.Resumes t (.block s) ∨ t = k.running ∧ e = .semWait (some s) ∧ o ≠ none
  apart : (g.waiting ++ g.woken).Nodup

/-- They are the ones that wait after the call, and the one that has the processor. -/
theorem Called.others (hc : k.Called s e o k' g) (h : k.stepFrom e = .ok (o, k')) (hi : k.Inv)
    (hv : victim e = none) (ht : t ≠ k'.running) :
    t ∈ g.waiting ∨ t ∈ g.woken ↔ k'.Resumes t (.block s) := by
  have hkill : ∀ t, e ≠ .subtleKill t := by
    rintro t rfl
    cases hv
  rw [hc.waits t, stepFrom_resumes h hi hkill ht]
  refine or_congr Iff.rfl ⟨fun hr => ⟨hr.1, hr.2.1⟩, fun hr => ⟨hr.1, hr.2, ?_⟩⟩
  rintro rfl
  exact ht (hr.1.trans (stepFrom_running h).symm)

/-- The thread that has the processor is among them exactly when it goes on behind its wait. -/
theorem Called.running (hc : k.Called s e o k' g) (h : k.stepFrom e = .ok (o, k')) (hi : k.Inv) :
    k'.running ∈ g.waiting ∨ k'.running ∈ g.woken ↔ o = some (.block s) := by
  rw [hc.waits]
  refine ⟨?_, ?_⟩
  · intro hcase
    cases o with
    | none =>
      rcases hcase with ⟨hne, -⟩ | ⟨-, -, hsome⟩
      · exact absurd (stepFrom_running h) hne
      · exact absurd rfl hsome
    | some c₀ =>
      rcases stepFrom_goes_on h hi with ⟨hrun, hsaves⟩ | ⟨hne, hr⟩
      · rcases hcase with ⟨hne, -⟩ | ⟨-, rfl, -⟩
        · exact absurd hrun hne
        · exact hsaves.symm
      · rcases hcase with ⟨-, hr'⟩ | ⟨hrun, -⟩
        · exact congrArg some (hr.unique hr')
        · exact absurd hrun hne
  · rintro rfl
    rcases stepFrom_goes_on h hi with ⟨hrun, hsaves⟩ | hr
    · exact Or.inr ⟨hrun, saves_block hsaves, by simp⟩
    · exact Or.inl hr

/-- What follows a call, whether or not a thread goes on behind its wait. -/
theorem Called.passes (hc : k.Called s e o k' g) (h : k.stepFrom e = .ok (o, k')) (hi : k.Inv)
    (hv : victim e = none) :
    ∃ g', Run Gate.step (fun _ _ => True) g (passing s o k') g' ∧ k'.Gated s g' := by
  obtain ⟨loc', hl'⟩ := (step_inv (stepFrom_step h) hi).located
  obtain ⟨m, hm, hval, hq⟩ := hc.sem
  have hrun := hc.running h hi
  unfold passing
  by_cases ho : o = some (.block s)
  · -- the running thread stands in no queue
    have hout : k'.running ∉ g.waiting := by
      intro hin
      have hloc := hl'.placed.mem_queue hm (hq ▸ hin)
      simp [hl'.running_cpu] at hloc
    have hin : k'.running ∈ g.woken := (hrun.2 ho).resolve_left hout
    obtain ⟨hnq, hnw, hdisj⟩ := List.nodup_append'.1 hc.apart
    rw [if_pos ho]
    refine ⟨{ g with woken := g.woken.erase k'.running }, .single trivial (if_pos hin),
      ⟨m, hm, hval, hq⟩, fun t => ?_, ?_⟩
    · by_cases ht : t = k'.running
      · subst ht
        simp [hout, hnw.mem_erase_iff]
      · rw [List.mem_erase_of_ne ht, hc.others h hi hv ht]
        simp [ht]
    · exact List.nodup_append'.2
        ⟨hnq, hnw.erase _, fun _ ha hb => hdisj ha (List.mem_of_mem_erase hb)⟩
  · rw [if_neg ho]
    refine ⟨g, .nil, hc.sem, fun t => ?_, hc.apart⟩
    by_cases ht : t = k'.running
    · subst ht
      simp [hrun, ho]
    · rw [hc.others h hi hv ht]
      simp [ht]

/-- `sem_wait`. -/
theorem Gated.wait (hg : k.Gated s g) (h : k.stepFrom (.semWait (some s)) = .ok (o, k'))
    (hu : k.Untimed s) : (o = none ↔ 0 ≤ g.val - 1) ∧
      k.Called s (.semWait (some s)) o k' (g.wait k.running) := by
  obtain ⟨m, hm, hval, hq⟩ := hg.sem
  unfold Gate.wait
  rcases stepFrom_wait h hu hm with ⟨rfl, hv, hsem⟩ | ⟨ho, hv, q, hitems, hsem⟩
  · rw [hval, if_pos hv]
    exact ⟨iff_of_true rfl hv, ⟨_, hsem, rfl, hq⟩, fun t => (hg.waits t).trans (by simp), hg.apart⟩
  · rw [hval, if_neg (Int.not_le.2 hv)]
    refine ⟨iff_of_false ho (Int.not_le.2 hv), ⟨_, hsem, rfl, ?_⟩, fun t => ?_, ?_⟩
    · rw [hitems, ← hq]
    · have hold := hg.waits t
      simp only [List.mem_append, List.mem_singleton]
      constructor
      · rintro ((ht | rfl) | ht)
        · exact Or.inl (hold.1 (Or.inl ht))
        · exact Or.inr ⟨rfl, trivial, ho⟩
        · exact Or.inl (hold.1 (Or.inr ht))
      · rintro (ht | ⟨rfl, -⟩)
        · rcases hold.2 ht with ht | ht
          · exact Or.inl (Or.inl ht)
          · exact Or.inr ht
        · exact Or.inl (Or.inr rfl)
    · have hnew : ¬(k.running ∈ g.waiting ∨ k.running ∈ g.woken) := by
        rw [hg.waits]
        exact fun h => h.1 rfl
      rw [List.append_assoc, List.singleton_append, List.perm_middle.nodup_iff, List.nodup_cons,
        List.mem_append]
      exact ⟨hnew, hg.apart⟩

/-- `sem_signal`. -/
theorem Gated.signal (hg : k.Gated s g) (h : k.stepFrom (.semSignal (some s)) = .ok (o, k')) :
    o = none ∧ ∃ g', g.signal = .ok g' ∧ k.Called s (.semSignal (some s)) o k' g' := by
  obtain ⟨m, hm, hval, hq⟩ := hg.sem
  obtain ⟨rfl, hcase⟩ := stepFrom_signal h hm
  refine ⟨rfl, ?_⟩
  unfold Gate.signal
  rcases hcase with ⟨hv, hsem⟩ | ⟨hv, a, q, hqueue, hsem⟩
  · rw [hval, if_pos hv]
    exact ⟨_, rfl, ⟨_, hsem, rfl, hq⟩, fun t => (hg.waits t).trans (by simp), hg.apart⟩
  · have hhead : g.waiting = a.data :: KList.items q := by
      rw [hq, hqueue]
      rfl
    have hperm : (KList.items q ++ (g.woken ++ [a.data])).Perm (g.waiting ++ g.woken) := by
      rw [hhead, ← List.append_assoc]
      exact List.perm_append_singleton _ _
    rw [hval, if_neg (Int.not_lt.2 hv), hhead]
    refine ⟨_, rfl, ⟨_, hsem, rfl, rfl⟩, fun t => ?_, hperm.nodup_iff.2 hg.apart⟩
    have hsame : t ∈ KList.items q ∨ t ∈ g.woken ++ [a.data] ↔ t ∈ g.waiting ∨ t ∈ g.woken := by
      rw [← List.mem_append, ← List.mem_append]
      exact hperm.mem_iff
    rw [hsame, hg.waits]
    simp

/-- A call of anything else. -/
theorem Gated.other (hg : k.Gated s g) (h : k.stepFrom e = .ok (o, k')) (hi : k.Inv)
    (hu : k.Untimed s) (he : handle e ≠ some s) : k.Called s e o k' g := by
  obtain ⟨m, hm, hval, hq⟩ := hg.sem
  have hsem := stepFrom_sem h hi hu (by simp [hm]) he
  refine ⟨⟨m, hsem.trans hm, hval, hq⟩, fun t => ?_, hg.apart⟩
  rw [hg.waits]
  refine ⟨Or.inl, fun hcase => hcase.resolve_right ?_⟩
  rintro ⟨-, rfl, -⟩
  exact he rfl

/-- A new semaphore is a gate at which nobody stands. -/
theorem newSem_gated {n : UInt32} (hk : k.Known) (h : k.step (.semOpen n) = .ok k') :
    k'.Untimed k.nextSem ∧ k'.Gated k.nextSem ⟨n.toNat, [], []⟩ := by
  refine ⟨fun t th hth hc => absurd hc (newSem_unawaited hk h hth).2, ?_, fun t => ?_, List.nodup_nil⟩
  · obtain ⟨p, hp, node, hp', -, -, rfl⟩ := newSem_ok h
    exact ⟨_, Function.update_self .., (initial_val n).symm, rfl⟩
  · have hnone : ¬k'.Resumes t (.block k.nextSem) := by
      rintro ⟨th, hth, -, hc⟩
      exact (newSem_unawaited hk h hth).1 hc
    simp [hnone]

end Kernel
end OSK
