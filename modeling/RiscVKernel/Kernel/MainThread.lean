import RiscVKernel.Kernel.Answers
import RiscVKernel.Kernel.Dangling
import RiscVKernel.Kernel.Waking

/-! `dispatch` always finds a thread to run. The thread of `main` never waits,
sleeps or exits and nobody can kill it, so it is in the ready queue whenever it
does not run. -/

namespace OSK

open Lib

/-- The faults of a `dispatch` with a free block: no live thread in the ready
queue, or a thread whose record is gone. -/
def Fault.Lost : Fault → Prop
  | .nullRunning => True
  | .deadThread => True
  | _ => False

namespace Kernel

variable {k k' k₀ k₁ : Kernel} {t : Tid} {s : SemId} {c : Context} {f : Fault} {e : Event}
  {cause : SemStatus} {start total : ℕ} {loc : Tid → Place} {pend : Tid → Option Context}

/-- The calls by which a thread stops being ready. -/
def stops : Event → Bool
  | .threadExit => true
  | .semWait _ => true
  | .semTimedwait _ _ => true
  | .timeSleep _ => true
  | _ => false

/-- `main` only makes calls that leave it ready, such as `thread_create` and
`thread_dispatch`. -/
def MainKeepsReady (k : Kernel) (e : Event) : Prop := k.running = mainThread → stops e = false

instance (k : Kernel) (e : Event) : Decidable (MainKeepsReady k e) :=
  inferInstanceAs (Decidable (_ → _))

/-- `t` has not finished, and runs or is ready. -/
structure Up (k : Kernel) (t : Tid) : Prop where
  alive : k.Alive t
  place : k.running = t ∨ t ∈ k.queueThreads.items

/-- Nobody is the parent of `t`, so that nobody can kill it. -/
def Orphan (k : Kernel) (t : Tid) : Prop := ∀ p, ¬k.Child p t

/-! Calls of a thread that stays ready. -/

/-- A live thread of the ready queue is still there behind the new thread. -/
theorem arrive_front (h : k.arrive c = .ok k') (ht : t ∈ k.queueThreads.items)
    (hlive : k.isFinished t = false) : k'.running = t ∨ t ∈ k'.queueThreads.items := by
  have hsplit := List.takeWhile_append_dropWhile (p := k.isFinished) (l := k.queueThreads.items)
  rw [arrive_queue h] at hsplit
  rw [← hsplit] at ht
  rcases List.mem_append.1 ht with hdead | ht
  · have := List.mem_takeWhile_imp hdead
    simp [hlive] at this
  · rcases List.mem_cons.1 ht with rfl | ht
    · exact Or.inl rfl
    · exact Or.inr ht

/-- A thread that gives up the processor is ready. -/
theorem dispatch_up (h : k.dispatch c = .ok k') (hl : k.Located loc) :
    k'.running = k.running ∨ k.running ∈ k'.queueThreads.items := by
  obtain ⟨th, hth, hr⟩ := hl.runnable
  obtain ⟨k₁, hlv, ha⟩ := dispatch_ok h
  have hth₀ : ({ k with runningThreadCpuTime := 0 } : Kernel).threads k.running = some th := hth
  obtain ⟨hin, -⟩ := leave_queue hlv hth₀
  obtain ⟨hq, hfin⟩ := hin hr
  exact arrive_front ha (by simp [hq]) hfin

theorem step_running (h : k.step e = .ok k') (hi : k.Inv) (he : stops e = false) :
    k'.running = k.running ∨ k.running ∈ k'.queueThreads.items := by
  obtain ⟨loc, hl⟩ := hi.located
  cases step_effect h with
  | idle => exact Or.inl rfl
  | memAlloc => exact Or.inl rfl
  | memFree => exact Or.inl rfl
  | threadCreate h =>
    obtain ⟨-, p, hp, k₁, -, ⟨-, hput⟩ | ⟨-, rfl⟩, rfl⟩ := newThread_ok h
    · exact Or.inl (put_stays hput).running
    · exact Or.inl rfl
  | threadExit => cases he
  | threadDispatch h => exact dispatch_up h hl
  | semOpen h =>
    obtain ⟨p, hp, node, hp', -, -, rfl⟩ := newSem_ok h
    exact Or.inl rfl
  | semClose s h =>
    obtain ⟨m, k₁, -, hu, rfl⟩ := deleteSem_ok h
    exact Or.inl (unblockAll_stays hu).running
  | semWait => cases he
  | semSignal s hr => exact Or.inl (signal_stays hr).running
  | semTimedwait => cases he
  | semTrywait s hr => exact Or.inl (addVal_running hr)
  | timeSleep => cases he
  | tick h =>
    obtain ⟨k₁, th, hw, -, hcase⟩ := timerInterruptHandler_ok h
    obtain ⟨_, _, -, -, -, hl₁, -⟩ := wake_located hw hl
    have hrun := (wakeAsleepThreadsUp_stays hw).running
    change _ = k.running at hrun
    rcases hcase with ⟨-, hd⟩ | ⟨-, rfl⟩
    · exact hrun ▸ dispatch_up hd hl₁
    · exact Or.inl hrun
  | subtleKill t => exact Or.inl (subtleKill_stays k t).running

/-! Threads that are ready. -/

theorem step_ready (h : k.step e = .ok k') (hi : k.Inv) (ht : t ∈ k.queueThreads.items)
    (ha : k'.Alive t) : k'.running = t ∨ t ∈ k'.queueThreads.items := by
  obtain ⟨loc, hl⟩ := hi.located
  have hloc := hl.placed.mem_ready ht
  have hne : t ≠ k.running := by
    rintro rfl
    simp [hl.running_cpu] at hloc
  obtain ⟨th, hth, -⟩ := hl.placed.record (t := t) (by simp [hloc])
  obtain ⟨k₁, hcase, hfate⟩ := step_passed h hi hl hne (by simp [hloc]) (hi.named hth)
  rcases hcase with hu | ⟨s, c, a, -, hq, -⟩
  · cases hu.fate hfate with
    | stays hu' =>
      right
      rw [← List.count_pos_iff, hu'.ready, List.count_pos_iff]
      exact ht
    | dies _ _ hgone =>
      obtain ⟨th', hth', -⟩ := alive_iff.1 ha
      rw [hgone] at hth'
      cases hth'
    | runs _ hrun => exact Or.inl hrun
  · simp [hloc] at hq

theorem step_orphan (h : k.step e = .ok k') (hi : k.Inv) (ht : t ≤ k.ID) (ho : k.Orphan t) :
    k'.Orphan t := by
  intro p hc
  rcases step_child h hi hc with hc | ⟨-, -, rfl⟩
  · exact ho p hc
  · exact absurd ht (Nat.not_succ_le_self _)

/-- A thread without a parent that keeps ready when it runs stays up. -/
theorem step_up (h : k.step e = .ok k') (hi : k.Inv) (ho : k.Orphan t) (hu : k.Up t)
    (he : k.running = t → stops e = false) : k'.Up t := by
  have ha : k'.Alive t := by
    rcases (step_passes h hi).survives t hu.alive with ha | hend
    · exact ha
    · cases e with
      | threadExit =>
        cases he (Option.some.inj hend)
      | subtleKill t' =>
        obtain rfl : t' = t := Option.some.inj hend
        obtain ⟨th, hth, hst⟩ := alive_iff.1 hu.alive
        have hpar : th.parentThread ≠ some k.running := fun hp => ho _ ⟨th, hth, hst, hp⟩
        cases h
        simp only [subtleKill, hth, if_pos hpar]
        exact hu.alive
      | _ => cases hend
  refine ⟨ha, ?_⟩
  by_cases hrun : k.running = t
  · exact hrun ▸ step_running h hi (he hrun)
  · exact step_ready h hi (hu.place.resolve_left hrun) ha

/-! Calls that fail. -/

theorem NoNode.not_lost (h : k.NoNode f) : ¬f.Lost := by
  rw [h.1]
  exact id

theorem NoSem.not_lost (h : k.NoSem s f) : ¬f.Lost := by
  rw [h.1]
  exact id

theorem addVal_not_lost {d : ℤ} (h : k.addVal s d = .error f) : ¬f.Lost := by
  rcases bind_error h with hs | ⟨m, -, h⟩
  · exact (sem_error hs).not_lost
  · dsimp only at h
    split_ifs at h
    · cases h
    · cases h
      exact id

/-- The first thread of a queue can always be released. -/
theorem unblock_not_lost (h : k.unblock s cause = .error f) (hp : k.Placed pend loc)
    (hs : k.Stored start total) : ¬f.Lost := by
  rcases bind_error h with hf | ⟨⟨r, k₁⟩, hf, hrest⟩
  · exact (firstBlocked_error hf).not_lost
  · obtain ⟨m, hm, ⟨-, hr⟩ | ⟨e, q, hq, -⟩⟩ := firstBlocked_ok hf
    · cases hr
      cases hrest
      exact id
    · obtain ⟨k', hk'⟩ : ∃ k', k.unblock s cause = .ok k' := unblock_total hp hs hm hq
      rw [hk'] at h
      cases h

theorem unblockAll_not_lost {n : ℕ} (h : k.unblockAll s cause n = .error f)
    (hp : k.Placed pend loc) (hcpu : loc k.running = .cpu) (hc : cause.Woken)
    (hs : k.Stored start total) : ¬f.Lost := by
  induction n generalizing k loc with
  | zero => cases h
  | succ n ih =>
    rcases bind_error h with hu | ⟨k₁, hu, h⟩
    · exact unblock_not_lost hu hp hs
    · rcases bind_error h with ha | ⟨r, ha, h⟩
      · exact addVal_not_lost ha
      · obtain ⟨t, hloc, hp₁, -⟩ := unblock_placed hu hp hcpu hc
        have hne : k.running ≠ t :=
          Placed.running_ne hcpu (by rcases hloc with hl | hl <;> simp [hl])
        refine ih h (hp₁.congr (addVal_view ha)) ?_ (addVal_stored ha (unblock_stored hu hs)).1
        rw [addVal_running ha, (unblock_stays hu).running, Function.update_of_ne hne]
        exact hcpu

theorem deleteSem_not_lost (h : k.deleteSem s = .error f) (hl : k.Located loc)
    (hs : k.Stored start total) : ¬f.Lost := by
  rcases bind_error h with he | ⟨m, -, h⟩
  · exact (sem_error he).not_lost
  · rcases bind_error h with hu | ⟨k₁, -, hr⟩
    · exact unblockAll_not_lost hu hl.placed hl.running_cpu trivial hs
    · cases hr

theorem signal_not_lost (h : k.signal s = .error f) (hl : k.Located loc)
    (hs : k.Stored start total) : ¬f.Lost := by
  rcases bind_error h with ha | ⟨r, ha, h⟩
  · exact addVal_not_lost ha
  · dsimp only at h
    split_ifs at h
    · cases h
    · rcases bind_error h with hu | ⟨k₁, -, hr⟩
      · exact unblock_not_lost hu ((hl.placed.congr (addVal_view ha)).congr fun _ => rfl)
          (note_stored _ (addVal_stored ha hs).1)
      · cases hr

theorem tryWait_not_lost (h : k.tryWait s = .error f) : ¬f.Lost := by
  rcases bind_error h with he | ⟨m, -, h⟩
  · exact (sem_error he).not_lost
  · rcases bind_error h with ha | ⟨r, -, hr⟩
    · exact addVal_not_lost ha
    · cases hr

/-- A thread that starts to wait leaves the processor to one that is ready. -/
theorem Parks.dispatch_total {pl : Place} {k₂ : Kernel} (h : Parks k loc c pl k₂)
    (hl : k.Located loc) (ht : t ∈ k.queueThreads.items) (hlive : k.isFinished t = false) :
    ∃ k', k₂.dispatch c = .ok k' := by
  have hne : t ≠ k.running := by
    rintro rfl
    have := hl.placed.mem_ready ht
    simp [hl.running_cpu] at this
  have hv := h.views t hne
  refine suspended_dispatch_total c (h.running ▸ h.suspended) ⟨t, ?_, ?_⟩
  · have hcount : k₂.queueThreads.items.count t = k.queueThreads.items.count t :=
      congrArg View.ready hv
    rw [← List.count_pos_iff, hcount, List.count_pos_iff]
    exact ht
  · have hth : k₂.threads t = k.threads t := congrArg View.thread hv
    rw [← hlive]
    simp [Kernel.isFinished, hth]

theorem wait_not_lost (h : k.wait s = .error f) (hl : k.Located loc)
    (ht : t ∈ k.queueThreads.items) (hlive : k.isFinished t = false) : ¬f.Lost := by
  rcases bind_error h with ha | ⟨r, ha, h⟩
  · exact addVal_not_lost ha
  dsimp only at h
  split_ifs at h
  · cases h
  rcases bind_error h with hadd | ⟨k₁, hadd, hd⟩
  · rcases addBlocked_error hadd with hn | hn
    · exact hn.not_lost
    · exact hn.not_lost
  · rw [addVal_running ha] at hadd hd
    obtain ⟨k', hk'⟩ := (block_parks ha hadd hl).dispatch_total hl ht hlive
    rw [hk'] at hd
    cases hd

theorem timedWait_not_lost {n : UInt64} (h : k.timedWait s n = .error f) (hl : k.Located loc)
    (ht : t ∈ k.queueThreads.items) (hlive : k.isFinished t = false) : ¬f.Lost := by
  rcases bind_error h with ha | ⟨r, ha, h⟩
  · exact addVal_not_lost ha
  dsimp only at h
  split_ifs at h
  · cases h
  have hrun := addVal_running ha
  rcases bind_error h with hadd | ⟨k₁, hadd, h⟩
  · rcases addBlocked_error hadd with hn | hn
    · exact hn.not_lost
    · exact hn.not_lost
  rcases bind_error h with hi | ⟨k₂, hi, h⟩
  · exact (insertAsleep_error hi).not_lost
  rcases bind_error h with hn | ⟨k₃, hn, hd⟩
  · exact (incTimedWaiting_error hn).not_lost
  rw [hrun] at hadd hi hd
  obtain ⟨k', hk'⟩ := (timing_parks ha hadd hi hn hl).2.dispatch_total hl ht hlive
  rw [hk'] at hd
  cases hd

theorem putThreadToSleep_not_lost {n : UInt64} (h : k.putThreadToSleep n = .error f)
    (hl : k.Located loc) (ht : t ∈ k.queueThreads.items) (hlive : k.isFinished t = false) :
    ¬f.Lost := by
  unfold putThreadToSleep at h
  dsimp only at h
  split_ifs at h
  · rcases bind_error h with hi | ⟨k₁, hi, hd⟩
    · exact (insertAsleep_error hi).not_lost
    · obtain ⟨k', hk'⟩ := (dozing_parks hi hl).2.dispatch_total hl ht hlive
      rw [hk'] at hd
      cases hd
  · cases h

theorem setFinished_dispatch_total (c : Context) (hth : k.threads k.running ≠ none)
    (hne : t ≠ k.running) (ht : t ∈ k.queueThreads.items) (hlive : k.isFinished t = false) :
    ∃ k', (k.setFinished k.running).dispatch c = .ok k' := by
  obtain ⟨th, hth⟩ := Option.ne_none_iff_exists'.1 hth
  have hfin : (k.setFinished k.running).threads k.running =
      some { th with threadState := .finished } := by
    simp [setFinished, hth]
  refine finished_dispatch_total c hfin rfl ⟨t, ht, hne, ?_⟩
  rw [← hlive]
  simp [Kernel.isFinished, setFinished, hne]

theorem decNumOfChildren_isFinished (k : Kernel) (p t : Tid) :
    (k.decNumOfChildren p).isFinished t = k.isFinished t := by
  unfold decNumOfChildren
  split_ifs
  · by_cases ht : t = p
    · subst ht
      cases hth : k.threads t <;> simp [Kernel.isFinished, hth]
    · simp [Kernel.isFinished, ht]
  · rfl

theorem exit_not_lost (h : k.exit = .error f) (hl : k.Located loc)
    (ht : t ∈ k.queueThreads.items) (hlive : k.isFinished t = false) : ¬f.Lost := by
  have hne : t ≠ k.running := by
    rintro rfl
    have := hl.placed.mem_ready ht
    simp [hl.running_cpu] at this
  obtain ⟨th, hth, -⟩ := cpu_state hl.placed hl.running_cpu
  rcases bind_error h with he | ⟨th', -, hd⟩
  · simp [thread, hth] at he
  cases hp : th'.parentThread with
  | none =>
    obtain ⟨k', hk'⟩ := setFinished_dispatch_total .toUser (by simp [hth]) hne ht hlive
    simp only [hp, hk'] at hd
    cases hd
  | some p =>
    have hs := decNumOfChildren_stays k p
    have hrec : (k.decNumOfChildren p).threads (k.decNumOfChildren p).running ≠ none := by
      rw [hs.running, ← Option.isSome_iff_ne_none, hs.isSome, hth]
      rfl
    obtain ⟨k', hk'⟩ := setFinished_dispatch_total .toUser hrec (hs.running ▸ hne)
      (decNumOfChildren_queue k p ▸ ht) ((decNumOfChildren_isFinished k p t).trans hlive)
    simp only [hp, hk'] at hd
    cases hd

/-- No step of a thread fails for want of a thread to run, as long as it keeps
ready itself or another live thread is ready. -/
theorem step_not_lost (h : k.step e = .error f) (hi : k.Inv) (hs : k.Stored start total)
    (hr : k.Ranged)
    (hlive : stops e = false ∨ ∃ t ∈ k.queueThreads.items, k.isFinished t = false) : ¬f.Lost := by
  obtain ⟨loc, hl⟩ := hi.located
  cases e with
  | memAlloc n => cases h
  | memFree p =>
    have h := map_error h
    unfold memFree at h
    split_ifs at h
    cases h
    exact id
  | threadCreate body stack => rcases newThread_error h with rfl | rfl | rfl <;> exact id
  | threadExit =>
    obtain ⟨t, ht, hfin⟩ := hlive.resolve_left (by simp [stops])
    exact exit_not_lost h hl ht hfin
  | threadDispatch =>
    obtain ⟨th, hth, hrun⟩ := hl.runnable
    rw [(dispatch_fault h hth hrun hs).1]
    exact id
  | semOpen n => rcases newSem_error h with rfl | rfl <;> exact id
  | semClose o =>
    obtain ⟨s, -, h⟩ := withHandle_error h
    exact deleteSem_not_lost h hl hs
  | semWait o =>
    obtain ⟨s, -, h⟩ := withHandle_error h
    obtain ⟨t, ht, hfin⟩ := hlive.resolve_left (by simp [stops])
    exact wait_not_lost h hl ht hfin
  | semSignal o =>
    obtain ⟨s, -, h⟩ := withHandle_error h
    exact signal_not_lost (map_error h) hl hs
  | semTimedwait o m =>
    obtain ⟨s, -, h⟩ := withHandle_error h
    obtain ⟨t, ht, hfin⟩ := hlive.resolve_left (by simp [stops])
    exact timedWait_not_lost h hl ht hfin
  | semTrywait o =>
    obtain ⟨s, -, h⟩ := withHandle_error h
    exact tryWait_not_lost (map_error h)
  | timeSleep n =>
    obtain ⟨t, ht, hfin⟩ := hlive.resolve_left (by simp [stops])
    exact putThreadToSleep_not_lost h hl ht hfin
  | tick =>
    rw [(tick_fault h hi hl hs hr).1]
    exact id
  | subtleKill t => cases h

/-! Runs. -/

theorem boot_up (h : boot start total = some k) :
    k.Orphan mainThread ∧ k.Up mainThread := by
  have hi := boot_inv h
  have hrun : k.running = mainThread := by
    obtain ⟨stack, hp, p, hp', -, -, rfl⟩ := boot_ok h
    rfl
  refine ⟨?_, hrun ▸ hi.running_alive, Or.inl hrun⟩
  rintro p ⟨th, hth, -, hpar⟩
  rw [(boot_single h hth).2.1] at hpar
  cases hpar

theorem run_up {es : List Event} (h₀ : boot start total = some k₀)
    (h : Run step MainKeepsReady k₀ es k) : k.Orphan mainThread ∧ k.Up mainThread := by
  obtain ⟨-, h⟩ := h.invariant (fun k => k.Inv ∧ k.Orphan mainThread ∧ k.Up mainThread)
    ⟨boot_inv h₀, boot_up h₀⟩ fun k e k' ⟨hi, ho, hu⟩ he hs =>
      ⟨step_inv hs hi, step_orphan hs hi hi.main ho, step_up hs hi ho hu he⟩
  exact h

/-- As long as `main` only makes calls that leave it ready, it runs or is ready in
every state, whatever the other threads do: no step ends in a `dispatch` without
a thread to run, and after each step the running thread is a live one. -/
theorem main_up {es : List Event} (h₀ : boot start total = some k₀)
    (h : Run step MainKeepsReady k₀ es k) :
    k.Up mainThread ∧ ∀ e, MainKeepsReady k e →
      (∀ f, k.step e = .error f → ¬f.Lost) ∧ ∀ k', k.step e = .ok k' → k'.Alive k'.running := by
  have hup := (run_up h₀ h).2
  obtain ⟨hi, hs⟩ := run_stored h₀ h
  refine ⟨hup, fun e he => ⟨?_, fun k' hk' => (step_inv hk' hi).running_alive⟩⟩
  intro f hf
  apply step_not_lost hf hi hs (run_ranged h₀ h)
  by_cases hrun : k.running = mainThread
  · exact Or.inl (he hrun)
  · exact Or.inr ⟨mainThread, hup.place.resolve_left hrun, hup.alive.isFinished⟩

/-- The thread `main` created takes the only unit of a semaphore and waits for
another one while `main` is ready. -/
theorem main_up_two : ∃ k₀ k, boot 1024 1000 = some k₀ ∧
    Run step MainKeepsReady k₀ [.memAlloc 65, .threadCreate 4096 5328, .semOpen 1, .threadDispatch,
      .tick, .semWait (some 0)] k ∧
      k.running = 2 ∧ k.Up mainThread ∧
      ∀ f, k.step (.semWait (some 0)) = .error f → ¬f.Lost := by
  have hrun : ((boot 1024 1000).bind fun k₀ => exec step MainKeepsReady k₀ [.memAlloc 65,
      .threadCreate 4096 5328, .semOpen 1, .threadDispatch, .tick, .semWait (some 0)]).any
        (fun k => k.running = 2) = true := by decide +kernel
  obtain ⟨k₀, k, hb, h, hq⟩ := exists_run hrun
  have hq := of_decide_eq_true hq
  obtain ⟨hup, hsteps⟩ := main_up hb h
  refine ⟨k₀, k, hb, h, hq, hup, (hsteps _ ?_).1⟩
  intro hmain
  rw [hq] at hmain
  cases hmain

end Kernel
end OSK
