import RiscVKernel.Kernel.Lifetime
import RiscVKernel.Kernel.Faults

/-! Pointers that outlive what they point to. A semaphore is not touched after
its deletion as long as nobody has yet to come back from a `timedBlock` on it
when it is closed; a parent is there for its children as long as threads do not
exit before them. Otherwise the kernel writes memory that may belong to user
code by then. -/

namespace OSK

open Lib

namespace Kernel

variable {k k' k₀ : Kernel} {p t : Tid} {s : SemId} {e : Event}

/-- The address `a` is in a block that user code holds. -/
def InUser (k : Kernel) (a : ℕ) : Prop :=
  ∃ b ∈ k.heap.taken, payload b ∈ k.user ∧ payload b ≤ a ∧ a < b.addr + b.size * memBlockSize

instance (k : Kernel) (a : ℕ) : Decidable (k.InUser a) :=
  inferInstanceAs (Decidable (∃ b ∈ k.heap.taken,
    payload b ∈ k.user ∧ payload b ≤ a ∧ a < b.addr + b.size * memBlockSize))

theorem Inv.running_alive (hi : k.Inv) : k.Alive k.running := by
  obtain ⟨loc, hl⟩ := hi.located
  obtain ⟨th, hth, -, hst⟩ := cpu_state hl.placed hl.running_cpu
  exact alive_iff.2 ⟨th, hth, by rcases hst with h | h <;> simp [h]⟩

/-! Semaphores. -/

/-- The semaphore an event deletes. -/
def closed : Event → Option SemId
  | .semClose s => s
  | _ => none

/-- A semaphore is only closed while no unfinished thread other than the caller
has yet to come back from a `timedBlock` on it. -/
def ClosesUnawaited (k : Kernel) (e : Event) : Prop :=
  ∀ s ∈ closed e, ∀ t ≤ k.ID, t ≠ k.running → ¬k.Resumes t (.timedBlock s)

instance (k : Kernel) (e : Event) : Decidable (ClosesUnawaited k e) :=
  inferInstanceAs (Decidable (∀ s ∈ closed e, ∀ t ≤ k.ID, t ≠ k.running →
    ¬k.Resumes t (.timedBlock s)))

/-- Threads come back from `timedBlock` to open semaphores. -/
def AwaitsOpen (k : Kernel) : Prop :=
  ∀ t s, t ≠ k.running → k.Resumes t (.timedBlock s) → k.sems s ≠ none

/-- No field of a deleted semaphore was written. -/
def SemsSpared (k : Kernel) : Prop := ∀ s a, Note.freedWrite (.sem s) a ∉ k.trace

theorem step_awaitsOpen (h : k.step e = .ok k') (hi : k.Inv) (hc : ClosesUnawaited k e)
    (ha : k.AwaitsOpen) : k'.AwaitsOpen := by
  have hp := step_passes h hi
  intro t s ht hr
  rcases hp.resumes t s ht hr with ⟨hne, hr⟩ | hopen
  · apply hp.opens s (ha t s hne hr)
    rintro rfl
    obtain ⟨th, hth, -⟩ := id hr
    exact hc s rfl t (hi.named hth) hne hr
  · exact hopen

theorem step_semsSpared (h : k.step e = .ok k') (hi : k.Inv) (ha : k.AwaitsOpen)
    (hs : k.SemsSpared) : k'.SemsSpared := by
  intro s a hmem
  refine hs s a ((step_passes h hi).strays _ a ?_ hmem)
  rintro ⟨hn, t, ht, hr⟩
  exact ha t s ht hr hn

/-- A step reads the field of a deleted semaphore only if it was given its handle. -/
theorem step_deadHandle (h : k.step e = .error .deadHandle) (hi : k.Inv) :
    ∃ s, handle e = some s ∧ k.sems s = none := by
  rcases step_error h hi with ho | hf | ⟨s, hs, ⟨-, hn⟩ | ⟨hf, -⟩⟩
  · exact ho.elim
  · cases hf
  · exact ⟨s, hs, hn⟩
  · cases hf

theorem boot_single {start total : ℕ} (h : boot start total = some k) {th : Thread}
    (ht : k.threads t = some th) : t = k.running ∧ th.parentThread = none ∧ k.trace = [] := by
  have hmain : t = mainThread := by
    by_contra hne
    rw [boot_threads h hne] at ht
    cases ht
  obtain ⟨stack, hp, q, hp', -, -, rfl⟩ := boot_ok h
  subst hmain
  simp only [bootState, Function.update_self, Option.some.injEq] at ht
  subst ht
  exact ⟨rfl, rfl, rfl⟩

theorem boot_trace {start total : ℕ} (h : boot start total = some k) : k.trace = [] := by
  obtain ⟨stack, hp, q, hp', -, -, rfl⟩ := boot_ok h
  rfl

/-- In a run that closes semaphores only when nobody has to come back to them
from `timedBlock`, no field of a deleted semaphore is written, and none is read
but through a handle user code kept. -/
theorem closed_spared {start total : ℕ} {es : List Event} (h₀ : boot start total = some k₀)
    (h : Run step ClosesUnawaited k₀ es k) :
    k.SemsSpared ∧ ∀ e, k.step e = .error .deadHandle →
      ∃ s, handle e = some s ∧ k.sems s = none := by
  have hend : k.Inv ∧ k.AwaitsOpen ∧ k.SemsSpared := by
    refine h.invariant (fun k => k.Inv ∧ k.AwaitsOpen ∧ k.SemsSpared) ⟨boot_inv h₀, ?_, ?_⟩ ?_
    · rintro t s ht ⟨th, hth, -⟩
      exact absurd (boot_single h₀ hth).1 ht
    · intro s a hmem
      simp [boot_trace h₀] at hmem
    · rintro k e k' ⟨hi, ha, hs⟩ hc hstep
      exact ⟨step_inv hstep hi, step_awaitsOpen hstep hi hc ha, step_semsSpared hstep hi ha hs⟩
  exact ⟨hend.2.2, fun e he => step_deadHandle he hend.1⟩

/-- `main` waits with a timeout, a second thread signals, lets `main` come back
and then closes the semaphore. -/
theorem closed_spared_two : ∃ k₀ k, boot 1024 1000 = some k₀ ∧
    Run step ClosesUnawaited k₀ [.memAlloc 65, .threadCreate 4096 5328, .semOpen 0,
      .semTimedwait (some 0) 5, .semSignal (some 0), .threadDispatch, .threadDispatch,
      .semClose (some 0), .tick] k ∧
      k.SemsSpared ∧ ∀ e, k.step e = .error .deadHandle →
        ∃ s, handle e = some s ∧ k.sems s = none := by
  have hrun : ((boot 1024 1000).bind fun k => exec step ClosesUnawaited k [.memAlloc 65,
      .threadCreate 4096 5328, .semOpen 0, .semTimedwait (some 0) 5, .semSignal (some 0),
      .threadDispatch, .threadDispatch, .semClose (some 0), .tick]).any (fun _ => true) = true := by
    decide +kernel
  obtain ⟨k₀, k, h₀, h, -⟩ := exists_run hrun
  exact ⟨k₀, k, h₀, h, closed_spared h₀ h⟩

/-- The second thread closes the semaphore `main` waits on and allocates a block,
which gets the memory of the semaphore. When `main` comes back from `timedBlock`
it writes into that block. -/
theorem closed_spared_fails : ∃ k₀ k a, boot 1024 1000 = some k₀ ∧
    Run step (fun _ _ => True) k₀ [.memAlloc 65, .threadCreate 4096 5328, .semOpen 0,
      .semTimedwait (some 0) 5, .semClose (some 0), .memAlloc 1, .threadDispatch] k ∧
      Note.freedWrite (.sem 0) a ∈ k.trace ∧ k.InUser a ∧ ¬k.SemsSpared := by
  have hrun : ((boot 1024 1000).bind fun k => exec step (fun _ _ => True) k [.memAlloc 65,
      .threadCreate 4096 5328, .semOpen 0, .semTimedwait (some 0) 5, .semClose (some 0),
      .memAlloc 1, .threadDispatch]).any (fun k =>
        Note.freedWrite (.sem 0) 9704 ∈ k.trace ∧ k.InUser 9704) = true := by decide +kernel
  obtain ⟨k₀, k, h₀, h, hk⟩ := exists_run hrun
  obtain ⟨hmem, hu⟩ := of_decide_eq_true hk
  exact ⟨k₀, k, 9704, h₀, h, hmem, hu, fun hs => hs 0 9704 hmem⟩

/-! Parents. -/

/-- Threads exit, or are killed, only when they have no unfinished child. -/
def OutlivesChildren (k : Kernel) (e : Event) : Prop :=
  ∀ p ∈ k.ended e, ∀ t ≤ k.ID, ¬k.Child p t

instance (k : Kernel) (e : Event) : Decidable (OutlivesChildren k e) :=
  inferInstanceAs (Decidable (∀ p ∈ k.ended e, ∀ t ≤ k.ID, ¬k.Child p t))

/-- The parent of every live thread is null or a live thread. -/
def ParentsLive (k : Kernel) : Prop := ∀ p t, k.Child p t → k.Alive p

/-- Parents were created before their children. -/
def ParentsFirst (k : Kernel) : Prop := ∀ p t, k.Child p t → p < t

/-- No field of a deleted parent was written. -/
def ParentsSpared (k : Kernel) : Prop := ∀ p a, Note.freedWrite (.parent p) a ∉ k.trace

/-- A child was a child before, or was just created by the running thread. -/
theorem step_child (h : k.step e = .ok k') (hi : k.Inv) (hc : k'.Child p t) :
    k.Child p t ∨ (∃ body stack, e = .threadCreate body stack) ∧ p = k.running ∧ t = k.ID + 1 := by
  obtain ⟨th', ht', hst', hp'⟩ := hc
  have horigin : (∃ th, k.threads t = some th ∧ th'.parentThread = th.parentThread) ∨
      (∃ body stack, e = .threadCreate body stack) ∧ t = k.ID + 1 ∧
        th'.parentThread = some k.running := by
    by_cases hcreate : ∃ body stack, e = .threadCreate body stack
    · obtain ⟨body, stack, rfl⟩ := hcreate
      rcases (newThread_origin h).1 t th' ht' with ⟨ht, rfl⟩ | ⟨th, hth, ho⟩
      · exact Or.inr ⟨⟨body, stack, rfl⟩, ht, rfl⟩
      · exact Or.inl ⟨th, hth, congrArg (·.2.2.2) ho⟩
    by_cases hopen : ∃ n, e = .semOpen n
    · obtain ⟨n, rfl⟩ := hopen
      obtain ⟨q, hp, node, hp', -, -, rfl⟩ := newSem_ok h
      exact Or.inl ⟨th', ht', rfl⟩
    · obtain ⟨th, hth, ho⟩ := (step_origin h (fun b st he => hcreate ⟨b, st, he⟩)
        fun n he => hopen ⟨n, he⟩).1 t th' ht'
      exact Or.inl ⟨th, hth, congrArg (·.2.2.2) ho⟩
  rcases horigin with ⟨th, hth, hpar⟩ | ⟨hcreate, ht, hpar⟩
  · rcases (step_passes h hi).alive t (alive_iff.2 ⟨th', ht', hst'⟩) with ha | ⟨-, rfl⟩
    · obtain ⟨th₀, hth₀, hf⟩ := alive_iff.1 ha
      obtain rfl : th = th₀ := Option.some.inj (hth.symm.trans hth₀)
      exact Or.inl ⟨th, hth, hf, hpar.symm.trans hp'⟩
    · rw [hi.freshThread _ (Nat.lt_succ_self _)] at hth
      cases hth
  · rw [hp', Option.some.injEq] at hpar
    exact Or.inr ⟨hcreate, hpar, ht⟩

theorem step_parentsLive (h : k.step e = .ok k') (hi : k.Inv) (ho : OutlivesChildren k e)
    (hl : k.ParentsLive) : k'.ParentsLive := by
  intro p t hc
  rcases step_child h hi hc with hold | ⟨⟨body, stack, rfl⟩, rfl, -⟩
  · apply ((step_passes h hi).survives p (hl p t hold)).resolve_right
    intro he
    obtain ⟨th, hth, -⟩ := id hold
    exact ho p he t (hi.named hth) hold
  · apply ((step_passes h hi).survives _ hi.running_alive).resolve_right
    intro he
    cases he

theorem step_parentsFirst (h : k.step e = .ok k') (hi : k.Inv) (hf : k.ParentsFirst) :
    k'.ParentsFirst := by
  intro p t hc
  rcases step_child h hi hc with hold | ⟨-, rfl, rfl⟩
  · exact hf p t hold
  · obtain ⟨th, hth, -⟩ := alive_iff.1 hi.running_alive
    exact Nat.lt_succ_of_le (hi.named hth)

theorem step_parentsSpared (h : k.step e = .ok k') (hi : k.Inv) (hl : k.ParentsLive)
    (hs : k.ParentsSpared) : k'.ParentsSpared := by
  intro p a hmem
  refine hs p a ((step_passes h hi).strays _ a ?_ hmem)
  rintro ⟨hn, hc⟩
  obtain ⟨th, hth, -⟩ := alive_iff.1 (hl p _ hc)
  rw [hn] at hth
  cases hth

/-- The record of a thread that exits is gone. -/
theorem exit_gone (h : k.exit = .ok k') : k'.threads k.running = none := by
  obtain ⟨th, k₁, hth, hk₁, hd⟩ := exit_ok h
  have hrun : k₁.running = k.running := by
    rcases hk₁ with ⟨rfl, -⟩ | ⟨q, -, rfl⟩
    · rfl
    · exact (decNumOfChildren_stays k q).running
  obtain ⟨k₂, hlv, ha⟩ := dispatch_ok hd
  apply (arrive_keeps ha).gone
  obtain ⟨th', hth', hcase⟩ := leave_ok hlv
  have hf : th'.threadState = .finished := by
    simp only [setFinished, modifyThread_threads, modifyThread_running, hrun,
      Function.update_self, Option.map_eq_some_iff] at hth'
    obtain ⟨th₀, -, rfl⟩ := hth'
    rfl
  rcases hcase with ⟨hst, -⟩ | ⟨hst, -⟩ | ⟨-, hdel⟩
  · simp [hf] at hst
  · simp [hf] at hst
  · obtain ⟨_, -, rfl⟩ := deleteThread_ok hdel
    simp [hrun]

/-- A thread that exits before its child leaves it with a parent that is gone. -/
theorem exit_orphans (h : k.step .threadExit = .ok k') (hi : k.Inv) (hf : k.ParentsFirst)
    (hc : k.Child k.running t) : ¬k'.ParentsLive := by
  intro hl
  obtain ⟨th, hth, hst, hpar⟩ := id hc
  have hlt := hf _ t hc
  have hne : k.ended .threadExit ≠ some t := fun he => hlt.ne (Option.some.inj he)
  obtain ⟨th', hth', hst'⟩ := alive_iff.1
    (((step_passes h hi).survives t (alive_iff.2 ⟨th, hth, hst⟩)).resolve_right hne)
  obtain ⟨th₀, hth₀, ho⟩ := (exit_keeps h).thread t th' hth'
  obtain rfl : th = th₀ := Option.some.inj (hth.symm.trans hth₀)
  have hc' : k'.Child k.running t := ⟨th', hth', hst', (congrArg (·.2.2.2) ho).trans hpar⟩
  obtain ⟨th₁, hth₁, -⟩ := alive_iff.1 (hl _ t hc')
  rw [exit_gone h] at hth₁
  cases hth₁

/-- In a run in which threads end only without children, the parent of every
live thread is null or live and no deleted parent is written; the first thread
that exits before its child ends this. -/
theorem parents_live {start total : ℕ} {es : List Event} (h₀ : boot start total = some k₀)
    (h : Run step OutlivesChildren k₀ es k) :
    k.ParentsLive ∧ k.ParentsSpared ∧
      ∀ t k', k.Child k.running t → k.step .threadExit = .ok k' → ¬k'.ParentsLive := by
  have hend : k.Inv ∧ k.ParentsLive ∧ k.ParentsFirst ∧ k.ParentsSpared := by
    refine h.invariant (fun k => k.Inv ∧ k.ParentsLive ∧ k.ParentsFirst ∧ k.ParentsSpared)
      ⟨boot_inv h₀, ?_, ?_, ?_⟩ ?_
    · rintro p t ⟨th, hth, -, hp⟩
      simp [(boot_single h₀ hth).2.1] at hp
    · rintro p t ⟨th, hth, -, hp⟩
      simp [(boot_single h₀ hth).2.1] at hp
    · intro p a hmem
      simp [boot_trace h₀] at hmem
    · rintro k e k' ⟨hi, hl, hf, hs⟩ ho hstep
      exact ⟨step_inv hstep hi, step_parentsLive hstep hi ho hl, step_parentsFirst hstep hi hf,
        step_parentsSpared hstep hi hl hs⟩
  obtain ⟨hi, hl, hf, hs⟩ := hend
  exact ⟨hl, hs, fun t k' hc hstep => exit_orphans hstep hi hf hc⟩

/-- `main` creates a thread, which exits before it. -/
theorem parents_live_two : ∃ k₀ k, boot 1024 1000 = some k₀ ∧
    Run step OutlivesChildren k₀ [.memAlloc 65, .threadCreate 4096 5328, .threadDispatch,
      .threadExit, .memAlloc 3] k ∧
      k.ParentsLive ∧ k.ParentsSpared ∧
      ∀ t k', k.Child k.running t → k.step .threadExit = .ok k' → ¬k'.ParentsLive := by
  have hrun : ((boot 1024 1000).bind fun k => exec step OutlivesChildren k [.memAlloc 65,
      .threadCreate 4096 5328, .threadDispatch, .threadExit, .memAlloc 3]).any
        (fun _ => true) = true := by decide +kernel
  obtain ⟨k₀, k, h₀, h, -⟩ := exists_run hrun
  exact ⟨k₀, k, h₀, h, parents_live h₀ h⟩

/-- `main` creates two threads and exits. The first of them gets the memory of
`main` for a block and exits, which writes into that block. -/
theorem parents_live_fails : ∃ k₀ k a, boot 1024 1000 = some k₀ ∧
    Run step (fun _ _ => True) k₀ [.memAlloc 65, .threadCreate 4096 5328, .memAlloc 65,
      .threadCreate 4096 9680, .threadExit, .memAlloc 67, .threadExit] k ∧
      ¬k.ParentsLive ∧ Note.freedWrite (.parent mainThread) a ∈ k.trace ∧ k.InUser a := by
  have hrun : ((boot 1024 1000).bind fun k => exec step (fun _ _ => True) k [.memAlloc 65,
      .threadCreate 4096 5328, .memAlloc 65, .threadCreate 4096 9680, .threadExit, .memAlloc 67,
      .threadExit]).any (fun k => k.Child mainThread 3 ∧ k.threads mainThread = none ∧
        Note.freedWrite (.parent mainThread) 5280 ∈ k.trace ∧ k.InUser 5280) = true := by decide +kernel
  obtain ⟨k₀, k, h₀, h, hk⟩ := exists_run hrun
  obtain ⟨hc, hn, hmem, hu⟩ := of_decide_eq_true hk
  refine ⟨k₀, k, 5280, h₀, h, ?_, hmem, hu⟩
  intro hl
  obtain ⟨th, hth, -⟩ := alive_iff.1 (hl _ 3 hc)
  rw [hn] at hth
  cases hth

end Kernel
end OSK
