import RiscVKernel.Kernel.Steps

/-! No thread is lost or queued twice: the running thread is in no list, and
every other live thread waits at one station. -/

namespace OSK

open Lib

/-- Where a thread that is not running waits. -/
inductive Station
  | ready
  | waiting (s : SemId)
  | timedWaiting (s : SemId)
  | sleeping
  deriving DecidableEq

namespace Kernel

variable {k k' : Kernel} {t : Tid} {s : SemId} {loc : Tid → Place} {th : Thread}

/-- How often `t` stands in the ready queue, in the sleep list and in the queue
of each semaphore. -/
def InLists (k : Kernel) (t : Tid) (ready asleep : ℕ) (queue : SemId → ℕ) : Prop :=
  k.queueThreads.items.count t = ready ∧ k.listAsleepThreads.items.count t = asleep ∧
    ∀ s, k.queued s t = queue s

/-- Once in the queue of `s`, and in no other. -/
def onlyQueue (s : SemId) : SemId → ℕ := fun s' => if s' = s then 1 else 0

def noQueue : SemId → ℕ := fun _ => 0

/-- The thread `t` with the record `th` waits at a station: once in each list
that belongs to it, in no other list, with the fields that go with it. -/
def WaitsAt (k : Kernel) (t : Tid) (th : Thread) : Station → Prop
  | .ready => k.InLists t 1 0 noQueue
  | .waiting s => k.InLists t 0 0 (onlyQueue s) ∧ (k.sems s).isSome ∧
      th.semStatus = .waiting ∧ th.mySem = some s
  | .timedWaiting s => k.InLists t 0 1 (onlyQueue s) ∧ (k.sems s).isSome ∧
      th.semStatus = .timedWaiting ∧ th.mySem = some s
  | .sleeping => k.InLists t 0 1 noQueue ∧
      th.semStatus ≠ .waiting ∧ th.semStatus ≠ .timedWaiting

theorem onlyQueue_inj {s s' : SemId} (h : ∀ s₀, onlyQueue s s₀ = onlyQueue s' s₀) : s = s' := by
  by_contra hne
  simpa [onlyQueue, hne] using h s

theorem onlyQueue_ne (h : ∀ s₀, onlyQueue s s₀ = noQueue s₀) : False := by
  simpa [onlyQueue, noQueue] using h s

/-- No thread waits at two stations. -/
theorem WaitsAt.unique {st st' : Station} (h : k.WaitsAt t th st) (h' : k.WaitsAt t th st') :
    st = st' := by
  have hlists : ∀ {st}, k.WaitsAt t th st → ∃ r a q, k.InLists t r a q ∧
      (st = .ready ∧ r = 1 ∨ (∃ s, st = .waiting s ∧ r = 0 ∧ a = 0 ∧ q = onlyQueue s) ∨
        (∃ s, st = .timedWaiting s ∧ r = 0 ∧ a = 1 ∧ q = onlyQueue s) ∨
        st = .sleeping ∧ r = 0 ∧ a = 1 ∧ q = noQueue) := by
    intro st h
    cases st with
    | ready => exact ⟨_, _, _, h, Or.inl ⟨rfl, rfl⟩⟩
    | waiting s => exact ⟨_, _, _, h.1, Or.inr (Or.inl ⟨s, rfl, rfl, rfl, rfl⟩)⟩
    | timedWaiting s => exact ⟨_, _, _, h.1, Or.inr (Or.inr (Or.inl ⟨s, rfl, rfl, rfl, rfl⟩))⟩
    | sleeping => exact ⟨_, _, _, h.1, Or.inr (Or.inr (Or.inr ⟨rfl, rfl, rfl, rfl⟩))⟩
  obtain ⟨r, a, q, ⟨hr, ha, hq⟩, hst⟩ := hlists h
  obtain ⟨r', a', q', ⟨hr', ha', hq'⟩, hst'⟩ := hlists h'
  obtain rfl : r = r' := hr.symm.trans hr'
  obtain rfl : a = a' := ha.symm.trans ha'
  have hqq : ∀ s, q s = q' s := fun s => (hq s).symm.trans (hq' s)
  rcases hst with ⟨rfl, h1⟩ | ⟨s, rfl, h1, h2, rfl⟩ | ⟨s, rfl, h1, h2, rfl⟩ | ⟨rfl, h1, h2, rfl⟩ <;>
    rcases hst' with ⟨rfl, h3⟩ | ⟨s', rfl, h3, h4, rfl⟩ | ⟨s', rfl, h3, h4, rfl⟩ |
      ⟨rfl, h3, h4, rfl⟩ <;>
    first
      | rfl
      | exact congrArg _ (onlyQueue_inj hqq)
      | exact (onlyQueue_ne hqq).elim
      | exact (onlyQueue_ne fun s => (hqq s).symm).elim
      | omega

theorem Placed.inLists {pend : Tid → Option Context} (hp : k.Placed pend loc) :
    k.InLists t (loc t).inReady (loc t).inAsleep (loc t).inQueue :=
  ⟨hp.ready_count, hp.asleep_count, fun _ => hp.queued⟩

/-- A thread that is not running waits at a station. -/
theorem Located.waitsAt (hl : k.Located loc) (ht : k.threads t = some th) (hne : t ≠ k.running)
    (hb : t ≠ mainThread → th.body ≠ 0) :
    ∃ st, k.WaitsAt t th st := by
  have hin := hl.placed.inLists (t := t)
  have hfit := hl.placed.fits ht
  have hopen : ∀ s, loc t = .blocked s ∨ loc t = .timed s → (k.sems s).isSome := fun s hs => by
    obtain ⟨m, hm, -⟩ := hl.placed.open_queue hs
    simp [hm]
  cases hloc : loc t with
  | cpu => exact absurd ((hl.cpu t).1 hloc) hne
  | ready =>
    rw [hloc] at hin
    exact ⟨.ready, hin⟩
  | blocked s =>
    rw [hloc] at hin hfit
    exact ⟨.waiting s, hin, hopen s (Or.inl hloc), hfit.1, hfit.2.1⟩
  | timed s =>
    rw [hloc] at hin hfit
    exact ⟨.timedWaiting s, hin, hopen s (Or.inr hloc), hfit.1, hfit.2.1⟩
  | asleep =>
    rw [hloc] at hin hfit
    exact ⟨.sleeping, hin, by simp [hfit.1], by simp [hfit.1]⟩
  | limbo =>
    rw [hloc] at hfit
    exact absurd hfit (hb (hl.limbo t hloc))
  | gone =>
    rw [hloc] at hfit
    exact hfit.elim

/-- Every thread but that of `main` has something to run. -/
def Bodied (k : Kernel) : Prop :=
  ∀ t th, k.threads t = some th → t ≠ mainThread → th.body ≠ 0

/-- The body of the thread an event creates. -/
def newBody : Event → Option UInt64
  | .threadCreate body _ => some body
  | _ => none

/-- Threads are only created with a body. -/
def CreatesBodied (_ : Kernel) (e : Event) : Prop := newBody e ≠ some 0

instance (k : Kernel) (e : Event) : Decidable (CreatesBodied k e) :=
  inferInstanceAs (Decidable (newBody e ≠ some 0))

theorem step_bodied {e : Event} (h : k.step e = .ok k') (he : CreatesBodied k e) (hb : k.Bodied) :
    k'.Bodied := by
  intro t th' ht hne
  have hold : (∃ th, k.threads t = some th ∧ th'.origin = th.origin) → th'.body ≠ 0 := by
    rintro ⟨th, hth, ho⟩
    rw [show th'.body = th.body from congrArg Prod.fst ho]
    exact hb t th hth hne
  by_cases hcreate : ∃ body stack, e = .threadCreate body stack
  · obtain ⟨body, stack, rfl⟩ := hcreate
    rcases (newThread_origin h).1 t th' ht with ⟨-, rfl⟩ | hth
    · rintro rfl
      exact he rfl
    · exact hold hth
  by_cases hopen : ∃ n, e = .semOpen n
  · obtain ⟨n, rfl⟩ := hopen
    obtain ⟨p, hp, node, hp', -, -, rfl⟩ := newSem_ok h
    exact hold ⟨th', ht, rfl⟩
  · exact hold ((step_origin h (fun b st he => hcreate ⟨b, st, he⟩) fun n he => hopen ⟨n, he⟩).1 t
      th' ht)

/-- In every state reached from boot the running thread is in no list, and every
other live thread waits at exactly one station. This goes for the killed ones
too, which stay where they were until they are deleted. -/
theorem thread_stations {start total : ℕ} {k₀ k : Kernel} {es : List Event}
    (h₀ : boot start total = some k₀) (h : Run step CreatesBodied k₀ es k) :
    (k.threads k.running).isSome ∧ k.InLists k.running 0 0 noQueue ∧
      ∀ t th, k.threads t = some th → t ≠ k.running → ∃! st, k.WaitsAt t th st := by
  obtain ⟨loc, hl⟩ := (run_inv h (boot_inv h₀)).located
  have hb : k.Bodied := by
    refine h.invariant Bodied ?_ fun _ _ _ hb he hs => step_bodied hs he hb
    intro t th ht hne
    rw [boot_threads h₀ hne] at ht
    cases ht
  have hcpu := hl.running_cpu
  refine ⟨?_, ?_, ?_⟩
  · obtain ⟨th, hth, -⟩ := cpu_state hl.placed hcpu
    simp [hth]
  · have hin := hl.placed.inLists (t := k.running)
    rwa [hcpu] at hin
  · intro t th ht hne
    obtain ⟨st, hst⟩ := hl.waitsAt ht hne (hb t th ht)
    exact ⟨st, hst, fun _ h => h.unique hst⟩

/-- `main` waits with a timeout and the thread it created waits without one, so
that a third one runs. -/
theorem thread_stations_three : ∃ k₀ k, boot 1024 1000 = some k₀ ∧
    Run step CreatesBodied k₀
      [.memAlloc 65, .threadCreate 4096 5328, .memAlloc 65, .threadCreate 4096 9680, .semOpen 0,
        .semTimedwait (some 0) 5, .semWait (some 0), .tick] k ∧
      (k.threads k.running).isSome ∧ k.InLists k.running 0 0 noQueue ∧
      ∀ t th, k.threads t = some th → t ≠ k.running → ∃! st, k.WaitsAt t th st := by
  have hrun : ((boot 1024 1000).bind fun k => exec step CreatesBodied k [.memAlloc 65,
      .threadCreate 4096 5328, .memAlloc 65, .threadCreate 4096 9680, .semOpen 0,
      .semTimedwait (some 0) 5, .semWait (some 0), .tick]).any (fun _ => true) = true := by rfl
  obtain ⟨k₀, k, h₀, h, -⟩ := exists_run hrun
  exact ⟨k₀, k, h₀, h, thread_stations h₀ h⟩

end Kernel
end OSK
