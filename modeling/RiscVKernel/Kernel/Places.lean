import RiscVKernel.Kernel.Effects

/-! Where a thread is. `Placed k pend loc` says that every thread stands at its
place `loc t`: its record and the number of times it occurs in each list of the
kernel are those of that place. While a call is on its way to `dispatch`, the
context it is about to save stands in `pend`. -/

namespace OSK

open Lib

/-- What the kernel's lists and its table of records say about one thread. -/
structure View where
  thread : Option Thread
  ready : ℕ
  asleep : ℕ
  queue : SemId → ℕ

inductive Place
  | cpu
  | ready
  | blocked (s : SemId)
  | timed (s : SemId)
  | asleep
  | limbo
  | gone
  deriving DecidableEq

namespace Place

def inReady : Place → ℕ
  | ready => 1
  | _ => 0

def inAsleep : Place → ℕ
  | timed _ => 1
  | asleep => 1
  | _ => 0

def inQueue : Place → SemId → ℕ
  | blocked s => fun s' => if s' = s then 1 else 0
  | timed s => fun s' => if s' = s then 1 else 0
  | _ => fun _ => 0

variable {pl : Place} {s : SemId}

theorem eq_ready (h : 0 < pl.inReady) : pl = .ready := by
  cases pl <;> simp_all [inReady]

theorem of_inAsleep (h : 0 < pl.inAsleep) : pl = .asleep ∨ ∃ s, pl = .timed s := by
  cases pl <;> simp_all [inAsleep]

theorem of_inQueue (h : 0 < pl.inQueue s) : pl = .blocked s ∨ pl = .timed s := by
  cases pl with
  | blocked s' =>
    by_cases he : s = s'
    · exact Or.inl (he ▸ rfl)
    · simp [inQueue, he] at h
  | timed s' =>
    by_cases he : s = s'
    · exact Or.inr (he ▸ rfl)
    · simp [inQueue, he] at h
  | _ => simp [inQueue] at h

end Place

/-- The statuses of a thread whose wait was ended by somebody else. -/
def SemStatus.Woken : SemStatus → Prop
  | .regularlyWaited => True
  | .timeout => True
  | .semDeleted => True
  | _ => False

/-- The status a thread may have when it goes on from a context. -/
def Context.Awaits : Context → SemStatus → Prop
  | .block _, st => st.Woken
  | .timedBlock _, st => st.Woken
  | _, st => st = .nonWaiting

/-- The fields of a thread at a place, when `c` is where it will go on. A thread
woken from `time_sleep` stays `SUSPENDED` until it runs. -/
def Thread.Fits (th : Thread) (c : Context) : Place → Prop
  | .cpu => th.semStatus = .nonWaiting ∧ (th.threadState = .running ∨ th.threadState = .ready)
  | .ready => th.threadState = .finished ∨
      (th.threadState = .ready ∨ th.threadState = .suspended ∧ c = .sleep) ∧ c.Awaits th.semStatus
  | .blocked s => th.semStatus = .waiting ∧ th.mySem = some s ∧
      (th.threadState = .suspended ∨ th.threadState = .finished) ∧ c = .block s
  | .timed s => th.semStatus = .timedWaiting ∧ th.mySem = some s ∧
      (th.threadState = .suspended ∨ th.threadState = .finished) ∧ c = .timedBlock s
  | .asleep => th.semStatus = .nonWaiting ∧
      (th.threadState = .suspended ∨ th.threadState = .finished) ∧ c = .sleep
  | .limbo => th.body = 0
  | .gone => False

structure View.At (v : View) (c : Option Context) (pl : Place) : Prop where
  ready : v.ready = pl.inReady
  asleep : v.asleep = pl.inAsleep
  queue : v.queue = pl.inQueue
  fits : match v.thread with
    | none => pl = .gone
    | some th => th.Fits (c.getD th.context) pl

namespace Kernel

/-- How often `t` stands in the queue of `s`. -/
def queued (k : Kernel) (s : SemId) (t : Tid) : ℕ :=
  match k.sems s with
  | none => 0
  | some m => m.queueBlocked.items.count t

def view (k : Kernel) (t : Tid) : View :=
  ⟨k.threads t, k.queueThreads.items.count t, k.listAsleepThreads.items.count t,
    fun s => k.queued s t⟩

def Placed (k : Kernel) (pend : Tid → Option Context) (loc : Tid → Place) : Prop :=
  ∀ t, (k.view t).At (pend t) (loc t)

variable {k k' : Kernel} {t t' : Tid} {s : SemId} {pend : Tid → Option Context} {loc : Tid → Place}
  {pl : Place}

theorem Placed.move (hp : k.Placed pend loc) {pend' : Tid → Option Context}
    (hself : (k'.view t).At (pend' t) pl)
    (hne : ∀ t' ≠ t, k'.view t' = k.view t' ∧ pend' t' = pend t') :
    k'.Placed pend' (Function.update loc t pl) := by
  intro t'
  by_cases h : t' = t
  · subst h
    rwa [Function.update_self]
  · rw [Function.update_of_ne h, (hne t' h).1, (hne t' h).2]
    exact hp t'

theorem Placed.congr (hp : k.Placed pend loc) (hv : ∀ t, k'.view t = k.view t) :
    k'.Placed pend loc := fun t => by rw [hv t]; exact hp t

/-- A thread at a place other than `gone` has a record. -/
theorem Placed.record (hp : k.Placed pend loc) (hne : loc t ≠ .gone) :
    ∃ th, k.threads t = some th ∧ th.Fits ((pend t).getD th.context) (loc t) := by
  have hf := (hp t).fits
  cases ht : k.threads t with
  | none => exact absurd (by simpa [view, ht] using hf) hne
  | some th => exact ⟨th, rfl, by simpa [view, ht] using hf⟩

theorem Placed.fits (hp : k.Placed pend loc) {th : Thread} (ht : k.threads t = some th) :
    th.Fits ((pend t).getD th.context) (loc t) := by
  simpa [view, ht] using (hp t).fits

theorem Placed.ready_count (hp : k.Placed pend loc) :
    k.queueThreads.items.count t = (loc t).inReady := (hp t).ready

theorem Placed.asleep_count (hp : k.Placed pend loc) :
    k.listAsleepThreads.items.count t = (loc t).inAsleep := (hp t).asleep

theorem Placed.queued (hp : k.Placed pend loc) : k.queued s t = (loc t).inQueue s :=
  congrFun (hp t).queue s

theorem Placed.mem_ready (hp : k.Placed pend loc) (h : t ∈ k.queueThreads.items) :
    loc t = .ready :=
  Place.eq_ready (hp.ready_count ▸ List.count_pos_iff.2 h)

theorem Placed.mem_asleep (hp : k.Placed pend loc) (h : t ∈ k.listAsleepThreads.items) :
    loc t = .asleep ∨ ∃ s, loc t = .timed s :=
  Place.of_inAsleep (hp.asleep_count ▸ List.count_pos_iff.2 h)

theorem Placed.mem_queue (hp : k.Placed pend loc) {m : Sem} (hm : k.sems s = some m)
    (h : t ∈ m.queueBlocked.items) : loc t = .blocked s ∨ loc t = .timed s := by
  apply Place.of_inQueue
  rw [← hp.queued]
  simpa [Kernel.queued, hm] using List.count_pos_iff.2 h

/-- A place in the queue of `s` is only there while `s` is open. -/
theorem Placed.open_queue (hp : k.Placed pend loc) (h : loc t = .blocked s ∨ loc t = .timed s) :
    ∃ m, k.sems s = some m ∧ t ∈ m.queueBlocked.items := by
  have hq : k.queued s t = 1 := by
    rw [hp.queued]
    rcases h with h | h <;> simp [h, Place.inQueue]
  unfold Kernel.queued at hq
  cases hm : k.sems s with
  | none => simp [hm] at hq
  | some m =>
    refine ⟨m, rfl, List.count_pos_iff.1 ?_⟩
    simp only [hm] at hq
    omega

/-! How the parts of a state enter the views. -/

@[simp] theorem modifyThread_view_self (f : Thread → Thread) :
    (k.modifyThread t f).view t = { k.view t with thread := (k.threads t).map f } := by
  simp [view, queued]

theorem modifyThread_view_ne (f : Thread → Thread) (h : t' ≠ t) :
    (k.modifyThread t f).view t' = k.view t' := by
  simp [view, queued, h]

theorem setSem_queued (m : Sem) (s' : SemId) :
    (k.setSem s m).queued s' t = if s' = s then m.queueBlocked.items.count t else k.queued s' t := by
  unfold queued
  by_cases h : s' = s
  · subst h
    simp
  · simp [h]

/-- Changing other fields of a semaphore than its queue moves no thread. -/
theorem setSem_view {m m' : Sem} (hm : k.sems s = some m) (hq : m'.queueBlocked = m.queueBlocked) :
    (k.setSem s m').view t = k.view t := by
  have : ∀ s', (k.setSem s m').queued s' t = k.queued s' t := by
    intro s'
    rw [setSem_queued]
    split_ifs with h
    · subst h
      simp [queued, hm, hq]
    · rfl
  simp only [view, this]
  rfl

/-- The views after the calls on lists: only the thread in question moves. -/
structure Moves (k k' : Kernel) (t : Tid) (f : View → View) : Prop where
  self : k'.view t = f (k.view t)
  other : ∀ t' ≠ t, k'.view t' = k.view t'

theorem put_moves (h : k.put t = .ok k') :
    Moves k k' t fun v => { v with ready := v.ready + 1 } := by
  obtain ⟨node, hp, -, rfl⟩ := put_ok h
  constructor
  · simp [view, queued]
  · intro t' ht
    simp [view, queued, ht.symm]

theorem count_erase (l : List Tid) : (l.erase t).count t' = if t' = t then l.count t' - 1
    else l.count t' := by
  split_ifs with h
  · subst h
    exact List.count_erase_self
  · exact List.count_erase_of_ne h

theorem removeThreadFromSleep_moves :
    Moves k (k.removeThreadFromSleep t).2 t fun v => { v with asleep := v.asleep - 1 } := by
  have hl : (k.removeThreadFromSleep t).2.listAsleepThreads.items =
      k.listAsleepThreads.items.erase t := KList.removeSpec_items ..
  constructor
  · simp only [view, hl, count_erase, if_true]
    rfl
  · intro t' ht
    simp only [view, hl, count_erase, ht, if_false]
    rfl

theorem removeReady_moves :
    Moves k (k.removeReady t).2 t fun v => { v with ready := v.ready - 1 } := by
  have hl : (k.removeReady t).2.queueThreads.items = k.queueThreads.items.erase t :=
    KList.removeSpec_items ..
  constructor
  · simp only [view, hl, count_erase, if_true]
    rfl
  · intro t' ht
    simp only [view, hl, count_erase, ht, if_false]
    rfl

/-- A new queue for `s`, seen from the threads. -/
theorem setQueue_moves {m : Sem} {q : KList Tid} {hp : Heap} {d : ℕ → ℕ} (hm : k.sems s = some m)
    (hself : q.items.count t = d (m.queueBlocked.items.count t))
    (hne : ∀ t' ≠ t, q.items.count t' = m.queueBlocked.items.count t') :
    Moves k (setSem { k with heap := hp } s { m with queueBlocked := q }) t
      fun v => { v with queue := Function.update v.queue s (d (v.queue s)) } := by
  have hq : ∀ t s', (setSem { k with heap := hp } s { m with queueBlocked := q }).queued s' t =
      if s' = s then q.items.count t else k.queued s' t := fun t s' => setSem_queued ..
  have hs : ∀ t, k.queued s t = m.queueBlocked.items.count t := by
    intro t
    simp [queued, hm]
  constructor
  · have : (fun s' => (setSem { k with heap := hp } s { m with queueBlocked := q }).queued s' t) =
        Function.update (fun s' => k.queued s' t) s (d (k.queued s t)) := by
      funext s'
      rw [hq, Function.update_apply, hself, hs]
    simp only [view, this]
    rfl
  · intro t' ht
    have : (fun s' => (setSem { k with heap := hp } s { m with queueBlocked := q }).queued s' t') =
        fun s' => k.queued s' t' := by
      funext s'
      rw [hq]
      split_ifs with h
      · rw [h, hs, hne t' ht]
      · rfl
    simp only [view, this]
    rfl

theorem addBlocked_moves (h : k.addBlocked s t = .ok k') :
    Moves k k' t fun v => { v with queue := Function.update v.queue s (v.queue s + 1) } := by
  obtain ⟨m, node, hp, hm, -, rfl⟩ := addBlocked_ok h
  apply setQueue_moves (d := (· + 1)) hm (by simp)
  intro t' ht
  simp [ht.symm]

theorem removeBlocked_moves (h : k.removeBlocked s t = .ok k') :
    Moves k k' t fun v => { v with queue := Function.update v.queue s (v.queue s - 1) } := by
  obtain ⟨m, hm, rfl⟩ := removeBlocked_ok h
  refine setQueue_moves (d := (· - 1)) hm ?_ ?_
  · rw [KList.removeSpec_items, List.count_erase_self]
  · intro t' ht
    rw [KList.removeSpec_items, List.count_erase_of_ne ht]

theorem firstBlocked_moves (h : k.firstBlocked s = .ok (some t, k')) :
    Moves k k' t fun v => { v with queue := Function.update v.queue s (v.queue s - 1) } := by
  obtain ⟨m, hm, ⟨-, hr⟩ | ⟨e, q, hq, hr⟩⟩ := firstBlocked_ok h
  · cases hr
  · cases hr
    apply setQueue_moves (d := (· - 1)) hm (by simp [hq])
    intro t' ht
    simp [hq, ht.symm]

theorem insertAsleep_moves (h : k.insertAsleep t = .ok k') (ht : k.threads t ≠ none) :
    Moves k k' t fun v => { v with asleep := v.asleep + 1 } := by
  obtain ⟨node, hp, -, rfl⟩ := insertAsleep_ok h ht
  have hc : ∀ t', (KList.items (k.listAsleepThreads.takeWhile (k.smallerSleepTime ·.data t) ++
      ⟨node, t⟩ :: k.listAsleepThreads.dropWhile (k.smallerSleepTime ·.data t))).count t' =
      (t :: k.listAsleepThreads.items).count t' :=
    fun t' => (KList.items_insert _ _).count_eq t'
  constructor
  · simp only [view, hc, List.count_cons_self]
    rfl
  · intro t' hne
    simp only [view, hc, List.count_cons_of_ne hne.symm]
    rfl

theorem modifyThread_moves (k : Kernel) (t : Tid) (f : Thread → Thread) :
    Moves k (k.modifyThread t f) t fun v => { v with thread := v.thread.map f } :=
  ⟨modifyThread_view_self f, fun _ h => modifyThread_view_ne f h⟩

theorem Moves.trans {k₂ : Kernel} {f g : View → View} (h : Moves k k' t f) (h' : Moves k' k₂ t g) :
    Moves k k₂ t fun v => g (f v) :=
  ⟨by rw [h'.self, h.self], fun t' ht => by rw [h'.other t' ht, h.other t' ht]⟩

theorem Moves.congr {k₂ : Kernel} {f : View → View} (h : Moves k k' t f)
    (hv : ∀ t, k₂.view t = k'.view t) : Moves k k₂ t f :=
  ⟨by rw [hv, h.self], fun t' ht => by rw [hv, h.other t' ht]⟩

theorem Moves.of_congr {k₀ : Kernel} {f : View → View} (h : Moves k k' t f)
    (hv : ∀ t, k.view t = k₀.view t) : Moves k₀ k' t f :=
  ⟨by rw [h.self, hv], fun t' ht => by rw [h.other t' ht, hv]⟩

/-- The view of `t` changes by `f` and takes it to the place `pl`. -/
theorem Placed.moves {pend' : Tid → Option Context} {f : View → View} (hp : k.Placed pend loc)
    (hm : Moves k k' t f) (hpend : ∀ t' ≠ t, pend' t' = pend t')
    (hat : (f (k.view t)).At (pend' t) pl) : k'.Placed pend' (Function.update loc t pl) :=
  hp.move (by rw [hm.self]; exact hat) fun t' ht => ⟨hm.other t' ht, hpend t' ht⟩

end Kernel
end OSK
