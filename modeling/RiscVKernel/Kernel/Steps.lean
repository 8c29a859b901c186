import RiscVKernel.Kernel.Invariant

/-! Every event keeps the invariant of the kernel and moves the account of
every semaphore by steps of a counting semaphore. -/

namespace OSK

open Lib

namespace Kernel

variable {k k' k₂ : Kernel} {r : Option Tid} {t : Tid} {s : SemId} {loc loc' : Tid → Place} {c : Context}
  {tries : SemId → ℤ → Prop}

/-- A step from the places `loc`, other than a tick. -/
def Advances (tries : SemId → ℤ → Prop) (k k' : Kernel) (loc : Tid → Place) : Prop :=
  ∃ loc', k'.Located loc' ∧ Undisturbed (some k.running) k k' loc loc' ∧
    ∀ s, TracksAt (tries s) s k k'

theorem advances_of_quiet
    (h : ∃ loc', k'.Located loc' ∧ Undisturbed (some k.running) k k' loc loc' ∧ Quiet k k') :
    Advances tries k k' loc := by
  obtain ⟨loc', hl, hu, hq⟩ := h
  exact ⟨loc', hl, hu, fun s => (hq s).tracks⟩

/-- In `k₂` the thread that is running in `k` is about to dispatch: it saves `c`
and stands at `pl`, and nothing else has moved. -/
structure Parks (k : Kernel) (loc : Tid → Place) (c : Context) (pl : Place) (k₂ : Kernel) :
    Prop where
  running : k₂.running = k.running
  placed : k₂.Placed (park (fun _ => none) k.running c) (Function.update loc k.running pl)
  suspended : k₂.Suspended k.running
  views : ∀ t ≠ k.running, k₂.view t = k.view t

/-- The dispatch of a thread that has made itself a place to wait at. -/
theorem Parks.dispatch {pl : Place} (h : Parks k loc c pl k₂) (hl : k.Located loc)
    (hd : k₂.dispatch c = .ok k') (hpl : pl ≠ .cpu ∧ pl ≠ .limbo) :
    ∃ loc', k'.Located loc' ∧ Undisturbed r k₂ k' (Function.update loc k.running pl) loc' ∧
      Quiet k₂ k' :=
  dispatch_parked hd (by rw [h.running]; exact h.placed) (by rw [h.running]; exact h.suspended)
    (update_ne_cpu hl hpl.1) (update_limbo hl hpl.2)

/-- A thread that waits leaves the processor as it is. -/
theorem Parks.left {pl : Place} {k₃ : Kernel} (h : Parks k loc c pl k₂)
    (hlv : ({ k₂ with runningThreadCpuTime := 0 } : Kernel).leave = .ok k₃) :
    k₃ = { k₂ with runningThreadCpuTime := 0 } := by
  obtain ⟨th, hth, hst⟩ := h.suspended
  rw [← h.running] at hth
  obtain ⟨th', hth', hcase⟩ := leave_ok hlv
  obtain rfl : th = th' := Option.some.inj (hth.symm.trans hth')
  rcases hcase with ⟨hs, -⟩ | ⟨-, he⟩ | ⟨hs, -⟩
  · simp [hst] at hs
  · exact he
  · simp [hst] at hs

theorem Parks.leave {pl : Place} {k₃ : Kernel} (h : Parks k loc c pl k₂)
    (hlv : ({ k₂ with runningThreadCpuTime := 0 } : Kernel).leave = .ok k₃) :
    k₃.Placed (park (fun _ => none) k.running c) (Function.update loc k.running pl) := by
  rw [h.left hlv]
  exact h.placed

/-- A thread that is preempted is ready when it has left the processor. -/
theorem Located.leave {k₁ : Kernel} (hl : k.Located loc)
    (hlv : ({ k with runningThreadCpuTime := 0 } : Kernel).leave = .ok k₁) :
    k₁.Placed (park (fun _ => none) k.running .toUser) (Function.update loc k.running .ready) :=
  leave_ready (k := { k with runningThreadCpuTime := 0 }) hlv
    (hl.placed.congr (resetTime_view k)) hl.running_cpu

theorem parked_advances {pl : Place} (hl : k.Located loc) (h : Parks k loc c pl k₂)
    (hd : k₂.dispatch c = .ok k') (hpl : pl ≠ .cpu ∧ pl ≠ .limbo)
    (htr : ∀ s, TracksAt (tries s) s k k₂) : Advances tries k k' loc := by
  obtain ⟨loc', hl', hu, hq⟩ := h.dispatch hl hd hpl
  have hu₂ : Undisturbed (some k.running) k k₂ loc (Function.update loc k.running pl) :=
    .moved hl.cpu_ne_asleep (Or.inr rfl) h.views
  exact ⟨loc', hl', hu₂.trans hu, fun s => (htr s).trans (hq s).tracks⟩

theorem addVal_running {d : ℤ} {r : ℤ × Kernel} (h : k.addVal s d = .ok r) :
    r.2.running = k.running := (addVal_stays h).running

theorem addVal_located {d : ℤ} {r : ℤ × Kernel} (h : k.addVal s d = .ok r) (hl : k.Located loc) :
    r.2.Located loc := hl.congr (addVal_view h) (addVal_running h)

/-- A wait that goes through at once takes a unit. -/
theorem take_advances {r : ℤ × Kernel} {t : Tid} (ha : k.addVal s (-1) = .ok r) (hv : 0 ≤ r.1)
    (hl : k.Located loc) : Advances tries k (r.2.note (.answer t s .didntWait)) loc := by
  refine ⟨loc, (addVal_located ha hl).congr (fun _ => rfl) rfl,
    undisturbed_of_views (addVal_view ha), fun s' => ?_⟩
  by_cases hs : s' = s
  · subst hs
    obtain ⟨c, hc, hrv, hrc⟩ := addVal_counter ha
    refine .of_step hc (note_counter _ hrc) ?_
    have : Counter.Step (tries s') c _ := .take (by omega)
    simpa [Note.acquires, Note.signals, sub_eq_add_neg] using this
  · refine ((addVal_quietAt ha hs).trans (note_quietAt ?_ rfl)).tracks
    simpa [Note.acquires] using fun h => hs h.symm

/-- The account of `s` after the running thread was put into its queue. -/
theorem block_tracks {r : ℤ × Kernel} {k₀ k₁ : Kernel} (ha : k.addVal s (-1) = .ok r)
    (hv : r.1 < 0) (h₀ : Quiet r.2 k₀) (hb : k₀.addBlocked s t = .ok k₁) (s' : SemId) :
    TracksAt (tries s') s' k k₁ := by
  by_cases hs : s' = s
  · subst hs
    obtain ⟨c, hc, hrv, hrc⟩ := addVal_counter ha
    have hc₀ := (h₀ s').counter.trans hrc
    refine .of_step hc (addBlocked_counter hb hc₀) ?_
    have : Counter.Step (tries s') c _ := .block (by omega)
    simpa [sub_eq_add_neg] using this
  · exact (((addVal_quietAt ha hs).trans (h₀ s')).trans (addBlocked_quietAt hb hs)).tracks

theorem block_parks {val : ℤ × Kernel} {k₁ : Kernel} (ha : k.addVal s (-1) = .ok val)
    (hadd : val.2.addBlocked s k.running = .ok k₁) (hl : k.Located loc) :
    Parks k loc (.block s) (.blocked s)
      ((k₁.setThreadsSemStatus k.running .waiting).setMySem k.running (some s)) := by
  obtain ⟨hp, hs⟩ := block_parked hadd (addVal_located ha hl).placed hl.running_cpu
  refine ⟨(addBlocked_stays hadd).running.trans (addVal_running ha), hp, hs, ?_⟩
  intro t ht
  rw [setMySem, modifyThread_view_ne _ ht, setThreadsSemStatus, modifyThread_view_ne _ ht,
    (addBlocked_moves hadd).other t ht, addVal_view ha]

theorem wait_advances (h : k.wait s = .ok k') (hl : k.Located loc) : Advances tries k k' loc := by
  obtain ⟨r, ha, ⟨hv, rfl⟩ | ⟨hv, hb⟩⟩ := wait_ok h
  · exact take_advances ha hv hl
  · obtain ⟨k₁, hadd, hd⟩ := block_ok hb
    rw [addVal_running ha] at hadd hd
    refine parked_advances hl (block_parks ha hadd hl) hd ⟨by simp, by simp⟩ ?_
    intro s'
    exact (block_tracks ha hv (.refl _) hadd s').trans
      ((modifyThread_quiet k₁ k.running _).trans (modifyThread_quiet _ k.running _) s').tracks

/-- The running thread before `timedBlock` puts it into the queue. -/
def timing (k : Kernel) (t : Tid) (time : ℕ) : Kernel :=
  (k.setThreadsSemStatus t .timedWaiting).setTimeForWakingUp t time

theorem timing_stays (k : Kernel) (t : Tid) (time : ℕ) : Stays k (k.timing t time) :=
  (setThreadsSemStatus_stays k t .timedWaiting).trans (setTimeForWakingUp_stays _ t time)

theorem timing_view_ne {time : ℕ} {t' : Tid} (h : t' ≠ t) :
    (k.timing t time).view t' = k.view t' := by
  rw [timing, setTimeForWakingUp, modifyThread_view_ne _ h, setThreadsSemStatus,
    modifyThread_view_ne _ h]

theorem timing_parks {r : ℤ × Kernel} {n : ℕ} {k₁ k₂ k₃ : Kernel} (ha : k.addVal s (-1) = .ok r)
    (hadd : (r.2.timing k.running n).addBlocked s k.running = .ok k₁)
    (hi : k₁.insertAsleep k.running = .ok k₂) (hn : k₂.incTimedWaiting s = .ok k₃)
    (hl : k.Located loc) :
    k₁.threads k.running ≠ none ∧
      Parks k loc (.timedBlock s) (.timed s) (k₃.setMySem k.running (some s)) := by
  have hl' := addVal_located ha hl
  obtain ⟨hp, hs⟩ := timedBlock_parked hadd hi hn hl'.placed hl.running_cpu
  have hs₁ := (timing_stays r.2 k.running _).trans (addBlocked_stays hadd)
  obtain ⟨th, hth, -⟩ := cpu_state hl'.placed hl.running_cpu
  have hne₁ : k₁.threads k.running ≠ none := by
    rw [← Option.isSome_iff_ne_none, hs₁.isSome, hth]
    rfl
  refine ⟨hne₁, ?_, hp, hs, ?_⟩
  · exact ((hs₁.trans (insertAsleep_stays hi)).trans (incTimedWaiting_stays hn)).running.trans
      (addVal_running ha)
  · intro t ht
    rw [setMySem, modifyThread_view_ne _ ht, incTimedWaiting_view hn,
      (insertAsleep_moves hi hne₁).other t ht, (addBlocked_moves hadd).other t ht]
    exact (timing_view_ne ht).trans (addVal_view ha t)

/-- A wait with a timeout that blocks, up to its dispatch. -/
theorem timedWait_parks {m : UInt64} (h : k.timedWait s m = .ok k') (hl : k.Located loc) :
    ∃ r, k.addVal s (-1) = .ok r ∧
      (0 ≤ r.1 ∧ k' = r.2.note (.answer r.2.running s .didntWait) ∨
        r.1 < 0 ∧ ∃ k₁ k₂ k₃, (r.2.timing k.running (wrap (m.toNat + r.2.sysTime))).addBlocked s
            k.running = .ok k₁ ∧
          k₁.threads k.running ≠ none ∧ k₁.insertAsleep k.running = .ok k₂ ∧
          k₂.incTimedWaiting s = .ok k₃ ∧
          Parks k loc (.timedBlock s) (.timed s) (k₃.setMySem k.running (some s)) ∧
          (k₃.setMySem k.running (some s)).dispatch (.timedBlock s) = .ok k') := by
  obtain ⟨r, ha, ⟨hv, rfl⟩ | ⟨hv, hb⟩⟩ := timedWait_ok h
  · exact ⟨r, ha, Or.inl ⟨hv, rfl⟩⟩
  obtain ⟨k₀, k₁, k₂, k₃, rfl, hadd, hi, hn, hd⟩ := timedBlock_ok hb
  rw [addVal_running ha] at hadd hi hd
  obtain ⟨hne₁, hpark⟩ := timing_parks ha hadd hi hn hl
  exact ⟨r, ha, Or.inr ⟨hv, k₁, k₂, k₃, hadd, hne₁, hi, hn, hpark, hd⟩⟩

theorem timedWait_advances {m : UInt64} (h : k.timedWait s m = .ok k') (hl : k.Located loc) :
    Advances tries k k' loc := by
  obtain ⟨r, ha, ⟨hv, rfl⟩ | ⟨hv, k₁, k₂, k₃, hadd, hne, hi, hn, hpark, hd⟩⟩ := timedWait_parks h hl
  · exact take_advances ha hv hl
  · refine parked_advances hl hpark hd ⟨by simp, by simp⟩ ?_
    intro s'
    have hq : Quiet r.2 (r.2.timing k.running (wrap (m.toNat + r.2.sysTime))) :=
      (modifyThread_quiet r.2 k.running _).trans (modifyThread_quiet _ k.running _)
    exact (block_tracks ha hv hq hadd s').trans (((insertAsleep_quiet hi hne).trans
      ((incTimedWaiting_quiet hn).trans (modifyThread_quiet _ _ _))) s').tracks

theorem unblock_located {cause : SemStatus} (h : k.unblock s cause = .ok k') (hl : k.Located loc)
    (hc : cause.Woken) :
    ∃ loc', k'.Located loc' ∧ Undisturbed (some k.running) k k' loc loc' := by
  obtain ⟨t, hloc, hp, hv⟩ := unblock_placed h hl.placed hl.running_cpu hc
  have hne : k.running ≠ t :=
    Placed.running_ne hl.running_cpu (by rcases hloc with hl | hl <;> simp [hl])
  refine ⟨_, ⟨hp, ?_, ?_⟩, .moved ?_ (Or.inl rfl) hv⟩
  · intro t'
    rw [(unblock_stays h).running, Function.update_apply]
    split_ifs with he
    · subst he
      simp [hne.symm]
    · exact hl.cpu t'
  · intro t' ht'
    rw [Function.update_apply] at ht'
    split_ifs at ht' with he
    exact hl.limbo t' ht'
  · rcases hloc with hloc | hloc <;> simp [hloc]

theorem signal_advances {r : ℤ × Kernel} (h : k.signal s = .ok r) (hl : k.Located loc) :
    Advances tries k r.2 loc := by
  obtain ⟨val, k₁, ha, ⟨hv, rfl⟩ | ⟨hv, k', hu, rfl⟩⟩ := signal_ok h
  · refine ⟨loc, (addVal_located ha hl).congr (fun _ => rfl) rfl,
      undisturbed_of_views fun t => by exact addVal_view ha t, fun s' => ?_⟩
    by_cases hs : s' = s
    · subst hs
      obtain ⟨c, hc, hrv, hrc⟩ := addVal_counter ha
      refine .of_step hc (note_counter _ hrc) ?_
      have : Counter.Step (tries s') c _ := .free (by omega)
      simpa [Note.acquires, Note.signals] using this
    · refine ((addVal_quietAt ha hs).trans (note_quietAt rfl ?_)).tracks
      simpa [Note.signals] using fun h => hs h.symm
  · have hl₁ : (k₁.note (.signalled s)).Located loc :=
      (addVal_located ha hl).congr (fun _ => rfl) rfl
    obtain ⟨loc', hl', hu'⟩ := unblock_located hu hl₁ trivial
    have hu₁ : Undisturbed (some k.running) k (k₁.note (.signalled s)) loc loc :=
      undisturbed_of_views fun t => addVal_view ha t
    rw [show (k₁.note (.signalled s)).running = k.running from addVal_running ha] at hu'
    refine ⟨loc', hl', hu₁.trans hu', fun s' => ?_⟩
    by_cases hs : s' = s
    · subst hs
      obtain ⟨c, hc, hrv, hrc⟩ := addVal_counter ha
      obtain ⟨b, hb, hc'⟩ := unblock_counter hu (note_counter _ hrc)
      refine .of_step hc hc' ?_
      have : Counter.Step (tries s') c _ := .wake (by omega) hb
      simpa [Note.acquires, Note.signals] using this
    · refine (((addVal_quietAt ha hs).trans (note_quietAt rfl ?_)).trans
        (unblock_quietAt hu hs)).tracks
      simpa [Note.signals] using fun h => hs h.symm

theorem tryWait_advances {r : ℤ × Kernel} (ha : k.addVal s (-1) = .ok r) (hl : k.Located loc)
    (ht : ∀ c, k.counter s = some c → tries s c.val) : Advances tries k r.2 loc := by
  refine ⟨loc, addVal_located ha hl, undisturbed_of_views (addVal_view ha), ?_⟩
  intro s'
  by_cases hs : s' = s
  · subst hs
    obtain ⟨c, hc, -, hrc⟩ := addVal_counter ha
    exact .of_step hc hrc (.tryTake (ht c hc))
  · exact (addVal_quietAt ha hs).tracks

/-- The running thread before `put_thread_to_sleep` puts it into the list. -/
def dozing (k : Kernel) (t : Tid) (time : ℕ) : Kernel :=
  (k.setThreadState t .suspended).setTimeForWakingUp t time

theorem dozing_view_ne {time : ℕ} {t' : Tid} (h : t' ≠ t) :
    (k.dozing t time).view t' = k.view t' := by
  rw [dozing, setTimeForWakingUp, modifyThread_view_ne _ h, setThreadState,
    modifyThread_view_ne _ h]

theorem dozing_parks {n : ℕ} {k₁ : Kernel}
    (hi : (k.dozing k.running n).insertAsleep k.running = .ok k₁) (hl : k.Located loc) :
    (k.dozing k.running n).threads k.running ≠ none ∧ Parks k loc .sleep .asleep k₁ := by
  obtain ⟨th, hth, -⟩ := cpu_state hl.placed hl.running_cpu
  obtain ⟨hp, hs⟩ := sleep_parked hi hl.placed hl.running_cpu
  have hne : (k.dozing k.running n).threads k.running ≠ none := by simp [dozing, hth]
  refine ⟨hne, (insertAsleep_stays hi).running, hp, hs, ?_⟩
  intro t ht
  exact ((insertAsleep_moves hi hne).other t ht).trans (dozing_view_ne ht)

/-- `put_thread_to_sleep` up to its dispatch. -/
theorem putThreadToSleep_parks {m : UInt64} (h : k.putThreadToSleep m = .ok k')
    (hl : k.Located loc) :
    ∃ k₁, (k.dozing k.running (wrap (k.sysTime + m.toNat))).threads k.running ≠ none ∧
      (k.dozing k.running (wrap (k.sysTime + m.toNat))).insertAsleep k.running = .ok k₁ ∧
      Parks k loc .sleep .asleep k₁ ∧ k₁.dispatch .sleep = .ok k' := by
  obtain ⟨th, hth, -⟩ := cpu_state hl.placed hl.running_cpu
  obtain ⟨k₀, k₁, rfl, hi, hd⟩ := putThreadToSleep_ok h (by simp [hth])
  obtain ⟨hne, hpark⟩ := dozing_parks hi hl
  exact ⟨k₁, hne, hi, hpark, hd⟩

theorem putThreadToSleep_advances {m : UInt64} (h : k.putThreadToSleep m = .ok k')
    (hl : k.Located loc) : Advances tries k k' loc := by
  obtain ⟨k₁, hne, hi, hpark, hd⟩ := putThreadToSleep_parks h hl
  refine parked_advances hl hpark hd ⟨by simp, by simp⟩ ?_
  intro s'
  have hq : Quiet k (k.dozing k.running (wrap (k.sysTime + m.toNat))) :=
    (modifyThread_quiet k k.running _).trans (modifyThread_quiet _ k.running _)
  exact ((hq.trans (insertAsleep_quiet hi hne)) s').tracks

theorem Released.located {k₁ : Kernel} (h : Released k k₁ s loc loc')
    (hp : k₁.Placed (fun _ => none) loc') (hrun : k₁.running = k.running) (hl : k.Located loc) :
    k₁.Located loc' ∧ Undisturbed r k k₁ loc loc' := by
  refine ⟨⟨hp, ?_, ?_⟩, ⟨?_, ?_⟩⟩
  · intro t
    rw [hrun, ← hl.cpu t]
    rcases h t with ⟨he, -⟩ | ⟨h1, h2⟩
    · rw [he]
    · rcases h1 with h1 | h1 <;> simp [h1, h2]
  · intro t ht
    rcases h t with ⟨he, -⟩ | ⟨-, h2⟩
    · exact hl.limbo t (he.symm.trans ht)
    · simp [h2] at ht
  · intro t ht
    rcases h t with ⟨he, -⟩ | ⟨h1, -⟩
    · exact he.trans ht
    · rcases h1 with h1 | h1 <;> simp [h1] at ht
  · intro t _ ht
    rcases h t with ⟨he, hv⟩ | ⟨-, h2⟩
    · exact ⟨he, wakeTime_congr hv⟩
    · simp [h2, Place.inAsleep] at ht

/-- The queue of `s` is empty at the end of its destructor. -/
theorem unblockAll_empties {m : Sem} {k₁ : Kernel} (hm : k.sems s = some m)
    (hu : k.unblockAll s .semDeleted (-m.val).toNat = .ok k₁) (hi : k.Inv) (hl : k.Located loc) :
    ∃ m₁, k₁.sems s = some m₁ ∧ m₁.queueBlocked = [] := by
  obtain ⟨_, -, -, hsem⟩ := unblockAll_placed hu hl.placed hl.running_cpu trivial
  obtain ⟨m₁, hm₁, hlen, -⟩ := hsem m hm
  have hshort : (m.queueBlocked.length : ℤ) ≤ max 0 (-m.val) := hi.short s _ (counter_some hm)
  exact ⟨m₁, hm₁, List.length_eq_zero_iff.1 (by omega)⟩

theorem forgetSem_queued {m : Sem} (hm : k.sems s = some m) (hempty : m.queueBlocked = [])
    (s' : SemId) (t : Tid) : (k.forgetSem s).queued s' t = k.queued s' t := by
  by_cases hs : s' = s
  · subst hs
    simp [queued, hm, hempty]
  · simp [queued, hs]

/-- The destructor releases every thread in the queue of `s`: when it ends, the
queue is empty, so that its end moves no thread. -/
theorem deleteSem_advances (h : k.deleteSem s = .ok k') (hi : k.Inv) (hl : k.Located loc) :
    Advances tries k k' loc := by
  obtain ⟨m, k₁, hm, hu, rfl⟩ := deleteSem_ok h
  obtain ⟨m₁, hm₁, hempty⟩ := unblockAll_empties hm hu hi hl
  have hwoken : SemStatus.semDeleted.Woken := trivial
  obtain ⟨loc', hp₁, hrel, -⟩ := unblockAll_placed hu hl.placed hl.running_cpu hwoken
  obtain ⟨hl₁, hd₁⟩ : k₁.Located loc' ∧ Undisturbed (some k.running) k k₁ loc loc' :=
    hrel.located hp₁ (unblockAll_stays hu).running hl
  have hviews : ∀ t, (k₁.forgetSem s).view t = k₁.view t := fun t => by
    simp only [view, forgetSem_queued hm₁ hempty]
    rfl
  refine ⟨loc', hl₁.congr hviews rfl, hd₁.trans (undisturbed_of_views hviews), ?_⟩
  intro s'
  by_cases hs : s' = s
  · subst hs
    constructor
    · intro hn
      rw [hm] at hn
      cases hn
    · intro c c' _ hc'
      simp [Kernel.counter] at hc'
  · have hrest : QuietAt s' k₁ (k₁.forgetSem s) := ⟨by simp [hs], rfl, rfl⟩
    exact (unblockAll_quietAt hu hs).tracks.trans hrest.tracks

/-! The calls that make objects or hand out memory. -/

theorem memory_advances (hl : k.Located loc) (hp : Heap) (u : List ℕ) :
    Advances tries k { k with heap := hp, user := u } loc :=
  ⟨loc, hl.congr (fun _ => rfl) rfl, .of_time fun _ => rfl,
    fun _ => QuietAt.tracks ⟨rfl, rfl, rfl⟩⟩

theorem enroll_moves (k : Kernel) (t : Tid) (p : ℕ) (th : Thread) :
    Moves k (k.enroll t p th) t fun v => { v with thread := some th } :=
  ⟨by simp [view, queued, enroll], fun t' ht' => by simp [view, queued, enroll, ht']⟩

/-- A thread that comes into being at a place other than the processor. -/
theorem born_located {f : View → View} {pl : Place} (hl : k.Located loc) (hgone : loc t = .gone)
    (hm : Moves k k' t f) (hrun : k'.running = k.running) (ht : t ≠ mainThread)
    (hpl : pl ≠ .cpu ∧ pl.inAsleep = 0) (hat : (f (k.view t)).At none pl) :
    ∃ loc', k'.Located loc' ∧ Undisturbed (some k.running) k k' loc loc' := by
  refine ⟨_, ⟨hl.placed.moves hm (fun _ _ => rfl) hat, fun t' => ?_, fun t' ht' => ?_⟩,
    .moved (by simp [hgone]) (Or.inl hpl.2) hm.other⟩
  · by_cases he : t' = t
    · subst he
      have : t' ≠ k.running := fun he => by
        rw [he, hl.running_cpu] at hgone
        cases hgone
      simp [hpl.1, hrun, this]
    · rw [Function.update_of_ne he, hrun]
      exact hl.cpu t'
  · by_cases he : t' = t
    · exact he ▸ ht
    · exact hl.limbo t' ((Function.update_of_ne he _ _).symm.trans ht')

/-- A new thread is ready, or nowhere if it has no body. -/
theorem newThread_advances {body : UInt64} {stack : ℕ} (h : k.newThread body stack = .ok k')
    (hi : k.Inv) (hl : k.Located loc) : Advances tries k k' loc := by
  obtain ⟨-, p, hp, k₁, -, hk₁, rfl⟩ := newThread_ok h
  have hnone : k.threads (k.ID + 1) = none := hi.freshThread _ (by omega)
  have hgone : loc (k.ID + 1) = .gone := by
    by_contra hne
    obtain ⟨th, hth, -⟩ := hl.placed.record hne
    simp [hnone] at hth
  have hmain : k.ID + 1 ≠ mainThread := Nat.ne_of_gt (Nat.lt_succ_of_le hi.main)
  obtain ⟨hl', hu⟩ : k.countChild.Located loc ∧ Undisturbed (some k.running) k k.countChild loc loc :=
    modifyThread_located hl fun th => ⟨rfl, rfl, rfl, rfl, rfl, rfl⟩
  have hat := hl'.placed (k.ID + 1)
  rcases hk₁ with ⟨hb, hput⟩ | ⟨rfl, rfl⟩
  · obtain ⟨node, hq, -, rfl⟩ := put_ok hput
    have hm : Moves k.countChild (countChild { k with
        heap := hq
        user := k.user.erase stack
        queueThreads := k.queueThreads ++ [⟨node, k.ID + 1⟩] }) (k.ID + 1) fun v =>
          { v with ready := v.ready + 1 } :=
      ⟨by simp [view, queued, countChild], fun t' ht' => by
        simp [view, queued, countChild, ht'.symm]⟩
    obtain ⟨loc', hl₂, hu₂⟩ := born_located hl' hgone
      (hm.trans (enroll_moves _ _ p (k.newborn body stack))) rfl hmain
      (show Place.ready ≠ .cpu ∧ Place.ready.inAsleep = 0 by decide) (by
        refine ⟨?_, ?_, ?_, Or.inr ⟨Or.inl rfl, rfl⟩⟩
        · simp [hat.ready, hgone, Place.inReady]
        · simp [hat.asleep, hgone, Place.inAsleep]
        · simp [hat.queue, hgone, Place.inQueue])
    exact ⟨loc', hl₂, hu.trans hu₂, fun s => QuietAt.tracks ⟨rfl, rfl, rfl⟩⟩
  · obtain ⟨loc', hl₂, hu₂⟩ := born_located hl' hgone
      (enroll_moves k.countChild (k.ID + 1) p (k.newborn 0 stack)) rfl hmain
      (show Place.limbo ≠ .cpu ∧ Place.limbo.inAsleep = 0 by decide) (by
        refine ⟨?_, ?_, ?_, rfl⟩
        · simp [hat.ready, hgone, Place.inReady]
        · simp [hat.asleep, hgone, Place.inAsleep]
        · simp [hat.queue, hgone, Place.inQueue])
    exact ⟨loc', hl₂.congr (fun _ => rfl) rfl, hu.trans ⟨hu₂.stays, hu₂.before⟩,
      fun s => QuietAt.tracks ⟨rfl, rfl, rfl⟩⟩

/-- A new semaphore has an empty queue, so that no thread moves. -/
theorem newSem_view {n : UInt64} (h : k.newSem n = .ok k') (hi : k.Inv) (t : Tid) :
    k'.view t = k.view t := by
  have hnone := (hi.freshSem k.nextSem le_rfl).1
  obtain ⟨p, hp, node, hp', -, -, rfl⟩ := newSem_ok h
  simp only [view, View.mk.injEq, true_and]
  funext s
  by_cases hs : s = k.nextSem
  · simp [queued, hs, hnone]
  · simp [queued, hs]

theorem newSem_located {n : UInt64} (h : k.newSem n = .ok k') (hi : k.Inv) (hl : k.Located loc) :
    k'.Located loc ∧ Undisturbed r k k' loc loc := by
  have hrun : k'.running = k.running := by
    obtain ⟨p, hp, node, hp', -, -, rfl⟩ := newSem_ok h
    rfl
  exact ⟨hl.congr (newSem_view h hi) hrun, undisturbed_of_views (newSem_view h hi)⟩

theorem newSem_quietAt {n : UInt64} (h : k.newSem n = .ok k') (hs : s ≠ k.nextSem) :
    QuietAt s k k' := by
  obtain ⟨p, hp, node, hp', -, -, rfl⟩ := newSem_ok h
  exact ⟨by simp [hs], rfl, rfl⟩

/-- A 32-bit initial value is not negative as a `long`. -/
theorem initial_val (n : UInt32) : n.toUInt64.toInt64.toInt = n.toNat := by
  have hn : n.toUInt64.toNat = n.toNat := by simp
  have hlt := n.toNat_lt
  change n.toUInt64.toBitVec.toInt = n.toNat
  rw [BitVec.toInt_eq_toNat_of_lt]
  · exact congrArg Int.ofNat hn
  · change 2 * n.toUInt64.toNat < 2 ^ 64
    omega

/-- The account of a semaphore starts with its initial value. -/
theorem semOpen_counter {n : UInt32} (h : k.step (.semOpen n) = .ok k') (hi : k.Inv) :
    k'.counter k.nextSem = some ⟨n.toNat, 0, 0, 0⟩ := by
  obtain ⟨-, hsig, hacq⟩ := hi.freshSem k.nextSem le_rfl
  obtain ⟨p, hp, node, hp', -, -, rfl⟩ := newSem_ok h
  simp [Kernel.counter, hsig, hacq, initial_val]

/-! The timer. -/

/-- The threads at the front of the sleep list that are due become ready, and
those behind them sleep on. -/
theorem wake_located {k₁ : Kernel} (h : k.incTime.wakeAsleepThreadsUp = .ok k₁)
    (hl : k.Located loc) :
    ∃ ts₁ ts₂, k.listAsleepThreads.items = ts₁ ++ ts₂ ∧
      (∀ t ∈ ts₁, k.wakeTime t ≤ k.incTime.sysTime) ∧
      (∀ t, ts₂.head? = some t → k.incTime.sysTime < k.wakeTime t) ∧
      k₁.Located (fun t => if t ∈ ts₁ then .ready else loc t) ∧
      (∀ t ∉ ts₁, k₁.view t = k.view t) ∧
      ∀ (tries : ℤ → Prop) s, TracksAt tries s k k₁ := by
  have hp : k.incTime.Placed (fun _ => none) loc := hl.placed.congr fun _ => rfl
  obtain ⟨ts₁, ts₂, hts, hdue, hnext, hp', hv⟩ := wakeAsleepThreadsUp_placed h hp hl.running_cpu
  have hasleep : ∀ t ∈ ts₁, loc t = .asleep ∨ ∃ s, loc t = .timed s := fun t ht =>
    hl.placed.mem_asleep ((congrArg (t ∈ ·) hts).mpr (List.mem_append_left _ ht))
  refine ⟨ts₁, ts₂, hts, hdue, hnext, ⟨hp', ?_, ?_⟩, hv, ?_⟩
  · intro t
    rw [(wakeAsleepThreadsUp_stays h).running]
    change _ ↔ t = k.running
    rw [← hl.cpu t]
    split_ifs with ht
    · rcases hasleep t ht with h | ⟨s, h⟩ <;> simp [h]
    · rfl
  · intro t ht
    split_ifs at ht with h
    exact hl.limbo t ht
  · intro tries s
    have htime : TracksAt tries s k k.incTime := QuietAt.tracks ⟨rfl, rfl, rfl⟩
    exact htime.trans (wake_loop_tracks h hl.sleepers s)

/-- What a tick does after the sleeping threads were looked at. -/
theorem preempt_located {k₁ : Kernel} {th : Thread} (hl : k₁.Located loc)
    (h : th.timeSlice ≤ k₁.runningThreadCpuTime ∧ k₁.dispatch .toUser = .ok k' ∨
      k₁.runningThreadCpuTime < th.timeSlice ∧ k' = k₁) :
    ∃ loc', k'.Located loc' ∧ Undisturbed r k₁ k' loc loc' ∧ Quiet k₁ k' := by
  rcases h with ⟨-, hd⟩ | ⟨-, rfl⟩
  · exact dispatch_located hd hl
  · exact ⟨loc, hl, .of_time fun _ => rfl, .refl _⟩

/-! Any event. -/

/-- What `sem_trywait` on `s` takes in the step `e` from `k`. -/
def Tries (k : Kernel) (e : Event) (s : SemId) (v : ℤ) : Prop :=
  e = .semTrywait (some s) ∧ ∃ c, k.counter s = some c ∧ c.val = v

theorem advances_self (hl : k.Located loc) : Advances tries k k loc :=
  advances_of_quiet ⟨loc, hl, .of_time fun _ => rfl, .refl k⟩

/-- Every event other than a tick and the opening of a semaphore. -/
theorem step_advances {e : Event} (h : k.step e = .ok k') (hi : k.Inv) (hl : k.Located loc)
    (htick : e ≠ .tick) (hopen : ∀ n, e ≠ .semOpen n) : Advances (k.Tries e) k k' loc := by
  cases step_effect h with
  | idle => exact advances_self hl
  | memAlloc p hp => exact memory_advances hl hp _
  | memFree => exact memory_advances hl _ _
  | threadCreate h => exact newThread_advances h hi hl
  | threadExit h => exact advances_of_quiet (exit_located h hl)
  | threadDispatch h => exact advances_of_quiet (dispatch_located h hl)
  | semOpen => exact absurd rfl (hopen _)
  | semClose s h => exact deleteSem_advances h hi hl
  | semWait s h => exact wait_advances h hl
  | semSignal s hr => exact signal_advances hr hl
  | semTimedwait s h => exact timedWait_advances h hl
  | semTrywait s hr => exact tryWait_advances hr hl fun c hc => ⟨rfl, c, hc, rfl⟩
  | timeSleep h => exact putThreadToSleep_advances h hl
  | tick => exact absurd rfl htick
  | subtleKill t => exact advances_of_quiet ⟨loc, subtleKill_located k t hl⟩

/-- The places after any event. Only a tick wakes threads from `time_sleep`. -/
theorem step_located {e : Event} (h : k.step e = .ok k') (hi : k.Inv) (hl : k.Located loc) :
    ∃ loc', k'.Located loc' ∧ (e ≠ .tick → ∀ t, loc t = .asleep → loc' t = .asleep) ∧
      ∀ t ≠ k.running, 0 < (loc' t).inAsleep →
        loc' t = loc t ∧ k'.wakeTime t = k.wakeTime t := by
  have hsome : ∀ t ≠ k.running, some k.running ≠ some t := fun t ht he =>
    ht (Option.some.inj he).symm
  by_cases htick : e = .tick
  · subst htick
    obtain ⟨k₁, th, hw, -, hp⟩ := timerInterruptHandler_ok h
    obtain ⟨ts₁, _, -, -, -, hl₁, hv, -⟩ := wake_located hw hl
    obtain ⟨loc', hl', hu, -⟩ := preempt_located (r := none) hl₁ hp
    refine ⟨loc', hl', fun hne => absurd rfl hne, ?_⟩
    intro t _ hs
    obtain ⟨h1, h2⟩ := hu.before t (by simp) hs
    rw [h1] at hs
    by_cases hmem : t ∈ ts₁
    · simp [hmem, Place.inAsleep] at hs
    · rw [h1, h2, if_neg hmem]
      exact ⟨rfl, wakeTime_congr (hv t hmem)⟩
  by_cases hopen : ∃ n, e = .semOpen n
  · obtain ⟨n, rfl⟩ := hopen
    obtain ⟨hl', hu⟩ := newSem_located h hi hl
    exact ⟨loc, hl', fun _ => hu.stays, fun t ht => hu.before t (hsome t ht)⟩
  · obtain ⟨loc', hl', hu, -⟩ := step_advances h hi hl htick fun n hn => hopen ⟨n, hn⟩
    exact ⟨loc', hl', fun _ => hu.stays, fun t ht => hu.before t (hsome t ht)⟩

/-- The account of a semaphore in any event but its own opening. -/
theorem step_tracks {e : Event} (h : k.step e = .ok k') (hi : k.Inv)
    (hs : ∀ n, e = .semOpen n → s ≠ k.nextSem) : TracksAt (k.Tries e s) s k k' := by
  obtain ⟨loc, hl⟩ := hi.located
  by_cases htick : e = .tick
  · subst htick
    obtain ⟨k₁, th, hw, -, hp⟩ := timerInterruptHandler_ok h
    obtain ⟨_, _, -, -, -, hl₁, -, htr⟩ := wake_located hw hl
    obtain ⟨loc', -, -, hq⟩ := preempt_located (r := none) hl₁ hp
    exact (htr _ s).trans (hq s).tracks
  by_cases hopen : ∃ n, e = .semOpen n
  · obtain ⟨n, rfl⟩ := hopen
    exact (newSem_quietAt h (hs n rfl)).tracks
  · obtain ⟨-, -, -, htr⟩ := step_advances h hi hl htick fun n hn => hopen ⟨n, hn⟩
    exact htr s

/-- Every event other than the creation of a thread or a semaphore. -/
theorem step_origin {e : Event} (h : k.step e = .ok k')
    (hcreate : ∀ body stack, e ≠ .threadCreate body stack) (hopen : ∀ n, e ≠ .semOpen n) :
    (∀ t th', k'.threads t = some th' → ∃ th, k.threads t = some th ∧ th'.origin = th.origin) ∧
      k'.ID = k.ID ∧ k'.nextSem = k.nextSem := by
  have hkeeps : ∀ k₀ k₁ : Kernel, Keeps k₀ k₁ → k₀.threads = k.threads → k₀.ID = k.ID →
      k₀.nextSem = k.nextSem →
      (∀ t th', k₁.threads t = some th' → ∃ th, k.threads t = some th ∧ th'.origin = th.origin) ∧
        k₁.ID = k.ID ∧ k₁.nextSem = k.nextSem := fun k₀ k₁ hk h1 h2 h3 =>
    ⟨fun t th' ht => h1 ▸ hk.thread t th' ht, hk.ID.trans h2, hk.nextSem.trans h3⟩
  have hself : ∀ {k₁ : Kernel}, Keeps k k₁ →
      (∀ t th', k₁.threads t = some th' → ∃ th, k.threads t = some th ∧ th'.origin = th.origin) ∧
        k₁.ID = k.ID ∧ k₁.nextSem = k.nextSem := fun hk => hkeeps k _ hk rfl rfl rfl
  cases step_effect h with
  | idle => exact hself (.refl k)
  | memAlloc => exact ⟨fun t th ht => ⟨th, ht, rfl⟩, rfl, rfl⟩
  | memFree => exact ⟨fun t th ht => ⟨th, ht, rfl⟩, rfl, rfl⟩
  | threadCreate => exact absurd rfl (hcreate _ _)
  | threadExit h => exact hself (exit_keeps h)
  | threadDispatch h => exact hself (dispatch_keeps h)
  | semOpen => exact absurd rfl (hopen _)
  | semClose s h => exact hself (deleteSem_keeps h)
  | semWait s h => exact hself (wait_keeps h)
  | semSignal s hr => exact hself (signal_stays hr).keeps
  | semTimedwait s h => exact hself (timedWait_keeps h)
  | semTrywait s hr => exact hself (addVal_stays hr).keeps
  | timeSleep h => exact hself (putThreadToSleep_keeps h)
  | tick h =>
    obtain ⟨k₁, th, hw, -, ⟨-, hd⟩ | ⟨-, rfl⟩⟩ := timerInterruptHandler_ok h
    · exact hkeeps k.incTime _ ((wakeAsleepThreadsUp_stays hw).keeps.trans (dispatch_keeps hd)) rfl
        rfl rfl
    · exact hkeeps k.incTime _ (wakeAsleepThreadsUp_stays hw).keeps rfl rfl rfl
  | subtleKill t => exact hself (subtleKill_stays k t).keeps

theorem newThread_origin {body : UInt64} {stack : ℕ} (h : k.newThread body stack = .ok k') :
    (∀ t th', k'.threads t = some th' → t = k.ID + 1 ∧ th' = k.newborn body stack ∨
      ∃ th, k.threads t = some th ∧ th'.origin = th.origin) ∧
      k'.ID = k.ID + 1 ∧ k'.nextSem = k.nextSem := by
  obtain ⟨-, p, hp, k₁, -, hk₁, rfl⟩ := newThread_ok h
  have hs : Stays { k with heap := hp, user := k.user.erase stack } k₁.countChild := by
    refine Stays.trans ?_ (modifyThread_stays _ _ _ fun _ => ⟨rfl, rfl⟩)
    rcases hk₁ with ⟨-, hput⟩ | ⟨-, rfl⟩
    · exact put_stays hput
    · exact .refl _
  refine ⟨?_, rfl, hs.nextSem⟩
  intro t th' ht
  by_cases he : t = k.ID + 1
  · subst he
    simp only [enroll, Function.update_self, Option.some.injEq] at ht
    exact Or.inl ⟨rfl, ht.symm⟩
  · simp only [enroll, Function.update_of_ne he] at ht
    exact Or.inr (hs.keeps.thread t th' ht)

/-! The invariant. -/

/-- Names of threads and semaphores are given out in order. -/
theorem step_fresh {e : Event} (h : k.step e = .ok k') (hi : k.Inv) :
    (∀ t, k'.ID < t → k'.threads t = none) ∧ k.ID ≤ k'.ID ∧ k.nextSem ≤ k'.nextSem ∧
      ∀ n, e = .semOpen n → k'.nextSem = k.nextSem + 1 := by
  by_cases hcreate : ∃ body stack, e = .threadCreate body stack
  · obtain ⟨body, stack, rfl⟩ := hcreate
    obtain ⟨horigin, hID, hsem⟩ := newThread_origin h
    refine ⟨?_, by omega, hsem.ge, fun n hn => by cases hn⟩
    intro t ht
    cases hth : k'.threads t with
    | none => rfl
    | some th =>
      rcases horigin t th hth with ⟨rfl, -⟩ | ⟨th₀, hth₀, -⟩
      · omega
      · simp [hi.freshThread t (by omega)] at hth₀
  by_cases hopen : ∃ n, e = .semOpen n
  · obtain ⟨n, rfl⟩ := hopen
    obtain ⟨p, hp, node, hp', -, -, rfl⟩ := newSem_ok h
    exact ⟨hi.freshThread, le_rfl, Nat.le_succ _, fun _ _ => rfl⟩
  · obtain ⟨horigin, hID, hsem⟩ := step_origin h (fun b st he => hcreate ⟨b, st, he⟩)
      fun n he => hopen ⟨n, he⟩
    refine ⟨?_, hID.ge, hsem.ge, fun n he => absurd ⟨n, he⟩ hopen⟩
    intro t ht
    cases hth : k'.threads t with
    | none => rfl
    | some th =>
      obtain ⟨th₀, hth₀, -⟩ := horigin t th hth
      simp [hi.freshThread t (by omega)] at hth₀

theorem step_inv {e : Event} (h : k.step e = .ok k') (hi : k.Inv) : k'.Inv := by
  obtain ⟨loc, hl⟩ := hi.located
  obtain ⟨loc', hl', -⟩ := step_located h hi hl
  obtain ⟨hfresh, hID, hsem, hopen⟩ := step_fresh h hi
  refine ⟨⟨loc', hl'⟩, ?_, hfresh, ?_, hi.main.trans hID⟩
  · intro s c' hc'
    by_cases ho : ∃ n, e = .semOpen n ∧ s = k.nextSem
    · obtain ⟨n, rfl, rfl⟩ := ho
      rw [semOpen_counter h hi, Option.some.injEq] at hc'
      subst hc'
      simp [Counter.Short]
    · have htr := step_tracks h hi (s := s) fun n hn he => ho ⟨n, hn, he⟩
      cases hc : k.counter s with
      | none =>
        have := (htr.closed (counter_none.1 hc)).1
        rw [← counter_none, hc'] at this
        cases this
      | some c => exact (htr.live c c' hc hc').short (hi.short s c hc)
  · intro s hs
    have hne : ∀ n, e = .semOpen n → s ≠ k.nextSem := fun n hn => by
      have := hopen n hn
      omega
    obtain ⟨h1, h2, h3⟩ := hi.freshSem s (hsem.trans hs)
    obtain ⟨h4, h5, h6⟩ := (step_tracks h hi hne).closed h1
    exact ⟨h4, h5.trans h2, h6.trans h3⟩

/-- The invariant does not depend on the value a semaphore starts with. -/
theorem newSem_inv {n : UInt64} (h : k.newSem n = .ok k') (hi : k.Inv) : k'.Inv := by
  obtain ⟨loc, hl⟩ := hi.located
  obtain ⟨hl', -⟩ := newSem_located (r := none) h hi hl
  obtain ⟨-, hsig, hacq⟩ := hi.freshSem k.nextSem le_rfl
  obtain ⟨p, hp, node, hp', -, -, rfl⟩ := newSem_ok h
  refine ⟨⟨loc, hl'⟩, fun s c hc => ?_, hi.freshThread, fun s hs => ?_, hi.main⟩
  · by_cases hs : s = k.nextSem
    · subst hs
      simp only [Kernel.counter, Function.update_self, hsig, hacq, Option.map_some,
        Option.some.injEq] at hc
      subst hc
      simp [Counter.Short]
    · simp only [Kernel.counter, Function.update_of_ne hs] at hc
      exact hi.short s c hc
  · dsimp only
    rw [Function.update_of_ne (Nat.lt_of_succ_le hs).ne']
    exact hi.freshSem s (Nat.le_of_succ_le hs)

/-- At boot there is only the thread of `main`. -/
theorem boot_threads {start total : ℕ} (h : boot start total = some k) (ht : t ≠ mainThread) :
    k.threads t = none := by
  obtain ⟨stack, hp, p, hp', -, -, rfl⟩ := boot_ok h
  simp [bootState, ht]

theorem boot_inv {start total : ℕ} (h : boot start total = some k) : k.Inv := by
  have hthread := fun t (ht : t ≠ mainThread) => boot_threads h ht
  obtain ⟨stack, hp, p, hp', -, -, rfl⟩ := boot_ok h
  refine ⟨⟨fun t => if t = mainThread then .cpu else .gone, fun t => ?_, fun t => ?_,
    fun t ht => ?_⟩, fun s c hc => ?_, fun t ht => hthread t (Nat.ne_of_gt ht),
    fun s _ => ⟨rfl, rfl, rfl⟩, le_rfl⟩
  · by_cases ht : t = mainThread
    · subst ht
      refine ⟨rfl, rfl, rfl, ?_⟩
      simp [view, bootState, Thread.Fits]
    · refine ⟨?_, ?_, ?_, ?_⟩
      · simp [view, bootState, ht, Place.inReady]
      · simp [view, bootState, ht, Place.inAsleep]
      · simp [view, bootState, ht, Place.inQueue, queued]
      · simp [view, bootState, ht]
  · by_cases ht : t = mainThread <;> simp [ht, bootState]
  · by_cases he : t = mainThread <;> simp [he] at ht
  · simp [Kernel.counter, bootState] at hc

theorem run_inv {P : Kernel → Event → Prop} {k₀ : Kernel} {es : List Event}
    (h : Run step P k₀ es k) (h₀ : k₀.Inv) : k.Inv :=
  h.invariant Inv h₀ fun _ _ _ hi _ hs => step_inv hs hi

end Kernel
end OSK
