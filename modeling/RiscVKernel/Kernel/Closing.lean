import RiscVKernel.Kernel.Accounts
import RiscVKernel.Kernel.Counting
import RiscVKernel.Kernel.Progress
import RiscVKernel.Kernel.Values

/-! `sem_close`. Its loop is driven by the value of the semaphore and not by the
queue; since the two agree, it releases every waiting thread, in order, and
always comes back. -/

namespace OSK

open Lib

namespace KList

variable {α : Type} [DecidableEq α] {l : KList α} {x : α}

theorem filter_absent (hx : x ∉ l.items) : l.filter (·.data ∉ [x]) = l := by
  apply List.filter_eq_self.2
  intro e he
  have hne : e.data ≠ x := fun h => hx (h ▸ List.mem_map.2 ⟨e, he, rfl⟩)
  simpa using hne

/-- When an entry stands in the list once, taking out the first one takes out all. -/
theorem removeSpec_filter (h : Heap) (hnd : l.items.Nodup) :
    (removeSpec h l x).2.2 = l.filter (·.data ∉ [x]) := by
  rcases removeSpec_cases h l x with ⟨hno, he⟩ | ⟨l₁, e, l₂, rfl, -, rfl, he⟩
  · rw [he, filter_absent hno]
  · rw [he]
    simp only [items_append, items_cons, List.nodup_append, List.nodup_cons] at hnd
    have h₁ : e.data ∉ items l₁ := fun hin => hnd.2.2 _ hin _ (List.mem_cons_self ..) rfl
    rw [List.filter_append, List.filter_cons_of_neg (by simp), filter_absent h₁,
      filter_absent hnd.2.1.1]

end KList

namespace Kernel

variable {k k' k₀ k₁ : Kernel} {t : Tid} {s : SemId} {cause : SemStatus} {start total : ℕ} {m : Sem}
  {loc : Tid → Place} {pend : Tid → Option Context} {ts ts' : List Tid}

/-- The threads `ts` became ready, in this order, for `cause`, and are not asleep
any more. Nothing happened to the other threads. -/
structure Drains (cause : SemStatus) (ts : List Tid) (k k' : Kernel) : Prop where
  ready : ∃ l, k'.queueThreads = k.queueThreads ++ l ∧ KList.items l = ts
  asleep : k'.listAsleepThreads = k.listAsleepThreads.filter (·.data ∉ ts)
  released : ∀ t ∈ ts, ∃ th, k.threads t = some th ∧ k'.threads t = some (th.released cause)
  others : ∀ t ∉ ts, k'.threads t = k.threads t

theorem drains_nil (hq : k'.queueThreads = k.queueThreads)
    (hl : k'.listAsleepThreads = k.listAsleepThreads) (ht : k'.threads = k.threads) :
    Drains cause [] k k' :=
  ⟨⟨[], by simpa using hq, rfl⟩, by simpa using hl, by simp, fun t _ => congrFun ht t⟩

theorem Drains.append (h : Drains cause ts k k₁) (h' : Drains cause ts' k₁ k')
    (hd : ts.Disjoint ts') : Drains cause (ts ++ ts') k k' := by
  obtain ⟨l, hl, hts⟩ := h.ready
  obtain ⟨l', hl', hts'⟩ := h'.ready
  refine ⟨⟨l ++ l', by rw [hl', hl, List.append_assoc], by rw [KList.items_append, hts, hts']⟩,
    ?_, fun t ht => ?_, fun t ht => ?_⟩
  · rw [h'.asleep, h.asleep, List.filter_filter]
    apply List.filter_congr
    intro e _
    simp [not_or, Bool.and_comm]
  · rcases List.mem_append.1 ht with ht | ht
    · obtain ⟨th, hth, hth'⟩ := h.released t ht
      exact ⟨th, hth, (h'.others t (hd ht)).trans hth'⟩
    · obtain ⟨th, hth, hth'⟩ := h'.released t ht
      exact ⟨th, (h.others t fun hin => hd hin ht).symm.trans hth, hth'⟩
  · rw [List.mem_append, not_or] at ht
    exact (h'.others t ht.2).trans (h.others t ht.1)

/-- What happens before and touches neither threads nor the ready queue. -/
theorem Drains.of_same (h : Drains cause ts k k') (hq : k.queueThreads = k₀.queueThreads)
    (hl : k.listAsleepThreads.filter (·.data ∉ ts) = k₀.listAsleepThreads.filter (·.data ∉ ts))
    (ht : k.threads = k₀.threads) : Drains cause ts k₀ k' :=
  ⟨hq ▸ h.ready, h.asleep.trans hl, fun t hin => ht ▸ h.released t hin, fun t hin =>
    (h.others t hin).trans (congrFun ht t)⟩

theorem release_drains {th : Thread} (h : k.release t s cause = .ok k')
    (hth : k.threads t = some th) (hne : k.running ≠ t) (hc : cause.Woken)
    (ht : t ∉ k.listAsleepThreads.items) : Drains cause [t] k k' := by
  obtain ⟨node, hp, -, rfl⟩ := put_ok h
  refine ⟨⟨[⟨node, t⟩], rfl, rfl⟩, (KList.filter_absent ht).symm, ?_, ?_⟩
  · intro t' ht'
    rw [List.mem_singleton] at ht'
    subst ht'
    exact ⟨th, hth, release_record hth hne hc⟩
  · intro t' ht'
    rw [List.mem_singleton] at ht'
    simp [ht']

/-- `unblock` releases the first thread of the queue. -/
theorem unblock_drains {e : Elem Tid} {q : KList Tid} (h : k.unblock s cause = .ok k')
    (hp : k.Placed pend loc) (hcpu : loc k.running = .cpu) (hc : cause.Woken)
    (hm : k.sems s = some m) (hq : m.queueBlocked = e :: q) : Drains cause [e.data] k k' := by
  obtain ⟨t, k₁, th, hf, ht, hr⟩ := unblock_ok h
  obtain ⟨m', hm', ⟨-, hr'⟩ | ⟨e', q', hq', he⟩⟩ := firstBlocked_ok hf
  · cases hr'
  obtain rfl : m = m' := Option.some.inj (hm.symm.trans hm')
  rw [hq, List.cons.injEq] at hq'
  obtain ⟨rfl, rfl⟩ := hq'
  cases he
  have hth : k.threads e.data = some th := ht
  have hloc := hp.mem_queue (t := e.data) hm (by simp [hq])
  have hne : k.running ≠ e.data :=
    Placed.running_ne hcpu (by rcases hloc with hloc | hloc <;> simp [hloc])
  have hfit := hp.fits hth
  split_ifs at hr with hst
  · -- the thread waits with a timeout and leaves the sleep list
    have hlist : ∀ hp', (KList.removeSpec hp' k.listAsleepThreads e.data).2.2 =
        k.listAsleepThreads.filter (·.data ∉ [e.data]) := fun hp' =>
      KList.removeSpec_filter hp' hp.nodup_asleep
    refine (release_drains hr ht hne hc ?_).of_same rfl ?_ rfl
    · intro hin
      obtain ⟨x, hx, hxe⟩ := List.mem_map.1 ((congrArg (e.data ∈ KList.items ·) (hlist _)).mp hin)
      simp [hxe] at hx
    · apply (congrArg (List.filter _) (hlist _)).trans
      rw [List.filter_filter]
      simp only [Bool.and_self]
  · refine (release_drains hr ht hne hc fun hin => hst ?_).of_same rfl rfl rfl
    rcases hloc with hloc | hloc
    · rcases hp.mem_asleep hin with h | ⟨s', h⟩ <;> rw [hloc] at h <;> cases h
    · exact (hloc ▸ hfit).1

theorem inQueue_le (pl : Place) (s : SemId) : pl.inQueue s ≤ 1 := by
  unfold Place.inQueue
  split
  · split_ifs <;> omega
  · split_ifs <;> omega
  · exact Nat.zero_le 1

theorem Placed.nodup_queue (hp : k.Placed pend loc) (hm : k.sems s = some m) :
    m.queueBlocked.items.Nodup := by
  apply List.nodup_iff_count_le_one.2
  intro t
  have hq := hp.queued (t := t) (s := s)
  simp only [Kernel.queued, hm] at hq
  exact hq.trans_le (inQueue_le _ _)

theorem Placed.nodup_ready (hp : k.Placed pend loc) : k.queueThreads.items.Nodup := by
  apply List.nodup_iff_count_le_one.2
  intro t
  rw [hp.ready_count]
  cases loc t <;> simp only [Place.inReady] <;> omega

/-- The loop of the destructor, when the value says how long the queue is. -/
theorem unblockAll_drains {n : ℕ} (hp : k.Placed pend loc) (hcpu : loc k.running = .cpu)
    (hs : k.Stored start total) (hc : cause.Woken) (hm : k.sems s = some m)
    (hlen : m.queueBlocked.length = n) (hval : n ≠ 0 → m.val = -n) (hlow : -2 ^ 63 ≤ m.val) :
    ∃ k' m', k.unblockAll s cause n = .ok k' ∧ Drains cause m.queueBlocked.items k k' ∧
      k'.sems = Function.update k.sems s (some m') := by
  induction n generalizing k loc m with
  | zero =>
    have hempty : m.queueBlocked = [] := List.length_eq_zero_iff.1 hlen
    refine ⟨k, m, rfl, ?_, ?_⟩
    · rw [hempty]
      exact drains_nil rfl rfl rfl
    · rw [← hm, Function.update_eq_self]
  | succ n ih =>
    obtain ⟨e, q, hq⟩ := List.exists_cons_of_length_eq_add_one hlen
    obtain ⟨k₁, hu⟩ : ∃ k₁, k.unblock s cause = .ok k₁ := unblock_total hp hs hm hq
    have hd := unblock_drains hu hp hcpu hc hm hq
    obtain ⟨t, hloc, hp₁, -⟩ := unblock_placed hu hp hcpu hc
    have hne : k.running ≠ t :=
      Placed.running_ne hcpu (by rcases hloc with hloc | hloc <;> simp [hloc])
    obtain ⟨m', e', q', hm', hq', hsems⟩ := unblock_sems hu
    obtain rfl : m = m' := Option.some.inj (hm.symm.trans hm')
    rw [hq, List.cons.injEq] at hq'
    obtain ⟨rfl, rfl⟩ := hq'
    have hm₁ : k₁.sems s = some { m with queueBlocked := q } := by
      rw [hsems, Function.update_self]
    have hneg := hval (Nat.succ_ne_zero n)
    have ha := addVal_total (d := 1) hm₁ (by dsimp only; omega) (by dsimp only; omega)
    obtain ⟨k', m', hall, hd', hsems'⟩ := ih (k := k₁.setSem s _) (m := { m with
        val := m.val + 1
        queueBlocked := q }) (hp₁.congr (addVal_view ha)) (by
      rw [show (k₁.setSem s { m with val := m.val + 1, queueBlocked := q }).running = k.running from
        (unblock_stays hu).running, Function.update_of_ne hne]
      exact hcpu) (addVal_stored ha (unblock_stored hu hs)).1 (by simp)
      (by simpa [hq] using hlen) (fun _ => by dsimp only; omega) (by dsimp only; omega)
    refine ⟨k', m', ?_, ?_, ?_⟩
    · simp only [unblockAll, hu, bind, Except.bind, ha]
      exact hall
    · have hnd := hp.nodup_queue hm
      rw [hq, KList.items_cons] at hnd ⊢
      exact hd.append (hd'.of_same rfl rfl rfl)
        (List.singleton_disjoint.2 (List.nodup_cons.1 hnd).1)
    · rw [hsems']
      simp only [setSem, hsems, Function.update_idem]

/-- The destructor comes back, and has released every thread of the queue. -/
theorem deleteSem_drains (hi : k.Inv) (hs : k.Stored start total) (hr : k.Ranged)
    (hmatch : k.QueuesMatch) (hm : k.sems s = some m) :
    ∃ k', k.deleteSem s = .ok k' ∧ Drains .semDeleted m.queueBlocked.items k k' ∧
      k'.sems = Function.update k.sems s none ∧
      k'.allSemaphores.items = k.allSemaphores.items.erase s := by
  obtain ⟨loc, hl⟩ := hi.located
  have hlen : m.queueBlocked.length = (-m.val).toNat := by
    obtain ⟨h₁, h₂⟩ := hmatch s m hm
    rcases lt_or_ge m.val 0 with hneg | hpos
    · have := h₂ hneg
      omega
    · rw [h₁ hpos, List.length_nil]
      omega
  have hwoken : SemStatus.semDeleted.Woken := trivial
  obtain ⟨k₁, m₁, hu, hd, hsems⟩ := unblockAll_drains hl.placed hl.running_cpu hs hwoken hm hlen
    (fun hne => by omega) (hr s m hm).1
  have hstays := unblockAll_stays hu
  refine ⟨k₁.forgetSem s, ?_, ?_, ?_, ?_⟩
  · unfold deleteSem
    rw [show k.sem s = .ok m by simp [Kernel.sem, hm]]
    simp only [bind, Except.bind, hu]
    rfl
  · exact ⟨hd.ready, hd.asleep, hd.released, hd.others⟩
  · rw [forgetSem_sems, hsems, Function.update_idem]
  · rw [forgetSem_allSemaphores, hstays.allSemaphores]

/-! Runs. -/

def kills : Event → Bool
  | .subtleKill _ => true
  | _ => false

/-- No thread is killed, and `sem_trywait` finds a unit. -/
def Orderly (k : Kernel) (e : Event) : Prop := TriesAvailable k e ∧ kills e = false

instance (k : Kernel) (e : Event) : Decidable (Orderly k e) :=
  inferInstanceAs (Decidable (_ ∧ _))

theorem run_unkilled {es : List Event} (h₀ : boot start total = some k₀)
    (h : Run step Orderly k₀ es k) : ∀ t, k.threads t ≠ none → k.Alive t := by
  apply (run_accounted h₀ h).2
  intro t hin
  induction h with
  | nil => cases hin
  | snoc _ he _ ih =>
    rcases List.mem_append.1 hin with hin | hin
    · exact ih hin
    · rw [← List.mem_singleton.1 hin] at he
      cases he.2

theorem run_queuesMatch {es : List Event} (h₀ : boot start total = some k₀)
    (h : Run step Orderly k₀ es k) : k.QueuesMatch := by
  refine queuesMatch_iff.2 (h.invariant (fun k => k.Inv ∧ k.AllExact)
    ⟨boot_inv h₀, boot_exact h₀⟩ ?_).2
  rintro k e k' ⟨hi, he⟩ ⟨ht, -⟩ hs
  exact ⟨step_inv hs hi, step_exact hs hi ht he⟩

theorem released_alive {th : Thread} (hf : th.threadState ≠ .finished) :
    th.released cause = { th with mySem := none, semStatus := cause, threadState := .ready } :=
  if_neg hf

end Kernel
end OSK
