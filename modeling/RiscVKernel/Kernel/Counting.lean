import RiscVKernel.Kernel.Faults
import RiscVKernel.Kernel.Values

/-! Semaphores count. As long as `sem_trywait` is only called while the value is
positive, the value of a semaphore says how many threads its queue holds, and
`unblock` never finds the queue empty. Without `sem_trywait` no unit is handed
out twice and no wake-up is lost. -/

namespace OSK

open Lib

/-- The semaphore an event tries to take a unit from without waiting. -/
def tried : Event → Option SemId
  | .semTrywait s => s
  | _ => none

namespace Kernel

variable {k k' k₀ : Kernel} {t : Tid} {s : SemId} {f : Fault} {c : Context} {cause : SemStatus}

/-- A step that dereferences a null thread finds a semaphore with a shorter queue
than its value owes. -/
theorem step_nullThread {e : Event} (h : k.step e = .error .nullThread) (hi : k.Inv) :
    ∃ s m, k.sems s = some m ∧ (m.queueBlocked.length : ℤ) < -m.val := by
  rcases step_error h hi with ho | hn | ⟨s, -, ⟨hf, -⟩ | ⟨-, m, hm, hlt⟩⟩
  · exact ho.elim
  · cases hn
  · cases hf
  · exact ⟨s, m, hm, hlt⟩

/-! Values and queues. -/

/-- The queue of every open semaphore holds the threads its value owes. -/
def QueuesMatch (k : Kernel) : Prop :=
  ∀ s m, k.sems s = some m →
    (0 ≤ m.val → m.queueBlocked = []) ∧ (m.val < 0 → (m.queueBlocked.length : ℤ) = -m.val)

/-- `sem_trywait` is only called while the value is positive. -/
def TriesAvailable (k : Kernel) (e : Event) : Prop :=
  ∀ m ∈ (tried e).bind k.sems, 0 < m.val

instance (k : Kernel) (e : Event) : Decidable (TriesAvailable k e) :=
  inferInstanceAs (Decidable (∀ m ∈ (tried e).bind k.sems, 0 < m.val))

/-- All accounts are exact. -/
def AllExact (k : Kernel) : Prop := ∀ s c, k.counter s = some c → c.Exact

theorem queuesMatch_iff : k.QueuesMatch ↔ k.AllExact := by
  constructor
  · intro hq s c hc
    obtain ⟨m, hm, rfl⟩ := Option.map_eq_some_iff.1 hc
    obtain ⟨h1, h2⟩ := hq s m hm
    unfold Counter.Exact
    rcases lt_or_ge m.val 0 with hv | hv
    · have := h2 hv
      simp only
      omega
    · simp only [h1 hv, List.length_nil]
      omega
  · intro he s m hm
    have := he s _ (counter_some hm)
    unfold Counter.Exact at this
    simp only at this
    refine ⟨fun hv => List.length_eq_zero_iff.1 (by omega), fun hv => by omega⟩

theorem step_exact {e : Event} (h : k.step e = .ok k') (hi : k.Inv) (ht : TriesAvailable k e)
    (he : k.AllExact) : k'.AllExact := by
  intro s c' hc'
  by_cases ho : ∃ n, e = .semOpen n ∧ s = k.nextSem
  · obtain ⟨n, rfl, rfl⟩ := ho
    rw [semOpen_counter h hi, Option.some.injEq] at hc'
    subst hc'
    simp [Counter.Exact]
  · have htr := step_tracks h hi (s := s) fun n hn hs => ho ⟨n, hn, hs⟩
    cases hc : k.counter s with
    | none =>
      have := (htr.closed (counter_none.1 hc)).1
      rw [← counter_none, hc'] at this
      cases this
    | some c =>
      refine (htr.live c c' hc hc').exact ?_ (he s c hc)
      intro v hv
      obtain ⟨rfl, c₀, hc₀, rfl⟩ := hv
      obtain ⟨m, hm, rfl⟩ := Option.map_eq_some_iff.1 hc₀
      exact ht m (by simpa [tried] using hm)

theorem boot_exact {start total : ℕ} (h : boot start total = some k) : k.AllExact := by
  obtain ⟨stack, hp, p, hp', -, -, rfl⟩ := boot_ok h
  intro s c hc
  simp [Kernel.counter, bootState] at hc

/-- A `sem_trywait` that finds no unit leaves a value that owes one thread more
than the queue holds. -/
theorem tryWait_unmatched {m : Sem} (h : k.step (.semTrywait (some s)) = .ok k')
    (hm : k.sems s = some m) (hv : m.val ≤ 0) (hq : k.QueuesMatch) : ¬k'.QueuesMatch := by
  intro hq'
  obtain ⟨h1, h2⟩ := hq s m hm
  have hm' : k'.sems s = some { m with val := m.val + -1 } := by
    cases step_effect h with
    | idle he => cases he
    | semTrywait s ha => exact addVal_sem ha hm
  have h3 := (hq' s _ hm').2 (by simp only; omega)
  simp only at h3
  rcases lt_or_ge m.val 0 with hneg | hpos
  · have := h2 hneg
    omega
  · rw [h1 hpos, List.length_nil] at h3
    omega

/-- In a run whose calls of `sem_trywait` all find a unit, every open semaphore
has the queue its value says, and no step takes a thread from an empty queue.
The first call that finds none ends this. -/
theorem queues_match {start total : ℕ} {es : List Event} (h₀ : boot start total = some k₀)
    (h : Run step TriesAvailable k₀ es k) :
    k.QueuesMatch ∧ (∀ e, k.step e ≠ .error .nullThread) ∧
      ∀ s m k', k.sems s = some m → m.val ≤ 0 → k.step (.semTrywait (some s)) = .ok k' →
        ¬k'.QueuesMatch := by
  have hie : k.Inv ∧ k.AllExact := by
    refine h.invariant (fun k => k.Inv ∧ k.AllExact) ⟨boot_inv h₀, boot_exact h₀⟩ ?_
    intro k e k' hk ht hs
    exact ⟨step_inv hs hk.1, step_exact hs hk.1 ht hk.2⟩
  have hq := queuesMatch_iff.2 hie.2
  refine ⟨hq, fun e he => ?_, fun s m k' hm hv hs => tryWait_unmatched hs hm hv hq⟩
  obtain ⟨s, m, hm, hlt⟩ := step_nullThread he hie.1
  have := hie.2 s _ (counter_some hm)
  unfold Counter.Exact at this
  simp only at this
  omega

/-- A unit is tried for and found, then the only thread waits for the next one
while a second thread runs. -/
theorem queues_match_two : ∃ k₀ k, boot 1024 1000 = some k₀ ∧
    Run step TriesAvailable k₀ [.memAlloc 65, .threadCreate 4096 5328, .semOpen 1,
      .semTrywait (some 0), .semWait (some 0)] k ∧
      k.QueuesMatch ∧ (∀ e, k.step e ≠ .error .nullThread) ∧
      ∀ s m k', k.sems s = some m → m.val ≤ 0 → k.step (.semTrywait (some s)) = .ok k' →
        ¬k'.QueuesMatch := by
  have hrun : ((boot 1024 1000).bind fun k => exec step TriesAvailable k [.memAlloc 65,
      .threadCreate 4096 5328, .semOpen 1, .semTrywait (some 0), .semWait (some 0)]).any
      (fun _ => true) = true := by rfl
  obtain ⟨k₀, k, h₀, h, -⟩ := exists_run hrun
  exact ⟨k₀, k, h₀, h, queues_match h₀ h⟩

/-- After one `sem_trywait` on a semaphore opened with 0 its value is -1 and its
queue is empty, and the next `sem_signal` dereferences null. -/
theorem queues_match_fails : ∃ k₀ k, boot 1024 1000 = some k₀ ∧
    Run step (fun _ _ => True) k₀ [.semOpen 0, .semTrywait (some 0)] k ∧
      ¬k.QueuesMatch ∧ k.step (.semSignal (some 0)) = .error .nullThread := by
  have hrun : ((boot 1024 1000).bind fun k => exec step (fun _ _ => True) k [.semOpen 0,
      .semTrywait (some 0)]).any (fun k =>
        k.sems 0 = some ⟨-1, [], 0⟩ ∧
          faultOf (k.step (.semSignal (some 0))) = some .nullThread) = true := by rfl
  obtain ⟨k₀, k, h₀, h, hk⟩ := exists_run hrun
  obtain ⟨hm, hf⟩ := of_decide_eq_true hk
  refine ⟨k₀, k, h₀, h, ?_, faultOf_eq_some.1 hf⟩
  intro hq
  have := (hq 0 _ hm).2 (by decide)
  simp at this

/-! Units of one semaphore. -/

/-- The account of `s` is exact and holds what it was opened with, while `s` is
open. -/
def Conserves (s : SemId) (n : ℕ) (k : Kernel) : Prop :=
  k.Inv ∧ s < k.nextSem ∧ ∀ c, k.counter s = some c → c.Exact ∧ c.stock = n

theorem step_conserves {e : Event} {n : ℕ} (h : k.step e = .ok k')
    (ht : e ≠ .semTrywait (some s)) (hk : Conserves s n k) : Conserves s n k' := by
  obtain ⟨hi, hlt, hc⟩ := hk
  have hsem := (step_fresh h hi).2.2.1
  refine ⟨step_inv h hi, hlt.trans_le hsem, ?_⟩
  intro c' hc'
  have htr := step_tracks h hi (s := s) fun _ _ => Nat.ne_of_lt hlt
  have hno : ∀ v, ¬k.Tries e s v := fun v hv => ht hv.1
  cases hcs : k.counter s with
  | none =>
    have := (htr.closed (counter_none.1 hcs)).1
    rw [← counter_none, hc'] at this
    cases this
  | some c =>
    have hsteps := htr.live c c' hcs hc'
    obtain ⟨h1, h2⟩ := hc c hcs
    exact ⟨hsteps.exact (fun v hv => absurd hv (hno v)) h1, (hsteps.stock hno).trans h2⟩

/-- `tryWait` does what `wait` would do: where the test `--val >= 0` of `wait`
holds it reports that and leaves the state `wait` leaves, and where it fails it
reports that and leaves the semaphores and threads as they were. -/
def TryAgrees (k : Kernel) (s : SemId) (m : Sem) : Prop :=
  (0 ≤ m.val - 1 → ∃ kt, k.tryWait s = .ok (1, kt) ∧
    k.wait s = .ok (kt.note (.answer k.running s .didntWait))) ∧
  (m.val - 1 < 0 → ∃ kt, k.tryWait s = .ok (0, kt) ∧ kt.sems = k.sems ∧ kt.threads = k.threads)

theorem tryWait_val {m : Sem} {r : ℤ × Kernel} (h : k.tryWait s = .ok r) (hm : k.sems s = some m) :
    r.1 = (if m.val < 0 then 0 else 1) ∧
      r.2.sems = Function.update k.sems s (some { m with val := m.val - 1 }) := by
  obtain ⟨m', hm', h⟩ := bind_ok h
  obtain rfl : m = m' := Option.some.inj (hm.symm.trans (sem_ok hm'))
  obtain ⟨r', ha, hr⟩ := bind_ok h
  obtain ⟨m', hm', -, rfl⟩ := addVal_ok ha
  obtain rfl : m = m' := Option.some.inj (hm.symm.trans hm')
  cases hr
  exact ⟨rfl, rfl⟩

theorem tryWait_agrees_of_pos {m : Sem} (hm : k.sems s = some m) (hv : 0 < m.val)
    (hmax : m.val < 2 ^ 63) : TryAgrees k s m := by
  refine ⟨?_, fun hneg => by omega⟩
  intro _
  have hsem : k.sem s = .ok m := by simp [Kernel.sem, hm]
  have ha : k.addVal s (-1) = .ok (m.val + -1, k.setSem s { m with val := m.val + -1 }) := by
    unfold addVal
    rw [hsem]
    simp only [bind, Except.bind]
    rw [if_pos ⟨by omega, by omega⟩]
    rfl
  refine ⟨k.setSem s { m with val := m.val + -1 }, ?_, ?_⟩
  · unfold tryWait
    simp only [hsem, ha, bind, Except.bind, if_neg (not_lt.2 hv.le)]
    rfl
  · unfold wait
    simp only [ha, bind, Except.bind]
    rw [if_pos (by omega)]
    rfl

/-- In every reachable state, whatever happened to the semaphore before,
`sem_trywait` agrees with `sem_wait` exactly when there is a unit. Where there is
none `val` is one less after it, and at 0 it also claims that there was one. -/
theorem tryWait_agrees_iff {start total : ℕ} {es : List Event} {m : Sem}
    (h₀ : boot start total = some k₀) (h : Run step (fun _ _ => True) k₀ es k)
    (hm : k.sems s = some m) : TryAgrees k s m ↔ 0 < m.val := by
  constructor
  · intro ha
    by_contra hv
    obtain ⟨kt, htry, hsems, -⟩ := ha.2 (by omega)
    have hval := (tryWait_val htry hm).2
    rw [hsems] at hval
    have hs := congrFun hval s
    rw [hm, Function.update_self, Option.some.injEq] at hs
    have hsame : m.val = m.val - 1 := congrArg Sem.val hs
    omega
  · intro hv
    exact tryWait_agrees_of_pos hm hv (run_ranged h₀ h s m hm).2

theorem tryWait_agrees_one : ∃ k₀ k m, boot 1024 1000 = some k₀ ∧
    Run step (fun _ _ => True) k₀ [.semOpen 1] k ∧ k.sems 0 = some m ∧
      (TryAgrees k 0 m ↔ 0 < m.val) := by
  have hrun : ((boot 1024 1000).bind fun k => exec step (fun _ _ => True) k [.semOpen 1]).any
      (fun k => k.sems 0 = some ⟨1, [], 0⟩) = true := by rfl
  obtain ⟨k₀, k, h₀, h, hk⟩ := exists_run hrun
  have hm := of_decide_eq_true hk
  exact ⟨k₀, k, _, h₀, h, hm, tryWait_agrees_iff h₀ h hm⟩

/-- On a semaphore opened with 0 `sem_trywait` says that it would not wait. -/
theorem tryWait_agrees_fails : ∃ k₀ k m, boot 1024 1000 = some k₀ ∧
    Run step (fun _ _ => True) k₀ [.semOpen 0] k ∧ k.sems 0 = some m ∧
      (k.tryWait 0).toOption.map (·.1) = some 1 ∧ ¬TryAgrees k 0 m := by
  have hrun : ((boot 1024 1000).bind fun k => exec step (fun _ _ => True) k [.semOpen 0]).any
      (fun k => k.sems 0 = some ⟨0, [], 0⟩ ∧ (k.tryWait 0).toOption.map (·.1) = some 1) = true := by
    rfl
  obtain ⟨k₀, k, h₀, h, hk⟩ := exists_run hrun
  obtain ⟨hm, htry⟩ := of_decide_eq_true hk
  refine ⟨k₀, k, _, h₀, h, hm, htry, ?_⟩
  intro ha
  obtain ⟨kt, htry', -⟩ := ha.2 (by decide)
  rw [htry'] at htry
  cases htry

end Kernel
end OSK
