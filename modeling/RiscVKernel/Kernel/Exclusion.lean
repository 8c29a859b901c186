import RiscVKernel.Kernel.Gates

/-! What semaphores are for. The threads that are between their `sem_wait` and their `sem_signal`
of a semaphore are never more than its first value, so that a semaphore that was opened with 1
keeps a section to one thread, wherever the threads are preempted. -/

namespace OSK

open Lib Kernel

/-- The kernel, a semaphore, and the threads that came back from their `sem_wait` of it and have
not signalled it since. -/
structure Guard where
  kernel : Kernel
  sem : SemId
  inside : List Tid

namespace Guard

inductive Fault
  | kernel (f : OSK.Fault)
  | notInside
  deriving DecidableEq, Repr

inductive Event
  | call (e : OSK.Event)
  | enter
  | leave
  deriving DecidableEq, Repr

/-- A call of the running thread, or a tick. A thread that goes on behind its `sem_wait` enters. -/
def trap (x : Guard) (e : OSK.Event) : Except Fault (Option Context × Guard) :=
  match x.kernel.stepFrom e with
  | .error f => .error (.kernel f)
  | .ok (o, k) => .ok (o, { x with
      kernel := k
      inside := if o = some (.block x.sem) then k.running :: x.inside else x.inside })

/-- `enter` is `sem_wait`, and `leave` is `sem_signal` by a thread that is inside. -/
def step (x : Guard) : Event → Except Fault Guard
  | .call e => do
    let (_, x) ← x.trap e
    return x
  | .enter => do
    let (o, x) ← x.trap (.semWait (some x.sem))
    return if o = none then { x with inside := x.kernel.running :: x.inside } else x
  | .leave =>
    if x.kernel.running ∈ x.inside then do
      let (_, x) ← { x with inside := x.inside.erase x.kernel.running }.trap (.semSignal (some x.sem))
      return x
    else .error .notInside

/-- The semaphore is used in no other way, and no thread is killed. -/
def Allowed (x : Guard) : Event → Prop
  | .call e => handle e ≠ some x.sem ∧ victim e = none
  | _ => True

instance (x : Guard) : (e : Event) → Decidable (Allowed x e)
  | .call _ => inferInstanceAs (Decidable (_ ∧ _))
  | .enter => isTrue trivial
  | .leave => isTrue trivial

variable {x x' x₀ : Guard} {e : Event} {es : List Event} {n start total : ℕ}

theorem trap_ok {e : OSK.Event} {o : Option Context} (h : x.trap e = .ok (o, x')) :
    ∃ k, x.kernel.stepFrom e = .ok (o, k) ∧ x' = { x with
      kernel := k
      inside := if o = some (.block x.sem) then k.running :: x.inside else x.inside } := by
  unfold trap at h
  cases hk : x.kernel.stepFrom e with
  | error f =>
    rw [hk] at h
    cases h
  | ok r =>
    rw [hk] at h
    cases h
    exact ⟨_, rfl, rfl⟩

/-- What the steps keep: each of the `n` units is free, inside, or on its way there. -/
structure Keeps (n : ℕ) (x : Guard) : Prop where
  inv : x.kernel.Inv
  untimed : x.kernel.Untimed x.sem
  gate : ∃ g, x.kernel.Gated x.sem g ∧ g.Sound n x.inside.length

/-- The rest of a call, from the gate it leaves; `m` threads come in behind it. -/
theorem Keeps.rest {e : OSK.Event} {o : Option Context} {g : Gate Tid} {m : ℕ} (hx : x.Keeps n)
    (h : x.trap e = .ok (o, x')) (hv : victim e = none)
    (he : ∀ t, e ≠ .semTimedwait (some x.sem) t)
    (hc : ∀ k, x.kernel.stepFrom e = .ok (o, k) → x.kernel.Called x.sem e o k g)
    (hg : g.Sound n (x.inside.length + m)) :
    x'.kernel.Inv ∧ x'.kernel.Untimed x'.sem ∧
      ∃ g', x'.kernel.Gated x'.sem g' ∧ g'.Sound n (x'.inside.length + m) := by
  obtain ⟨k, hk, rfl⟩ := trap_ok h
  refine ⟨step_inv (stepFrom_step hk) hx.inv, hx.untimed.step hk he, ?_⟩
  obtain ⟨g', hrun, hg'⟩ := (hc k hk).passes hk hx.inv hv
  refine ⟨g', hg', ?_⟩
  unfold passing at hrun
  by_cases ho : o = some (.block x.sem)
  · rw [if_pos ho] at hrun
    rw [if_pos ho, List.length_cons, Nat.add_right_comm]
    exact hg.resume hrun.one.2
  · rw [if_neg ho] at hrun
    rw [if_neg ho]
    obtain rfl := hrun.stays rfl
    exact hg

theorem call_keeps {e : OSK.Event} (h : x.step (.call e) = .ok x') (hx : x.Keeps n)
    (he : handle e ≠ some x.sem) (hv : victim e = none) : x'.Keeps n := by
  obtain ⟨⟨o, x₁⟩, htrap, h⟩ := bind_ok h
  cases h
  obtain ⟨g, hg, hsound⟩ := hx.gate
  have htimed : ∀ t, e ≠ .semTimedwait (some x.sem) t := by
    rintro t rfl
    exact he rfl
  obtain ⟨hi, hu, hgate⟩ := hx.rest (m := 0) htrap hv htimed
    (fun _ hk => hg.other hk hx.inv hx.untimed he) hsound
  exact ⟨hi, hu, hgate⟩

theorem enter_keeps (h : x.step .enter = .ok x') (hx : x.Keeps n) : x'.Keeps n := by
  obtain ⟨⟨o, x₁⟩, htrap, h⟩ := bind_ok h
  cases h
  obtain ⟨g, hg, hsound⟩ := hx.gate
  obtain ⟨k, hk, -⟩ := trap_ok htrap
  have hnow := (hg.wait hk hx.untimed).1
  have hcalled : ∀ k, x.kernel.stepFrom (.semWait (some x.sem)) = .ok (o, k) →
      x.kernel.Called x.sem (.semWait (some x.sem)) o k (g.wait x.kernel.running) :=
    fun _ hk => (hg.wait hk hx.untimed).2
  by_cases ho : o = none
  · -- the caller comes back at once, and is inside
    have hpass := hsound.passes (a := x.kernel.running) (hnow.1 ho)
    obtain ⟨hi, hu, hgate⟩ := hx.rest (m := 1) htrap rfl (by simp) hcalled hpass
    rw [if_pos ho]
    exact ⟨hi, hu, hgate⟩
  · have hblock := hsound.blocks (a := x.kernel.running) (Int.not_le.1 (mt hnow.2 ho))
    obtain ⟨hi, hu, hgate⟩ := hx.rest (m := 0) htrap rfl (by simp) hcalled hblock
    rw [if_neg ho]
    exact ⟨hi, hu, hgate⟩

theorem leave_keeps (h : x.step .leave = .ok x') (hx : x.Keeps n) : x'.Keeps n := by
  have h : (if x.kernel.running ∈ x.inside then do
    let (_, x) ← { x with inside := x.inside.erase x.kernel.running }.trap (.semSignal (some x.sem))
    return x
    else Except.error Fault.notInside) = .ok x' := h
  split_ifs at h with hin
  obtain ⟨⟨o, x₁⟩, htrap, h⟩ := bind_ok h
  cases h
  obtain ⟨g, hg, hsound⟩ := hx.gate
  obtain ⟨k, hk, rfl⟩ := trap_ok htrap
  obtain ⟨rfl, g₁, hs, hc⟩ := hg.signal hk
  obtain ⟨g', hrun, hg'⟩ := hc.passes hk hx.inv rfl
  obtain rfl := hrun.stays rfl
  refine ⟨step_inv (stepFrom_step hk) hx.inv, hx.untimed.step hk (by simp), g', hg', ?_⟩
  rw [← List.length_erase_add_one hin] at hsound
  exact hsound.signal hs

theorem step_keeps (h : x.step e = .ok x') (hx : x.Keeps n) (hp : Allowed x e) : x'.Keeps n := by
  cases e with
  | call e => exact call_keeps h hx hp.1 hp.2
  | enter => exact enter_keeps h hx
  | leave => exact leave_keeps h hx

/-- The semaphore has just been opened, after anything the kernel may have done before. -/
def Opens (start total : ℕ) (n : UInt32) (x : Guard) : Prop :=
  ∃ kb es k, boot start total = some kb ∧ Run Kernel.step (fun _ _ => True) kb es k ∧
    k.step (.semOpen n) = .ok x.kernel ∧ x.sem = k.nextSem ∧ x.inside = []

theorem Opens.keeps {n : UInt32} (h : Opens start total n x) : x.Keeps n.toNat := by
  obtain ⟨kb, es, k, hb, hrun, hopen, hsem, hinside⟩ := h
  obtain ⟨hu, hg⟩ := newSem_gated (run_known hb hrun) hopen
  rw [← hsem] at hu hg
  refine ⟨run_inv (hrun.snoc trivial hopen) (boot_inv hb), hu, _, hg, ?_⟩
  rw [hinside]
  exact Gate.sound_start

/-- Of a semaphore that was opened with `n`, no more than `n` units are with the threads that are
inside and those that have been woken to go there; when a thread waits it is all of them. Opened
with 1, it lets one thread in. -/
theorem exclusive {n : UInt32} (hs : Opens start total n x₀) (h : Run step Allowed x₀ es x) :
    (∃ ts : List Tid, ts.Nodup ∧ (∀ t, t ∈ ts ↔ t ≠ x.kernel.running ∧
        x.kernel.Resumes t (.block x.sem) ∧ t ∉ x.kernel.waiters x.sem) ∧
      x.inside.length + ts.length ≤ n.toNat ∧
      (x.kernel.waiters x.sem ≠ [] → x.inside.length + ts.length = n.toNat)) ∧
    (n = 1 → ∀ t ∈ x.inside, ∀ t' ∈ x.inside, t' = t) := by
  have hx : x.Keeps n.toNat := h.invariant (Keeps n.toNat) hs.keeps
    fun _ _ _ hx hp hs => step_keeps hs hx hp
  obtain ⟨g, hg, hsound⟩ := hx.gate
  obtain ⟨-, hnw, hdisj⟩ := List.nodup_append'.1 hg.apart
  refine ⟨⟨g.woken, hnw, fun t => ⟨fun ht => ?_, ?_⟩, hsound.le, fun hne => ?_⟩, ?_⟩
  · obtain ⟨hrun, hr⟩ := (hg.waits t).1 (Or.inr ht)
    exact ⟨hrun, hr, fun hin => hdisj (hg.waiters ▸ hin) ht⟩
  · rintro ⟨hrun, hr, hout⟩
    exact ((hg.waits t).2 ⟨hrun, hr⟩).resolve_left fun hin => hout (hg.waiters.symm ▸ hin)
  · rw [hg.waiters] at hne
    exact hsound.busy hne
  · rintro rfl t ht t' ht'
    have hle : x.inside.length ≤ 1 := (Nat.le_add_right _ _).trans hsound.le
    obtain ⟨u, hu⟩ : ∃ u, x.inside = [u] := List.length_eq_one_iff.1
      (Nat.le_antisymm hle (List.length_pos_of_mem ht))
    rw [hu, List.mem_singleton] at ht ht'
    rw [ht, ht']

/-- The main thread is preempted inside, the two others line up, and the first of them goes in
when it has left. -/
theorem exclusive_two : ∃ x₀ x, Opens 1024 1000 1 x₀ ∧
    Run step Allowed x₀ [.enter, .call .threadDispatch, .enter, .enter, .leave,
      .call .threadDispatch] x ∧ x.inside = [2] ∧ x.kernel.waiters x.sem = [3] ∧
    ∀ t ∈ x.inside, ∀ t' ∈ x.inside, t' = t := by
  have hrun : ((boot 1024 1000).bind fun kb => exec Kernel.step (fun _ _ => True) kb [.memAlloc 65,
      .threadCreate 4096 5328, .memAlloc 65, .threadCreate 4096 9680]).any (fun k =>
        (exec Kernel.step (fun _ _ => True) k [.semOpen 1]).any fun k₁ =>
          (exec step Allowed ⟨k₁, k.nextSem, []⟩ [.enter, .call .threadDispatch, .enter,
            .enter, .leave, .call .threadDispatch]).any fun x =>
              x.inside = [2] ∧ x.kernel.waiters x.sem = [3]) = true := by
    decide +kernel
  obtain ⟨kb, k, hb, h₀, hq⟩ := exists_run hrun
  obtain ⟨k₁, hone, hq⟩ := exists_run_from hq
  obtain ⟨x, h, hx⟩ := exists_run_from hq
  obtain ⟨hin, hwait⟩ := of_decide_eq_true hx
  have hs : Opens 1024 1000 1 ⟨k₁, k.nextSem, []⟩ := ⟨kb, _, k, hb, h₀, hone.one.2, rfl, rfl⟩
  exact ⟨_, x, hs, h, hin, hwait, (exclusive hs h).2 rfl⟩

end Guard
end OSK
