import RiscVKernel.Machine.Virtual

/-! Runs of the machine. Each is a run of the virtual one over the same actions, so what
holds of virtual processors holds of the real one: no register of a suspended thread is
lost, and only `main` is ever in supervisor mode. -/

namespace OSK

open Lib Kernel

variable {img : Image} {m m₀ m₁ m₂ m' : Machine} {v v₀ v' : Virtual} {k k' k₁ k₂ : Kernel} {t : Tid}
  {th : Thread} {start total : ℕ} {as : List Action} {x : Registers} {pc : UInt64} {sie : Bool}
  {mem : ℕ → UInt64} {e : Event} {c c' : VCpu} {a : Action} {b : Move} {p : Passage} {start' : Registers}
  {cpus : Tid → Option VCpu}

namespace Virtual

open Machine

/-- The running thread runs on, with the processor `c`. -/
structure Keeps (v v' : Virtual) (c : VCpu) : Prop where
  handles : v.kernel.Handles v'.kernel
  running : v'.kernel.running = v.kernel.running
  cpus : v'.cpus = Function.update v.cpus v.kernel.running (some c)

/-- The running thread is left in `dispatch`, with the processor `c` and the context `saved`, and
the thread with the record `th` is resumed or born. -/
structure Yields (img : Image) (v v' : Virtual) (c : VCpu) (saved : Context) (k₂ : Kernel)
    (th : Thread) : Prop where
  event : ∃ e, v.kernel.step e = .ok v'.kernel
  thread : k₂.threads k₂.running = some th
  resume : k₂.resume = .ok v'.kernel
  context : ∃ old, v.kernel.threads k₂.running = some old ∧
    th.context = if k₂.running = v.kernel.running then saved else old.context
  cpus : ∃ start, v'.cpus = Function.update (Function.update v.cpus v.kernel.running (some c))
    k₂.running (some (resumed img th start c.sie
      (Function.update v.cpus v.kernel.running (some c) k₂.running)))

theorem returns_running {scause : UInt64} {args : Args} {r : Option ℤ}
    (h : k.handleTrap scause args = .ok (.returns r, k')) : k'.running = k.running := by
  rcases handleTrap_ok h with ⟨e, he⟩ | ⟨-, rfl | ⟨val, ho⟩⟩
  · rcases enter_returns he with hs | ⟨body, stack, hnew⟩
    · exact hs.running
    · exact (newThread_records hnew).1
  · rfl
  · obtain ⟨p, hp, node, hp', -, -, rfl⟩ := newSem_ok ho
    rfl

/-- A trap comes back to the thread, or another one goes on. -/
theorem trap_cases {ecall : Bool} (hc : v.cpus v.kernel.running = some c)
    (h : v.trap img ecall start' = .ok v') :
    (∃ r k', v.kernel.handleTrap (c.mode.scause ecall) (Cpu.args c.x) = .ok (.returns r, k') ∧
      v' = ⟨k', Function.update v.cpus v.kernel.running (some ((c.enter ecall).back r))⟩) ∨
    ∃ saved k₁ k₂ th,
      v.kernel.handleTrap (c.mode.scause ecall) (Cpu.args c.x) = .ok (.dispatches saved, k₁) ∧
        k₁.switch saved = .ok k₂ ∧ Yields img v v' (c.enter ecall) saved k₂ th := by
  simp only [trap, hc] at h
  cases htrap : v.kernel.handleTrap (c.mode.scause ecall) (Cpu.args c.x) with
  | error e => simp [htrap] at h
  | ok r =>
    obtain ⟨r | saved, k₁⟩ := r
    · simp only [htrap, Except.ok.injEq, Function.update_idem] at h
      exact Or.inl ⟨r, k₁, rfl, h.symm⟩
    · obtain ⟨e, he⟩ := handleTrap_dispatches htrap
      cases hswitch : k₁.switch saved with
      | error f => simp [htrap, hswitch] at h
      | ok k₂ =>
        simp only [htrap, hswitch, goOn] at h
        cases hth : k₂.threads k₂.running with
        | none => simp [hth] at h
        | some th =>
          cases hr : k₂.resume with
          | error f => simp [hth, hr] at h
          | ok k' =>
            simp only [hth, hr, Except.ok.injEq] at h
            subst h
            have hevent : v.kernel.step e = .ok k' := by
              rw [step_of_dispatches he, hswitch]
              exact hr
            obtain ⟨-, -, -, hrecords⟩ := switch_records hswitch
            obtain ⟨hsheds, -⟩ := enter_dispatches he
            obtain ⟨th₁, hth₁, hc₁⟩ := hrecords _ th hth
            obtain ⟨old, hold, -, hc⟩ := hsheds.thread _ th₁ hth₁
            rw [hsheds.running, hc] at hc₁
            exact Or.inr ⟨saved, k₁, k₂, th, rfl, hswitch, ⟨e, hevent⟩, hth, hr,
              ⟨old, hold, hc₁⟩, start', rfl⟩

/-- So does every move; the thread that runs on has the mode and the interrupts it had. -/
theorem step_cases (hc : v.cpus v.kernel.running = some c) (h : v.step img b = .ok v') :
    (∃ c', Keeps v v' c' ∧ c'.mode = c.mode ∧ c'.sie = c.sie) ∨
      ∃ ecall saved k₂ th, Yields img v v' (c.enter ecall) saved k₂ th := by
  have htrap : ∀ {ecall start}, v.trap img ecall start = .ok v' →
      (∃ c', Keeps v v' c' ∧ c'.mode = c.mode ∧ c'.sie = c.sie) ∨
        ∃ ecall saved k₂ th, Yields img v v' (c.enter ecall) saved k₂ th := by
    intro ecall start h
    rcases trap_cases hc h with ⟨r, k', htrap, rfl⟩ | ⟨saved, k₁, k₂, th, -, -, hy⟩
    · obtain ⟨-, hmode, hsie, -⟩ := (c.enter ecall).back_same r
      exact Or.inl ⟨_, ⟨returns_handles htrap, returns_running htrap, rfl⟩, hmode, hsie⟩
    · exact Or.inr ⟨ecall, saved, k₂, th, hy⟩
  cases b with
  | user x pc =>
    cases h
    exact Or.inl ⟨{ c with x := x, pc := pc }, ⟨.stays rfl, rfl, by rw [hc]; rfl⟩, rfl, rfl⟩
  | subtleKill t =>
    simp only [step, hc, Option.map_some, Except.ok.injEq] at h
    subst h
    have hevent : v.kernel.step (.subtleKill t) = .ok (v.kernel.subtleKill t).2 := rfl
    exact Or.inl ⟨_, ⟨.event hevent, (subtleKill_stays v.kernel t).running, rfl⟩, rfl, rfl⟩
  | ecall start => exact htrap h
  | timer start =>
    simp only [step, hc] at h
    split_ifs at h
    exact htrap h

theorem Yields.handles {saved : Context} (hy : Yields img v v' c saved k₂ th) :
    v.kernel.Handles v'.kernel :=
  hy.event.elim fun _ he => .event he

/-- In the kernel a move is what a call of the handler is. -/
theorem step_handles (hc : v.cpus v.kernel.running = some c) (h : v.step img b = .ok v') :
    v.kernel.Handles v'.kernel := by
  rcases step_cases hc h with ⟨c', hk, -⟩ | ⟨ecall, saved, k₂, th, hy⟩
  · exact hk.handles
  · exact hy.handles

/-! Modes. -/

/-- `main` alone runs in supervisor mode, and interrupts are on in it if they were at the
start. -/
structure Moded (sie : Bool) (v : Virtual) : Prop where
  main : v.cpus mainThread ≠ none
  mode : ∀ t c, v.cpus t = some c → c.sie = sie ∧ (c.mode = .supervisor ↔ t = mainThread)

theorem Moded.update (hm : v.Moded sie) (hc : c.sie = sie)
    (hmode : c.mode = .supervisor ↔ t = mainThread)
    (hcpus : v'.cpus = Function.update v.cpus t (some c)) : v'.Moded sie := by
  refine ⟨?_, fun t' c' ht' => ?_⟩
  · rw [hcpus]
    by_cases ht : mainThread = t
    · rw [ht, Function.update_self]
      exact Option.some_ne_none _
    · rw [Function.update_of_ne ht]
      exact hm.main
  · rw [hcpus] at ht'
    by_cases ht : t' = t
    · subst ht
      rw [Function.update_self] at ht'
      obtain rfl := Option.some.inj ht'
      exact ⟨hc, hmode⟩
    · rw [Function.update_of_ne ht] at ht'
      exact hm.mode t' c' ht'

theorem step_moded (hc : v.cpus v.kernel.running = some c) (h : v.step img b = .ok v')
    (hm : v.Moded sie) : v'.Moded sie := by
  obtain ⟨hsie, hmode⟩ := hm.mode _ c hc
  rcases step_cases hc h with ⟨c', hk, hmode', hsie'⟩ | ⟨ecall, saved, k₂, th, hy⟩
  · exact hm.update (hsie'.trans hsie) (hmode' ▸ hmode) hk.cpus
  · obtain ⟨start, hcpus⟩ := hy.cpus
    have hleft : (mk k₂ (Function.update v.cpus v.kernel.running
        (some (c.enter ecall)))).Moded sie := hm.update (c := c.enter ecall) hsie hmode rfl
    -- the thread that goes on has the mode it had, or is born in user mode
    cases hnew : Function.update v.cpus v.kernel.running (some (c.enter ecall)) k₂.running with
    | none =>
      have hne : k₂.running ≠ mainThread := fun he => hleft.main (he ▸ hnew)
      rw [hnew] at hcpus
      refine hleft.update ?_ ?_ hcpus
      · exact hsie
      · simp [resumed, born, hne]
    | some c₁ =>
      rw [hnew] at hcpus
      obtain ⟨-, hmode₁, hsie₁, -⟩ := c₁.back_same th.answer
      obtain ⟨hs, hs'⟩ := hleft.mode _ c₁ hnew
      exact hleft.update (hsie₁.trans hs) (hmode₁ ▸ hs') hcpus

end Virtual

/-! The first state. -/

theorem Kernel.boot_main (hb : Kernel.boot start total = some k) :
    k.running = mainThread ∧ ∀ th, k.threads mainThread = some th → th.body = 0 := by
  obtain ⟨stack, hp, p, hp', -, -, rfl⟩ := boot_ok hb
  refine ⟨rfl, fun th hth => ?_⟩
  obtain rfl := Option.some.inj hth
  rfl

namespace Machine

theorem boot_virtual (hb : boot start total x pc sie mem = some m) (ho : img.Outside start total) :
    Hosted img start total m.kernel ∧
      ∃ v, Virtual.boot start total x pc sie = some v ∧ Virtualizes img m v := by
  obtain ⟨k, hk, rfl⟩ := Option.map_eq_some_iff.1 hb
  have hrun := (boot_main hk).1
  refine ⟨⟨boot_inv hk, boot_stored hk, ho⟩, _, by rw [Virtual.boot, hk]; rfl, rfl, ?_,
    fun t th ht hth => absurd (boot_single hk hth).1 ht, fun t ht => ?_⟩
  · dsimp only
    rw [hrun, Function.update_self]
    rfl
  · have hne : t ≠ mainThread := by
      rintro rfl
      exact absurd ht (Nat.not_lt.2 (hrun ▸ (boot_inv hk).running_named))
    dsimp only
    exact Function.update_of_ne hne _ _

/-! Runs. -/

theorem step_virtual (hh : Hosted img start total m.kernel) (hv : Virtualizes img m v)
    (h : m.step img a = .ok m') :
    ∃ v', v.step img a.move = .ok v' ∧ Virtualizes img m' v' ∧
      m.kernel.Handles m'.kernel := by
  have hm := step_matches hh hv a
  rw [h] at hm
  generalize hy : v.step img a.move = y at hm
  cases hm with
  | @ok _ v' hv' =>
    have hc : v.cpus v.kernel.running = some m.cpu.view := hv.kernel ▸ hv.running
    exact ⟨v', rfl, hv', hv.kernel ▸ hv'.kernel ▸ Virtual.step_handles hc hy⟩

/-- Every run of the machine is one of the virtual machine, step by step. -/
theorem run_virtual {P : Machine → Action → Prop} {Q : Virtual → Move → Prop}
    (h : Run (Machine.step img) P m₀ as m) (hh : Hosted img start total m₀.kernel)
    (hv : Virtualizes img m₀ v₀)
    (hPQ : ∀ m v a, Virtualizes img m v → P m a → Q v a.move) :
    ∃ v, Run (Virtual.step img) Q v₀ (as.map Action.move) v ∧ Virtualizes img m v ∧
      Hosted img start total m.kernel := by
  refine h.simulates Action.move (fun m v => Virtualizes img m v ∧ Hosted img start total m.kernel)
    ⟨hv, hh⟩ ?_
  rintro m v a m' ⟨hv, hh⟩ hP hstep
  obtain ⟨v', hstep', hv', hhandles⟩ := step_virtual hh hv hstep
  exact ⟨hPQ m v a hv hP, v', hstep', hv', hhandles.hosted hh⟩

theorem boot_run_virtual (ho : img.Outside start total)
    (hb : boot start total x pc sie mem = some m₀)
    (h : Run (Machine.step img) (fun _ _ => True) m₀ as m) :
    Hosted img start total m.kernel ∧ ∃ v₀ v, Virtual.boot start total x pc sie = some v₀ ∧
      Run (Virtual.step img) (fun _ _ => True) v₀ (as.map Action.move) v ∧ Virtualizes img m v := by
  obtain ⟨hh, v₀, hv₀, hv⟩ := boot_virtual hb ho
  obtain ⟨v, hrun, hv', hh'⟩ :=
    run_virtual (Q := fun _ _ => True) h hh hv fun _ _ _ _ _ => trivial
  exact ⟨hh', v₀, v, hv₀, hrun, hv'⟩

/-- A small machine: the stack of `main` lies behind a heap of a thousand blocks. -/
def small : Image where
  threadWrapper := 0x100
  dispatchReturn := 0x200
  wrapperReturn := 0x300
  switchFrame := 16
  wrapperFrame := 16
  sepc := 24
  sstatus := 32
  locals := 64
  bootStack := (0x20000, 0x21000)
  apart := by decide
  sepc_fits := by decide
  sstatus_fits := by decide
  separate := by decide

/-- A thread with the stack pointer `sp` calls the kernel; `pushRegisters` finds other registers, and
a new thread starts with others again. -/
def calls (pc sp : UInt64) (r : Args) : List Action :=
  let x : Registers := fun i =>
    match i.val with
    | 2 => sp
    | 10 => r.a0
    | 11 => r.a1
    | 12 => r.a2
    | 13 => r.a3
    | 14 => r.a4
    | _ => 0
  [.user x pc [], .ecall ⟨sp - 512, fun _ => 7, [], [], fun _ => 9⟩]

/-- `main` makes a thread and a semaphore, and dispatches. -/
def starting : List Action :=
  calls 0x1000 0x21000 ⟨0x01, 65, 0, 0, 0⟩ ++ calls 0x1010 0x21000 ⟨0x11, 0, 4096, 0, 9424⟩ ++
    calls 0x1020 0x21000 ⟨0x21, 0, 0, 0, 0⟩ ++ calls 0x1030 0x21000 ⟨0x13, 0, 0, 0, 0⟩

def loaded : Option Machine := boot 1024 1000 (fun _ => 0) 0 false fun _ => 0

theorem goOn_warnings (h : goOn img m p = .ok m') : m'.warnings = m.warnings := by
  unfold goOn at h
  dsimp only at h
  repeat' split at h
  all_goals cases h
  all_goals rfl

/-- Only a call from supervisor mode is looked at. -/
theorem trap_warnings {ecall : Bool} (h : m.trap img ecall p = .ok m') :
    m'.warnings = m.warnings ∨ m.cpu.mode = .supervisor ∧ m.kernel.nested = true := by
  by_cases hlook : m.cpu.mode.scause ecall = ecallS ∧ m.kernel.nested = true
  · obtain ⟨hcause, hnested⟩ := hlook
    refine Or.inr ⟨?_, hnested⟩
    cases hmode : m.cpu.mode with
    | supervisor => rfl
    | user =>
      rw [hmode] at hcause
      cases ecall <;> cases hcause
  · refine Or.inl ?_
    simp only [trap, if_neg hlook] at h
    split at h
    swap
    · cases h
    split at h
    · cases h
    · cases h
      rfl
    · split at h
      · cases h
      · have hsame := goOn_warnings h
        exact hsame

theorem step_warnings (h : m.step img a = .ok m') :
    m'.warnings = m.warnings ∨ m.cpu.mode = .supervisor ∧ m.kernel.nested = true := by
  cases a with
  | user x pc ws =>
    simp only [step] at h
    split_ifs at h
    cases h
    exact Or.inl rfl
  | subtleKill t =>
    cases h
    exact Or.inl rfl
  | ecall p => exact trap_warnings h
  | timer p =>
    simp only [step] at h
    split_ifs at h
    exact trap_warnings h

/-- What is known of a machine besides: `main` has no body, and no call was nested. -/
structure Quiet (img : Image) (start total : ℕ) (sie : Bool) (m : Machine) : Prop where
  hosted : Hosted img start total m.kernel
  virtual : ∃ v, Virtualizes img m v ∧ v.Moded sie
  body : ∀ th, m.kernel.threads mainThread = some th → th.body = 0
  warnings : m.warnings = []

theorem Quiet.mode (h : Quiet img start total sie m) :
    m.cpu.sstatus.sie = sie ∧ (m.cpu.mode = .supervisor ↔ m.kernel.running = mainThread) := by
  obtain ⟨v, hv, hm⟩ := h.virtual
  exact hm.mode _ _ hv.running

theorem boot_quiet (hb : boot start total x pc sie mem = some m) (ho : img.Outside start total) :
    Quiet img start total sie m := by
  obtain ⟨hh, v, hboot, hv⟩ := boot_virtual hb ho
  obtain ⟨k, hk, rfl⟩ := Option.map_eq_some_iff.1 hb
  obtain ⟨k', hk', rfl⟩ := Option.map_eq_some_iff.1 hboot
  refine ⟨hh, ⟨_, hv, by simp, fun t c ht => ?_⟩, (boot_main hk).2, rfl⟩
  by_cases hmain : t = mainThread
  · subst hmain
    dsimp only at ht
    rw [Function.update_self] at ht
    obtain rfl := Option.some.inj ht
    simp
  · simp [hmain] at ht

theorem step_quiet (hq : Quiet img start total sie m) (h : m.step img a = .ok m') :
    Quiet img start total sie m' := by
  obtain ⟨v, hv, hm⟩ := hq.virtual
  obtain ⟨v', hstep, hv', hhandles⟩ := step_virtual hq.hosted hv h
  have hc : v.cpus v.kernel.running = some m.cpu.view := hv.kernel ▸ hv.running
  have hID : mainThread ≤ m.kernel.ID := by
    by_contra hlt
    exact hm.main (hv.named _ (Nat.not_le.1 hlt))
  refine ⟨hhandles.hosted hq.hosted, ⟨v', hv', Virtual.step_moded hc hstep hm⟩, ?_, ?_⟩
  · intro th hth
    obtain ⟨old, hold, ho⟩ := hhandles.made hID hth
    exact (congrArg (·.1) ho).trans (hq.body old hold)
  · rcases step_warnings h with hw | ⟨hmode, hnested⟩
    · exact hw.trans hq.warnings
    · -- the call came from `main`, which has no body
      have hmain := hq.mode.2.1 hmode
      unfold nested at hnested
      rw [hmain] at hnested
      cases hth : m.kernel.threads mainThread with
      | none => simp [hth] at hnested
      | some th => simp [hth, hq.body th hth] at hnested

end Machine
end OSK
