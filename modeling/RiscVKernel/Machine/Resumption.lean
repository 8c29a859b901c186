import RiscVKernel.Machine.Runs

/-! What a thread sees of the others when it goes on after a trap: nothing but the result
of its call. -/

namespace OSK

open Lib Kernel

variable {img : Image} {m m₀ m₁ m₂ : Machine} {v v' : Virtual} {k k' k₂ : Kernel} {t : Tid}
  {th : Thread} {start total : ℕ} {as as' : List Action} {x start' : Registers} {pc : UInt64}
  {sie ecall : Bool} {mem : ℕ → UInt64} {e : Event} {c c' : VCpu} {a : Action} {b : Move}
  {p : Passage} {s : SemId} {saved : Context}

namespace Virtual

theorem Yields.running (h : Yields img v v' c saved k₂ th) : v'.kernel.running = k₂.running :=
  (resume_stays h.resume).running

/-- The thread that goes on gets its result. -/
theorem Yields.resumes (h : Yields img v v' c saved k₂ th)
    (ht : Function.update v.cpus v.kernel.running (some c) v'.kernel.running = some c') :
    v'.cpus v'.kernel.running = some (c'.back th.answer) := by
  obtain ⟨start, hcpus⟩ := h.cpus
  rw [h.running] at ht ⊢
  rw [hcpus, Function.update_self, ht]
  rfl

/-- The others keep what they have. -/
theorem Yields.others (h : Yields img v v' c saved k₂ th) (ht : v'.kernel.running ≠ t) :
    v'.cpus t = Function.update v.cpus v.kernel.running (some c) t := by
  obtain ⟨start, hcpus⟩ := h.cpus
  rw [h.running] at ht
  rw [hcpus, Function.update_of_ne ht.symm]

/-- `t` waits to go on with the processor `c`, or has gone on with it. -/
def Left (t : Tid) (c : VCpu) (v : Virtual) : Prop :=
  v.kernel.running ≠ t ∧ v.cpus t = some c ∨
    v.kernel.running = t ∧ ∃ r, v.cpus t = some (c.back r)

theorem Yields.left (h : Yields img v v' c' saved k₂ th)
    (ht : Function.update v.cpus v.kernel.running (some c') t = some c) : Left t c v' := by
  by_cases hrun : v'.kernel.running = t
  · subst hrun
    exact Or.inr ⟨rfl, th.answer, h.resumes ht⟩
  · exact Or.inl ⟨hrun, (h.others hrun).trans ht⟩

theorem trap_left (hc : v.cpus v.kernel.running = some c)
    (h : v.trap img ecall start' = .ok v') : Left v.kernel.running (c.enter ecall) v' := by
  rcases trap_cases hc h with ⟨r, k', htrap, rfl⟩ | ⟨saved, k₁, k₂, th, -, -, hy⟩
  · exact Or.inr ⟨returns_running htrap, r, Function.update_self ..⟩
  · exact hy.left (Function.update_self ..)

theorem step_left (hc : v.cpus v.kernel.running = some c') (h : v.step img b = .ok v')
    (hne : v.kernel.running ≠ t) (ht : v.cpus t = some c) : Left t c v' := by
  rcases step_cases hc h with ⟨c', hk, -⟩ | ⟨ecall, saved, k₂, th, hy⟩
  · refine Or.inl ⟨hk.running ▸ hne, ?_⟩
    rw [hk.cpus, Function.update_of_ne hne.symm]
    exact ht
  · refine hy.left ?_
    rw [Function.update_of_ne hne.symm]
    exact ht

end Virtual

namespace Machine

/-- A trap of the machine is one of the virtual machine. -/
theorem trap_virtual (hh : Hosted img start total m.kernel) (hv : Virtualizes img m v)
    (h : m.trap img ecall p = .ok m₁) :
    ∃ v₁, v.trap img ecall p.start = .ok v₁ ∧ Virtualizes img m₁ v₁ ∧
      Hosted img start total m₁.kernel := by
  have hm := trap_matches hh hv ecall p
  rw [h] at hm
  generalize hy : v.trap img ecall p.start = y at hm
  cases hm with
  | @ok _ v₁ hv₁ =>
    have hc : v.cpus v.kernel.running = some m.cpu.view := hv.kernel ▸ hv.running
    have hhandles : v.kernel.Handles v₁.kernel := by
      rcases Virtual.trap_cases hc hy with ⟨r, k', htrap, rfl⟩ | ⟨saved, k₁, k₂, th, -, -, hyield⟩
      · exact returns_handles htrap
      · exact hyield.handles
    rw [hv.kernel, hv₁.kernel] at hhandles
    exact ⟨v₁, rfl, hv₁, hhandles.hosted hh⟩

/-- A machine with a thread that waits to go on with `c`, or has gone on with it. -/
structure Suspends (img : Image) (start total : ℕ) (t : Tid) (c : VCpu) (m : Machine) : Prop where
  hosted : Hosted img start total m.kernel
  left : ∃ v, Virtualizes img m v ∧ v.Left t c

theorem step_suspends (hs : Suspends img start total t c m) (hne : m.kernel.running ≠ t)
    (h : m.step img a = .ok m₁) : Suspends img start total t c m₁ := by
  obtain ⟨v, hv, hl⟩ := hs.left
  obtain ⟨v', hstep, hv', hhandles⟩ := step_virtual hs.hosted hv h
  have hc : v.cpus v.kernel.running = some m.cpu.view := hv.kernel ▸ hv.running
  rw [← hv.kernel] at hne
  obtain ⟨-, ht⟩ := hl.resolve_right fun hr => hne hr.1
  exact ⟨hhandles.hosted hs.hosted, v', hv', Virtual.step_left hc hstep hne ht⟩

theorem Suspends.resumes (hs : Suspends img start total t c m) (ht : m.kernel.running = t) :
    ∃ r, m.cpu.view = c.back r := by
  obtain ⟨v, hv, hl⟩ := hs.left
  obtain ⟨-, r, hr⟩ := hl.resolve_left fun hn => hn.1 (hv.kernel ▸ ht)
  rw [← ht, hv.running] at hr
  exact ⟨r, Option.some.inj hr⟩

/-- Where a wait of `t` for `s` leaves its thread. -/
def WaitContext (s : SemId) (c : Context) : Prop := c = .block s ∨ c = .timedBlock s

theorem enter_waitCall {o : Outcome} (he : WaitCall s e) (h : k.enter e = .ok (o, k')) :
    o = .returns (some WaitAnswer.didntWait.code) ∨ ∃ c, WaitContext s c ∧ o = .dispatches c := by
  rcases he with rfl | ⟨n, rfl⟩
  · have h : k.enterWait s = .ok (o, k') := h
    obtain ⟨⟨val, k₁⟩, -, h⟩ := bind_ok h
    dsimp only at h
    split_ifs at h
    · cases h
      exact Or.inl rfl
    · obtain ⟨k₂, -, h⟩ := bind_ok h
      cases h
      exact Or.inr ⟨_, Or.inl rfl, rfl⟩
  · have h : k.enterTimedWait s n = .ok (o, k') := h
    obtain ⟨⟨val, k₁⟩, -, h⟩ := bind_ok h
    dsimp only at h
    split_ifs at h
    · cases h
      exact Or.inl rfl
    · obtain ⟨k₂, -, h⟩ := bind_ok h
      cases h
      exact Or.inr ⟨_, Or.inr rfl, rfl⟩

theorem handleTrap_call {mode : Mode} {args : Args} {o : Outcome} (hd : k.decode args = .event e)
    (h : k.handleTrap (mode.scause true) args = .ok (o, k')) : k.enter e = .ok (o, k') := by
  have hcause : mode.scause true = ecallU ∨ mode.scause true = ecallS := by
    cases mode
    · exact Or.inl rfl
    · exact Or.inr rfl
  unfold handleTrap ecallHandler at h
  rw [if_pos hcause, hd] at h
  cases hx : k.enter e with
  | error f => simp [hx, Except.mapError] at h
  | ok r => simpa [hx, Except.mapError] using h

/-- A thread that goes on from a wait gives the answer that it notes. -/
theorem resume_answer (hr : k₂.resume = .ok k') (hth : k₂.threads k₂.running = some th)
    (hc : WaitContext s th.context) : ∃ l a, k'.log k₂.running = l ++ [.answer k₂.running s a] ∧
      th.answer = some a.code := by
  refine ⟨k₂.log k₂.running, th.semStatus.answer, ?_, ?_⟩
  · rw [resume_log hr hth, if_pos rfl, Thread.answers]
    rcases hc with hc | hc <;> rw [hc]
  · rw [Thread.answer]
    rcases hc with hc | hc <;> rw [hc]

/-- So its call comes back with it. -/
theorem yields_answer (hy : Virtual.Yields img v v' c' saved k₂ th) (hc : WaitContext s th.context)
    (ht : Function.update v.cpus v.kernel.running (some c') v'.kernel.running = some c)
    (hcalls : c.calls = true) :
    ∃ l a, v'.kernel.log v'.kernel.running = l ++ [.answer v'.kernel.running s a] ∧
      ∃ c₁, v'.cpus v'.kernel.running = some c₁ ∧ c₁.x a0 = register a.code := by
  obtain ⟨l, a, hlog, ha⟩ := resume_answer hy.resume hy.thread hc
  have hback := hy.resumes ht
  rw [← hy.running] at hlog
  refine ⟨l, a, hlog, _, hback, ?_⟩
  rw [ha]
  simp [VCpu.back, hcalls]

theorem step_answer (hs : Suspends img start total t c m) (hcalls : c.calls = true)
    (hne : m.kernel.running ≠ t)
    (hctx : ∀ th, m.kernel.threads t = some th → WaitContext s th.context)
    (h : m.step img a = .ok m₁) (ht : m₁.kernel.running = t) :
    ∃ l ans, m₁.kernel.log t = l ++ [.answer t s ans] ∧ m₁.cpu.x a0 = register ans.code := by
  obtain ⟨v, hv, hl⟩ := hs.left
  obtain ⟨v₁, hstep, hv₁, -⟩ := step_virtual hs.hosted hv h
  have hc : v.cpus v.kernel.running = some m.cpu.view := hv.kernel ▸ hv.running
  rw [← hv.kernel] at hne hctx
  obtain ⟨-, hcpu⟩ := hl.resolve_right fun hr => hne hr.1
  have hrun : v₁.kernel.running = t := hv₁.kernel ▸ ht
  rcases Virtual.step_cases hc hstep with ⟨c₁, hk, -⟩ | ⟨ecall, saved, k₂, th, hy⟩
  · exact absurd (hk.running.symm.trans hrun) hne
  · obtain ⟨old, hold, hcontext⟩ := hy.context
    rw [← hy.running, hrun] at hold hcontext
    rw [if_neg hne.symm] at hcontext
    have hcpu' : Function.update v.cpus v.kernel.running (some (m.cpu.view.enter ecall))
        v₁.kernel.running = some c := by
      rw [hrun, Function.update_of_ne hne.symm]
      exact hcpu
    obtain ⟨l, ans, hlog, c₁, hc₁, ha0⟩ :=
      yields_answer hy (hcontext ▸ hctx old hold) hcpu' hcalls
    rw [hrun] at hlog hc₁
    rw [← ht, hv₁.running] at hc₁
    obtain rfl := Option.some.inj hc₁
    exact ⟨l, ans, hv₁.kernel ▸ hlog, ha0⟩

/-- In the run over `as` from `m₁` an event takes the waiting thread out of the queue. -/
def Ends (img : Image) (m₁ : Machine) (t : Tid) (s : SemId) (base : List Note) (as : List Action)
    (cause : SemStatus) (ans : WaitAnswer) : Prop :=
  ∃ as₁ b as₂ mw mw' e, as = as₁ ++ b :: as₂ ∧
    Run (Machine.step img) (fun _ _ => True) m₁ as₁ mw ∧ mw.kernel.Waits t s base ∧
    mw.step img b = .ok mw' ∧ mw.kernel.step e = .ok mw'.kernel ∧ Caused s e cause ans

variable {base : List Note} {cause : SemStatus} {ans : WaitAnswer}

theorem Ends.answer (h : Ends img m₁ t s base as cause ans) : cause.answer = ans := by
  obtain ⟨as₁, b, as₂, mw, mw', e, -, -, -, -, -, hc⟩ := h
  exact hc.answer

theorem Ends.more (h : Ends img m₁ t s base as cause ans) (b : Action) :
    Ends img m₁ t s base (as ++ [b]) cause ans := by
  obtain ⟨as₁, b₁, as₂, mw, mw', e, rfl, hrun, hw, hstep, he, hc⟩ := h
  exact ⟨as₁, b₁, as₂ ++ [b], mw, mw', e, by simp, hrun, hw, hstep, he, hc⟩

/-- The thread still waits, or it was taken out and is to go on, or it went on with the answer
in `a0`. -/
inductive Phase (img : Image) (m₁ : Machine) (t : Tid) (s : SemId) (base : List Note)
    (as : List Action) (m : Machine) : Prop
  | waits (h : m.kernel.Waits t s base)
  | woken {cause : SemStatus} {ans : WaitAnswer} (h : Ends img m₁ t s base as cause ans)
      (hw : m.kernel.Woken t s cause base)
  | returned {cause : SemStatus} {ans : WaitAnswer} (h : Ends img m₁ t s base as cause ans)
      (hr : m.kernel.Returned t s cause ans base) (ha0 : m.cpu.x a0 = register ans.code)

theorem Suspends.named (hs : Suspends img start total t c m) : t ≤ m.kernel.ID := by
  obtain ⟨v, hv, hl⟩ := hs.left
  by_contra hlt
  have hnone := hv.named t (Nat.not_le.1 hlt)
  rcases hl with ⟨-, h⟩ | ⟨-, r, h⟩ <;> rw [hnone] at h <;> cases h

theorem waits_context (hw : k.Waits t s base) (hi : k.Inv) (hth : k.threads t = some th) :
    WaitContext s th.context := by
  obtain ⟨loc, hl⟩ := hi.located
  have hfits := hl.placed.fits hth
  rcases hw.place hl with h | h <;> rw [h] at hfits
  · exact Or.inl hfits.2.2.2
  · exact Or.inr hfits.2.2.2

/-- The answer that is noted last is the one in `a0`. -/
theorem returned_result (hr : m.kernel.Returned t s cause ans base)
    (h : ∃ l ans', m.kernel.log t = l ++ [.answer t s ans'] ∧ m.cpu.x a0 = register ans'.code) :
    m.cpu.x a0 = register ans.code := by
  obtain ⟨l, ans', hlog, ha0⟩ := h
  have hlast := congrArg List.getLast? (hr.log.symm.trans hlog)
  obtain rfl : ans = ans' := by simpa using hlast
  exact ha0

/-- A semaphore that is opened leaves those that wait alone. -/
theorem newSem_waits {n : UInt64} (h : k.newSem n = .ok k') (hi : k.Inv) (hw : k.Waits t s base) :
    k'.Waits t s base := by
  have hqueued : k'.queued s t = k.queued s t :=
    congrFun (congrArg View.queue (newSem_view h hi t)) s
  obtain ⟨p, hp, node, hp', -, -, rfl⟩ := newSem_ok h
  exact ⟨hqueued.trans hw.queued, hw.log⟩

theorem newSem_woken {n : UInt64} (h : k.newSem n = .ok k') (hw : k.Woken t s cause base) :
    k'.Woken t s cause base := by
  obtain ⟨p, hp, node, hp', -, -, rfl⟩ := newSem_ok h
  exact ⟨⟨hw.log, hw.place, hw.record⟩, hw.idle⟩

theorem run_phase (h : Run (Machine.step img) (fun s _ => s.kernel.running ≠ t) m₁ as m)
    (hs : Suspends img start total t c m₁) (hcalls : c.calls = true)
    (hw : m₁.kernel.Waits t s base) :
    Suspends img start total t c m ∧ Phase img m₁ t s base as m := by
  induction h with
  | nil => exact ⟨hs, .waits hw⟩
  | @snoc as m b m' hrun hne hstep ih =>
    obtain ⟨hs, hphase⟩ := ih
    refine ⟨step_suspends hs hne hstep, ?_⟩
    obtain ⟨v, hv, -⟩ := hs.left
    obtain ⟨-, -, -, hhandles⟩ := step_virtual hs.hosted hv hstep
    have hi := hs.hosted.inv
    cases hphase with
    | waits hw =>
      rcases hhandles with he | he | ho
      · exact .waits (he ▸ hw)
      · rcases step_waits he hi hs.named hw with hw' | ⟨cause, ans, hc, hend⟩
        · exact .waits hw'
        · have hends : Ends img m₁ t s base (as ++ [b]) cause ans :=
            ⟨as, b, [], m, m', _, rfl, hrun.mono fun _ _ _ => trivial, hw, hstep, he, hc⟩
          rcases hend with hwoken | hr
          · exact .woken hends hwoken
          · exact .returned hends hr (returned_result hr (step_answer hs hcalls hne
              (fun th hth => waits_context hw hi hth) hstep hr.running))
      · exact .waits (newSem_waits ho hi hw)
    | @woken cause ans hends hw =>
      rcases hhandles with he | he | ho
      · exact .woken (hends.more b) (he ▸ hw)
      · rcases step_woken he hi hs.named hw with hw' | hr
        · exact .woken (hends.more b) hw'
        · rw [hends.answer] at hr
          exact .returned (hends.more b) hr (returned_result hr (step_answer hs hcalls hne
            (fun th hth => (hw.record th hth).1) hstep hr.running))
      · exact .woken (hends.more b) (newSem_woken ho hw)
    | returned hends hr => exact absurd hr.running hne

end Machine
end OSK
