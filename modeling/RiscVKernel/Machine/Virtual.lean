import RiscVKernel.Machine.Frames

/-! What the switching of contexts is for: every thread has a processor of its own. In
the virtual machine there are no stacks and no saved registers. A call changes `pc` and
`a0` of the thread that makes it and an interrupt changes nothing, whatever the others
do before the thread goes on. The machine does in every run what the virtual one does. -/

namespace OSK

open Lib Kernel Machine

structure Virtual where
  kernel : Kernel
  cpus : Tid → Option VCpu

/-- The actions without what compiled code does inside the kernel. -/
inductive Move
  | user (x : Registers) (pc : UInt64)
  | subtleKill (t : Tid)
  | ecall (start : Registers)
  | timer (start : Registers)

def Action.move : Action → Move
  | .user x pc _ => .user x pc
  | .subtleKill t => .subtleKill t
  | .ecall p => .ecall p.start
  | .timer p => .timer p.start

namespace Virtual

/-- A new thread starts in user mode, behind the call of `popSppSpieChangeMod`, at the
top of its stack. -/
def born (img : Image) (th : Thread) (start : Registers) (sie : Bool) : VCpu where
  x := Function.update start sp
    (UInt64.ofNat (th.stack + stackSize) + img.switchFrame - img.wrapperFrame)
  pc := img.wrapperReturn
  mode := .user
  sie := sie
  calls := false

/-- The processor of the thread that goes on. -/
def resumed (img : Image) (th : Thread) (start : Registers) (sie : Bool) : Option VCpu → VCpu
  | none => born img th start sie
  | some c => c.back th.answer

/-- From the loads of `contextSwitch` on. -/
def goOn (img : Image) (v : Virtual) (start : Registers) (sie : Bool) : Except Crash Virtual :=
  let new := v.kernel.running
  match v.kernel.threads new with
  | none => .error .wild
  | some th =>
    match v.kernel.resume with
    | .error f => .error (.kernel f)
    | .ok k =>
      .ok ⟨k, Function.update v.cpus new (some (resumed img th start sie (v.cpus new)))⟩

def trap (img : Image) (v : Virtual) (ecall : Bool) (start : Registers) : Except Crash Virtual :=
  match v.cpus v.kernel.running with
  | none => .error .wild
  | some c =>
    let old := v.kernel.running
    let cpus := Function.update v.cpus old (some (c.enter ecall))
    match v.kernel.handleTrap (c.mode.scause ecall) (Cpu.args c.x) with
    | .error e => .error e
    | .ok (.returns r, k) => .ok ⟨k, Function.update cpus old (some ((c.enter ecall).back r))⟩
    | .ok (.dispatches saved, k₁) =>
      match k₁.switch saved with
      | .error f => .error (.kernel f)
      | .ok k₂ => goOn img ⟨k₂, cpus⟩ start c.sie

def step (img : Image) (v : Virtual) : Move → Except Crash Virtual
  | .user x pc =>
    .ok { v with
      cpus := Function.update v.cpus v.kernel.running
        ((v.cpus v.kernel.running).map fun c => { c with x := x, pc := pc }) }
  | .subtleKill t =>
    let (r, k) := v.kernel.subtleKill t
    .ok
      { kernel := k
        cpus := Function.update v.cpus v.kernel.running
          ((v.cpus v.kernel.running).map fun c =>
            { c with x := Function.update c.x a0 (register r) }) }
  | .ecall start => v.trap img true start
  | .timer start =>
    match v.cpus v.kernel.running with
    | none => .error .wild
    | some c => if c.interruptible then v.trap img false start else .error .masked

def boot (start total : ℕ) (x : Registers) (pc : UInt64) (sie : Bool) : Option Virtual :=
  (Kernel.boot start total).map fun k =>
    ⟨k, Function.update (fun _ => none) mainThread (some ⟨x, pc, .supervisor, sie, false⟩)⟩

end Virtual

/-- The running thread has the processor, and every other one waits with its own. -/
structure Virtualizes (img : Image) (m : Machine) (v : Virtual) : Prop where
  kernel : v.kernel = m.kernel
  running : v.cpus m.kernel.running = some m.cpu.view
  waits : ∀ t th, t ≠ m.kernel.running → m.kernel.threads t = some th →
    Waits img m.kernel m.mem m.activation t th (v.cpus t)
  named : ∀ t, m.kernel.ID < t → v.cpus t = none

namespace Machine

variable {img : Image} {m m' : Machine} {v v' : Virtual} {k k' k₁ k₂ : Kernel} {t : Tid}
  {th th' : Thread} {start total : ℕ} {p : Passage} {ecall : Bool} {r : Option ℤ} {c : Context}
  {scause : UInt64} {args : Args} {o : Outcome} {mem : ℕ → UInt64} {a : Action}

/-- What the handler runs is an event of the kernel, the making of a semaphore, or nothing. -/
theorem handleTrap_ok (h : k.handleTrap scause args = .ok (o, k')) :
    (∃ e, k.enter e = .ok (o, k')) ∨
      (∃ r, o = .returns r) ∧ (k' = k ∨ ∃ val, k.newSem val = .ok k') := by
  have herr : ∀ {e}, (k.enter e).mapError Crash.kernel = .ok (o, k') → k.enter e = .ok (o, k') := by
    intro e he
    cases hx : k.enter e with
    | error f => simp [hx, Except.mapError] at he
    | ok x => simpa [hx, Except.mapError] using he
  unfold handleTrap at h
  split_ifs at h
  · unfold ecallHandler at h
    cases hd : k.decode args with
    | event e =>
      simp only [hd] at h
      exact Or.inl ⟨e, herr h⟩
    | opens val =>
      simp only [hd] at h
      cases hx : k.newSem val with
      | error f => simp [hx, Except.mapError, Except.map] at h
      | ok k₁ =>
        rw [hx] at h
        cases h
        exact Or.inr ⟨⟨_, rfl⟩, Or.inr ⟨val, hx⟩⟩
    | unknown =>
      simp only [hd] at h
      cases h
      exact Or.inr ⟨⟨_, rfl⟩, Or.inl rfl⟩
    | outside => simp [hd] at h
  · exact Or.inl ⟨.tick, herr h⟩

/-- A call that ends in `dispatch` is an event. -/
theorem handleTrap_dispatches (h : k.handleTrap scause args = .ok (.dispatches c, k')) :
    ∃ e, k.enter e = .ok (.dispatches c, k') := by
  rcases handleTrap_ok h with he | ⟨⟨r, hr⟩, -⟩
  · exact he
  · cases hr

/-- The handler itself does not lose a thread. -/
theorem handleTrap_error {e : Crash} (h : k.handleTrap scause args = .error e) :
    e ≠ .clobbered ∧ e ≠ .wild := by
  have herr : ∀ {e'}, (k.enter e').mapError Crash.kernel = .error e → e ≠ .clobbered ∧ e ≠ .wild := by
    intro e' he
    cases hx : k.enter e' with
    | error f =>
      obtain rfl : Crash.kernel f = e := by simpa [hx, Except.mapError] using he
      simp
    | ok x => simp [hx, Except.mapError] at he
  unfold handleTrap at h
  split_ifs at h
  · unfold ecallHandler at h
    cases hd : k.decode args with
    | event e' =>
      simp only [hd] at h
      exact herr h
    | opens val =>
      simp only [hd] at h
      cases hx : k.newSem val with
      | error f =>
        rw [hx] at h
        cases h
        simp
      | ok k₁ => simp [hx, Except.mapError, Except.map] at h
    | unknown => simp [hd] at h
    | outside =>
      simp only [hd] at h
      cases h
      simp
  · exact herr h
  · cases h
    simp

/-! The calls that come back. -/

theorem returns_handles (h : k.handleTrap scause args = .ok (.returns r, k')) : k.Handles k' := by
  rcases handleTrap_ok h with ⟨e, he⟩ | ⟨-, rfl | ⟨val, ho⟩⟩
  · exact .event (step_of_returns he)
  · exact .stays rfl
  · exact .opens ho

/-- A thread after a call that comes back was there before, with the same stack and
context, or the call made it. -/
theorem returns_records (h : k.handleTrap scause args = .ok (.returns r, k'))
    (hh : Hosted img start total k) :
    k'.running = k.running ∧ k.ID ≤ k'.ID ∧ ∀ t th', k'.threads t = some th' →
      t = k'.ID ∧ k.ID < t ∧ th'.context = .threadWrapper ∨
      ∃ th, k.threads t = some th ∧ th'.stack = th.stack ∧ th'.context = th.context ∧
        k'.stackOf img t = k.stackOf img t ∧ k'.context t = k.context t := by
  have hhandles := returns_handles h
  have hold : ∀ {t th th'}, k'.threads t = some th' → k.threads t = some th →
      th'.context = th.context → ∃ th, k.threads t = some th ∧ th'.stack = th.stack ∧
        th'.context = th.context ∧ k'.stackOf img t = k.stackOf img t ∧
        k'.context t = k.context t := fun hth' hth hc =>
    ⟨_, hth, hhandles.stack hh.inv hth hth', hc, hhandles.regions img hh.inv hh.stored hth hth'⟩
  rcases handleTrap_ok h with ⟨e, he⟩ | ⟨-, rfl | ⟨val, ho⟩⟩
  rotate_left
  · exact ⟨rfl, le_rfl, fun t th' ht => Or.inr ⟨th', ht, rfl, rfl, rfl, rfl⟩⟩
  · obtain ⟨p, hp, node, hp', -, -, rfl⟩ := newSem_ok ho
    exact ⟨rfl, le_rfl, fun t th' hth' => Or.inr (hold hth' hth' rfl)⟩
  rcases enter_returns he with hs | ⟨body, stack, hnew⟩
  · refine ⟨hs.running, hs.ID.ge, fun t th' hth' => ?_⟩
    obtain ⟨th, hth, -, hc⟩ := hs.thread t th' hth'
    exact Or.inr (hold hth' hth hc)
  · obtain ⟨hrun, hID, hborn, hothers⟩ := newThread_records hnew
    refine ⟨hrun, by omega, fun t th' hth' => ?_⟩
    by_cases ht : t = k.ID + 1
    · subst ht
      obtain rfl : k.newborn body stack = th' := Option.some.inj (hborn.symm.trans hth')
      exact Or.inl ⟨hID.symm, Nat.lt_succ_self _, rfl⟩
    · obtain ⟨th, hth, -, hc⟩ := hothers t ht th' hth'
      exact Or.inr (hold hth' hth hc)

/-- The constructor writes into the context of the new thread. -/
theorem newContext_within (img : Image) (k k' : Kernel) :
    ∀ w ∈ newContext img k k', Within w.1 (k'.contextOf k'.ID).1 (k'.contextOf k'.ID).2 := by
  intro w hw
  unfold newContext at hw
  split_ifs at hw
  · simp at hw
  · split at hw
    · simp at hw
    · simp only [List.mem_cons, List.not_mem_nil, or_false] at hw
      rcases hw with rfl | rfl
      · exact (k'.context_within k'.ID).1
      · exact (k'.context_within k'.ID).2

theorem newContext_old (h : k'.threads k'.ID = none ∨ k'.ID = k.ID) : newContext img k k' = [] := by
  unfold newContext
  rcases h with h | h
  · simp [h]
  · simp [h]

/-- It leaves every other thread alone. -/
theorem newContext_beside (hh : Hosted img start total k') (hth : k'.threads t = some th)
    (hne : t ≠ k'.ID) : Kept img k' t mem (store mem (newContext img k k')) := by
  cases hnew : k'.threads k'.ID with
  | none =>
    rw [newContext_old (Or.inl hnew)]
    exact ⟨fun _ _ => rfl, fun _ _ => rfl⟩
  | some th' =>
    exact ⟨store_beside (newContext_within img k k') (hh.stack_context_beside hth hnew).symm,
      store_beside (newContext_within img k k') (hh.contexts_beside hth hnew hne).symm⟩

/-- The new thread has its context. -/
theorem newContext_unborn (hth : k'.threads k'.ID = some th) (hne : k'.ID ≠ k.ID) :
    Unborn img k' (store mem (newContext img k k')) k'.ID th := by
  unfold newContext
  rw [if_neg hne]
  simp only [hth]
  exact ⟨by simp, by simp⟩

/-- A thread comes back to user code while all others wait. -/
theorem comeBack_virtual {frame low : UInt64} {c : VCpu} {cpus : Tid → Option VCpu}
    (hh : Hosted img start total m.kernel) (hroom : Room img m.kernel m.kernel.running frame low)
    (hf : Framed img m.mem frame c)
    (hwaits : ∀ t th, t ≠ m.kernel.running → m.kernel.threads t = some th →
      Waits img m.kernel m.mem m.activation t th (cpus t))
    (hnamed : ∀ t, m.kernel.ID < t → cpus t = none) (r : Option ℤ) :
    Virtualizes img (comeBack img m frame (if c.calls then r else none))
      ⟨m.kernel, Function.update cpus m.kernel.running (some (c.back r))⟩ := by
  obtain ⟨old, hold, -⟩ := alive_iff.1 hh.inv.running_alive
  have hb := hroom.bounds
  refine ⟨rfl, ?_, fun t th ht hth => ?_, fun t ht => ?_⟩
  · change Function.update cpus m.kernel.running (some (c.back r)) m.kernel.running =
      some (leaveTrap img (storeResult m.mem frame (if c.calls then r else none)) frame).view
    rw [Function.update_self, leaveTrap_view hf (by omega)]
  · have ht : t ≠ m.kernel.running := ht
    have hth : m.kernel.threads t = some th := hth
    dsimp only
    rw [Function.update_of_ne ht]
    exact (hwaits t th ht hth).keep
      ⟨storeResult_agree _ (hroom.beside (hh.stacks_beside hth hold ht)),
        storeResult_agree _ (hroom.beside (hh.stack_context_beside hold hth).symm)⟩
      rfl rfl rfl rfl rfl
  · have hne : t ≠ m.kernel.running := by
      rintro rfl
      exact absurd ht (Nat.not_lt.2 (hh.inv.named hold))
    dsimp only
    rw [Function.update_of_ne hne]
    exact hnamed t ht

/-- The way into the kernel: the running thread has its registers in its frame, and the
others still wait. -/
theorem trap_framed (htidy : Tidy img m.kernel m.kernel.running (m.cpu.x sp - 256) p.before)
    (hroom : Room img m.kernel m.kernel.running (m.cpu.x sp - 256) p.sp) (ecall : Bool) :
    Framed img (store (enterTrap img m.mem m.cpu.trap ecall) p.before) (m.cpu.x sp - 256)
      (m.cpu.view.enter ecall) := by
  have hb := hroom.bounds
  exact (enterTrap_framed ecall (by omega)).agree (by omega) htidy.keeps_frame

theorem trap_waits (hh : Hosted img start total m.kernel) (hv : Virtualizes img m v)
    (htidy : Tidy img m.kernel m.kernel.running (m.cpu.x sp - 256) p.before)
    (hroom : Room img m.kernel m.kernel.running (m.cpu.x sp - 256) p.sp) (ecall : Bool)
    (ht : t ≠ m.kernel.running) (hth : m.kernel.threads t = some th) :
    Waits img m.kernel (store (enterTrap img m.mem m.cpu.trap ecall) p.before) m.activation t th
      (v.cpus t) := by
  obtain ⟨old, hold, -⟩ := alive_iff.1 hh.inv.running_alive
  have hkept : Kept img m.kernel t m.mem (store (enterTrap img m.mem m.cpu.trap ecall) p.before) :=
    (enterTrap_kept (c := m.cpu.trap) hh hth hold ht hroom).trans (htidy.kept hh.inv hth ht)
  exact (hv.waits t th ht hth).keep hkept rfl rfl rfl rfl rfl

/-- No thread that is still to come has a processor. -/
theorem unnamed (hv : Virtualizes img m v) (hh : Hosted img start total m.kernel)
    (ht : m.kernel.ID < t) (o : Option VCpu) :
    Function.update v.cpus m.kernel.running o t = none := by
  obtain ⟨old, hold, -⟩ := alive_iff.1 hh.inv.running_alive
  have hne : t ≠ m.kernel.running := by
    rintro rfl
    exact absurd ht (Nat.not_lt.2 (hh.inv.named hold))
  rw [Function.update_of_ne hne]
  exact hv.named t ht

/-- A call that comes back. -/
theorem returns_virtual {warnings : List UInt64} (hh : Hosted img start total m.kernel)
    (hv : Virtualizes img m v)
    (hroom : Room img m.kernel m.kernel.running (m.cpu.x sp - 256) p.sp)
    (htidy : Tidy img m.kernel m.kernel.running (m.cpu.x sp - 256) p.before)
    (h : m.kernel.handleTrap scause args = .ok (.returns r, k')) :
    Virtualizes img
      (comeBack img
        { m with
          kernel := k'
          mem := store (store (enterTrap img m.mem m.cpu.trap ecall) p.before)
            (newContext img m.kernel k')
          warnings := warnings }
        (m.cpu.x sp - 256) (if ecall then r else none))
      ⟨k', Function.update (Function.update v.cpus m.kernel.running (some (m.cpu.view.enter ecall)))
        m.kernel.running (some ((m.cpu.view.enter ecall).back r))⟩ := by
  obtain ⟨old, hold, -⟩ := alive_iff.1 hh.inv.running_alive
  have holdID := hh.inv.named hold
  have hb := hroom.bounds
  have hh' := (returns_handles h).hosted hh
  obtain ⟨hrun, hID, hrecords⟩ := returns_records h hh
  -- the running thread is in the kernel, with the stack it had
  obtain ⟨old', hold', -⟩ := alive_iff.1 hh'.inv.running_alive
  rw [hrun] at hold'
  obtain ⟨-, -, -, -, hstackOf, -⟩ :=
    (hrecords _ _ hold').resolve_left fun hn => absurd hn.2.1 (Nat.not_lt.2 holdID)
  have hroom' : Room img k' m.kernel.running (m.cpu.x sp - 256) p.sp := by
    unfold Room at *
    rw [hstackOf]
    exact hroom
  have hb' := hroom'.bounds
  have hne : m.kernel.running ≠ k'.ID ∨ newContext img m.kernel k' = [] := by
    by_cases he : k'.ID = m.kernel.ID
    · exact Or.inr (newContext_old (Or.inr he))
    · exact Or.inl fun hrun => he (Nat.le_antisymm (hrun ▸ holdID) hID)
  have hframed : Framed img (store (store (enterTrap img m.mem m.cpu.trap ecall) p.before)
      (newContext img m.kernel k')) (m.cpu.x sp - 256) (m.cpu.view.enter ecall) := by
    have hfirst := trap_framed htidy hroom ecall
    rcases hne with hne | hnil
    · refine hfirst.agree (by omega) ?_
      have hkept : Kept img k' m.kernel.running
          (store (enterTrap img m.mem m.cpu.trap ecall) p.before)
          (store (store (enterTrap img m.mem m.cpu.trap ecall) p.before)
            (newContext img m.kernel k')) := newContext_beside hh' hold' hne
      refine hkept.stack.mono ?_ ?_ <;> unfold frameOf <;> dsimp only <;> omega
    · rw [hnil]
      exact hfirst
  have hwaits : ∀ t th', t ≠ k'.running → k'.threads t = some th' →
      Waits img k' (store (store (enterTrap img m.mem m.cpu.trap ecall) p.before)
        (newContext img m.kernel k')) m.activation t th'
        (Function.update v.cpus m.kernel.running (some (m.cpu.view.enter ecall)) t) := by
    intro t th' ht hth'
    rw [hrun] at ht
    rw [Function.update_of_ne ht]
    rcases hrecords t th' hth' with ⟨rfl, hnew, hc⟩ | ⟨th, hth, hstack, hc, hs, hcx⟩
    · rw [hv.named _ hnew]
      exact ⟨hc, newContext_unborn hth' hnew.ne'⟩
    · have hwait := (trap_waits hh hv htidy hroom ecall ht hth).keep
        ⟨fun _ _ => rfl, fun _ _ => rfl⟩ rfl hs hcx hstack hc
      have hID : t ≠ k'.ID ∨ newContext img m.kernel k' = [] := by
        by_cases he : k'.ID = m.kernel.ID
        · exact Or.inr (newContext_old (Or.inr he))
        · exact Or.inl fun hrun => he (Nat.le_antisymm (hrun ▸ hh.inv.named hth) hID)
      rcases hID with hID | hnil
      · exact hwait.keep (newContext_beside hh' hth' hID) rfl rfl rfl rfl rfl
      · rw [hnil]
        exact hwait
  have hnamed : ∀ t, k'.ID < t →
      Function.update v.cpus m.kernel.running (some (m.cpu.view.enter ecall)) t = none :=
    fun t ht => unnamed hv hh (hID.trans_lt ht) _
  have hback := comeBack_virtual
    (m := { m with
      kernel := k'
      mem := store (store (enterTrap img m.mem m.cpu.trap ecall) p.before)
        (newContext img m.kernel k')
      warnings := warnings }) hh' (hrun ▸ hroom') hframed hwaits hnamed r
  dsimp only at hback
  rw [hrun] at hback
  exact hback

/-! The switch. -/

/-- What a step through `dispatch` knows when the next thread is to go on. -/
structure Switches (img : Image) (start total : ℕ) (k k₂ k' : Kernel) (saved : Context) : Prop where
  event : ∃ e, k.step e = .ok k'
  resume : k₂.resume = .ok k'
  ne : saved ≠ .threadWrapper
  ID : k₂.ID = k.ID
  place : k₂.context k.running = k.context k.running
  records : ∀ t th₂, k₂.threads t = some th₂ → ∃ th, k.threads t = some th ∧
    th₂.stack = th.stack ∧ th₂.context = (if t = k.running then saved else th.context) ∧
    k₂.stackOf img t = k.stackOf img t ∧ k₂.context t = k.context t

/-- Going on changes neither stacks nor contexts. -/
theorem resume_regions (img : Image) (h : k.resume = .ok k') (t : Tid) :
    k'.stackOf img t = k.stackOf img t ∧ k'.context t = k.context t := by
  have hs := resume_stays h
  have hheap := (resume_frame h).1
  refine ⟨?_, by rw [Kernel.context, Kernel.context, hs.threadAddr]⟩
  by_cases ht : t = mainThread
  · subst ht
    rw [stackOf_main, stackOf_main]
  · cases hth' : k'.threads t with
    | none =>
      have hsome := hs.isSome t
      have hth : k.threads t = none := by simpa [hth'] using hsome
      simp [stackOf, ht, hth, hth']
    | some th' =>
      obtain ⟨th, hth, horigin, -⟩ := hs.record hth'
      have hstack : th'.stack = th.stack := congrArg (·.2.1) horigin
      rw [stackOf_other hth' ht, stackOf_other hth ht, hstack, blockOf, blockOf, hheap]

/-- The way through `dispatch` up to the next thread. -/
theorem switches {saved : Context} (hh : Hosted img start total k)
    (h : k.handleTrap scause args = .ok (.dispatches saved, k₁)) (hsw : k₁.switch saved = .ok k₂) :
    ∃ k', Switches img start total k k₂ k' saved := by
  obtain ⟨e, he⟩ := handleTrap_dispatches h
  obtain ⟨hsheds, hne⟩ := enter_dispatches he
  obtain ⟨hID, haddr, hrec, hrecords⟩ := switch_records hsw
  obtain ⟨k', hr⟩ := resume_total hrec
  have hstep : k.step e = .ok k' := by
    rw [step_of_dispatches he, hsw]
    exact hr
  have hplace : k₂.context k.running = k.context k.running := by
    unfold Kernel.context
    rw [haddr, hsheds.threadAddr]
  refine ⟨k', ⟨e, hstep⟩, hr, hne, hID.trans hsheds.ID, hplace, fun t th₂ hth₂ => ?_⟩
  obtain ⟨th₁, hth₁, hc₁⟩ := hrecords t th₂ hth₂
  obtain ⟨th, hth, -, hc⟩ := hsheds.thread t th₁ hth₁
  have hsome : (k'.threads t).isSome = true := by
    rw [(resume_stays hr).isSome t, hth₂]
    rfl
  obtain ⟨th', hth'⟩ := Option.isSome_iff_exists.1 hsome
  obtain ⟨th₂', hth₂', horigin, -⟩ := (resume_stays hr).record hth'
  obtain rfl : th₂ = th₂' := Option.some.inj (hth₂.symm.trans hth₂')
  have hstack₂ : th'.stack = th₂.stack := congrArg (·.2.1) horigin
  have hhandles : k.Handles k' := .event hstep
  have hregions := hhandles.regions img hh.inv hh.stored hth hth'
  have hsame := resume_regions img hr t
  refine ⟨th, hth, hstack₂.symm.trans (hhandles.stack hh.inv hth hth'), ?_,
    hsame.1.symm.trans hregions.1, hsame.2.symm.trans hregions.2⟩
  rw [hc₁, hsheds.running, hc]

/-- After the switch every thread waits, the one that left the processor as well. -/
theorem Switches.waits {saved : Context} {low : UInt64} {c : VCpu}
    {act : Tid → Option Activation} {cpus : Tid → Option VCpu} {frame : UInt64}
    (hsw : Switches img start total k k₂ k' saved) (hh : Hosted img start total k)
    (hroom : Room img k k.running frame low) (hf : Framed img mem frame c)
    (hcalls : ecall = c.calls)
    (hwaits : ∀ t th, t ≠ k.running → k.threads t = some th →
      Waits img k mem act t th (cpus t)) (x : Registers) :
    ∀ t th₂, k₂.threads t = some th₂ →
      Waits img k₂
        (store (store mem (table (low - 256).toNat pushed x)) (savedContext img k₂ k.running low))
        (Function.update act k.running (some ⟨ecall, frame, low, x⟩)) t th₂
        (Function.update cpus k.running (some c) t) := by
  intro t th₂ hth₂
  obtain ⟨old, hold, -⟩ := alive_iff.1 hh.inv.running_alive
  obtain ⟨th, hth, hstack, hc, hstackOf, hcontextOf⟩ := hsw.records t th₂ hth₂
  have hsaved : savedContext img k₂ k.running low = savedContext img k k.running low := by
    unfold savedContext
    rw [hsw.place]
  rw [hsaved]
  by_cases ht : t = k.running
  · subst ht
    rw [if_pos rfl] at hc
    rw [Function.update_self]
    refine ⟨hc ▸ hsw.ne, _, Function.update_self .., ?_⟩
    exact (parks hh hold hroom hf hcalls).agree (fun _ _ => rfl) (fun _ _ => rfl) hstackOf hcontextOf
  · rw [if_neg ht] at hc
    rw [Function.update_of_ne ht]
    exact (hwaits t th ht hth).keep
      ((push_kept hh hth hold ht hroom x).trans (savedContext_kept hh hth hold ht low))
      (Function.update_of_ne ht _ _) hstackOf hcontextOf hstack hc

/-- The way of a thread that has not run. -/
theorem goOn_unborn (hth : m.kernel.threads m.kernel.running = some th)
    (hc : th.context = .threadWrapper) (hu : Unborn img m.kernel m.mem m.kernel.running th) :
    goOn img m p = .ok { m with
      cpu := startThread img m.cpu (UInt64.ofNat (th.stack + stackSize) + img.switchFrame)
        p.start } := by
  simp only [goOn, hth, hu.ra, hu.top, hc, and_self, if_true]

/-- The way of a thread that was left in `dispatch`: its registers are there. -/
theorem goOn_parked {act : Activation} {v : VCpu} (hr : m.kernel.resume = .ok k')
    (hth : m.kernel.threads m.kernel.running = some th) (hc : th.context ≠ .threadWrapper)
    (hact : m.activation m.kernel.running = some act)
    (hp : Parked img m.kernel m.mem m.kernel.running act v) :
    goOn img m p =
      if Tidy img k' m.kernel.running act.frame p.after then
        .ok (comeBack img
          { m with
            kernel := k'
            mem := store m.mem p.after
            activation := Function.update m.activation m.kernel.running none }
          act.frame (if v.calls then th.answer else none))
      else .error .stray := by
  have htop : act.sp - 256 - img.switchFrame + img.switchFrame = act.sp - 256 :=
    UInt64.sub_add_cancel _ _
  have hsp : act.sp - 256 + 256 = act.sp := UInt64.sub_add_cancel _ _
  simp only [goOn, hth, hp.ra, hp.top, htop, hsp, img.apart.symm, hc, hact, hr, hp.calls, false_and,
    if_false, true_and, ne_eq, not_false_eq_true, and_true, if_true, if_pos hp.pushed]

/-- The machine refuses stores that stray; otherwise it fails as the virtual one does, and
never because a thread was lost, or goes on as it does. -/
inductive Matches (img : Image) : Except Crash Machine → Except Crash Virtual → Prop
  | stray (y : Except Crash Virtual) : Matches img (.error .stray) y
  | error {e : Crash} (h : e ≠ .clobbered ∧ e ≠ .wild) : Matches img (.error e) (.error e)
  | ok {m : Machine} {v : Virtual} (h : Virtualizes img m v) : Matches img (.ok m) (.ok v)

/-- The thread that goes on has the processor it left, or is born. -/
theorem goOn_matches {cpus : Tid → Option VCpu} (hsound : Hosted img start total k')
    (hr : m.kernel.resume = .ok k')
    (hwaits : ∀ t th, m.kernel.threads t = some th →
      Waits img m.kernel m.mem m.activation t th (cpus t))
    (hnamed : ∀ t, m.kernel.ID < t → cpus t = none) :
    Matches img (goOn img m p)
      (Virtual.goOn img ⟨m.kernel, cpus⟩ p.start m.cpu.sstatus.spie) := by
  obtain ⟨th, hth, hcases⟩ := resume_ok hr
  have hstays := resume_stays hr
  have hwait := hwaits _ th hth
  simp only [Virtual.goOn, hth, hr]
  cases hcpus : cpus m.kernel.running with
  | none =>
    rw [hcpus] at hwait
    obtain ⟨hc, hunborn⟩ := hwait
    -- a thread that has not run
    obtain rfl : k' = m.kernel := by
      rcases hcases with ⟨-, rfl⟩ | ⟨s, hs, -⟩ | ⟨s, hs, -⟩ | ⟨hs, -⟩
      · rfl
      · cases hc.symm.trans hs
      · cases hc.symm.trans hs
      · cases hc.symm.trans hs
    rw [goOn_unborn hth hc hunborn]
    refine .ok ⟨rfl, ?_, fun t th' ht hth' => ?_, fun t ht => ?_⟩
    · change Function.update cpus m.kernel.running _ m.kernel.running = _
      rw [Function.update_self, Virtual.resumed, Virtual.born, startThread, Cpu.sret, Cpu.view]
    · dsimp only
      rw [Function.update_of_ne ht]
      exact hwaits t th' hth'
    · dsimp only
      rw [Function.update_of_ne]
      · exact hnamed t ht
      · rintro rfl
        exact absurd ht (Nat.not_lt.2 (hsound.inv.named hth))
  | some v =>
    rw [hcpus] at hwait
    obtain ⟨hc, act, hact, hp⟩ := hwait
    rw [goOn_parked hr hth hc hact hp]
    by_cases htidy : Tidy img k' m.kernel.running act.frame p.after
    swap
    · rw [if_neg htidy]
      exact .stray _
    rw [if_pos htidy]
    have hb := hp.room.bounds
    have hroom : Room img k' m.kernel.running act.frame act.sp := by
      unfold Room
      rw [(resume_regions img hr _).1]
      exact hb
    have hothers : ∀ t th', t ≠ m.kernel.running → k'.threads t = some th' →
        Waits img k' (store m.mem p.after) (Function.update m.activation m.kernel.running none) t th'
          (cpus t) := by
      intro t th' ht hth'
      obtain ⟨hstackOf, hcontextOf⟩ := resume_regions img hr t
      have hsame : m.kernel.threads t = some th' := (resume_frame hr).2 t ht ▸ hth'
      have hwait : Waits img k' m.mem m.activation t th' (cpus t) :=
        (hwaits t th' hsame).keep ⟨fun _ _ => rfl, fun _ _ => rfl⟩ rfl hstackOf hcontextOf rfl rfl
      exact hwait.keep (htidy.kept hsound.inv hth' ht) (Function.update_of_ne ht _ _) rfl rfl rfl rfl
    have hback := comeBack_virtual
      (m := { m with
        kernel := k'
        mem := store m.mem p.after
        activation := Function.update m.activation m.kernel.running none }) hsound
      (hstays.running ▸ hroom) (hp.framed.agree (by omega) htidy.keeps_frame)
      (fun t th' ht hth' => hothers t th' (hstays.running ▸ ht) hth')
      (fun t ht => hnamed t (hstays.ID ▸ ht)) th.answer
    dsimp only at hback
    rw [hstays.running] at hback
    exact .ok hback

/-! Whole steps. -/

theorem trap_matches (hh : Hosted img start total m.kernel) (hv : Virtualizes img m v)
    (ecall : Bool) (p : Passage) :
    Matches img (m.trap img ecall p) (v.trap img ecall p.start) := by
  by_cases hok : Room img m.kernel m.kernel.running (m.cpu.x sp - 256) p.sp ∧
      Tidy img m.kernel m.kernel.running (m.cpu.x sp - 256) p.before
  swap
  · have hstray : m.trap img ecall p = .error .stray := if_neg hok
    rw [hstray]
    exact .stray _
  obtain ⟨hroom, htidy⟩ := hok
  have hx : m.cpu.trap.x = m.cpu.x := rfl
  have hview : m.cpu.view.mode = m.cpu.mode ∧ m.cpu.view.x = m.cpu.x := ⟨rfl, rfl⟩
  simp only [Machine.trap, Virtual.trap, hv.kernel, hv.running, hx, hview.1, hview.2]
  rw [if_pos ⟨hroom, htidy⟩]
  cases htrap : m.kernel.handleTrap (m.cpu.mode.scause ecall) (Cpu.args m.cpu.x) with
  | error e => exact .error (handleTrap_error htrap)
  | ok x =>
    obtain ⟨o, k₁⟩ := x
    cases o with
    | returns r => exact .ok (returns_virtual hh hv hroom htidy htrap)
    | dispatches saved =>
      cases hswitch : k₁.switch saved with
      | error f =>
        simp only [hswitch]
        exact .error (by simp)
      | ok k₂ =>
        obtain ⟨k', hsw⟩ := switches hh htrap hswitch
        simp only [hswitch]
        have hwaits := hsw.waits hh hroom (trap_framed htidy hroom ecall) rfl
          (fun t th ht hth => trap_waits hh hv htidy hroom ecall ht hth) p.x
        obtain ⟨e, he⟩ := hsw.event
        exact goOn_matches (Handles.hosted (.event he) hh) hsw.resume hwaits
          fun t ht => unnamed hv hh (hsw.ID ▸ ht) _

/-- Code of the running thread changes its own processor and nothing of the others. -/
theorem user_virtual {c : Cpu} {ws : List (ℕ × UInt64)} (hh : Hosted img start total m.kernel)
    (hv : Virtualizes img m v) (hclear : ∀ w ∈ ws, m.kernel.Clear img m.kernel.running w.1) :
    Virtualizes img { m with cpu := c, mem := store m.mem ws }
      ⟨m.kernel, Function.update v.cpus m.kernel.running (some c.view)⟩ := by
  refine ⟨rfl, Function.update_self .., fun t th ht hth => ?_, fun t ht => unnamed hv hh ht _⟩
  have hkept : Kept img m.kernel t m.mem (store m.mem ws) := by
    have hoff : ∀ w ∈ ws, _ ∧ _ := fun w hw =>
      hclear w hw t (Nat.lt_succ_of_le (hh.inv.named hth)) (Option.isSome_iff_exists.2 ⟨th, hth⟩)
    exact ⟨store_agree fun w hw => (hoff w hw).1 ht, store_agree fun w hw => (hoff w hw).2⟩
  dsimp only
  rw [Function.update_of_ne ht]
  exact (hv.waits t th ht hth).keep hkept rfl rfl rfl rfl rfl

/-- So does `subtleKill`, which runs in the code of the thread that calls it. -/
theorem subtleKill_virtual {c : Cpu} (hh : Hosted img start total m.kernel)
    (hv : Virtualizes img m v) (t : Tid) :
    Virtualizes img { m with kernel := (m.kernel.subtleKill t).2, cpu := c }
      ⟨(m.kernel.subtleKill t).2, Function.update v.cpus m.kernel.running (some c.view)⟩ := by
  have hhandles : m.kernel.Handles (m.kernel.subtleKill t).2 := .event (e := .subtleKill t) rfl
  have hs := subtleKill_stays m.kernel t
  refine ⟨rfl, ?_, fun t' th' ht hth' => ?_, fun t' ht => unnamed hv hh (hs.ID ▸ ht) _⟩
  · dsimp only
    rw [hs.running, Function.update_self]
  · have ht : t' ≠ m.kernel.running := hs.running ▸ ht
    obtain ⟨th, hth, horigin, hc⟩ := hs.record hth'
    obtain ⟨hstackOf, hcontextOf⟩ := hhandles.regions img hh.inv hh.stored hth hth'
    dsimp only
    rw [Function.update_of_ne ht]
    exact (hv.waits t' th ht hth).keep ⟨fun _ _ => rfl, fun _ _ => rfl⟩ rfl hstackOf hcontextOf
      (hhandles.stack hh.inv hth hth') hc

/-- One step of the machine. -/
theorem step_matches (hh : Hosted img start total m.kernel) (hv : Virtualizes img m v)
    (a : Action) : Matches img (m.step img a) (v.step img a.move) := by
  cases a with
  | user x pc ws =>
    simp only [Machine.step, Action.move, Virtual.step]
    by_cases hclear : ∀ w ∈ ws, m.kernel.Clear img m.kernel.running w.1
    · rw [if_pos hclear, hv.kernel, hv.running]
      exact .ok (user_virtual hh hv hclear)
    · rw [if_neg hclear]
      exact .stray _
  | subtleKill t =>
    simp only [Machine.step, Action.move, Virtual.step, hv.kernel, hv.running]
    exact .ok (subtleKill_virtual hh hv t)
  | ecall p => exact trap_matches hh hv true p
  | timer p =>
    have hview : m.cpu.view.interruptible = m.cpu.interruptible := rfl
    simp only [Machine.step, Action.move, Virtual.step, hv.kernel, hv.running, hview]
    by_cases h : m.cpu.interruptible = true
    · rw [if_pos h, if_pos h]
      exact trap_matches hh hv false p
    · rw [if_neg h, if_neg h]
      exact .error (by simp)

end Machine
end OSK
