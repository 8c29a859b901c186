import RiscVKernel.Console.Attendance
import RiscVKernel.Kernel.Creation

/-! The thread of `IDLE.cpp` in the kernel with its console. It starts `userMain` in a thread of
its own, and exits when that one has returned. -/

namespace OSK

open Lib Kernel

/-- Where `idleThread` stands: in `thread_create`, in front of its `mem_alloc` and of its trap; at
the condition of its loop; in the loop; behind it. -/
inductive IdleStage
  | alloc
  | create (stack : ℕ)
  | test
  | dispatch
  | over
  deriving DecidableEq, Repr

/-- The kernel with its console, and the variables of `IDLE.cpp`. -/
structure System where
  driver : Driver
  funcWrapper : UInt64
  idle : IdleStage
  userMainThread : Option Tid
  finished : Bool

namespace System

/-- A step of anything else, a statement of `idleThread`, `userMain` coming back to
`funcWrapper`. -/
inductive Event
  | step (e : Driver.Event)
  | idle
  | funcWrapper
  deriving DecidableEq, Repr

/-- The next statement; `threadWrapper` exits behind the last one. -/
def idleThread (x : System) : Except Driver.Fault System :=
  match x.idle with
  | .alloc => do
    let (stack, _) := x.driver.kernel.memAlloc (UInt64.ofNat (blocksFor stackSize))
    let d ← x.driver.step (.call (.memAlloc (UInt64.ofNat (blocksFor stackSize))))
    return { x with driver := d, idle := if stack = 0 then .test else .create stack }
  | .create stack => do
    let d ← x.driver.step (.call (.threadCreate x.funcWrapper stack))
    return { x with
      driver := d, idle := .test, userMainThread := some (x.driver.kernel.ID + 1) }
  | .test => .ok { x with idle := if x.finished then .over else .dispatch }
  | .dispatch => do
    let d ← x.driver.step (.call .threadDispatch)
    return { x with driver := d, idle := .test }
  | .over => do
    let d ← x.driver.step (.call .threadExit)
    return { x with driver := d }

def step (x : System) : Event → Except Driver.Fault System
  | .step e => do
    let d ← x.driver.step e
    return { x with driver := d }
  | .idle =>
    if x.driver.kernel.running = x.driver.idleThread then x.idleThread else .error .notRunning
  | .funcWrapper =>
    if x.userMainThread = some x.driver.kernel.running then .ok { x with finished := true }
    else .error .notRunning

/-- What can happen while a thread has the processor that is not its own doing. -/
def Outside : Driver.Event → Prop
  | .call e => e = .tick
  | .interrupt _ => True
  | _ => False

instance : (e : Driver.Event) → Decidable (Outside e)
  | .call _ => inferInstanceAs (Decidable (_ = _))
  | .interrupt _ => isTrue trivial
  | .putc _ => isFalse id
  | .getc => isFalse id
  | .putter _ => isFalse id
  | .getter _ _ => isFalse id
  | .finish => isFalse id

/-- The steps of the driver are those of its runs, and the idle thread makes its own statements
only. -/
def Allowed (x : System) : Event → Prop
  | .step e => Driver.Allowed x.driver e ∧
      (x.driver.kernel.running = x.driver.idleThread → Outside e)
  | _ => True

instance (x : System) : (e : Event) → Decidable (Allowed x e)
  | .step _ => inferInstanceAs (Decidable (_ ∧ (_ → _)))
  | .idle => isTrue trivial
  | .funcWrapper => isTrue trivial

variable {x x' x₀ : System} {e : Event} {es : List Event} {d d' : Driver} {t : Tid} {gone : Bool}
  {start total : ℕ}

/-- The call of the kernel that a step makes. -/
def calls (x : System) : Event → Option OSK.Event
  | .step e => x.driver.calls e
  | .idle =>
    match x.idle with
    | .alloc => some (.memAlloc (UInt64.ofNat (blocksFor stackSize)))
    | .create stack => some (.threadCreate x.funcWrapper stack)
    | .test => none
    | .dispatch => some .threadDispatch
    | .over => some .threadExit
  | .funcWrapper => none

/-- What a step can be. -/
inductive Does (x : System) : Event → System → Prop
  | step {e : Driver.Event} {d : Driver} : x.driver.step e = .ok d →
      Does x (.step e) { x with driver := d }
  | alloc {d : Driver} {i : IdleStage} :
      x.driver.kernel.running = x.driver.idleThread → x.idle = .alloc →
      x.driver.step (.call (.memAlloc (UInt64.ofNat (blocksFor stackSize)))) = .ok d → i ≠ .over →
      Does x .idle { x with driver := d, idle := i }
  | create {stack : ℕ} {d : Driver} {t : Tid} :
      x.driver.kernel.running = x.driver.idleThread → x.idle = .create stack →
      x.driver.step (.call (.threadCreate x.funcWrapper stack)) = .ok d →
      Does x .idle { x with driver := d, idle := .test, userMainThread := some t }
  | loop : x.driver.kernel.running = x.driver.idleThread → x.idle = .test → x.finished = false →
      Does x .idle { x with idle := .dispatch }
  | leave : x.driver.kernel.running = x.driver.idleThread → x.idle = .test → x.finished = true →
      Does x .idle { x with idle := .over }
  | dispatch {d : Driver} : x.driver.kernel.running = x.driver.idleThread → x.idle = .dispatch →
      x.driver.step (.call .threadDispatch) = .ok d →
      Does x .idle { x with driver := d, idle := .test }
  | exit {d : Driver} : x.driver.kernel.running = x.driver.idleThread → x.idle = .over →
      x.driver.step (.call .threadExit) = .ok d → Does x .idle { x with driver := d }
  | funcWrapper : x.userMainThread = some x.driver.kernel.running →
      Does x .funcWrapper { x with finished := true }

theorem step_does (h : x.step e = .ok x') : x.Does e x' := by
  cases e with
  | step e =>
    obtain ⟨d, hd, h⟩ := bind_ok h
    cases h
    exact .step hd
  | idle =>
    have h : (if x.driver.kernel.running = x.driver.idleThread then x.idleThread
      else Except.error Driver.Fault.notRunning) = .ok x' := h
    split_ifs at h with hrun
    unfold idleThread at h
    split at h
    case h_1 hs =>
      obtain ⟨d, hd, h⟩ := bind_ok h
      cases h
      exact .alloc hrun hs hd (by split_ifs <;> simp)
    case h_2 stack hs =>
      obtain ⟨d, hd, h⟩ := bind_ok h
      cases h
      exact .create hrun hs hd
    case h_3 hs =>
      cases h
      split_ifs with hf
      · exact .leave hrun hs hf
      · exact .loop hrun hs (Bool.eq_false_iff.2 hf)
    case h_4 hs =>
      obtain ⟨d, hd, h⟩ := bind_ok h
      cases h
      exact .dispatch hrun hs hd
    case h_5 hs =>
      obtain ⟨d, hd, h⟩ := bind_ok h
      cases h
      exact .exit hrun hs hd
  | funcWrapper =>
    have h : (if x.userMainThread = some x.driver.kernel.running then
      .ok { x with finished := true } else Except.error Driver.Fault.notRunning) = .ok x' := h
    split_ifs at h with hrun
    cases h
    exact .funcWrapper hrun

/-- What the kernel does in a step before the last one of `main`. -/
theorem step_kernel (h : x.step e = .ok x') (he : e ≠ .step .finish) :
    (x.calls e = none ∧ x'.driver.kernel = x.driver.kernel) ∨
      ∃ e₀, x.calls e = some e₀ ∧ x.driver.kernel.step e₀ = .ok x'.driver.kernel := by
  have hcall : ∀ {e₀ : OSK.Event} {d : Driver}, x.driver.step (.call e₀) = .ok d →
      x.driver.kernel.step e₀ = .ok d.kernel := by
    intro e₀ d hd
    obtain ⟨o, hk⟩ := (Driver.step_moves hd (by simp)).kernel
    exact stepFrom_step hk
  cases step_does h with
  | @step e d hd =>
    have hkernel := (Driver.step_moves hd fun hn => he (hn ▸ rfl)).kernel
    cases hc : x.driver.calls e with
    | none =>
      rw [hc] at hkernel
      exact Or.inl ⟨hc, hkernel⟩
    | some e₀ =>
      rw [hc] at hkernel
      obtain ⟨o, hk⟩ := hkernel
      exact Or.inr ⟨e₀, hc, stepFrom_step hk⟩
  | alloc _ hs hd => exact Or.inr ⟨_, by simp only [calls, hs], hcall hd⟩
  | create _ hs hd => exact Or.inr ⟨_, by simp only [calls, hs], hcall hd⟩
  | loop _ hs => exact Or.inl ⟨by simp only [calls, hs], rfl⟩
  | leave _ hs => exact Or.inl ⟨by simp only [calls, hs], rfl⟩
  | dispatch _ hs hd => exact Or.inr ⟨_, by simp only [calls, hs], hcall hd⟩
  | exit _ hs hd => exact Or.inr ⟨_, by simp only [calls, hs], hcall hd⟩
  | funcWrapper => exact Or.inl ⟨rfl, rfl⟩

/-! The idle thread. -/

/-- What the driver keeps of a thread that it does not know, when the thread makes no call that
stops it. -/
theorem driver_tended {e : Driver.Event} (h : d.step e = .ok d') (he : e ≠ .finish) (hd : d.Sane)
    (hp : Driver.Allowed d e) (hs : ∀ e₀, d.calls e = some e₀ → d.kernel.running = t →
      stops e₀ = false) (ht : Driver.Tended d.kernel d.characterReadyToGet gone t) :
    Driver.Tended d'.kernel d'.characterReadyToGet gone t := by
  obtain ⟨hsame, -, hkernel⟩ := Driver.step_moves h he
  rw [hsame.ready]
  cases hc : d.calls e with
  | none =>
    rw [hc] at hkernel
    exact hkernel ▸ ht
  | some e₀ =>
    rw [hc] at hkernel
    obtain ⟨o, hk⟩ := hkernel
    exact ht.stepFrom hk hd.inv (hp.call hc).1 (hs e₀ hc)

theorem driver_idleThread {e : Driver.Event} (h : d.step e = .ok d') :
    d'.idleThread = d.idleThread := by
  have htrap : ∀ {e o x}, d.trap e = .ok (o, x) → x.idleThread = d.idleThread := by
    intro e o x h
    obtain ⟨k, -, rfl⟩ := Driver.trap_ok h
    rfl
  cases e with
  | call e =>
    obtain ⟨o, ht⟩ := Driver.call_ok h
    exact htrap ht
  | putc ch =>
    cases h
    rfl
  | getc =>
    obtain ⟨o, x₁, ht, rfl⟩ := Driver.getc_ok h
    have hsame := htrap ht
    split_ifs
    · exact hsame
    · exact hsame
  | putter hw =>
    obtain ⟨-, rfl⟩ := Driver.putter_ok h
    rfl
  | getter hw ch =>
    rcases Driver.getterThread_ok (Driver.getter_ok h).2 with ⟨-, o, x₁, ht, rfl⟩ | ⟨-, c, -, rfl⟩
    · have hsame := htrap ht
      exact hsame
    · rfl
  | interrupt n =>
    cases h
    rfl
  | finish =>
    obtain ⟨-, -, rfl⟩ := Driver.finish_ok h
    rfl

/-- What the steps keep. The idle thread is a child of `main` that runs or is ready until it has
exited; it does so behind its loop, and `userMain` has returned by then. -/
structure Keeps (x : System) : Prop where
  sane : x.driver.Sane
  apart : x.driver.idleThread ≠ x.driver.putcThread ∧ x.driver.idleThread ≠ x.driver.getcThread
  tended : ∃ gone, Driver.Tended x.driver.kernel x.driver.characterReadyToGet gone
    x.driver.idleThread ∧ (gone = true → x.idle = .over)
  behind : x.idle = .over → x.finished = true
  killed : x.driver.console.killed = true → x.finished = true
  returned : x.finished = true → x.userMainThread ≠ none
  started : x.userMainThread ≠ none → x.idle = .test ∨ x.idle = .dispatch ∨ x.idle = .over

/-- When the loop of `main` is over, so is that of the idle thread. -/
theorem Keeps.ended (hx : x.Keeps) (hl : x.driver.loops = false) :
    ¬x.driver.kernel.Alive x.driver.idleThread ∧ x.idle = .over ∧ x.finished = true := by
  unfold Driver.loops at hl
  rw [Bool.or_eq_false_iff, Bool.not_eq_false'] at hl
  have hdead := not_alive_of_isFinished hl.1
  obtain ⟨gone, ht, hgone⟩ := hx.tended
  have hover : x.idle = .over := by
    refine hgone ?_
    cases gone with
    | true => rfl
    | false => exact absurd (ht.living rfl).2.alive hdead
  exact ⟨hdead, hover, hx.behind hover⟩

theorem Keeps.allowed {e : OSK.Event} (hx : x.Keeps)
    (hrun : x.driver.kernel.running = x.driver.idleThread) (he : handle e = none)
    (hv : victim e = none) : Driver.Allowed x.driver (.call e) := by
  refine ⟨by simp [he], hv, fun ha => ?_⟩
  rcases ha with ha | ha
  · exact absurd (hrun.symm.trans ha) hx.apart.1
  · exact absurd (hrun.symm.trans ha) hx.apart.2

theorem Keeps.apart_step {e : Driver.Event} (hx : x.Keeps) (h : x.driver.step e = .ok d)
    (he : e ≠ .finish) :
    d.idleThread ≠ d.putcThread ∧ d.idleThread ≠ d.getcThread := by
  have hsame := (Driver.step_moves h he).same
  rw [driver_idleThread h, hsame.putter, hsame.getter]
  exact hx.apart

/-- The idle thread lives on when something else happens. -/
theorem Keeps.tended_step {e : Driver.Event} (hx : x.Keeps) (h : x.driver.step e = .ok d)
    (he : e ≠ .finish) (hp : Driver.Allowed x.driver e)
    (hs : ∀ e₀, x.driver.calls e = some e₀ → x.driver.kernel.running = x.driver.idleThread →
      stops e₀ = false) :
    ∃ gone, Driver.Tended d.kernel d.characterReadyToGet gone d.idleThread ∧
      (gone = true → x.idle = .over) := by
  obtain ⟨gone, ht, hgone⟩ := hx.tended
  rw [driver_idleThread h]
  exact ⟨gone, driver_tended h he hx.sane hp hs ht, hgone⟩

theorem tended_dead {k : Kernel} {s : SemId} (hn : t ≤ k.ID) (hm : t ≠ mainThread)
    (hd : ¬k.Alive t) : Driver.Tended k s true t :=
  ⟨hn, hm, fun _ hr => hd ⟨_, hr⟩, by simp, fun _ => hd⟩

/-- A step of the driver that is not the idle thread's. -/
theorem Keeps.step {e : Driver.Event} (hx : x.Keeps) (h : x.driver.step e = .ok d)
    (hp : Allowed x (.step e)) : Keeps { x with driver := d } := by
  by_cases he : e = .finish
  · subst he
    have hend := Driver.finish_ok h
    obtain ⟨hdead, hover, hf⟩ := hx.ended hend.2.1
    obtain ⟨gone, ht, -⟩ := hx.tended
    have hsane := Driver.step_sane hx.sane hp.1 h
    obtain ⟨-, -, rfl⟩ := hend
    have hID : x.driver.killConsole.kernel.ID = x.driver.kernel.ID :=
      ((subtleKill_stays _ _).trans (subtleKill_stays _ _)).ID
    have hdead' : ¬x.driver.killConsole.kernel.Alive x.driver.idleThread := by
      rintro ⟨c, hr⟩
      exact hdead ⟨c, Driver.resumes_subtleKill (Driver.resumes_subtleKill hr)⟩
    exact ⟨hsane, hx.apart, ⟨true, tended_dead (hID ▸ ht.named) ht.main hdead', fun _ => hover⟩,
      hx.behind, fun _ => hf, hx.returned, hx.started⟩
  · have hs : ∀ e₀, x.driver.calls e = some e₀ →
        x.driver.kernel.running = x.driver.idleThread → stops e₀ = false := by
      intro e₀ hc hrun
      have hout := hp.2 hrun
      cases e with
      | call e =>
        cases hc
        obtain rfl := hout
        rfl
      | interrupt n => cases hc
      | _ => exact hout.elim
    exact ⟨Driver.step_sane hx.sane hp.1 h, hx.apart_step h he, hx.tended_step h he hp.1 hs,
      hx.behind, fun hk => hx.killed ((Driver.step_moves h he).killed ▸ hk), hx.returned, hx.started⟩

/-- A call of the idle thread in front of its exit. -/
theorem Keeps.call {e : OSK.Event} {i : IdleStage} {o : Option Tid} (hx : x.Keeps)
    (h : x.driver.step (.call e) = .ok d) (hrun : x.driver.kernel.running = x.driver.idleThread)
    (he : handle e = none) (hv : victim e = none) (hs : stops e = false) (hover : x.idle ≠ .over)
    (hi : i ≠ .over) (ho : o = x.userMainThread ∨ o ≠ none)
    (hstart : o ≠ none → i = .test ∨ i = .dispatch ∨ i = .over) :
    Keeps { x with driver := d, idle := i, userMainThread := o } := by
  have hp := hx.allowed hrun he hv
  have hne : Driver.Event.call e ≠ .finish := by simp
  obtain ⟨gone, ht, hgone⟩ := hx.tended_step h hne hp fun e₀ hc _ => by
    cases hc
    exact hs
  refine ⟨Driver.step_sane hx.sane hp h, hx.apart_step h hne,
    ⟨gone, ht, fun hg => absurd (hgone hg) hover⟩, fun hn => absurd hn hi,
    fun hk => hx.killed ((Driver.step_moves h hne).killed ▸ hk), fun hf => ?_, hstart⟩
  rcases ho with rfl | ho
  · exact hx.returned hf
  · exact ho

/-- The exit of the idle thread. -/
theorem Keeps.exit (hx : x.Keeps) (h : x.driver.step (.call .threadExit) = .ok d)
    (hrun : x.driver.kernel.running = x.driver.idleThread) (hover : x.idle = .over) :
    Keeps { x with driver := d } ∧ ¬d.kernel.Alive d.idleThread := by
  have hp := hx.allowed (e := .threadExit) hrun rfl rfl
  have hne : Driver.Event.call .threadExit ≠ .finish := by simp
  obtain ⟨-, hkilled, o, hk⟩ := Driver.step_moves h hne
  have hstep := stepFrom_step hk
  obtain ⟨gone, ht, -⟩ := hx.tended
  have hdead : ¬d.kernel.Alive d.idleThread := by
    rw [driver_idleThread h]
    exact fun ha => ((exit_alive hstep hx.sane.inv).1 ha).2 hrun.symm
  have hnamed : d.idleThread ≤ d.kernel.ID := by
    rw [driver_idleThread h]
    exact ht.named.trans (step_fresh hstep hx.sane.inv).2.1
  exact ⟨⟨Driver.step_sane hx.sane hp h, hx.apart_step h hne,
    ⟨true, tended_dead hnamed (driver_idleThread h ▸ ht.main) hdead, fun _ => hover⟩,
    hx.behind, fun hk => hx.killed (hkilled ▸ hk), hx.returned, hx.started⟩, hdead⟩

theorem step_keeps (h : x.step e = .ok x') (hx : x.Keeps) (hp : Allowed x e) : x'.Keeps := by
  cases step_does h with
  | step hd => exact hx.step hd hp
  | alloc hrun hs hd hi =>
    refine hx.call hd hrun rfl rfl rfl (by simp [hs]) hi (Or.inl rfl) fun ho => ?_
    have := hx.started ho
    simp [hs] at this
  | create hrun hs hd =>
    exact hx.call hd hrun rfl rfl rfl (by simp [hs]) (by simp) (Or.inr (by simp))
      fun _ => Or.inl rfl
  | loop hrun hs hf =>
    obtain ⟨gone, ht, hgone⟩ := hx.tended
    exact ⟨hx.sane, hx.apart, ⟨gone, ht, fun hg => by simpa [hs] using hgone hg⟩, nofun,
      hx.killed, hx.returned, fun _ => Or.inr (Or.inl rfl)⟩
  | leave hrun hs hf =>
    obtain ⟨gone, ht, -⟩ := hx.tended
    exact ⟨hx.sane, hx.apart, ⟨gone, ht, fun _ => rfl⟩, fun _ => hf, hx.killed, hx.returned,
      fun _ => Or.inr (Or.inr rfl)⟩
  | dispatch hrun hs hd =>
    exact hx.call hd hrun rfl rfl rfl (by simp [hs]) (by simp) (Or.inl rfl) fun _ => Or.inl rfl
  | exit hrun hs hd => exact (hx.exit hd hrun hs).1
  | funcWrapper ht =>
    exact ⟨hx.sane, hx.apart, hx.tended, fun _ => rfl, fun _ => rfl, fun _ => by simp [ht],
      hx.started⟩

/-! Runs. -/

theorem step_driver (h : x.step e = .ok x') :
    x'.driver = x.driver ∨ ∃ e₀, x.driver.step e₀ = .ok x'.driver := by
  cases step_does h with
  | step hd => exact Or.inr ⟨_, hd⟩
  | alloc _ _ hd => exact Or.inr ⟨_, hd⟩
  | create _ _ hd => exact Or.inr ⟨_, hd⟩
  | dispatch _ _ hd => exact Or.inr ⟨_, hd⟩
  | exit _ _ hd => exact Or.inr ⟨_, hd⟩
  | _ => exact Or.inl rfl

/-- `main` that is behind its loop stays there. -/
theorem step_killed (h : x.step e = .ok x') (hk : x.driver.console.killed = true) :
    x'.driver.console.killed = true := by
  rcases step_driver h with hd | ⟨e₀, hd⟩
  · rwa [hd]
  · by_cases he : e₀ = .finish
    · subst he
      obtain ⟨-, -, hd⟩ := Driver.finish_ok hd
      rw [hd]
      rfl
    · rwa [(Driver.step_moves hd he).killed]

theorem step_finished (h : x.step e = .ok x') :
    x'.finished = true ↔ x.finished = true ∨ e = .funcWrapper := by
  cases step_does h <;> simp

/-- `finished` says whether `userMain` has returned. -/
theorem run_flags {P : System → Event → Prop} (h : Run step P x₀ es x)
    (hf : x₀.finished = false) : (x.finished = true ↔ .funcWrapper ∈ es) ∧
      (.step .finish ∈ es → x.driver.console.killed = true) := by
  induction h with
  | nil => simp [hf]
  | @snoc es x e x' _ _ hstep ih =>
    obtain ⟨hfin, hkill⟩ := ih
    refine ⟨?_, fun hin => ?_⟩
    · rw [step_finished hstep, hfin, List.mem_append, List.mem_singleton, @eq_comm _ e]
    · rcases List.mem_append.1 hin with hin | hin
      · exact step_killed hstep (hkill hin)
      · obtain rfl := List.mem_singleton.1 hin
        obtain ⟨d, hd, hstep⟩ := bind_ok hstep
        cases hstep
        obtain ⟨-, -, rfl⟩ := Driver.finish_ok hd
        rfl

/-- Nobody gets up again. -/
theorem step_dead (h : x.step e = .ok x') (hx : x.Keeps)
    (hd : ¬x.driver.kernel.Alive x.driver.idleThread) :
    ¬x'.driver.kernel.Alive x'.driver.idleThread := by
  obtain ⟨gone, ht, -⟩ := hx.tended
  rcases step_driver h with he | ⟨e₀, he⟩
  · rwa [he]
  rw [driver_idleThread he]
  intro ha
  by_cases hfin : e₀ = .finish
  · subst hfin
    obtain ⟨-, -, hk⟩ := Driver.finish_ok he
    rw [hk] at ha
    obtain ⟨c, hr⟩ := ha
    exact hd ⟨c, Driver.resumes_subtleKill (Driver.resumes_subtleKill hr)⟩
  have hkernel := (Driver.step_moves he hfin).kernel
  cases hc : x.driver.calls e₀ with
  | none =>
    rw [hc] at hkernel
    exact hd (hkernel ▸ ha)
  | some e₁ =>
    rw [hc] at hkernel
    obtain ⟨o, hk⟩ := hkernel
    exact Kernel.step_dead (stepFrom_step hk) hx.sane.inv ht.named hd ha

/-- How many statements the idle thread still makes before its exit when `userMain` has
returned. -/
def left (x : System) : ℕ :=
  match x.idle with
  | .dispatch => 2
  | .test => 1
  | _ => 0

theorem step_left (h : x.step e = .ok x') (hx : x.Keeps) (hf : x.finished = true) :
    ¬x'.driver.kernel.Alive x'.driver.idleThread ∨
      x'.left + (if e = .idle then 1 else 0) ≤ x.left := by
  have hstarted := hx.started (hx.returned hf)
  cases step_does h with
  | step => exact Or.inr (Nat.le_refl _)
  | alloc _ hs => simp [hs] at hstarted
  | create _ hs => simp [hs] at hstarted
  | loop _ _ hn => simp [hf] at hn
  | leave _ hs => exact Or.inr (by simp [left, hs])
  | dispatch _ hs => exact Or.inr (by simp [left, hs])
  | exit hrun hs hd => exact Or.inl (hx.exit hd hrun hs).2
  | funcWrapper => exact Or.inr (Nat.le_refl _)

/-- `main` has made its threads, the idle thread among them, and `init` has run. -/
structure Starts (start total : ℕ) (x : System) : Prop where
  driver : Driver.Starts start total x.driver
  created : Driver.Created x.driver.kernel x.driver.idleThread
  apart : x.driver.idleThread ≠ x.driver.putcThread ∧ x.driver.idleThread ≠ x.driver.getcThread
  idle : x.idle = .alloc
  userMainThread : x.userMainThread = none
  finished : x.finished = false

theorem Starts.keeps (hs : Starts start total x) : x.Keeps := by
  have hnot : x.driver.console.killed = false := by
    rw [hs.driver.console]
    rfl
  have ht := hs.driver.tended hs.created
  rw [hnot] at ht
  exact ⟨hs.driver.sane, hs.apart, ⟨false, ht, by simp⟩, by simp [hs.idle], by simp [hnot],
    by simp [hs.finished], by simp [hs.userMainThread]⟩

theorem run_keeps (hs : Starts start total x₀) (h : Run step Allowed x₀ es x) : x.Keeps :=
  h.invariant Keeps hs.keeps fun _ _ _ hx hp hs => step_keeps hs hx hp

/-- `main` does not leave its loop before `userMain` has returned. -/
theorem returned_first (hs : Starts start total x₀) (h : Run step Allowed x₀ es x)
    (hend : x.driver.loops = false ∨ .step .finish ∈ es) : .funcWrapper ∈ es := by
  have hx := run_keeps hs h
  obtain ⟨hfin, hkill⟩ := run_flags h hs.finished
  rcases hend with hl | hin
  · exact hfin.1 (hx.ended hl).2.2
  · exact hfin.1 (hx.killed (hkill hin))

/-- When it has, three more statements of the idle thread are enough for its exit. -/
theorem idle_exits {es' : List Event} (hs : Starts start total x₀) (h : Run step Allowed x₀ es x)
    (hin : .funcWrapper ∈ es) (h' : Run step Allowed x es' x') (hn : 3 ≤ es'.count .idle) :
    x'.driver.kernel.isFinished x'.driver.idleThread = true := by
  have hx := run_keeps hs h
  have hf := (run_flags h hs.finished).1.2 hin
  have hleft : x.left + 1 ≤ 3 := by
    unfold left
    split <;> decide
  have hdead : ¬x'.driver.kernel.Alive x'.driver.idleThread :=
    h'.settles (fun y => y.Keeps ∧ y.finished = true)
      (fun y => ¬y.driver.kernel.Alive y.driver.idleThread) left ⟨hx, hf⟩
      (fun _ _ _ hy hp hs => ⟨step_keeps hs hy.1 hp, (step_finished hs).2 (Or.inl hy.2)⟩)
      (fun _ _ _ hy _ hs => step_left hs hy.1 hy.2) (fun _ _ _ hy _ hs => step_dead hs hy.1)
      (hleft.trans hn)
  by_contra hne
  exact hdead (alive_of_isFinished (Bool.eq_false_iff.2 hne))

end System
end OSK
