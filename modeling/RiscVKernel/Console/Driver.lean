import RiscVKernel.Console.Getting
import RiscVKernel.Kernel.Aloof
import RiscVKernel.Kernel.Children
import RiscVKernel.Kernel.MainThread

/-! The console in the kernel. `characterReadyToGet` is a semaphore of the kernel, the two
console threads are threads that `main` has created, and `getc` blocks its caller like any
`sem_wait`. Between two steps any thread may have the processor. -/

namespace OSK

open Lib Kernel

/-- The kernel after `init` of the console, and the variables of the console. The fields `val`,
`queueBlocked` and `woken` of `console` have no part in this: the semaphore is in the kernel. -/
structure Driver where
  kernel : Kernel
  console : Console
  characterReadyToGet : SemId
  putcThread : Tid
  getcThread : Tid
  idleThread : Tid

namespace Driver

/-- A fault of the kernel or of the console, a thread that does not have the processor, a `main`
that stays in its loop. -/
inductive Fault
  | kernel (f : OSK.Fault)
  | console (f : Console.Fault)
  | notRunning
  | looping
  deriving DecidableEq, Repr

inductive Event
  | call (e : OSK.Event)
  | putc (ch : UInt8)
  | getc
  | putter (hw : Status)
  | getter (hw : Status) (ch : UInt8)
  | interrupt (intNumber : ℕ)
  | finish
  deriving DecidableEq, Repr

/-- A call of the running thread, or a tick. A thread that goes on behind the `wait` of
`getCharFromBuffer` takes its character. -/
def trap (x : Driver) (e : OSK.Event) : Except Fault (Option Context × Driver) :=
  match x.kernel.stepFrom e with
  | .error f => .error (.kernel f)
  | .ok (o, k) => .ok (o, { x with
      kernel := k
      console := if o = some (.block x.characterReadyToGet) then x.console.takeChar k.running
        else x.console })

/-- `getCharFromBuffer`: when the `wait` comes back at once, the caller goes on. -/
def getc (x : Driver) : Except Fault Driver := do
  let (o, x) ← x.trap (.semWait (some x.characterReadyToGet))
  return if o = none then { x with console := x.console.takeChar x.kernel.running } else x

/-- One statement of `character_getter_thread`; `sem_signal` is a call. -/
def getterThread (x : Driver) (hw : Status) (ch : UInt8) : Except Fault Driver :=
  match x.console.getter with
  | .signal => do
    let (_, x) ← x.trap (.semSignal (some x.characterReadyToGet))
    return { x with
      console := { x.console with signals := x.console.signals + 1, getter := .test } }
  | _ =>
    match x.console.getterThread hw ch with
    | .error f => .error (.console f)
    | .ok c => .ok { x with console := c }

/-- The condition of the loop of `main`, by the name of the idle thread. What `main` reads in its
record may keep it in the loop for longer. -/
def loops (x : Driver) : Bool :=
  !x.kernel.isFinished x.idleThread || x.console.isThereAnythingToPrint

/-- `main` behind its loop. -/
def killConsole (x : Driver) : Driver :=
  { x with
    kernel := ((x.kernel.subtleKill x.putcThread).2.subtleKill x.getcThread).2
    console := { x.console with killed := true } }

/-- A step of the whole. The statements of the console threads are theirs when they have the
processor; that they do not have it after `finish` is for the kernel to see to. -/
def step (x : Driver) : Event → Except Fault Driver
  | .call e => do
    let (_, x) ← x.trap e
    return x
  | .putc ch =>
    let (r, c) := x.console.putCharInBuffer ch
    .ok { x with console := if r = 0 then { c with accepted := c.accepted ++ [ch] } else c }
  | .getc => x.getc
  | .putter hw =>
    if x.kernel.running = x.putcThread then .ok { x with console := x.console.putterThread hw }
    else .error .notRunning
  | .getter hw ch =>
    if x.kernel.running = x.getcThread then x.getterThread hw ch else .error .notRunning
  | .interrupt n => .ok { x with console := x.console.consoleInterruptHandler n }
  | .finish =>
    if x.kernel.running = mainThread ∧ x.loops = false then .ok x.killConsole
    else .error .looping

variable {x x' : Driver} {hw : Status} {ch : UInt8}

theorem trap_ok {e : OSK.Event} {o : Option Context} (h : x.trap e = .ok (o, x')) :
    ∃ k, x.kernel.stepFrom e = .ok (o, k) ∧ x' = { x with
      kernel := k
      console := if o = some (.block x.characterReadyToGet) then x.console.takeChar k.running
        else x.console } := by
  unfold trap at h
  cases hk : x.kernel.stepFrom e with
  | error f =>
    rw [hk] at h
    cases h
  | ok r =>
    rw [hk] at h
    cases h
    exact ⟨_, rfl, rfl⟩

theorem putter_ok (h : x.step (.putter hw) = .ok x') :
    x.kernel.running = x.putcThread ∧ x' = { x with console := x.console.putterThread hw } := by
  have h : (if x.kernel.running = x.putcThread then
    .ok { x with console := x.console.putterThread hw } else Except.error Fault.notRunning) = .ok x' := h
  split_ifs at h with hrun
  cases h
  exact ⟨hrun, rfl⟩

theorem getter_ok (h : x.step (.getter hw ch) = .ok x') :
    x.kernel.running = x.getcThread ∧ x.getterThread hw ch = .ok x' := by
  have h : (if x.kernel.running = x.getcThread then x.getterThread hw ch
    else Except.error Fault.notRunning) = .ok x' := h
  split_ifs at h with hrun
  exact ⟨hrun, h⟩

theorem getterThread_ok (h : x.getterThread hw ch = .ok x') :
    (x.console.getter = .signal ∧ ∃ o x₁, x.trap (.semSignal (some x.characterReadyToGet)) = .ok (o, x₁) ∧
        x' = { x₁ with
          console := { x₁.console with signals := x₁.console.signals + 1, getter := .test } }) ∨
      (x.console.getter ≠ .signal ∧ ∃ c, x.console.getterThread hw ch = .ok c ∧
        x' = { x with console := c }) := by
  unfold getterThread at h
  split at h
  case h_1 hg =>
    obtain ⟨⟨o, x₁⟩, htrap, h⟩ := bind_ok h
    cases h
    exact Or.inl ⟨hg, o, x₁, htrap, rfl⟩
  case h_2 hg =>
    refine Or.inr ⟨hg, ?_⟩
    cases hc : x.console.getterThread hw ch with
    | error f => simp [hc] at h
    | ok c =>
      rw [hc] at h
      cases h
      exact ⟨c, rfl, rfl⟩

theorem getc_ok (h : x.getc = .ok x') :
    ∃ o x₁, x.trap (.semWait (some x.characterReadyToGet)) = .ok (o, x₁) ∧
      x' = if o = none then { x₁ with console := x₁.console.takeChar x₁.kernel.running } else x₁ := by
  obtain ⟨⟨o, x₁⟩, htrap, h⟩ := bind_ok h
  cases h
  exact ⟨o, x₁, htrap, rfl⟩

theorem call_ok {e : OSK.Event} (h : x.step (.call e) = .ok x') : ∃ o, x.trap e = .ok (o, x') := by
  obtain ⟨⟨o, x₁⟩, htrap, h⟩ := bind_ok h
  cases h
  exact ⟨o, htrap⟩

theorem finish_ok (h : x.step .finish = .ok x') :
    x.kernel.running = mainThread ∧ x.loops = false ∧ x' = x.killConsole := by
  have h : (if x.kernel.running = mainThread ∧ x.loops = false then .ok x.killConsole
    else Except.error Fault.looping) = .ok x' := h
  split_ifs at h with hrun
  cases h
  exact ⟨hrun.1, hrun.2, rfl⟩

/-- The running thread is one of the console. -/
def Attends (x : Driver) : Prop :=
  x.kernel.running = x.putcThread ∨ x.kernel.running = x.getcThread

instance (x : Driver) : Decidable x.Attends := inferInstanceAs (Decidable (_ ∨ _))

/-- User code has no handle of `characterReadyToGet` and cannot kill threads. A console thread
is preempted, or gives the processor up behind its inner loop. -/
def Allowed (x : Driver) : Event → Prop
  | .call e => handle e ≠ some x.characterReadyToGet ∧ victim e = none ∧
      (x.Attends → e = .tick ∨ e = .threadDispatch)
  | .getc => ¬x.Attends
  | _ => True

instance (x : Driver) : (e : Event) → Decidable (Allowed x e)
  | .call _ => inferInstanceAs (Decidable (_ ∧ _ ∧ (_ → _)))
  | .getc => inferInstanceAs (Decidable (¬_))
  | .putc _ => isTrue trivial
  | .putter _ => isTrue trivial
  | .getter _ _ => isTrue trivial
  | .interrupt _ => isTrue trivial
  | .finish => isTrue trivial

/-- The getter does not move `headGet` around the end onto a `tailGet` of 0. -/
def Keeps (x : Driver) : Event → Prop
  | .getter hw ch => Console.Keeps x.console (.getter hw ch)
  | _ => True

instance (x : Driver) : (e : Event) → Decidable (Keeps x e)
  | .getter hw ch => inferInstanceAs (Decidable (Console.Keeps x.console (.getter hw ch)))
  | .call _ => isTrue trivial
  | .putc _ => isTrue trivial
  | .getc => isTrue trivial
  | .putter _ => isTrue trivial
  | .interrupt _ => isTrue trivial
  | .finish => isTrue trivial

/-- `init`, when `main` has created its threads: a new semaphore, and both rings empty. -/
def init (k : Kernel) (putcThread getcThread idleThread : Tid) : Except Fault Driver :=
  match k.step (.semOpen 0) with
  | .error f => .error (.kernel f)
  | .ok k' => .ok {
      kernel := k'
      console := Console.start
      characterReadyToGet := k.nextSem
      putcThread := putcThread
      getcThread := getcThread
      idleThread := idleThread }

theorem init_ok {k : Kernel} {putc getc idle : Tid} (h : init k putc getc idle = .ok x) :
    k.step (.semOpen 0) = .ok x.kernel ∧ x.console = Console.start ∧
      x.characterReadyToGet = k.nextSem := by
  unfold init at h
  cases hk : k.step (.semOpen 0) with
  | error f => simp [hk] at h
  | ok k' =>
    rw [hk] at h
    cases h
    exact ⟨rfl, rfl, rfl⟩

/-- A child of `main` that runs or is ready. -/
def Created (k : Kernel) (t : Tid) : Prop :=
  k.Child mainThread t ∧ (k.running = t ∨ t ∈ k.queueThreads.items)

instance (k : Kernel) (t : Tid) : Decidable (Created k t) := inferInstanceAs (Decidable (_ ∧ _))

theorem Created.up {k : Kernel} {t : Tid} (h : Created k t) : k.Up t := by
  obtain ⟨⟨th, hth, hf, -⟩, hplace⟩ := h
  exact ⟨alive_iff.2 ⟨th, hth, hf⟩, hplace⟩

/-- The kernel may have done anything before `init`; the two threads for the console are there. -/
structure Starts (start total : ℕ) (x : Driver) : Prop where
  opened : ∃ kb es k, boot start total = some kb ∧ Run Kernel.step (fun _ _ => True) kb es k ∧
    init k x.putcThread x.getcThread x.idleThread = .ok x
  putter : Created x.kernel x.putcThread
  getter : Created x.kernel x.getcThread

/-- A first state that is computed, with what can be computed about it. -/
theorem exists_starts {start total : ℕ} {es : List OSK.Event} {putc getc idle : Tid}
    {q : Driver → Bool}
    (h : ((boot start total).bind fun kb => exec Kernel.step (fun _ _ => True) kb es).any
      (fun k => match init k putc getc idle with
        | .error _ => false
        | .ok x => decide (Created x.kernel x.putcThread ∧ Created x.kernel x.getcThread) && q x) =
          true) : ∃ x, Starts start total x ∧ q x = true := by
  obtain ⟨kb, k, hb, hrun, hq⟩ := exists_run h
  cases hx : init k putc getc idle with
  | error f => simp [hx] at hq
  | ok x =>
    simp only [hx, Bool.and_eq_true, decide_eq_true_eq] at hq
    obtain ⟨⟨hp, hg⟩, hq⟩ := hq
    have hnames : x.putcThread = putc ∧ x.getcThread = getc ∧ x.idleThread = idle := by
      unfold init at hx
      split at hx <;> cases hx
      exact ⟨rfl, rfl, rfl⟩
    obtain ⟨rfl, rfl, rfl⟩ := hnames
    exact ⟨x, ⟨⟨kb, es, k, hb, hrun, hx⟩, hp, hg⟩, hq⟩

/-! Samples: `main` has made its threads, and `init` runs on behalf of the one for printing.
Thread 4 waits for a character, which comes while the terminal takes another one. -/

def created : List OSK.Event :=
  [.memAlloc 65, .threadCreate 4096 5328, .memAlloc 65, .threadCreate 4096 9680, .memAlloc 65,
    .threadCreate 4096 14032, .threadDispatch]

def reading : List Event :=
  [.call .threadDispatch, .call .threadDispatch, .getc, .call .threadDispatch, .interrupt 10,
    .call .threadDispatch] ++ List.replicate 4 (.getter ⟨true, false⟩ 65)

def answering : List Event :=
  [.call .threadDispatch, .putc 66, .call .threadDispatch] ++
    List.replicate 4 (.putter ⟨false, true⟩) ++ [.call .threadDispatch, .call .threadDispatch]

end Driver
end OSK
