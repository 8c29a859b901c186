import RiscVKernel.Kernel.State
import RiscVKernel.Lib.Ring
import RiscVKernel.Lib.Runs

/-! `_console.hpp` and `_console.cpp`: two ring buffers between the system calls
`putc` and `getc` and the two console threads. A console thread can be preempted
between any two of its statements, so that each of them is a step of its own;
what runs in a system call or in `main` is not preempted. The state is the one
after `init`. -/

namespace OSK

/-- `NUM_OF_CHARS`. -/
def numOfChars : ℕ := 1024

/-- The statement of `character_putter_thread` that comes next. In `advance` and
`write` the local `ch` is set. -/
inductive PutterAt
  | test
  | read
  | advance (ch : UInt8)
  | write (ch : UInt8)
  | settle
  deriving DecidableEq, Repr

/-- The statement of `character_getter_thread` that comes next. -/
inductive GetterAt
  | test
  | store
  | advance
  | signal
  | settle
  deriving DecidableEq, Repr

/-- Where in the code a character was written to the terminal. -/
inductive Writer
  | putter
  | echo
  | drain
  | message
  deriving DecidableEq, Repr

/-- The bits of the console status register. -/
structure Status where
  receiveReady : Bool
  transferReady : Bool
  deriving DecidableEq, Repr

/-- The console's variables; `val` and `queueBlocked` of `characterReadyToGet`,
and the callers that a signal has taken out of that queue and that are not back
in `getCharFromBuffer` yet; the places of the two threads. The last five fields
record the run, and nothing reads them. -/
structure Console where
  headPrint : ℕ
  tailPrint : ℕ
  bufferPrint : ℕ → UInt8
  headGet : ℕ
  tailGet : ℕ
  bufferGet : ℕ → UInt8
  consoleInterrupt : Bool
  val : ℤ
  queueBlocked : List Tid
  woken : List Tid
  putter : PutterAt
  getter : GetterAt
  killed : Bool
  accepted : List UInt8
  received : List UInt8
  signals : ℕ
  answers : List (Tid × Option UInt8)
  terminal : List (Writer × UInt8)

namespace Console

/-- A `signal` of an empty queue, a thread that does not wait, a thread that was
killed, a `main` that has not finished. -/
inductive Fault
  | nullThread
  | notWoken
  | finished
  | printing
  deriving DecidableEq, Repr

def start : Console :=
  { headPrint := 0
    tailPrint := 0
    bufferPrint := fun _ => 0
    headGet := 0
    tailGet := 0
    bufferGet := fun _ => 0
    consoleInterrupt := false
    val := 0
    queueBlocked := []
    woken := []
    putter := .test
    getter := .test
    killed := false
    accepted := []
    received := []
    signals := 0
    answers := []
    terminal := [] }

/-- `headPrint - tailPrint` of two `uint64`. -/
def isThereAnythingToPrint (c : Console) : Bool := wrapSub c.headPrint c.tailPrint ≠ 0

def putCharInTerminal (c : Console) (writer : Writer) (ch : UInt8) : Console :=
  { c with terminal := c.terminal ++ [(writer, ch)] }

/-- The echo of a received character; it waits until the terminal is ready. -/
def getCharFromTerminal (c : Console) (ch : UInt8) : Console :=
  if 33 ≤ ch ∧ ch ≤ 126 then c.putCharInTerminal .echo ch else c

/-- `console_interrupt_handler` for the number `plic_claim` returned. -/
def consoleInterruptHandler (c : Console) (intNumber : ℕ) : Console :=
  if intNumber = 0xa then { c with consoleInterrupt := true } else c

/-- The result and the state. -/
def putCharInBuffer (c : Console) (ch : UInt8) : ℤ × Console :=
  if (c.headPrint + 1) % numOfChars = c.tailPrint then (-1, c)
  else (0, { c with
    bufferPrint := Function.update c.bufferPrint c.headPrint ch
    headPrint := (c.headPrint + 1) % numOfChars })

/-- `getCharFromBuffer` behind its `wait`; no character stands for the result -1
of the branch that finds the ring empty. -/
def takeChar (c : Console) (t : Tid) : Console :=
  if c.headGet = c.tailGet then { c with answers := c.answers ++ [(t, none)] }
  else { c with
    answers := c.answers ++ [(t, some (c.bufferGet c.tailGet))]
    tailGet := (c.tailGet + 1) % numOfChars }

def getCharFromBuffer (c : Console) (t : Tid) : Console :=
  let c := { c with val := c.val - 1 }
  if 0 ≤ c.val then c.takeChar t else { c with queueBlocked := c.queueBlocked ++ [t] }

/-- `sem_signal(characterReadyToGet)`. -/
def signalReady (c : Console) : Except Fault Console :=
  let c := { c with val := c.val + 1, signals := c.signals + 1 }
  if 0 < c.val then .ok c
  else match c.queueBlocked with
    | [] => .error .nullThread
    | t :: q => .ok { c with queueBlocked := q, woken := c.woken ++ [t] }

/-- The end of an interrupt, when there is nothing more to do. -/
def settleInterrupt (c : Console) (hw : Status) : Console :=
  if !hw.receiveReady && !hw.transferReady && c.consoleInterrupt then
    { c with consoleInterrupt := false }
  else c

/-- One statement of `character_putter_thread`. -/
def putterThread (c : Console) (hw : Status) : Console :=
  match c.putter with
  | .test =>
    { c with
      putter := if hw.transferReady ∧ c.headPrint ≠ c.tailPrint then .read else .settle }
  | .read => { c with putter := .advance (c.bufferPrint c.tailPrint) }
  | .advance ch => { c with tailPrint := (c.tailPrint + 1) % numOfChars, putter := .write ch }
  | .write ch => { c.putCharInTerminal .putter ch with putter := .test }
  | .settle => { c.settleInterrupt hw with putter := .test }

/-- One statement of `character_getter_thread`; `ch` is the character the
terminal hands out when the statement reads it. -/
def getterThread (c : Console) (hw : Status) (ch : UInt8) : Except Fault Console :=
  match c.getter with
  | .test =>
    .ok { c with
      getter := if hw.receiveReady ∧ c.consoleInterrupt ∧ c.headGet + 1 ≠ c.tailGet then .store
        else .settle }
  | .store =>
    .ok { c.getCharFromTerminal ch with
      bufferGet := Function.update c.bufferGet c.headGet ch
      received := c.received ++ [ch]
      getter := .advance }
  | .advance => .ok { c with headGet := (c.headGet + 1) % numOfChars, getter := .signal }
  | .signal => (c.signalReady).map fun c => { c with getter := .test }
  | .settle => .ok { c.settleInterrupt hw with getter := .test }

inductive Event
  | putc (ch : UInt8)
  | getc (t : Tid)
  | resume (t : Tid)
  | putter (hw : Status)
  | getter (hw : Status) (ch : UInt8)
  | interrupt (intNumber : ℕ)
  | kill
  deriving DecidableEq, Repr

/-- `resume` is the return of a woken caller from `wait`, and `kill` is `main`
leaving its loop and marking the two console threads finished. -/
def step (c : Console) : Event → Except Fault Console
  | .putc ch =>
    let (r, c) := c.putCharInBuffer ch
    .ok (if r = 0 then { c with accepted := c.accepted ++ [ch] } else c)
  | .getc t => .ok (c.getCharFromBuffer t)
  | .resume t =>
    if t ∈ c.woken then .ok ({ c with woken := c.woken.erase t }.takeChar t)
    else .error .notWoken
  | .putter hw => if c.killed then .error .finished else .ok (c.putterThread hw)
  | .getter hw ch => if c.killed then .error .finished else c.getterThread hw ch
  | .interrupt n => .ok (c.consoleInterruptHandler n)
  | .kill => if c.isThereAnythingToPrint then .error .printing else .ok { c with killed := true }

variable {c c' : Console} {ch : UInt8} {t : Tid} {hw : Status}

theorem putc_ok (h : step c (.putc ch) = .ok c') :
    (c.headPrint + 1) % numOfChars = c.tailPrint ∧ c' = c ∨
      (c.headPrint + 1) % numOfChars ≠ c.tailPrint ∧
        c' = { c with
          bufferPrint := Function.update c.bufferPrint c.headPrint ch
          headPrint := (c.headPrint + 1) % numOfChars
          accepted := c.accepted ++ [ch] } := by
  have h : Except.ok (if (c.putCharInBuffer ch).1 = 0 then
      { (c.putCharInBuffer ch).2 with accepted := (c.putCharInBuffer ch).2.accepted ++ [ch] }
      else (c.putCharInBuffer ch).2) = .ok c' := h
  unfold putCharInBuffer at h
  by_cases hfull : (c.headPrint + 1) % numOfChars = c.tailPrint
  · simp only [hfull, if_true] at h
    cases h
    exact Or.inl ⟨hfull, rfl⟩
  · simp only [hfull, if_false] at h
    cases h
    exact Or.inr ⟨hfull, rfl⟩

theorem getCharFromBuffer_eq (c : Console) (t : Tid) :
    0 ≤ c.val - 1 ∧ c.getCharFromBuffer t = { c with val := c.val - 1 }.takeChar t ∨
      c.val - 1 < 0 ∧ c.getCharFromBuffer t =
        { c with val := c.val - 1, queueBlocked := c.queueBlocked ++ [t] } := by
  unfold getCharFromBuffer
  by_cases hv : 0 ≤ c.val - 1
  · exact Or.inl ⟨hv, if_pos hv⟩
  · exact Or.inr ⟨Int.not_le.1 hv, if_neg hv⟩

theorem resume_ok (h : step c (.resume t) = .ok c') :
    t ∈ c.woken ∧ c' = { c with woken := c.woken.erase t }.takeChar t := by
  have h : (if t ∈ c.woken then .ok ({ c with woken := c.woken.erase t }.takeChar t)
    else Except.error Fault.notWoken) = .ok c' := h
  split_ifs at h with ht
  cases h
  exact ⟨ht, rfl⟩

theorem putter_ok (h : step c (.putter hw) = .ok c') : c.killed = false ∧ c' = c.putterThread hw := by
  have h : (if c.killed then Except.error Fault.finished else .ok (c.putterThread hw)) = .ok c' := h
  split_ifs at h with hk
  cases h
  exact ⟨by simpa using hk, rfl⟩

theorem getter_ok (h : step c (.getter hw ch) = .ok c') :
    c.killed = false ∧ c.getterThread hw ch = .ok c' := by
  have h : (if c.killed then Except.error Fault.finished else c.getterThread hw ch) = .ok c' := h
  split_ifs at h with hk
  exact ⟨by simpa using hk, h⟩

theorem kill_ok (h : step c .kill = .ok c') :
    c.isThereAnythingToPrint = false ∧ c' = { c with killed := true } := by
  have h : (if c.isThereAnythingToPrint then Except.error Fault.printing
    else .ok { c with killed := true }) = .ok c' := h
  split_ifs at h with hk
  cases h
  exact ⟨by simpa using hk, rfl⟩

theorem signalReady_ok (h : c.signalReady = .ok c') :
    0 < c.val + 1 ∧ c' = { c with val := c.val + 1, signals := c.signals + 1 } ∨
      ∃ t q, c.val + 1 ≤ 0 ∧ c.queueBlocked = t :: q ∧
        c' = { c with
          val := c.val + 1
          signals := c.signals + 1
          queueBlocked := q
          woken := c.woken ++ [t] } := by
  unfold signalReady at h
  dsimp only at h
  split_ifs at h with hv
  · cases h
    exact Or.inl ⟨hv, rfl⟩
  · cases hq : c.queueBlocked with
    | nil => simp [hq] at h
    | cons t q =>
      simp only [hq] at h
      cases h
      exact Or.inr ⟨t, q, Int.not_lt.1 hv, rfl, rfl⟩

/-- What one statement of the getter does. -/
theorem getterThread_ok (h : c.getterThread hw ch = .ok c') :
    (c.getter = .test ∧ ∃ g, c' = { c with getter := g } ∧
        (g = .store ∧ c.headGet + 1 ≠ c.tailGet ∨ g = .settle)) ∨
      (c.getter = .store ∧ c' = { c.getCharFromTerminal ch with
        bufferGet := Function.update c.bufferGet c.headGet ch
        received := c.received ++ [ch]
        getter := .advance }) ∨
      (c.getter = .advance ∧
        c' = { c with headGet := (c.headGet + 1) % numOfChars, getter := .signal }) ∨
      (c.getter = .signal ∧ ∃ c₁, c.signalReady = .ok c₁ ∧ c' = { c₁ with getter := .test }) ∨
      (c.getter = .settle ∧ c' = { c.settleInterrupt hw with getter := .test }) := by
  unfold getterThread at h
  cases hg : c.getter with
  | test =>
    simp only [hg] at h
    cases h
    refine Or.inl ⟨rfl, _, rfl, ?_⟩
    split_ifs with hc
    · exact Or.inl ⟨rfl, hc.2.2⟩
    · exact Or.inr rfl
  | store =>
    simp only [hg] at h
    cases h
    exact Or.inr (Or.inl ⟨rfl, rfl⟩)
  | advance =>
    simp only [hg] at h
    cases h
    exact Or.inr (Or.inr (Or.inl ⟨rfl, rfl⟩))
  | signal =>
    simp only [hg] at h
    cases hs : c.signalReady with
    | error f => simp [hs, Except.map] at h
    | ok c₁ =>
      rw [hs] at h
      cases h
      exact Or.inr (Or.inr (Or.inr (Or.inl ⟨rfl, c₁, rfl, rfl⟩)))
  | settle =>
    simp only [hg] at h
    cases h
    exact Or.inr (Or.inr (Or.inr (Or.inr ⟨rfl, rfl⟩)))

/-! The end of the kernel. -/

/-- `empty_console_print_all`, given what `transferReady` returns one time after
another; nothing when the loop has not ended by then. -/
def emptyConsolePrintAll (c : Console) : List Bool → Option Console
  | [] => if c.headPrint = c.tailPrint then some c else none
  | ready :: polls =>
    if c.headPrint = c.tailPrint then some c
    else if ready then
      emptyConsolePrintAll ({ c with tailPrint := (c.tailPrint + 1) % numOfChars }.putCharInTerminal
        .drain (c.bufferPrint c.tailPrint)) polls
    else emptyConsolePrintAll c polls

def chars (s : String) : List UInt8 := s.toList.map fun ch => ch.toNat.toUInt8

/-- Text in red; `priority_print` waits for the terminal before each character. -/
def priorityPrint (c : Console) (s : List UInt8) : Console :=
  { c with
    terminal := c.terminal ++ (chars "\x1b[31m" ++ s ++ chars "\x1b[0m").map (Writer.message, ·) }

def killQEMU (c : Console) (polls : List Bool) : Option Console :=
  (c.emptyConsolePrintAll polls).map (·.priorityPrint (chars "\nKernel finished! :)\n\n"))

/-- `text` is the message with the stack trace. -/
def errorMsgTerminate (c : Console) (text : List UInt8) (polls : List Bool) : Option Console :=
  (c.priorityPrint text).killQEMU polls

/-! What a state of the console says. -/

/-- The characters in `bufferPrint`. -/
def toPrint (c : Console) : List UInt8 :=
  Lib.ringItems c.bufferPrint numOfChars c.tailPrint c.headPrint

/-- The characters in `bufferGet`. -/
def unread (c : Console) : List UInt8 :=
  Lib.ringItems c.bufferGet numOfChars c.tailGet c.headGet

/-- The character the putter has taken out of the ring and not written yet. -/
def held (c : Console) : List UInt8 :=
  match c.putter with
  | .write ch => [ch]
  | _ => []

/-- The character the getter has stored and not moved `headGet` over yet. -/
def pending (c : Console) : List UInt8 :=
  match c.getter with
  | .advance => [c.bufferGet c.headGet]
  | _ => []

def writtenBy (c : Console) (ws : List Writer) : List UInt8 :=
  (c.terminal.filter (·.1 ∈ ws)).map (·.2)

/-- The characters `getc` has returned. -/
def taken (c : Console) : List UInt8 := c.answers.filterMap (·.2)

end Console
end OSK
