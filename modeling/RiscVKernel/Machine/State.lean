import RiscVKernel.Kernel.Ecalls
import RiscVKernel.Lib.Store

/-! The processor under the kernel: `supervisorTrap.S`, `handleSupervisorTrap`,
`pushRegisters`, `contextSwitch` and `popSppSpieChangeMod`, with the registers they
save and the memory they save them in. What the compiled code between them does to
registers and memory is the choice of the run; a store of it that could hit the
stack of another thread or a saved context ends the run as `stray`. -/

namespace OSK

open Lib

inductive Mode
  | user
  | supervisor
  deriving DecidableEq, Repr

/-- The bits of `sstatus` that the kernel uses. -/
structure Sstatus where
  spp : Mode
  spie : Bool
  sie : Bool
  deriving DecidableEq, Repr

namespace Sstatus

/-- `BitMaskSstatus`. -/
def sieMask : UInt64 := (1 : UInt64) <<< 1
def spieMask : UInt64 := (1 : UInt64) <<< 5
def sppMask : UInt64 := (1 : UInt64) <<< 8

def word (s : Sstatus) : UInt64 :=
  (if s.spp = .supervisor then sppMask else 0) ||| (if s.spie then spieMask else 0) |||
    (if s.sie then sieMask else 0)

def ofWord (w : UInt64) : Sstatus where
  spp := if w &&& sppMask = 0 then .user else .supervisor
  spie := decide (w &&& spieMask ≠ 0)
  sie := decide (w &&& sieMask ≠ 0)

theorem ofWord_word (s : Sstatus) : ofWord s.word = s := by
  rcases s with ⟨_ | _, _ | _, _ | _⟩ <;> decide

end Sstatus

abbrev Registers := Fin 32 → UInt64

/-- `sp` and `a0`. -/
def sp : Fin 32 := 2
def a0 : Fin 32 := 10

structure Cpu where
  x : Registers
  pc : UInt64
  mode : Mode
  sstatus : Sstatus
  sepc : UInt64

/-- `trapType`, as far as the model has it. -/
def ecallU : UInt64 := 0x0000000000000008
def ecallS : UInt64 := 0x0000000000000009
def timer : UInt64 := 0x8000000000000001

/-- The cause that the hardware reports. -/
def Mode.scause (mode : Mode) (ecall : Bool) : UInt64 :=
  if ecall then
    match mode with
    | .user => ecallU
    | .supervisor => ecallS
  else timer

namespace Cpu

/-- What the hardware does at a trap, apart from the jump to `stvec`. -/
def trap (c : Cpu) : Cpu :=
  { c with
    sepc := c.pc
    mode := .supervisor
    sstatus := { spp := c.mode, spie := c.sstatus.sie, sie := false } }

def sret (c : Cpu) : Cpu :=
  { c with
    pc := c.sepc
    mode := c.sstatus.spp
    sstatus := { spp := .user, spie := true, sie := c.sstatus.spie } }

/-- An interrupt is taken. -/
def interruptible (c : Cpu) : Bool := c.mode = .user || c.sstatus.sie

/-- `a0` to `a4` at the call of `handleSupervisorTrap`. -/
def args (x : Registers) : Kernel.Args := ⟨x 10, x 11, x 12, x 13, x 14⟩

end Cpu

/-- What the linker and the compiler settle: the address of `threadWrapper`, the
addresses behind the calls of `contextSwitch` in `dispatch` and of
`popSppSpieChangeMod` in `threadWrapper`, the sizes of two stack frames, where
`handleSupervisorTrap` has its locals (below the registers of `supervisorTrap`), and
the stack that `main` runs on. -/
structure Image where
  threadWrapper : UInt64
  dispatchReturn : UInt64
  wrapperReturn : UInt64
  switchFrame : UInt64
  wrapperFrame : UInt64
  sepc : ℕ
  sstatus : ℕ
  locals : ℕ
  bootStack : ℕ × ℕ
  apart : threadWrapper ≠ dispatchReturn
  sepc_fits : 8 ≤ sepc ∧ sepc ≤ locals
  sstatus_fits : 8 ≤ sstatus ∧ sstatus ≤ locals
  separate : sepc + 8 ≤ sstatus ∨ sstatus + 8 ≤ sepc

/-- The stack of `main` is no part of the heap. -/
def Image.Outside (img : Image) (start total : ℕ) : Prop :=
  img.bootStack.2 ≤ start ∨ start + memBlockSize * total ≤ img.bootStack.1

instance (img : Image) (start total : ℕ) : Decidable (img.Outside start total) :=
  inferInstanceAs (Decidable (_ ∨ _))

/-- A call of `handleSupervisorTrap` that a thread left in `dispatch`: where its frame
is, and what `pushRegisters` was to save. -/
structure Activation where
  ecall : Bool
  frame : UInt64
  sp : UInt64
  x : Registers

structure Machine where
  kernel : Kernel
  cpu : Cpu
  mem : ℕ → UInt64
  activation : Tid → Option Activation
  warnings : List UInt64

/-- Why a step of the machine does not come back: a fault of the kernel, a call the
model does not have, an interrupt while interrupts are off, a store or a stack
pointer of compiled code out of bounds, registers that `popRegisters` does not get
back, and a switch to where no thread was left. -/
inductive Crash
  | kernel (f : Fault)
  | outside
  | masked
  | stray
  | clobbered
  | wild
  deriving DecidableEq, Repr

/-- What compiled code does in one passage through the kernel: the stack pointer and
the registers at `pushRegisters`, the stores before it and those of the resumed
thread, and the registers that a new thread starts with. -/
structure Passage where
  sp : UInt64
  x : Registers
  before : List (ℕ × UInt64)
  after : List (ℕ × UInt64)
  start : Registers

inductive Action
  | user (x : Registers) (pc : UInt64) (stores : List (ℕ × UInt64))
  | subtleKill (t : Tid)
  | ecall (p : Passage)
  | timer (p : Passage)

/-- A result as it stands in a register. -/
def register (r : ℤ) : UInt64 := UInt64.ofInt r

namespace Kernel

/-- The words of a saved context. -/
def context (k : Kernel) (t : Tid) : ℕ := k.threadAddr t + contextOffset

/-- The bytes of the block at `p`. -/
def blockOf (k : Kernel) (p : ℕ) : ℕ × ℕ :=
  (p, p - sizeHeader + memBlockSize * (k.heap.sizeAt p).getD 0)

/-- The stack a thread runs on. -/
def stackOf (img : Image) (k : Kernel) (t : Tid) : ℕ × ℕ :=
  if t = mainThread then img.bootStack
  else
    match k.threads t with
    | none => (0, 0)
    | some th => k.blockOf th.stack

/-- A word the code of `t` may store to. -/
def Clear (img : Image) (k : Kernel) (t : Tid) (w : ℕ) : Prop :=
  ∀ t' < k.ID + 1, (k.threads t').isSome = true →
    (t' ≠ t → Off w (k.stackOf img t').1 (k.stackOf img t').2) ∧
      Off w (k.context t') (k.context t' + 16)

instance (img : Image) (k : Kernel) (t : Tid) (w : ℕ) : Decidable (k.Clear img t w) :=
  inferInstanceAs (Decidable (∀ t' < k.ID + 1, _ → _ ∧ _))

/-- `ecall_handler`. -/
def ecallHandler (k : Kernel) (r : Args) : Except Crash (Outcome × Kernel) :=
  match k.decode r with
  | .event e => (k.enter e).mapError .kernel
  | .opens val => ((k.newSem val).map fun k => returning (0, k)).mapError .kernel
  | .unknown => .ok (.returns (some (-55)), k)
  | .outside => .error .outside

/-- The branches of `handleSupervisorTrap` for system calls and for the timer. -/
def handleTrap (k : Kernel) (scause : UInt64) (r : Args) : Except Crash (Outcome × Kernel) :=
  if scause = ecallU ∨ scause = ecallS then k.ecallHandler r
  else if scause = timer then (k.enter .tick).mapError .kernel
  else .error .outside

/-- `checkForNestedSysCalls` has something to report. -/
def nested (k : Kernel) : Bool :=
  match k.threads k.running with
  | none => false
  | some th => th.body ≠ 0

end Kernel

namespace Machine

open Kernel

/-- The registers that `pushRegisters` saves. -/
def pushed : List (Fin 32) := (List.finRange 32).filter fun i => 3 ≤ i.val

/-- The stores of `supervisorTrap`, whose `sp` is saved after it was lowered, and of
the locals of `handleSupervisorTrap`. -/
def enterTrap (img : Image) (mem : ℕ → UInt64) (c : Cpu) (ecall : Bool) : ℕ → UInt64 :=
  let frame := c.x sp - 256
  let mem := store mem (table frame.toNat (List.finRange 32) (Function.update c.x sp frame))
  store mem
    [(frame.toNat - img.sepc, c.sepc + if ecall then 4 else 0),
      (frame.toNat - img.sstatus, c.sstatus.word)]

/-- The result goes over the saved `a0`. -/
def storeResult (mem : ℕ → UInt64) (frame : UInt64) : Option ℤ → ℕ → UInt64
  | none => mem
  | some r => store mem [(frame.toNat + a0.val * 8, register r)]

/-- The end of `handleSupervisorTrap` and of `supervisorTrap`. -/
def leaveTrap (img : Image) (mem : ℕ → UInt64) (frame : UInt64) : Cpu :=
  let x : Registers := fun i => mem (frame.toNat + i.val * 8)
  Cpu.sret
    { x := Function.update x sp (x sp + 256)
      pc := 0
      mode := .supervisor
      sstatus := .ofWord (mem (frame.toNat - img.sstatus))
      sepc := mem (frame.toNat - img.sepc) }

/-- The thread gets back to user code, with the result of its call if it has one. -/
def comeBack (img : Image) (m : Machine) (frame : UInt64) (r : Option ℤ) : Machine :=
  let mem := storeResult m.mem frame r
  { m with cpu := leaveTrap img mem frame, mem := mem }

/-- Room for the frame of `supervisorTrap`, the locals below it and, below them, what
`pushRegisters` stores. -/
def Room (img : Image) (k : Kernel) (t : Tid) (frame low : UInt64) : Prop :=
  (k.stackOf img t).1 + 256 ≤ low.toNat ∧ low.toNat + img.locals ≤ frame.toNat ∧
    frame.toNat + 256 ≤ (k.stackOf img t).2

/-- The stores leave the frame of the trap and the locals alone, and all that belongs to
other threads. -/
def Tidy (img : Image) (k : Kernel) (t : Tid) (frame : UInt64) (ws : List (ℕ × UInt64)) : Prop :=
  ∀ w ∈ ws, k.Clear img t w.1 ∧ Off w.1 (frame.toNat - img.locals) (frame.toNat + 256)

instance (img : Image) (k : Kernel) (t : Tid) (frame low : UInt64) :
    Decidable (Room img k t frame low) := inferInstanceAs (Decidable (_ ∧ _ ∧ _))

instance (img : Image) (k : Kernel) (t : Tid) (frame : UInt64) (ws : List (ℕ × UInt64)) :
    Decidable (Tidy img k t frame ws) := inferInstanceAs (Decidable (∀ w ∈ ws, _ ∧ _))

/-- The constructor of `_thread` sets the context of the new thread. -/
def newContext (img : Image) (k k' : Kernel) : List (ℕ × UInt64) :=
  if k'.ID = k.ID then []
  else
    match k'.threads k'.ID with
    | none => []
    | some th =>
      [(k'.context k'.ID, img.threadWrapper),
        (k'.context k'.ID + 8, UInt64.ofNat (th.stack + stackSize))]

/-- `contextSwitch` saves `ra` and `sp`. -/
def savedContext (img : Image) (k : Kernel) (old : Tid) (low : UInt64) : List (ℕ × UInt64) :=
  [(k.context old, img.dispatchReturn), (k.context old + 8, low - 256 - img.switchFrame)]

/-- A thread that has not run starts in `threadWrapper`, which `sret` leaves for user
mode. -/
def startThread (img : Image) (c : Cpu) (top : UInt64) (start : Registers) : Cpu :=
  Cpu.sret
    { c with
      x := Function.update start sp (top - img.wrapperFrame)
      sstatus := { c.sstatus with spp := .user }
      sepc := img.wrapperReturn }

/-- From the loads of `contextSwitch` on, in the thread that goes on in `m.kernel`. -/
def goOn (img : Image) (m : Machine) (p : Passage) : Except Crash Machine :=
  let k := m.kernel
  let new := k.running
  let ra := m.mem (k.context new)
  let top := m.mem (k.context new + 8) + img.switchFrame
  match k.threads new with
  | none => .error .wild
  | some th =>
    if ra = img.threadWrapper ∧ th.context = .threadWrapper then
      .ok { m with cpu := startThread img m.cpu top p.start }
    else if ra = img.dispatchReturn ∧ th.context ≠ .threadWrapper then
      match m.activation new with
      | none => .error .wild
      | some a =>
        if top + 256 = a.sp ∧ ∀ i ∈ pushed, m.mem (top.toNat + i.val * 8) = a.x i then
          match k.resume with
          | .error f => .error (.kernel f)
          | .ok k =>
            if Tidy img k new a.frame p.after then
              .ok (comeBack img
                { m with
                  kernel := k
                  mem := store m.mem p.after
                  activation := Function.update m.activation new none }
                a.frame (if a.ecall then th.answer else none))
            else .error .stray
        else .error .clobbered
    else .error .wild

/-- A trap of the running thread. -/
def trap (img : Image) (m : Machine) (ecall : Bool) (p : Passage) : Except Crash Machine :=
  let k := m.kernel
  let old := k.running
  let c := m.cpu.trap
  let scause := m.cpu.mode.scause ecall
  let frame := c.x sp - 256
  let warnings := if scause = ecallS ∧ k.nested then m.warnings ++ [c.sepc] else m.warnings
  if Room img k old frame p.sp ∧ Tidy img k old frame p.before then
    let mem := store (enterTrap img m.mem c ecall) p.before
    match k.handleTrap scause (Cpu.args c.x) with
    | .error e => .error e
    | .ok (.returns r, k') =>
      .ok (comeBack img
        { m with
          kernel := k'
          mem := store mem (newContext img k k')
          warnings := warnings }
        frame (if ecall then r else none))
    | .ok (.dispatches saved, k₁) =>
      match k₁.switch saved with
      | .error f => .error (.kernel f)
      | .ok k₂ =>
        let mem := store mem (table (p.sp - 256).toNat pushed p.x)
        goOn img
          { kernel := k₂
            cpu := c
            mem := store mem (savedContext img k₂ old p.sp)
            activation := Function.update m.activation old (some ⟨ecall, frame, p.sp, p.x⟩)
            warnings := warnings } p
  else .error .stray

def step (img : Image) (m : Machine) : Action → Except Crash Machine
  | .user x pc stores =>
    if ∀ w ∈ stores, m.kernel.Clear img m.kernel.running w.1 then
      .ok { m with cpu := { m.cpu with x := x, pc := pc }, mem := store m.mem stores }
    else .error .stray
  | .subtleKill t =>
    let (r, k) := m.kernel.subtleKill t
    .ok { m with
      kernel := k
      cpu := { m.cpu with x := Function.update m.cpu.x a0 (register r) } }
  | .ecall p => m.trap img true p
  | .timer p => if m.cpu.interruptible then m.trap img false p else .error .masked

/-- `main` runs in supervisor mode on its own stack; its registers, the memory and
whether interrupts are on are as the loader left them. -/
def boot (start total : ℕ) (x : Registers) (pc : UInt64) (sie : Bool) (mem : ℕ → UInt64) :
    Option Machine :=
  (Kernel.boot start total).map fun k =>
    { kernel := k
      cpu := ⟨x, pc, .supervisor, ⟨.user, false, sie⟩, 0⟩
      mem := mem
      activation := fun _ => none
      warnings := [] }

end Machine
end OSK
