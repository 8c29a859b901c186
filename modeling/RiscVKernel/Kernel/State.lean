import Mathlib.Data.List.Basic
import Mathlib.Logic.Function.Basic
import RiscVKernel.Memory.Words

/-! The kernel's data. A thread is named by its `myID` and a semaphore by the
order of its opening; `threadAddr` and `semAddr` give the payload addresses of
the records and keep them after the record is gone. A name without a record
stands for a pointer to a deleted object, so that `isThreadValid` is the
presence of the record. -/

namespace OSK

abbrev Tid := ℕ

abbrev SemId := ℕ

/-- Why a step does not come back to user code with the kernel in a defined state. -/
inductive Fault
  | nullNode
  | nullObject
  | nullThread
  | nullRunning
  | overflow
  | deadThread
  | deadHandle
  | notOwned
  deriving DecidableEq, Repr

/-! `_list.hpp`. The nodes of a list are blocks of the heap. -/

structure Elem (α : Type) where
  node : ℕ
  data : α
  deriving DecidableEq, Repr

abbrev KList (α : Type) := List (Elem α)

namespace KList

variable {α : Type}

def items (l : KList α) : List α := l.map (·.data)

def nodes (l : KList α) : List ℕ := l.map (·.node)

/-- `sizeof(Elem)` is two words. -/
def newNode (h : Heap) : Except Fault (ℕ × Heap) :=
  match h.kmalloc (blocksFor 16) with
  | none => .error .nullNode
  | some r => .ok r

def addLast (h : Heap) (l : KList α) (data : α) : Except Fault (Heap × KList α) := do
  let (elem, h) ← newNode h
  return (h, l ++ [⟨elem, data⟩])

/-- The new node stands before the first one that is not smaller. -/
def insertSorted (h : Heap) (l : KList α) (data : α) (cmp : α → α → Bool) :
    Except Fault (Heap × KList α) := do
  let (elem, h) ← newNode h
  return (h, l.takeWhile (cmp ·.data data) ++ ⟨elem, data⟩ :: l.dropWhile (cmp ·.data data))

def removeFirst (h : Heap) : KList α → Option α × Heap × KList α
  | [] => (none, h, [])
  | e :: l => (some e.data, (h.kmfree e.node).2, l)

def removeSpec [DecidableEq α] (h : Heap) (l : KList α) (ptr : α) : Bool × Heap × KList α :=
  match l.find? (·.data = ptr) with
  | none => (false, h, l)
  | some e => (true, (h.kmfree e.node).2, l.eraseP (·.data = ptr))

end KList

/-- `threadStateTypes`. -/
inductive ThreadState
  | running
  | ready
  | suspended
  | finished
  deriving DecidableEq, Repr

/-- `threadsSemStatus`. -/
inductive SemStatus
  | nonWaiting
  | waiting
  | timedWaiting
  | regularlyWaited
  | timeout
  | semDeleted
  deriving DecidableEq, Repr

/-- Where the `ra` and `sp` of a saved context lead: to `threadWrapper`, to the
end of a system call or of a timer interrupt with nothing left to do, or to the
statements behind the `dispatch` of `block`, `timedBlock` or
`put_thread_to_sleep`. -/
inductive Context
  | threadWrapper
  | toUser
  | block (s : SemId)
  | timedBlock (s : SemId)
  | sleep
  deriving DecidableEq, Repr

structure Thread where
  body : UInt64
  stack : ℕ
  context : Context
  timeSlice : ℕ
  threadState : ThreadState
  parentThread : Option Tid
  numOfChildren : ℕ
  semStatus : SemStatus
  mySem : Option SemId
  timeForWakingUp : ℕ
  deriving DecidableEq, Repr

structure Sem where
  val : ℤ
  queueBlocked : KList Tid
  numOfTimedWaiting : ℕ
  deriving DecidableEq, Repr

/-- `semWaitAnswers` of the wait functions. -/
inductive WaitAnswer
  | didntWait
  | okayWaited
  | dead
  | timeout
  | unexpected
  | error
  deriving DecidableEq, Repr

/-- An object that was already deleted when the kernel wrote one of its fields. -/
inductive Freed
  | sem (s : SemId)
  | parent (t : Tid)
  | context (t : Tid)
  deriving DecidableEq, Repr

/-- What the record of a run keeps beside the state. -/
inductive Note
  | answer (t : Tid) (s : SemId) (a : WaitAnswer)
  | dequeued (t : Tid) (s : SemId) (cause : SemStatus)
  | signalled (s : SemId)
  | freedWrite (o : Freed) (addr : ℕ)
  deriving DecidableEq, Repr

/-- The kernel's variables, the blocks user code holds, and the record `trace`
of the run so far, which no function of the kernel reads. -/
structure Kernel where
  heap : Heap
  threads : Tid → Option Thread
  threadAddr : Tid → ℕ
  sems : SemId → Option Sem
  semAddr : SemId → ℕ
  running : Tid
  ID : ℕ
  nextSem : ℕ
  queueThreads : KList Tid
  listAsleepThreads : KList Tid
  allSemaphores : KList SemId
  sysTime : ℕ
  runningThreadCpuTime : ℕ
  user : List ℕ
  trace : List Note

namespace Kernel

/-- `sizeof(_thread)` and the offsets of its fields `context` and `numOfChildren`. -/
def threadSize : ℕ := 112
def contextOffset : ℕ := 24
def numOfChildrenOffset : ℕ := 80

/-- `sizeof(_sem)` and the offset of its field `numOfTimedWaiting`. -/
def semSize : ℕ := 32
def numOfTimedWaitingOffset : ℕ := 24

def stackSize : ℕ := 4096
def defaultTimeSlice : ℕ := 2

def note (k : Kernel) (n : Note) : Kernel := { k with trace := k.trace ++ [n] }

/-! Records of threads. -/

/-- A field read through a pointer. -/
def thread (k : Kernel) (t : Tid) : Except Fault Thread :=
  match k.threads t with
  | none => .error .deadThread
  | some th => .ok th

def isThreadValid (k : Kernel) (t : Tid) : Bool := (k.threads t).isSome

def isFinished (k : Kernel) (t : Tid) : Bool :=
  match k.threads t with
  | none => true
  | some th => th.threadState = .finished

/-- Fields written if the thread is valid. -/
def modifyThread (k : Kernel) (t : Tid) (f : Thread → Thread) : Kernel :=
  { k with threads := Function.update k.threads t ((k.threads t).map f) }

def setFinished (k : Kernel) (t : Tid) : Kernel :=
  k.modifyThread t fun th => { th with threadState := .finished }

def setThreadState (k : Kernel) (t : Tid) (newState : ThreadState) : Kernel :=
  k.modifyThread t fun th => { th with threadState := newState }

def setTimeForWakingUp (k : Kernel) (t : Tid) (time : ℕ) : Kernel :=
  k.modifyThread t fun th => { th with timeForWakingUp := time }

def setMySem (k : Kernel) (t : Tid) (sem : Option SemId) : Kernel :=
  k.modifyThread t fun th => { th with mySem := sem }

/-- `set_threadsSemStatus`: it also moves the thread to the state that goes with
the status, and leaves a finished thread alone. -/
def setThreadsSemStatus (k : Kernel) (t : Tid) (status : SemStatus) : Kernel :=
  k.modifyThread t fun th =>
    if th.threadState = .finished then th
    else { th with
      semStatus := status
      threadState :=
        if status = .waiting ∨ status = .timedWaiting then .suspended
        else if k.running = t then .running
        else .ready }

/-! Records of semaphores. -/

def sem (k : Kernel) (s : SemId) : Except Fault Sem :=
  match k.sems s with
  | none => .error .deadHandle
  | some m => .ok m

def setSem (k : Kernel) (s : SemId) (m : Sem) : Kernel :=
  { k with sems := Function.update k.sems s (some m) }

/-- `val += d` on the `long` of `s`: the new value and the state. -/
def addVal (k : Kernel) (s : SemId) (d : ℤ) : Except Fault (ℤ × Kernel) := do
  let m ← k.sem s
  let val := m.val + d
  if -2 ^ 63 ≤ val ∧ val < 2 ^ 63 then return (val, k.setSem s { m with val := val })
  else throw .overflow

/-! The calls on the kernel's lists. -/

/-- `queueBlocked.addLast`. -/
def addBlocked (k : Kernel) (s : SemId) (t : Tid) : Except Fault Kernel := do
  let m ← k.sem s
  let (h, q) ← KList.addLast k.heap m.queueBlocked t
  return { k with heap := h }.setSem s { m with queueBlocked := q }

/-- `queueBlocked.removeFirst`. -/
def firstBlocked (k : Kernel) (s : SemId) : Except Fault (Option Tid × Kernel) := do
  let m ← k.sem s
  let (t, h, q) := KList.removeFirst k.heap m.queueBlocked
  return (t, { k with heap := h }.setSem s { m with queueBlocked := q })

/-- `queueBlocked.removeSpec`. -/
def removeBlocked (k : Kernel) (s : SemId) (t : Tid) : Except Fault Kernel := do
  let m ← k.sem s
  let (_, h, q) := KList.removeSpec k.heap m.queueBlocked t
  return { k with heap := h }.setSem s { m with queueBlocked := q }

/-- `remove_thread_from_sleep`. -/
def removeThreadFromSleep (k : Kernel) (t : Tid) : Bool × Kernel :=
  let (r, h, l) := KList.removeSpec k.heap k.listAsleepThreads t
  (r, { k with heap := h, listAsleepThreads := l })

/-- `smallerSleepTime`. -/
def smallerSleepTime (k : Kernel) (a b : Tid) : Bool :=
  match k.threads a, k.threads b with
  | some a, some b => a.timeForWakingUp < b.timeForWakingUp
  | _, _ => false

/-- `insert_ordered_in_list_of_sleeping_threads`. -/
def insertAsleep (k : Kernel) (t : Tid) : Except Fault Kernel := do
  if k.isThreadValid t then
    let (h, l) ← KList.insertSorted k.heap k.listAsleepThreads t k.smallerSleepTime
    return { k with heap := h, listAsleepThreads := l }
  else return k

/-- `Scheduler::put`. -/
def put (k : Kernel) (t : Tid) : Except Fault Kernel := do
  let (h, q) ← KList.addLast k.heap k.queueThreads t
  return { k with heap := h, queueThreads := q }

/-- `Scheduler::get`. -/
def get (k : Kernel) : Option Tid × Kernel :=
  let (t, h, q) := KList.removeFirst k.heap k.queueThreads
  (t, { k with heap := h, queueThreads := q })

/-- `queueThreads.removeSpec`. -/
def removeReady (k : Kernel) (t : Tid) : Bool × Kernel :=
  let (r, h, q) := KList.removeSpec k.heap k.queueThreads t
  (r, { k with heap := h, queueThreads := q })

/-- `_list::foreachWhile` over the nodes the list had at the start: `func` may
remove the node it is called for and adds none in front of the next one. -/
def foreachWhile (func : Kernel → Tid → Except Fault Kernel)
    (condition : Kernel → Tid → Except Fault Bool) : List Tid → Kernel → Except Fault Kernel
  | [], k => .ok k
  | t :: ts, k => do
    if ← condition k t then
      let k ← func k t
      foreachWhile func condition ts k
    else return k

end Kernel
end OSK
