import RiscVKernel.Kernel.Time

/-! `_sysCalls.hpp` and the timer: the events by which control leaves user code.
One step goes from user code to user code. Handles are names of objects, or
null; a step with the handle of a deleted object is a fault. -/

namespace OSK

inductive Event
  | memAlloc (numOfBlocks : UInt64)
  | memFree (ptr : ℕ)
  | threadCreate (body : UInt64) (stack : ℕ)
  | threadExit
  | threadDispatch
  | semOpen (init : UInt32)
  | semClose (sem : Option SemId)
  | semWait (sem : Option SemId)
  | semSignal (sem : Option SemId)
  | semTimedwait (sem : Option SemId) (maxTime : UInt64)
  | semTrywait (sem : Option SemId)
  | timeSleep (timeForSleeping : UInt64)
  | tick
  | subtleKill (t : Tid)
  deriving DecidableEq, Repr

namespace Kernel

def memAlloc (k : Kernel) (numOfBlocks : UInt64) : ℕ × Kernel :=
  match k.heap.kmalloc numOfBlocks.toNat with
  | none => (0, k)
  | some (p, h) => (p, { k with heap := h, user := p :: k.user })

/-- User code frees blocks it holds, or no block at all. -/
def memFree (k : Kernel) (ptr : ℕ) : Except Fault (ℤ × Kernel) :=
  if ptr ∈ k.user ∨ ptr ∉ k.heap.payloads then
    let (r, h) := k.heap.kmfree ptr
    .ok (r, { k with heap := h, user := k.user.erase ptr })
  else .error .notOwned

/-- The constructor of `_thread` for a stack block the caller holds; the running
thread becomes the parent. -/
def newThread (k : Kernel) (body : UInt64) (stack : ℕ) : Except Fault Kernel :=
  if stack ∈ k.user then
    match k.heap.kmalloc (blocksFor threadSize) with
    | none => .error .nullObject
    | some (p, h) => do
      let t := k.ID + 1
      let th : Thread :=
        { body := body, stack := stack, context := .threadWrapper, timeSlice := defaultTimeSlice,
          threadState := .ready, parentThread := some k.running, numOfChildren := 0,
          semStatus := .nonWaiting, mySem := none, timeForWakingUp := 0 }
      let k := { k with heap := h, user := k.user.erase stack }
      let k ← if body ≠ 0 then k.put t else pure k
      let k := k.modifyThread k.running fun th =>
        { th with numOfChildren := wrap (th.numOfChildren + 1) }
      return { k with
        threads := Function.update k.threads t (some th)
        threadAddr := Function.update k.threadAddr t p
        ID := t }
  else .error .notOwned

/-- `time_sleep_wrapper`. -/
def timeSleep (k : Kernel) (timeForSleeping : UInt64) : Except Fault Kernel :=
  k.putThreadToSleep
    (if timeForSleeping > (1 : UInt64) <<< 63 then timeForSleeping >>> 1 else timeForSleeping)

/-- A wrapper returns at once when the handle is null. -/
def withHandle (k : Kernel) (sem : Option SemId) (f : SemId → Except Fault Kernel) :
    Except Fault Kernel :=
  match sem with
  | none => .ok k
  | some s => f s

def step (k : Kernel) : Event → Except Fault Kernel
  | .memAlloc n => .ok (k.memAlloc n).2
  | .memFree p => (k.memFree p).map (·.2)
  | .threadCreate body stack => k.newThread body stack
  | .threadExit => k.exit
  | .threadDispatch => k.dispatch .toUser
  | .semOpen n => k.newSem n.toUInt64
  | .semClose s => k.withHandle s k.deleteSem
  | .semWait s => k.withHandle s k.wait
  | .semSignal s => k.withHandle s fun s => (k.signal s).map (·.2)
  | .semTimedwait s m => k.withHandle s fun s => k.timedWait s m
  | .semTrywait s => k.withHandle s fun s => (k.tryWait s).map (·.2)
  | .timeSleep t => k.timeSleep t
  | .tick => k.timerInterruptHandler
  | .subtleKill t => .ok (k.subtleKill t).2

/-- `myID` of the thread of `main`. -/
def mainThread : Tid := 1

/-- The state after the first `thread_create` of `main`: the only thread is
running and is not queued. -/
def bootState (heap : Heap) (stack p : ℕ) : Kernel :=
  let th : Thread :=
    { body := 0, stack := stack, context := .threadWrapper, timeSlice := defaultTimeSlice,
      threadState := .running, parentThread := none, numOfChildren := 0,
      semStatus := .nonWaiting, mySem := none, timeForWakingUp := 0 }
  { heap := heap
    threads := Function.update (fun _ => none) mainThread (some th)
    threadAddr := Function.update (fun _ => 0) mainThread p
    sems := fun _ => none
    semAddr := fun _ => 0
    running := mainThread
    ID := mainThread
    nextSem := 0
    queueThreads := []
    listAsleepThreads := []
    allSemaphores := []
    sysTime := 0
    runningThreadCpuTime := 0
    user := []
    trace := [] }

/-- `main` on a fresh heap allocates its own stack and record. -/
def boot (start total : ℕ) : Option Kernel := do
  let (stack, h) ← (Heap.init start total).kmalloc (blocksFor stackSize)
  let (p, h) ← h.kmalloc (blocksFor threadSize)
  return bootState h stack p

end Kernel
end OSK
