import RiscVKernel.Kernel.State

/-! `_context.cpp`: `dispatch` takes the processor from the running thread and
gives it to the first thread of the ready queue, which then runs on from where
its context was saved until it is back in user code. -/

namespace OSK

namespace Kernel

/-! What a resumed thread does before it is back in user code. -/

/-- `generateWAITResponses`, with the answer of the wait function it ends. -/
def generateWaitResponses (k : Kernel) (s : SemId) : Except Fault Kernel := do
  let th ← k.thread k.running
  let k := k.setThreadsSemStatus k.running .nonWaiting
  return k.note (.answer k.running s (match th.semStatus with
    | .nonWaiting => .didntWait
    | .waiting => .error
    | .timedWaiting => .error
    | .semDeleted => .dead
    | .regularlyWaited => .okayWaited
    | .timeout => .timeout))

/-- The rest of `wait` after `dispatch` in `block`. -/
def afterBlock (k : Kernel) (s : SemId) : Except Fault Kernel :=
  (k.setMySem k.running none).generateWaitResponses s

/-- `numOfTimedWaiting--` through the `this` of `timedBlock`. -/
def decTimedWaiting (k : Kernel) (s : SemId) : Kernel :=
  match k.sems s with
  | some m => k.setSem s { m with numOfTimedWaiting := wrapSub m.numOfTimedWaiting 1 }
  | none => k.note (.freedWrite (.sem s) (k.semAddr s + numOfTimedWaitingOffset))

/-- The rest of `timedWait` after `dispatch` in `timedBlock`. -/
def afterTimedBlock (k : Kernel) (s : SemId) : Except Fault Kernel :=
  (((k.setMySem k.running none).decTimedWaiting s).setTimeForWakingUp k.running 0).generateWaitResponses s

/-- The rest of `put_thread_to_sleep` after `dispatch`. -/
def afterSleep (k : Kernel) : Kernel :=
  (k.setThreadState k.running .ready).setTimeForWakingUp k.running 0

/-- The running thread goes on from where its context leads. -/
def resume (k : Kernel) : Except Fault Kernel := do
  let th ← k.thread k.running
  match th.context with
  | .threadWrapper => return k
  | .toUser => return k
  | .block s => k.afterBlock s
  | .timedBlock s => k.afterTimedBlock s
  | .sleep => return k.afterSleep

/-! Deleting threads. -/

/-- `delete thr`: the destructor frees the stack, `operator delete` the record. -/
def deleteThread (k : Kernel) (t : Tid) : Except Fault Kernel := do
  let th ← k.thread t
  return { k with
    heap := ((k.heap.kmfree th.stack).2.kmfree (k.threadAddr t)).2
    threads := Function.update k.threads t none }

def threadDead (k : Kernel) (t : Tid) : Except Fault Bool := .ok (k.isFinished t)

def deleteThreadInDispatch (k : Kernel) (t : Tid) : Except Fault Kernel :=
  let (r, k) := k.removeReady t
  if r && k.isThreadValid t && k.isFinished t then k.deleteThread t else .ok k

/-! `dispatch`. -/

/-- The old thread leaves the processor: back into the ready queue if it can
run, deleted if it is finished. -/
def leave (k : Kernel) : Except Fault Kernel := do
  let old := k.running
  let th ← k.thread old
  let k ← if th.threadState = .ready ∨ th.threadState = .running then
      (k.setThreadState old .ready).put old
    else pure k
  if k.isFinished old then k.deleteThread old else return k

/-- `contextSwitch` stores `ra` and `sp` of the old thread, also when its record
was deleted in `leave`. -/
def saveContext (k : Kernel) (old : Tid) (saved : Context) : Kernel :=
  if k.isThreadValid old then k.modifyThread old fun th => { th with context := saved }
  else k.note (.freedWrite (.context old) (k.threadAddr old + contextOffset))

/-- The first live thread of the ready queue becomes the running one. -/
def arrive (k : Kernel) (saved : Context) : Except Fault Kernel := do
  let old := k.running
  let k ← foreachWhile deleteThreadInDispatch threadDead k.queueThreads.items k
  match k.get with
  | (none, _) => .error .nullRunning
  | (some t, k) =>
    let k := { k with running := t }.setThreadState t .running
    (k.saveContext old saved).resume

/-- `dispatch`; the old thread's saved context leads to `saved`. -/
def dispatch (k : Kernel) (saved : Context) : Except Fault Kernel := do
  let k ← { k with runningThreadCpuTime := 0 }.leave
  k.arrive saved

/-- `parentThread->numOfChildren--`, also when the parent was deleted. -/
def decNumOfChildren (k : Kernel) (p : Tid) : Kernel :=
  if k.isThreadValid p then
    k.modifyThread p fun th => { th with numOfChildren := wrapSub th.numOfChildren 1 }
  else k.note (.freedWrite (.parent p) (k.threadAddr p + numOfChildrenOffset))

def exit (k : Kernel) : Except Fault Kernel := do
  let th ← k.thread k.running
  let k := match th.parentThread with
    | some p => k.decNumOfChildren p
    | none => k
  (k.setFinished k.running).dispatch .toUser

/-- The result and the state. -/
def subtleKill (k : Kernel) (t : Tid) : ℤ × Kernel :=
  match k.threads t with
  | none => (-10, k)
  | some th =>
    if th.parentThread ≠ some k.running then (-2, k)
    else if k.running = t then (-3, k)
    else (0, k.setFinished t)

end Kernel
end OSK
