import RiscVKernel.Kernel.Context

/-! `_sem.cpp`. -/

namespace OSK

namespace Kernel

def block (k : Kernel) (s : SemId) : Except Fault Kernel := do
  let old := k.running
  let k ← k.addBlocked s old
  ((k.setThreadsSemStatus old .waiting).setMySem old (some s)).dispatch (.block s)

def wait (k : Kernel) (s : SemId) : Except Fault Kernel := do
  let (val, k) ← k.addVal s (-1)
  if 0 ≤ val then return k.note (.answer k.running s .didntWait)
  else k.block s

/-- `numOfTimedWaiting++`. -/
def incTimedWaiting (k : Kernel) (s : SemId) : Except Fault Kernel := do
  let m ← k.sem s
  return k.setSem s { m with numOfTimedWaiting := wrap (m.numOfTimedWaiting + 1) }

def timedBlock (k : Kernel) (s : SemId) (maxTimeSleeping : UInt64) : Except Fault Kernel := do
  let timeForRelease := wrap (maxTimeSleeping.toNat + k.sysTime)
  let old := k.running
  let k := (k.setThreadsSemStatus old .timedWaiting).setTimeForWakingUp old timeForRelease
  let k ← k.addBlocked s old
  let k ← k.insertAsleep old
  let k ← k.incTimedWaiting s
  (k.setMySem old (some s)).dispatch (.timedBlock s)

def timedWait (k : Kernel) (s : SemId) (maxTimeSleeping : UInt64) : Except Fault Kernel := do
  let (val, k) ← k.addVal s (-1)
  if 0 ≤ val then return k.note (.answer k.running s .didntWait)
  else k.timedBlock s maxTimeSleeping

/-- What `unblock` and `unblockedByTime` do to a thread they took out of the
queue of `s`. -/
def release (k : Kernel) (old : Tid) (s : SemId) (cause : SemStatus) : Except Fault Kernel :=
  (((k.setMySem old none).setThreadsSemStatus old cause).note (.dequeued old s cause)).put old

def unblock (k : Kernel) (s : SemId) (unblockingCause : SemStatus) : Except Fault Kernel := do
  match ← k.firstBlocked s with
  | (none, _) => .error .nullThread
  | (some old, k) =>
    let th ← k.thread old
    let k := if th.semStatus = .timedWaiting then (k.removeThreadFromSleep old).2 else k
    k.release old s unblockingCause

/-- The result and the state. -/
def signal (k : Kernel) (s : SemId) : Except Fault (ℤ × Kernel) := do
  let (val, k) ← k.addVal s 1
  let k := k.note (.signalled s)
  if 0 < val then return (0, k)
  else
    let k ← k.unblock s .regularlyWaited
    return (1, k)

def unblockedByTime (k : Kernel) (s : SemId) (old : Tid) : Except Fault Kernel := do
  let th ← k.thread old
  if th.semStatus ≠ .timedWaiting then return k
  else
    let (_, k) ← k.addVal s 1
    let k ← (k.removeThreadFromSleep old).2.removeBlocked s old
    k.release old s .timeout

/-- `for (; val < 0; val++) unblock(cause)`, which runs `-val` times. -/
def unblockAll (k : Kernel) (s : SemId) (unblockingCause : SemStatus) : ℕ → Except Fault Kernel
  | 0 => .ok k
  | n + 1 => do
    let k ← k.unblock s unblockingCause
    let (_, k) ← k.addVal s 1
    k.unblockAll s unblockingCause n

/-- The result and the state: 0 for `WOULD_WAIT`, 1 for `WOULD_NOT_WAIT`. -/
def tryWait (k : Kernel) (s : SemId) : Except Fault (ℤ × Kernel) := do
  let m ← k.sem s
  let (_, k) ← k.addVal s (-1)
  return (if m.val < 0 then 0 else 1, k)

/-- `new _sem(N)`. `operator new` does not throw, so that the constructor would
run on a null object. -/
def newSem (k : Kernel) (n : UInt64) : Except Fault Kernel := do
  match k.heap.kmalloc (blocksFor semSize) with
  | none => .error .nullObject
  | some (p, h) =>
    let s := k.nextSem
    let (h, l) ← KList.addLast h k.allSemaphores s
    return { k with
      heap := h
      sems := Function.update k.sems s (some ⟨n.toInt64.toInt, [], 0⟩)
      semAddr := Function.update k.semAddr s p
      nextSem := s + 1
      allSemaphores := l }

/-- `delete sem`: the destructor, then `operator delete`. -/
def deleteSem (k : Kernel) (s : SemId) : Except Fault Kernel := do
  let m ← k.sem s
  let k ← k.unblockAll s .semDeleted (-m.val).toNat
  let (_, h, l) := KList.removeSpec k.heap k.allSemaphores s
  return { k with
    heap := (h.kmfree (k.semAddr s)).2
    sems := Function.update k.sems s none
    allSemaphores := l }

end Kernel
end OSK
