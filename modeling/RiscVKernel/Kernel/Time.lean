import RiscVKernel.Kernel.Semaphore

/-! `_time.cpp`. -/

namespace OSK

namespace Kernel

def putThreadToSleep (k : Kernel) (timeSleeping : UInt64) : Except Fault Kernel := do
  let thr := k.running
  if k.isThreadValid thr then
    let k := (k.setThreadState thr .suspended).setTimeForWakingUp thr
      (wrap (k.sysTime + timeSleeping.toNat))
    let k ← k.insertAsleep thr
    k.dispatch .sleep
  else return k

def shouldWakeUpThread (k : Kernel) (t : Tid) : Except Fault Bool := do
  let th ← k.thread t
  return th.timeForWakingUp ≤ k.sysTime

def wakeThreadUp (k : Kernel) (t : Tid) : Except Fault Kernel :=
  match k.threads t with
  | none => .ok k
  | some th =>
    if th.semStatus = .timedWaiting then
      match th.mySem with
      | some s => k.unblockedByTime s t
      | none => .ok k
    else
      let (r, k) := k.removeThreadFromSleep t
      if r then k.put t else .ok k

def wakeAsleepThreadsUp (k : Kernel) : Except Fault Kernel :=
  foreachWhile wakeThreadUp shouldWakeUpThread k.listAsleepThreads.items k

/-- `inc_sys_time` and `inc_runningThread_CPU_time`. -/
def incTime (k : Kernel) : Kernel :=
  { k with
    sysTime := wrap (k.sysTime + 1)
    runningThreadCpuTime := wrap (k.runningThreadCpuTime + 1) }

def timerInterruptHandler (k : Kernel) : Except Fault Kernel := do
  let k ← k.incTime.wakeAsleepThreadsUp
  let th ← k.thread k.running
  if th.timeSlice ≤ k.runningThreadCpuTime then k.dispatch .toUser else return k

end Kernel
end OSK
