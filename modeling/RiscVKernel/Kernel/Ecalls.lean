import RiscVKernel.Kernel.Accounts
import RiscVKernel.Kernel.Answers

/-! `_sysCalls.cpp`. `ecall_handler` reads a call out of the registers `a0` to `a4`
and writes its result to `a0`. A call comes back with the result, or it leaves its
thread in `dispatch` and the result is there when the thread is resumed. -/

namespace OSK

open Lib

/-- `semWaitAnswers`. -/
def WaitAnswer.code : WaitAnswer → ℤ
  | .didntWait => 1
  | .okayWaited => 0
  | .dead => -1
  | .timeout => -2
  | .unexpected => -4
  | .error => -5

/-- What the wrapper a thread is resumed in returns. A thread that has not run is in
no wrapper; `thread_exit_wrapper` is not resumed. -/
def Thread.answer (th : Thread) : Option ℤ :=
  match th.context with
  | .threadWrapper => none
  | .toUser => some 0
  | .block _ => some th.semStatus.answer.code
  | .timedBlock _ => some th.semStatus.answer.code
  | .sleep => some 0

/-- How a call goes on: back with a result, if it has one, or into `dispatch`. -/
inductive Outcome
  | returns (result : Option ℤ)
  | dispatches (saved : Context)
  deriving DecidableEq, Repr

namespace Kernel

/-! The calls as far as `dispatch`. -/

def enterBlock (k : Kernel) (s : SemId) : Except Fault Kernel := do
  let old := k.running
  let k ← k.addBlocked s old
  return (k.setThreadsSemStatus old .waiting).setMySem old (some s)

def enterWait (k : Kernel) (s : SemId) : Except Fault (Outcome × Kernel) := do
  let (val, k) ← k.addVal s (-1)
  if 0 ≤ val then
    return (.returns (some WaitAnswer.didntWait.code), k.note (.answer k.running s .didntWait))
  else
    let k ← k.enterBlock s
    return (.dispatches (.block s), k)

def enterTimedBlock (k : Kernel) (s : SemId) (maxTimeSleeping : UInt64) : Except Fault Kernel := do
  let timeForRelease := wrap (maxTimeSleeping.toNat + k.sysTime)
  let old := k.running
  let k := (k.setThreadsSemStatus old .timedWaiting).setTimeForWakingUp old timeForRelease
  let k ← k.addBlocked s old
  let k ← k.insertAsleep old
  let k ← k.incTimedWaiting s
  return k.setMySem old (some s)

def enterTimedWait (k : Kernel) (s : SemId) (maxTimeSleeping : UInt64) :
    Except Fault (Outcome × Kernel) := do
  let (val, k) ← k.addVal s (-1)
  if 0 ≤ val then
    return (.returns (some WaitAnswer.didntWait.code), k.note (.answer k.running s .didntWait))
  else
    let k ← k.enterTimedBlock s maxTimeSleeping
    return (.dispatches (.timedBlock s), k)

def enterSleep (k : Kernel) (timeSleeping : UInt64) : Except Fault (Outcome × Kernel) := do
  let thr := k.running
  if k.isThreadValid thr then
    let k := (k.setThreadState thr .suspended).setTimeForWakingUp thr
      (wrap (k.sysTime + timeSleeping.toNat))
    let k ← k.insertAsleep thr
    return (.dispatches .sleep, k)
  else return (.returns (some 0), k)

def enterExit (k : Kernel) : Except Fault (Outcome × Kernel) := do
  let th ← k.thread k.running
  let k := match th.parentThread with
    | some p => k.decNumOfChildren p
    | none => k
  return (.dispatches .toUser, k.setFinished k.running)

def enterTick (k : Kernel) : Except Fault (Outcome × Kernel) := do
  let k ← k.incTime.wakeAsleepThreadsUp
  let th ← k.thread k.running
  if th.timeSlice ≤ k.runningThreadCpuTime then return (.dispatches .toUser, k)
  else return (.returns none, k)

/-- The wrappers of the semaphore calls return -1 for a null handle. -/
def enterHandle (k : Kernel) (sem : Option SemId)
    (f : SemId → Except Fault (Outcome × Kernel)) : Except Fault (Outcome × Kernel) :=
  match sem with
  | none => .ok (.returns (some (-1)), k)
  | some s => f s

/-- The result of a call that comes back. -/
def returning (r : ℤ × Kernel) : Outcome × Kernel := (.returns (some r.1), r.2)

def enter (k : Kernel) : Event → Except Fault (Outcome × Kernel)
  | .memAlloc n => .ok (.returns (some (k.memAlloc n).1), (k.memAlloc n).2)
  | .memFree p => (k.memFree p).map returning
  | .threadCreate body stack => (k.newThread body stack).map fun k => returning (0, k)
  | .threadExit => k.enterExit
  | .threadDispatch => .ok (.dispatches .toUser, k)
  | .semOpen n => (k.newSem n.toUInt64).map fun k => returning (0, k)
  | .semClose s => k.enterHandle s fun s => (k.deleteSem s).map fun k => returning (0, k)
  | .semWait s => k.enterHandle s k.enterWait
  | .semSignal s => k.enterHandle s fun s => (k.signal s).map returning
  | .semTimedwait s m => k.enterHandle s fun s => k.enterTimedWait s m
  | .semTrywait s => k.enterHandle s fun s => (k.tryWait s).map returning
  | .timeSleep t => k.enterSleep (if t > (1 : UInt64) <<< 63 then t >>> 1 else t)
  | .tick => k.enterTick
  | .subtleKill t => .ok (returning (k.subtleKill t))

/-- `dispatch` up to the first statement of the thread that goes on. -/
def switch (k : Kernel) (saved : Context) : Except Fault Kernel := do
  let k ← { k with runningThreadCpuTime := 0 }.leave
  let old := k.running
  let k ← foreachWhile deleteThreadInDispatch threadDead k.queueThreads.items k
  match k.get with
  | (none, _) => .error .nullRunning
  | (some t, k) => return ({ k with running := t }.setThreadState t .running).saveContext old saved

/-- What is left of a step. -/
def proceed : Outcome × Kernel → Except Fault Kernel
  | (.returns _, k) => .ok k
  | (.dispatches c, k) => k.dispatch c

variable {k k' : Kernel} {t : Tid} {s : SemId} {c : Context} {e : Event} {o : Outcome}

theorem dispatch_eq_switch (k : Kernel) (c : Context) : k.dispatch c = k.switch c >>= resume := by
  simp only [dispatch, switch, bind, Except.bind]
  cases { k with runningThreadCpuTime := 0 }.leave with
  | error f => rfl
  | ok k₁ =>
    simp only [arrive, bind, Except.bind]
    cases foreachWhile deleteThreadInDispatch threadDead k₁.queueThreads.items k₁ with
    | error f => rfl
    | ok k₂ =>
      dsimp only
      rcases k₂.get with ⟨_ | t, k₃⟩ <;> rfl

/-- A call with a result goes on with the state alone. -/
theorem returning_proceed (x : Except Fault (ℤ × Kernel)) :
    x.map returning >>= proceed = x.map (·.2) := by
  cases x <;> rfl

theorem returning_zero_proceed (x : Except Fault Kernel) :
    (x.map fun k => returning (0, k)) >>= proceed = x := by
  cases x <;> rfl

theorem enterHandle_proceed {sem : Option SemId} {f : SemId → Except Fault (Outcome × Kernel)}
    {g : SemId → Except Fault Kernel} (h : ∀ s, f s >>= proceed = g s) :
    k.enterHandle sem f >>= proceed = k.withHandle sem g := by
  cases sem with
  | none => rfl
  | some s => exact h s

theorem enterWait_proceed (k : Kernel) (s : SemId) : k.enterWait s >>= proceed = k.wait s := by
  simp only [enterWait, wait, bind, Except.bind]
  cases k.addVal s (-1) with
  | error f => rfl
  | ok r =>
    dsimp only
    split_ifs
    · rfl
    · simp only [enterBlock, block, bind, Except.bind]
      cases r.2.addBlocked s r.2.running <;> rfl

theorem enterTimedWait_proceed (k : Kernel) (s : SemId) (m : UInt64) :
    k.enterTimedWait s m >>= proceed = k.timedWait s m := by
  simp only [enterTimedWait, timedWait, bind, Except.bind]
  cases k.addVal s (-1) with
  | error f => rfl
  | ok r =>
    dsimp only
    split_ifs
    · rfl
    · simp only [enterTimedBlock, timedBlock, bind, Except.bind]
      cases addBlocked _ s r.2.running with
      | error f => rfl
      | ok k₁ =>
        dsimp only
        cases k₁.insertAsleep r.2.running with
        | error f => rfl
        | ok k₂ =>
          dsimp only
          cases k₂.incTimedWaiting s <;> rfl

theorem enterSleep_proceed (k : Kernel) (m : UInt64) :
    k.enterSleep m >>= proceed = k.putThreadToSleep m := by
  simp only [enterSleep, putThreadToSleep, bind, Except.bind]
  split_ifs
  · cases insertAsleep _ k.running <;> rfl
  · rfl

theorem enterExit_proceed (k : Kernel) : k.enterExit >>= proceed = k.exit := by
  simp only [enterExit, exit, bind, Except.bind]
  cases k.thread k.running <;> rfl

theorem enterTick_proceed (k : Kernel) : k.enterTick >>= proceed = k.timerInterruptHandler := by
  simp only [enterTick, timerInterruptHandler, bind, Except.bind]
  cases k.incTime.wakeAsleepThreadsUp with
  | error f => rfl
  | ok k₁ =>
    dsimp only
    cases k₁.thread k₁.running with
    | error f => rfl
    | ok th =>
      dsimp only
      split_ifs <;> rfl

/-- A step is the call as far as `dispatch`, and then `dispatch` if the call goes on
there. -/
theorem step_eq_enter (k : Kernel) (e : Event) : k.step e = k.enter e >>= proceed := by
  cases e with
  | memAlloc n => rfl
  | memFree p => exact (returning_proceed _).symm
  | threadCreate body stack => exact (returning_zero_proceed _).symm
  | threadExit => exact (enterExit_proceed k).symm
  | threadDispatch => rfl
  | semOpen n => exact (returning_zero_proceed _).symm
  | semClose s => exact (enterHandle_proceed fun s => returning_zero_proceed (k.deleteSem s)).symm
  | semWait s => exact (enterHandle_proceed (enterWait_proceed k)).symm
  | semSignal s => exact (enterHandle_proceed fun s => returning_proceed (k.signal s)).symm
  | semTimedwait s m => exact (enterHandle_proceed fun s => enterTimedWait_proceed k s m).symm
  | semTrywait s => exact (enterHandle_proceed fun s => returning_proceed (k.tryWait s)).symm
  | timeSleep m => exact (enterSleep_proceed k _).symm
  | tick => exact (enterTick_proceed k).symm
  | subtleKill t => rfl

/-! The registers of a call. -/

/-- `trapEcallCause`, as far as the `switch` of `ecall_handler` has a case for it. -/
inductive TrapEcallCause
  | malloc
  | mfree
  | threadCreate
  | threadExit
  | threadDispatch
  | semOpen
  | semClose
  | semWait
  | semSignal
  | semTimedwait
  | semTrywait
  | timeSleep
  | getc
  | putc
  deriving DecidableEq, Repr

def TrapEcallCause.code : TrapEcallCause → UInt64
  | .malloc => 0x01
  | .mfree => 0x02
  | .threadCreate => 0x11
  | .threadExit => 0x12
  | .threadDispatch => 0x13
  | .semOpen => 0x21
  | .semClose => 0x22
  | .semWait => 0x23
  | .semSignal => 0x24
  | .semTimedwait => 0x25
  | .semTrywait => 0x26
  | .timeSleep => 0x31
  | .getc => 0x41
  | .putc => 0x42

def TrapEcallCause.all : List TrapEcallCause :=
  [.malloc, .mfree, .threadCreate, .threadExit, .threadDispatch, .semOpen, .semClose, .semWait,
    .semSignal, .semTimedwait, .semTrywait, .timeSleep, .getc, .putc]

/-- The case of the `switch` for a code. -/
def TrapEcallCause.ofCode (a : UInt64) : Option TrapEcallCause :=
  TrapEcallCause.all.find? (·.code = a)

/-- `a0` to `a4`; no call reads `a5`. -/
structure Args where
  a0 : UInt64
  a1 : UInt64
  a2 : UInt64
  a3 : UInt64
  a4 : UInt64
  deriving DecidableEq, Repr

/-- What the handler reads: a call of the model, `sem_open` with an `a2` that is no
`unsigned`, a call of the console, which is not in the model, or a code for which
there is no case. -/
inductive Call
  | event (e : Event)
  | opens (val : UInt64)
  | outside
  | unknown
  deriving DecidableEq, Repr

/-- The semaphore at an address. The address of no open semaphore gets a name that
has no record. -/
def semAt (k : Kernel) (a : UInt64) : Option SemId :=
  if a = 0 then none
  else some ((k.allSemaphores.items.find? fun s => k.semAddr s = a.toNat).getD k.nextSem)

/-- The stack of the thread constructor, from the address behind it. -/
def stackBelow (a : UInt64) : ℕ :=
  if a = 0 then 0 else (a - UInt64.ofNat stackSize).toNat

def decode (k : Kernel) (r : Args) : Call :=
  match TrapEcallCause.ofCode r.a0 with
  | none => .unknown
  | some .malloc => .event (.memAlloc r.a1)
  | some .mfree => .event (.memFree r.a1.toNat)
  | some .threadCreate => .event (.threadCreate r.a2 (stackBelow r.a4))
  | some .threadExit => .event .threadExit
  | some .threadDispatch => .event .threadDispatch
  | some .semOpen =>
    if r.a2.toUInt32.toUInt64 = r.a2 then .event (.semOpen r.a2.toUInt32) else .opens r.a2
  | some .semClose => .event (.semClose (k.semAt r.a1))
  | some .semWait => .event (.semWait (k.semAt r.a1))
  | some .semSignal => .event (.semSignal (k.semAt r.a1))
  | some .semTimedwait => .event (.semTimedwait (k.semAt r.a1) r.a2)
  | some .semTrywait => .event (.semTrywait (k.semAt r.a1))
  | some .timeSleep => .event (.timeSleep r.a1)
  | some .getc => .outside
  | some .putc => .outside

/-- `sem_t` is the address of the record. -/
def semHandle (k : Kernel) (s : SemId) : UInt64 := UInt64.ofNat (k.semAddr s)

/-- An `unsigned` in a register of the processor is sign-extended. -/
def extended (n : UInt32) : UInt64 := ⟨n.toBitVec.signExtend 64⟩

/-- The registers that `syscall_c.cpp` sets for a call. Its functions make no call for
a null handle and for a sleep of no ticks, and the interrupt and the direct call of
`main` are none. -/
def load (k : Kernel) (r : Args) : Event → Option Args
  | .memAlloc n => some { r with a0 := TrapEcallCause.malloc.code, a1 := n }
  | .memFree p => some { r with a0 := TrapEcallCause.mfree.code, a1 := UInt64.ofNat p }
  | .threadCreate body stack =>
    some { r with
      a0 := TrapEcallCause.threadCreate.code
      a2 := body
      a4 := UInt64.ofNat (stack + stackSize) }
  | .threadExit => some { r with a0 := TrapEcallCause.threadExit.code }
  | .threadDispatch => some { r with a0 := TrapEcallCause.threadDispatch.code }
  | .semOpen n => some { r with a0 := TrapEcallCause.semOpen.code, a2 := extended n }
  | .semClose sem => sem.map fun s =>
    { r with a0 := TrapEcallCause.semClose.code, a1 := k.semHandle s }
  | .semWait sem => sem.map fun s =>
    { r with a0 := TrapEcallCause.semWait.code, a1 := k.semHandle s }
  | .semSignal sem => sem.map fun s =>
    { r with a0 := TrapEcallCause.semSignal.code, a1 := k.semHandle s }
  | .semTimedwait sem m => sem.map fun s =>
    { r with a0 := TrapEcallCause.semTimedwait.code, a1 := k.semHandle s, a2 := m }
  | .semTrywait sem => sem.map fun s =>
    { r with a0 := TrapEcallCause.semTrywait.code, a1 := k.semHandle s }
  | .timeSleep t =>
    if t = 0 then none else some { r with a0 := TrapEcallCause.timeSleep.code, a1 := t }
  | .tick => none
  | .subtleKill _ => none

/-- A call as the handler is to read it, which takes the whole register for the value of
a semaphore. -/
def called : Event → Call
  | .semOpen n => if n.toNat < 2 ^ 31 then .event (.semOpen n) else .opens (extended n)
  | e => .event e

/-- Null or the handle of an open semaphore. -/
def Valid (k : Kernel) (sem : Option SemId) : Prop := ∀ s ∈ sem, k.sems s ≠ none

/-- A call user code makes with valid handles and with pointers that are words. -/
def Makes (k : Kernel) : Event → Prop
  | .memFree p => p < 2 ^ 64
  | .threadCreate _ stack => 0 < stack ∧ stack + stackSize < 2 ^ 64
  | .semClose s => k.Valid s
  | .semWait s => k.Valid s
  | .semSignal s => k.Valid s
  | .semTimedwait s _ => k.Valid s
  | .semTrywait s => k.Valid s
  | _ => True

theorem ofCode_code (c : TrapEcallCause) : TrapEcallCause.ofCode c.code = some c := by
  cases c <;> decide

theorem code_of_ofCode {a : UInt64} {c : TrapEcallCause} (h : TrapEcallCause.ofCode a = some c) :
    c.code = a := by
  simpa using List.find?_some h

variable {start total : ℕ} {r r' : Args} {sem : Option SemId}

theorem extended_toNat (n : UInt32) :
    (extended n).toNat = n.toNat + if 2 ^ 31 ≤ n.toNat then 2 ^ 64 - 2 ^ 32 else 0 := by
  have hlt := n.toNat_lt
  have hnat : n.toBitVec.toNat = n.toNat := rfl
  change (n.toBitVec.signExtend 64).toNat = _
  rw [BitVec.toNat_signExtend, BitVec.toNat_setWidth, BitVec.msb_eq_decide, hnat,
    Nat.mod_eq_of_lt (by omega)]
  simp

theorem extended_val (n : UInt32) : (extended n).toInt64.toInt =
    if n.toNat < 2 ^ 31 then (n.toNat : ℤ) else n.toNat - 2 ^ 32 := by
  have hlt := n.toNat_lt
  have hnat : n.toBitVec.toNat = n.toNat := rfl
  change (n.toBitVec.signExtend 64).toInt = _
  rw [BitVec.toInt_signExtend_of_le (by decide), BitVec.toInt_eq_toNat_cond, hnat]
  split_ifs <;> omega

/-- A semaphore that is opened with an `init` from 2³¹ on has a negative value. -/
theorem newSem_extended {n : UInt32} (h : k.newSem (extended n) = .ok k') :
    k'.sems k.nextSem =
      some ⟨if n.toNat < 2 ^ 31 then (n.toNat : ℤ) else n.toNat - 2 ^ 32, [], 0⟩ := by
  obtain ⟨p, hp, node, hp', -, -, rfl⟩ := newSem_ok h
  simp [extended_val]

theorem toUInt32_extended (n : UInt32) : (extended n).toUInt32 = n := by
  apply UInt32.toNat_inj.1
  rw [UInt64.toNat_toUInt32, extended_toNat]
  have hlt := n.toNat_lt
  split_ifs <;> omega

theorem extended_eq_iff (n : UInt32) : n.toUInt64 = extended n ↔ n.toNat < 2 ^ 31 := by
  rw [← UInt64.toNat_inj, extended_toNat, UInt32.toNat_toUInt64]
  split_ifs <;> omega

theorem called_ne (e : Event) : called e ≠ .unknown ∧ called e ≠ .outside := by
  cases e with
  | semOpen n =>
    simp only [called]
    split_ifs <;> simp
  | _ => exact ⟨nofun, nofun⟩

theorem called_event {e' : Event} (h : called e = .event e') : e = e' := by
  cases e with
  | semOpen n =>
    simp only [called] at h
    split_ifs at h
    exact Call.event.inj h
  | _ => exact Call.event.inj h

theorem called_opens {val : UInt64} (h : called e = .opens val) :
    ∃ n, e = .semOpen n ∧ val = extended n := by
  cases e with
  | semOpen n =>
    simp only [called] at h
    split_ifs at h
    exact ⟨n, rfl, (Call.opens.inj h).symm⟩
  | _ => cases h

/-- The record of an open semaphore has an address, and it is a machine word. -/
theorem Stored.semAddr_word (hs : k.Stored start total)
    (hend : start + memBlockSize * total < 2 ^ 64) (ho : k.sems s ≠ none) :
    0 < k.semAddr s ∧ k.semAddr s < 2 ^ 64 := by
  obtain ⟨m, hm⟩ := Option.ne_none_iff_exists'.1 ho
  have hheld : k.semAddr s ∈ k.held (.sem s) := by simp [held, hm]
  obtain ⟨n, hn, -⟩ := hs.allotted.taken _ _ hheld
  obtain ⟨b, hf, he⟩ := Option.map_eq_some_iff.1 hn
  have hb := hs.wf.bounds (List.mem_append_right _ (List.mem_of_find?_eq_some hf))
  have hp : payload b = k.semAddr s := by simpa using List.find?_some hf
  rw [← hp]
  unfold payload Span.stop sizeHeader memBlockSize at *
  omega

/-- Different open semaphores have different addresses. -/
theorem Stored.semAddr_inj {s' : SemId} (hs : k.Stored start total) (ho : k.sems s ≠ none)
    (ho' : k.sems s' ≠ none) (h : k.semAddr s = k.semAddr s') : s = s' := by
  obtain ⟨m, hm⟩ := Option.ne_none_iff_exists'.1 ho
  obtain ⟨m', hm'⟩ := Option.ne_none_iff_exists'.1 ho'
  have hheld : k.semAddr s ∈ k.held (.sem s) := by simp [held, hm]
  have hheld' : k.semAddr s ∈ k.held (.sem s') := by simp [held, hm', h]
  exact Owner.sem.inj (hs.allotted.apart _ _ _ hheld hheld')

/-- The handler finds the semaphore of a valid handle. -/
theorem semAt_handle (hs : k.Stored start total) (hl : k.SemsListed)
    (hend : start + memBlockSize * total < 2 ^ 64) (ho : k.sems s ≠ none) :
    k.semAt (k.semHandle s) = some s := by
  obtain ⟨hpos, hlt⟩ := hs.semAddr_word hend ho
  have hnat : (UInt64.ofNat (k.semAddr s)).toNat = k.semAddr s := UInt64.toNat_ofNat_of_lt' hlt
  have hne : UInt64.ofNat (k.semAddr s) ≠ 0 := by
    intro h0
    rw [h0] at hnat
    exact hpos.ne hnat
  have hin : s ∈ k.allSemaphores.items := (hl.mem s).2 ho
  have hfind : k.allSemaphores.items.find? (fun s' => k.semAddr s' = k.semAddr s) = some s := by
    cases hf : k.allSemaphores.items.find? (fun s' => k.semAddr s' = k.semAddr s) with
    | none => simpa using List.find?_eq_none.1 hf s hin
    | some s' =>
      have ho' := (hl.mem s').1 (List.mem_of_find?_eq_some hf)
      have heq : k.semAddr s' = k.semAddr s := by simpa using List.find?_some hf
      rw [hs.semAddr_inj ho' ho heq]
  simp only [semHandle, semAt, if_neg hne, hnat, hfind, Option.getD_some]

/-- A word in which the handler finds an open semaphore is its handle. -/
theorem handle_semAt {a : UInt64} (hi : k.Inv) (ho : k.sems s ≠ none) (ha : k.semAt a = some s) :
    k.semHandle s = a := by
  unfold semAt at ha
  split_ifs at ha
  cases hf : k.allSemaphores.items.find? (fun s => k.semAddr s = a.toNat) with
  | none =>
    rw [hf] at ha
    cases ha
    exact absurd (hi.freshSem _ le_rfl).1 ho
  | some s' =>
    rw [hf] at ha
    cases ha
    have heq : k.semAddr s' = a.toNat := by simpa using List.find?_some hf
    simp [semHandle, heq]

theorem stackBelow_above {stack : ℕ} (h : stack + stackSize < 2 ^ 64) :
    stackBelow (UInt64.ofNat (stack + stackSize)) = stack := by
  have hnat : (UInt64.ofNat (stack + stackSize)).toNat = stack + stackSize :=
    UInt64.toNat_ofNat_of_lt' h
  have hsize : (UInt64.ofNat stackSize).toNat = stackSize := by decide
  have hne : UInt64.ofNat (stack + stackSize) ≠ 0 := by
    intro h0
    rw [h0] at hnat
    simp [stackSize] at hnat
  rw [stackBelow, if_neg hne, UInt64.toNat_sub_of_le, hnat, hsize, Nat.add_sub_cancel]
  rw [UInt64.le_iff_toNat_le, hnat, hsize]
  exact Nat.le_add_left _ _

theorem above_stackBelow {a : UInt64} (h : 0 < stackBelow a) :
    UInt64.ofNat (stackBelow a + stackSize) = a := by
  rw [stackBelow] at h ⊢
  split_ifs at h ⊢
  · exact absurd h (lt_irrefl 0)
  · rw [UInt64.ofNat_add, UInt64.ofNat_toNat, UInt64.sub_add_cancel]

/-- The handler reads the call that the wrapper put into the registers. -/
theorem decode_load (hs : k.Stored start total) (hl : k.SemsListed)
    (hend : start + memBlockSize * total < 2 ^ 64) (he : k.Makes e) (h : k.load r e = some r') :
    k.decode r' = called e := by
  have hsem : ∀ {sem : Option SemId} {f : SemId → Args}, k.Valid sem → sem.map f = some r' →
      ∃ s, sem = some s ∧ f s = r' ∧ k.semAt (k.semHandle s) = some s := by
    intro sem f hv hf
    obtain ⟨s, rfl, hr⟩ := Option.map_eq_some_iff.1 hf
    exact ⟨s, rfl, hr, semAt_handle hs hl hend (hv s rfl)⟩
  cases e with
  | memAlloc n =>
    cases h
    simp only [decode, ofCode_code, called]
  | memFree p =>
    cases h
    have hp : (UInt64.ofNat p).toNat = p := UInt64.toNat_ofNat_of_lt' he
    simp only [decode, ofCode_code, hp, called]
  | threadCreate body stack =>
    cases h
    simp only [decode, ofCode_code, stackBelow_above he.2, called]
  | threadExit =>
    cases h
    simp only [decode, ofCode_code, called]
  | threadDispatch =>
    cases h
    simp only [decode, ofCode_code, called]
  | semOpen n =>
    cases h
    simp only [decode, ofCode_code, toUInt32_extended, extended_eq_iff, called]
  | semClose sem =>
    obtain ⟨s, rfl, rfl, hat⟩ := hsem he h
    simp only [decode, ofCode_code, hat, called]
  | semWait sem =>
    obtain ⟨s, rfl, rfl, hat⟩ := hsem he h
    simp only [decode, ofCode_code, hat, called]
  | semSignal sem =>
    obtain ⟨s, rfl, rfl, hat⟩ := hsem he h
    simp only [decode, ofCode_code, hat, called]
  | semTimedwait sem m =>
    obtain ⟨s, rfl, rfl, hat⟩ := hsem he h
    simp only [decode, ofCode_code, hat, called]
  | semTrywait sem =>
    obtain ⟨s, rfl, rfl, hat⟩ := hsem he h
    simp only [decode, ofCode_code, hat, called]
  | timeSleep m =>
    simp only [load] at h
    split_ifs at h
    cases h
    simp only [decode, ofCode_code, called]
  | tick => cases h
  | subtleKill t => cases h

/-- Registers in which the handler reads a call hold it already. -/
theorem load_decode (hi : k.Inv) (he : k.Makes e) (hl : k.load r e = some r')
    (h : k.decode r = called e) : r' = r := by
  have hsem : ∀ {a : UInt64} {f : SemId → Args}, k.Valid (k.semAt a) →
      (k.semAt a).map f = some r' → ∃ s, f s = r' ∧ k.semHandle s = a := by
    intro a f hv hf
    obtain ⟨s, ha, hr⟩ := Option.map_eq_some_iff.1 hf
    exact ⟨s, hr, handle_semAt hi (hv s ha) ha⟩
  unfold decode at h
  cases hc : TrapEcallCause.ofCode r.a0 with
  | none =>
    rw [hc] at h
    exact absurd h.symm (called_ne e).1
  | some c =>
    have hcode := code_of_ofCode hc
    rw [hc] at h
    cases c with
    | malloc =>
      obtain rfl := called_event h.symm
      cases hl
      simp [hcode]
    | mfree =>
      obtain rfl := called_event h.symm
      cases hl
      simp [hcode]
    | threadCreate =>
      obtain rfl := called_event h.symm
      cases hl
      simp [hcode, above_stackBelow he.1]
    | threadExit =>
      obtain rfl := called_event h.symm
      cases hl
      simp [hcode]
    | threadDispatch =>
      obtain rfl := called_event h.symm
      cases hl
      simp [hcode]
    | semOpen =>
      dsimp only at h
      split_ifs at h with hinit
      · -- an `unsigned` that is its own extension
        obtain rfl := called_event h.symm
        have hsmall : r.a2.toUInt32.toNat < 2 ^ 31 := by
          simp only [called] at h
          split_ifs at h with hsmall
          exact hsmall
        cases hl
        simp [hcode, ← (extended_eq_iff _).2 hsmall, hinit]
      · obtain ⟨n, rfl, hval⟩ := called_opens h.symm
        cases hl
        simp [hcode, ← hval]
    | semClose =>
      obtain rfl := called_event h.symm
      obtain ⟨s, rfl, ha⟩ := hsem he hl
      simp [hcode, ha]
    | semWait =>
      obtain rfl := called_event h.symm
      obtain ⟨s, rfl, ha⟩ := hsem he hl
      simp [hcode, ha]
    | semSignal =>
      obtain rfl := called_event h.symm
      obtain ⟨s, rfl, ha⟩ := hsem he hl
      simp [hcode, ha]
    | semTimedwait =>
      obtain rfl := called_event h.symm
      obtain ⟨s, rfl, ha⟩ := hsem he hl
      simp [hcode, ha]
    | semTrywait =>
      obtain rfl := called_event h.symm
      obtain ⟨s, rfl, ha⟩ := hsem he hl
      simp [hcode, ha]
    | timeSleep =>
      obtain rfl := called_event h.symm
      simp only [load] at hl
      split_ifs at hl
      cases hl
      simp [hcode]
    | getc => exact absurd h.symm (called_ne e).2
    | putc => exact absurd h.symm (called_ne e).2

end Kernel
end OSK
