import RiscVKernel.Kernel.DeadStores
import RiscVKernel.Kernel.Phases
import RiscVKernel.Kernel.Tenure
import RiscVKernel.Machine.State

/-! Where a thread that is not running has what it goes on with: the words of its
saved context and, on its stack, the registers that `pushRegisters` saved, the locals
of `handleSupervisorTrap` and the frame of `supervisorTrap`. The stacks and the
contexts of two threads have no byte in common. -/

namespace OSK

open Lib

/-- Two ranges of bytes without a common one. -/
def Beside (a b : ℕ × ℕ) : Prop := a.2 ≤ b.1 ∨ b.2 ≤ a.1

theorem Beside.symm {a b : ℕ × ℕ} (h : Beside a b) : Beside b a := Or.symm h

namespace Kernel

variable {img : Image} {k k' : Kernel} {t t' : Tid} {th th' : Thread} {o o' : Owner}
  {start total p q : ℕ}

/-- The bytes of a saved context. -/
def contextOf (k : Kernel) (t : Tid) : ℕ × ℕ := (k.context t, k.context t + 16)

theorem context_within (k : Kernel) (t : Tid) :
    Within (k.context t) (k.contextOf t).1 (k.contextOf t).2 ∧
      Within (k.context t + 8) (k.contextOf t).1 (k.contextOf t).2 := by
  unfold Within contextOf
  dsimp only
  omega

/-- What is known of the kernel in every state. -/
structure Hosted (img : Image) (start total : ℕ) (k : Kernel) : Prop where
  inv : k.Inv
  stored : k.Stored start total
  boot : img.Outside start total

/-- The block behind a pointer that is held. -/
theorem Stored.block (hs : k.Stored start total) (hp : p ∈ k.held o) :
    ∃ b ∈ k.heap.taken, payload b = p ∧ k.blockOf p = (payload b, b.stop memBlockSize) ∧
      o.Fits b.size := by
  obtain ⟨n, hn, hfits⟩ := hs.allotted.taken o p hp
  obtain ⟨b, hf, rfl⟩ := Option.map_eq_some_iff.1 hn
  have hb : payload b = p := by simpa using List.find?_some hf
  refine ⟨b, List.mem_of_find?_eq_some hf, hb, ?_, hfits⟩
  rw [blockOf, hn, ← hb]
  unfold Span.stop payload
  simp

theorem Stored.block_bounds (hs : k.Stored start total) (hp : p ∈ k.held o) :
    start ≤ (k.blockOf p).1 ∧ (k.blockOf p).2 ≤ start + memBlockSize * total := by
  obtain ⟨b, hb, -, he, -⟩ := hs.block hp
  have hbounds := hs.wf.bounds (List.mem_append_right _ hb)
  rw [he]
  unfold payload
  dsimp only
  omega

/-- Blocks of different owners. -/
theorem Stored.blocks_beside (hs : k.Stored start total) (hp : p ∈ k.held o) (hq : q ∈ k.held o')
    (hne : o ≠ o') : Beside (k.blockOf p) (k.blockOf q) := by
  have hpq : p ≠ q := by
    rintro rfl
    exact hne (hs.allotted.apart _ _ _ hp hq)
  obtain ⟨b, hb, hpb, hbe, -⟩ := hs.block hp
  obtain ⟨c, hc, hqc, hce, -⟩ := hs.block hq
  have hbc : b ≠ c := by
    rintro rfl
    exact hpq (hpb.symm.trans hqc)
  rw [hbe, hce]
  unfold Beside payload
  dsimp only
  rcases hs.wf.separate (List.mem_append_right _ hb) (List.mem_append_right _ hc) hbc with h | h <;>
    omega

theorem held_tcb (hth : k.threads t = some th) : k.threadAddr t ∈ k.held (.tcb t) := by
  simp [held, hth]

theorem held_stack (hth : k.threads t = some th) : th.stack ∈ k.held (.stack t) := by
  simp [held, hth]

/-- The context lies inside the record. -/
theorem Stored.contextOf_inside (hs : k.Stored start total) (hth : k.threads t = some th) :
    (k.blockOf (k.threadAddr t)).1 ≤ (k.contextOf t).1 ∧
      (k.contextOf t).2 ≤ (k.blockOf (k.threadAddr t)).2 := by
  obtain ⟨b, -, hp, he, hfits⟩ := hs.block (held_tcb hth)
  have hsize : b.size = 2 := hfits
  rw [he]
  unfold contextOf context contextOffset Span.stop memBlockSize
  rw [← hp]
  unfold payload sizeHeader
  dsimp only
  omega

/-- A block beside the record is beside the context. -/
theorem Stored.beside_contextOf (hs : k.Stored start total) (hth : k.threads t = some th)
    {a : ℕ × ℕ} (h : Beside a (k.blockOf (k.threadAddr t))) : Beside a (k.contextOf t) := by
  obtain ⟨hlo, hhi⟩ := hs.contextOf_inside hth
  unfold Beside at *
  omega

theorem Hosted.beside_boot (h : Hosted img start total k) (hp : p ∈ k.held o) :
    Beside img.bootStack (k.blockOf p) := by
  have hb := h.stored.block_bounds hp
  have hboot := h.boot
  unfold Image.Outside at hboot
  unfold Beside
  omega

theorem stackOf_other (hth : k.threads t = some th) (ht : t ≠ mainThread) :
    k.stackOf img t = k.blockOf th.stack := by
  simp [stackOf, ht, hth]

theorem stackOf_main : k.stackOf img mainThread = img.bootStack := by simp [stackOf]

theorem Hosted.stacks_beside (h : Hosted img start total k) (hth : k.threads t = some th)
    (hth' : k.threads t' = some th') (hne : t ≠ t') :
    Beside (k.stackOf img t) (k.stackOf img t') := by
  by_cases ht : t = mainThread
  · subst ht
    rw [stackOf_main, stackOf_other hth' hne.symm]
    exact h.beside_boot (held_stack hth')
  · rw [stackOf_other hth ht]
    by_cases ht' : t' = mainThread
    · subst ht'
      rw [stackOf_main]
      exact (h.beside_boot (held_stack hth)).symm
    · rw [stackOf_other hth' ht']
      exact h.stored.blocks_beside (held_stack hth) (held_stack hth') (by simpa using hne)

theorem Hosted.stack_context_beside (h : Hosted img start total k) (hth : k.threads t = some th)
    (hth' : k.threads t' = some th') : Beside (k.stackOf img t) (k.contextOf t') := by
  apply h.stored.beside_contextOf hth'
  by_cases ht : t = mainThread
  · subst ht
    rw [stackOf_main]
    exact h.beside_boot (held_tcb hth')
  · rw [stackOf_other hth ht]
    exact h.stored.blocks_beside (held_stack hth) (held_tcb hth') (by simp)

theorem Hosted.contexts_beside (h : Hosted img start total k) (hth : k.threads t = some th)
    (hth' : k.threads t' = some th') (hne : t ≠ t') :
    Beside (k.contextOf t) (k.contextOf t') := by
  apply h.stored.beside_contextOf hth'
  apply Beside.symm
  apply h.stored.beside_contextOf hth
  exact (h.stored.blocks_beside (held_tcb hth) (held_tcb hth') (by simpa using hne)).symm

/-! What a step leaves of a thread that lives on. -/

/-- A thread that was named before a step had its record then. -/
theorem step_made {e : Event} (h : k.step e = .ok k') (hID : t ≤ k.ID)
    (hth' : k'.threads t = some th') : ∃ th, k.threads t = some th ∧ th'.origin = th.origin := by
  by_cases hnew : ∃ body stack, e = .threadCreate body stack
  · obtain ⟨body, stack, rfl⟩ := hnew
    rcases (newThread_origin h).1 t th' hth' with ⟨rfl, -⟩ | hold
    · exact absurd hID (Nat.not_succ_le_self _)
    · exact hold
  · by_cases hopen : ∃ n, e = .semOpen n
    · obtain ⟨n, rfl⟩ := hopen
      obtain ⟨p, hp, node, hp', -, -, rfl⟩ := newSem_ok h
      exact ⟨th', hth', rfl⟩
    · exact (step_origin h (fun b st hb => hnew ⟨b, st, hb⟩) fun n hn => hopen ⟨n, hn⟩).1 t th' hth'

/-- What a call of the handler is for the kernel: nothing, an event, or the making of a
semaphore with whatever value stands in the register. -/
inductive Handles (k k' : Kernel) : Prop
  | stays (h : k' = k)
  | event {e : Event} (h : k.step e = .ok k')
  | opens {val : UInt64} (h : k.newSem val = .ok k')

theorem Handles.hosted (h : k.Handles k') (hh : Hosted img start total k) :
    Hosted img start total k' := by
  rcases h with rfl | he | ho
  · exact hh
  · exact ⟨step_inv he hh.inv, step_stored he hh.inv hh.stored, hh.boot⟩
  · exact ⟨newSem_inv ho hh.inv, newSem_stored ho hh.inv hh.stored, hh.boot⟩

theorem Handles.made (h : k.Handles k') (hID : t ≤ k.ID) (hth' : k'.threads t = some th') :
    ∃ th, k.threads t = some th ∧ th'.origin = th.origin := by
  rcases h with rfl | he | ho
  · exact ⟨th', hth', rfl⟩
  · exact step_made he hID hth'
  · obtain ⟨p, hp, node, hp', -, -, rfl⟩ := newSem_ok ho
    exact ⟨th', hth', rfl⟩

theorem Handles.stack (h : k.Handles k') (hi : k.Inv) (hth : k.threads t = some th)
    (hth' : k'.threads t = some th') : th'.stack = th.stack := by
  obtain ⟨th₁, hth₁, ho⟩ := h.made (hi.named hth) hth'
  obtain rfl : th = th₁ := Option.some.inj (hth.symm.trans hth₁)
  exact congrArg (·.2.1) ho

/-- A thread with a record before and after a step has the same stack and context. -/
theorem Handles.regions (img : Image) (h : k.Handles k') (hi : k.Inv)
    (hs : k.Stored start total) (hth : k.threads t = some th) (hth' : k'.threads t = some th') :
    k'.stackOf img t = k.stackOf img t ∧ k'.context t = k.context t := by
  have hstack := h.stack hi hth hth'
  have hsize : k'.heap.sizeAt th.stack = k.heap.sizeAt th.stack := by
    rcases h with rfl | he | ho
    · rfl
    · exact step_sizeAt he hi hs (held_stack hth) (hstack ▸ held_stack hth')
    · exact newSem_sizeAt ho hs (held_stack hth)
  have haddr : k'.threadAddr t = k.threadAddr t := by
    rcases h with rfl | he | ho
    · rfl
    · exact step_threadAddr he (hi.named hth)
    · obtain ⟨p, hp, node, hp', -, -, rfl⟩ := newSem_ok ho
      rfl
  refine ⟨?_, ?_⟩
  · by_cases ht : t = mainThread
    · subst ht
      rw [stackOf_main, stackOf_main]
    · rw [stackOf_other hth ht, stackOf_other hth' ht, hstack, blockOf, blockOf, hsize]
  · rw [context, context, haddr]

end Kernel

/-! A thread that waits. -/

/-- The processor as a thread sees it: its registers, whether it runs in user mode and
whether interrupts are on; `calls` says that it waits for the result of a call. -/
structure VCpu where
  x : Registers
  pc : UInt64
  mode : Mode
  sie : Bool
  calls : Bool

def VCpu.interruptible (v : VCpu) : Bool := v.mode = .user || v.sie

def Cpu.view (c : Cpu) : VCpu := ⟨c.x, c.pc, c.mode, c.sstatus.sie, false⟩

/-- At a trap `pc` goes behind the `ecall`; an interrupt leaves it where it is. -/
def VCpu.enter (v : VCpu) (ecall : Bool) : VCpu :=
  { v with pc := v.pc + if ecall then 4 else 0, calls := ecall }

/-- A thread comes back from a trap, from a call with its result in `a0`. -/
def VCpu.back (v : VCpu) (r : Option ℤ) : VCpu :=
  match (if v.calls then r else none) with
  | none => { v with calls := false }
  | some r => { v with x := Function.update v.x a0 (register r), calls := false }

@[simp] theorem VCpu.enter_mode (v : VCpu) (ecall : Bool) : (v.enter ecall).mode = v.mode := rfl
@[simp] theorem VCpu.enter_sie (v : VCpu) (ecall : Bool) : (v.enter ecall).sie = v.sie := rfl
@[simp] theorem VCpu.enter_x (v : VCpu) (ecall : Bool) : (v.enter ecall).x = v.x := rfl

/-- The result changes `a0` only. -/
theorem VCpu.back_same (v : VCpu) (r : Option ℤ) :
    (v.back r).pc = v.pc ∧ (v.back r).mode = v.mode ∧ (v.back r).sie = v.sie ∧
      ∀ i, i ≠ a0 ∨ v.calls = false → (v.back r).x i = v.x i := by
  unfold VCpu.back
  cases hr : (if v.calls then r else none) with
  | none => exact ⟨rfl, rfl, rfl, fun _ _ => rfl⟩
  | some r =>
    refine ⟨rfl, rfl, rfl, fun i hi => Function.update_of_ne ?_ _ _⟩
    rcases hi with hi | hi
    · exact hi
    · simp [hi] at hr

namespace Machine

open Kernel

variable {img : Image} {k k' : Kernel} {t : Tid} {mem mem' : ℕ → UInt64} {v : VCpu} {a : Activation}

/-- The registers of `v` lie in the frame of the trap, and below it the locals. -/
structure Framed (img : Image) (mem : ℕ → UInt64) (frame : UInt64) (v : VCpu) : Prop where
  base : frame = v.x sp - 256
  saved : ∀ i : Fin 32, mem (frame.toNat + i.val * 8) = Function.update v.x sp frame i
  sepc : mem (frame.toNat - img.sepc) = v.pc
  sstatus : mem (frame.toNat - img.sstatus) = (Sstatus.mk v.mode v.sie false).word

/-- The thread `t` waits in `dispatch`, and will go on as `v`. -/
structure Parked (img : Image) (k : Kernel) (mem : ℕ → UInt64) (t : Tid) (a : Activation)
    (v : VCpu) : Prop where
  ra : mem (k.context t) = img.dispatchReturn
  top : mem (k.context t + 8) = a.sp - 256 - img.switchFrame
  pushed : ∀ i ∈ pushed, mem ((a.sp - 256).toNat + i.val * 8) = a.x i
  framed : Framed img mem a.frame v
  calls : a.ecall = v.calls
  room : Room img k t a.frame a.sp

/-- `t` has not run yet. -/
structure Unborn (img : Image) (k : Kernel) (mem : ℕ → UInt64) (t : Tid) (th : Thread) : Prop where
  ra : mem (k.context t) = img.threadWrapper
  top : mem (k.context t + 8) = UInt64.ofNat (th.stack + stackSize)

/-- The frame of the trap and the locals. -/
def frameOf (img : Image) (frame : UInt64) : ℕ × ℕ := (frame.toNat - img.locals, frame.toNat + 256)

def AgreeOn (r : ℕ × ℕ) (mem mem' : ℕ → UInt64) : Prop := Agree r.1 r.2 mem mem'

theorem Room.bounds {frame low : UInt64} (h : Room img k t frame low) :
    (k.stackOf img t).1 + 256 ≤ low.toNat ∧ low.toNat + img.locals ≤ frame.toNat ∧
      frame.toNat + 256 ≤ (k.stackOf img t).2 := h

/-- The registers of `pushRegisters` end where `sp` was. -/
theorem toNat_lower (low : UInt64) (h : 256 ≤ low.toNat) : (low - 256).toNat + 256 = low.toNat := by
  have h256 : (256 : UInt64).toNat = 256 := rfl
  rw [UInt64.toNat_sub_of_le _ _ (by rw [UInt64.le_iff_toNat_le, h256]; exact h), h256]
  omega

theorem Framed.agree {frame : UInt64} (h : Framed img mem frame v)
    (hroom : img.locals ≤ frame.toNat) (ha : AgreeOn (frameOf img frame) mem mem') :
    Framed img mem' frame v := by
  obtain ⟨h1, h2⟩ := img.sepc_fits
  obtain ⟨h3, h4⟩ := img.sstatus_fits
  refine ⟨h.base, fun i => ?_, ?_, ?_⟩
  · have := i.isLt
    rw [ha _ ⟨by unfold frameOf; dsimp only; omega, by unfold frameOf; dsimp only; omega⟩]
    exact h.saved i
  · rw [ha _ ⟨by unfold frameOf; dsimp only; omega, by unfold frameOf; dsimp only; omega⟩]
    exact h.sepc
  · rw [ha _ ⟨by unfold frameOf; dsimp only; omega, by unfold frameOf; dsimp only; omega⟩]
    exact h.sstatus

/-- A thread stays parked while its context and its stack hold what they hold. -/
theorem Parked.agree (h : Parked img k mem t a v) (hs : AgreeOn (k.stackOf img t) mem mem')
    (hc : AgreeOn (k.contextOf t) mem mem') (hstack : k'.stackOf img t = k.stackOf img t)
    (hcontext : k'.context t = k.context t) : Parked img k' mem' t a v := by
  obtain ⟨h1, h2, h3⟩ := h.room.bounds
  have hlow := toNat_lower a.sp (by omega)
  refine ⟨?_, ?_, fun i hi => ?_, h.framed.agree (by omega) (hs.mono ?_ ?_), h.calls, ?_⟩
  · rw [hcontext, hc _ (k.context_within t).1]
    exact h.ra
  · rw [hcontext, hc _ (k.context_within t).2]
    exact h.top
  · have := i.isLt
    rw [hs _ ⟨by omega, by omega⟩]
    exact h.pushed i hi
  · unfold frameOf
    dsimp only
    omega
  · unfold frameOf
    dsimp only
    omega
  · unfold Room at *
    rw [hstack]
    exact h.room

theorem Unborn.agree {th th' : Thread} (h : Unborn img k mem t th)
    (hc : AgreeOn (k.contextOf t) mem mem') (hstack : th'.stack = th.stack)
    (hcontext : k'.context t = k.context t) : Unborn img k' mem' t th' := by
  refine ⟨?_, ?_⟩
  · rw [hcontext, hc _ (k.context_within t).1]
    exact h.ra
  · rw [hcontext, hstack, hc _ (k.context_within t).2]
    exact h.top

/-! The way into the kernel. -/

/-- `supervisorTrap` and the locals of `handleSupervisorTrap` write their part of the
stack only. -/
theorem enterTrap_agree {c : Cpu} {ecall : Bool} {r : ℕ × ℕ}
    (hroom : img.locals ≤ (c.x sp - 256).toNat)
    (hr : Beside r (frameOf img (c.x sp - 256))) : AgreeOn r mem (enterTrap img mem c ecall) := by
  obtain ⟨h1, h2⟩ := img.sepc_fits
  obtain ⟨h3, h4⟩ := img.sstatus_fits
  unfold Beside frameOf at hr
  dsimp only at hr
  unfold enterTrap
  refine Agree.trans (store_agree fun w hw => ?_) (store_agree fun w hw => ?_)
  · have hin := table_within hw
    unfold Within at hin
    unfold Off
    omega
  · simp only [List.mem_cons, List.not_mem_nil, or_false] at hw
    unfold Off
    rcases hw with rfl | rfl <;> dsimp only <;> omega

/-- What the thread will go on with is in its frame. -/
theorem enterTrap_framed {c : Cpu} (ecall : Bool) (hroom : img.locals ≤ (c.x sp - 256).toNat) :
    Framed img (enterTrap img mem c.trap ecall) (c.x sp - 256) (c.view.enter ecall) := by
  obtain ⟨h1, h2⟩ := img.sepc_fits
  obtain ⟨h3, h4⟩ := img.sstatus_fits
  have hsep := img.separate
  refine ⟨rfl, fun i => ?_, ?_, ?_⟩
  · unfold enterTrap
    rw [store_of_notMem]
    · exact store_table (List.nodup_finRange 32) (List.mem_finRange i)
    · intro w hw
      simp only [List.mem_cons, List.not_mem_nil, or_false] at hw
      rcases hw with rfl | rfl <;> simp only [Cpu.trap] <;> omega
  · unfold enterTrap
    apply store_of_mem
    · simp only [Cpu.trap, List.map_cons, List.map_nil, List.nodup_cons, List.mem_singleton,
        List.not_mem_nil, not_false_eq_true, List.nodup_nil, and_true]
      omega
    · simp [Cpu.trap, VCpu.enter, Cpu.view]
  · unfold enterTrap
    apply store_of_mem
    · simp only [Cpu.trap, List.map_cons, List.map_nil, List.nodup_cons, List.mem_singleton,
        List.not_mem_nil, not_false_eq_true, List.nodup_nil, and_true]
      omega
    · simp [Cpu.trap, VCpu.enter, Cpu.view]

/-! The way out. -/

/-- The result goes into the frame. -/
theorem storeResult_framed {frame : UInt64} (h : Framed img mem frame v)
    (hroom : img.locals ≤ frame.toNat) (r : Option ℤ) :
    (∀ i : Fin 32, storeResult mem frame r (frame.toNat + i.val * 8) =
      Function.update (match r with
        | none => v.x
        | some r => Function.update v.x a0 (register r)) sp frame i) ∧
    storeResult mem frame r (frame.toNat - img.sepc) = v.pc ∧
    storeResult mem frame r (frame.toNat - img.sstatus) = (Sstatus.mk v.mode v.sie false).word := by
  obtain ⟨h1, h2⟩ := img.sepc_fits
  obtain ⟨h3, h4⟩ := img.sstatus_fits
  cases r with
  | none => exact ⟨h.saved, h.sepc, h.sstatus⟩
  | some r =>
    simp only [storeResult, store_cons, store_nil]
    refine ⟨fun i => ?_, ?_, ?_⟩
    · by_cases hi : i = a0
      · subst hi
        simp [a0, sp]
      · have hne : frame.toNat + i.val * 8 ≠ frame.toNat + a0.val * 8 := by
          intro he
          exact hi (Fin.ext (by omega))
        rw [Function.update_of_ne hne, h.saved i]
        by_cases hs : i = sp
        · subst hs
          simp
        · simp [hs, hi]
    · rw [Function.update_of_ne (by omega)]
      exact h.sepc
    · rw [Function.update_of_ne (by omega)]
      exact h.sstatus

/-- The registers come out of the frame, with the result in `a0`. -/
theorem leaveTrap_view {frame : UInt64} (h : Framed img mem frame v)
    (hroom : img.locals ≤ frame.toNat) (r : Option ℤ) :
    (leaveTrap img (storeResult mem frame (if v.calls then r else none)) frame).view = v.back r := by
  obtain ⟨hx, hpc, hst⟩ := storeResult_framed h hroom (if v.calls then r else none)
  have hsp : frame + 256 = v.x sp := by rw [h.base, UInt64.sub_add_cancel]
  have hne : a0 ≠ sp := by decide
  simp only [leaveTrap, Cpu.sret, Cpu.view, hpc, hst, Sstatus.ofWord_word, hx, VCpu.back]
  cases (if v.calls then r else none) with
  | none =>
    simp only [Function.update_self, hsp, VCpu.mk.injEq, and_true]
    funext i
    by_cases hi : i = sp
    · subst hi
      simp
    · simp [hi]
  | some r =>
    simp only [Function.update_self, hsp, VCpu.mk.injEq, and_true]
    funext i
    by_cases hi : i = sp
    · subst hi
      simp [hne.symm]
    · simp [hi]

/-- The result goes nowhere else. -/
theorem storeResult_agree {frame : UInt64} {r : ℕ × ℕ} (o : Option ℤ)
    (hr : Beside r (frameOf img frame)) : AgreeOn r mem (storeResult mem frame o) := by
  cases o with
  | none => exact fun _ _ => rfl
  | some v =>
    apply store_agree
    intro w hw
    obtain rfl := List.mem_singleton.1 hw
    unfold Beside frameOf at hr
    unfold Off a0
    dsimp only at *
    omega

/-! What one thread leaves of the others. -/

/-- The stack and the context of `t` hold what they held. -/
structure Kept (img : Image) (k : Kernel) (t : Tid) (mem mem' : ℕ → UInt64) : Prop where
  stack : AgreeOn (k.stackOf img t) mem mem'
  context : AgreeOn (k.contextOf t) mem mem'

theorem Kept.trans {mem₂ : ℕ → UInt64} (h : Kept img k t mem mem') (h' : Kept img k t mem' mem₂) :
    Kept img k t mem mem₂ := ⟨h.stack.trans h'.stack, h.context.trans h'.context⟩

variable {u : Tid} {th th' : Thread} {start total : ℕ} {ws : List (ℕ × UInt64)} {frame low : UInt64}

/-- Tidy code. -/
theorem Tidy.kept (h : Tidy img k u frame ws) (hi : k.Inv) (hth : k.threads t = some th)
    (hne : t ≠ u) : Kept img k t mem (store mem ws) := by
  have hclear : ∀ w ∈ ws, Off w.1 (k.stackOf img t).1 (k.stackOf img t).2 ∧
      Off w.1 (k.context t) (k.context t + 16) := fun w hw =>
    have hc := (h w hw).1 t (Nat.lt_succ_of_le (hi.named hth)) (by simp [hth])
    ⟨hc.1 hne, hc.2⟩
  exact ⟨store_agree fun w hw => (hclear w hw).1, store_agree fun w hw => (hclear w hw).2⟩

theorem Tidy.keeps_frame (h : Tidy img k u frame ws) : AgreeOn (frameOf img frame) mem (store mem ws) :=
  store_agree fun w hw => (h w hw).2

/-- What lies beside the stack lies beside the frame. -/
theorem Room.beside (h : Room img k u frame low) {r : ℕ × ℕ} (hr : Beside r (k.stackOf img u)) :
    Beside r (frameOf img frame) := by
  have hb := h.bounds
  unfold Beside frameOf at *
  dsimp only
  omega

/-- The trap itself. -/
theorem enterTrap_kept {c : Cpu} {ecall : Bool} (hh : Hosted img start total k)
    (hth : k.threads t = some th) (hu : k.threads u = some th') (hne : t ≠ u)
    (hroom : Room img k u (c.x sp - 256) low) : Kept img k t mem (enterTrap img mem c ecall) := by
  have hb := hroom.bounds
  exact ⟨enterTrap_agree (by omega) (hroom.beside (hh.stacks_beside hth hu hne)),
    enterTrap_agree (by omega) (hroom.beside (hh.stack_context_beside hu hth).symm)⟩

/-- `pushRegisters` writes to the free part of the stack. -/
theorem push_within (h : Room img k u frame low) (x : Registers) :
    ∀ w ∈ table (low - 256).toNat pushed x, Within w.1 ((low - 256).toNat) low.toNat := by
  intro w hw
  have hb := h.bounds
  have hlow := toNat_lower low (by omega)
  have hin := table_within hw
  unfold Within at *
  omega

theorem push_kept (hh : Hosted img start total k) (hth : k.threads t = some th)
    (hu : k.threads u = some th') (hne : t ≠ u) (hroom : Room img k u frame low) (x : Registers) :
    Kept img k t mem (store mem (table (low - 256).toNat pushed x)) := by
  have hb := hroom.bounds
  have hlow := toNat_lower low (by omega)
  have hs : Beside (k.stackOf img t) (k.stackOf img u) := hh.stacks_beside hth hu hne
  have hc : Beside (k.stackOf img u) (k.contextOf t) := hh.stack_context_beside hu hth
  unfold Beside at hs hc
  exact ⟨store_beside (push_within hroom x) (by omega), store_beside (push_within hroom x) (by omega)⟩

theorem savedContext_within (img : Image) (k : Kernel) (u : Tid) (low : UInt64) :
    ∀ w ∈ savedContext img k u low, Within w.1 (k.contextOf u).1 (k.contextOf u).2 := by
  intro w hw
  simp only [savedContext, List.mem_cons, List.not_mem_nil, or_false] at hw
  rcases hw with rfl | rfl
  · exact (k.context_within u).1
  · exact (k.context_within u).2

theorem savedContext_kept (hh : Hosted img start total k) (hth : k.threads t = some th)
    (hu : k.threads u = some th') (hne : t ≠ u) (low : UInt64) :
    Kept img k t mem (store mem (savedContext img k u low)) :=
  ⟨store_beside (savedContext_within img k u low) (hh.stack_context_beside hth hu).symm,
    store_beside (savedContext_within img k u low) (hh.contexts_beside hth hu hne).symm⟩

/-! Waiting threads. -/

/-- The thread `t` is parked with `v`, or has not run. -/
def Waits (img : Image) (k : Kernel) (mem : ℕ → UInt64) (activation : Tid → Option Activation)
    (t : Tid) (th : Thread) : Option VCpu → Prop
  | none => th.context = .threadWrapper ∧ Unborn img k mem t th
  | some v => th.context ≠ .threadWrapper ∧ ∃ a, activation t = some a ∧ Parked img k mem t a v

theorem Waits.keep {act act' : Tid → Option Activation} {o : Option VCpu}
    (h : Waits img k mem act t th o) (hk : Kept img k t mem mem') (hact : act' t = act t)
    (hstackOf : k'.stackOf img t = k.stackOf img t) (hcontextOf : k'.context t = k.context t)
    (hstack : th'.stack = th.stack) (hcontext : th'.context = th.context) :
    Waits img k' mem' act' t th' o := by
  cases o with
  | none => exact ⟨hcontext.trans h.1, h.2.agree hk.context hstack hcontextOf⟩
  | some v =>
    obtain ⟨hne, a, ha, hp⟩ := h
    exact ⟨hcontext ▸ hne, a, hact.trans ha, hp.agree hk.stack hk.context hstackOf hcontextOf⟩

/-- The thread that leaves the processor in `dispatch` is parked. -/
theorem parks {x : Registers} {ecall : Bool} (hh : Hosted img start total k)
    (hu : k.threads u = some th) (hroom : Room img k u frame low) (hf : Framed img mem frame v)
    (hcalls : ecall = v.calls) :
    Parked img k (store (store mem (table (low - 256).toNat pushed x)) (savedContext img k u low)) u
      ⟨ecall, frame, low, x⟩ v := by
  have hb := hroom.bounds
  have hlow := toNat_lower low (by omega)
  have hstack : Beside (k.stackOf img u) (k.contextOf u) := hh.stack_context_beside hu hu
  have hsaved : AgreeOn (k.stackOf img u) (store mem (table (low - 256).toNat pushed x))
      (store (store mem (table (low - 256).toNat pushed x)) (savedContext img k u low)) :=
    store_beside (savedContext_within img k u low) hstack.symm
  refine ⟨?_, ?_, fun i hi => ?_, ?_, hcalls, hroom⟩
  · simp [savedContext]
  · simp [savedContext]
  · have := i.isLt
    dsimp only
    rw [hsaved _ ⟨by omega, by omega⟩]
    exact store_table ((List.nodup_finRange 32).filter _) hi
  · apply hf.agree (by omega)
    refine Agree.trans (store_beside (push_within hroom x) ?_) (hsaved.mono ?_ ?_)
    · unfold frameOf
      dsimp only
      omega
    · unfold frameOf
      dsimp only
      omega
    · unfold frameOf
      dsimp only
      omega

end Machine
end OSK
