import RiscVKernel.Kernel.Waking

/-! No list insertion looks at what `_kmalloc` returned. A call writes through a
null node exactly when the heap has no block left for a node it inserts before it
has freed one: `signal` and the waking of a thread free theirs first. -/

namespace OSK

open Lib

namespace Kernel

variable {k : Kernel} {s : SemId} {m : Sem} {e : Event} {loc : Tid → Place} {start total : ℕ}

/-- The thread waits on a semaphore with a timeout. -/
def waitsTimed (k : Kernel) (t : Tid) : Bool :=
  match k.threads t with
  | none => false
  | some th => th.semStatus = .timedWaiting

/-- `val--` on the semaphore makes its value negative, and not too small for a `long`. -/
def Blocking (k : Kernel) (s : SemId) : Prop :=
  ∃ m, k.sems s = some m ∧ -2 ^ 63 < m.val ∧ m.val ≤ 0

/-- The calls and the interrupt by which threads change places. -/
def Switches : Event → Prop
  | .threadDispatch => True
  | .tick => True
  | .semWait _ => True
  | .semTimedwait _ _ => True
  | .semSignal _ => True
  | .timeSleep _ => True
  | _ => False

/-- The heap has a block for every node the event inserts. -/
def Enough (k : Kernel) : Event → Prop
  | .threadDispatch => 1 ≤ k.heap.freeBlocks
  | .timeSleep _ => 1 ≤ k.heap.freeBlocks
  | .semWait (some s) => k.Blocking s → 1 ≤ k.heap.freeBlocks
  | .semTimedwait (some s) _ => k.Blocking s → 2 ≤ k.heap.freeBlocks
  | .tick => k.expires → 1 ≤ k.heap.freeBlocks ∨
      ∃ t ∈ k.listAsleepThreads.items.takeWhile k.incTime.due, k.waitsTimed t
  | _ => True

/-! Without a block. -/

theorem NoNode.starved {f : Fault} (h : k.NoNode f) (hs : k.Stored start total) :
    k.heap.freeBlocks = 0 := (Heap.kmalloc_one_none hs.wf).1 h.2

theorem newNode_starved {h : Heap} (hw : h.WF start total) (hb : h.freeBlocks = 0) :
    KList.newNode h = .error .nullNode := by
  have hm : h.kmalloc (blocksFor 16) = none := (Heap.kmalloc_one_none hw).2 hb
  unfold KList.newNode
  rw [hm]

theorem addBlocked_starved (t : Tid) (hm : k.sems s = some m) (hs : k.Stored start total)
    (hb : k.heap.freeBlocks = 0) : k.addBlocked s t = .error .nullNode := by
  unfold addBlocked KList.addLast
  simp only [Kernel.sem, hm, newNode_starved hs.wf hb, bind, Except.bind]

theorem insertAsleep_starved {t : Tid} (ht : k.isThreadValid t = true) (hs : k.Stored start total)
    (hb : k.heap.freeBlocks = 0) : k.insertAsleep t = .error .nullNode := by
  unfold insertAsleep KList.insertSorted
  simp only [ht, if_true, newNode_starved hs.wf hb, bind, Except.bind]

theorem wait_starved (hm : k.sems s = some m) (hlow : -2 ^ 63 < m.val) (hv : m.val ≤ 0)
    (hs : k.Stored start total) (hb : k.heap.freeBlocks = 0) : k.wait s = .error .nullNode := by
  have ha := addVal_total (d := -1) hm (by omega) (by omega)
  obtain ⟨hs₁, hheap⟩ := addVal_stored ha hs
  have hblock := addBlocked_starved k.running (addVal_sem ha hm) hs₁ (by rw [hheap, hb])
  have hneg : ¬0 ≤ m.val + -1 := by omega
  unfold wait block
  simp only [ha, bind, Except.bind, if_neg hneg]
  rw [show (k.setSem s { m with val := m.val + -1 }).running = k.running from rfl, hblock]

/-- The node for the queue takes the last block, and none is left for the sleep list. -/
theorem timedBlock_starved {n : UInt64} (hm : k.sems s = some m) (hrec : k.threads k.running ≠ none)
    (hs : k.Stored start total) (hb : k.heap.freeBlocks < 2) :
    k.timedBlock s n = .error .nullNode := by
  have ht := timing_stays k k.running (wrap (n.toNat + k.sysTime))
  have hs₁ : (k.timing k.running (wrap (n.toNat + k.sysTime))).Stored start total :=
    setTimeForWakingUp_stored _ _ (setThreadsSemStatus_stored _ _ hs)
  rcases Nat.eq_zero_or_pos k.heap.freeBlocks with h0 | h1
  · have hm₁ : (k.timing k.running (wrap (n.toNat + k.sysTime))).sems s = some m := hm
    have hblock := addBlocked_starved k.running hm₁ hs₁ h0
    unfold timedBlock
    unfold timing at hblock
    simp only [hblock, bind, Except.bind]
  · obtain ⟨node, hp, hk⟩ := hs.node h1
    obtain ⟨k₁, hadd⟩ : ∃ k₁, (k.timing k.running (wrap (n.toNat + k.sysTime))).addBlocked s
        k.running = .ok k₁ := by
      apply bind_total (a := m) (by simp [Kernel.sem, timing, hm])
      refine bind_total (a := (hp, m.queueBlocked ++ [⟨node, k.running⟩])) ?_ ⟨_, rfl⟩
      have hk' : (k.timing k.running (wrap (n.toNat + k.sysTime))).heap.kmalloc (blocksFor 16) =
        some (node, hp) := hk
      simp only [KList.addLast, KList.newNode, hk']
      rfl
    have hs₂ := addBlocked_stored hadd hs₁
    have hvalid : k₁.isThreadValid k.running = true := by
      have := ht.trans (addBlocked_stays hadd)
      rw [isThreadValid, this.isSome, Option.isSome_iff_ne_none]
      exact hrec
    have hfree : k₁.heap.freeBlocks = 0 := by
      obtain ⟨m', node', hp', -, hk', rfl⟩ := addBlocked_ok hadd
      have := Heap.kmalloc_blocks hk'
      have hone : blocksFor 16 = 1 := by decide
      change hp'.freeBlocks = 0
      change _ = k.heap.freeBlocks at this
      omega
    have hins := insertAsleep_starved hvalid hs₂ hfree
    unfold timedBlock
    unfold timing at hadd
    simp only [hadd, hins, bind, Except.bind]

theorem timedWait_starved {n : UInt64} (hm : k.sems s = some m) (hlow : -2 ^ 63 < m.val)
    (hv : m.val ≤ 0) (hrec : k.threads k.running ≠ none) (hs : k.Stored start total)
    (hb : k.heap.freeBlocks < 2) : k.timedWait s n = .error .nullNode := by
  have ha := addVal_total (d := -1) hm (by omega) (by omega)
  obtain ⟨hs₁, hheap⟩ := addVal_stored ha hs
  have hblock := timedBlock_starved (n := n) (addVal_sem ha hm) hrec hs₁ (by rw [hheap]; exact hb)
  have hneg : ¬0 ≤ m.val + -1 := by omega
  unfold timedWait
  simp only [ha, bind, Except.bind, if_neg hneg]
  exact hblock

theorem putThreadToSleep_starved (n : UInt64) (hrec : k.threads k.running ≠ none)
    (hs : k.Stored start total) (hb : k.heap.freeBlocks = 0) :
    k.putThreadToSleep n = .error .nullNode := by
  have hvalid : k.isThreadValid k.running = true := Option.isSome_iff_ne_none.2 hrec
  have hs₁ := setTimeForWakingUp_stored k.running (wrap (k.sysTime + n.toNat))
    (setThreadState_stored k.running .suspended hs)
  have hvalid₁ : ((k.setThreadState k.running .suspended).setTimeForWakingUp k.running
      (wrap (k.sysTime + n.toNat))).isThreadValid k.running = true := by
    simpa [isThreadValid] using hvalid
  have hins := insertAsleep_starved hvalid₁ hs₁ hb
  unfold putThreadToSleep
  simp only [hvalid, if_true, hins, bind, Except.bind]

/-! The tick. -/

theorem Located.waitsTimed_iff {t : Tid} (hl : k.Located loc)
    (ht : t ∈ k.listAsleepThreads.items) : k.waitsTimed t = (loc t).isTimed := by
  have hloc := hl.placed.mem_asleep ht
  obtain ⟨th, hth, hfit⟩ := hl.placed.record (t := t) (by rcases hloc with h | ⟨s, h⟩ <;> simp [h])
  rcases hloc with hloc | ⟨s, hloc⟩
  · rw [hloc] at hfit
    simp [waitsTimed, hth, hloc, Place.isTimed, hfit.1]
  · rw [hloc] at hfit
    simp [waitsTimed, hth, hloc, Place.isTimed, hfit.1]

/-- A tick frees a block when it wakes a thread that waited with a timeout. -/
theorem Located.wokenBlocks_eq_zero (hl : k.Located loc) : k.wokenBlocks loc = 0 ↔
    ¬∃ t ∈ k.listAsleepThreads.items.takeWhile k.incTime.due, k.waitsTimed t := by
  have hmem : ∀ t ∈ k.listAsleepThreads.items.takeWhile k.incTime.due,
      k.waitsTimed t = (loc t).isTimed := fun t ht =>
    hl.waitsTimed_iff ((List.takeWhile_prefix _).subset ht)
  rw [wokenBlocks, List.countP_eq_zero]
  push Not
  exact forall₂_congr fun t ht => by rw [hmem t ht]

theorem tick_starved (hi : k.Inv) (hl : k.Located loc) (hs : k.Stored start total) (hr : k.Ranged)
    (hb : k.heap.freeBlocks + k.wokenBlocks loc = 0) (he : k.expires = true) :
    k.timerInterruptHandler = .error .nullNode := by
  obtain ⟨k₁, hw, hfree⟩ := wakeAsleepThreadsUp_total hi hl hs hr
  obtain ⟨_, _, -, -, -, hl₁, -⟩ := wake_located hw hl
  obtain ⟨th₁, hth₁, hrun⟩ := hl₁.runnable
  have hstays := wakeAsleepThreadsUp_stays hw
  obtain ⟨th, hth, horigin, -⟩ := hstays.record hth₁
  rw [hstays.running] at hth
  have hslice : th₁.timeSlice = th.timeSlice := congrArg (·.2.2.1) horigin
  have hcpu : k₁.runningThreadCpuTime = wrap (k.runningThreadCpuTime + 1) := hstays.cpuTime
  have hle : th₁.timeSlice ≤ k₁.runningThreadCpuTime := by
    have hth : k.threads k.running = some th := hth
    rw [hslice, hcpu]
    simpa [expires, hth] using he
  have hd := dispatch_starved .toUser hth₁ hrun (wakeAsleepThreadsUp_stored hw hs)
    (hfree.trans hb)
  unfold timerInterruptHandler
  simp only [hw, thread, hth₁, bind, Except.bind, if_pos hle, hd]

/-- `signal` frees the node of the thread it releases before it needs one. -/
theorem signal_node (hl : k.Located loc) (hs : k.Stored start total) :
    k.signal s ≠ .error .nullNode := by
  intro h
  rcases bind_error h with ha | ⟨r, ha, h⟩
  · rcases addVal_error ha with hf | ⟨hf, -⟩
    · exact hf
    · cases hf
  have hl₁ : (r.2.note (.signalled s)).Located loc :=
    (addVal_located ha hl).congr (fun _ => rfl) rfl
  have hs₁ : (r.2.note (.signalled s)).Stored start total :=
    note_stored _ (addVal_stored ha hs).1
  dsimp only at h
  split_ifs at h
  · cases h
  rcases bind_error h with hu | ⟨k₁, -, h⟩
  · rcases unblock_error hu with hf | ⟨hf, -⟩ | ⟨hf, -⟩ | ⟨t, k₁, th, hb, -⟩
    · exact hf
    · cases hf
    · cases hf
    · obtain ⟨m, hm, ⟨-, ht⟩ | ⟨e, q, hq, -⟩⟩ := firstBlocked_ok hb
      · cases ht
      · obtain ⟨k', hk'⟩ : ∃ k', (r.2.note (.signalled s)).unblock s .regularlyWaited = .ok k' :=
          unblock_total hl₁.placed hs₁ hm hq
        rw [hk'] at hu
        cases hu
  · cases h

/-! When each call writes through a null node. -/

theorem dispatch_node (hl : k.Located loc) (hs : k.Stored start total) :
    k.dispatch .toUser = .error .nullNode ↔ k.heap.freeBlocks = 0 := by
  obtain ⟨th, hth, hrun⟩ := hl.runnable
  exact ⟨fun hf => (dispatch_fault hf hth hrun hs).2, dispatch_starved _ hth hrun hs⟩

theorem putThreadToSleep_node (n : UInt64) (hl : k.Located loc) (hs : k.Stored start total) :
    k.putThreadToSleep n = .error .nullNode ↔ k.heap.freeBlocks = 0 := by
  refine ⟨?_, putThreadToSleep_starved n hl.recorded hs⟩
  intro hf
  rcases putThreadToSleep_error hf hl with ho | hn
  · exact ho.elim
  · exact hn.starved hs

theorem wait_node (hl : k.Located loc) (hs : k.Stored start total) :
    k.wait s = .error .nullNode ↔ k.Blocking s ∧ k.heap.freeBlocks = 0 := by
  refine ⟨?_, fun ⟨⟨m, hm, hlow, hv⟩, h0⟩ => wait_starved hm hlow hv hs h0⟩
  intro hf
  rcases wait_error hf hl with ho | ⟨ho, -⟩ | ⟨m, hm, hlow, hv, hn⟩
  · exact ho.elim
  · cases ho
  · exact ⟨⟨m, hm, hlow, hv⟩, hn.starved hs⟩

theorem timedWait_node (n : UInt64) (hl : k.Located loc) (hs : k.Stored start total) :
    k.timedWait s n = .error .nullNode ↔ k.Blocking s ∧ k.heap.freeBlocks < 2 := by
  refine ⟨?_, fun ⟨⟨m, hm, hlow, hv⟩, h0⟩ => timedWait_starved hm hlow hv hl.recorded hs h0⟩
  intro hf
  rcases timedWait_error hf hl with ho | ⟨ho, -⟩ | ⟨m, hm, hlow, hv, hn | ⟨-, node, hp, hk, hk'⟩⟩
  · exact ho.elim
  · cases ho
  · have h0 := hn.starved hs
    exact ⟨⟨m, hm, hlow, hv⟩, by omega⟩
  · -- the first node takes the last block
    have h0 := (Heap.kmalloc_one_none (Heap.kmalloc_wf hs.wf hk)).1 hk'
    have h1 := Heap.kmalloc_blocks hk
    have hone : blocksFor 16 = 1 := by decide
    exact ⟨⟨m, hm, hlow, hv⟩, by omega⟩

theorem tick_node (hi : k.Inv) (hs : k.Stored start total) (hr : k.Ranged) :
    k.timerInterruptHandler = .error .nullNode ↔ k.expires = true ∧ k.heap.freeBlocks = 0 ∧
      ¬∃ t ∈ k.listAsleepThreads.items.takeWhile k.incTime.due, k.waitsTimed t := by
  obtain ⟨loc, hl⟩ := hi.located
  rw [← hl.wokenBlocks_eq_zero]
  refine ⟨?_, fun ⟨he, h0, hw⟩ => tick_starved hi hl hs hr (by omega) he⟩
  intro hf
  obtain ⟨-, h0, he⟩ := tick_fault hf hi hl hs hr
  exact ⟨he, by omega, by omega⟩

/-- In every reachable state a call or tick writes through a null node exactly
when the heap is short of the blocks it needs. -/
theorem node_exact {kb : Kernel} {es : List Event} (hb : boot start total = some kb)
    (h : Run step (fun _ _ => True) kb es k) (he : Switches e) :
    k.step e ≠ .error .nullNode ↔ k.Enough e := by
  obtain ⟨hi, hs⟩ := run_stored hb h
  obtain ⟨loc, hl⟩ := hi.located
  have hfree : ¬k.heap.freeBlocks = 0 ↔ 1 ≤ k.heap.freeBlocks := Nat.one_le_iff_ne_zero.symm
  cases e with
  | threadDispatch => exact (not_congr (dispatch_node hl hs)).trans hfree
  | timeSleep n => exact (not_congr (putThreadToSleep_node _ hl hs)).trans hfree
  | semWait o =>
    cases o with
    | none => exact ⟨fun _ => trivial, fun _ hf => by cases hf⟩
    | some s =>
      exact ((not_congr (wait_node hl hs)).trans not_and).trans (imp_congr_right fun _ => hfree)
  | semTimedwait o n =>
    cases o with
    | none => exact ⟨fun _ => trivial, fun _ hf => by cases hf⟩
    | some s =>
      exact ((not_congr (timedWait_node n hl hs)).trans not_and).trans
        (imp_congr_right fun _ => Nat.not_lt)
  | tick =>
    refine ((not_congr (tick_node hi hs (run_ranged hb h))).trans not_and).trans
      (imp_congr_right fun _ => ?_)
    rw [not_and_or, not_not, hfree]
  | semSignal o =>
    refine ⟨fun _ => trivial, ?_⟩
    intro _ hf
    obtain ⟨s, -, hf⟩ := withHandle_error hf
    exact signal_node hl hs (map_error hf)
  | _ => cases he

/-- `main` dispatches with one block left. -/
theorem node_exact_last : ∃ kb k, boot 1024 69 = some kb ∧
    Run step (fun _ _ => True) kb [.memAlloc 1] k ∧ k.step .threadDispatch ≠ .error .nullNode := by
  have hrun : ((boot 1024 69).bind fun kb => exec step (fun _ _ => True) kb [.memAlloc 1]).any
      (fun k => 1 ≤ k.heap.freeBlocks) = true := by
    decide +kernel
  obtain ⟨kb, k, hb, h, hfree⟩ := exists_run hrun
  have he : Switches .threadDispatch := trivial
  have hfree : 1 ≤ k.heap.freeBlocks := of_decide_eq_true hfree
  have hen : k.Enough .threadDispatch := hfree
  exact ⟨kb, k, hb, h, (node_exact hb h he).2 hen⟩

/-- User code takes the last block, and the node of the next `dispatch` is null. -/
theorem node_exact_fails : ∃ kb k, boot 1024 68 = some kb ∧
    Run step (fun _ _ => True) kb [.memAlloc 1] k ∧ k.step .threadDispatch = .error .nullNode := by
  have hrun : ((boot 1024 68).bind fun kb => exec step (fun _ _ => True) kb [.memAlloc 1]).any
      (fun k => faultOf (k.step .threadDispatch) = some .nullNode) = true := by
    decide +kernel
  obtain ⟨kb, k, hb, h, hf⟩ := exists_run hrun
  exact ⟨kb, k, hb, h, faultOf_eq_some.1 (of_decide_eq_true hf)⟩

end Kernel
end OSK
