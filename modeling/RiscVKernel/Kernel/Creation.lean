import RiscVKernel.Kernel.Accounts
import RiscVKernel.Kernel.Handover

/-! `thread_create` and `sem_open` on a heap that may be full. A stack that cannot
be had is reported. The record and the node that follow it are used without a look
at the pointer, so that the calls succeed or fail as a whole only while both are
to be had. -/

namespace OSK

open Lib

namespace Heap

variable {h h' : Heap} {n p start total : ℕ}

/-- `_kmalloc` finds a block exactly when a free one is large enough. -/
theorem kmalloc_fits (hn : 1 ≤ n) : (∃ r, h.kmalloc n = some r) ↔ ∃ b ∈ h.free, n ≤ b.size := by
  refine ⟨?_, ?_⟩
  · rintro ⟨⟨p, h'⟩, hm⟩
    obtain ⟨b, l₁, l₂, -, -, hfree, hb, -⟩ := kmalloc_some hm
    exact ⟨b, by simp [hfree], hb⟩
  · rintro ⟨b, hb, hle⟩
    rw [kmalloc, if_neg (by omega)]
    cases hf : takeFit n h.free with
    | some r => exact ⟨_, rfl⟩
    | none => exact absurd (takeFit_none hf b hb) (by omega)

/-- The free list after the stack of a thread was taken, if there is one. -/
def withoutStack (h : Heap) : Option (List Block) :=
  (takeFit (blocksFor Kernel.stackSize) h.free).map (·.2)

/-- There is no block for a stack, or there are one for the record and one for the
node behind it. -/
def RoomForThread (h : Heap) : Prop :=
  ∀ free ∈ h.withoutStack, (∃ b ∈ free, blocksFor Kernel.threadSize ≤ b.size) ∧
    blocksFor Kernel.threadSize + blocksFor 16 ≤ sumSizes free

/-- There are a block for the record of a semaphore and one for its node. -/
def RoomForSem (h : Heap) : Prop :=
  blocksFor Kernel.semSize + blocksFor 16 ≤ h.freeBlocks

instance (h : Heap) : Decidable h.RoomForThread :=
  inferInstanceAs (Decidable (∀ free ∈ h.withoutStack, _ ∧ _))

instance (h : Heap) : Decidable h.RoomForSem :=
  inferInstanceAs (Decidable (_ ≤ _))

theorem withoutStack_none (h : Heap) :
    h.withoutStack = none ↔ h.kmalloc (blocksFor Kernel.stackSize) = none := by
  unfold withoutStack kmalloc
  rw [if_neg (by decide)]
  cases takeFit (blocksFor Kernel.stackSize) h.free <;> simp

theorem withoutStack_some (hm : h.kmalloc (blocksFor Kernel.stackSize) = some (p, h')) :
    h.withoutStack = some h'.free := by
  unfold kmalloc at hm
  rw [if_neg (by decide)] at hm
  unfold withoutStack
  cases hf : takeFit (blocksFor Kernel.stackSize) h.free with
  | none => simp [hf] at hm
  | some r =>
    rw [hf] at hm
    cases hm
    rfl

/-- A block of `n` and a single one behind it. -/
theorem kmalloc_two (hw : WF start total h) (hn : 1 ≤ n) :
    (∃ p h₁ q h₂, h.kmalloc n = some (p, h₁) ∧ h₁.kmalloc 1 = some (q, h₂)) ↔
      (∃ b ∈ h.free, n ≤ b.size) ∧ n + 1 ≤ h.freeBlocks := by
  rw [← kmalloc_fits hn]
  refine ⟨?_, ?_⟩
  · rintro ⟨p, h₁, q, h₂, h1, h2⟩
    have hb₁ := kmalloc_blocks h1
    have hb₂ := kmalloc_blocks h2
    exact ⟨⟨_, h1⟩, by omega⟩
  · rintro ⟨⟨⟨p, h₁⟩, h1⟩, hle⟩
    have hb₁ := kmalloc_blocks h1
    cases h2 : h₁.kmalloc 1 with
    | some r => exact ⟨p, h₁, r.1, r.2, h1, h2⟩
    | none =>
      have hzero := (kmalloc_one_none (kmalloc_wf hw h1)).1 h2
      omega

end Heap

namespace Kernel

variable {k k' : Kernel} {body : UInt64} {stack start total : ℕ}

/-! The calls of `syscall_c.cpp`. -/

/-- `thread_create`: the stack, then the trap. -/
def threadCreate (k : Kernel) (body : UInt64) : Except Fault (ℤ × Kernel) := do
  let (stack, k) := k.memAlloc (UInt64.ofNat (blocksFor stackSize))
  if stack = 0 then return (-1, k)
  else
    let k ← k.newThread body stack
    return (0, k)

/-- `sem_open`. The wrapper compares the new object with null, but the constructor
has run by then. -/
def semOpen (k : Kernel) (init : UInt32) : Except Fault (ℤ × Kernel) := do
  let k ← k.newSem init.toUInt64
  return (0, k)

/-- A thread with a stack, a record and a place in the ready queue. -/
structure ThreadMade (k : Kernel) (body : UInt64) (k' : Kernel) : Prop where
  record : ∃ stack, k'.threads (k.ID + 1) = some (k.newborn body stack) ∧
    k'.heap.sizeAt stack = some (blocksFor stackSize)
  place : k'.heap.sizeAt (k'.threadAddr (k.ID + 1)) = some (blocksFor threadSize)
  queued : k'.queueThreads.items = k.queueThreads.items ++ [k.ID + 1]
  once : k'.queueThreads.items.count (k.ID + 1) = 1
  parent : ∃ th, k.threads k.running = some th ∧ k'.threads k.running =
    some { th with numOfChildren := wrap (th.numOfChildren + 1) }
  others : ∀ t, t ≠ k.running → t ≠ k.ID + 1 → k'.threads t = k.threads t
  sems : k'.sems = k.sems ∧ k'.allSemaphores = k.allSemaphores

/-- A semaphore with a record and a place in `allSemaphores`. -/
structure SemMade (k : Kernel) (init : UInt32) (k' : Kernel) : Prop where
  record : k'.sems k.nextSem = some ⟨init.toNat, [], 0⟩
  place : k'.heap.sizeAt (k'.semAddr k.nextSem) = some (blocksFor semSize)
  listed : k'.allSemaphores.items = k.allSemaphores.items ++ [k.nextSem]
  once : k'.allSemaphores.items.count k.nextSem = 1
  others : ∀ s, s ≠ k.nextSem → k'.sems s = k.sems s
  threads : k'.threads = k.threads ∧ k'.queueThreads = k.queueThreads

/-- The blocks in use, the lists and the records are as they were. -/
structure Intact (k k' : Kernel) : Prop where
  blocks : ∀ p, k'.heap.sizeAt p = k.heap.sizeAt p
  ready : k'.queueThreads = k.queueThreads
  sems : k'.allSemaphores = k.allSemaphores
  threads : k'.threads = k.threads

/-- A call returns 0 with what it is to make, or -1 with nothing changed. -/
def AllOrNothing (k : Kernel) (call : Except Fault (ℤ × Kernel)) (made : Kernel → Prop) : Prop :=
  (∃ k', call = .ok (0, k') ∧ made k') ∨ ∃ k', call = .ok (-1, k') ∧ Intact k k'

/-- No stack: the call is refused. -/
theorem threadCreate_refused (hm : k.heap.kmalloc (blocksFor stackSize) = none) :
    k.threadCreate body = .ok (-1, k) := by
  have hnat : (UInt64.ofNat (blocksFor stackSize)).toNat = blocksFor stackSize := by decide
  simp only [threadCreate, memAlloc, hnat, hm]
  rfl

/-- The call goes on when it has its stack. -/
theorem threadCreate_goes {hp : Heap} (hm : k.heap.kmalloc (blocksFor stackSize) = some (stack, hp)) :
    k.threadCreate body =
      (newThread { k with heap := hp, user := stack :: k.user } body stack).map ((0 : ℤ), ·) := by
  have hnat : (UInt64.ofNat (blocksFor stackSize)).toNat = blocksFor stackSize := by decide
  have hpos : stack ≠ 0 := by
    obtain ⟨b, _, _, -, rfl, -⟩ := Heap.kmalloc_some hm
    simp [payload, sizeHeader]
  simp only [threadCreate, memAlloc, hnat, hm, if_neg hpos]
  cases newThread { k with heap := hp, user := stack :: k.user } body stack <;> rfl

/-- The constructor comes back when the record and the node can be had. -/
theorem newThread_back (hu : stack ∈ k.user) (hb : body ≠ 0) :
    (∃ k', k.newThread body stack = .ok k') ↔ ∃ p h₁ q h₂,
      k.heap.kmalloc (blocksFor threadSize) = some (p, h₁) ∧ h₁.kmalloc 1 = some (q, h₂) := by
  refine ⟨?_, ?_⟩
  · rintro ⟨k', h⟩
    obtain ⟨-, p, h₁, k₁, hm, ⟨-, hput⟩ | ⟨h0, -⟩, -⟩ := newThread_ok h
    · obtain ⟨q, h₂, hm', -⟩ := put_ok hput
      exact ⟨p, h₁, q, h₂, hm, hm'⟩
    · exact absurd h0 hb
  · rintro ⟨p, h₁, q, h₂, hm, hm'⟩
    have hput : put { k with heap := h₁, user := k.user.erase stack } (k.ID + 1) =
        .ok { k with
          heap := h₂
          user := k.user.erase stack
          queueThreads := k.queueThreads ++ [⟨q, k.ID + 1⟩] } := by
      have hm' : h₁.kmalloc (blocksFor 16) = some (q, h₂) := hm'
      simp only [put, KList.addLast, KList.newNode, hm']
      rfl
    unfold newThread
    simp only [if_pos hu, hm, ne_eq, hb, not_false_eq_true, if_true, hput]
    exact ⟨_, rfl⟩

theorem newSem_back {n : UInt64} : (∃ k', k.newSem n = .ok k') ↔ ∃ p h₁ q h₂,
    k.heap.kmalloc (blocksFor semSize) = some (p, h₁) ∧ h₁.kmalloc 1 = some (q, h₂) := by
  refine ⟨?_, ?_⟩
  · rintro ⟨k', h⟩
    obtain ⟨p, h₁, q, h₂, hm, hm', -⟩ := newSem_ok h
    exact ⟨p, h₁, q, h₂, hm, hm'⟩
  · rintro ⟨p, h₁, q, h₂, hm, hm'⟩
    have hm' : h₁.kmalloc (blocksFor 16) = some (q, h₂) := hm'
    unfold newSem
    simp only [hm, KList.addLast, KList.newNode, hm']
    exact ⟨_, rfl⟩

/-- The new thread of a call that comes back. -/
theorem newThread_made {hp : Heap} (hi : k.Inv) (hs : k.Stored start total)
    (hm : k.heap.kmalloc (blocksFor stackSize) = some (stack, hp)) (hb : body ≠ 0)
    (h : newThread { k with heap := hp, user := stack :: k.user } body stack = .ok k') :
    ThreadMade k body k' := by
  obtain ⟨-, p, h₁, k₁, hm₁, ⟨-, hput⟩ | ⟨h0, -⟩, rfl⟩ := newThread_ok h
  swap
  · exact absurd h0 hb
  obtain ⟨q, h₂, hm₂, rfl⟩ := put_ok hput
  have hm₁ : hp.kmalloc (blocksFor threadSize) = some (p, h₁) := hm₁
  have hm₂ : h₁.kmalloc (blocksFor 16) = some (q, h₂) := hm₂
  -- every block is new when it is handed out, so that the later ones leave it alone
  have hw := Heap.kmalloc_wf hs.wf hm
  obtain ⟨-, hsize⟩ := Heap.kmalloc_sizeAt hs.wf hm
  obtain ⟨hfresh₁, hsize₁⟩ := Heap.kmalloc_sizeAt hw hm₁
  obtain ⟨hfresh₂, hsize₂⟩ := Heap.kmalloc_sizeAt (Heap.kmalloc_wf hw hm₁) hm₂
  have hstack : h₂.sizeAt stack = some (blocksFor stackSize) := by
    have hne₁ : stack ≠ p := by
      rintro rfl
      simp [hsize] at hfresh₁
    have hne₂ : stack ≠ q := by
      rintro rfl
      simp [hsize₁, hne₁, hsize] at hfresh₂
    rw [hsize₂, Function.update_of_ne hne₂, hsize₁, Function.update_of_ne hne₁, hsize,
      Function.update_self]
  have hrecord : h₂.sizeAt p = some (blocksFor threadSize) := by
    have hne : p ≠ q := by
      rintro rfl
      simp [hsize₁] at hfresh₂
    rw [hsize₂, Function.update_of_ne hne, hsize₁, Function.update_self]
  obtain ⟨th, hth, -⟩ := alive_iff.1 hi.running_alive
  have hne : k.running ≠ k.ID + 1 := fun he => absurd (hi.named hth) (he ▸ Nat.not_succ_le_self _)
  have hout : k.ID + 1 ∉ k.queueThreads.items := by
    obtain ⟨loc, hl⟩ := hi.located
    intro hin
    obtain ⟨th, hth, -⟩ := hl.placed.record (t := k.ID + 1) (by simp [hl.placed.mem_ready hin])
    rw [hi.freshThread _ (Nat.lt_succ_self _)] at hth
    cases hth
  refine ⟨⟨stack, ?_, hstack⟩, ?_, ?_, ?_, ⟨th, hth, ?_⟩, ?_, rfl, rfl⟩
  · simp [enroll, newborn]
  · simpa [enroll, countChild] using hrecord
  · simp [enroll, countChild]
  · simp [enroll, countChild, List.count_append, List.count_eq_zero_of_not_mem hout]
  · simp [enroll, countChild, hne, hth]
  · intro t ht ht'
    simp [enroll, countChild, ht, ht']

/-- The new semaphore of a call that comes back. -/
theorem newSem_made {init : UInt32} (hi : k.Inv) (hs : k.Stored start total) (hl : k.SemsListed)
    (h : k.newSem init.toUInt64 = .ok k') : SemMade k init k' := by
  have hout : k.nextSem ∉ k.allSemaphores.items := by
    rw [hl.mem]
    exact not_not.2 (hi.freshSem _ le_rfl).1
  obtain ⟨p, h₁, q, h₂, hm₁, hm₂, rfl⟩ := newSem_ok h
  obtain ⟨-, hsize₁⟩ := Heap.kmalloc_sizeAt hs.wf hm₁
  obtain ⟨hfresh₂, hsize₂⟩ := Heap.kmalloc_sizeAt (Heap.kmalloc_wf hs.wf hm₁) hm₂
  have hrecord : h₂.sizeAt p = some (blocksFor semSize) := by
    have hne : p ≠ q := by
      rintro rfl
      simp [hsize₁] at hfresh₂
    rw [hsize₂, Function.update_of_ne hne, hsize₁, Function.update_self]
  refine ⟨by simp [initial_val], by simpa using hrecord, by simp, ?_, ?_, rfl, rfl⟩
  · simp [List.count_append, List.count_eq_zero_of_not_mem hout]
  · intro s hne
    simp [hne]

theorem threadCreate_iff (hi : k.Inv) (hs : k.Stored start total) (hb : body ≠ 0) :
    AllOrNothing k (k.threadCreate body) (ThreadMade k body) ↔ k.heap.RoomForThread := by
  cases hm : k.heap.kmalloc (blocksFor stackSize) with
  | none =>
    have hnone := (Heap.withoutStack_none k.heap).2 hm
    refine iff_of_true (Or.inr ⟨k, threadCreate_refused hm, fun _ => rfl, rfl, rfl, rfl⟩) ?_
    intro free hfree
    rw [hnone] at hfree
    cases hfree
  | some r =>
    obtain ⟨stack, hp⟩ := r
    have hback : (∃ k', newThread { k with heap := hp, user := stack :: k.user } body stack = .ok k') ↔
        k.heap.RoomForThread := by
      have hu : stack ∈ ({ k with heap := hp, user := stack :: k.user } : Kernel).user :=
        List.mem_cons_self
      rw [newThread_back hu hb, Heap.kmalloc_two (Heap.kmalloc_wf hs.wf hm) (by decide),
        Heap.RoomForThread, Heap.withoutStack_some hm]
      simp [Heap.freeBlocks, show blocksFor 16 = 1 by decide]
    rw [← hback, AllOrNothing, threadCreate_goes hm]
    refine ⟨?_, ?_⟩
    · rintro (⟨k', h, -⟩ | ⟨k', h, -⟩)
      · obtain ⟨k₁, hk₁, -⟩ := map_ok h
        exact ⟨k₁, hk₁⟩
      · obtain ⟨k₁, hk₁, -⟩ := map_ok h
        exact ⟨k₁, hk₁⟩
    · rintro ⟨k', hk'⟩
      exact Or.inl ⟨k', by rw [hk']; rfl, newThread_made hi hs hm hb hk'⟩

theorem semOpen_iff (init : UInt32) (hi : k.Inv) (hs : k.Stored start total) (hl : k.SemsListed) :
    AllOrNothing k (k.semOpen init) (SemMade k init) ↔ k.heap.RoomForSem := by
  have hback : (∃ k', k.newSem init.toUInt64 = .ok k') ↔ k.heap.RoomForSem := by
    have hone : blocksFor semSize = 1 := by decide
    rw [newSem_back, Heap.kmalloc_two hs.wf (by decide), Heap.RoomForSem,
      show blocksFor 16 = 1 by decide, and_iff_right_iff_imp, hone]
    intro hle
    rw [← Heap.kmalloc_fits le_rfl]
    cases hm : k.heap.kmalloc 1 with
    | some r => exact ⟨r, rfl⟩
    | none =>
      have hzero := (Heap.kmalloc_one_none hs.wf).1 hm
      omega
  rw [← hback]
  refine ⟨?_, ?_⟩
  · rintro (⟨k', h, -⟩ | ⟨k', h, -⟩)
    · obtain ⟨k₁, hk₁, -⟩ := bind_ok h
      exact ⟨k₁, hk₁⟩
    · obtain ⟨k₁, hk₁, -⟩ := bind_ok h
      exact ⟨k₁, hk₁⟩
  · rintro ⟨k', hk'⟩
    refine Or.inl ⟨k', ?_, newSem_made hi hs hl hk'⟩
    simp only [semOpen, hk']
    rfl

/-- In every reachable state, `thread_create` is all or nothing exactly when the heap
has no room for a stack, or room for a record and a node behind it, and `sem_open`
exactly when the heap has two free blocks. -/
theorem creation_exact {kb : Kernel} {es : List Event} (hb : boot start total = some kb)
    (h : Run step (fun _ _ => True) kb es k) :
    (∀ body, body ≠ 0 →
      (AllOrNothing k (k.threadCreate body) (ThreadMade k body) ↔ k.heap.RoomForThread)) ∧
    ∀ init, AllOrNothing k (k.semOpen init) (SemMade k init) ↔ k.heap.RoomForSem := by
  obtain ⟨hi, hs⟩ := run_stored hb h
  exact ⟨fun _ hbody => threadCreate_iff hi hs hbody,
    fun init => semOpen_iff init hi hs (run_accounted hb h).1⟩

/-- After a second thread was created there is room for another one. -/
theorem creation_exact_two : ∃ kb k, boot 1024 1000 = some kb ∧
    Run step (fun _ _ => True) kb [.memAlloc 65, .threadCreate 4096 5328] k ∧
    k.heap.RoomForThread ∧ k.heap.RoomForSem ∧
    AllOrNothing k (k.threadCreate 4096) (ThreadMade k 4096) ∧
    AllOrNothing k (k.semOpen 1) (SemMade k 1) := by
  have hrun : ((boot 1024 1000).bind fun kb => exec step (fun _ _ => True) kb [.memAlloc 65,
      .threadCreate 4096 5328]).any (fun k => k.heap.RoomForThread ∧ k.heap.RoomForSem) = true := by
    decide +kernel
  obtain ⟨kb, k, hb, h, hq⟩ := exists_run hrun
  obtain ⟨hthread, hsem⟩ := of_decide_eq_true hq
  obtain ⟨h₁, h₂⟩ := creation_exact hb h
  exact ⟨kb, k, hb, h, hthread, hsem, (h₁ 4096 (by decide)).2 hthread, (h₂ 1).2 hsem⟩

/-- On a heap of 132 blocks the stack of the second thread takes the last ones, and
its record is made at null. On one of 68 blocks the record of a semaphore takes the
last one, and its node is made at null. -/
theorem creation_exact_full :
    (∃ k, boot 1024 132 = some k ∧ k.threadCreate 4096 = .error .nullObject ∧
      ¬AllOrNothing k (k.threadCreate 4096) (ThreadMade k 4096)) ∧
    ∃ k, boot 1024 68 = some k ∧ k.semOpen 1 = .error .nullNode ∧
      ¬AllOrNothing k (k.semOpen 1) (SemMade k 1) := by
  have hfault : ∀ {k : Kernel} {call : Except Fault (ℤ × Kernel)} {made : Kernel → Prop} {f : Fault},
      call = .error f → ¬AllOrNothing k call made := by
    rintro k call made f rfl (⟨k', h, -⟩ | ⟨k', h, -⟩) <;> cases h
  have hthread : (boot 1024 132).any (fun k => match k.threadCreate 4096 with
      | .error .nullObject => true
      | _ => false) = true := by
    decide +kernel
  have hsem : (boot 1024 68).any (fun k => match k.semOpen 1 with
      | .error .nullNode => true
      | _ => false) = true := by
    decide +kernel
  refine ⟨?_, ?_⟩
  · obtain ⟨k, hk, hq⟩ := (Option.any_eq_true _ _).1 hthread
    have hcall : k.threadCreate 4096 = .error .nullObject := by
      split at hq
      · assumption
      · cases hq
    exact ⟨k, hk, hcall, hfault hcall⟩
  · obtain ⟨k, hk, hq⟩ := (Option.any_eq_true _ _).1 hsem
    have hcall : k.semOpen 1 = .error .nullNode := by
      split at hq
      · assumption
      · cases hq
    exact ⟨k, hk, hcall, hfault hcall⟩

end Kernel
end OSK
