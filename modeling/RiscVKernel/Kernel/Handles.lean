import RiscVKernel.Kernel.Children

/-! `isFinished` through a handle. It reads the magic number and the state from
memory, also when the thread was deleted and the memory belongs to somebody else,
so that a new thread at the same address looks like the old one. -/

namespace OSK

open Lib

/-- The 64-bit words of the memory by their addresses. -/
abbrev Memory := ℕ → ℕ

/-- The offsets of the fields `threadState` and `myMagicNumber` of `_thread`. -/
def threadStateOffset : ℕ := 48
def myMagicNumberOffset : ℕ := 64

/-- `THREAD_MAGIC_NUMBER` and `THREAD_DUMP_MAGIC_NUMBER`. -/
def threadMagicNumber : ℕ := 0xf832d45809acdeef
def threadDumpMagicNumber : ℕ := 0xacdcacdcacdcacdc

/-- The value of an enumerator of `threadStateTypes`. -/
def ThreadState.code : ThreadState → ℕ
  | .running => 0
  | .ready => 1
  | .suspended => 2
  | .finished => 3

namespace Memory

def isThreadValid (mem : Memory) (thr : ℕ) : Bool :=
  thr ≠ 0 && threadMagicNumber = mem (thr + myMagicNumberOffset)

/-- `threadState` is the low byte of its word. -/
def isFinished (mem : Memory) (thr : ℕ) : Bool :=
  mem.isThreadValid thr = false || mem (thr + threadStateOffset) % 256 = ThreadState.finished.code

/-- The records of the threads of `k` are in memory. -/
structure Shows (mem : Memory) (k : Kernel) : Prop where
  magic : ∀ t, k.threads t ≠ none → mem (k.threadAddr t + myMagicNumberOffset) = threadMagicNumber
  state : ∀ t th, k.threads t = some th →
    mem (k.threadAddr t + threadStateOffset) % 256 = th.threadState.code

end Memory

namespace Kernel

variable {k k' : Kernel} {t : Tid} {e : Event} {mem mem' : Memory} {a start total : ℕ}

theorem code_finished {st : ThreadState} : st.code = ThreadState.finished.code ↔ st = .finished := by
  cases st <;> decide

/-- While the thread is there, its handle says what the record says. -/
theorem shows_isFinished (h : mem.Shows k) (hs : k.Stored start total) (ht : k.threads t ≠ none) :
    mem.isFinished (k.threadAddr t) = k.isFinished t := by
  obtain ⟨th, hth⟩ := Option.ne_none_iff_exists'.1 ht
  have hmem : k.threadAddr t ∈ k.heap.payloads := hs.held_taken (o := .tcb t) (by simp [held, hth])
  have hpos : k.threadAddr t ≠ 0 := by
    intro h0
    rw [h0] at hmem
    exact Heap.mem_payloads.1 hmem (Heap.sizeAt_zero _)
  have hvalid : mem.isThreadValid (k.threadAddr t) = true := by
    simp [Memory.isThreadValid, hpos, h.magic t ht]
  simp only [Memory.isFinished, hvalid, h.state t th hth, code_finished, Kernel.isFinished, hth]
  simp

/-- A kernel and the memory. -/
structure Machine where
  kernel : Kernel
  mem : Memory

/-- One event, after which user code finds the memory `e.2`. -/
def Machine.step (m : Machine) (e : Event × Memory) : Except Fault Machine :=
  (m.kernel.step e.1).map fun k => ⟨k, e.2⟩

/-- What a step from `k` to `k'` leaves in memory: the records that are there, and
the dump number in place of the magic number of those that were deleted. Any other
word may have any value. -/
structure Writes (k k' : Kernel) (mem : Memory) : Prop where
  records : mem.Shows k'
  dumped : ∀ t, k.threads t ≠ none → k'.threads t = none →
    mem (k.threadAddr t + myMagicNumberOffset) = threadDumpMagicNumber

/-- The memory after a step, when nothing but a record puts the magic number where a
record at `a` would have it. -/
def Unforged (a : ℕ) (m : Machine) (e : Event × Memory) : Prop :=
  ∀ k', m.kernel.step e.1 = .ok k' → Writes m.kernel k' e.2 ∧
    (e.2 (a + myMagicNumberOffset) = threadMagicNumber →
      m.mem (a + myMagicNumberOffset) = threadMagicNumber ∨
        ∃ t, k'.threads t ≠ none ∧ k'.threadAddr t = a)

/-- Nothing at `a` looks like a thread. -/
structure Vacant (a : ℕ) (m : Machine) : Prop where
  records : ∀ t, m.kernel.threads t ≠ none → m.kernel.threadAddr t ≠ a
  magic : m.mem (a + myMagicNumberOffset) ≠ threadMagicNumber

theorem Vacant.isFinished {m : Machine} (h : Vacant a m) : m.mem.isFinished a = true := by
  have hvalid : m.mem.isThreadValid a = false := by
    simp [Memory.isThreadValid, h.magic.symm]
  simp [Memory.isFinished, hvalid]

theorem Machine.step_ok {m m' : Machine} {e : Event × Memory} (h : m.step e = .ok m') :
    m.kernel.step e.1 = .ok m'.kernel ∧ m'.mem = e.2 := by
  obtain ⟨k, hk, rfl⟩ := map_ok h
  exact ⟨hk, rfl⟩

/-- The place of a record stays vacant as long as no record is made there. -/
theorem step_vacant {m m' : Machine} {e : Event × Memory} (h : m.step e = .ok m')
    (hi : m.kernel.Inv) (hs : m.kernel.Stored start total) (hu : Unforged a m e)
    (hc : a ∉ m.kernel.creates e.1) (hv : Vacant a m) : Vacant a m' := by
  obtain ⟨hk, hmem⟩ := Machine.step_ok h
  have hrecords : ∀ t, m'.kernel.threads t ≠ none → m'.kernel.threadAddr t ≠ a := by
    intro t ht ha
    rcases step_recorded hk ht with hold | ⟨⟨body, stack, he⟩, rfl⟩
    · obtain ⟨th, hth⟩ := Option.ne_none_iff_exists'.1 hold
      rw [step_threadAddr hk (hi.named hth)] at ha
      exact hv.records t hold ha
    · rw [he] at hk hc
      obtain ⟨a', hborn⟩ := newThread_born hk hs
      rw [hborn.addr] at ha
      subst ha
      exact hc hborn.record
  refine ⟨hrecords, ?_⟩
  rw [hmem]
  intro hmagic
  rcases (hu m'.kernel hk).2 hmagic with hold | ⟨t, ht, ha⟩
  · exact hv.magic hold
  · exact hrecords t ht ha

/-- A record that is made at `a` looks like a thread that has not finished. -/
theorem step_occupied {m m' : Machine} {e : Event × Memory} (h : m.step e = .ok m')
    (hi : m.kernel.Inv) (hs : m.kernel.Stored start total) (hu : Unforged a m e)
    (hc : a ∈ m.kernel.creates e.1) : m'.mem.isFinished a = false := by
  obtain ⟨hk, hmem⟩ := Machine.step_ok h
  obtain ⟨body, stack, he⟩ : ∃ body stack, e.1 = .threadCreate body stack := by
    cases he : e.1 <;> rw [he] at hc <;> first | exact ⟨_, _, rfl⟩ | cases hc
  have hw := (hu m'.kernel hk).1
  rw [he] at hk hc
  obtain ⟨a', hborn⟩ := newThread_born hk hs
  obtain rfl : a = a' := Option.some.inj (hc.symm.trans hborn.record)
  have hread := shows_isFinished hw.records (step_stored hk hi hs) (t := m.kernel.ID + 1)
    (by simp [hborn.born])
  rw [hborn.addr] at hread
  rw [hmem, hread]
  simp [Kernel.isFinished, hborn.born, newborn]

/-- A thread that exits leaves the place of its record vacant. -/
theorem exit_vacant (h : k.step .threadExit = .ok k') (hi : k.Inv) (hs : k.Stored start total)
    (hw : Writes k k' mem) : Vacant (k.threadAddr k.running) ⟨k', mem⟩ := by
  obtain ⟨th, hth, -⟩ := alive_iff.1 hi.running_alive
  refine ⟨?_, ?_⟩
  · intro t ht ha
    have hold : k.threads t ≠ none := (step_recorded h ht).resolve_right (by simp)
    obtain ⟨th', hth'⟩ := Option.ne_none_iff_exists'.1 hold
    have ha : k.threadAddr t = k.threadAddr k.running := (step_threadAddr h (hi.named hth')).symm.trans ha
    have hself : t = k.running := hs.records_apart hold (by simp [hth]) ha
    exact ht (hself ▸ exit_gone h)
  · have hdump := hw.dumped k.running (by simp [hth]) (exit_gone h)
    intro hmagic
    exact absurd (hmagic.symm.trans hdump) (by decide)

/-! A memory that shows the records and holds the dump number everywhere else. -/

/-- The thread whose record has the word `w` at the offset `o`. -/
def wordOf (k : Kernel) (o w : ℕ) : Option Tid :=
  (List.range (k.ID + 1)).find? fun t => (k.threads t).isSome ∧ k.threadAddr t + o = w

def image (k : Kernel) : Memory := fun w =>
  match k.wordOf myMagicNumberOffset w, (k.wordOf threadStateOffset w).bind k.threads with
  | some _, _ => threadMagicNumber
  | none, some th => th.threadState.code
  | none, none => threadDumpMagicNumber

theorem wordOf_some {o w : ℕ} (h : k.wordOf o w = some t) :
    k.threads t ≠ none ∧ k.threadAddr t + o = w := by
  have hfound := List.find?_some h
  simpa [Option.isSome_iff_ne_none] using hfound

theorem wordOf_self {o : ℕ} (hi : k.Inv) (hs : k.Stored start total) (ht : k.threads t ≠ none) :
    k.wordOf o (k.threadAddr t + o) = some t := by
  obtain ⟨th, hth⟩ := Option.ne_none_iff_exists'.1 ht
  cases hw : k.wordOf o (k.threadAddr t + o) with
  | none =>
    have hnone := List.find?_eq_none.1 hw t (List.mem_range.2 (Nat.lt_succ_of_le (hi.named hth)))
    simp [hth] at hnone
  | some t' =>
    obtain ⟨ht', ha⟩ := wordOf_some hw
    rw [hs.records_apart ht' ht (Nat.add_right_cancel ha)]

/-- Records are whole memory blocks apart. -/
theorem Stored.record_aligned (hs : k.Stored start total) (ht : k.threads t ≠ none) :
    ∃ n, k.threadAddr t = start + memBlockSize * n + sizeHeader := by
  obtain ⟨th, hth⟩ := Option.ne_none_iff_exists'.1 ht
  have hmem := hs.held_taken (p := k.threadAddr t) (o := .tcb t) (by simp [held, hth])
  obtain ⟨b, hb, hpay⟩ := List.mem_map.1 hmem
  obtain ⟨n, hn⟩ := hs.wf.aligned (List.mem_append_right _ hb)
  exact ⟨n, by rw [← hpay, payload, hn]⟩

theorem image_magic {w : ℕ} (h : k.image w = threadMagicNumber) :
    ∃ t, k.threads t ≠ none ∧ k.threadAddr t + myMagicNumberOffset = w := by
  unfold image at h
  cases hm : k.wordOf myMagicNumberOffset w with
  | some t => exact ⟨t, wordOf_some hm⟩
  | none =>
    rw [hm] at h
    cases hst : (k.wordOf threadStateOffset w).bind k.threads with
    | some th =>
      rw [hst] at h
      cases hth : th.threadState <;> simp only [hth] at h <;> exact absurd h (by decide)
    | none =>
      rw [hst] at h
      exact absurd h (by decide)

theorem image_shows (hi : k.Inv) (hs : k.Stored start total) : k.image.Shows k := by
  refine ⟨?_, ?_⟩
  · intro t ht
    simp [image, wordOf_self hi hs ht]
  · intro t th hth
    have ht : k.threads t ≠ none := by simp [hth]
    have hnone : k.wordOf myMagicNumberOffset (k.threadAddr t + threadStateOffset) = none := by
      rw [Option.eq_none_iff_forall_ne_some]
      intro t' hw
      obtain ⟨ht', ha⟩ := wordOf_some hw
      obtain ⟨n, hn⟩ := hs.record_aligned ht
      obtain ⟨n', hn'⟩ := hs.record_aligned ht'
      simp only [hn, hn', memBlockSize, myMagicNumberOffset, threadStateOffset] at ha
      omega
    simp only [image, hnone, wordOf_self hi hs ht, Option.bind_some, hth]
    cases th.threadState <;> decide

/-- The images of the states may be what the steps leave in memory. -/
theorem image_unforged (h : k.step e = .ok k') (hi : k.Inv) (hs : k.Stored start total) :
    Unforged a ⟨k, mem⟩ (e, k'.image) := by
  intro k₁ h₁
  obtain rfl : k' = k₁ := Except.ok.inj (h.symm.trans h₁)
  have hi' := step_inv h hi
  have hs' := step_stored h hi hs
  refine ⟨⟨image_shows hi' hs', ?_⟩, ?_⟩
  · intro t ht hgone
    obtain ⟨th, hth⟩ := Option.ne_none_iff_exists'.1 ht
    -- no other record is at the address of the deleted one yet
    have hmagic : k'.wordOf myMagicNumberOffset (k.threadAddr t + myMagicNumberOffset) = none := by
      rw [Option.eq_none_iff_forall_ne_some]
      intro t' hw
      obtain ⟨ht', ha⟩ := wordOf_some hw
      have ha : k'.threadAddr t' = k.threadAddr t := Nat.add_right_cancel ha
      rcases step_recorded h ht' with hold | ⟨⟨body, stack, rfl⟩, rfl⟩
      · obtain ⟨th', hth'⟩ := Option.ne_none_iff_exists'.1 hold
        rw [step_threadAddr h (hi.named hth')] at ha
        exact ht' (hs.records_apart hold ht ha ▸ hgone)
      · obtain ⟨a', hborn⟩ := newThread_born h hs
        rw [hborn.addr] at ha
        have hheld : a' ∈ k.held (.tcb t) := by
          have hth : k.threads t = some th := hth
          simp [held, hth, ha]
        exact absurd hheld (hs.allotted.not_held hborn.unused _)
    have hstate : k'.wordOf threadStateOffset (k.threadAddr t + myMagicNumberOffset) = none := by
      rw [Option.eq_none_iff_forall_ne_some]
      intro t' hw
      obtain ⟨ht', ha⟩ := wordOf_some hw
      obtain ⟨n, hn⟩ := hs.record_aligned ht
      obtain ⟨n', hn'⟩ := hs'.record_aligned ht'
      simp only [hn, hn', memBlockSize, myMagicNumberOffset, threadStateOffset] at ha
      omega
    simp [image, hmagic, hstate]
  · intro hmagic
    obtain ⟨t, ht, ha⟩ := image_magic hmagic
    exact Or.inr ⟨t, ht, Nat.add_right_cancel ha⟩

/-- A run of the kernel with its images in memory. -/
theorem run_images {es : List Event} (h : Run step (fun _ _ => True) k es k') (hi : k.Inv)
    (hs : k.Stored start total) : ∃ es', es'.map (·.1) = es ∧
      Run Machine.step (Unforged a) ⟨k, k.image⟩ es' ⟨k', k'.image⟩ := by
  have hall : (k'.Inv ∧ k'.Stored start total) ∧ ∃ es', es'.map (·.1) = es ∧
      Run Machine.step (Unforged a) ⟨k, k.image⟩ es' ⟨k', k'.image⟩ := by
    induction h with
    | nil => exact ⟨⟨hi, hs⟩, [], rfl, .nil⟩
    | @snoc es k₁ e k₂ _ _ hstep ih =>
      obtain ⟨⟨hi₁, hs₁⟩, es', hes, hrun⟩ := ih
      refine ⟨⟨step_inv hstep hi₁, step_stored hstep hi₁ hs₁⟩, es' ++ [(e, k₂.image)],
        by simp [hes], hrun.snoc (image_unforged hstep hi₁ hs₁) ?_⟩
      simp only [Machine.step, hstep]
      rfl
  exact hall.2

/-- A thread exits. In every later state its handle says that it has finished,
exactly when no step makes a record at its address. -/
theorem finished_handle {kb k₀ k₁ : Kernel} {es₀ : List Event} {mem₁ : Memory}
    {es : List (Event × Memory)} {m : Machine} (hb : boot start total = some kb)
    (h₀ : Run step (fun _ _ => True) kb es₀ k₀) (hexit : k₀.step .threadExit = .ok k₁)
    (hmem : Writes k₀ k₁ mem₁)
    (h : Run Machine.step (Unforged (k₀.threadAddr k₀.running)) ⟨k₁, mem₁⟩ es m) :
    (∀ es₁ es₂ m₂, es = es₁ ++ es₂ →
      Run Machine.step (Unforged (k₀.threadAddr k₀.running)) ⟨k₁, mem₁⟩ es₁ m₂ →
        m₂.mem.isFinished (k₀.threadAddr k₀.running) = true) ↔
      Run Machine.step (fun m e => Unforged (k₀.threadAddr k₀.running) m e ∧
        k₀.threadAddr k₀.running ∉ m.kernel.creates e.1) ⟨k₁, mem₁⟩ es m := by
  obtain ⟨hi₀, hs₀⟩ := run_stored hb h₀
  have hvacant := exit_vacant hexit hi₀ hs₀ hmem
  have hi₁ := step_inv hexit hi₀
  have hs₁ := step_stored hexit hi₀ hs₀
  generalize k₀.threadAddr k₀.running = a at *
  refine h.good_iff (fun m => m.kernel.Inv ∧ m.kernel.Stored start total ∧ Vacant a m)
    ⟨hi₁, hs₁, hvacant⟩ (fun m hm => hm.2.2.isFinished) ?_ ?_
  · rintro m e m' ⟨hi, hs, hv⟩ hu hc hstep
    have hk := (Machine.step_ok hstep).1
    exact ⟨step_inv hk hi, step_stored hk hi hs, step_vacant hstep hi hs hu hc hv⟩
  · rintro m e m' ⟨hi, hs, -⟩ hu hc hstep hfinished
    rw [step_occupied hstep hi hs hu (not_not.1 hc)] at hfinished
    cases hfinished

/-- The second thread exits, and `main` allocates a block. -/
theorem finished_handle_two : ∃ kb k₀ k₁ es m, boot 1024 1000 = some kb ∧
    Run step (fun _ _ => True) kb [.memAlloc 65, .threadCreate 4096 5328, .threadDispatch] k₀ ∧
    k₀.step .threadExit = .ok k₁ ∧ es.map (·.1) = [.memAlloc 65] ∧
    Run Machine.step (Unforged (k₀.threadAddr k₀.running)) ⟨k₁, k₁.image⟩ es m ∧
    ((∀ es₁ es₂ m₂, es = es₁ ++ es₂ →
      Run Machine.step (Unforged (k₀.threadAddr k₀.running)) ⟨k₁, k₁.image⟩ es₁ m₂ →
        m₂.mem.isFinished (k₀.threadAddr k₀.running) = true) ↔
      Run Machine.step (fun m e => Unforged (k₀.threadAddr k₀.running) m e ∧
        k₀.threadAddr k₀.running ∉ m.kernel.creates e.1) ⟨k₁, k₁.image⟩ es m) := by
  have hrun : ((boot 1024 1000).bind fun kb => exec step (fun _ _ => True) kb [.memAlloc 65,
      .threadCreate 4096 5328, .threadDispatch]).any (fun k =>
        (exec step (fun _ _ => True) k [.threadExit]).any fun k =>
          (exec step (fun _ _ => True) k [.memAlloc 65]).any fun _ => true) = true := by
    decide +kernel
  obtain ⟨kb, k₀, hb, h₀, hq⟩ := exists_run hrun
  obtain ⟨k₁, he, hq⟩ := exists_run_from hq
  obtain ⟨k₂, ha, -⟩ := exists_run_from hq
  have hexit : k₀.step .threadExit = .ok k₁ := he.one.2
  obtain ⟨hi₀, hs₀⟩ := run_stored hb h₀
  have hunforged : Unforged 0 ⟨k₀, k₀.image⟩ (.threadExit, k₁.image) :=
    image_unforged hexit hi₀ hs₀
  have hmem : Writes k₀ k₁ k₁.image := (hunforged k₁ hexit).1
  obtain ⟨es, hes, h⟩ := run_images (a := k₀.threadAddr k₀.running) ha (step_inv hexit hi₀)
    (step_stored hexit hi₀ hs₀)
  exact ⟨kb, k₀, k₁, es, _, hb, h₀, hexit, hes, h, finished_handle hb h₀ hexit hmem h⟩

/-- The second thread exits, and the next thread that is created gets its address. -/
theorem finished_handle_fails : ∃ kb k₀ k₁ es m, boot 1024 1000 = some kb ∧
    Run step (fun _ _ => True) kb [.memAlloc 65, .threadCreate 4096 5328, .threadDispatch] k₀ ∧
    k₀.step .threadExit = .ok k₁ ∧ es.map (·.1) = [.memAlloc 65, .threadCreate 4096 5328] ∧
    Run Machine.step (Unforged (k₀.threadAddr k₀.running)) ⟨k₁, k₁.image⟩ es m ∧
    m.mem.isFinished (k₀.threadAddr k₀.running) = false := by
  have hrun : ((boot 1024 1000).bind fun kb => exec step (fun _ _ => True) kb [.memAlloc 65,
      .threadCreate 4096 5328, .threadDispatch]).any (fun k₀ =>
        (exec step (fun _ _ => True) k₀ [.threadExit]).any fun k =>
          (exec step (fun _ _ => True) k [.memAlloc 65, .threadCreate 4096 5328]).any fun k =>
            k.threadAddr 3 = k₀.threadAddr k₀.running ∧ k.isFinished 3 = false ∧
              k.threads 3 ≠ none) = true := by
    decide +kernel
  obtain ⟨kb, k₀, hb, h₀, hq⟩ := exists_run hrun
  obtain ⟨k₁, he, hq⟩ := exists_run_from hq
  obtain ⟨k₂, ha, hq⟩ := exists_run_from hq
  obtain ⟨haddr, hlive, hthere⟩ := of_decide_eq_true hq
  have hexit : k₀.step .threadExit = .ok k₁ := he.one.2
  obtain ⟨hi₀, hs₀⟩ := run_stored hb h₀
  obtain ⟨es, hes, h⟩ := run_images (a := k₀.threadAddr k₀.running) ha (step_inv hexit hi₀)
    (step_stored hexit hi₀ hs₀)
  obtain ⟨hi₂, hs₂⟩ := run_stored hb ((h₀.snoc trivial hexit).trans ha)
  refine ⟨kb, k₀, k₁, es, _, hb, h₀, hexit, hes, h, ?_⟩
  rw [← haddr, shows_isFinished (image_shows hi₂ hs₂) hs₂ hthere]
  exact hlive

end Kernel
end OSK
