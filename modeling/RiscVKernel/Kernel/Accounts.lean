import Mathlib.Tactic.IntervalCases
import RiscVKernel.Kernel.Dangling
import RiscVKernel.Kernel.Storage

/-! The account of the heap. Every block that is taken is the record or the
stack of a thread, a semaphore, a node of one of the lists, or a block of user
code, each of them once: nothing is lost and nothing is freed twice. -/

namespace OSK

open Lib

namespace Kernel

variable {k k' k₀ : Kernel} {t : Tid} {s : SemId} {e : Event} {start total p : ℕ}

/-- All who can hold blocks in `k`. -/
def owners (k : Kernel) : List Owner :=
  [.ready, .asleep, .semNode, .user] ++
    ((List.range k.nextSem).map .sem ++ (List.range k.nextSem).map .blocked) ++
    ((List.range (k.ID + 1)).map .tcb ++ (List.range (k.ID + 1)).map .stack)

theorem nodup_owners (k : Kernel) : k.owners.Nodup := by
  have hmap : ∀ (f : ℕ → Owner) n, f.Injective → ((List.range n).map f).Nodup := fun f n hf =>
    List.nodup_range.map hf
  have hsems : ((List.range k.nextSem).map Owner.sem ++
      (List.range k.nextSem).map Owner.blocked).Nodup :=
    List.nodup_append.2 ⟨hmap _ _ fun _ _ => Owner.sem.inj, hmap _ _ fun _ _ => Owner.blocked.inj,
      by simp⟩
  have hthreads : ((List.range (k.ID + 1)).map Owner.tcb ++
      (List.range (k.ID + 1)).map Owner.stack).Nodup :=
    List.nodup_append.2 ⟨hmap _ _ fun _ _ => Owner.tcb.inj, hmap _ _ fun _ _ => Owner.stack.inj,
      by simp⟩
  have hfront : ([Owner.ready, .asleep, .semNode, .user] ++ ((List.range k.nextSem).map Owner.sem ++
      (List.range k.nextSem).map Owner.blocked)).Nodup := by
    refine List.nodup_append.2 ⟨by decide, hsems, ?_⟩
    rintro o ho _ ho' rfl
    rcases List.mem_append.1 ho' with h | h <;> obtain ⟨s, -, rfl⟩ := List.mem_map.1 h <;>
      simp at ho
  refine List.nodup_append.2 ⟨hfront, hthreads, ?_⟩
  rintro o ho _ ho' rfl
  rcases List.mem_append.1 ho' with h | h <;> obtain ⟨t, -, rfl⟩ := List.mem_map.1 h <;>
    simp at ho

/-- Names that were not given out hold nothing. -/
theorem Inv.mem_owners (hi : k.Inv) {o : Owner} (hp : p ∈ k.held o) : o ∈ k.owners := by
  have hsem : ∀ {s}, k.sems s ≠ none → s < k.nextSem := fun {s} hs => by
    by_contra hle
    exact hs (hi.freshSem s (not_lt.1 hle)).1
  have hthread : ∀ {t}, k.threads t ≠ none → t < k.ID + 1 := fun {t} ht => by
    by_contra hle
    exact ht (hi.freshThread t (not_lt.1 hle))
  cases o with
  | sem s =>
    have : k.sems s ≠ none := fun hn => by simp [held, hn] at hp
    simp [owners, hsem this]
  | blocked s =>
    have : k.sems s ≠ none := fun hn => by simp [held, hn] at hp
    simp [owners, hsem this]
  | tcb t =>
    have : k.threads t ≠ none := fun hn => by simp [held, hn] at hp
    simpa [owners] using hthread this
  | stack t =>
    have : k.threads t ≠ none := fun hn => by simp [held, hn] at hp
    simpa [owners] using hthread this
  | _ => simp [owners]

theorem Stored.accounted (hs : k.Stored start total) (hi : k.Inv) :
    k.heap.payloads.Perm (k.owners.flatMap k.held) :=
  hs.allotted.perm_flatMap hs.wf.payloads_nodup (fun _ => Heap.mem_payloads) (nodup_owners k)
    fun _ _ => hi.mem_owners

/-! The list of all semaphores. -/

/-- There is one node for each open semaphore. -/
structure SemsListed (k : Kernel) : Prop where
  nodup : k.allSemaphores.items.Nodup
  mem : ∀ s, s ∈ k.allSemaphores.items ↔ k.sems s ≠ none

theorem newSem_listed {n : UInt64} (h : k.newSem n = .ok k') (hi : k.Inv) (hs : k.SemsListed) :
    k'.SemsListed := by
  obtain ⟨p, hp, node, hp', -, -, rfl⟩ := newSem_ok h
  have hnone : k.sems k.nextSem = none := (hi.freshSem _ le_rfl).1
  have hno : k.nextSem ∉ k.allSemaphores.items := fun hin => (hs.mem _).1 hin hnone
  refine ⟨?_, ?_⟩
  · simp only [KList.items_append, KList.items_cons, KList.items_nil]
    refine List.nodup_append.2 ⟨hs.nodup, List.nodup_singleton _, ?_⟩
    rintro s hin _ hnew rfl
    exact hno (List.mem_singleton.1 hnew ▸ hin)
  · intro s
    by_cases he : s = k.nextSem
    · simp [he]
    · simpa [he] using hs.mem s

theorem deleteSem_listed (h : k.deleteSem s = .ok k') (hs : k.SemsListed) : k'.SemsListed := by
  obtain ⟨m, k₁, -, hu, rfl⟩ := deleteSem_ok h
  have hstays := unblockAll_stays hu
  have hitems : (k₁.forgetSem s).allSemaphores.items = k.allSemaphores.items.erase s := by
    rw [forgetSem_allSemaphores, hstays.allSemaphores]
  refine ⟨by rw [hitems]; exact hs.nodup.erase s, fun s' => ?_⟩
  rw [hitems, hs.nodup.mem_erase_iff, hs.mem]
  by_cases he : s' = s
  · simp [he]
  · simp [he, open_iff (hstays.sem s')]

theorem step_listed (h : k.step e = .ok k') (hi : k.Inv) (hs : k.SemsListed) : k'.SemsListed := by
  by_cases hopen : ∃ n, e = .semOpen n
  · obtain ⟨n, rfl⟩ := hopen
    exact newSem_listed h hi hs
  by_cases hclose : ∃ s, e = .semClose (some s)
  · obtain ⟨s, rfl⟩ := hclose
    exact deleteSem_listed h hs
  · obtain ⟨hlist, hsome⟩ := (step_passes h hi).listed (fun n hn => hopen ⟨n, hn⟩)
      fun s hs => hclose ⟨s, hs⟩
    exact ⟨hlist ▸ hs.nodup, fun s => by rw [hlist, hs.mem, open_iff (hsome s)]⟩

/-- Without `subtle_kill` a thread that has a record has not finished. -/
theorem step_unkilled (h : k.step e = .ok k') (hi : k.Inv) (he : ∀ t, e ≠ .subtleKill t)
    (ha : ∀ t, k.threads t ≠ none → k.Alive t) : ∀ t, k'.threads t ≠ none → k'.Alive t := by
  intro t ht
  obtain ⟨th', hth'⟩ := Option.ne_none_iff_exists'.1 ht
  by_cases hnew : ∃ body stack, e = .threadCreate body stack
  · obtain ⟨body, stack, rfl⟩ := hnew
    rcases (newThread_origin h).1 t th' hth' with ⟨-, rfl⟩ | ⟨th, hth, -⟩
    · exact ⟨_, _, hth', by simp [newborn], rfl⟩
    · rcases (step_passes h hi).survives t (ha t (by simp [hth])) with hl | hl
      · exact hl
      · cases hl
  · have hback : k.threads t ≠ none := by
      by_cases hopen : ∃ n, e = .semOpen n
      · obtain ⟨n, rfl⟩ := hopen
        obtain ⟨p, hp, node, hp', -, -, rfl⟩ := newSem_ok h
        exact ht
      · obtain ⟨th, hth, -⟩ := (step_origin h (fun b st hb => hnew ⟨b, st, hb⟩)
          fun n hn => hopen ⟨n, hn⟩).1 t th' hth'
        simp [hth]
    rcases (step_passes h hi).survives t (ha t hback) with hl | hl
    · exact hl
    · cases e with
      | threadExit =>
        obtain rfl : k.running = t := Option.some.inj hl
        exact absurd (exit_gone h) ht
      | subtleKill t' => exact absurd rfl (he t')
      | _ => cases hl

theorem run_accounted {P : Kernel → Event → Prop} {es : List Event}
    (h₀ : boot start total = some k₀) (h : Run step P k₀ es k) :
    k.SemsListed ∧ ((∀ t, .subtleKill t ∉ es) → ∀ t, k.threads t ≠ none → k.Alive t) := by
  have hi₀ := boot_inv h₀
  induction h with
  | nil =>
    obtain ⟨stack, hp, p, hp', -, -, rfl⟩ := boot_ok h₀
    refine ⟨⟨List.nodup_nil, fun s => by simp [bootState]⟩, ?_⟩
    intro _ t ht
    have hmain : t = mainThread := by
      by_contra hne
      exact ht (by simp [bootState, hne])
    subst hmain
    exact hi₀.running_alive
  | @snoc es k e k' hrun _ hstep ih =>
    have hi := run_inv hrun hi₀
    refine ⟨step_listed hstep hi ih.1, ?_⟩
    intro hno
    exact step_unkilled hstep hi (fun t he => hno t (by simp [he]))
      (ih.2 fun t ht => hno t (List.mem_append_left _ ht))

/-- The block `p` is one of user code, of a thread in `B` or of a semaphore in `S`. -/
inductive BelongsTo (k : Kernel) (B : Tid → Prop) (S : SemId → Prop) (p : ℕ) : Prop
  | user (h : p ∈ k.user)
  | thread (t : Tid) (ht : B t) (h : p ∈ k.held (.tcb t) ∨ p ∈ k.held (.stack t))
  | ready (x : Elem Tid) (hx : B x.data) (h : x ∈ k.queueThreads) (hp : x.node = p)
  | asleep (x : Elem Tid) (hx : B x.data) (h : x ∈ k.listAsleepThreads) (hp : x.node = p)
  | sem (s : SemId) (hs : S s) (h : p ∈ k.held (.sem s))
  | semNode (x : Elem SemId) (hx : S x.data) (h : x ∈ k.allSemaphores) (hp : x.node = p)
  | blocked (s : SemId) (hs : S s) (m : Sem) (hm : k.sems s = some m) (x : Elem Tid)
      (hx : B x.data) (h : x ∈ m.queueBlocked) (hp : x.node = p)

/-- The threads in the lists are those that have records. -/
theorem held_belongsTo {B : Tid → Prop} {S : SemId → Prop} {o : Owner} (hi : k.Inv)
    (hl : k.SemsListed) (hB : ∀ t, k.threads t ≠ none → B t) (hS : ∀ s, k.sems s ≠ none → S s)
    (hp : p ∈ k.held o) : k.BelongsTo B S p := by
  obtain ⟨loc, hloc⟩ := hi.located
  have hthread : ∀ t, loc t ≠ .gone → B t := fun t ht => by
    obtain ⟨th, hth, -⟩ := hloc.placed.record ht
    exact hB t (by simp [hth])
  cases o with
  | ready =>
    obtain ⟨x, hx, rfl⟩ := List.mem_map.1 hp
    refine .ready x (hthread _ ?_) hx rfl
    simp [hloc.placed.mem_ready (List.mem_map.2 ⟨x, hx, rfl⟩)]
  | asleep =>
    obtain ⟨x, hx, rfl⟩ := List.mem_map.1 hp
    refine .asleep x (hthread _ ?_) hx rfl
    rcases hloc.placed.mem_asleep (List.mem_map.2 ⟨x, hx, rfl⟩) with h | ⟨s, h⟩ <;> simp [h]
  | blocked s =>
    cases hm : k.sems s with
    | none => simp [held, hm] at hp
    | some m =>
      rw [held_blocked hm] at hp
      obtain ⟨x, hx, rfl⟩ := List.mem_map.1 hp
      refine .blocked s (hS s (by simp [hm])) m hm x (hthread _ ?_) hx rfl
      rcases hloc.placed.mem_queue hm (List.mem_map.2 ⟨x, hx, rfl⟩) with h | h <;> simp [h]
  | semNode =>
    obtain ⟨x, hx, rfl⟩ := List.mem_map.1 hp
    exact .semNode x (hS _ ((hl.mem _).1 (List.mem_map.2 ⟨x, hx, rfl⟩))) hx rfl
  | sem s => exact .sem s (hS s fun hn => by simp [held, hn] at hp) hp
  | tcb t => exact .thread t (hB t fun hn => by simp [held, hn] at hp) (Or.inl hp)
  | stack t => exact .thread t (hB t fun hn => by simp [held, hn] at hp) (Or.inr hp)
  | user => exact .user hp

/-- In every reachable state the blocks that are taken are, each once, those the
kernel and user code hold, and those of the kernel have the sizes it asked for;
there is one list node for each open semaphore; without `subtle_kill` the records
are those of the live threads. When the only threads left are in `B` and the only
open semaphores in `S`, every block is one of theirs or of user code. -/
theorem blocks_accounted {es : List Event} (h₀ : boot start total = some k₀)
    (h : Run step (fun _ _ => True) k₀ es k) :
    k.heap.payloads.Perm (k.owners.flatMap k.held) ∧ (k.owners.flatMap k.held).Nodup ∧
      (∀ o p, p ∈ k.held o → ∃ n, k.heap.sizeAt p = some n ∧ o.Fits n) ∧ k.SemsListed ∧
      ((∀ t, .subtleKill t ∉ es) → ∀ t, k.threads t ≠ none → k.Alive t) ∧
      ∀ (B : Tid → Prop) (S : SemId → Prop), (∀ t, k.threads t ≠ none → B t) →
        (∀ s, k.sems s ≠ none → S s) → ∀ p ∈ k.heap.payloads, k.BelongsTo B S p := by
  obtain ⟨hi, hs⟩ := run_stored h₀ h
  obtain ⟨hlisted, hlive⟩ := run_accounted h₀ h
  have hperm := hs.accounted hi
  refine ⟨hperm, hperm.nodup_iff.1 hs.wf.payloads_nodup, hs.allotted.taken, hlisted, hlive, ?_⟩
  intro B S hB hS p hp
  obtain ⟨o, -, ho⟩ := List.mem_flatMap.1 (hperm.mem_iff.1 hp)
  exact held_belongsTo hi hlisted hB hS ho

/-- A thread is created, waits with a timeout on a semaphore, is released when
it is closed, and exits: only the blocks of `main` are left. -/
theorem blocks_accounted_one : ∃ k₀ k, boot 1024 1000 = some k₀ ∧
    Run step (fun _ _ => True) k₀ [.memAlloc 65, .threadCreate 4096 5328, .semOpen 0,
      .threadDispatch, .semTimedwait (some 0) 5, .tick, .semClose (some 0), .threadDispatch,
      .threadExit] k ∧
      k.heap.payloads.Perm (k.owners.flatMap k.held) ∧
      ∀ p ∈ k.heap.payloads, k.BelongsTo (· = mainThread) (fun _ => False) p := by
  have hrun : ((boot 1024 1000).bind fun k₀ => exec step (fun _ _ => True) k₀ [.memAlloc 65,
      .threadCreate 4096 5328, .semOpen 0, .threadDispatch, .semTimedwait (some 0) 5, .tick,
      .semClose (some 0), .threadDispatch, .threadExit]).any (fun k => k.ID = 2 ∧
        k.threads 0 = none ∧ k.threads 2 = none ∧ k.nextSem = 1 ∧ k.sems 0 = none) = true := by
    decide +kernel
  obtain ⟨k₀, k, hb, h, hq⟩ := exists_run hrun
  simp only [decide_eq_true_eq] at hq
  obtain ⟨hID, h0, h2, hnext, hsem⟩ := hq
  have hi := run_inv h (boot_inv hb)
  obtain ⟨hperm, -, -, -, -, hall⟩ := blocks_accounted hb h
  refine ⟨k₀, k, hb, h, hperm, hall _ _ ?_ ?_⟩
  · intro t ht
    have hle : t ≤ 2 := by
      by_contra hlt
      exact ht (hi.freshThread t (by rw [hID]; exact not_le.1 hlt))
    interval_cases t
    · exact absurd h0 ht
    · rfl
    · exact absurd h2 ht
  · intro s hs
    have hlt : s < 1 := by
      by_contra hle
      exact hs (hi.freshSem s (by rw [hnext]; exact not_lt.1 hle)).1
    interval_cases s
    exact hs hsem

end Kernel
end OSK
