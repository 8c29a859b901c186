import RiscVKernel.Console.Following

/-! What the callers of `putc` and `getc` see, whatever the threads of the kernel do. -/

namespace OSK

open Lib Kernel

namespace Driver

variable {x x' x₀ : Driver} {c : Console} {e : Event} {es es' : List Event} {start total : ℕ}

theorem Starts.follows (hs : Starts start total x) : x.Follows Console.start := by
  obtain ⟨kb, es, k, hb, hrun, hinit⟩ := hs.opened
  obtain ⟨hopen, hstart, hready⟩ := init_ok hinit
  refine ⟨by rw [hstart]; rfl, ?_⟩
  rw [hready]
  exact (newSem_gated (run_known hb hrun) hopen).2

/-! Runs. -/

/-- The console goes along with a run; when the getter keeps to its ring in the one, it does so in
the other. -/
theorem run_follows {P : Driver → Event → Prop} {Q : Console → Console.Event → Prop}
    (hP : ∀ x e, P x e → Allowed x e)
    (hQ : ∀ x e c d, P x e → (Keeps x e → Console.Keeps c d) → Q c d)
    (hs : Starts start total x₀) (h : Run step P x₀ es x) :
    ∃ ds c, Run Console.step Q Console.start ds c ∧ x.Follows c := by
  have hall : ∀ x c e x', x.Sane ∧ x.Follows c → P x e → step x e = .ok x' →
      ∃ ds c', Run Console.step Q c ds c' ∧ x'.Sane ∧ x'.Follows c' := by
    rintro x c e x' ⟨hx, hf⟩ hp hstep
    obtain ⟨ds, c', hrun, hf'⟩ := step_follows hx hf (hP x e hp) hstep
    exact ⟨ds, c', hrun.mono fun c d hk => hQ x e c d hp hk, step_sane hx (hP x e hp) hstep, hf'⟩
  obtain ⟨ds, c, hrun, -, hf⟩ := h.refines _ ⟨hs.sane, hs.follows⟩ hall
  exact ⟨ds, c, hrun, hf⟩

/-- Whichever threads call the kernel, and wherever they are preempted, what the console does in
the kernel it does on its own with a semaphore that has the same value, the same queue and the
same woken threads. -/
theorem console_refined (hs : Starts start total x₀) (h : Run step Allowed x₀ es x) :
    ∃ ds c, Run Console.step (fun _ _ => True) Console.start ds c ∧ x.Follows c :=
  run_follows (fun _ _ hp => hp) (fun _ _ _ _ _ _ => trivial) hs h

theorem console_refined_two : ∃ x₀ x, Starts 1024 1000 x₀ ∧ Run step Allowed x₀ reading x ∧
    x.kernel.waiters 1 = [] ∧ x.console.signals = 1 ∧
    ∃ ds c, Run Console.step (fun _ _ => True) Console.start ds c ∧ x.Follows c := by
  obtain ⟨x₀, hs, hq⟩ := @exists_starts 1024 1000 created 2 3 4
    (fun x₀ => (exec step Allowed x₀ reading).any fun x =>
      x.kernel.waiters 1 = [] ∧ x.console.signals = 1) (by decide +kernel)
  obtain ⟨x, hrun, hx⟩ := exists_run_from hq
  obtain ⟨hwait, hsignals⟩ := of_decide_eq_true hx
  exact ⟨x₀, x, hs, hrun, hwait, hsignals, console_refined hs hrun⟩

/-- What the callers of `putc` and `getc` rely on: the terminal has the accepted characters in
their order, as far as they are not under way; `getc` has returned the received ones, once and in
their order, and never came back without one; and when a thread waits for a character, each one in
the ring is for a thread that has been woken for it, or for the `sem_signal` that comes next. -/
structure Delivers (x : Driver) : Prop where
  printed : x.console.writtenBy [.putter] ++ x.console.held ++ x.console.toPrint = x.console.accepted
  order : x.console.taken ++ x.console.unread ++ x.console.pending = x.console.received
  found : ∀ a ∈ x.console.answers, a.2 ≠ none
  served : x.kernel.waiters x.characterReadyToGet ≠ [] → ∃ ts : List Tid, ts.Nodup ∧
    (∀ t ∈ ts, t ≠ x.kernel.running ∧ x.kernel.Resumes t (.block x.characterReadyToGet) ∧
      t ∉ x.kernel.waiters x.characterReadyToGet) ∧
    x.console.unread.length = ts.length + x.console.unsignalled

theorem Follows.delivers (hf : x.Follows c) (hp : c.Printing) (hk : c.Kept) : x.Delivers := by
  have hsame := hf.same
  have hwait : x.kernel.waiters x.characterReadyToGet = c.queueBlocked := hf.gated.waiters
  have hprinted := hp.order
  have horder := hk.order
  have hfound := hk.found
  rw [hsame] at hprinted horder hfound
  refine ⟨hprinted, horder, hfound, fun hne => ?_⟩
  rw [hwait] at hne ⊢
  have hserved := hk.served hne
  obtain ⟨-, hnw, hdisj⟩ := List.nodup_append'.1 hf.gated.apart
  refine ⟨c.woken, hnw, fun t ht => ?_, ?_⟩
  · obtain ⟨hrun, hr⟩ := (hf.gated.waits t).1 (Or.inr ht)
    exact ⟨hrun, hr, fun hin => hdisj hin ht⟩
  · rw [hsame] at hserved
    exact hserved

end Driver
end OSK
