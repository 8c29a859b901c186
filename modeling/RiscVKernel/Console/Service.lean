import RiscVKernel.Console.Delivery

/-! What `putc` has accepted reaches the terminal, when the putter finds the terminal ready often
enough; everything else in the kernel may go on between two of its statements. -/

namespace OSK

open Lib Kernel

namespace Console

variable {c c' : Console} {hw : Status} {ch : UInt8}

def written (c : Console) : List UInt8 := c.writtenBy [.putter]

/-- How many characters the putter has chosen and not written. -/
def chosen (c : Console) : ℕ :=
  match c.putter with
  | .test => 0
  | .settle => 0
  | _ => 1

structure Grows (c c' : Console) : Prop where
  accepted : c.accepted <+: c'.accepted
  written : c.written <+: c'.written

theorem Grows.same (h : c'.printView = c.printView) : Grows c c' := by
  simp only [printView, Prod.mk.injEq] at h
  obtain ⟨-, -, -, -, hacc, hwritten, -⟩ := h
  exact ⟨by rw [hacc], by unfold Console.written; rw [hwritten]⟩

theorem Grows.trans {d : Console} (h : Grows c d) (h' : Grows d c') : Grows c c' :=
  ⟨h.accepted.trans h'.accepted, h.written.trans h'.written⟩

theorem putterThread_written (c : Console) (hw : Status) :
    (c.putterThread hw).written = c.written ++ c.held := by
  unfold putterThread held
  cases c.putter with
  | write ch => exact writtenBy_putCharInTerminal c .putter ch [.putter]
  | settle =>
    have hview := settleInterrupt_printView c hw
    simp only [printView, Prod.mk.injEq] at hview
    rw [List.append_nil]
    exact hview.2.2.2.2.2.1
  | _ => exact (List.append_nil _).symm

theorem putterThread_accepted (c : Console) (hw : Status) :
    (c.putterThread hw).accepted = c.accepted := by
  unfold putterThread
  cases c.putter with
  | settle =>
    have hview := settleInterrupt_printView c hw
    simp only [printView, Prod.mk.injEq] at hview
    exact hview.2.2.2.2.1
  | _ => rfl

theorem putterThread_grows (c : Console) (hw : Status) : Grows c (c.putterThread hw) := by
  refine ⟨?_, ?_⟩
  · rw [putterThread_accepted]
  · rw [putterThread_written]
    exact List.prefix_append _ _

/-- A test that finds the terminal ready chooses one more character, as long as one is missing. -/
theorem putterThread_chosen (hw : Status) (hp : c.Printing) (hlt : c.written.length < c.accepted.length) :
    (c.putterThread hw).chosen + c.held.length =
      c.chosen + if c.putter = .test ∧ hw.transferReady then 1 else 0 := by
  cases hput : c.putter with
  | test =>
    -- nothing is in hand, so that the ring has the next one
    have hheld : c.held = [] := by simp [held, hput]
    have hne : c.headPrint ≠ c.tailPrint := by
      intro he
      have hlen := congrArg List.length hp.order
      have hprint : c.toPrint = [] := by simp [toPrint, he]
      rw [hheld, hprint, List.append_nil, List.append_nil] at hlen
      exact absurd hlen hlt.ne
    cases hr : hw.transferReady <;> simp [putterThread, chosen, hput, hheld, hne, hr]
  | read => simp [putterThread, chosen, held, hput]
  | advance ch => simp [putterThread, chosen, held, hput]
  | write ch => simp [putterThread, chosen, held, hput]
  | settle => simp [putterThread, chosen, held, hput]

theorem chosen_same (h : c'.printView = c.printView) :
    c'.written = c.written ∧ c'.chosen = c.chosen := by
  simp only [printView, Prod.mk.injEq] at h
  obtain ⟨-, -, -, hput, -, hwritten, -⟩ := h
  exact ⟨hwritten, by unfold chosen; rw [hput]⟩

theorem putc_chosen (h : step c (.putc ch) = .ok c') :
    c'.written = c.written ∧ c'.chosen = c.chosen := by
  rcases putc_ok h with ⟨-, rfl⟩ | ⟨-, rfl⟩ <;> exact ⟨rfl, rfl⟩

theorem putc_grows (h : step c (.putc ch) = .ok c') : Grows c c' := by
  rcases putc_ok h with ⟨-, rfl⟩ | ⟨-, rfl⟩
  · exact .same rfl
  · exact ⟨List.prefix_append _ _, List.prefix_refl _⟩

end Console

namespace Driver

variable {x x' x₀ : Driver} {e : Event} {es es' : List Event} {n start total : ℕ}

/-- The step finds the terminal ready, at the head of the inner loop of the putter. -/
def finds (x : Driver) : Event → Bool
  | .putter hw => x.console.putter = .test ∧ hw.transferReady
  | _ => false

theorem trap_printView {e : OSK.Event} {o : Option Context} (h : x.trap e = .ok (o, x')) :
    x'.console.printView = x.console.printView := by
  obtain ⟨k', -, rfl⟩ := trap_ok h
  dsimp only
  split_ifs
  · exact Console.takeChar_printView _ _
  · rfl

/-- A step of the putter, `putc`, or nothing that printing depends on. -/
theorem step_prints (h : x.step e = .ok x') :
    (∃ hw, e = .putter hw ∧ x'.console = x.console.putterThread hw) ∨
      (∃ ch, Console.step x.console (.putc ch) = .ok x'.console) ∧ x.finds e = false ∨
      x'.console.printView = x.console.printView ∧ x.finds e = false := by
  cases e with
  | call e =>
    obtain ⟨o, htrap⟩ := call_ok h
    exact Or.inr (Or.inr ⟨trap_printView htrap, rfl⟩)
  | putc ch =>
    cases h
    exact Or.inr (Or.inl ⟨⟨ch, rfl⟩, rfl⟩)
  | getc =>
    obtain ⟨o, x₁, htrap, rfl⟩ := getc_ok h
    refine Or.inr (Or.inr ⟨?_, rfl⟩)
    split_ifs
    · exact (Console.takeChar_printView _ _).trans (trap_printView htrap)
    · exact trap_printView htrap
  | putter hw =>
    obtain ⟨-, rfl⟩ := putter_ok h
    exact Or.inl ⟨hw, rfl, rfl⟩
  | getter hw ch =>
    obtain ⟨-, h⟩ := getter_ok h
    refine Or.inr (Or.inr ⟨?_, rfl⟩)
    rcases getterThread_ok h with ⟨hg, o, x₁, htrap, rfl⟩ | ⟨hg, c₁, hc, rfl⟩
    · have hview := trap_printView htrap
      exact hview
    · exact Console.getterThread_printView hc
  | interrupt n =>
    cases h
    refine Or.inr (Or.inr ⟨?_, rfl⟩)
    unfold Console.consoleInterruptHandler
    split_ifs <;> rfl
  | finish =>
    obtain ⟨-, -, rfl⟩ := finish_ok h
    exact Or.inr (Or.inr ⟨rfl, rfl⟩)

theorem step_grows (h : x.step e = .ok x') : Console.Grows x.console x'.console := by
  rcases step_prints h with ⟨hw, -, hc⟩ | ⟨⟨ch, hputc⟩, -⟩ | ⟨hview, -⟩
  · rw [hc]
    exact Console.putterThread_grows _ _
  · exact Console.putc_grows hputc
  · exact .same hview

theorem step_printing (h : x.step e = .ok x') (hp : x.console.Printing) : x'.console.Printing := by
  rcases step_prints h with ⟨hw, -, hc⟩ | ⟨⟨ch, hputc⟩, -⟩ | ⟨hview, -⟩
  · rw [hc]
    exact Console.putterThread_printing hp hw
  · exact Console.putc_printing hputc hp
  · exact hp.congr hview

/-- How many characters the putter has yet to choose until `n` are written. -/
def missing (n : ℕ) (x : Driver) : ℕ := n - (x.console.written.length + x.console.chosen)

theorem step_missing (h : x.step e = .ok x') (hp : x.console.Printing)
    (hn : n ≤ x.console.accepted.length) (hlt : x.console.written.length < n) :
    n ≤ x'.console.written.length ∨ x'.console.written.length < n ∧
      missing n x' + (if x.finds e then 1 else 0) ≤ missing n x := by
  by_cases hdone : n ≤ x'.console.written.length
  · exact Or.inl hdone
  refine Or.inr ⟨Nat.lt_of_not_le hdone, ?_⟩
  unfold missing
  rcases step_prints h with ⟨hw, rfl, hc⟩ | ⟨⟨ch, hputc⟩, hfinds⟩ | ⟨hview, hfinds⟩
  · have hchosen := Console.putterThread_chosen hw hp (hlt.trans_le hn)
    rw [hc, Console.putterThread_written, List.length_append, finds]
    by_cases ht : x.console.putter = .test ∧ hw.transferReady = true
    · have hnone : x.console.chosen = 0 := by simp [Console.chosen, ht.1]
      simp only [ht, and_self, if_true, decide_true] at hchosen ⊢
      omega
    · simp only [ht, if_false, decide_false, Bool.false_eq_true] at hchosen ⊢
      omega
  · obtain ⟨hwritten, hchosen⟩ := Console.putc_chosen hputc
    rw [hfinds, hwritten, hchosen]
    simp
  · obtain ⟨hwritten, hchosen⟩ := Console.chosen_same hview
    rw [hfinds, hwritten, hchosen]
    simp

theorem run_grows {P : Driver → Event → Prop} (h : Run step P x₀ es x) :
    Console.Grows x₀.console x.console :=
  h.invariant (fun x => Console.Grows x₀.console x.console) (.same rfl)
    fun _ _ _ hg _ hs => hg.trans (step_grows hs)

theorem run_printing {P : Driver → Event → Prop} (hs : Starts start total x₀)
    (h : Run step P x₀ es x) : x.console.Printing :=
  h.invariant (fun x => x.console.Printing) (hs.console ▸ Console.start_printing)
    fun _ _ _ hp _ hs => step_printing hs hp

/-- Once the terminal was ready for `n` characters more than were written, and once more, `n` are
written. -/
theorem run_written {P : Driver → Event → Prop} (h : Run step P x es x') (hp : x.console.Printing)
    (hn : n ≤ x.console.accepted.length)
    (htally : n - x.console.written.length + 1 ≤ tally step finds x es) :
    n ≤ x'.console.written.length := by
  by_cases hlt : x.console.written.length < n
  · have hinv : ∀ y e y', y.console.Printing ∧ n ≤ y.console.accepted.length → P y e →
        step y e = .ok y' → y'.console.Printing ∧ n ≤ y'.console.accepted.length :=
      fun _ _ _ hi _ hs => ⟨step_printing hs hi.1, hi.2.trans (step_grows hs).accepted.length_le⟩
    have hrank : missing n x + 1 ≤ tally step finds x es := by
      unfold missing
      omega
    have hstep : ∀ y e y', y.console.Printing ∧ n ≤ y.console.accepted.length → P y e →
        y.console.written.length < n → step y e = .ok y' →
          n ≤ y'.console.written.length ∨ y'.console.written.length < n ∧
            missing n y' + (if y.finds e then 1 else 0) ≤ missing n y :=
      fun _ _ _ hi _ hw hs => step_missing hs hi.1 hi.2 hw
    have hmet := Run.served h ⟨hp, hn⟩ hlt hinv hstep hrank
    obtain ⟨es₁, e, es₂, s₁, s₂, -, -, -, hlast, hout⟩ := hmet
    exact hout.trans (run_grows hlast).written.length_le
  · exact (Nat.le_of_not_lt hlt).trans (run_grows h).written.length_le

end Driver
end OSK
