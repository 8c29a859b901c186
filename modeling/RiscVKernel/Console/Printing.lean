import RiscVKernel.Console.State

/-! From `putc` to the terminal. A character that `putCharInBuffer` took is in
the ring, with the putter, or on the terminal, in the order of the calls. The
end of the kernel empties the ring, but not the hands of the putter. -/

namespace OSK

open Lib

namespace Console

variable {c c' : Console} {e : Event} {ch : UInt8} {hw : Status} {writer : Writer}

/-- What printing depends on. -/
def printView (c : Console) :=
  (c.headPrint, c.tailPrint, c.bufferPrint, c.putter, c.accepted,
    c.writtenBy [.putter], c.writtenBy [.drain])

structure Printing (c : Console) : Prop where
  head : c.headPrint < numOfChars
  tail : c.tailPrint < numOfChars
  chosen : c.putter = .read → c.headPrint ≠ c.tailPrint
  copied : ∀ ch, c.putter = .advance ch →
    c.headPrint ≠ c.tailPrint ∧ ch = c.bufferPrint c.tailPrint
  order : c.writtenBy [.putter] ++ c.held ++ c.toPrint = c.accepted
  undrained : c.writtenBy [.drain] = []

theorem Printing.congr (h : c.Printing) (hv : c'.printView = c.printView) : c'.Printing := by
  simp only [printView, Prod.mk.injEq] at hv
  obtain ⟨hhead, htail, hbuf, hput, hacc, hwritten, hdrain⟩ := hv
  have hheld : c'.held = c.held := by simp only [held, hput]
  have htoPrint : c'.toPrint = c.toPrint := by simp only [toPrint, hhead, htail, hbuf]
  refine ⟨hhead ▸ h.head, htail ▸ h.tail, ?_, ?_, ?_, hdrain.trans h.undrained⟩
  · rw [hput, hhead, htail]
    exact h.chosen
  · rw [hput, hhead, htail, hbuf]
    exact h.copied
  · rw [hwritten, hheld, htoPrint, hacc]
    exact h.order

theorem start_printing : start.Printing :=
  ⟨by decide, by decide, by simp [start], by simp [start], by decide, rfl⟩

theorem writtenBy_putCharInTerminal (c : Console) (writer : Writer) (ch : UInt8) (ws : List Writer) :
    (c.putCharInTerminal writer ch).writtenBy ws =
      c.writtenBy ws ++ if writer ∈ ws then [ch] else [] := by
  unfold writtenBy putCharInTerminal
  rw [List.filter_append, List.map_append]
  by_cases hw : writer ∈ ws <;> simp [hw]

/-! Steps on the other side of the console. -/

theorem takeChar_printView (c : Console) (t : Tid) : (c.takeChar t).printView = c.printView := by
  unfold takeChar
  split_ifs <;> rfl

theorem settleInterrupt_printView (c : Console) (hw : Status) :
    (c.settleInterrupt hw).printView = c.printView := by
  unfold settleInterrupt
  split_ifs <;> rfl

theorem getCharFromTerminal_printView (c : Console) (ch : UInt8) :
    (c.getCharFromTerminal ch).printView = c.printView := by
  unfold getCharFromTerminal
  split_ifs
  · simp only [printView, writtenBy_putCharInTerminal]
    simp [putCharInTerminal]
  · rfl

theorem signalReady_printView (h : c.signalReady = .ok c') : c'.printView = c.printView := by
  rcases signalReady_ok h with ⟨-, rfl⟩ | ⟨t, q, -, -, rfl⟩
  · rfl
  · rfl

theorem getterThread_printView (h : c.getterThread hw ch = .ok c') :
    c'.printView = c.printView := by
  rcases getterThread_ok h with ⟨-, g, rfl, -⟩ | ⟨-, rfl⟩ | ⟨-, rfl⟩ | ⟨-, c₁, hs, rfl⟩ | ⟨-, rfl⟩
  · rfl
  · exact getCharFromTerminal_printView c ch
  · rfl
  · have hv : c₁.printView = c.printView := signalReady_printView hs
    exact hv
  · exact settleInterrupt_printView c hw

/-! `putc` and the putter. -/

theorem putc_printing (h : step c (.putc ch) = .ok c') (hp : c.Printing) : c'.Printing := by
  rcases putc_ok h with ⟨-, rfl⟩ | ⟨hfull, rfl⟩
  · exact hp
  · refine ⟨Nat.mod_lt _ (by decide), hp.tail, fun _ => hfull, ?_, ?_, hp.undrained⟩
    · intro ch' hput
      obtain ⟨hne, hch⟩ := hp.copied ch' hput
      refine ⟨hfull, ?_⟩
      simp only [Function.update_of_ne hne.symm]
      exact hch
    · have hpush : ringItems (Function.update c.bufferPrint c.headPrint ch) _ _ _ = _ :=
        ringItems_push hp.tail hp.head hfull
      have horder : c.writtenBy [.putter] ++ c.held ++ ringItems _ _ _ _ = c.accepted := hp.order
      change c.writtenBy [.putter] ++ c.held ++ ringItems _ _ _ _ = c.accepted ++ [ch]
      rw [hpush, ← List.append_assoc, horder]

/-- The putter goes from one place without a character in hand to another. -/
theorem Printing.goes (hp : c.Printing) {p : PutterAt} (hfrom : c.held = [])
    (hto : ({ c with putter := p } : Console).held = [])
    (hchosen : p = .read → c.headPrint ≠ c.tailPrint)
    (hcopied : ∀ ch, p = .advance ch → c.headPrint ≠ c.tailPrint ∧ ch = c.bufferPrint c.tailPrint) :
    ({ c with putter := p } : Console).Printing := by
  refine ⟨hp.head, hp.tail, hchosen, hcopied, ?_, hp.undrained⟩
  rw [hto, ← hfrom]
  exact hp.order

theorem putterThread_printing (hp : c.Printing) (hw : Status) : (c.putterThread hw).Printing := by
  unfold putterThread
  cases hput : c.putter with
  | test =>
    have hheld : c.held = [] := by simp [held, hput]
    dsimp only
    split_ifs with hc
    · exact hp.goes hheld rfl (fun _ => hc.2) (by simp)
    · exact hp.goes hheld rfl (by simp) (by simp)
  | read =>
    have hheld : c.held = [] := by simp [held, hput]
    apply hp.goes hheld rfl (by simp)
    intro ch hch
    cases hch
    exact ⟨hp.chosen hput, rfl⟩
  | advance ch =>
    -- the character goes from the front of the ring into the hands of the putter
    obtain ⟨hne, rfl⟩ := hp.copied ch hput
    have hpop : c.toPrint = _ := ringItems_pop hp.tail hp.head hne
    have hheld : c.held = [] := by simp [held, hput]
    have horder := hp.order
    rw [hheld, List.append_nil, hpop] at horder
    refine ⟨hp.head, Nat.mod_lt _ (by decide), by simp, by simp, ?_, hp.undrained⟩
    rw [← horder]
    exact List.append_assoc _ [_] _
  | write ch =>
    have hheld : c.held = [ch] := by simp [held, hput]
    have horder := hp.order
    have hwrite := writtenBy_putCharInTerminal c .putter ch
    refine ⟨hp.head, hp.tail, by simp, by simp, ?_, ?_⟩
    · change (c.putCharInTerminal .putter ch).writtenBy [.putter] ++ [] ++ c.toPrint = c.accepted
      rw [hwrite, List.append_nil, ← horder, hheld]
      rfl
    · change (c.putCharInTerminal .putter ch).writtenBy [.drain] = []
      rw [hwrite, hp.undrained]
      rfl
  | settle =>
    have hview := settleInterrupt_printView c hw
    have hheld : (c.settleInterrupt hw).held = [] := by
      simp only [printView, Prod.mk.injEq] at hview
      simp [held, hview.2.2.2.1, hput]
    exact (hp.congr hview).goes hheld rfl (by simp) (by simp)

theorem step_printing (h : step c e = .ok c') (hp : c.Printing) : c'.Printing := by
  cases e with
  | putc ch => exact putc_printing h hp
  | getc t =>
    cases h
    rcases getCharFromBuffer_eq c t with ⟨-, he⟩ | ⟨-, he⟩ <;> rw [he]
    · exact hp.congr (takeChar_printView { c with val := c.val - 1 } t)
    · exact hp.congr rfl
  | resume t =>
    obtain ⟨-, rfl⟩ := resume_ok h
    exact hp.congr (takeChar_printView { c with woken := c.woken.erase t } t)
  | putter hw =>
    obtain ⟨-, rfl⟩ := putter_ok h
    exact putterThread_printing hp hw
  | getter hw ch => exact hp.congr (getterThread_printView (getter_ok h).2)
  | interrupt n =>
    cases h
    unfold consoleInterruptHandler
    split_ifs
    · exact hp.congr rfl
    · exact hp
  | kill =>
    obtain ⟨-, rfl⟩ := kill_ok h
    exact hp.congr rfl

theorem run_printing {P : Console → Event → Prop} {es : List Event} (h : Run step P start es c) :
    c.Printing :=
  h.invariant Printing start_printing fun _ _ _ hp _ hs => step_printing hs hp

/-- What the putter has written, the character it holds and the ring are the
characters that were accepted, in order. A character that it has only copied is
still the first of the ring. -/
theorem printed_in_order {es : List Event} (h : Run step (fun _ _ => True) start es c) :
    c.writtenBy [.putter] ++ c.held ++ c.toPrint = c.accepted ∧ c.held.length ≤ 1 ∧
      c.headPrint < 1024 ∧ c.tailPrint < 1024 ∧ c.toPrint.length ≤ 1023 ∧
      ∀ ch, c.putter = .advance ch → ∃ rest, c.toPrint = ch :: rest := by
  have hp := run_printing h
  have hcount := ringCount_lt hp.tail hp.head
  refine ⟨hp.order, ?_, hp.head, hp.tail, ?_, ?_⟩
  · unfold held
    split <;> simp
  · rw [toPrint, length_ringItems]
    exact Nat.le_of_lt_succ hcount
  · intro ch hch
    obtain ⟨hne, rfl⟩ := hp.copied ch hch
    exact ⟨_, ringItems_pop hp.tail hp.head hne⟩

/-- Two characters, of which the putter has taken one. -/
theorem printed_in_order_two : ∃ c, Run step (fun _ _ => True) start
      [.putc 65, .putc 66, .putter ⟨false, true⟩, .putter ⟨false, true⟩, .putter ⟨false, true⟩] c ∧
    c.writtenBy [.putter] ++ c.held ++ c.toPrint = [65, 66] := by
  have hrun : ((some start).bind fun c => exec step (fun _ _ => True) c
      [.putc 65, .putc 66, .putter ⟨false, true⟩, .putter ⟨false, true⟩, .putter ⟨false, true⟩]).any
      (fun c => c.accepted = [65, 66]) = true := by
    decide +kernel
  obtain ⟨c₀, c, ⟨⟩, h, hacc⟩ := exists_run hrun
  exact ⟨c, h, (printed_in_order h).1.trans (of_decide_eq_true hacc)⟩

/-! The end of the kernel. -/

theorem emptyConsolePrintAll_written {polls : List Bool}
    (h : c.emptyConsolePrintAll polls = some c') (hh : c.headPrint < numOfChars)
    (ht : c.tailPrint < numOfChars) :
    c'.writtenBy [.putter, .drain] = c.writtenBy [.putter, .drain] ++ c.toPrint := by
  induction polls generalizing c with
  | nil =>
    unfold emptyConsolePrintAll at h
    split_ifs at h with he
    cases h
    simp [toPrint, he]
  | cons ready polls ih =>
    unfold emptyConsolePrintAll at h
    split_ifs at h with he hr
    · cases h
      simp [toPrint, he]
    · have hrest := ih h hh (Nat.mod_lt _ (by decide))
      have hpop : c.toPrint = _ := ringItems_pop ht hh he
      rw [hrest, writtenBy_putCharInTerminal, hpop]
      simp [writtenBy, toPrint, putCharInTerminal]
    · exact ih h hh ht

/-- The loop ends once the terminal was ready as often as there are characters. -/
theorem emptyConsolePrintAll_total {polls : List Bool} (hh : c.headPrint < numOfChars)
    (ht : c.tailPrint < numOfChars) (hpolls : c.toPrint.length ≤ polls.count true) :
    ∃ c', c.emptyConsolePrintAll polls = some c' := by
  induction polls generalizing c with
  | nil =>
    have hnil : c.toPrint = [] := List.eq_nil_of_length_eq_zero (Nat.le_zero.1 hpolls)
    have he := (ringItems_eq_nil ht).1 hnil
    exact ⟨c, by simp [emptyConsolePrintAll, he]⟩
  | cons ready polls ih =>
    unfold emptyConsolePrintAll
    split_ifs with he hr
    · exact ⟨c, rfl⟩
    · refine ih hh (Nat.mod_lt _ (by decide)) ?_
      have hpop : c.toPrint = _ := ringItems_pop ht hh he
      rw [hpop, hr] at hpolls
      simpa [toPrint, putCharInTerminal] using hpolls
    · refine ih hh ht ?_
      simpa [hr] using hpolls

theorem writtenBy_priorityPrint (c : Console) (s : List UInt8) :
    (c.priorityPrint s).writtenBy [.putter, .drain] = c.writtenBy [.putter, .drain] := by
  unfold writtenBy priorityPrint
  rw [List.filter_append]
  have hnone : ((chars "\x1b[31m" ++ s ++ chars "\x1b[0m").map (Writer.message, ·)).filter
      (·.1 ∈ [Writer.putter, Writer.drain]) = [] := by
    apply List.filter_eq_nil_iff.2
    intro w hw
    obtain ⟨ch, -, rfl⟩ := List.mem_map.1 hw
    simp
  rw [hnone, List.append_nil]

theorem killQEMU_written {polls : List Bool} (h : c.killQEMU polls = some c')
    (hh : c.headPrint < numOfChars) (ht : c.tailPrint < numOfChars) :
    c'.writtenBy [.putter, .drain] = c.writtenBy [.putter, .drain] ++ c.toPrint := by
  obtain ⟨c₁, hc₁, rfl⟩ := Option.map_eq_some_iff.1 h
  rw [writtenBy_priorityPrint, emptyConsolePrintAll_written hc₁ hh ht]

/-- Nothing is drained before the end. -/
theorem Printing.written (hp : c.Printing) :
    c.writtenBy [.putter, .drain] = c.writtenBy [.putter] := by
  have hnone : ∀ w ∈ c.terminal, w.1 ≠ .drain := by
    intro w hw hdrain
    have := List.map_eq_nil_iff.1 hp.undrained
    exact List.filter_eq_nil_iff.1 this w hw (by simp [hdrain])
  unfold writtenBy
  refine congrArg _ (List.filter_congr ?_)
  intro w hw
  have := hnone w hw
  simp [this]

/-- The ring and the characters on the terminal are all there is exactly when the
putter holds none. -/
theorem Printing.complete_iff (hp : c.Printing) :
    (c.writtenBy [.putter, .drain] ++ c.toPrint).Perm c.accepted ↔ ∀ ch, c.putter ≠ .write ch := by
  rw [hp.written, ← hp.order]
  constructor
  · intro hperm ch hput
    have hlen := hperm.length_eq
    simp [held, hput] at hlen
  · intro hput
    have hheld : c.held = [] := by
      unfold held
      split
      next ch hch => exact absurd hch (hput ch)
      next => rfl
    rw [hheld, List.append_nil]

/-- Whenever the kernel is stopped, by `main` or by a fatal trap, it writes every
accepted character once if and only if the putter was not preempted between its
statements that move `tailPrint` and that write the character. The loop that
empties the ring ends when the terminal has been ready often enough. -/
theorem shutdown_exact {es : List Event} (h : Run step (fun _ _ => True) start es c) :
    (∀ polls c', c.killQEMU polls = some c' →
      ((c'.writtenBy [.putter, .drain]).Perm c.accepted ↔ ∀ ch, c.putter ≠ .write ch)) ∧
    (∀ text polls c', c.errorMsgTerminate text polls = some c' →
      ((c'.writtenBy [.putter, .drain]).Perm c.accepted ↔ ∀ ch, c.putter ≠ .write ch)) ∧
    ∀ polls, c.toPrint.length ≤ polls.count true → (c.killQEMU polls).isSome ∧
      ∀ text, (c.errorMsgTerminate text polls).isSome := by
  have hp := run_printing h
  refine ⟨?_, ?_, fun polls hpolls => ⟨?_, ?_⟩⟩
  · intro polls c' hk
    rw [killQEMU_written hk hp.head hp.tail]
    exact hp.complete_iff
  · intro text polls c' hk
    rw [killQEMU_written hk hp.head hp.tail, writtenBy_priorityPrint]
    exact hp.complete_iff
  · obtain ⟨c', hc'⟩ := emptyConsolePrintAll_total hp.head hp.tail hpolls
    simp [killQEMU, hc']
  · intro text
    have hpolls' : (c.priorityPrint text).toPrint.length ≤ polls.count true := hpolls
    obtain ⟨c', hc'⟩ := emptyConsolePrintAll_total (c := c.priorityPrint text) hp.head hp.tail hpolls'
    simp [errorMsgTerminate, killQEMU, hc']

/-- A character in the ring is written by `killQEMU`. -/
theorem shutdown_exact_one : ∃ c c', Run step (fun _ _ => True) start [.putc 65] c ∧
    c.killQEMU [true] = some c' ∧ (c'.writtenBy [.putter, .drain]).Perm [65] := by
  have hrun : ((some start).bind fun c => exec step (fun _ _ => True) c [.putc 65]).any
      (fun c => c.accepted = [65] ∧ c.putter = .test ∧ c.toPrint.length = 1) = true := by
    decide +kernel
  obtain ⟨c₀, c, ⟨⟩, h, hq⟩ := exists_run hrun
  obtain ⟨hacc, hput, hlen⟩ := of_decide_eq_true hq
  obtain ⟨hkill, -, htotal⟩ := shutdown_exact h
  obtain ⟨c', hc'⟩ := Option.isSome_iff_exists.1 (htotal [true] (by simp [hlen])).1
  exact ⟨c, c', h, hc', hacc ▸ (hkill _ _ hc').2 (by simp [hput])⟩

/-- The putter is preempted between its last two statements. `main` finds nothing
to print, and the character is never written. -/
theorem shutdown_exact_fails : ∃ c c', Run step (fun _ _ => True) start
      [.putc 65, .putter ⟨false, true⟩, .putter ⟨false, true⟩, .putter ⟨false, true⟩, .kill] c ∧
    c.killQEMU [] = some c' ∧ c.accepted = [65] ∧ c'.writtenBy [.putter, .drain] = [] := by
  have hrun : ((some start).bind fun c => exec step (fun _ _ => True) c
      [.putc 65, .putter ⟨false, true⟩, .putter ⟨false, true⟩, .putter ⟨false, true⟩, .kill]).any
      (fun c => c.accepted = [65] ∧
        (c.killQEMU []).any (fun c' => c'.writtenBy [.putter, .drain] = []) = true) = true := by
    decide +kernel
  obtain ⟨c₀, c, ⟨⟩, h, hq⟩ := exists_run hrun
  obtain ⟨hacc, hq⟩ := of_decide_eq_true hq
  obtain ⟨c', hc', hw⟩ := (Option.any_eq_true _ _).1 hq
  exact ⟨c, c', h, hc', hacc, of_decide_eq_true hw⟩

end Console
end OSK
