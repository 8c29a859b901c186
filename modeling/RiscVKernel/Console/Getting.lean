import RiscVKernel.Console.State
import RiscVKernel.Lib.Counter

/-! From the terminal to `getc`. `characterReadyToGet` is a counting semaphore
that has been signalled once for each character behind `headGet`, so that a
caller that comes through it finds a character, as long as `headGet` never
catches up with `tailGet` from behind. -/

namespace OSK

open Lib

namespace Console

variable {c c' : Console} {e : Event} {ch : UInt8} {hw : Status} {t : Tid}

/-- 1 between the statements of the getter that move `headGet` and that signal. -/
def unsignalled (c : Console) : ℕ := if c.getter = .signal then 1 else 0

/-- `characterReadyToGet` as a counting semaphore. A unit is acquired by a caller
that `wait` let through or that was woken. -/
def counter (c : Console) : Counter :=
  ⟨c.val, c.queueBlocked.length, c.signals, c.answers.length + c.woken.length⟩

/-- The characters stored are those returned by `getc`, in order, and behind them
those in the ring. No call finds the ring empty, the getter stores into a slot
that holds none of them, and nobody waits while a character is left over. -/
structure Kept (c : Console) : Prop where
  order : c.taken ++ c.unread ++ c.pending = c.received
  found : ∀ a ∈ c.answers, a.2 ≠ none
  spare : c.getter = .store → ∀ i < c.unread.length, (c.tailGet + i) % numOfChars ≠ c.headGet
  served : c.queueBlocked ≠ [] → c.unread.length = c.woken.length + c.unsignalled

def Event.byGetter : Event → Bool
  | .getter _ _ => true
  | _ => false

/-- The getter does not move `headGet` around the end onto a `tailGet` of 0. -/
def Keeps (c : Console) (e : Event) : Prop :=
  ¬(e.byGetter ∧ c.getter = .advance ∧ c.headGet = numOfChars - 1 ∧ c.tailGet = 0)

instance (c : Console) (e : Event) : Decidable (Keeps c e) :=
  inferInstanceAs (Decidable
    (¬(e.byGetter ∧ c.getter = .advance ∧ c.headGet = numOfChars - 1 ∧ c.tailGet = 0)))

structure Getting (c : Console) : Prop where
  head : c.headGet < numOfChars
  tail : c.tailGet < numOfChars
  tested : c.getter = .store ∨ c.getter = .advance → c.headGet + 1 ≠ c.tailGet
  order : c.taken ++ c.unread ++ c.pending = c.received
  found : ∀ a ∈ c.answers, a.2 ≠ none
  signalled : c.unread.length + c.answers.length = c.signals + c.unsignalled
  counts : c.counter.Exact ∧ c.counter.stock = 0

theorem start_getting : start.Getting :=
  ⟨by decide, by decide, by simp [start], rfl, by simp [start], rfl,
    (by unfold Counter.Exact; decide), rfl⟩

/-- What getting depends on. -/
def getView (c : Console) :=
  (c.headGet, c.tailGet, c.bufferGet, c.getter, c.val, c.queueBlocked, c.woken, c.received,
    c.signals, c.answers)

theorem Getting.congr (h : c.Getting) (hv : c'.getView = c.getView) : c'.Getting := by
  simp only [getView, Prod.mk.injEq] at hv
  obtain ⟨hhead, htail, hbuf, hget, hval, hq, hw, hrec, hsig, hans⟩ := hv
  have hunread : c'.unread = c.unread := by simp only [unread, hhead, htail, hbuf]
  have hpending : c'.pending = c.pending := by simp only [pending, hget, hbuf, hhead]
  have hcounter : c'.counter = c.counter := by simp only [counter, hval, hq, hsig, hans, hw]
  refine ⟨hhead ▸ h.head, htail ▸ h.tail, ?_, ?_, hans ▸ h.found, ?_, hcounter ▸ h.counts⟩
  · rw [hget, hhead, htail]
    exact h.tested
  · rw [taken, hans, hunread, hpending, hrec]
    exact h.order
  · rw [hunread, hans, hsig, unsignalled, hget]
    exact h.signalled

/-! The other side of the console. -/

theorem putterThread_getView (c : Console) (hw : Status) :
    (c.putterThread hw).getView = c.getView := by
  unfold putterThread
  cases c.putter with
  | settle =>
    simp only [settleInterrupt]
    split_ifs <;> rfl
  | _ => rfl

theorem settleInterrupt_getView (c : Console) (hw : Status) :
    (c.settleInterrupt hw).getView = c.getView := by
  unfold settleInterrupt
  split_ifs <;> rfl

/-! The callers. -/

theorem takeChar_some (t : Tid) (hne : c.headGet ≠ c.tailGet) :
    c.takeChar t = { c with
      answers := c.answers ++ [(t, some (c.bufferGet c.tailGet))]
      tailGet := (c.tailGet + 1) % numOfChars } := if_neg hne

/-- A caller that a unit of the semaphore stands for finds a character. -/
theorem Getting.left (h : c.Getting) (ha : c.answers.length < c.signals) :
    c.headGet ≠ c.tailGet := by
  intro he
  have hs := h.signalled
  have hnil : c.unread = [] := by rw [unread, he, ringItems_self]
  rw [hnil, List.length_nil] at hs
  omega

/-- A caller goes away with the first character of the ring. -/
theorem Getting.take (h : c.Getting) (t : Tid) (hne : c.headGet ≠ c.tailGet) {v : ℤ} {w : List Tid}
    (hcounts : Counter.Exact ⟨v, c.queueBlocked.length, c.signals, c.answers.length + 1 + w.length⟩ ∧
      Counter.stock ⟨v, c.queueBlocked.length, c.signals, c.answers.length + 1 + w.length⟩ = 0) :
    ({ c with val := v, woken := w }.takeChar t).Getting := by
  have hpop : c.unread = _ := ringItems_pop h.tail h.head hne
  have hne' : ({ c with val := v, woken := w } : Console).headGet ≠ c.tailGet := hne
  rw [takeChar_some t hne']
  refine ⟨h.head, Nat.mod_lt _ (by decide), ?_, ?_, ?_, ?_, ?_⟩
  · intro hg he
    -- `tailGet` only comes up behind `headGet` when the ring is empty
    have htested := h.tested hg
    have hhead := h.head
    have htail := h.tail
    have he : c.headGet + 1 = (c.tailGet + 1) % numOfChars := he
    rw [succ_mod htail] at he
    rcases eq_or_ne (c.tailGet + 1) numOfChars with hend | hend
    · rw [if_pos hend] at he
      omega
    · rw [if_neg hend] at he
      omega
  · have horder := h.order
    rw [hpop] at horder
    rw [← horder]
    simp [taken, unread, pending, List.filterMap_append]
  · intro a ha
    rcases List.mem_append.1 ha with ha | ha
    · exact h.found a ha
    · simp only [List.mem_singleton] at ha
      simp [ha]
  · have hs := h.signalled
    rw [hpop] at hs
    simp only [unread, unsignalled, List.length_append, List.length_cons, List.length_nil] at hs ⊢
    omega
  · simpa [counter] using hcounts

theorem getc_getting (h : c.Getting) (t : Tid) : (c.getCharFromBuffer t).Getting := by
  obtain ⟨hexact, hstock⟩ := h.counts
  rcases getCharFromBuffer_eq c t with ⟨hv, he⟩ | ⟨hv, he⟩
  · have hstep : Counter.Step (fun _ => False) c.counter _ := .take hv
    have hne : c.headGet ≠ c.tailGet := by
      apply h.left
      simp only [Counter.Exact, Counter.stock, counter] at hexact hstock
      omega
    rw [he]
    apply h.take t hne (v := c.val - 1) (w := c.woken)
    have hcounter : (⟨c.val - 1, c.queueBlocked.length, c.signals,
        c.answers.length + 1 + c.woken.length⟩ : Counter) =
        { c.counter with val := c.counter.val - 1, acquired := c.counter.acquired + 1 } := by
      simp only [counter, Counter.mk.injEq, true_and]
      omega
    rw [hcounter]
    exact ⟨hstep.exact (fun _ => False.elim) hexact, (hstep.stock (fun _ => id)).trans hstock⟩
  · have hstep : Counter.Step (fun _ => False) c.counter _ := .block hv
    have hcounter : ({ c with val := c.val - 1, queueBlocked := c.queueBlocked ++ [t] } :
        Console).counter =
        { c.counter with val := c.counter.val - 1, blocked := c.counter.blocked + 1 } := by
      simp [counter]
    rw [he]
    refine ⟨h.head, h.tail, h.tested, h.order, h.found, h.signalled, ?_⟩
    rw [hcounter]
    exact ⟨hstep.exact (fun _ => False.elim) hexact, (hstep.stock (fun _ => id)).trans hstock⟩

theorem resume_getting (h : c.Getting) (ht : t ∈ c.woken) :
    ({ c with woken := c.woken.erase t }.takeChar t).Getting := by
  obtain ⟨hexact, hstock⟩ := h.counts
  have hlen := List.length_erase_of_mem ht
  have hpos := List.length_pos_of_mem ht
  have hne : c.headGet ≠ c.tailGet := by
    apply h.left
    simp only [Counter.Exact, Counter.stock, counter] at hexact hstock
    omega
  apply h.take t hne (v := c.val) (w := c.woken.erase t)
  have hcounter : (⟨c.val, c.queueBlocked.length, c.signals,
      c.answers.length + 1 + (c.woken.erase t).length⟩ : Counter) = c.counter := by
    simp only [counter, Counter.mk.injEq, true_and]
    omega
  rw [hcounter]
  exact ⟨hexact, hstock⟩

/-! The getter. -/

theorem signalReady_getting (h : c.Getting) (hg : c.getter = .signal)
    (hs : c.signalReady = .ok c') : ({ c' with getter := .test } : Console).Getting := by
  obtain ⟨hexact, hstock⟩ := h.counts
  have hsig := h.signalled
  have hpending : c.pending = [] := by simp [pending, hg]
  have horder := h.order
  rw [hpending] at horder
  rcases signalReady_ok hs with ⟨hv, rfl⟩ | ⟨t, q, hv, hq, rfl⟩
  · have hstep : Counter.Step (fun _ => False) c.counter _ := .free hv
    refine ⟨h.head, h.tail, by simp, horder, h.found, ?_,
      hstep.exact (fun _ => False.elim) hexact, (hstep.stock (fun _ => id)).trans hstock⟩
    simp only [unsignalled, hg, if_true] at hsig
    exact hsig
  · have hb : c.counter.blocked = q.length + 1 := by simp [counter, hq]
    have hstep : Counter.Step (fun _ => False) c.counter _ := .wake hv hb
    have hcounter : ({ c with
        val := c.val + 1
        signals := c.signals + 1
        queueBlocked := q
        woken := c.woken ++ [t]
        getter := .test } : Console).counter =
        ⟨c.counter.val + 1, q.length, c.counter.signals + 1, c.counter.acquired + 1⟩ := by
      simp [counter, Nat.add_assoc]
    refine ⟨h.head, h.tail, by simp, horder, h.found, ?_, ?_⟩
    · simp only [unsignalled, hg, if_true] at hsig
      exact hsig
    · rw [hcounter]
      exact ⟨hstep.exact (fun _ => False.elim) hexact, (hstep.stock (fun _ => id)).trans hstock⟩

theorem getCharFromTerminal_getView (c : Console) (ch : UInt8) :
    (c.getCharFromTerminal ch).getView = c.getView := by
  unfold getCharFromTerminal
  split_ifs <;> rfl

/-- The getter goes on without a character in hand. -/
theorem Getting.goes (h : c.Getting) {g : GetterAt} (hfrom : c.pending = [])
    (hsig : c.getter ≠ .signal) (hto : g ≠ .advance ∧ g ≠ .signal)
    (htested : g = .store → c.headGet + 1 ≠ c.tailGet) :
    ({ c with getter := g } : Console).Getting := by
  refine ⟨h.head, h.tail, ?_, ?_, h.found, ?_, h.counts⟩
  · intro hg
    exact htested (hg.resolve_right hto.1)
  · have hpending : ({ c with getter := g } : Console).pending = [] := by
      unfold pending
      split
      next _ hg => exact absurd hg hto.1
      next => rfl
    rw [hpending, ← hfrom]
    exact h.order
  · have hs := h.signalled
    simp only [unsignalled, hsig, if_false] at hs
    simp only [unsignalled, hto.2, if_false]
    exact hs

theorem store_getting (h : c.Getting) (hg : c.getter = .store) (ch : UInt8) :
    ({ c.getCharFromTerminal ch with
      bufferGet := Function.update c.bufferGet c.headGet ch
      received := c.received ++ [ch]
      getter := .advance } : Console).Getting := by
  have hpending : c.pending = [] := by simp [pending, hg]
  have horder := h.order
  rw [hpending, List.append_nil] at horder
  have hitems : ringItems (Function.update c.bufferGet c.headGet ch) _ _ _ = c.unread :=
    ringItems_update h.tail h.head
  have hsig := h.signalled
  simp only [unsignalled, hg, reduceCtorEq, if_false] at hsig
  have hstored : ({ c with
      bufferGet := Function.update c.bufferGet c.headGet ch
      received := c.received ++ [ch]
      getter := .advance } : Console).Getting := by
    refine ⟨h.head, h.tail, fun _ => h.tested (Or.inl hg), ?_, h.found, ?_, h.counts⟩
    · simp only [taken, unread, pending, Function.update_self]
      rw [hitems, ← horder]
      rfl
    · simp only [unread, unsignalled, reduceCtorEq, if_false]
      rw [hitems]
      exact hsig
  apply hstored.congr
  have hv := getCharFromTerminal_getView c ch
  simp only [getView, Prod.mk.injEq] at hv ⊢
  simp [hv]

/-- `headGet` moves on, and not onto `tailGet`. -/
theorem advance_getting (h : c.Getting) (hg : c.getter = .advance)
    (hk : ¬(c.headGet = numOfChars - 1 ∧ c.tailGet = 0)) :
    ({ c with headGet := (c.headGet + 1) % numOfChars, getter := .signal } : Console).Getting := by
  have htested := h.tested (Or.inr hg)
  have hhead := h.head
  have hroom : (c.headGet + 1) % numOfChars ≠ c.tailGet := by
    rw [succ_mod hhead]
    split_ifs <;> omega
  have hpending : c.pending = [c.bufferGet c.headGet] := by simp [pending, hg]
  have horder := h.order
  rw [hpending, List.append_assoc] at horder
  have hadv : ringItems c.bufferGet numOfChars c.tailGet ((c.headGet + 1) % numOfChars) =
      c.unread ++ [c.bufferGet c.headGet] := ringItems_advance h.tail hhead hroom
  have hsig := h.signalled
  simp only [unsignalled, hg, reduceCtorEq, if_false] at hsig
  refine ⟨Nat.mod_lt _ (by decide), h.tail, by simp, ?_, h.found, ?_, h.counts⟩
  · simp only [unread, pending, List.append_nil]
    rw [hadv]
    exact horder
  · simp only [unread, unsignalled, if_true]
    rw [hadv, List.length_append, List.length_singleton]
    omega

theorem getter_getting (h : c.Getting) (hstep : c.getterThread hw ch = .ok c')
    (hk : Keeps c (.getter hw ch)) : c'.Getting := by
  rcases getterThread_ok hstep with ⟨hg, g, rfl, hcase⟩ | ⟨hg, rfl⟩ | ⟨hg, rfl⟩ | ⟨hg, c₁, hs, rfl⟩ |
    ⟨hg, rfl⟩
  · have hpending : c.pending = [] := by simp [pending, hg]
    rcases hcase with ⟨rfl, hne⟩ | rfl
    · exact h.goes hpending (by simp [hg]) (by decide) fun _ => hne
    · exact h.goes hpending (by simp [hg]) (by decide) (by simp)
  · exact store_getting h hg ch
  · exact advance_getting h hg fun hwrap => hk ⟨rfl, hg, hwrap⟩
  · exact signalReady_getting h hg hs
  · have hv := settleInterrupt_getView c hw
    have hget : (c.settleInterrupt hw).getter = .settle := by
      simp only [getView, Prod.mk.injEq] at hv
      exact hv.2.2.2.1.trans hg
    exact (h.congr hv).goes (by simp [pending, hget]) (by simp [hget]) (by decide) (by simp)

theorem step_getting (h : step c e = .ok c') (hp : c.Getting) (hk : Keeps c e) : c'.Getting := by
  cases e with
  | putc ch =>
    rcases putc_ok h with ⟨-, rfl⟩ | ⟨-, rfl⟩
    · exact hp
    · exact hp.congr rfl
  | getc t =>
    cases h
    exact getc_getting hp t
  | resume t =>
    obtain ⟨ht, rfl⟩ := resume_ok h
    exact resume_getting hp ht
  | putter hw =>
    obtain ⟨-, rfl⟩ := putter_ok h
    exact hp.congr (putterThread_getView c hw)
  | getter hw ch => exact getter_getting hp (getter_ok h).2 hk
  | interrupt n =>
    cases h
    unfold consoleInterruptHandler
    split_ifs
    · exact hp.congr rfl
    · exact hp
  | kill =>
    obtain ⟨-, rfl⟩ := kill_ok h
    exact hp.congr rfl

theorem Getting.kept (h : c.Getting) : c.Kept := by
  refine ⟨h.order, h.found, ?_, ?_⟩
  · intro _ i hi
    rw [unread, length_ringItems] at hi
    exact ring_slot_ne h.tail h.head hi
  · intro hq
    obtain ⟨hexact, hstock⟩ := h.counts
    have hs := h.signalled
    have hpos := List.length_pos_iff.2 hq
    simp only [Counter.Exact, Counter.stock, counter] at hexact hstock
    omega

/-- `headGet` on `tailGet` makes the full ring look empty. -/
theorem Kept.keeps (hp : c.Getting) (h : step c e = .ok c') (hk : c'.Kept) : Keeps c e := by
  rintro ⟨he, hg, hhead, htail⟩
  obtain ⟨hw, ch, rfl⟩ : ∃ hw ch, e = .getter hw ch := by
    cases e with
    | getter hw ch => exact ⟨hw, ch, rfl⟩
    | _ => cases he
  rcases getterThread_ok (getter_ok h).2 with ⟨hg', -⟩ | ⟨hg', -⟩ | ⟨-, rfl⟩ | ⟨hg', -⟩ | ⟨hg', -⟩
  · simp [hg] at hg'
  · simp [hg] at hg'
  · have hpending : c.pending = [c.bufferGet c.headGet] := by simp [pending, hg]
    have horder : c.taken ++ ringItems c.bufferGet numOfChars c.tailGet
      ((c.headGet + 1) % numOfChars) ++ [] = c.received := hk.order
    have hempty : (c.headGet + 1) % numOfChars = c.tailGet := by rw [hhead, htail]; rfl
    rw [hempty, ringItems_self, List.append_nil, List.append_nil] at horder
    have hlen := congrArg List.length (horder.trans hp.order.symm)
    simp [hpending] at hlen
  · simp [hg] at hg'
  · simp [hg] at hg'

/-- In every run in which the getter never moves `headGet` around the end onto a
`tailGet` of 0, what was stored is returned once and in order; the first step that
does so breaks this. -/
theorem getc_exact {es : List Event} (h : Run step Keeps start es c) :
    c.Kept ∧ ∀ e c', step c e = .ok c' → (c'.Kept ↔ Keeps c e) := by
  have hp : c.Getting := h.invariant Getting start_getting fun _ _ _ hp hk hs => step_getting hs hp hk
  exact ⟨hp.kept, fun e c' hs => ⟨Kept.keeps hp hs, fun hk => (step_getting hs hp hk).kept⟩⟩

/-- The getter's way around its loop with one character, which is not echoed. -/
def reception : List Event := List.replicate 4 (.getter ⟨true, false⟩ 10)

/-- A character is received and returned. -/
theorem getc_exact_one : ∃ c, Run step Keeps start (.interrupt 10 :: reception ++ [.getc 1]) c ∧
    c.taken = [10] ∧ c.Kept := by
  have hrun : ((some start).bind fun c =>
      exec step Keeps c (.interrupt 10 :: reception ++ [.getc 1])).any
      (fun c => c.taken = [10]) = true := by
    decide +kernel
  obtain ⟨c₀, c, ⟨⟩, h, htaken⟩ := exists_run hrun
  exact ⟨c, h, of_decide_eq_true htaken, (getc_exact h).1⟩

/-- `n` characters have been received and none has been asked for. -/
structure Filled (n : ℕ) (c : Console) : Prop where
  getter : c.getter = .test
  consoleInterrupt : c.consoleInterrupt = true
  killed : c.killed = false
  val : c.val = n
  queueBlocked : c.queueBlocked = []
  head : c.headGet = n % numOfChars
  tail : c.tailGet = 0
  received : c.received.length = n
  answers : c.answers = []

theorem reception_filled {n : ℕ} (h : Filled n c) :
    ∃ c', Run step (fun _ _ => True) c reception c' ∧ Filled (n + 1) c' := by
  obtain ⟨hget, hint, hkill, hval, hq, hhead, htail, hrec, hans⟩ := h
  let c₁ : Console := { c with getter := .store }
  let c₂ : Console := { c₁ with
    bufferGet := Function.update c.bufferGet c.headGet 10
    received := c.received ++ [10]
    getter := .advance }
  let c₃ : Console := { c₂ with headGet := (c.headGet + 1) % numOfChars, getter := .signal }
  let c₄ : Console := { c₃ with val := c.val + 1, signals := c.signals + 1, getter := .test }
  have h₁ : step c (.getter ⟨true, false⟩ 10) = .ok c₁ := by
    simp [step, getterThread, hkill, hget, hint, htail, c₁]
  have h₂ : step c₁ (.getter ⟨true, false⟩ 10) = .ok c₂ := by
    simp [step, getterThread, getCharFromTerminal, hkill, c₁, c₂]
  have h₃ : step c₂ (.getter ⟨true, false⟩ 10) = .ok c₃ := by
    simp [step, getterThread, hkill, c₁, c₂, c₃]
  have hpos : 0 < c.val + 1 := by omega
  have h₄ : step c₃ (.getter ⟨true, false⟩ 10) = .ok c₄ := by
    simp [step, getterThread, signalReady, Except.map, hkill, hpos, c₁, c₂, c₃, c₄]
  refine ⟨c₄, (((Run.nil.snoc trivial h₁).snoc trivial h₂).snoc trivial h₃).snoc trivial h₄,
    rfl, hint, hkill, ?_, hq, ?_, htail, ?_, hans⟩
  · simp [c₄, hval]
  · simp [c₃, c₄, hhead]
  · simp [c₂, c₃, c₄, hrec]

theorem receptions_filled (n : ℕ) : ∃ c, Run step (fun _ _ => True) start
    (.interrupt 10 :: (List.replicate n reception).flatten) c ∧ Filled n c := by
  induction n with
  | zero => exact ⟨_, Run.single trivial rfl, rfl, rfl, rfl, rfl, rfl, rfl, rfl, rfl, rfl⟩
  | succ n ih =>
    obtain ⟨c, hrun, hfilled⟩ := ih
    obtain ⟨c', hrun', hfilled'⟩ := reception_filled hfilled
    refine ⟨c', ?_, hfilled'⟩
    have h := hrun.trans hrun'
    rw [List.cons_append] at h
    rw [List.replicate_succ', List.flatten_append, List.flatten_singleton]
    exact h

/-- 1024 characters are received before the first `getc`. The last of them makes
the ring look empty, and the `getc` that its `wait` lets through finds nothing. -/
theorem getc_exact_fails : ∃ c, Run step (fun _ _ => True) start
      (.interrupt 10 :: (List.replicate 1024 reception).flatten ++ [.getc 1]) c ∧
    c.received.length = 1024 ∧ c.unread = [] ∧ c.answers = [(1, none)] := by
  obtain ⟨c, hrun, h⟩ := receptions_filled 1024
  have hval : 1 ≤ c.val := by rw [h.val]; decide
  have hempty : c.headGet = c.tailGet := by rw [h.head, h.tail]; rfl
  have hgetc : step c (.getc 1) = .ok { c with
      val := c.val - 1
      answers := c.answers ++ [(1, none)] } := by
    simp [step, getCharFromBuffer, takeChar, hval, hempty]
  refine ⟨_, hrun.snoc trivial hgetc, h.received, ?_, ?_⟩
  · simp [unread, hempty]
  · simp [h.answers]

end Console
end OSK
