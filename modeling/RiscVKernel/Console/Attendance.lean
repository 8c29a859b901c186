import RiscVKernel.Console.Driver
import RiscVKernel.Console.Printing
import RiscVKernel.Kernel.Fairness

/-! The two threads of the console: they have their turns until `main` is behind its loop, and
never from then on. -/

namespace OSK

open Lib Kernel

namespace Console

variable {c c' : Console} {hw : Status} {ch : UInt8}

/-! `kill` is the one step that changes `killed`. -/

theorem takeChar_killed (c : Console) (t : Tid) : (c.takeChar t).killed = c.killed := by
  unfold takeChar
  split_ifs <;> rfl

theorem settleInterrupt_killed (c : Console) (hw : Status) :
    (c.settleInterrupt hw).killed = c.killed := by
  unfold settleInterrupt
  split_ifs <;> rfl

theorem putterThread_killed (c : Console) (hw : Status) : (c.putterThread hw).killed = c.killed := by
  unfold putterThread
  cases c.putter with
  | settle => exact settleInterrupt_killed c hw
  | _ => rfl

theorem getCharFromTerminal_killed (c : Console) (ch : UInt8) :
    (c.getCharFromTerminal ch).killed = c.killed := by
  unfold getCharFromTerminal
  split_ifs <;> rfl

theorem getterThread_killed (h : c.getterThread hw ch = .ok c') : c'.killed = c.killed := by
  rcases getterThread_ok h with ⟨-, g, rfl, -⟩ | ⟨-, rfl⟩ | ⟨-, rfl⟩ | ⟨-, c₁, hs, rfl⟩ | ⟨-, rfl⟩
  · rfl
  · exact getCharFromTerminal_killed c ch
  · rfl
  · rcases signalReady_ok hs with ⟨-, rfl⟩ | ⟨t, q, -, -, rfl⟩ <;> rfl
  · exact settleInterrupt_killed c hw

end Console

namespace Driver

variable {x x' x₀ : Driver} {e : Event} {es : List Event} {e₀ : OSK.Event} {o : Option Context}
  {k k' : Kernel} {t : Tid} {th : Thread} {s : SemId} {killed : Bool} {start total : ℕ}

theorem trap_killed (h : x.trap e₀ = .ok (o, x')) : x'.console.killed = x.console.killed := by
  obtain ⟨k', -, rfl⟩ := trap_ok h
  dsimp only
  split_ifs
  · exact Console.takeChar_killed _ _
  · rfl

/-! What a step does to the kernel. -/

/-- The call of the kernel that a step makes. -/
def calls (x : Driver) : Event → Option OSK.Event
  | .call e => some e
  | .getc => some (.semWait (some x.characterReadyToGet))
  | .getter _ _ =>
    if x.console.getter = .signal then some (.semSignal (some x.characterReadyToGet)) else none
  | _ => none

def dispatches (x : Driver) (e : Event) : Bool := (x.calls e).any x.kernel.dispatches

/-- The parts of the driver that no step changes. -/
structure Same (x x' : Driver) : Prop where
  ready : x'.characterReadyToGet = x.characterReadyToGet
  putter : x'.putcThread = x.putcThread
  getter : x'.getcThread = x.getcThread

theorem Same.trans {y : Driver} (h : Same x y) (h' : Same y x') : Same x x' :=
  ⟨h'.ready.trans h.ready, h'.putter.trans h.putter, h'.getter.trans h.getter⟩

/-- What a step before the last one of `main` does, as far as the kernel can see. -/
structure Moves (x : Driver) (e : Event) (x' : Driver) : Prop where
  same : Same x x'
  killed : x'.console.killed = x.console.killed
  kernel : match x.calls e with
    | none => x'.kernel = x.kernel
    | some e => ∃ o, x.kernel.stepFrom e = .ok (o, x'.kernel)

theorem Moves.stay {d : Console} (hc : x.calls e = none) (hd : d.killed = x.console.killed) :
    x.Moves e { x with console := d } := by
  refine ⟨⟨rfl, rfl, rfl⟩, hd, ?_⟩
  rw [hc]

/-- A call, and what the console makes of it. -/
theorem Moves.call {d : Console} (h : x.trap e₀ = .ok (o, x'))
    (hc : x.calls e = some e₀) (hd : d.killed = x'.console.killed) :
    x.Moves e { x' with console := d } := by
  have hkilled := hd.trans (trap_killed h)
  obtain ⟨k', hk, rfl⟩ := trap_ok h
  refine ⟨⟨rfl, rfl, rfl⟩, hkilled, ?_⟩
  rw [hc]
  exact ⟨_, hk⟩

theorem step_moves (h : x.step e = .ok x') (he : e ≠ .finish) : x.Moves e x' := by
  cases e with
  | call e =>
    obtain ⟨o, htrap⟩ := call_ok h
    exact .call htrap rfl rfl
  | putc ch =>
    cases h
    refine .stay rfl ?_
    have hput : (x.console.putCharInBuffer ch).2.killed = x.console.killed := by
      unfold Console.putCharInBuffer
      split_ifs <;> rfl
    split_ifs
    · exact hput
    · exact hput
  | getc =>
    obtain ⟨o, x₁, htrap, rfl⟩ := getc_ok h
    split_ifs
    · exact .call htrap rfl (Console.takeChar_killed _ _)
    · exact .call htrap rfl rfl
  | putter hw =>
    obtain ⟨-, rfl⟩ := putter_ok h
    exact .stay rfl (Console.putterThread_killed _ _)
  | getter hw ch =>
    obtain ⟨-, h⟩ := getter_ok h
    rcases getterThread_ok h with ⟨hg, o, x₁, htrap, rfl⟩ | ⟨hg, c₁, hc, rfl⟩
    · exact .call htrap (if_pos hg) rfl
    · exact .stay (if_neg hg) (Console.getterThread_killed hc)
  | interrupt n =>
    cases h
    refine .stay rfl ?_
    unfold Console.consoleInterruptHandler
    split_ifs <;> rfl
  | finish => exact absurd rfl he

/-! The threads of the console. -/

/-- A thread of the console: until `main` has left its loop it is a child of `main` that runs or
is ready, and from then on it is dead. It never waits for a character. -/
structure Tended (k : Kernel) (s : SemId) (killed : Bool) (t : Tid) : Prop where
  named : t ≤ k.ID
  main : t ≠ mainThread
  idle : t ≠ k.running → ¬k.Resumes t (.block s)
  living : killed = false → k.Child mainThread t ∧ k.Up t
  dead : killed = true → ¬k.Alive t

/-- What the driver keeps. -/
structure Sane (x : Driver) : Prop where
  inv : x.kernel.Inv
  untimed : x.kernel.Untimed x.characterReadyToGet
  putter : Tended x.kernel x.characterReadyToGet x.console.killed x.putcThread
  getter : Tended x.kernel x.characterReadyToGet x.console.killed x.getcThread

/-- A thread of the console that has the processor has not been killed. -/
theorem Tended.running (ht : Tended k s killed t) (hi : k.Inv) (hrun : k.running = t) :
    killed = false := by
  cases killed with
  | false => rfl
  | true => exact absurd (hrun ▸ hi.running_alive) (ht.dead rfl)

/-- A call under which the thread, if it makes it, stays ready. -/
theorem Tended.stepFrom (ht : Tended k s killed t) (h : k.stepFrom e₀ = .ok (o, k')) (hi : k.Inv)
    (hv : victim e₀ = none) (hs : k.running = t → stops e₀ = false) : Tended k' s killed t := by
  have hstep := stepFrom_step h
  have hkill : ∀ t, e₀ ≠ .subtleKill t := by
    rintro t rfl
    cases hv
  refine ⟨ht.named.trans (step_fresh hstep hi).2.1, ht.main, ?_, ?_, ?_⟩
  · intro hne hr
    rcases (stepFrom_resumes h hi hkill hne).1 hr with ⟨hrun, hr⟩ | ⟨hrun, rfl⟩
    · exact ht.idle hrun hr
    · cases hs hrun.symm
  · intro hk
    obtain ⟨hc, hu⟩ := ht.living hk
    have ha : k'.Alive t := by
      rcases (step_passes hstep hi).survives t hu.alive with ha | hend
      · exact ha
      · rcases ended_iff.1 hend with ⟨rfl, rfl⟩ | rfl
        · cases hs rfl
        · cases hv
    refine ⟨hc.stays hstep hi ha, ha, ?_⟩
    rcases hu.place with rfl | hin
    · exact step_running hstep hi (hs rfl)
    · exact step_ready hstep hi hin ha
  · intro hk
    exact step_dead hstep hi ht.named (ht.dead hk)

/-- The calls of the kernel are those a run may make. -/
theorem Allowed.call (hp : Allowed x e) (hc : x.calls e = some e₀) : victim e₀ = none ∧
    (∀ n, e₀ ≠ .semTimedwait (some x.characterReadyToGet) n) ∧ (x.Attends → stops e₀ = false) := by
  cases e with
  | call e =>
    cases hc
    obtain ⟨he, hv, hat⟩ := hp
    refine ⟨hv, ?_, fun ha => ?_⟩
    · rintro n rfl
      exact he rfl
    · rcases hat ha with rfl | rfl <;> rfl
  | getc =>
    cases hc
    exact ⟨rfl, by simp, fun ha => absurd ha hp⟩
  | getter hw ch =>
    unfold calls at hc
    split_ifs at hc
    cases hc
    exact ⟨rfl, by simp, fun _ => rfl⟩
  | _ => cases hc

theorem Moves.sane (h : x.Moves e x') (hx : x.Sane) (hp : Allowed x e) : x'.Sane := by
  obtain ⟨⟨hready, hputter, hgetter⟩, hkilled, hkernel⟩ := h
  cases hc : x.calls e with
  | none =>
    rw [hc] at hkernel
    refine ⟨hkernel ▸ hx.inv, ?_, ?_, ?_⟩ <;> rw [hkernel, hready]
    · exact hx.untimed
    · rw [hkilled, hputter]
      exact hx.putter
    · rw [hkilled, hgetter]
      exact hx.getter
  | some e₀ =>
    rw [hc] at hkernel
    obtain ⟨o, hk⟩ := hkernel
    obtain ⟨hv, he, hs⟩ := hp.call hc
    refine ⟨step_inv (stepFrom_step hk) hx.inv, ?_, ?_, ?_⟩ <;> rw [hready]
    · exact hx.untimed.step hk he
    · rw [hkilled, hputter]
      exact hx.putter.stepFrom hk hx.inv hv fun hrun => hs (Or.inl hrun)
    · rw [hkilled, hgetter]
      exact hx.getter.stepFrom hk hx.inv hv fun hrun => hs (Or.inr hrun)

/-! `main` behind its loop. -/

theorem subtleKill_resumes {t₀ : Tid} (ht : t ≠ t₀) {c : Context} :
    (k.subtleKill t₀).2.Resumes t c ↔ k.Resumes t c := by
  unfold subtleKill
  split
  · rfl
  · split_ifs
    · rfl
    · rfl
    · rw [setFinished_resumes]
      simp [ht]

theorem resumes_subtleKill {t₀ : Tid} {c : Context} (h : (k.subtleKill t₀).2.Resumes t c) :
    k.Resumes t c := by
  unfold subtleKill at h
  split at h
  · exact h
  · split_ifs at h
    · exact h
    · exact h
    · exact ((setFinished_resumes ..).1 h).2

/-- A child of the running thread does not survive. -/
theorem child_ends (hc : k.Child k.running t) (hne : t ≠ k.running) :
    ¬(k.subtleKill t).2.Alive t := by
  obtain ⟨th, hth, -, hp⟩ := hc
  unfold subtleKill
  simp only [hth, hp, ne_eq, not_true, if_false, hne.symm]
  rw [setFinished_alive]
  exact fun h => h.1 rfl

theorem finish_ends (hi : k.Inv) (hrun : k.running = mainThread) {p g : Tid}
    (hp : Tended k s killed p) (hg : Tended k s killed g) :
    ¬((k.subtleKill p).2.subtleKill g).2.Alive p ∧ ¬((k.subtleKill p).2.subtleKill g).2.Alive g := by
  have hdown : ∀ {k : Kernel} {t₀ t : Tid}, (k.subtleKill t₀).2.Alive t → k.Alive t :=
    fun ⟨c, h⟩ => ⟨c, resumes_subtleKill h⟩
  cases killed with
  | true => exact ⟨fun h => hp.dead rfl (hdown (hdown h)), fun h => hg.dead rfl (hdown (hdown h))⟩
  | false =>
    have hpc : ¬(k.subtleKill p).2.Alive p :=
      child_ends (hrun ▸ (hp.living rfl).1) (hrun ▸ hp.main)
    refine ⟨fun h => hpc (hdown h), fun h => ?_⟩
    have hmid := hdown h
    have hstep : k.step (.subtleKill p) = .ok (k.subtleKill p).2 := rfl
    have hc := (hg.living rfl).1.stays hstep hi hmid
    have hsame := (subtleKill_stays k p).running.trans hrun
    exact child_ends (hsame ▸ hc) (hsame ▸ hg.main) h

theorem finish_sane (hx : x.Sane) (hrun : x.kernel.running = mainThread) : x.killConsole.Sane := by
  have hstays := (subtleKill_stays x.kernel x.putcThread).trans
    (subtleKill_stays (x.kernel.subtleKill x.putcThread).2 x.getcThread)
  have hmid : x.kernel.step (.subtleKill x.putcThread) = .ok (x.kernel.subtleKill x.putcThread).2 :=
    rfl
  have hend : (x.kernel.subtleKill x.putcThread).2.step (.subtleKill x.getcThread) =
      .ok x.killConsole.kernel := rfl
  obtain ⟨hp, hg⟩ := finish_ends hx.inv hrun hx.putter hx.getter
  have htended : ∀ t, Tended x.kernel x.characterReadyToGet x.console.killed t →
      ¬x.killConsole.kernel.Alive t →
      Tended x.killConsole.kernel x.characterReadyToGet true t := by
    intro t ht hdead
    exact ⟨ht.named.trans hstays.ID.ge, ht.main, fun _ hr => hdead ⟨_, hr⟩, by simp,
      fun _ => hdead⟩
  exact ⟨step_inv hend (step_inv hmid hx.inv), hx.untimed.sheds hstays.sheds, htended _ hx.putter hp,
    htended _ hx.getter hg⟩

theorem step_sane (hx : x.Sane) (hp : Allowed x e) (h : x.step e = .ok x') : x'.Sane := by
  by_cases he : e = .finish
  · subst he
    obtain ⟨hrun, -, rfl⟩ := finish_ok h
    exact finish_sane hx hrun
  · exact (step_moves h he).sane hx hp

/-! Runs. -/

/-- Nobody is the parent of `main`. -/
theorem run_orphan {P : Kernel → OSK.Event → Prop} {kb k : Kernel} {es : List OSK.Event}
    (hb : boot start total = some kb) (h : Run Kernel.step P kb es k) : k.Orphan mainThread :=
  (h.invariant (fun k => k.Inv ∧ k.Orphan mainThread) ⟨boot_inv hb, (boot_up hb).1⟩
    fun _ _ _ ⟨hi, ho⟩ _ hs => ⟨step_inv hs hi, step_orphan hs hi hi.main ho⟩).2

theorem Starts.unawaited (hs : Starts start total x) (ht : x.kernel.threads t = some th) :
    th.context ≠ .block x.characterReadyToGet ∧ th.context ≠ .timedBlock x.characterReadyToGet := by
  obtain ⟨kb, es, k, hb, hrun, hinit⟩ := hs.opened
  obtain ⟨hopen, -, hready⟩ := init_ok hinit
  rw [hready]
  exact newSem_unawaited (run_known hb hrun) hopen ht

theorem Starts.console (hs : Starts start total x) : x.console = Console.start := by
  obtain ⟨kb, es, k, hb, hrun, hinit⟩ := hs.opened
  exact (init_ok hinit).2.1

theorem Starts.inv (hs : Starts start total x) : x.kernel.Inv := by
  obtain ⟨kb, es, k, hb, hrun, hinit⟩ := hs.opened
  exact run_inv (hrun.snoc trivial (init_ok hinit).1) (boot_inv hb)

theorem Starts.tended (hs : Starts start total x) (ht : Created x.kernel t) :
    Tended x.kernel x.characterReadyToGet x.console.killed t := by
  obtain ⟨kb, es, k, hb, hrun, hinit⟩ := hs.opened
  have hc := ht.1
  obtain ⟨th, hth, -⟩ := id hc
  refine ⟨hs.inv.named hth, ?_, ?_, fun _ => ⟨hc, ht.up⟩, ?_⟩
  · rintro rfl
    exact run_orphan hb (hrun.snoc trivial (init_ok hinit).1) _ hc
  · rintro - ⟨th', hth', -, hc'⟩
    exact (hs.unawaited hth').1 hc'
  · rw [hs.console]
    simp [Console.start]

theorem Starts.sane (hs : Starts start total x) : x.Sane :=
  ⟨hs.inv, fun _ _ hth hc => absurd hc (hs.unawaited hth).2, hs.tended hs.putter,
    hs.tended hs.getter⟩

theorem run_sane (hs : Starts start total x₀) (h : Run step Allowed x₀ es x) : x.Sane :=
  h.invariant Sane hs.sane fun _ _ _ hx hp hs => step_sane hx hp hs

/-! Turns. -/

/-- No step takes a thread of the ready queue further from the processor, and each dispatch
brings it nearer. -/
theorem step_turn (hx : x.Sane) (hp : Allowed x e) (h : x.step e = .ok x')
    (hr : x.kernel.Ready t) : (x'.kernel.running = t ∨ e = .finish) ∨
      x'.kernel.Ready t ∧ place t x'.kernel + (if x.dispatches e then 1 else 0) ≤ place t x.kernel := by
  by_cases he : e = .finish
  · exact Or.inl (Or.inr he)
  have hkernel := (step_moves h he).kernel
  unfold dispatches
  cases hc : x.calls e with
  | none =>
    rw [hc] at hkernel
    exact Or.inr ⟨hkernel ▸ hr, hkernel ▸ Nat.le_refl _⟩
  | some e₀ =>
    rw [hc] at hkernel
    obtain ⟨o, hk⟩ := hkernel
    rcases step_hasTurn (stepFrom_step hk) hx.inv hr with (hrun | ⟨rfl, -⟩) | hready
    · exact Or.inl (Or.inl hrun)
    · cases (hp.call hc).1
    · exact Or.inr hready

/-- The names stay, and `killed` says whether `main` is behind its loop. -/
theorem run_same {P : Driver → Event → Prop} (h : Run step P x₀ es x) :
    Same x₀ x ∧ (x.console.killed = true ↔ x₀.console.killed = true ∨ .finish ∈ es) := by
  induction h with
  | nil => exact ⟨⟨rfl, rfl, rfl⟩, by simp⟩
  | @snoc es x e x' _ _ hstep ih =>
    obtain ⟨hsame, hkilled⟩ := ih
    by_cases he : e = .finish
    · subst he
      obtain ⟨-, -, rfl⟩ := finish_ok hstep
      exact ⟨hsame.trans ⟨rfl, rfl, rfl⟩, by simp [killConsole]⟩
    · obtain ⟨hsame', hkilled', -⟩ := step_moves hstep he
      refine ⟨hsame.trans hsame', ?_⟩
      rw [hkilled', hkilled, List.mem_append, List.mem_singleton]
      simp [Ne.symm he]

/-- Until `main` is behind its loop the two threads of the console are there, run or are ready,
and have the processor again after as many dispatches as there are threads in front, and one more.
From then on they never have it. -/
theorem console_attended (hs : Starts start total x₀) (h : Run step Allowed x₀ es x)
    (ht : t = x₀.putcThread ∨ t = x₀.getcThread) :
    (.finish ∉ es → Created x.kernel t ∧ (x.kernel.running ≠ t → ∀ es' x',
      Run step Allowed x es' x' → place t x.kernel + 1 ≤ tally step dispatches x es' →
        Met step Allowed (fun _ e x' => x'.kernel.running = t ∨ e = .finish) x es' x')) ∧
      (.finish ∈ es → x.kernel.running ≠ t) := by
  have hx := run_sane hs h
  obtain ⟨hsame, hkilled⟩ := run_same h
  have hstart : x₀.console.killed = false := by
    rw [hs.console]
    rfl
  rw [hstart] at hkilled
  have htended : Tended x.kernel x.characterReadyToGet x.console.killed t := by
    rcases ht with rfl | rfl
    · exact hsame.putter ▸ hx.putter
    · exact hsame.getter ▸ hx.getter
  refine ⟨fun hf => ?_, fun hf hrun => ?_⟩
  · have hk : x.console.killed = false := by
      rw [Bool.eq_false_iff]
      intro hk
      exact hf ((hkilled.1 hk).resolve_left (by simp))
    obtain ⟨hc, hu⟩ := htended.living hk
    refine ⟨⟨hc, hu.place⟩, fun hne es' x' h' hn => ?_⟩
    exact h'.served hx ⟨hu.alive, hu.place.resolve_left hne⟩
      (fun _ _ _ hx hp hs => step_sane hx hp hs)
      (fun _ _ _ hx hp hr hs => step_turn hx hp hs hr) hn
  · have hk := hkilled.2 (Or.inr hf)
    rw [htended.running hx.inv hrun] at hk
    cases hk

/-- The thread for printing is third in the queue. -/
theorem console_attended_two : ∃ x₀ x x', Starts 1024 1000 x₀ ∧ x₀.putcThread = 2 ∧
    Run step Allowed x₀ [.call .threadDispatch] x ∧ place 2 x.kernel = 2 ∧ Created x.kernel 2 ∧
    Run step Allowed x (List.replicate 3 (.call .threadDispatch)) x' ∧
    Met step Allowed (fun _ e x' => x'.kernel.running = 2 ∨ e = .finish) x
      (List.replicate 3 (.call .threadDispatch)) x' := by
  obtain ⟨x₀, hs, hq⟩ := @exists_starts 1024 1000 created 2 3 4 (fun x₀ =>
    (exec step Allowed x₀ [.call .threadDispatch]).any fun x =>
      (x₀.putcThread = 2 ∧ place 2 x.kernel = 2 ∧ x.kernel.running ≠ 2) ∧
      (exec step Allowed x (List.replicate 3 (.call .threadDispatch))).any fun _ =>
        place 2 x.kernel + 1 ≤ tally step dispatches x (List.replicate 3 (.call .threadDispatch)))
    (by decide +kernel)
  obtain ⟨x, hrun, hx⟩ := exists_run_from hq
  obtain ⟨⟨hputc, hplace, hne⟩, hx⟩ := of_decide_eq_true hx
  obtain ⟨x', hrun', hn⟩ := exists_run_from hx
  obtain ⟨hc, hturn⟩ := (console_attended hs hrun (Or.inl hputc.symm)).1 (by decide)
  exact ⟨x₀, x, x', hs, hputc, hrun, hplace, hc, hrun', hturn hne _ _ hrun' (of_decide_eq_true hn)⟩

end Driver
end OSK
