import RiscVKernel.Console.Attendance
import RiscVKernel.Kernel.Gates

/-! The console with its own semaphore is what the kernel with the console makes of it: each
step of the driver is a run of the console, over a caller that gets its character, or over
nothing. -/

namespace OSK

open Lib Kernel

namespace Console

/-- The state of `characterReadyToGet`. -/
def gate (c : Console) : Gate Tid := ⟨c.val, c.queueBlocked, c.woken⟩

/-- Another one. -/
def withReady (c : Console) (g : Gate Tid) : Console :=
  { c with val := g.val, queueBlocked := g.waiting, woken := g.woken }

variable {c c' : Console} {g g' : Gate Tid} {t : Tid} {hw : Status} {ch : UInt8}

/-! The semaphore of the console is a gate. -/

theorem takeChar_withReady (c : Console) (t : Tid) :
    (c.withReady g).takeChar t = (c.takeChar t).withReady g := by
  unfold takeChar withReady
  split_ifs <;> rfl

theorem getc_withReady (c : Console) (t : Tid) : step (c.withReady g) (.getc t) =
    .ok ((if 0 ≤ g.val - 1 then c.takeChar t else c).withReady (g.wait t)) := by
  refine congrArg Except.ok ?_
  unfold Gate.wait
  rcases getCharFromBuffer_eq (c.withReady g) t with ⟨hv, he⟩ | ⟨hv, he⟩
  · have hv : 0 ≤ g.val - 1 := hv
    rw [he, if_pos hv, if_pos hv, ← takeChar_withReady]
    rfl
  · have hv : ¬0 ≤ g.val - 1 := Int.not_le.2 hv
    rw [he, if_neg hv, if_neg hv]
    rfl

theorem resume_withReady (h : g.step (.resume t) = .ok g') :
    step (c.withReady g) (.resume t) = .ok ((c.takeChar t).withReady g') := by
  obtain ⟨ht, rfl⟩ := Gate.resume_ok h
  rw [← takeChar_withReady]
  exact if_pos ht

theorem signalReady_withReady (h : g.signal = .ok g') : (c.withReady g).signalReady =
    .ok ({ c with signals := c.signals + 1 }.withReady g') := by
  unfold signalReady withReady
  rcases Gate.signal_ok h with ⟨hv, rfl⟩ | ⟨a, q, hv, hq, rfl⟩
  · rw [if_pos hv]
  · rw [if_neg (Int.not_lt.2 hv), hq]

/-! Everything else leaves it alone. -/

theorem settleInterrupt_withReady (c : Console) (hw : Status) :
    (c.withReady g).settleInterrupt hw = (c.settleInterrupt hw).withReady g := by
  unfold settleInterrupt withReady
  split_ifs <;> rfl

theorem putterThread_withReady (c : Console) (hw : Status) :
    (c.withReady g).putterThread hw = (c.putterThread hw).withReady g := by
  unfold putterThread
  rw [settleInterrupt_withReady]
  cases hp : c.putter <;> simp only [withReady, hp]
  rfl

theorem putc_withReady (c : Console) (ch : UInt8) :
    step (c.withReady g) (.putc ch) = .ok ((if (c.putCharInBuffer ch).1 = 0 then
      { (c.putCharInBuffer ch).2 with accepted := (c.putCharInBuffer ch).2.accepted ++ [ch] }
      else (c.putCharInBuffer ch).2).withReady g) := by
  unfold step putCharInBuffer withReady
  dsimp only
  split_ifs <;> rfl

theorem consoleInterruptHandler_withReady (c : Console) (n : ℕ) :
    (c.withReady g).consoleInterruptHandler n = (c.consoleInterruptHandler n).withReady g := by
  unfold consoleInterruptHandler withReady
  split_ifs <;> rfl

theorem getCharFromTerminal_withReady (c : Console) (ch : UInt8) :
    (c.withReady g).getCharFromTerminal ch = (c.getCharFromTerminal ch).withReady g := by
  unfold getCharFromTerminal withReady
  split_ifs <;> rfl

/-- The statements of the getter other than `sem_signal`. -/
theorem getterThread_withReady (hg : c.getter ≠ .signal) (h : c.getterThread hw ch = .ok c') :
    (c.withReady g).getterThread hw ch = .ok (c'.withReady g) := by
  unfold getterThread at h ⊢
  rw [settleInterrupt_withReady, getCharFromTerminal_withReady]
  cases hp : c.getter with
  | signal => exact absurd hp hg
  | _ =>
    simp only [hp] at h
    cases h
    simp only [withReady, hp]

end Console

namespace Driver

variable {x x' : Driver} {c c' : Console} {g : Gate Tid} {e : OSK.Event} {o : Option Context}
  {k k' : Kernel} {start total : ℕ}

/-- The console `c` is at the same place, with the semaphore the kernel has. Its waiting and its
woken threads are the ones that are to go on behind the `wait` of `getCharFromBuffer`. -/
structure Follows (x : Driver) (c : Console) : Prop where
  same : c = x.console.withReady c.gate
  gated : x.kernel.Gated x.characterReadyToGet c.gate

/-- The thread that goes on behind a call takes its character. -/
theorem called_follows {s : SemId} (hs : s = x.characterReadyToGet)
    (hc : x.kernel.Called s e o k' g) (h : x.kernel.stepFrom e = .ok (o, k'))
    (hi : x.kernel.Inv) (hv : victim e = none) :
    ∃ ds c', Run Console.step Console.Keeps (x.console.withReady g) ds c' ∧
      Follows { x with
        kernel := k'
        console := if o = some (.block s) then x.console.takeChar k'.running else x.console } c' := by
  subst hs
  obtain ⟨g', hrun, hg'⟩ := hc.passes h hi hv
  unfold passing at hrun
  by_cases ho : o = some (.block x.characterReadyToGet)
  · rw [if_pos ho] at hrun ⊢
    have hresume := Console.resume_withReady (c := x.console) hrun.one.2
    exact ⟨_, _, .single (by rintro ⟨⟨⟩, -⟩) hresume, rfl, hg'⟩
  · rw [if_neg ho] at hrun ⊢
    obtain rfl := hrun.stays rfl
    exact ⟨[], _, .nil, rfl, hg'⟩

/-! The steps. -/

/-- A call that does not name `characterReadyToGet`. -/
theorem call_follows (hx : x.Sane) (hf : x.Follows c) (h : x.trap e = .ok (o, x'))
    (he : handle e ≠ some x.characterReadyToGet) (hv : victim e = none) :
    ∃ ds c', Run Console.step Console.Keeps c ds c' ∧ Follows x' c' := by
  obtain ⟨k', hk, rfl⟩ := trap_ok h
  rw [hf.same]
  exact called_follows rfl (hf.gated.other hk hx.inv hx.untimed he) hk hx.inv hv

/-- `getc`. -/
theorem getc_follows (hx : x.Sane) (hf : x.Follows c) (h : x.getc = .ok x') :
    ∃ ds c', Run Console.step Console.Keeps c ds c' ∧ Follows x' c' := by
  obtain ⟨o, x₁, htrap, rfl⟩ := getc_ok h
  obtain ⟨k', hk, rfl⟩ := trap_ok htrap
  obtain ⟨hnow, hc⟩ := hf.gated.wait hk hx.untimed
  have hget := Console.getc_withReady (g := c.gate) x.console x.kernel.running
  have hkeeps : Console.Keeps (x.console.withReady c.gate) (.getc x.kernel.running) := by
    rintro ⟨⟨⟩, -⟩
  rw [hf.same]
  by_cases ho : o = none
  · subst ho
    rw [if_pos (hnow.1 rfl)] at hget
    rw [if_pos rfl, if_neg (by simp), stepFrom_running hk]
    obtain ⟨g', hrun, hg'⟩ := hc.passes hk hx.inv rfl
    obtain rfl := hrun.stays rfl
    exact ⟨_, _, .single hkeeps hget, rfl, hg'⟩
  · rw [if_neg (mt hnow.2 ho)] at hget
    rw [if_neg ho]
    obtain ⟨ds, c', hrun, hf'⟩ := called_follows rfl hc hk hx.inv rfl
    exact ⟨_, c', (Run.single hkeeps hget).trans hrun, hf'⟩

/-- `sem_signal` of the getter. -/
theorem signal_follows (hx : x.Sane) (hf : x.Follows c) {hw : Status} {ch : UInt8}
    (hg : x.console.getter = .signal) (hk : x.console.killed = false)
    (h : x.trap (.semSignal (some x.characterReadyToGet)) = .ok (o, x')) :
    ∃ c', Console.step c (.getter hw ch) = .ok c' ∧ Follows { x' with
      console := { x'.console with signals := x'.console.signals + 1, getter := .test } } c' := by
  obtain ⟨k', hk', rfl⟩ := trap_ok h
  obtain ⟨rfl, g₁, hs, hc⟩ := hf.gated.signal hk'
  obtain ⟨g', hrun, hg'⟩ := hc.passes hk' hx.inv rfl
  obtain rfl := hrun.stays rfl
  refine ⟨({ x.console with signals := x.console.signals + 1, getter := .test } : Console).withReady g',
    ?_, ?_⟩
  · have hgetter : (x.console.withReady c.gate).getter = .signal := hg
    have hkilled : (x.console.withReady c.gate).killed = false := hk
    rw [hf.same]
    simp only [Console.step, Console.getterThread, hkilled, hgetter, Console.signalReady_withReady hs,
      Bool.false_eq_true, if_false]
    rfl
  · rw [if_neg (by simp)]
    exact ⟨rfl, hg'⟩

/-! The other steps. -/

theorem finish_follows (hx : x.Sane) (hf : x.Follows c) (hrun : x.kernel.running = mainThread)
    (hl : x.loops = false) : ∃ c', Console.step c .kill = .ok c' ∧ Follows x.killConsole c' := by
  obtain ⟨hp, hg⟩ := finish_ends hx.inv hrun hx.putter hx.getter
  have hprint : c.isThereAnythingToPrint = false := by
    rw [loops, Bool.or_eq_false_iff] at hl
    rw [hf.same]
    exact hl.2
  refine ⟨{ c with killed := true }, ?_, ?_, ?_⟩
  · simp [Console.step, hprint]
  · rw [hf.same]
    rfl
  obtain ⟨m, hm, hval, hq⟩ := hf.gated.sem
  have hsems : x.killConsole.kernel.sems = x.kernel.sems :=
    (subtleKill_sems _ _).trans (subtleKill_sems _ _)
  refine ⟨⟨m, (congrFun hsems _).trans hm, hval, hq⟩, fun t => ?_, hf.gated.apart⟩
  have hrun' : x.killConsole.kernel.running = x.kernel.running := ((subtleKill_stays _ _).trans
    (subtleKill_stays (x.kernel.subtleKill x.putcThread).2 x.getcThread)).running
  rw [hrun']
  refine (hf.gated.waits t).trans (and_congr_right fun hne => ?_)
  -- the two that are killed were not among them
  by_cases htp : t = x.putcThread
  · subst htp
    exact iff_of_false (hx.putter.idle hne) fun hr => hp ⟨_, hr⟩
  by_cases htg : t = x.getcThread
  · subst htg
    exact iff_of_false (hx.getter.idle hne) fun hr => hg ⟨_, hr⟩
  · exact ((subtleKill_resumes htg).trans (subtleKill_resumes htp)).symm

/-- A step of the console alone. -/
theorem Follows.device (hf : x.Follows c) {d : Console.Event} {c₁ : Console}
    (h : ∀ g, Console.step (x.console.withReady g) d = .ok (c₁.withReady g)) :
    ∃ c', Console.step c d = .ok c' ∧ Follows { x with console := c₁ } c' := by
  refine ⟨c₁.withReady c.gate, ?_, rfl, hf.gated⟩
  rw [← h]
  exact congrArg (Console.step · d) hf.same

theorem putter_follows (hx : x.Sane) (hf : x.Follows c) {hw : Status}
    (hrun : x.kernel.running = x.putcThread) :
    ∃ c', Console.step c (.putter hw) = .ok c' ∧
      Follows { x with console := x.console.putterThread hw } c' := by
  have hk := hx.putter.running hx.inv hrun
  refine hf.device fun g => ?_
  have hk' : (x.console.withReady g).killed = false := hk
  simp only [Console.step, hk', Bool.false_eq_true, if_false, Console.putterThread_withReady]

theorem getter_follows (hx : x.Sane) (hf : x.Follows c) {hw : Status} {ch : UInt8}
    (hrun : x.kernel.running = x.getcThread) (h : x.getterThread hw ch = .ok x') :
    ∃ c', Console.step c (.getter hw ch) = .ok c' ∧ Follows x' c' := by
  have hk := hx.getter.running hx.inv hrun
  rcases getterThread_ok h with ⟨hg, o, x₁, htrap, rfl⟩ | ⟨hg, c₁, hc, rfl⟩
  · exact signal_follows hx hf hg hk htrap
  · refine hf.device fun g => ?_
    have hk' : (x.console.withReady g).killed = false := hk
    simp only [Console.step, hk', Bool.false_eq_true, if_false, Console.getterThread_withReady hg hc]

/-- The console goes along with each step of the driver, in as many steps as it takes. -/
theorem step_follows {e : Event} (hx : x.Sane) (hf : x.Follows c) (hp : Allowed x e)
    (h : x.step e = .ok x') :
    ∃ ds c', Run Console.step (fun c d => Keeps x e → Console.Keeps c d) c ds c' ∧
      Follows x' c' := by
  have hcalls : ∀ {x' : Driver}, (∃ ds c', Run Console.step Console.Keeps c ds c' ∧ Follows x' c') →
      ∃ ds c', Run Console.step (fun c d => Keeps x e → Console.Keeps c d) c ds c' ∧
        Follows x' c' := by
    rintro x' ⟨ds, c', hrun, hf'⟩
    exact ⟨ds, c', hrun.mono fun _ _ hk _ => hk, hf'⟩
  cases e with
  | call e =>
    obtain ⟨he, hv, -⟩ := hp
    obtain ⟨o, htrap⟩ := call_ok h
    exact hcalls (call_follows hx hf htrap he hv)
  | putc ch =>
    have h : Except.ok { x with console := (if (x.console.putCharInBuffer ch).1 = 0 then
        { (x.console.putCharInBuffer ch).2 with
          accepted := (x.console.putCharInBuffer ch).2.accepted ++ [ch] }
        else (x.console.putCharInBuffer ch).2) } = .ok x' := h
    cases h
    obtain ⟨c', hstep, hf'⟩ := hf.device fun g => Console.putc_withReady x.console ch
    exact hcalls ⟨_, c', .single (by rintro ⟨⟨⟩, -⟩) hstep, hf'⟩
  | getc => exact hcalls (getc_follows hx hf h)
  | putter hw =>
    obtain ⟨hrun, rfl⟩ := putter_ok h
    obtain ⟨c', hstep, hf'⟩ := putter_follows hx hf hrun
    exact hcalls ⟨_, c', .single (by rintro ⟨⟨⟩, -⟩) hstep, hf'⟩
  | getter hw ch =>
    obtain ⟨hrun, h⟩ := getter_ok h
    obtain ⟨c', hstep, hf'⟩ := getter_follows hx hf hrun h
    refine ⟨_, c', .single (fun hk => ?_) hstep, hf'⟩
    rw [hf.same]
    exact hk
  | interrupt n =>
    cases h
    obtain ⟨c', hstep, hf'⟩ := hf.device (d := .interrupt n) fun g =>
      congrArg Except.ok (Console.consoleInterruptHandler_withReady x.console n)
    exact hcalls ⟨_, c', .single (by rintro ⟨⟨⟩, -⟩) hstep, hf'⟩
  | finish =>
    obtain ⟨hrun, hl, rfl⟩ := finish_ok h
    obtain ⟨c', hstep, hf'⟩ := finish_follows hx hf hrun hl
    exact hcalls ⟨_, c', .single (by rintro ⟨⟨⟩, -⟩) hstep, hf'⟩

end Driver
end OSK
