import Mathlib.Data.List.Chain
import RiscVKernel.Kernel.Children
import RiscVKernel.Kernel.SleepList
import RiscVKernel.Lib.Ranking

/-! A `PeriodicThread` over the kernel. Between two activations it sleeps for its period, and
`terminate` lets it run out; any other thread may have the processor between two of its
statements. -/

namespace OSK

open Lib

namespace Kernel

variable {k k' : Kernel} {e : Event} {t : Tid} {time : ℕ} {n : UInt64}

/-- How long `time_sleep_wrapper` lets a thread sleep. -/
def shortened (n : UInt64) : UInt64 := if n > (1 : UInt64) <<< 63 then n >>> 1 else n

theorem shortened_le (n : UInt64) : (shortened n).toNat ≤ 2 ^ 63 := by
  unfold shortened
  split_ifs with hgt
  · have hhalf : (n >>> 1).toNat = n.toNat / 2 := by
      rw [UInt64.toNat_shiftRight, Nat.shiftRight_eq_div_pow]
      rfl
    have hlt := n.toNat_lt
    omega
  · have hle : n.toNat ≤ ((1 : UInt64) <<< 63).toNat :=
      Nat.le_of_not_lt fun hlt => hgt (UInt64.lt_iff_toNat_lt.2 hlt)
    exact hle

theorem step_shortened : k.step (.timeSleep n) = k.step (.timeSleep (shortened n)) :=
  (timeSleep_eq (shortened_le n)).symm

/-- The clock goes on. -/
theorem step_sysTime_le (h : k.step e = .ok k') (hmax : k.sysTime + 1 < 2 ^ 64) :
    k.sysTime ≤ k'.sysTime := by
  by_cases he : e = .tick
  · subst he
    rw [tick_sysTime h, wrap, Nat.mod_eq_of_lt hmax]
    exact Nat.le_succ _
  · exact (step_sysTime h he).ge

/-- The thread `t` does not have the processor before `time`. -/
def Rests (k : Kernel) (t : Tid) (time : ℕ) : Prop :=
  time ≤ k.sysTime ∨ ∃ w, time ≤ w ∧ k.SleepsUntil t w

theorem Rests.running (hr : k.Rests t time) (ht : k.running = t) : time ≤ k.sysTime := by
  rcases hr with hle | ⟨w, -, loc, hl, hasleep, -⟩
  · exact hle
  · have hin : 0 < (loc t).inAsleep := by
      rw [hasleep]
      decide
    exact absurd ht.symm (hl.ne_running (hl.mem_asleep.2 hin))

theorem Rests.mono {time' : ℕ} (hr : k.Rests t time') (hle : time ≤ time') : k.Rests t time :=
  hr.imp hle.trans fun ⟨w, hw, hsleep⟩ => ⟨w, hle.trans hw, hsleep⟩

theorem Rests.step (hr : k.Rests t time) (h : k.step e = .ok k') (hi : k.Inv) (hs : k.SleepSorted)
    (hmax : k.sysTime + 1 < 2 ^ 64) : k'.Rests t time := by
  rcases hr with hle | ⟨w, hw, hsleep⟩
  · exact Or.inl (hle.trans (step_sysTime_le h hmax))
  by_cases hdue : e = .tick ∧ w ≤ k.incTime.sysTime
  · obtain ⟨rfl, hdue⟩ := hdue
    exact Or.inl ((hw.trans hdue).trans (tick_sysTime h).ge)
  · refine Or.inr ⟨w, hw, step_sleepsUntil h hi hs hsleep fun he => ?_⟩
    exact Nat.lt_of_not_le fun hle => hdue ⟨he, hle⟩

/-- A thread that sleeps does so for the whole time, when the clock does not go around. -/
theorem timeSleep_rests (h : k.step (.timeSleep n) = .ok k') (hi : k.Inv)
    (hmax : k.sysTime + (shortened n).toNat < 2 ^ 64) :
    k'.Rests k.running (k.sysTime + (shortened n).toNat) := by
  obtain ⟨loc, hl⟩ := hi.located
  rw [step_shortened] at h
  obtain ⟨loc', hl', hasleep, hwake⟩ := timeSleep_asleep h (shortened_le n) hl
  rw [wrap, Nat.mod_eq_of_lt hmax] at hwake
  exact Or.inr ⟨_, Nat.le_refl _, loc', hl', hasleep, hwake⟩

end Kernel

open Kernel

/-- Where `periodicActivation_wrapper` stands: at the condition of its loop, in
`periodicActivation`, in front of `sleep` with the period it has read, behind the loop. -/
inductive PeriodicStage
  | test
  | active
  | sleep (n : UInt64)
  | over
  deriving DecidableEq, Repr

/-- When `periodicActivation` was called and when it came back. -/
structure PeriodicActivation where
  began : ℕ
  returned : ℕ
  deriving DecidableEq, Repr

/-- The kernel and a `PeriodicThread` that has been started. The last activation comes first. -/
structure PeriodicThread where
  kernel : Kernel
  myHandle : Tid
  period : UInt64
  stage : PeriodicStage
  activations : List PeriodicActivation

namespace PeriodicThread

inductive Fault
  | kernel (f : OSK.Fault)
  | notRunning
  deriving DecidableEq, Repr

/-- A call of the running thread or a tick, `terminate`, a statement of the wrapper. -/
inductive Event
  | call (e : OSK.Event)
  | terminate
  | wrapper
  deriving DecidableEq, Repr

def trap (x : PeriodicThread) (e : OSK.Event) : Except Fault PeriodicThread :=
  match x.kernel.step e with
  | .error f => .error (.kernel f)
  | .ok k => .ok { x with kernel := k }

/-- The constructor does not take a period of 0. -/
def construct (periodWaiting : UInt64) : UInt64 := if periodWaiting = 0 then 1 else periodWaiting

def terminate (x : PeriodicThread) : PeriodicThread := { x with period := 0 }

/-- `periodicActivation` is called. -/
def activate (x : PeriodicThread) : PeriodicThread :=
  { x with
    stage := .active
    activations := ⟨x.kernel.sysTime, x.kernel.sysTime⟩ :: x.activations }

/-- `periodicActivation` comes back, and the period is read for `sleep`. -/
def comeBack (x : PeriodicThread) : PeriodicThread :=
  { x with
    stage := .sleep x.period
    activations := match x.activations with
      | [] => []
      | a :: as => { a with returned := x.kernel.sysTime } :: as }

/-- The next statement. `time_sleep` comes back at once when it is called with 0; behind the loop
`threadWrapper` exits. -/
def periodicActivationWrapper (x : PeriodicThread) : Except Fault PeriodicThread :=
  match x.stage with
  | .test => .ok (if x.period > 0 then x.activate else { x with stage := .over })
  | .active => .ok x.comeBack
  | .sleep n =>
    if n = 0 then .ok { x with stage := .test }
    else do
      let x ← x.trap (.timeSleep n)
      return { x with stage := .test }
  | .over => x.trap .threadExit

def step (x : PeriodicThread) : Event → Except Fault PeriodicThread
  | .call e => x.trap e
  | .terminate => .ok x.terminate
  | .wrapper =>
    if x.kernel.running = x.myHandle then x.periodicActivationWrapper else .error .notRunning

/-- `periodicActivation` may call what it likes. Elsewhere the thread is preempted. -/
def Allowed (x : PeriodicThread) : Event → Prop
  | .call e => x.kernel.running = x.myHandle → x.stage = .active ∨ e = .tick
  | _ => True

instance (x : PeriodicThread) : (e : Event) → Decidable (Allowed x e)
  | .call _ => inferInstanceAs (Decidable (_ → _))
  | .terminate => isTrue trivial
  | .wrapper => isTrue trivial

variable {x x' x₀ : PeriodicThread} {e : Event} {es es₀ : List Event} {p : UInt64}
  {start total : ℕ}

theorem trap_ok {e : OSK.Event} (h : x.trap e = .ok x') :
    ∃ k, x.kernel.step e = .ok k ∧ x' = { x with kernel := k } := by
  unfold trap at h
  cases hk : x.kernel.step e with
  | error f =>
    rw [hk] at h
    cases h
  | ok k =>
    rw [hk] at h
    cases h
    exact ⟨k, rfl, rfl⟩

/-- What a step can be. -/
inductive Does (x : PeriodicThread) : Event → PeriodicThread → Prop
  | call {e : OSK.Event} {k : Kernel} : x.kernel.step e = .ok k →
      Does x (.call e) { x with kernel := k }
  | terminate : Does x .terminate x.terminate
  | activate : x.kernel.running = x.myHandle → x.stage = .test → x.period ≠ 0 → Does x .wrapper x.activate
  | leave : x.kernel.running = x.myHandle → x.stage = .test → x.period = 0 →
      Does x .wrapper { x with stage := .over }
  | comeBack : x.kernel.running = x.myHandle → x.stage = .active → Does x .wrapper x.comeBack
  | skip : x.kernel.running = x.myHandle → x.stage = .sleep 0 →
      Does x .wrapper { x with stage := .test }
  | sleep {n : UInt64} {k : Kernel} : x.kernel.running = x.myHandle → x.stage = .sleep n → n ≠ 0 →
      x.kernel.step (.timeSleep n) = .ok k → Does x .wrapper { x with kernel := k, stage := .test }
  | exit {k : Kernel} : x.kernel.running = x.myHandle → x.stage = .over →
      x.kernel.step .threadExit = .ok k → Does x .wrapper { x with kernel := k }

theorem step_does (h : x.step e = .ok x') : x.Does e x' := by
  cases e with
  | call e =>
    obtain ⟨k, hk, rfl⟩ := trap_ok h
    exact .call hk
  | terminate =>
    cases h
    exact .terminate
  | wrapper =>
    have h : (if x.kernel.running = x.myHandle then x.periodicActivationWrapper
      else Except.error Fault.notRunning) = .ok x' := h
    split_ifs at h with hrun
    unfold periodicActivationWrapper at h
    split at h
    case h_1 hs =>
      cases h
      split_ifs with hp
      · exact .activate hrun hs (UInt64.pos_iff_ne_zero.1 hp)
      · exact .leave hrun hs (not_not.1 (mt UInt64.pos_iff_ne_zero.2 hp))
    case h_2 hs =>
      cases h
      exact .comeBack hrun hs
    case h_3 n hs =>
      split_ifs at h with hn
      · cases h
        exact .skip hrun (hn ▸ hs)
      · obtain ⟨x₁, htrap, h⟩ := bind_ok h
        cases h
        obtain ⟨k, hk, rfl⟩ := trap_ok htrap
        exact .sleep hrun hs hn hk
    case h_4 hs =>
      obtain ⟨k, hk, rfl⟩ := trap_ok h
      exact .exit hrun hs hk

/-! Between two activations. -/

/-- From one activation to the one after it. -/
def Spaced (p : UInt64) (next a : PeriodicActivation) : Prop :=
  a.returned + (shortened p).toNat ≤ next.began

/-- What the steps keep of a thread with the period `p`. In front of the condition of the loop it
has slept for the period, unless it has been terminated. -/
structure Keeps (p : UInt64) (x : PeriodicThread) : Prop where
  inv : x.kernel.Inv
  sorted : x.kernel.SleepSorted
  period : x.period = p ∨ x.period = 0
  asked : ∀ n, x.stage = .sleep n → n = p ∨ x.period = 0
  spaced : x.activations.IsChain (Spaced p)
  past : ∀ a ∈ x.activations, a.began ≤ a.returned ∧ a.returned ≤ x.kernel.sysTime
  rests : x.stage = .test → x.period = 0 ∨ ∀ a ∈ x.activations.head?,
    x.kernel.Rests x.myHandle (a.returned + (shortened p).toNat)

/-- The clock is more than a period away from its end. -/
def Early (p : UInt64) (x : PeriodicThread) (e : Event) : Prop :=
  Allowed x e ∧ x.kernel.sysTime + (shortened p).toNat + 1 < 2 ^ 64

instance (p : UInt64) (x : PeriodicThread) (e : Event) : Decidable (Early p x e) :=
  inferInstanceAs (Decidable (_ ∧ _))

theorem call_keeps {e : OSK.Event} {k : Kernel} (hx : x.Keeps p) (h : x.kernel.step e = .ok k)
    (hmax : x.kernel.sysTime + 1 < 2 ^ 64) : Keeps p { x with kernel := k } := by
  have hle := step_sysTime_le h hmax
  refine ⟨step_inv h hx.inv, step_sorted h hx.inv hx.sorted, hx.period, hx.asked, hx.spaced,
    fun a ha => ?_, fun hs => ?_⟩
  · exact ⟨(hx.past a ha).1, (hx.past a ha).2.trans hle⟩
  · exact (hx.rests hs).imp_right fun hr a ha => (hr a ha).step h hx.inv hx.sorted hmax

theorem activate_keeps (hx : x.Keeps p) (hrun : x.kernel.running = x.myHandle)
    (hs : x.stage = .test) (hp : x.period ≠ 0) : x.activate.Keeps p := by
  have hr := (hx.rests hs).resolve_left hp
  refine ⟨hx.inv, hx.sorted, hx.period, nofun, ?_, ?_, nofun⟩
  · exact List.isChain_cons.2 ⟨fun a ha => (hr a ha).running hrun, hx.spaced⟩
  · rintro a (_ | ⟨_, ha⟩)
    · exact ⟨Nat.le_refl _, Nat.le_refl _⟩
    · exact hx.past a ha

theorem comeBack_keeps (hx : x.Keeps p) : x.comeBack.Keeps p := by
  refine ⟨hx.inv, hx.sorted, hx.period, ?_, ?_, ?_, nofun⟩
  · rintro n hn
    cases hn
    exact hx.period
  · have hspaced := hx.spaced
    unfold comeBack
    cases hacts : x.activations with
    | nil => exact .nil
    | cons a as =>
      rw [hacts, List.isChain_cons] at hspaced
      exact List.isChain_cons.2 hspaced
  · have hpast := hx.past
    unfold comeBack
    cases hacts : x.activations with
    | nil => simp
    | cons a as =>
      rw [hacts] at hpast
      have ha := hpast a (List.mem_cons_self ..)
      rintro b (_ | ⟨_, hb⟩)
      · exact ⟨ha.1.trans ha.2, Nat.le_refl _⟩
      · exact hpast b (List.mem_cons_of_mem _ hb)

/-- The thread has read its period, and sleeps for it. -/
theorem sleep_keeps {n : UInt64} {k : Kernel} (hx : x.Keeps p) (hrun : x.kernel.running = x.myHandle)
    (hs : x.stage = .sleep n) (h : x.kernel.step (.timeSleep n) = .ok k)
    (hmax : x.kernel.sysTime + (shortened p).toNat + 1 < 2 ^ 64) :
    Keeps p { x with kernel := k, stage := .test } := by
  have hk := call_keeps hx h (Nat.lt_of_le_of_lt (Nat.add_le_add_right (Nat.le_add_right _ _) 1) hmax)
  refine ⟨hk.inv, hk.sorted, hk.period, nofun, hk.spaced, hk.past, fun _ => ?_⟩
  rcases hx.asked n hs with rfl | hp
  · refine Or.inr fun a ha => ?_
    have hrest := timeSleep_rests h hx.inv (Nat.lt_of_succ_lt hmax)
    rw [hrun] at hrest
    have hle := (hx.past a (List.mem_of_mem_head? ha)).2
    exact hrest.mono (Nat.add_le_add_right hle _)
  · exact Or.inl hp

theorem step_keeps (h : x.step e = .ok x') (hx : x.Keeps p) (hp : p ≠ 0) (he : Early p x e) :
    x'.Keeps p := by
  have hmax : x.kernel.sysTime + 1 < 2 ^ 64 :=
    Nat.lt_of_le_of_lt (Nat.add_le_add_right (Nat.le_add_right _ _) 1) he.2
  cases step_does h with
  | call hk => exact call_keeps hx hk hmax
  | terminate =>
    exact ⟨hx.inv, hx.sorted, Or.inr rfl, fun _ _ => Or.inr rfl, hx.spaced, hx.past,
      fun _ => Or.inl rfl⟩
  | activate hrun hs hp => exact activate_keeps hx hrun hs hp
  | leave =>
    exact ⟨hx.inv, hx.sorted, hx.period, nofun, hx.spaced, hx.past,
      nofun⟩
  | comeBack => exact comeBack_keeps hx
  | skip hrun hs =>
    -- the period that was read is 0: the thread has been terminated
    have hend := (hx.asked 0 hs).resolve_left (Ne.symm hp)
    exact ⟨hx.inv, hx.sorted, hx.period, nofun, hx.spaced, hx.past,
      fun _ => Or.inl hend⟩
  | sleep hrun hs hn hk => exact sleep_keeps hx hrun hs hk he.2
  | exit hrun hs hk => exact call_keeps hx hk hmax

/-- A `PeriodicThread` has been constructed and started, after anything the kernel may have done
before. -/
def Starts (start total : ℕ) (periodWaiting : UInt64) (x : PeriodicThread) : Prop :=
  ∃ kb es k body stack, boot start total = some kb ∧ Run Kernel.step (fun _ _ => True) kb es k ∧
    k.step (.threadCreate body stack) = .ok x.kernel ∧ x.myHandle = k.ID + 1 ∧
    x.period = construct periodWaiting ∧ x.stage = .test ∧ x.activations = []

/-- A first state that is computed, with what can be computed about it. -/
theorem exists_starts {es : List OSK.Event} {body : UInt64} {stack : ℕ} {q : PeriodicThread → Bool}
    (h : ((boot start total).bind fun kb => exec Kernel.step (fun _ _ => True) kb es).any (fun k =>
      (exec Kernel.step (fun _ _ => True) k [.threadCreate body stack]).any fun k' =>
        q ⟨k', k.ID + 1, construct p, .test, []⟩) = true) :
    ∃ x, Starts start total p x ∧ q x = true := by
  obtain ⟨kb, k, hb, hrun, hq⟩ := exists_run h
  obtain ⟨k', hone, hq⟩ := exists_run_from hq
  exact ⟨_, ⟨kb, es, k, body, stack, hb, hrun, hone.one.2, rfl, rfl, rfl, rfl⟩, hq⟩

theorem construct_ne_zero (p : UInt64) : construct p ≠ 0 := by
  unfold construct
  split_ifs with hp
  · decide
  · exact hp

theorem Starts.keeps (h : Starts start total p x) : x.Keeps (construct p) := by
  obtain ⟨kb, es, k, body, stack, hb, hrun, hcreate, -, hp, hs, hacts⟩ := h
  have hall := hrun.snoc trivial hcreate
  refine ⟨run_inv hall (boot_inv hb), run_sorted hb hall, Or.inl hp, ?_, ?_, ?_, ?_⟩
  · rw [hs]
    rintro n hn
    cases hn
  · rw [hacts]
    exact .nil
  · simp [hacts]
  · simp [hacts]

/-- However the thread is preempted and whatever it and the others call, two activations are at
least a period apart, from the return of the one to the beginning of the other. -/
theorem spaced (hs : Starts start total p x₀) (h : Run step (Early (construct p)) x₀ es x) :
    x.activations.IsChain (Spaced (construct p)) ∧
      ∀ a ∈ x.activations, a.began ≤ a.returned ∧ a.returned ≤ x.kernel.sysTime := by
  have hx : x.Keeps (construct p) := h.invariant (Keeps (construct p)) hs.keeps
    fun _ _ _ hx he hs => step_keeps hs hx (construct_ne_zero p) he
  exact ⟨hx.spaced, hx.past⟩

/-- An activation from 0 to 1, three ticks of sleep, and the next one. -/
theorem spaced_two : ∃ x₀ x, Starts 1024 1000 3 x₀ ∧
    Run step (Early (construct 3)) x₀ [.call .threadDispatch, .wrapper, .call .tick, .wrapper,
      .wrapper, .call .tick, .call .tick, .call .tick, .call .threadDispatch, .wrapper] x ∧
    x.activations = [⟨4, 4⟩, ⟨0, 1⟩] ∧ x.activations.IsChain (Spaced (construct 3)) := by
  have hrun : ((boot 1024 1000).bind fun kb =>
      exec Kernel.step (fun _ _ => True) kb [.memAlloc 65]).any (fun k =>
        (exec Kernel.step (fun _ _ => True) k [.threadCreate 4096 5328]).any fun k' =>
          (exec step (Early (construct 3)) ⟨k', k.ID + 1, construct 3, .test, []⟩
            [.call .threadDispatch, .wrapper, .call .tick, .wrapper, .wrapper, .call .tick,
              .call .tick, .call .tick, .call .threadDispatch, .wrapper]).any fun x =>
            x.activations = [⟨4, 4⟩, ⟨0, 1⟩]) = true := by
    decide +kernel
  obtain ⟨x₀, hs, hq⟩ := exists_starts (q := fun x₀ => (exec step (Early (construct 3)) x₀
    [.call .threadDispatch, .wrapper, .call .tick, .wrapper, .wrapper, .call .tick, .call .tick,
      .call .tick, .call .threadDispatch, .wrapper]).any fun x =>
        x.activations = [⟨4, 4⟩, ⟨0, 1⟩]) hrun
  obtain ⟨x, h, hx⟩ := exists_run_from hq
  exact ⟨x₀, x, hs, h, of_decide_eq_true hx, (spaced hs h).1⟩

/-! After `terminate`. -/

/-- How many statements a thread that has been terminated still makes before its exit. -/
def left (x : PeriodicThread) : ℕ :=
  match x.stage with
  | .active => 3
  | .sleep _ => 2
  | .test => 1
  | .over => 0

theorem step_kernel (h : x.step e = .ok x') : x'.myHandle = x.myHandle ∧
    (x'.kernel = x.kernel ∨ ∃ e₀, x.kernel.step e₀ = .ok x'.kernel) := by
  cases step_does h with
  | call hk => exact ⟨rfl, Or.inr ⟨_, hk⟩⟩
  | sleep _ _ _ hk => exact ⟨rfl, Or.inr ⟨_, hk⟩⟩
  | exit _ _ hk => exact ⟨rfl, Or.inr ⟨_, hk⟩⟩
  | _ => exact ⟨rfl, Or.inl rfl⟩

/-- The handle is the name of a thread there has been. -/
structure Named (x : PeriodicThread) : Prop where
  inv : x.kernel.Inv
  named : x.myHandle ≤ x.kernel.ID

theorem step_named (h : x.step e = .ok x') (hx : x.Named) : x'.Named := by
  obtain ⟨hsame, hk | ⟨e₀, hk⟩⟩ := step_kernel h
  · exact ⟨hk ▸ hx.inv, hsame ▸ hk ▸ hx.named⟩
  · exact ⟨step_inv hk hx.inv, hsame ▸ hx.named.trans (step_fresh hk hx.inv).2.1⟩

theorem step_exited (h : x.step e = .ok x') (hx : x.Named) (hd : ¬x.kernel.Alive x.myHandle) :
    ¬x'.kernel.Alive x'.myHandle := by
  obtain ⟨hsame, hk | ⟨e₀, hk⟩⟩ := step_kernel h
  · rwa [hsame, hk]
  · rw [hsame]
    exact step_dead hk hx.inv hx.named hd

theorem Starts.named (h : Starts start total p x) : x.Named := by
  obtain ⟨kb, es, k, body, stack, hb, hrun, hcreate, hhandle, -⟩ := h
  refine ⟨run_inv (hrun.snoc trivial hcreate) (boot_inv hb), ?_⟩
  rw [hhandle]
  obtain ⟨p, hp, k₁, -, -, hk⟩ := (newThread_ok hcreate).2
  exact (congrArg Kernel.ID hk).ge

theorem step_terminated (h : x.step e = .ok x') (hp : x.period = 0) :
    x'.period = 0 ∧ x'.activations.length = x.activations.length := by
  cases step_does h with
  | activate _ _ hne => exact absurd hp hne
  | terminate => exact ⟨rfl, rfl⟩
  | comeBack =>
    refine ⟨hp, ?_⟩
    unfold comeBack
    cases x.activations with
    | nil => rfl
    | cons a as => rfl
  | _ => exact ⟨hp, rfl⟩

/-- A thread that has been terminated goes on towards its exit. -/
theorem step_left (h : x.step e = .ok x') (hx : x.Named) (hp : x.period = 0) :
    ¬x'.kernel.Alive x'.myHandle ∨ x'.left + (if e = .wrapper then 1 else 0) ≤ x.left := by
  cases step_does h with
  | call => exact Or.inr (Nat.le_refl _)
  | terminate => exact Or.inr (Nat.le_refl _)
  | activate _ _ hne => exact absurd hp hne
  | leave _ hs => exact Or.inr (by simp [left, hs])
  | comeBack _ hs => exact Or.inr (by simp [left, comeBack, hs])
  | skip _ hs => exact Or.inr (by simp [left, hs])
  | sleep _ hs => exact Or.inr (by simp [left, hs])
  | exit hrun _ hk => exact Or.inl fun ha => ((exit_alive hk hx.inv).1 ha).2 hrun.symm

/-- A thread that has been terminated begins no activation any more, and after as many statements
as it had left, and one more, it has exited, whoever else had the processor in between. -/
theorem terminated (hs : Starts start total p x₀) (h₀ : Run step Allowed x₀ es₀ x)
    (hp : x.period = 0) (h : Run step Allowed x es x') :
    x'.activations.length = x.activations.length ∧
      (x.left + 1 ≤ es.count .wrapper → ¬x'.kernel.Alive x'.myHandle) := by
  have hx : x.Named := h₀.invariant Named hs.named fun _ _ _ hx _ hs => step_named hs hx
  refine ⟨(h.invariant (fun y => y.period = 0 ∧ y.activations.length = x.activations.length)
    ⟨hp, rfl⟩ fun y e y' hy _ hs => ?_).2, fun hn => ?_⟩
  · obtain ⟨hp', hlen⟩ := step_terminated hs hy.1
    exact ⟨hp', hlen.trans hy.2⟩
  exact h.settles (fun y => y.Named ∧ y.period = 0) (fun y => ¬y.kernel.Alive y.myHandle) left
    ⟨hx, hp⟩
    (fun _ _ _ hy _ hs => ⟨step_named hs hy.1, (step_terminated hs hy.2).1⟩)
    (fun _ _ _ hy _ hs => step_left hs hy.1 hy.2) (fun _ _ _ hy _ hs => step_exited hs hy.1) hn

/-- `terminate` comes when the period has been read: one more sleep, and the exit. -/
theorem terminated_two : ∃ x₀ x x', Starts 1024 1000 3 x₀ ∧
    Run step Allowed x₀ [.call .threadDispatch, .wrapper, .call .tick, .wrapper, .terminate] x ∧
    Run step Allowed x [.wrapper, .call .tick, .call .tick, .call .tick, .call .threadDispatch,
      .wrapper, .wrapper] x' ∧
    x'.activations.length = x.activations.length ∧ ¬x'.kernel.Alive x'.myHandle := by
  have hrun : ((boot 1024 1000).bind fun kb =>
      exec Kernel.step (fun _ _ => True) kb [.memAlloc 65]).any (fun k =>
        (exec Kernel.step (fun _ _ => True) k [.threadCreate 4096 5328]).any fun k' =>
          (exec step Allowed ⟨k', k.ID + 1, construct 3, .test, []⟩ [.call .threadDispatch,
            .wrapper, .call .tick, .wrapper, .terminate]).any fun x =>
            (x.period = 0 ∧ x.left = 2) ∧ (exec step Allowed x [.wrapper, .call .tick, .call .tick,
              .call .tick, .call .threadDispatch, .wrapper, .wrapper]).isSome = true) = true := by
    decide +kernel
  obtain ⟨x₀, hs, hq⟩ := exists_starts (q := fun x₀ => (exec step Allowed x₀ [.call .threadDispatch,
    .wrapper, .call .tick, .wrapper, .terminate]).any fun x =>
      (x.period = 0 ∧ x.left = 2) ∧ (exec step Allowed x [.wrapper, .call .tick, .call .tick,
        .call .tick, .call .threadDispatch, .wrapper, .wrapper]).isSome = true) hrun
  obtain ⟨x, h₀, hx⟩ := exists_run_from hq
  obtain ⟨⟨hp, hleft⟩, hsome⟩ := of_decide_eq_true hx
  obtain ⟨x', hx'⟩ := Option.isSome_iff_exists.1 hsome
  have h := run_of_exec hx'
  obtain ⟨hlen, hdead⟩ := terminated hs h₀ hp h
  refine ⟨x₀, x, x', hs, h₀, h, hlen, hdead ?_⟩
  rw [hleft]
  decide

end PeriodicThread
end OSK
