import RiscVKernel.Kernel.Handles
import RiscVKernel.User.Idle

/-! The loop of `main` and the memory it reads. Whether the idle thread has finished is what its
record says, and behind its exit the record is free memory, in which a new one can be made. -/

namespace OSK

open Lib Kernel

/-- The system with the memory, and the variable `idle_thread` of `main`. -/
structure MainLoop where
  system : System
  mem : Memory
  idleThread : ℕ

namespace MainLoop

abbrev kernel (x : MainLoop) : Kernel := x.system.driver.kernel

/-- The condition of the loop. -/
def loops (x : MainLoop) : Bool :=
  !x.mem.isFinished x.idleThread || x.system.driver.console.isThereAnythingToPrint

/-- A step of the system, after which user code finds the memory `e.2`. `main` gets behind its loop
when the condition is false. -/
def step (x : MainLoop) (e : System.Event × Memory) : Except Driver.Fault MainLoop :=
  if e.1 = .step .finish ∧ x.loops = true then .error .looping
  else do
    let s ← x.system.step e.1
    return { x with system := s, mem := e.2 }

/-- What a step leaves in memory. Where the idle thread has its magic number nothing but a record
puts one. -/
structure Leaves (x x' : MainLoop) : Prop where
  writes : Writes x.kernel x'.kernel x'.mem
  unforged : x'.mem (x.idleThread + myMagicNumberOffset) = threadMagicNumber →
    x.mem (x.idleThread + myMagicNumberOffset) = threadMagicNumber ∨
      ∃ t, x'.kernel.threads t ≠ none ∧ x'.kernel.threadAddr t = x.idleThread

def Allowed (x : MainLoop) (e : System.Event × Memory) : Prop :=
  x.system.Allowed e.1 ∧ ∀ x', x.step e = .ok x' → Leaves x x'

/-- The step makes no record at the address that the idle thread's has, or had. -/
def Spares (x : System) (a : ℕ) (e : System.Event) : Prop :=
  ∀ e₀ ∈ x.calls e, a ∉ x.driver.kernel.creates e₀

instance (x : System) (a : ℕ) (e : System.Event) : Decidable (Spares x a e) :=
  inferInstanceAs (Decidable (∀ e₀ ∈ x.calls e, _))

/-- The threads of `main` are made, `init` has run, and the handle is that of the idle thread. -/
structure Starts (start total : ℕ) (x : MainLoop) : Prop where
  system : System.Starts start total x.system
  handle : x.idleThread = x.kernel.threadAddr x.system.driver.idleThread
  shows : x.mem.Shows x.kernel

variable {x x' x₀ : MainLoop} {s s' : System} {e : System.Event × Memory} {ev : System.Event}
  {es : List (System.Event × Memory)} {start total a : ℕ} {t : Tid}

theorem step_ok (h : x.step e = .ok x') : x.system.step e.1 = .ok x'.system ∧ x'.mem = e.2 ∧
    x'.idleThread = x.idleThread ∧ (e.1 = .step .finish → x.loops = false) := by
  unfold step at h
  split_ifs at h with hl
  obtain ⟨s, hs, h⟩ := bind_ok h
  cases h
  exact ⟨hs, rfl, rfl, fun he => by simpa [he] using hl⟩

/-! What a step does to the records. -/

/-- A record that is there after a step was there before, at the same place, or a call has made
it. -/
structure Tends (start total : ℕ) (s : System) (ev : System.Event) (s' : System) : Prop where
  inv : s'.driver.kernel.Inv
  stored : s'.driver.kernel.Stored start total
  addr : ∀ t ≤ s.driver.kernel.ID, s'.driver.kernel.threadAddr t = s.driver.kernel.threadAddr t
  recorded : ∀ t, s'.driver.kernel.threads t ≠ none → s.driver.kernel.threads t ≠ none ∨
    ∃ e₀ ∈ s.calls ev, s'.driver.kernel.threadAddr t ∈ s.driver.kernel.creates e₀

theorem step_tends (h : s.step ev = .ok s') (hi : s.driver.kernel.Inv)
    (hs : s.driver.kernel.Stored start total) : Tends start total s ev s' := by
  by_cases he : ev = .step .finish
  · subst he
    obtain ⟨d, hd, h⟩ := bind_ok h
    cases h
    obtain ⟨-, -, rfl⟩ := Driver.finish_ok hd
    have hstays := (subtleKill_stays s.driver.kernel s.driver.putcThread).trans
      (subtleKill_stays _ s.driver.getcThread)
    have hinv : ∀ {k : Kernel} (t : Tid), k.Inv → (k.subtleKill t).2.Inv := fun t hi =>
      step_inv (e := .subtleKill t) rfl hi
    refine ⟨hinv _ (hinv _ hi), subtleKill_stored _ (subtleKill_stored _ hs),
      fun t _ => congrFun hstays.threadAddr t, fun t ht => Or.inl ?_⟩
    rw [← Option.isSome_iff_ne_none] at ht ⊢
    rwa [← hstays.isSome t]
  · rcases System.step_kernel h he with ⟨-, hk⟩ | ⟨e₀, hc, hk⟩
    · rw [← hk] at hi hs
      exact ⟨hi, hs, fun t _ => by rw [hk], fun t ht => Or.inl (hk ▸ ht)⟩
    · refine ⟨step_inv hk hi, step_stored hk hi hs, fun t ht => step_threadAddr hk ht, fun t ht => ?_⟩
      rcases step_recorded hk ht with hold | ⟨⟨body, stack, rfl⟩, rfl⟩
      · exact Or.inl hold
      · obtain ⟨a, hborn⟩ := newThread_born hk hs
        exact Or.inr ⟨_, hc, hborn.addr ▸ hborn.record⟩

/-! What `main` reads. -/

/-- What the steps keep. -/
structure Keeps (start total : ℕ) (x : MainLoop) : Prop where
  system : x.system.Keeps
  stored : x.kernel.Stored start total
  handle : x.idleThread = x.kernel.threadAddr x.system.driver.idleThread
  shows : x.mem.Shows x.kernel

/-- As long as the idle thread has a record, `main` reads what it says. -/
theorem Keeps.isFinished (hx : x.Keeps start total)
    (hrec : x.kernel.threads x.system.driver.idleThread ≠ none) :
    x.mem.isFinished x.idleThread = x.kernel.isFinished x.system.driver.idleThread := by
  rw [hx.handle]
  exact shows_isFinished hx.shows hx.stored hrec

theorem gone_isFinished {k : Kernel} (h : k.threads t = none) : k.isFinished t = true := by
  simp [Kernel.isFinished, h]

/-- Behind the loop of `main` the idle thread has finished. -/
theorem Keeps.over (hx : x.Keeps start total) (hl : x.loops = false) :
    x.system.driver.loops = false := by
  unfold loops at hl
  rw [Bool.or_eq_false_iff, Bool.not_eq_false'] at hl
  have hfin : x.kernel.isFinished x.system.driver.idleThread = true := by
    by_cases hrec : x.kernel.threads x.system.driver.idleThread = none
    · exact gone_isFinished hrec
    · exact hx.isFinished hrec ▸ hl.1
  unfold Driver.loops
  rw [Bool.or_eq_false_iff, Bool.not_eq_false']
  exact ⟨hfin, hl.2⟩

theorem step_idleThread (h : s.step ev = .ok s') : s'.driver.idleThread = s.driver.idleThread := by
  rcases System.step_driver h with hd | ⟨e₀, hd⟩
  · rw [hd]
  · exact System.driver_idleThread hd

theorem step_keeps (h : x.step e = .ok x') (hx : x.Keeps start total) (hp : Allowed x e) :
    x'.Keeps start total := by
  obtain ⟨hs, hmem, hhandle, -⟩ := step_ok h
  have htends := step_tends hs hx.system.sane.inv hx.stored
  obtain ⟨gone, ht, -⟩ := hx.system.tended
  refine ⟨System.step_keeps hs hx.system hp.1, htends.stored, ?_, (hp.2 x' h).writes.records⟩
  rw [hhandle, hx.handle, kernel, step_idleThread hs, htends.addr _ ht.named]

theorem Starts.keeps (hs : Starts start total x) : x.Keeps start total := by
  obtain ⟨kb, es, k, hb, hrun, hinit⟩ := hs.system.driver.opened
  obtain ⟨hi, hst⟩ := run_stored hb hrun
  exact ⟨hs.system.keeps, step_stored (Driver.init_ok hinit).1 hi hst, hs.handle, hs.shows⟩

/-- When the record of the idle thread is gone, nothing looks like it at its place. -/
def Empty (x : MainLoop) : Prop :=
  x.kernel.threads x.system.driver.idleThread = none → Vacant x.idleThread ⟨x.kernel, x.mem⟩

/-- The idle thread has its record. -/
theorem Starts.empty (hs : Starts start total x) : x.Empty := by
  obtain ⟨⟨th, hth, -⟩, -⟩ := hs.system.created
  intro hgone
  exact absurd (hth.symm.trans hgone) (by simp)

theorem run_keeps (hs : Starts start total x₀) (h : Run step Allowed x₀ es x) :
    x.Keeps start total :=
  h.invariant _ hs.keeps fun _ _ _ hx hp hs => step_keeps hs hx hp

/-- The runs with memory are runs of the system. -/
theorem run_system (h : Run step Allowed x₀ es x) :
    Run System.step System.Allowed x₀.system (es.map (·.1)) x.system := by
  have hsim : ∃ s, Run System.step System.Allowed x₀.system (es.map (·.1)) s ∧ x.system = s := by
    refine h.simulates (·.1) (fun x s => x.system = s) rfl ?_
    rintro x s e x' rfl hp hstep
    exact ⟨hp.1, x'.system, (step_ok hstep).1, rfl⟩
  obtain ⟨s, hrun, rfl⟩ := hsim
  exact hrun

/-! Behind the exit of the idle thread. -/

theorem step_empty (h : x.step e = .ok x') (hx : x.Keeps start total) (hp : Allowed x e)
    (hc : Spares x.system x.idleThread e.1) (hv : x.Empty) : x'.Empty := by
  obtain ⟨hs, hmem, hhandle, -⟩ := step_ok h
  have hi := hx.system.sane.inv
  have htends := step_tends hs hi hx.stored
  have hleaves := hp.2 x' h
  intro hgone
  rw [step_idleThread hs] at hgone
  have hrecords : ∀ t, x'.kernel.threads t ≠ none → x'.kernel.threadAddr t ≠ x'.idleThread := by
    intro t ht ha
    rw [hhandle] at ha
    rcases htends.recorded t ht with hold | ⟨e₀, he, hmade⟩
    · obtain ⟨th, hth⟩ := Option.ne_none_iff_exists'.1 hold
      have hsame : x.kernel.threadAddr t = x.idleThread := (htends.addr t (hi.named hth)).symm.trans ha
      by_cases hrec : x.kernel.threads x.system.driver.idleThread = none
      · exact (hv hrec).records t hold hsame
      · have hself := hx.stored.records_apart hold hrec (hsame.trans hx.handle)
        exact ht (hself ▸ hgone)
    · exact hc e₀ he (ha ▸ hmade)
  refine ⟨hrecords, fun hmagic => ?_⟩
  rw [hhandle] at hmagic hrecords
  by_cases hrec : x.kernel.threads x.system.driver.idleThread = none
  · rcases hleaves.unforged hmagic with hold | ⟨t, ht, ha⟩
    · exact (hv hrec).magic hold
    · exact hrecords t ht ha
  · have hdump := hleaves.writes.dumped _ hrec hgone
    rw [← hx.handle] at hdump
    exact absurd (hmagic.symm.trans hdump) (by decide)

/-- A record that is made there looks like that of a thread that has not finished. -/
theorem step_reused (h : x.step e = .ok x') (hx : x.Keeps start total) (hp : Allowed x e)
    (hc : ¬Spares x.system x.idleThread e.1) : x'.loops = true := by
  obtain ⟨hs, -, hhandle, -⟩ := step_ok h
  simp only [Spares, not_forall, not_not] at hc
  obtain ⟨e₀, he, hmade⟩ := hc
  have hcalls : x.system.calls e.1 = some e₀ := he
  have hne : e.1 ≠ .step .finish := by
    rintro hfin
    rw [hfin] at hcalls
    cases hcalls
  obtain ⟨e₁, he₁, hk⟩ := (System.step_kernel hs hne).resolve_left fun hn => by simp [hn.1] at hcalls
  obtain rfl : e₀ = e₁ := Option.some.inj (hcalls.symm.trans he₁)
  obtain ⟨body, stack, rfl⟩ : ∃ body stack, e₀ = .threadCreate body stack := by
    cases e₀ <;> first | exact ⟨_, _, rfl⟩ | cases hmade
  obtain ⟨a, hborn⟩ := newThread_born hk hx.stored
  obtain rfl : x.idleThread = a := Option.some.inj (hmade.symm.trans hborn.record)
  have hread := shows_isFinished (hp.2 x' h).writes.records
    (step_tends hs hx.system.sane.inv hx.stored).stored (t := x.kernel.ID + 1) (by simp [hborn.born])
  rw [hborn.addr] at hread
  unfold loops
  rw [hhandle, hread]
  simp [Kernel.isFinished, hborn.born, newborn]

/-- `main` does not leave its loop before `userMain` has returned. When it has, and the idle thread
has made three more statements, only characters that are to be printed keep `main` in its loop, if
no record is made at the address of the idle thread's; after a step that makes one there `main`
loops. -/
theorem main_waits (hs : Starts start total x₀) (h : Run step Allowed x₀ es x) :
    (x.loops = false ∨ .step .finish ∈ es.map (·.1) → .funcWrapper ∈ es.map (·.1)) ∧
      (∀ es₁ es₂, es = es₁ ++ es₂ → .funcWrapper ∈ es₁.map (·.1) → 3 ≤ (es₂.map (·.1)).count .idle →
        Run step (fun x e => Allowed x e ∧ Spares x.system x.idleThread e.1) x₀ es x →
          x.loops = x.system.driver.console.isThereAnythingToPrint) ∧
      ∀ e x', x.step e = .ok x' → Allowed x e → ¬Spares x.system x.idleThread e.1 →
        x'.loops = true := by
  have hx := run_keeps hs h
  refine ⟨fun hend => ?_, ?_, fun e x' hstep hp hc => step_reused hstep hx hp hc⟩
  · exact System.returned_first hs.system (run_system h) (hend.imp_left hx.over)
  · rintro es₁ es₂ rfl hin hn hspares
    obtain ⟨x₁, h₁, h₂, -⟩ := h.split
    have hfin := System.idle_exits hs.system (run_system h₁) hin (run_system h₂) hn
    have hempty : x.Empty :=
      (hspares.invariant (fun x => x.Keeps start total ∧ x.Empty)
        ⟨hs.keeps, hs.empty⟩
        fun _ _ _ hx hp hstep => ⟨step_keeps hstep hx.1 hp.1, step_empty hstep hx.1 hp.1 hp.2 hx.2⟩).2
    have hread : x.mem.isFinished x.idleThread = true := by
      by_cases hrec : x.kernel.threads x.system.driver.idleThread = none
      · exact (hempty hrec).isFinished
      · rw [hx.isFinished hrec]
        exact hfin
    unfold loops
    simp [hread]

/-! Samples: the memory shows the records after every step, and nothing else. -/

/-- A step that is not the last one of `main` and makes no record at `a`. -/
def Quiet (a : ℕ) (s : System) (ev : System.Event) : Prop :=
  s.Allowed ev ∧ ev ≠ .step .finish ∧ Spares s a ev

instance (a : ℕ) (s : System) (ev : System.Event) : Decidable (Quiet a s ev) :=
  inferInstanceAs (Decidable (_ ∧ _ ∧ _))

/-- The images of the states are what such steps may leave in memory. -/
theorem run_images {evs : List System.Event} (h : Run System.step (Quiet a) s evs s')
    (hi : s.driver.kernel.Inv) (hs : s.driver.kernel.Stored start total) :
    ∃ es, es.map (·.1) = evs ∧
      Run step (fun x e => Allowed x e ∧ Spares x.system x.idleThread e.1)
        ⟨s, s.driver.kernel.image, a⟩ es ⟨s', s'.driver.kernel.image, a⟩ := by
  have hall : (s'.driver.kernel.Inv ∧ s'.driver.kernel.Stored start total) ∧ ∃ es,
      es.map (·.1) = evs ∧ Run step (fun x e => Allowed x e ∧ Spares x.system x.idleThread e.1)
        ⟨s, s.driver.kernel.image, a⟩ es ⟨s', s'.driver.kernel.image, a⟩ := by
    induction h with
    | nil => exact ⟨⟨hi, hs⟩, [], rfl, .nil⟩
    | @snoc evs s₁ ev s₂ _ hq hstep ih =>
      obtain ⟨⟨hi₁, hs₁⟩, es, hes, hrun⟩ := ih
      obtain ⟨hp, hne, hc⟩ := hq
      have htends := step_tends hstep hi₁ hs₁
      have hback : step ⟨s₁, s₁.driver.kernel.image, a⟩ (ev, s₂.driver.kernel.image) =
          .ok ⟨s₂, s₂.driver.kernel.image, a⟩ := by
        unfold step
        rw [if_neg fun hfin => hne hfin.1, hstep]
        rfl
      refine ⟨⟨htends.inv, htends.stored⟩, es ++ [(ev, s₂.driver.kernel.image)], by simp [hes],
        hrun.snoc ⟨⟨hp, fun x' h => ?_⟩, hc⟩ hback⟩
      obtain rfl := Except.ok.inj (hback.symm.trans h)
      have hshows := image_shows htends.inv htends.stored
      rcases System.step_kernel hstep hne with ⟨-, hk⟩ | ⟨e₀, -, hk⟩
      · refine ⟨⟨hshows, fun t ht hgone => ?_⟩, fun hmagic => Or.inl ?_⟩
        · exact absurd (congrFun (congrArg Kernel.threads hk) t ▸ hgone) ht
        · exact hk ▸ hmagic
      · have hforged : Unforged a ⟨s₁.driver.kernel, s₁.driver.kernel.image⟩
            (e₀, s₂.driver.kernel.image) := image_unforged hk hi₁ hs₁
        obtain ⟨hw, hmagic⟩ := hforged _ hk
        exact ⟨hw, hmagic⟩
  exact hall.2

/-- The idle thread makes thread 5 and is preempted in its loop, and `userMain` returns. -/
def returning : List System.Event :=
  [.step (.call .threadDispatch), .step (.call .threadDispatch), .idle, .idle, .idle,
    .step (.call .tick), .step (.call .tick), .step (.call .threadDispatch),
    .step (.call .threadDispatch), .step (.call .threadDispatch), .funcWrapper]

/-- Thread 5 exits, and the idle thread comes to its exit. -/
def ending : List System.Event :=
  [.step (.call .threadExit), .idle, .step (.call .threadDispatch), .step (.call .threadDispatch),
    .step (.call .threadDispatch), .idle, .idle]

/-- The idle thread exits and its record is gone, nothing is to be printed, and the loop of `main`
is over. -/
theorem main_waits_two : ∃ x₀ x es, Starts 1024 1000 x₀ ∧ es.map (·.1) = returning ++ ending ∧
    Run step (fun x e => Allowed x e ∧ Spares x.system x.idleThread e.1) x₀ es x ∧
    x.kernel.threads x.system.driver.idleThread = none ∧ x.loops = false ∧
    x.loops = x.system.driver.console.isThereAnythingToPrint := by
  obtain ⟨d, hs, hq⟩ := @Driver.exists_starts 1024 1000 Driver.created 2 3 4 (fun d =>
    (Driver.Created d.kernel d.idleThread ∧ d.idleThread ≠ d.putcThread ∧
      d.idleThread ≠ d.getcThread) ∧
    (exec System.step (Quiet (d.kernel.threadAddr d.idleThread)) ⟨d, 20000, .alloc, none, false⟩
      (returning ++ ending)).any fun s =>
        (s.driver.kernel.threads s.driver.idleThread).isNone ∧
          s.driver.console.isThereAnythingToPrint = false) (by decide +kernel)
  obtain ⟨⟨hc, hp, hg⟩, hq⟩ := of_decide_eq_true hq
  obtain ⟨s, hrun, hq⟩ := exists_run_from hq
  obtain ⟨hgone, hprint⟩ := of_decide_eq_true hq
  obtain ⟨kb, es₀, k, hb, h₀, hinit⟩ := hs.opened
  obtain ⟨hi, hst⟩ := run_stored hb h₀
  have hopen := (Driver.init_ok hinit).1
  obtain ⟨es, hes, h⟩ := run_images hrun (step_inv hopen hi) (step_stored hopen hi hst)
  have hstarts : Starts 1024 1000
      ⟨⟨d, 20000, .alloc, none, false⟩, d.kernel.image, d.kernel.threadAddr d.idleThread⟩ :=
    ⟨⟨hs, hc, ⟨hp, hg⟩, rfl, rfl, rfl⟩, rfl,
      image_shows (step_inv hopen hi) (step_stored hopen hi hst)⟩
  obtain ⟨es₁, es₂, rfl, hes₁, hes₂⟩ := List.map_eq_append_iff.1 hes
  have hwaits := (main_waits hstarts (h.mono fun _ _ hp => hp.1)).2.1 es₁ es₂ rfl
    (hes₁ ▸ by decide) (hes₂ ▸ by decide) h
  exact ⟨_, _, _, hstarts, hes, h, Option.isNone_iff_eq_none.1 hgone, hwaits.trans hprint, hwaits⟩

end MainLoop
end OSK
