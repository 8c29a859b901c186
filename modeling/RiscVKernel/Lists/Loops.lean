import Mathlib.Data.List.Find
import RiscVKernel.Kernel.Children
import RiscVKernel.Kernel.Handover
import RiscVKernel.Lists.Iteration

/-! The loops of the kernel over the words of its lists. `NodeList.foreachWhile` reads the nodes
one after another and does what `Kernel.foreachWhile` does with the entries the list had at the
start. The sweep of `dispatch` is such a loop. -/

namespace OSK

open Lib

namespace KList

/-- The list as the words have it. -/
def encoded (enc : Tid → ℕ) (q : KList Tid) : KList ℕ := q.map fun e => ⟨e.node, enc e.data⟩

variable {enc : Tid → ℕ} {q : KList Tid} {t : Tid}

@[simp] theorem encoded_nodes : nodes (encoded enc q) = nodes q := by
  simp [encoded, nodes]

@[simp] theorem encoded_append (q q' : KList Tid) :
    encoded enc (q ++ q') = encoded enc q ++ encoded enc q' := List.map_append

theorem eraseP_congr {α : Type} {p p' : α → Bool} {l : List α} (h : ∀ x ∈ l, p x = p' x) :
    l.eraseP p = l.eraseP p' := by
  induction l with
  | nil => rfl
  | cons a l ih =>
    have hrest : l.eraseP p = l.eraseP p' := ih fun x hx => h x (List.mem_cons_of_mem a hx)
    simp only [List.eraseP_cons, h a List.mem_cons_self, hrest]

/-- `removeSpec` compares the words, which are different for different entries. -/
theorem encoded_removeSpec (h : Heap) (hinj : ∀ e ∈ q, enc e.data = enc t → e.data = t) :
    removeSpec h (encoded enc q) (enc t) =
      ((removeSpec h q t).1, (removeSpec h q t).2.1, encoded enc (removeSpec h q t).2.2) := by
  have hsame : ∀ e ∈ q, decide (enc e.data = enc t) = decide (e.data = t) := by
    intro e he
    exact decide_eq_decide.2 ⟨hinj e he, fun hd => hd ▸ rfl⟩
  have hfind : (encoded enc q).find? (·.data = enc t) =
      (q.find? (·.data = t)).map fun e => ⟨e.node, enc e.data⟩ := by
    rw [encoded, List.find?_map, ← List.find?_congr hsame]
    rfl
  have herase : (encoded enc q).eraseP (·.data = enc t) = encoded enc (q.eraseP (·.data = t)) := by
    rw [encoded, List.eraseP_map, ← eraseP_congr hsame]
    rfl
  unfold removeSpec
  rw [hfind, herase]
  cases q.find? (·.data = t) <;> rfl

end KList

namespace NodeList

variable {ω : Type} {start total fuel curr : ℕ} {k k' k₀ : Kernel} {k₁ k₂ : KList Tid}

/-- A loop over words and a loop of the kernel over the list `list`, which `R` relates. The
callbacks leave the nodes behind the one they are called for. -/
structure Simulates (func : ℕ → NodeList × ω → Except Fault (NodeList × ω))
    (condition : ℕ → NodeList × ω → Bool) (call : Kernel → Tid → Except OSK.Fault Kernel)
    (holds : Kernel → Tid → Except OSK.Fault Bool) (list : Kernel → KList Tid) (enc : Tid → ℕ)
    (start total : ℕ) (R : NodeList × ω → Kernel → Prop) : Prop where
  spells : ∀ st k, R st k → ∃ h, Spells start total st.1 h (KList.encoded enc (list k))
  condition : ∀ st k e b, R st k → e ∈ list k → holds k e.data = .ok b →
    condition (enc e.data) st = b
  call : ∀ st k k₁ e k₂ k', R st k → list k = k₁ ++ e :: k₂ → call k e.data = .ok k' →
    ∃ st' q, func (enc e.data) st = .ok st' ∧ R st' k' ∧ list k' = q ++ k₂

section Loops

variable {func : ℕ → NodeList × ω → Except Fault (NodeList × ω)}
  {condition : ℕ → NodeList × ω → Bool} {call : Kernel → Tid → Except OSK.Fault Kernel}
  {holds : Kernel → Tid → Except OSK.Fault Bool} {list : Kernel → KList Tid} {enc : Tid → ℕ}
  {R : NodeList × ω → Kernel → Prop} {st : NodeList × ω}

/-- The loop from the first of the nodes `k₂`, which are what is left of the list. -/
theorem Simulates.foreachWhileFrom
    (hsim : Simulates func condition call holds list enc start total R) (hR : R st k)
    (hq : list k = k₁ ++ k₂) (hf : k₂.length < fuel) (hcurr : curr = (KList.nodes k₂).head?.getD 0)
    (h : Kernel.foreachWhile call holds (KList.items k₂) k = .ok k') :
    ∃ st', foreachWhileFrom func condition fuel curr st = .ok st' ∧ R st' k' := by
  induction k₂ generalizing st k k₁ fuel curr with
  | nil =>
    obtain ⟨f, rfl⟩ : ∃ f, fuel = f + 1 := ⟨fuel - 1, by simp at hf; omega⟩
    obtain rfl : curr = 0 := hcurr
    cases h
    exact ⟨st, by simp [NodeList.foreachWhileFrom], hR⟩
  | cons e k₂ ih =>
    obtain ⟨f, rfl⟩ : ∃ f, fuel = f + 1 := ⟨fuel - 1, by simp at hf; omega⟩
    obtain rfl : curr = e.node := hcurr
    obtain ⟨hp, hs⟩ := hsim.spells st k hR
    rw [hq, KList.encoded_append] at hs
    have hs : Spells start total st.1 hp
        (KList.encoded enc k₁ ++ ⟨e.node, enc e.data⟩ :: KList.encoded enc k₂) := hs
    have h0 : e.node ≠ 0 := seg_ne_zero hs.chain e.node (mem_nodes (e := ⟨e.node, enc e.data⟩)
      (by simp))
    have hdata : st.1.data e.node = enc e.data := hs.data ⟨e.node, enc e.data⟩ (by simp)
    obtain ⟨b, hb, h⟩ := bind_ok h
    have hcond := hsim.condition st k e b hR (by simp [hq]) hb
    cases b with
    | false =>
      cases h
      exact ⟨st, by simp [NodeList.foreachWhileFrom, hdata, hcond], hR⟩
    | true =>
      obtain ⟨k₃, hk₃, h⟩ := bind_ok h
      obtain ⟨st₁, q, hst₁, hR₁, hq₁⟩ := hsim.call st k k₁ e k₂ k₃ hR hq hk₃
      have hnext : st.1.next e.node = (KList.nodes k₂).head?.getD 0 := by
        simpa using hs.next_eq
      obtain ⟨st', hst', hR'⟩ := ih hR₁ hq₁ (by simpa using hf) hnext h
      refine ⟨st', ?_, hR'⟩
      simp [NodeList.foreachWhileFrom, h0, hdata, hcond, hst₁, bind, Except.bind, hst']

/-- Where the kernel's loop over the entries of a list comes back, the loop over the words does,
with the same effect. -/
theorem Simulates.foreachWhile
    (hsim : Simulates func condition call holds list enc start total R) (hR : R st k)
    (h : Kernel.foreachWhile call holds (list k).items k = .ok k') :
    ∃ st', foreachWhile func condition st = .ok st' ∧ R st' k' := by
  obtain ⟨hp, hs⟩ := hsim.spells st k hR
  refine hsim.foreachWhileFrom hR (List.nil_append _).symm ?_ ?_ h
  · simpa [KList.encoded] using hs.length_lt
  · simpa using hs.start_eq

end Loops

/-! The sweep of `dispatch`. The records are those of `threads`, and `record` is the thread whose
record is at an address. -/

def threadDead (record : ℕ → Tid) (thr : ℕ) (st : NodeList × (Tid → Option Thread)) : Bool :=
  if thr = 0 then true
  else match st.2 (record thr) with
    | none => true
    | some th => th.threadState = .finished

/-- `deleteThread_inDispatch` frees the stack and the record of a finished thread. -/
def deleteThreadInDispatch (record : ℕ → Tid) (thr : ℕ) (st : NodeList × (Tid → Option Thread)) :
    Except Fault (NodeList × (Tid → Option Thread)) := do
  if thr = 0 then return st
  let (r, l) ← st.1.removeSpec thr
  match st.2 (record thr) with
  | none => return (l, st.2)
  | some th =>
    if r && decide (th.threadState = .finished) then
      let l ← l.freeElem th.stack
      let l ← l.freeElem thr
      return (l, Function.update st.2 (record thr) none)
    else return (l, st.2)

/-- The words of the ready queue and the records during the sweep that begins in `k₀`. -/
structure Sweeping (start total : ℕ) (k₀ : Kernel) (st : NodeList × (Tid → Option Thread))
    (k : Kernel) : Prop where
  spells : Spells start total st.1 k.heap (KList.encoded k₀.threadAddr k.queueThreads)
  records : st.2 = k.threads
  addr : k.threadAddr = k₀.threadAddr
  stored : k.Stored start total
  known : ∀ e ∈ k.queueThreads, e ∈ k₀.queueThreads

variable {l : NodeList} {t : Tid} {th : Thread} {record : ℕ → Tid} {e : Elem Tid}
  {st : NodeList × (Tid → Option Thread)}

/-- Deleting a thread over the words of the ready queue, in which nothing of it is left. -/
theorem Spells.deleteThread {enc : Tid → ℕ} (hend : start + memBlockSize * total < 2 ^ 64)
    (hs : Spells start total l k.heap (KList.encoded enc k.queueThreads))
    (hstored : k.Stored start total) (hth : k.threads t = some th)
    (h : k.deleteThread t = .ok k') :
    ∃ l₁ l₂, l.freeElem th.stack = .ok l₁ ∧ l₁.freeElem (k.threadAddr t) = .ok l₂ ∧
      Spells start total l₂ k'.heap (KList.encoded enc k.queueThreads) := by
  obtain ⟨th', hth', rfl⟩ := Kernel.deleteThread_ok h
  obtain rfl := Option.some.inj (hth'.symm.trans hth)
  have hstack : th'.stack ∈ k.held (.stack t) := by simp [Kernel.held, hth]
  have htcb : k.threadAddr t ∈ k.held (.tcb t) := by simp [Kernel.held, hth]
  have hno : ∀ (o : Owner) (p : ℕ), o ≠ .ready → p ∈ k.held o →
      p ∉ KList.nodes (KList.encoded enc k.queueThreads) := by
    intro o p ho hp hnode
    rw [KList.encoded_nodes] at hnode
    exact ho (hstored.allotted.apart o .ready p hp hnode)
  have hlt : ∀ (o : Owner) (p : ℕ), p ∈ k.held o → p < 2 ^ 64 := fun o p hp =>
    hstored.wf.payload_lt hend (hstored.held_taken hp)
  obtain ⟨s₁, h₁, hs₁⟩ := hs.kmfree hend (hlt _ _ hstack) (hno _ _ (by simp) hstack)
  obtain ⟨s₂, h₂, hs₂⟩ := hs₁.kmfree hend (hlt _ _ htcb) (hno _ _ (by simp) htcb)
  refine ⟨{ l with heap := s₁ }, { l with heap := s₂ }, ?_, ?_, hs₂⟩
  · unfold freeElem
    rw [h₁]
  · unfold freeElem
    rw [h₂]

section Sweep

variable (hend : start + memBlockSize * total < 2 ^ 64)
  (hrec : ∀ e ∈ k₀.queueThreads, record (k₀.threadAddr e.data) = e.data)
  (hlive : ∀ e ∈ k₀.queueThreads, k₀.threadAddr e.data ≠ 0)
include hend hrec hlive

/-- `removeSpec`, which both sides call first. -/
theorem Sweeping.removeReady (hR : Sweeping start total k₀ st k)
    (hq : k.queueThreads = k₁ ++ e :: k₂) :
    ∃ l q, st.1.removeSpec (k₀.threadAddr e.data) = .ok ((k.removeReady e.data).1, l) ∧
      Sweeping start total k₀ (l, st.2) (k.removeReady e.data).2 ∧
      (k.removeReady e.data).2.queueThreads = q ++ k₂ := by
  have he : e ∈ k.queueThreads := by simp [hq]
  have hinj : ∀ x ∈ k.queueThreads, k₀.threadAddr x.data = k₀.threadAddr e.data →
      x.data = e.data := by
    intro x hx ha
    rw [← hrec x (hR.known x hx), ha, hrec e (hR.known e he)]
  obtain ⟨l, hl, hspells⟩ := hR.spells.removeSpec hend (hlive e (hR.known e he))
  rw [KList.encoded_removeSpec k.heap hinj] at hl hspells
  obtain ⟨q, hbehind, hsub⟩ := removeSpec_before k.heap k₁ e k₂
  rw [← hq] at hbehind
  have hqueue : (k.removeReady e.data).2.queueThreads = q ++ k₂ := hbehind
  refine ⟨l, q, hl, ⟨hspells, hR.records, hR.addr, Kernel.removeReady_stored _ hR.stored, ?_⟩, hqueue⟩
  intro x hx
  rw [hqueue] at hx
  refine hR.known x (hq ▸ ?_)
  have hmem := (hsub.append (.refl k₂)).subset hx
  simpa using hmem

theorem Sweeping.call (hR : Sweeping start total k₀ st k) (hq : k.queueThreads = k₁ ++ e :: k₂)
    (hk' : k.deleteThreadInDispatch e.data = .ok k') :
    ∃ st' q, deleteThreadInDispatch record (k₀.threadAddr e.data) st = .ok st' ∧
      Sweeping start total k₀ st' k' ∧ k'.queueThreads = q ++ k₂ := by
  have hid : record (k₀.threadAddr e.data) = e.data := hrec e (hR.known e (by simp [hq]))
  have h0 : k₀.threadAddr e.data ≠ 0 := hlive e (hR.known e (by simp [hq]))
  obtain ⟨l, q, hl, hremoved, hqueue⟩ := hR.removeReady hend hrec hlive hq
  have hstored := Kernel.deleteThreadInDispatch_stored hk' hR.stored
  unfold Kernel.deleteThreadInDispatch at hk'
  dsimp only at hk'
  cases hth : k.threads e.data with
  | none =>
    have hvalid : (k.removeReady e.data).2.isThreadValid e.data = false := by
      simp [Kernel.isThreadValid, Kernel.removeReady, hth]
    rw [hvalid, Bool.and_false, Bool.false_and, if_neg (by simp)] at hk'
    cases hk'
    refine ⟨(l, st.2), q, ?_, hremoved, hqueue⟩
    simp [deleteThreadInDispatch, h0, hl, hid, hR.records, hth, bind, Except.bind, pure, Except.pure]
  | some th =>
    have hth₁ : (k.removeReady e.data).2.threads e.data = some th := hth
    have hvalid : (k.removeReady e.data).2.isThreadValid e.data = true := by
      simp [Kernel.isThreadValid, hth₁]
    have hfin : (k.removeReady e.data).2.isFinished e.data =
        decide (th.threadState = .finished) := by
      simp [Kernel.isFinished, hth₁]
    rw [hvalid, Bool.and_true, hfin] at hk'
    cases hdel : (k.removeReady e.data).1 && decide (th.threadState = .finished) with
    | false =>
      rw [hdel] at hk'
      cases hk'
      refine ⟨(l, st.2), q, ?_, hremoved, hqueue⟩
      simp only [deleteThreadInDispatch, if_neg h0, hl, hid, hR.records, hth, hdel, bind,
        Except.bind, pure, Except.pure, Bool.false_eq_true, if_false]
    | true =>
      rw [hdel, if_pos rfl] at hk'
      obtain ⟨l₁, l₂, h₁, h₂, hspells⟩ :=
        Spells.deleteThread hend hremoved.spells hremoved.stored hth₁ hk'
      obtain ⟨_, -, rfl⟩ := Kernel.deleteThread_ok hk'
      rw [congrFun hremoved.addr e.data] at h₂
      refine ⟨(l₂, Function.update st.2 e.data none), q, ?_,
        ⟨hspells, ?_, hR.addr, hstored, hremoved.known⟩, hqueue⟩
      · simp only [deleteThreadInDispatch, if_neg h0, hl, hid, hR.records, hth, hdel, h₁, h₂, bind,
          Except.bind, pure, Except.pure, if_true]
      · rw [hR.records]
        rfl

theorem sweep_simulates : Simulates (deleteThreadInDispatch record) (threadDead record)
    Kernel.deleteThreadInDispatch Kernel.threadDead Kernel.queueThreads k₀.threadAddr start total
    (Sweeping start total k₀) := by
  refine ⟨fun st k hR => ⟨_, hR.spells⟩, ?_, ?_⟩
  · intro st k e b hR he hb
    obtain rfl := Except.ok.inj hb
    have hrecord : st.2 (record (k₀.threadAddr e.data)) = k.threads e.data := by
      rw [hrec e (hR.known e he), hR.records]
    have h0 : k₀.threadAddr e.data ≠ 0 := hlive e (hR.known e he)
    cases hth : k.threads e.data with
    | none => simp [threadDead, Kernel.isFinished, h0, hrecord, hth]
    | some th => simp [threadDead, Kernel.isFinished, h0, hrecord, hth]
  · intro st k k₁ e k₂ k' hR hq hk'
    exact hR.call hend hrec hlive hq hk'

end Sweep

/-- The thread in the ready queue whose record is at an address. -/
def recordAt (k : Kernel) (a : ℕ) : Tid :=
  (k.queueThreads.items.find? (k.threadAddr · = a)).getD 0

theorem recordAt_self (hs : k.Stored start total)
    (hlive : ∀ e ∈ k.queueThreads, k.threads e.data ≠ none) (he : e ∈ k.queueThreads) :
    recordAt k (k.threadAddr e.data) = e.data := by
  have hmem : e.data ∈ k.queueThreads.items := List.mem_map_of_mem he
  unfold recordAt
  cases hf : k.queueThreads.items.find? (k.threadAddr · = k.threadAddr e.data) with
  | none => simpa using List.find?_eq_none.1 hf e.data hmem
  | some t =>
    have ht : k.threadAddr t = k.threadAddr e.data := by simpa using List.find?_some hf
    obtain ⟨x, hx, rfl⟩ := List.mem_map.1 (List.mem_of_find?_eq_some hf)
    exact hs.records_apart (hlive x hx) (hlive e he) ht

/-- The sweep over the words of the ready queue takes out and frees what the kernel's does. -/
theorem sweep_words {pend : Tid → Option Context} {loc : Tid → Place}
    (hend : start + memBlockSize * total < 2 ^ 64) (hs : k.Stored start total)
    (hp : k.Placed pend loc)
    (hl : Spells start total l k.heap (KList.encoded k.threadAddr k.queueThreads))
    (h : Kernel.foreachWhile Kernel.deleteThreadInDispatch Kernel.threadDead k.queueThreads.items k =
      .ok k') :
    ∃ l', foreachWhile (deleteThreadInDispatch (recordAt k)) (threadDead (recordAt k))
        (l, k.threads) = .ok (l', k'.threads) ∧
      Spells start total l' k'.heap (KList.encoded k'.threadAddr k'.queueThreads) := by
  have hlive : ∀ e ∈ k.queueThreads, k.threads e.data ≠ none := by
    intro e he hnone
    have hready := hp.mem_ready (List.mem_map_of_mem he)
    obtain ⟨th, hth⟩ := hp.record (t := e.data) (by simp [hready])
    simp [hth] at hnone
  have haddr : ∀ e ∈ k.queueThreads, k.threadAddr e.data ≠ 0 := by
    intro e he
    obtain ⟨th, hth⟩ := Option.ne_none_iff_exists'.1 (hlive e he)
    have hheld : k.threadAddr e.data ∈ k.held (.tcb e.data) := by simp [Kernel.held, hth]
    exact Heap.payload_ne_zero (hs.held_taken hheld)
  have hsim := sweep_simulates hend (fun e he => recordAt_self hs hlive he) haddr
  have hstart : Sweeping start total k (l, k.threads) k := ⟨hl, rfl, rfl, hs, fun e he => he⟩
  obtain ⟨⟨l', records⟩, hloop, hswept⟩ := hsim.foreachWhile hstart h
  obtain rfl : records = k'.threads := hswept.records
  exact ⟨l', hloop, hswept.addr ▸ hswept.spells⟩

end NodeList
end OSK
