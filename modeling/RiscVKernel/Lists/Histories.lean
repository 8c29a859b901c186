import RiscVKernel.Lists.Sorting
import RiscVKernel.Memory.Canonical

/-! Histories of a `_list`: any sequence of its calls, mixed with calls of the
allocator for other blocks and stores into them. What the calls answer and what the
list holds is what the same calls on a sequence give. -/

namespace OSK

open Lib

namespace NodeList

/-- The calls of a `_list`, and `other` for what happens to the memory between them. -/
inductive Call (ω : Type)
  | addFirst (data : ℕ)
  | addLast (data : ℕ)
  | insertSorted (data : ℕ) (cmp : ℕ → ℕ → Bool)
  | removeFirst
  | removeLast
  | removeSpec (ptr : ℕ)
  | peekFirst
  | peekLast
  | sort (cmp : ℕ → ℕ → Bool)
  | foreach (func : ℕ → ω → ω) (aux : ω)
  | other (c : Allocator.Call)

inductive Answer (ω : Type)
  | none
  | ptr (data : ℕ)
  | bool (b : Bool)
  | aux (aux : ω)

variable {ω : Type}

def other (B : HeapBounds) (l : NodeList) (c : Allocator.Call) : Except Fault NodeList :=
  match l.heap.step B c with
  | .error .endless => .error .endless
  | .ok heap => .ok { l with heap := heap }

def call (B : HeapBounds) (l : NodeList) : Call ω → Except Fault (Answer ω × NodeList)
  | .addFirst data => do return (.none, ← l.addFirst B data)
  | .addLast data => do return (.none, ← l.addLast B data)
  | .insertSorted data cmp => do return (.none, ← l.insertSorted B data cmp)
  | .removeFirst => do
    let (ret, l) ← l.removeFirst
    return (.ptr ret, l)
  | .removeLast => do
    let (ret, l) ← l.removeLast
    return (.ptr ret, l)
  | .removeSpec ptr => do
    let (ret, l) ← l.removeSpec ptr
    return (.bool ret, l)
  | .peekFirst => .ok (.ptr l.peekFirst, l)
  | .peekLast => .ok (.ptr l.peekLast, l)
  | .sort cmp => do return (.none, ← l.sort cmp)
  | .foreach func aux => do
    let (l, aux) ← foreach (fun data st => .ok (st.1, func data st.2)) (l, aux)
    return (.aux aux, l)
  | .other c => do return (.none, ← l.other B c)

def step (B : HeapBounds) (l : NodeList) (c : Call ω) : Except Fault NodeList :=
  (l.call B c).map (·.2)

/-- The same calls on a sequence. Null is neither inserted in order nor looked for. -/
def onItems : Call ω → List ℕ → Answer ω × List ℕ
  | .addFirst data, xs => (.none, data :: xs)
  | .addLast data, xs => (.none, xs ++ [data])
  | .insertSorted data cmp, xs => (.none, if data = 0 then xs else insertBy cmp data xs)
  | .removeFirst, xs => (.ptr (xs.head?.getD 0), xs.tail)
  | .removeLast, xs => (.ptr (xs.getLast?.getD 0), xs.dropLast)
  | .removeSpec ptr, xs =>
    if ptr = 0 then (.bool false, xs) else (.bool (decide (ptr ∈ xs)), xs.erase ptr)
  | .peekFirst, xs => (.ptr (xs.head?.getD 0), xs)
  | .peekLast, xs => (.ptr (xs.getLast?.getD 0), xs)
  | .sort cmp, xs => (.none, xs.mergeSort cmp)
  | .foreach func aux, xs => (.aux (xs.foldl (fun aux data => func data aux) aux), xs)
  | .other _, xs => (.none, xs)

/-- The sequence after a history that starts with the empty one. -/
def replay (cs : List (Call ω)) : List ℕ := cs.foldl (fun xs c => (onItems c xs).2) []

/-- The next `_kmalloc` for a node succeeds. -/
def Allocates (B : HeapBounds) (l : NodeList) : Prop :=
  ∃ p s, l.heap.kmalloc B (blocksFor 16) = some (p, s) ∧ p ≠ 0

/-- The allocator call frees no node of the list and writes into none. -/
def Spares (l : NodeList) : Allocator.Call → Prop
  | .kmalloc _ => True
  | .kmfree p => ∀ nodes, Seg l.next l.head nodes 0 → p.toNat ∉ nodes
  | .write a v => Allocator.CallerWrites l.heap (.write a v) ∧
      ∀ nodes, Seg l.next l.head nodes 0 → ∀ p ∈ nodes, a.toNat + 8 ≤ p ∨ p + 16 ≤ a.toNat

/-- Node allocations succeed, and the memory of the list is left to it. -/
def Allowed (B : HeapBounds) (l : NodeList) : Call ω → Prop
  | .addFirst _ => l.Allocates B
  | .addLast _ => l.Allocates B
  | .insertSorted data _ => data = 0 ∨ l.Allocates B
  | .other c => l.Spares c
  | _ => True

/-- `nodes` is the chain of the list, and `xs` what it spells. -/
structure Shape (l : NodeList) (nodes xs : List ℕ) : Prop where
  chain : Seg l.next l.head nodes 0
  acyclic : nodes.Nodup
  data : nodes.map l.data = xs
  null : l.head = 0 ↔ l.tail = 0
  tail : l.tail = nodes.getLast?.getD 0
  last : l.tail ≠ 0 → l.next l.tail = 0

/-- One node leaves the list, and its block is the one that is freed. -/
def Unlinks (nodes nodes' : List ℕ) (taken taken' : List Block) : Prop :=
  ∃ b ∈ taken, payload b ∈ nodes ∧ nodes' = nodes.erase (payload b) ∧ taken' = taken.erase b

variable {B : HeapBounds} {start total p d v prev : ℕ} {l l' : NodeList} {h h' : Heap}
  {k k' : KList ℕ} {c : Call ω} {xs : List ℕ}

theorem Spells.shape (hs : Spells start total l h k) : Shape l k.nodes k.items := by
  refine ⟨hs.chain, hs.nodup, ?_, by rw [hs.head_null, hs.tail_null], hs.tail, ?_⟩
  · rw [KList.nodes, KList.items, List.map_map]
    exact List.map_congr_left hs.data
  · rw [Ne, hs.tail_null, hs.tail]
    intro hne
    obtain ⟨k₁, e, rfl⟩ := (List.eq_nil_or_concat' k).resolve_left hne
    have hchain := hs.chain
    rw [KList.nodes_append] at hchain
    simpa using (seg_concat.1 hchain).2.2

/-- What is in the words of a well-formed heap but the list. -/
theorem Spells.other (hs : Spells start total l h k) (hend : start + memBlockSize * total < 2 ^ 64)
    {c : Allocator.Call} (hc : l.Spares c) :
    ∃ l' h', l.other B c = .ok l' ∧ Spells start total l' h' k := by
  cases c with
  | kmalloc n =>
    cases hm : h.kmalloc n.toNat with
    | none =>
      refine ⟨l, h, ?_, hs⟩
      simp [NodeList.other, Allocator.step, kmalloc_null B hs.heap hs.wf hm]
    | some r =>
      obtain ⟨p, h'⟩ := r
      obtain ⟨s, hk, hr, hframe⟩ := kmalloc_frame B hs.heap hs.wf hend hm
      refine ⟨{ l with heap := s }, h', by simp [NodeList.other, Allocator.step, hk], ?_⟩
      refine hs.frame hr (Heap.kmalloc_wf hs.wf hm) (fun q hq => ?_) fun q hq => hframe q (hs.owned q hq)
      simp [Heap.kmalloc_payloads hm, hs.owned q hq]
  | kmfree p =>
    obtain ⟨s, hk, hs'⟩ := hs.kmfree hend p.toNat_lt (hc _ hs.chain)
    exact ⟨{ l with heap := s }, _, by simp [NodeList.other, Allocator.step, hk], hs'⟩
  | write a v =>
    obtain ⟨⟨bs, hbs, b, hb, hlo, hhi⟩, hfree⟩ := hc
    obtain rfl : bs = h.taken := hbs.unique (Allocator.represents_listed hs.heap)
    refine ⟨_, h, rfl, hs.store ?_ fun p hp => ?_⟩
    · exact Allocator.payload_notMem hs.wf (List.mem_append_right _ hb) hlo hhi
    · have := hfree _ hs.chain p hp
      omega

theorem Spells.allocates (hs : Spells start total l h k) (ha : l.Allocates B) :
    ∃ p h', h.kmalloc (blocksFor 16) = some (p, h') := by
  obtain ⟨p, s, hp, h0⟩ := ha
  cases hm : h.kmalloc (blocksFor 16) with
  | some r => exact ⟨r.1, r.2, rfl⟩
  | none =>
    rw [kmalloc_null B hs.heap hs.wf hm] at hp
    cases hp
    exact absurd rfl h0

theorem kmalloc_keeps (hm : h.kmalloc (blocksFor 16) = some (p, h')) : ∀ b ∈ h.taken, b ∈ h'.taken := by
  obtain ⟨b, -, -, -, -, -, -, -, ht⟩ := Heap.kmalloc_some hm
  simp only [ht, List.mem_cons]
  tauto

/-- The block of a node that is taken out. -/
theorem Spells.unlinks {k₁ k₂ : KList ℕ} {e : Elem ℕ}
    (hs : Spells start total l h (k₁ ++ e :: k₂)) :
    Unlinks (k₁ ++ e :: k₂).nodes (k₁ ++ k₂).nodes h.taken (h.kmfree e.node).2.taken := by
  have hnd := hs.nodup
  obtain ⟨b, hb, hp⟩ := List.mem_map.1 (hs.owned e.node (mem_nodes (by simp)))
  refine ⟨b, hb, by simp [hp], ?_, ?_⟩
  · simp only [KList.nodes_append, KList.nodes_cons] at hnd ⊢
    rw [hp, List.erase_append_right, List.erase_cons_head]
    exact fun hin => (List.nodup_append.1 hnd).2.2 _ hin _ (by simp) rfl
  · rw [← hp, Heap.kmfree_live hs.wf hb]

theorem items_insertBy (cmp : ℕ → ℕ → Bool) (d : ℕ) :
    KList.items (k.takeWhile (cmp ·.data d) ++ ⟨p, d⟩ :: k.dropWhile (cmp ·.data d)) =
      insertBy cmp d k.items := by
  unfold insertBy
  rw [KList.items, KList.items, List.takeWhile_map, List.dropWhile_map, List.map_append, List.map_cons]
  rfl

theorem foreachFrom_chain {func : ℕ → ω → ω} {fuel a : ℕ} (hs : Seg l.next a k.nodes 0)
    (hdata : ∀ e ∈ k, l.data e.node = e.data) (hf : k.length < fuel) (aux : ω) :
    foreachFrom (fun data st => .ok (st.1, func data st.2)) fuel a (l, aux) =
      .ok (l, k.items.foldl (fun aux data => func data aux) aux) := by
  induction k generalizing a fuel aux with
  | nil =>
    obtain ⟨f, rfl⟩ : ∃ f, fuel = f + 1 := ⟨fuel - 1, by simp at hf; omega⟩
    simp [foreachFrom, show a = 0 from hs]
  | cons e k ih =>
    obtain ⟨f, rfl⟩ : ∃ f, fuel = f + 1 := ⟨fuel - 1, by simp at hf; omega⟩
    obtain ⟨rfl, h0, hs⟩ := hs
    have hrest := ih hs (fun e' he' => hdata e' (by simp [he'])) (by simpa using hf) (func e.data aux)
    rw [foreachFrom, if_neg h0, hdata e (by simp)]
    exact hrest

theorem Spells.foreach (hs : Spells start total l h k) (func : ℕ → ω → ω) (aux : ω) :
    foreach (fun data st => .ok (st.1, func data st.2)) (l, aux) =
      .ok (l, k.items.foldl (fun aux data => func data aux) aux) :=
  foreachFrom_chain hs.chain hs.data hs.length_lt aux

/-- The call over the words answers what it answers on the sequence and leaves the
sequence that is left there, and frees the block of a node that it unlinks only. -/
def Matches (B : HeapBounds) (start total : ℕ) (l : NodeList) (h : Heap) (k : KList ℕ) (c : Call ω) :
    Prop :=
  ∃ a l' h' k', l.call B c = .ok (a, l') ∧ Spells start total l' h' k' ∧
    (a, k'.items) = onItems c k.items ∧ ((∀ c', c ≠ .other c') →
      if k'.length < k.length then Unlinks k.nodes k'.nodes h.taken h'.taken
      else ∀ b ∈ h.taken, b ∈ h'.taken)

theorem Spells.matches_addFirst (hs : Spells start total l h k)
    (hend : start + memBlockSize * total < 2 ^ 64) (ha : l.Allocates B) (d : ℕ) :
    Matches B start total l h k (.addFirst d : Call ω) := by
  obtain ⟨p, h', hm⟩ := hs.allocates ha
  obtain ⟨l', hl', hs'⟩ := hs.addFirst (B := B) hend hm d
  refine ⟨.none, l', h', _, by simp [NodeList.call, hl'], hs', rfl, fun _ => ?_⟩
  simpa using kmalloc_keeps hm

theorem Spells.matches_addLast (hs : Spells start total l h k)
    (hend : start + memBlockSize * total < 2 ^ 64) (ha : l.Allocates B) (d : ℕ) :
    Matches B start total l h k (.addLast d : Call ω) := by
  obtain ⟨p, h', hm⟩ := hs.allocates ha
  have hk : KList.addLast h k d = .ok (h', k ++ [⟨p, d⟩]) := by
    simp [KList.addLast, KList.newNode, hm]
  obtain ⟨l', hl', hs'⟩ := hs.addLast (B := B) hend hk
  refine ⟨.none, l', h', _, by simp [NodeList.call, hl'], hs', by simp [onItems], fun _ => ?_⟩
  simpa using kmalloc_keeps hm

theorem Spells.matches_insertSorted (hs : Spells start total l h k)
    (hend : start + memBlockSize * total < 2 ^ 64) (cmp : ℕ → ℕ → Bool) (ha : d = 0 ∨ l.Allocates B) :
    Matches B start total l h k (.insertSorted d cmp : Call ω) := by
  by_cases h0 : d = 0
  · refine ⟨.none, l, h, k, ?_, hs, by simp [onItems, h0], fun _ => by simp⟩
    simp only [NodeList.call, NodeList.insertSorted, if_pos h0]
    rfl
  · obtain ⟨p, h', hm⟩ := hs.allocates (ha.resolve_left h0)
    have hk : KList.insertSorted h k d cmp = .ok (h', k.takeWhile (cmp ·.data d) ++
        ⟨p, d⟩ :: k.dropWhile (cmp ·.data d)) := by
      simp [KList.insertSorted, KList.newNode, hm]
    obtain ⟨l', hl', hs'⟩ := hs.insertSorted (B := B) hend h0 hk
    have hlen := congrArg List.length (items_insertBy (p := p) (k := k) cmp d)
    rw [insertBy_perm.length_eq, KList.length_items, List.length_cons, KList.length_items] at hlen
    refine ⟨.none, l', h', _, by simp [NodeList.call, hl'], hs', ?_, fun _ => ?_⟩
    · simp only [onItems, if_neg h0, items_insertBy]
    · rw [if_neg (by omega)]
      exact kmalloc_keeps hm

theorem Spells.matches_removeFirst (hs : Spells start total l h k)
    (hend : start + memBlockSize * total < 2 ^ 64) :
    Matches B start total l h k (.removeFirst : Call ω) := by
  obtain ⟨l', hl', hs'⟩ := hs.removeFirst hend
  refine ⟨.ptr _, l', _, _, by rw [NodeList.call, hl']; rfl, hs', ?_, fun _ => ?_⟩
  · cases k <;> simp [onItems, KList.removeFirst]
  · cases k with
    | nil => simp [KList.removeFirst]
    | cons e k =>
      have hs₀ : Spells start total l h ([] ++ e :: k) := hs
      simpa [KList.removeFirst] using hs₀.unlinks

theorem Spells.matches_removeLast (hs : Spells start total l h k)
    (hend : start + memBlockSize * total < 2 ^ 64) :
    Matches B start total l h k (.removeLast : Call ω) := by
  obtain ⟨l', hl', hs'⟩ := hs.removeLast hend
  refine ⟨.ptr _, l', _, _, by rw [NodeList.call, hl']; rfl, hs', ?_, fun _ => ?_⟩
  · simp [onItems, KList.items]
  · rcases List.eq_nil_or_concat' k with rfl | ⟨k, e, rfl⟩
    · simp
    · simpa using hs.unlinks

theorem Spells.matches_removeSpec (hs : Spells start total l h k)
    (hend : start + memBlockSize * total < 2 ^ 64) (ptr : ℕ) :
    Matches B start total l h k (.removeSpec ptr : Call ω) := by
  by_cases h0 : ptr = 0
  · refine ⟨.bool false, l, h, k, ?_, hs, by simp [onItems, h0], fun _ => by simp⟩
    simp only [NodeList.call, NodeList.removeSpec, if_pos h0]
    rfl
  obtain ⟨l', hl', hs'⟩ := hs.removeSpec hend h0
  refine ⟨.bool _, l', _, _, by rw [NodeList.call, hl']; rfl, hs', ?_⟩
  rcases KList.removeSpec_cases h k ptr with ⟨hno, hr⟩ | ⟨k₁, e, k₂, rfl, hpass, rfl, hr⟩
  · refine ⟨?_, fun _ => by simp [hr]⟩
    simp [onItems, hr, hno, List.erase_of_not_mem hno]
  · have hno : e.data ∉ KList.items k₁ := by
      intro hin
      obtain ⟨x, hx, he⟩ := List.mem_map.1 hin
      exact hpass x hx he
    refine ⟨?_, fun _ => by simpa [hr] using hs.unlinks⟩
    simp [onItems, if_neg h0, hr, List.erase_append_right _ hno]

theorem Spells.call (hs : Spells start total l h k) (hend : start + memBlockSize * total < 2 ^ 64)
    (hc : Allowed B l c) : Matches B start total l h k c := by
  cases c with
  | addFirst d => exact hs.matches_addFirst hend hc d
  | addLast d => exact hs.matches_addLast hend hc d
  | insertSorted d cmp => exact hs.matches_insertSorted hend cmp hc
  | removeFirst => exact hs.matches_removeFirst hend
  | removeLast => exact hs.matches_removeLast hend
  | removeSpec ptr => exact hs.matches_removeSpec hend ptr
  | peekFirst => exact ⟨_, l, h, k, rfl, hs, by rw [hs.peekFirst]; rfl, fun _ => by simp⟩
  | peekLast => exact ⟨_, l, h, k, rfl, hs, by rw [hs.peekLast]; rfl, fun _ => by simp⟩
  | sort cmp =>
    obtain ⟨l', hl', hs'⟩ := hs.sort cmp
    refine ⟨.none, l', h, _, by simp [NodeList.call, hl'], hs', ?_, fun _ => by simp⟩
    exact congrArg (Prod.mk Answer.none) (List.map_mergeSort fun _ _ _ _ => rfl)
  | foreach func aux =>
    refine ⟨.aux _, l, h, k, ?_, hs, rfl, fun _ => by simp⟩
    rw [NodeList.call, hs.foreach func aux]
    rfl
  | other c =>
    obtain ⟨l', h', hl', hs'⟩ := hs.other (B := B) hend hc
    exact ⟨.none, l', h', k, by simp [NodeList.call, hl'], hs', rfl, fun hno => absurd rfl (hno c)⟩

theorem run_spells (hend : start + memBlockSize * total < 2 ^ 64) {s : Allocator}
    (hr : Represents total s h) (hw : h.WF start total) {cs : List (Call ω)}
    (hrun : Run (step B) (Allowed B) (empty s) cs l) :
    ∃ h' k, Spells start total l h' k ∧ k.items = replay cs := by
  induction hrun with
  | nil => exact ⟨h, [], .empty hr hw, rfl⟩
  | snoc _ hc hstep ih =>
    obtain ⟨h₁, k₁, hs₁, hk₁⟩ := ih
    obtain ⟨a, l', h', k', hcall, hs', hitems, -⟩ := hs₁.call hend hc
    rw [step, hcall] at hstep
    cases hstep
    refine ⟨h', k', hs', ?_⟩
    rw [replay, List.foldl_append, ← replay, ← hk₁]
    exact congrArg Prod.snd hitems

/-- After any history in which the allocations of nodes succeed, the nodes are a chain
that spells the sequence, with `head` and `tail` at its ends. Whatever is called next
comes back, answers what it answers on the sequence and leaves what it leaves there;
a call that makes the sequence shorter frees the block of the one node it unlinks, and
no other call of the list frees anything. -/
theorem refines_sequence (hB : B.Valid) (mem : ℕ → ℕ) {cs : List (Call ω)}
    (hrun : Run (step B) (Allowed B) (empty (Allocator.init B (Allocator.static B mem))) cs l) :
    ∃ nodes taken, Shape l nodes (replay cs) ∧
      Allocator.Listed l.heap.mem l.heap.headTaken taken ∧ (∀ p ∈ nodes, ∃ b ∈ taken, payload b = p) ∧
      ∀ c : Call ω, Allowed B l c → ∃ l' nodes' taken',
        l.call B c = .ok ((onItems c (replay cs)).1, l') ∧
        Shape l' nodes' (onItems c (replay cs)).2 ∧
        Allocator.Listed l'.heap.mem l'.heap.headTaken taken' ∧ ((∀ c', c ≠ .other c') →
          if nodes'.length < nodes.length then Unlinks nodes nodes' taken taken'
          else ∀ b ∈ taken, b ∈ taken') := by
  obtain ⟨h₀, hr₀, hw₀⟩ := hB.init_sound mem
  obtain ⟨h, k, hs, hk⟩ := run_spells hB.stop_lt hr₀ hw₀ hrun
  refine ⟨k.nodes, h.taken, hk ▸ hs.shape, Allocator.represents_listed hs.heap, ?_, fun c hc => ?_⟩
  · intro p hp
    exact List.mem_map.1 (hs.owned p hp)
  · obtain ⟨a, l', h', k', hcall, hs', hitems, hfrees⟩ := hs.call hB.stop_lt hc
    rw [hk] at hitems
    have ha : a = (onItems c (replay cs)).1 := congrArg Prod.fst hitems
    have hk' : k'.items = (onItems c (replay cs)).2 := congrArg Prod.snd hitems
    refine ⟨l', k'.nodes, h'.taken, ha ▸ hcall, hk' ▸ hs'.shape, Allocator.represents_listed hs'.heap,
      fun hno => ?_⟩
    simpa [KList.nodes] using hfrees hno

/-- The first block of a heap of four is there for a node. -/
theorem allocates_four : Allocates ⟨64, 320⟩ (empty (Allocator.init ⟨64, 320⟩
    (Allocator.static ⟨64, 320⟩ fun _ => 7))) := ⟨80, _, rfl, by decide⟩

theorem one_entry (data : ℕ) : ∃ l h k, Run (step ⟨64, 320⟩) (Allowed ⟨64, 320⟩)
    (empty (Allocator.init ⟨64, 320⟩ (Allocator.static ⟨64, 320⟩ fun _ => 7)))
      ([.addFirst data] : List (Call ℕ)) l ∧ Spells 64 4 l h k ∧ k.items = [data] := by
  have hB : HeapBounds.Valid ⟨64, 320⟩ := ⟨by decide, by decide, by decide⟩
  obtain ⟨h, hr, hw⟩ := hB.init_sound fun _ => 7
  obtain ⟨a, l, h', k, hcall, hs, hitems, -⟩ :=
    (Spells.empty hr hw).call (c := (.addFirst data : Call ℕ)) hB.stop_lt allocates_four
  exact ⟨l, h', k, .single allocates_four (by rw [step, hcall]; rfl), hs, congrArg Prod.snd hitems⟩

/-! Samples in the heap of eight blocks, each node one of them. -/

/-- The call gets its node if it needs one, and leaves other blocks alone. -/
def getsNode (l : NodeList) : Call ω → Bool
  | .addFirst _ | .addLast _ | .insertSorted _ _ =>
    (l.heap.kmalloc Allocator.eight (blocksFor 16)).any (·.1 ≠ 0)
  | .other _ => false
  | _ => true

theorem getsNode_allowed (hc : getsNode l c = true) : Allowed Allocator.eight l c := by
  have halloc : (l.heap.kmalloc Allocator.eight (blocksFor 16)).any (·.1 ≠ 0) = true →
      l.Allocates Allocator.eight := by
    intro hany
    cases hm : l.heap.kmalloc Allocator.eight (blocksFor 16) with
    | none => simp [hm] at hany
    | some r => exact ⟨r.1, r.2, hm, by simpa [hm] using hany⟩
  cases c with
  | addFirst d => exact halloc hc
  | addLast d => exact halloc hc
  | insertSorted d cmp => exact Or.inr (halloc hc)
  | other c => cases hc
  | _ => trivial

/-- A computed history, with what can be computed about the list it leaves. -/
theorem exists_list {cs : List (Call ω)} {q : NodeList → Bool}
    (h : (exec (step Allocator.eight) (fun l c => getsNode l c = true)
      (empty Allocator.started) cs).any q = true) :
    ∃ l, Run (step Allocator.eight) (Allowed Allocator.eight) (empty Allocator.started) cs l ∧
      (∃ h k, Spells 64 8 l h k ∧ k.items = replay cs) ∧ q l = true := by
  obtain ⟨l, hrun, hq⟩ := exists_run_from h
  have hall := hrun.mono fun l c hc => getsNode_allowed hc
  obtain ⟨h₀, hr₀, hw₀⟩ := Allocator.eight_valid.init_sound fun _ => 7
  exact ⟨l, hall, run_spells Allocator.eight_valid.stop_lt hr₀ hw₀ hall, hq⟩

/-- Entries at both ends and between, and removals at the head, at the tail and in the
middle. -/
def mixed : List (Call ℕ) :=
  [.addLast 11, .addLast 13, .addFirst 17, .addLast 19, .insertSorted 12 (fun a b => decide (b < a)),
    .removeFirst, .removeLast, .removeSpec 11, .addFirst 13]

/-- The last entry has the block of the one that was removed before it, and the entry in
the middle gives up its block next. -/
theorem refines_sequence_mixed : ∃ l taken l' taken',
    Run (step Allocator.eight) (Allowed Allocator.eight) (empty Allocator.started) mixed l ∧
      Shape l [80, 336, 144] [13, 12, 13] ∧
      l.call Allocator.eight (.removeSpec 12 : Call ℕ) = .ok (.bool true, l') ∧
      Shape l' [80, 144] [13, 13] ∧ Unlinks [80, 336, 144] [80, 144] taken taken' := by
  obtain ⟨l, hrun, -, hq⟩ := @exists_list ℕ mixed (fun l =>
    decide (Seg l.next l.head [80, 336, 144] 0) &&
      (l.call Allocator.eight (.removeSpec 12 : Call ℕ)).toOption.any fun r =>
        decide (Seg r.2.next r.2.head [80, 144] 0)) (by decide +kernel)
  rw [Bool.and_eq_true, decide_eq_true_eq] at hq
  obtain ⟨nodes, taken, hshape, -, -, hall⟩ := refines_sequence Allocator.eight_valid _ hrun
  obtain rfl := seg_unique hshape.chain hq.1
  obtain ⟨l', nodes', taken', hcall, hshape', -, hfrees⟩ := hall (.removeSpec 12) trivial
  have hnodes' := hq.2
  rw [hcall] at hnodes'
  obtain rfl := seg_unique hshape'.chain (of_decide_eq_true hnodes')
  exact ⟨l, taken, l', taken', hrun, hshape, hcall, hshape', hfrees nofun⟩

/-- A null entry stays when `removeSpec` is called for null. -/
theorem refines_sequence_null : ∃ l nodes, Run (step ⟨64, 320⟩) (Allowed ⟨64, 320⟩)
    (empty (Allocator.init ⟨64, 320⟩ (Allocator.static ⟨64, 320⟩ fun _ => 7)))
      ([.addFirst 0] : List (Call ℕ)) l ∧ Shape l nodes [0] ∧ l.removeSpec 0 = .ok (false, l) := by
  obtain ⟨l, h, k, hrun, hs, hk⟩ := one_entry 0
  exact ⟨l, k.nodes, hrun, hk ▸ hs.shape, rfl⟩

end NodeList
end OSK
