import RiscVKernel.Lists.Shape

/-! The calls of a `_list` over the words do to its nodes and to the heap what they
do over the list of nodes. -/

namespace OSK

open Lib

namespace NodeList

variable {B : HeapBounds} {start total p d ptr : ℕ} {l : NodeList} {h h' : Heap}
  {k k' k₁ k₂ : KList ℕ} {e : Elem ℕ}

/-- The loops that look for the first node whose data fail a test. -/
theorem Spells.walk (hs : Spells start total l h k) (go : ℕ → Bool) (P : Elem ℕ → Bool)
    (hgo : ∀ e ∈ k, go e.node = P e) :
    Lib.walk l.next go l.loopBound l.head 0 =
      some ((KList.nodes (k.dropWhile P)).head?.getD 0,
        (KList.nodes (k.takeWhile P)).getLast?.getD 0) :=
  walk_map hs.chain hs.length_lt hgo

theorem Spells.start_eq (hs : Spells start total l h k) : l.head = k.nodes.head?.getD 0 :=
  seg_start hs.chain

/-- The node at which the rest of the list starts is null when there is no rest. -/
theorem Spells.rest_null (hs : Spells start total l h (k₁ ++ k₂)) :
    k₂.nodes.head?.getD 0 = 0 ↔ k₂ = [] := by
  obtain ⟨b, -, hk₂⟩ := seg_append.1 (KList.nodes_append k₁ k₂ ▸ hs.chain)
  rw [← seg_start hk₂, seg_null hk₂]
  simp [KList.nodes]

theorem Spells.tail_null (hs : Spells start total l h k) : l.tail = 0 ↔ k = [] := by
  rw [hs.tail]
  rcases List.eq_nil_or_concat' k with rfl | ⟨k₁, e, rfl⟩
  · simp
  · have hne := seg_ne_zero hs.chain e.node (mem_nodes (by simp))
    simp [hne]

theorem Spells.tail_iff (hs : Spells start total l h (k₁ ++ e :: k₂)) :
    e.node = l.tail ↔ k₂ = [] := by
  have hnd := hs.nodup
  rw [hs.tail]
  rcases List.eq_nil_or_concat' k₂ with rfl | ⟨k₂, x, rfl⟩
  · simp
  · simp only [KList.nodes_append, KList.nodes_cons, KList.nodes_nil] at hnd
    have hne : e.node ≠ x.node := by
      intro he
      have hrest := (List.nodup_append.1 hnd).2.1
      exact (List.nodup_cons.1 hrest).1 (by simp [he])
    simp [hne, List.getLast?_append, List.getLast?_cons]

/-! Calls that add a node. -/

theorem Spells.addFirst (hs : Spells start total l h k) (hend : start + memBlockSize * total < 2 ^ 64)
    (hm : h.kmalloc (blocksFor 16) = some (p, h')) (d : ℕ) :
    ∃ l', l.addFirst B d = .ok l' ∧ Spells start total l' h' (⟨p, d⟩ :: k) := by
  obtain ⟨l₁, hnew, hhead, htail, hs₁, hd, hn, hp, hno⟩ := hs.newElem (B := B) hend hm d l.head
  have hs₁ : Spells start total l₁ h' ([] ++ k) := hs₁
  have hins := hs₁.insert hp hno hd (hn.trans hs.start_eq)
  refine ⟨_, ?_, hins⟩
  simp [NodeList.addFirst, hnew, link, hs₁.tail_null]

theorem Spells.addLast (hs : Spells start total l h k) (hend : start + memBlockSize * total < 2 ^ 64)
    (hk : KList.addLast h k d = .ok (h', k')) :
    ∃ l', l.addLast B d = .ok l' ∧ Spells start total l' h' k' := by
  obtain ⟨p, h₁, hm, hr⟩ := KList.addLast_ok hk
  cases hr
  obtain ⟨l₁, hnew, hhead, htail, hs₁, hd, hn, hp, hno⟩ := hs.newElem (B := B) hend hm d 0
  rw [← List.append_nil k] at hs₁ hno
  have hins := hs₁.insert hp hno hd hn
  refine ⟨_, ?_, hins⟩
  simp [NodeList.addLast, hnew, htail, hs.tail]

theorem Spells.insertSorted (hs : Spells start total l h k)
    (hend : start + memBlockSize * total < 2 ^ 64) {cmp : ℕ → ℕ → Bool} (hd0 : d ≠ 0)
    (hk : KList.insertSorted h k d cmp = .ok (h', k')) :
    ∃ l', l.insertSorted B d cmp = .ok l' ∧ Spells start total l' h' k' := by
  obtain ⟨p, h₁, hm, hr⟩ := KList.insertSorted_ok hk
  cases hr
  have hwalk := hs.walk (fun curr => cmp (l.data curr) d) (cmp ·.data d) fun e he => by
    rw [hs.data e he]
  have hsplit : k.takeWhile (cmp ·.data d) ++ k.dropWhile (cmp ·.data d) = k :=
    List.takeWhile_append_dropWhile
  generalize k.takeWhile (cmp ·.data d) = k₁ at *
  generalize k.dropWhile (cmp ·.data d) = k₂ at *
  subst hsplit
  obtain ⟨l₁, hnew, hhead, htail, hs₁, hd, hn, hp, hno⟩ :=
    hs.newElem (B := B) hend hm d (KList.nodes k₂ |>.head?.getD 0)
  have hins := hs₁.insert hp hno hd hn
  refine ⟨_, ?_, hins⟩
  simp only [NodeList.insertSorted, if_neg hd0, hwalk, ended, hnew, bind, Except.bind, pure,
    Except.pure, hs.rest_null, link_with_tail]

/-! Calls that take a node out. -/

/-- The node is unlinked and freed. -/
theorem Spells.remove (hs : Spells start total l h (k₁ ++ e :: k₂))
    (hend : start + memBlockSize * total < 2 ^ 64) {l₁ : NodeList}
    (hl₁ : l₁ = { l.link (k₁.nodes.getLast?.getD 0) (l.next e.node) with
      tail := if k₂ = [] then k₁.nodes.getLast?.getD 0 else l.tail }) :
    l₁.data e.node = e.data ∧ ∃ l', l₁.freeElem e.node = .ok l' ∧
      Spells start total l' (h.kmfree e.node).2 (k₁ ++ k₂) := by
  subst hl₁
  obtain ⟨hs₁, hdata, hno⟩ := hs.unlink
  have hlt := hs.wf.payload_lt hend (hs.owned e.node (mem_nodes (by simp)))
  obtain ⟨s, hk, hs₂⟩ := hs₁.kmfree hend hlt hno
  exact ⟨hdata, _, by simp only [freeElem, hk], hs₂⟩

theorem Spells.removeFirst (hs : Spells start total l h k)
    (hend : start + memBlockSize * total < 2 ^ 64) :
    ∃ l', l.removeFirst = .ok ((KList.removeFirst h k).1.getD 0, l') ∧
      Spells start total l' (KList.removeFirst h k).2.1 (KList.removeFirst h k).2.2 := by
  cases k with
  | nil =>
    refine ⟨l, ?_, hs⟩
    simp only [NodeList.removeFirst, if_pos (hs.head_null.2 rfl)]
    rfl
  | cons e k =>
    have hs₀ : Spells start total l h ([] ++ e :: k) := hs
    obtain ⟨hdata, l', hfree, hs'⟩ := hs₀.remove hend rfl
    obtain ⟨hhead, h0, hrest⟩ := hs.chain
    have hrest0 : l.next e.node = 0 ↔ k = [] := by
      rw [seg_null hrest]
      simp
    refine ⟨l', ?_, hs'⟩
    simp only [KList.nodes_nil, List.getLast?_nil, Option.getD_none, link, ne_eq, not_true_eq_false,
      if_false] at hfree hdata
    simp only [NodeList.removeFirst, hhead, if_neg h0, hrest0, bind, Except.bind, pure, Except.pure]
    split_ifs at * <;> simp [hfree, hdata, KList.removeFirst]

/-- The loop of `removeLast` stops at `tail`. -/
theorem Spells.removeLast (hs : Spells start total l h k)
    (hend : start + memBlockSize * total < 2 ^ 64) :
    ∃ l', l.removeLast = .ok (k.items.getLast?.getD 0, l') ∧
      Spells start total l' (match k.nodes.getLast? with
        | none => h
        | some p => (h.kmfree p).2) k.dropLast := by
  rcases List.eq_nil_or_concat' k with rfl | ⟨k₁, e, rfl⟩
  · refine ⟨l, ?_, hs⟩
    simp only [NodeList.removeLast, if_pos (hs.head_null.2 rfl)]
    rfl
  · obtain ⟨hdata, l', hfree, hs'⟩ := hs.remove hend rfl
    have hchain := hs.chain
    have hnd := hs.nodup
    simp only [KList.nodes_append, KList.nodes_cons, KList.nodes_nil] at hchain hnd
    obtain ⟨-, h0, hnull⟩ := seg_concat.1 hchain
    have htail : l.tail = e.node := by simp [hs.tail]
    have hpass : ∀ x ∈ k₁, (!decide (x.node = e.node)) = true := by
      intro x hx
      have hne : x.node ≠ e.node := (List.nodup_append.1 hnd).2.2 _ (mem_nodes hx) _ (by simp)
      simp [hne]
    have hwalk := hs.walk (fun curr => !decide (curr = l.tail)) (fun x => !decide (x.node = e.node))
      fun x _ => by rw [htail]
    rw [List.takeWhile_append_of_pos hpass, List.dropWhile_append_of_pos hpass] at hwalk
    have hne : k₁ ++ [e] ≠ [] := by simp
    rw [hnull, if_pos rfl] at hfree hdata
    refine ⟨l', ?_, by simpa using hs'⟩
    simp only [NodeList.removeLast, if_neg (hs.head_null.not.2 hne), hwalk]
    simp [ended, htail, h0, bind, Except.bind, pure, Except.pure, hfree, hdata]

/-- A null pointer is not looked for. -/
theorem Spells.removeSpec (hs : Spells start total l h k)
    (hend : start + memBlockSize * total < 2 ^ 64) (h0 : ptr ≠ 0) :
    ∃ l', l.removeSpec ptr = .ok ((KList.removeSpec h k ptr).1, l') ∧
      Spells start total l' (KList.removeSpec h k ptr).2.1 (KList.removeSpec h k ptr).2.2 := by
  have hwalk := hs.walk (fun curr => !decide (l.data curr = ptr)) (fun x => !decide (x.data = ptr))
    fun x hx => by rw [hs.data x hx]
  rcases KList.removeSpec_cases h k ptr with ⟨hno, hr⟩ | ⟨k₁, e, k₂, rfl, hpass, rfl, hr⟩
  · have hpass : ∀ x ∈ k, (!decide (x.data = ptr)) = true := by
      intro x hx
      have hne : x.data ≠ ptr := fun he => hno (he ▸ List.mem_map_of_mem hx)
      simpa using hne
    rw [List.dropWhile_eq_nil_iff.2 hpass] at hwalk
    rw [hr]
    refine ⟨l, ?_, hs⟩
    simp only [NodeList.removeSpec, if_neg h0, hwalk]
    rfl
  · have hpass : ∀ x ∈ k₁, (!decide (x.data = e.data)) = true := by simpa using hpass
    rw [List.takeWhile_append_of_pos hpass, List.dropWhile_append_of_pos hpass] at hwalk
    simp only [decide_true, Bool.not_true, List.takeWhile_cons, List.dropWhile_cons, Bool.false_eq_true,
      if_false, List.append_nil] at hwalk
    rw [hr]
    obtain ⟨hdata, l', hfree, hs'⟩ := hs.remove hend rfl
    have hcurr : (KList.nodes (e :: k₂)).head?.getD 0 = e.node := rfl
    have hne : e.node ≠ 0 := seg_ne_zero hs.chain e.node (mem_nodes (by simp))
    have hlast := hs.tail_iff
    refine ⟨l', ?_, hs'⟩
    simp only [NodeList.removeSpec, if_neg h0, hwalk, hcurr, ended, bind, Except.bind, pure, Except.pure,
      if_neg hne, link_tail, hlast, link_with_tail, hfree]

/-! Calls that look at one end. -/

theorem Spells.peekFirst (hs : Spells start total l h k) :
    l.peekFirst = k.items.head?.getD 0 := by
  cases k with
  | nil => simp [NodeList.peekFirst, hs.head_null]
  | cons e k =>
    have hhead : l.head = e.node := hs.start_eq
    have h0 : e.node ≠ 0 := seg_ne_zero hs.chain e.node (mem_nodes (by simp))
    simp [NodeList.peekFirst, hhead, h0, hs.data e (by simp)]

theorem Spells.peekLast (hs : Spells start total l h k) : l.peekLast = k.items.getLast?.getD 0 := by
  rcases List.eq_nil_or_concat' k with rfl | ⟨k, e, rfl⟩
  · simp [NodeList.peekLast, hs.tail_null]
  · have htail : l.tail = e.node := by simp [hs.tail]
    have h0 : e.node ≠ 0 := seg_ne_zero hs.chain e.node (mem_nodes (by simp))
    simp [NodeList.peekLast, htail, h0, hs.data e (by simp)]

end NodeList
end OSK
