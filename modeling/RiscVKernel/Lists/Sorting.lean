import RiscVKernel.Lib.Sorting
import RiscVKernel.Lists.Refinement

/-! `sort` on the nodes of a list: the links are rewritten so that they spell what
`List.mergeSort` makes of the data. The nodes stay, and nothing but their `next` is
written. -/

namespace OSK

open Lib

namespace NodeList

variable {cmp le : ℕ → ℕ → Bool} {start total fuel head left right slow fast : ℕ}
  {l l' l₁ l₂ : NodeList} {xs ys zs zs' : List ℕ} {x : ℕ} {h : Heap} {k : KList ℕ}

/-- At most the `next` of the nodes `zs` was written. -/
structure Relinked (zs : List ℕ) (l l' : NodeList) : Prop where
  same : l' = { l with heap := { l.heap with mem := l'.heap.mem } }
  mem : ∀ a, (∀ z ∈ zs, a ≠ z + 8) → l'.heap.mem a = l.heap.mem a

theorem Relinked.refl (zs : List ℕ) (l : NodeList) : Relinked zs l l := ⟨rfl, fun _ _ => rfl⟩

theorem Relinked.trans (h : Relinked zs l l₁) (h' : Relinked zs l₁ l₂) : Relinked zs l l₂ := by
  refine ⟨?_, fun a ha => (h'.mem a ha).trans (h.mem a ha)⟩
  rw [h'.same, h.same]

theorem Relinked.mono (h : Relinked zs l l') (hsub : ∀ z ∈ zs, z ∈ zs') : Relinked zs' l l' :=
  ⟨h.same, fun a ha => h.mem a fun z hz => ha z (hsub z hz)⟩

theorem Relinked.setNext {z : ℕ} (v : ℕ) (hz : z ∈ zs) : Relinked zs l (l.setNext z v) := by
  refine ⟨rfl, fun a ha => ?_⟩
  simp [NodeList.setNext, ha z hz]

theorem Relinked.next (h : Relinked zs l l') {y : ℕ} (hy : y ∉ zs) : l'.next y = l.next y :=
  h.mem (y + 8) fun _ hz he => hy (Nat.add_right_cancel he ▸ hz)

theorem Relinked.data (h : Relinked zs l l') {y : ℕ} (hy : ∀ z ∈ zs, y ≠ z + 8) :
    l'.data y = l.data y :=
  h.mem y hy

theorem Relinked.loopBound (h : Relinked zs l l') : l'.loopBound = l.loopBound := by
  rw [h.same]
  rfl

/-- A node put in front of a list. -/
theorem seg_setNext {a : ℕ} (hs : Seg l.next a ys 0) (hx : x ∉ ys) (h0 : x ≠ 0) :
    Seg (l.setNext x a).next x (x :: ys) 0 := by
  rw [setNext_next]
  refine ⟨rfl, h0, ?_⟩
  rw [Function.update_self]
  exact seg_frame hs fun y hy => Function.update_of_ne (ne_of_mem_of_not_mem hy hx) _ _

/-- `merge` spells what `List.merge` makes of the two lists. -/
theorem merge_chain (hx : Seg l.next left xs 0) (hy : Seg l.next right ys 0)
    (hnd : (xs ++ ys).Nodup) (hf : xs.length + ys.length < fuel)
    (hle : ∀ a ∈ xs, ∀ b ∈ ys, le a b = cmp (l.data a) (l.data b)) :
    ∃ a l', merge cmp fuel l left right = some (a, l') ∧
      Seg l'.next a (List.merge xs ys le) 0 ∧ Relinked (xs ++ ys) l l' := by
  induction fuel generalizing left right xs ys with
  | zero => omega
  | succ fuel ih =>
    cases xs with
    | nil =>
      refine ⟨right, l, ?_, by simpa using hy, .refl _ _⟩
      simp [merge, show left = 0 from hx]
    | cons x xs =>
      obtain ⟨rfl, hx0, hxs⟩ := hx
      cases ys with
      | nil =>
        refine ⟨left, l, ?_, by simpa [Seg] using ⟨hx0, hxs⟩, .refl _ _⟩
        simp [merge, show right = 0 from hy, hx0]
      | cons y ys =>
        obtain ⟨rfl, hy0, hys⟩ := hy
        have hpick := hle left (by simp) right (by simp)
        have hnd' := List.nodup_middle.1 hnd
        cases hc : le left right with
        | true =>
          rw [hc] at hpick
          obtain ⟨hfresh, hnd₁⟩ := List.nodup_cons.1 hnd
          have hright : Seg l.next right (right :: ys) 0 := ⟨rfl, hy0, hys⟩
          obtain ⟨a, l₁, hm, hs, hr⟩ := ih hxs hright hnd₁
            (by simp only [List.length_cons] at hf ⊢; omega) fun a ha => hle a (by simp [ha])
          refine ⟨left, l₁.setNext left a, by simp [merge, hx0, hy0, ← hpick, hm], ?_, ?_⟩
          · rw [List.cons_merge_cons_pos _ _ _ hc]
            exact seg_setNext hs (fun hm => hfresh (List.mem_append.2 (List.mem_merge.1 hm))) hx0
          · exact (hr.mono fun z hz => List.mem_cons_of_mem _ hz).trans (.setNext a (by simp))
        | false =>
          rw [hc] at hpick
          obtain ⟨hfresh, hnd₁⟩ := List.nodup_cons.1 hnd'
          have hleft : Seg l.next left (left :: xs) 0 := ⟨rfl, hx0, hxs⟩
          obtain ⟨a, l₁, hm, hs, hr⟩ := ih hleft hys hnd₁
            (by simp only [List.length_cons] at hf ⊢; omega) fun a ha b hb => hle a ha b (by simp [hb])
          refine ⟨right, l₁.setNext right a, by simp [merge, hx0, hy0, ← hpick, hm], ?_, ?_⟩
          · rw [List.cons_merge_cons_neg _ _ _ (by simp [hc])]
            exact seg_setNext hs (fun hm => hfresh (List.mem_append.2 (List.mem_merge.1 hm))) hy0
          · have hsub := (List.sublist_cons_self right ys).append_left (left :: xs)
            exact (hr.mono fun z hz => hsub.subset hz).trans (.setNext a (by simp))

/-- The middle of the list, found by the pointer that goes half as fast. -/
theorem middle_chain (hs : Seg l.next slow (x :: xs) 0) (hf : Seg l.next fast ys 0)
    (hlen : ys.length ≤ xs.length) (hfuel : ys.length < fuel) :
    ∃ as m bs, x :: xs = as ++ m :: bs ∧ as.length = ys.length / 2 ∧
      l.middle fuel slow fast = some m := by
  induction fuel generalizing slow fast x xs ys with
  | zero => omega
  | succ fuel ih =>
    obtain ⟨rfl, hx0, hxs⟩ := hs
    match ys with
    | [] => exact ⟨[], slow, xs, rfl, rfl, by simp [middle, show fast = 0 from hf]⟩
    | [y] =>
      obtain ⟨rfl, h0, hnull⟩ := hf
      obtain ⟨as, m, bs, hsplit, has, hm⟩ := ih ⟨rfl, hx0, hxs⟩ hnull (Nat.zero_le _)
        (by simpa using hfuel)
      have hz : l.next fast = 0 := hnull
      refine ⟨as, m, bs, hsplit, by simpa using has, ?_⟩
      simpa [middle, h0, hz] using hm
    | y :: y' :: ys =>
      obtain ⟨rfl, h0, rfl, h0', hys⟩ := hf
      cases xs with
      | nil => simp at hlen
      | cons x' xs =>
        obtain ⟨as, m, bs, hsplit, has, hm⟩ := ih hxs hys (by simp at hlen; omega)
          (by simp at hfuel; omega)
        refine ⟨slow :: as, m, bs, by rw [hsplit]; rfl, ?_, ?_⟩
        · simp only [List.length_cons, has]
          omega
        · simpa [middle, h0, h0'] using hm

theorem getMiddle_chain (hs : Seg l.next head xs 0) (hne : xs ≠ []) (hlen : xs.length < l.loopBound) :
    ∃ as m bs, xs = as ++ m :: bs ∧ as.length + 1 = (xs.length + 1) / 2 ∧
      l.getMiddle head = some m := by
  cases xs with
  | nil => exact absurd rfl hne
  | cons x xs =>
    obtain ⟨rfl, h0, hxs⟩ := hs
    have hfuel : xs.length < l.loopBound := by
      rw [List.length_cons] at hlen
      omega
    obtain ⟨as, m, bs, hsplit, has, hm⟩ := middle_chain ⟨rfl, h0, hxs⟩ hxs le_rfl hfuel
    refine ⟨as, m, bs, hsplit, by simp [has]; omega, ?_⟩
    rwa [getMiddle, if_neg h0]

/-- A list cut behind its middle, and what `List.mergeSort` does with the halves. -/
theorem cut_chain (le : ℕ → ℕ → Bool) (hs : Seg l.next head xs 0) (htwo : 2 ≤ xs.length)
    (hlen : xs.length < l.loopBound) :
    ∃ m ls bs, l.getMiddle head = some m ∧ xs = ls ++ bs ∧ m ∈ ls ∧
      ls.length < xs.length ∧ bs.length < xs.length ∧
      xs.mergeSort le = List.merge (ls.mergeSort le) (bs.mergeSort le) le ∧
      Seg (l.setNext m 0).next head ls 0 ∧ Seg (l.setNext m 0).next (l.next m) bs 0 := by
  obtain ⟨as, m, bs, hsplit, has, hm⟩ := getMiddle_chain hs (by rintro rfl; simp at htwo) hlen
  obtain rfl : xs = (as ++ [m]) ++ bs := by simpa using hsplit
  have hhalves := mergeSort_halves le htwo
  have hhalf : (as ++ [m]).length = ((as ++ [m] ++ bs).length + 1) / 2 := by simpa using has
  rw [← hhalf, List.take_left, List.drop_left] at hhalves
  have hshort : (as ++ [m]).length < (as ++ [m] ++ bs).length ∧
      bs.length < (as ++ [m] ++ bs).length := by
    simp only [List.length_append, List.length_singleton] at *
    omega
  have hcut := seg_cut hs
  rw [← setNext_next] at hcut
  exact ⟨m, as ++ [m], bs, hm, rfl, by simp, hshort.1, hshort.2, hhalves, hcut⟩

/-- `mergeSort` spells what `List.mergeSort` makes of the list: the two halves are
sorted apart from each other, then merged. -/
theorem mergeSort_chain (hs : Seg l.next head xs 0) (hapart : ∀ a ∈ xs, ∀ b ∈ xs, a ≠ b + 8)
    (hlen : xs.length < l.loopBound) (hf : xs.length < fuel)
    (hle : ∀ a ∈ xs, ∀ b ∈ xs, le a b = cmp (l.data a) (l.data b)) :
    ∃ a l', mergeSort cmp fuel l head = some (a, l') ∧ Seg l'.next a (xs.mergeSort le) 0 ∧
      Relinked xs l l' := by
  induction fuel generalizing l head xs with
  | zero => omega
  | succ fuel ih =>
    match xs with
    | [] => exact ⟨head, l, by simp [mergeSort, show head = 0 from hs], by simpa using hs, .refl _ _⟩
    | [x] =>
      obtain ⟨rfl, h0, hnull⟩ := hs
      have hz : l.next head = 0 := hnull
      exact ⟨head, l, by simp [mergeSort, hz], by simpa [Seg] using ⟨h0, hz⟩, .refl _ _⟩
    | x :: y :: zs =>
      have hshort : ¬(head = 0 ∨ l.next head = 0) := by
        obtain ⟨rfl, h0, rfl, h0', -⟩ := hs
        simp [h0, h0']
      have htwo : 2 ≤ (x :: y :: zs).length := by simp
      generalize x :: y :: zs = xs at *
      obtain ⟨m, ls, bs, hm, rfl, hmem, hlsl, hbsl, hhalves, hleft₁, hright₁⟩ :=
        cut_chain le hs htwo hlen
      have hdisj := (List.nodup_append.1 (seg_nodup hs)).2.2
      have hlf : ls.length < fuel := by omega
      have hbf : bs.length < fuel := by omega
      have hll : ls.length < l.loopBound := hlsl.trans hlen
      have hbl : bs.length < l.loopBound := hbsl.trans hlen
      have hls : ∀ z ∈ ls, z ∈ ls ++ bs := fun z hz => List.mem_append_left bs hz
      have hbs : ∀ z ∈ bs, z ∈ ls ++ bs := fun z hz => List.mem_append_right ls hz
      have hkeep : ∀ {l' a b}, Relinked (ls ++ bs) l l' → a ∈ ls ++ bs → b ∈ ls ++ bs →
          le a b = cmp (l'.data a) (l'.data b) := by
        intro l' a b hr ha hb
        rw [hr.data (hapart a ha), hr.data (hapart b hb), hle a ha b hb]
      -- the list is cut behind the middle
      have hr₁ : Relinked (ls ++ bs) l (l.setNext m 0) := .setNext 0 (hls m hmem)
      -- the left half
      obtain ⟨left, l₂, hsort₂, hleft₂, hrl₂⟩ := ih hleft₁
        (fun a ha b hb => hapart a (hls a ha) b (hls b hb)) (hr₁.loopBound ▸ hll) hlf
        fun a ha b hb => hkeep hr₁ (hls a ha) (hls b hb)
      have hr₂ := hr₁.trans (hrl₂.mono hls)
      have hright₂ : Seg l₂.next (l.next m) bs 0 :=
        seg_frame hright₁ fun y hy => hrl₂.next fun hyl => hdisj y hyl y hy rfl
      -- the right half
      obtain ⟨right, l₃, hsort₃, hright₃, hrl₃⟩ := ih hright₂
        (fun a ha b hb => hapart a (hbs a ha) b (hbs b hb)) (hr₂.loopBound ▸ hbl) hbf
        fun a ha b hb => hkeep hr₂ (hbs a ha) (hbs b hb)
      have hr₃ := hr₂.trans (hrl₃.mono hbs)
      have hleft₃ : Seg l₃.next left (ls.mergeSort le) 0 := by
        refine seg_frame hleft₂ fun y hy => hrl₃.next fun hyb => ?_
        exact hdisj y (List.mem_mergeSort.1 hy) y hyb rfl
      have hperm : (ls.mergeSort le ++ bs.mergeSort le).Perm (ls ++ bs) :=
        (List.mergeSort_perm ls le).append (List.mergeSort_perm bs le)
      have hfuel : (ls.mergeSort le).length + (bs.mergeSort le).length < l₃.loopBound := by
        simpa [hr₃.loopBound] using hlen
      obtain ⟨a, l₄, hmerge, hs₄, hrl₄⟩ := merge_chain hleft₃ hright₃
        (hperm.nodup_iff.2 (seg_nodup hs)) hfuel fun a ha b hb =>
          hkeep hr₃ (hls a (List.mem_mergeSort.1 ha)) (hbs b (List.mem_mergeSort.1 hb))
      refine ⟨a, l₄, ?_, hhalves ▸ hs₄, hr₃.trans (hrl₄.mono fun z hz => hperm.mem_iff.1 hz)⟩
      simp [mergeSort, hshort, hm, hsort₂, hsort₃, hmerge]

theorem lastElem_chain {a : ℕ} (hs : Seg l.next a (xs ++ [x]) 0) (hf : xs.length < fuel) :
    l.lastElem fuel a = some x := by
  induction xs generalizing a fuel with
  | nil =>
    obtain ⟨f, rfl⟩ : ∃ f, fuel = f + 1 := ⟨fuel - 1, by omega⟩
    obtain ⟨rfl, -, hnull⟩ := hs
    simp [lastElem, show l.next a = 0 from hnull]
  | cons y xs ih =>
    obtain ⟨f, rfl⟩ : ∃ f, fuel = f + 1 := ⟨fuel - 1, by omega⟩
    obtain ⟨rfl, -, hxs⟩ := hs
    have hne : l.next a ≠ 0 := by
      rw [Ne, seg_null hxs]
      simp
    rw [lastElem, if_neg hne]
    exact ih hxs (by simpa using hf)

/-- Writing the links of nodes leaves the heap as it is. -/
theorem Relinked.represents (hr : Relinked zs l l') (hrep : Represents total l.heap h)
    (hw : h.WF start total) (hzs : ∀ z ∈ zs, z ∈ h.payloads) : Represents total l'.heap h := by
  have hmem : ∀ a ∈ headerWords (h.free ++ h.taken), l'.heap.mem a = l.heap.mem a := by
    intro a ha
    refine hr.mem a fun z hz he => ?_
    exact (hw.payload_words (hzs z hz)).2 (he ▸ ha)
  have hsame := congrArg NodeList.heap hr.same
  rw [hsame] at hmem ⊢
  exact Allocator.represents_congr hrep rfl rfl rfl rfl hmem

/-- `sort` keeps the nodes and puts them in the order in which `List.mergeSort` puts
the data. -/
theorem Spells.sort (hs : Spells start total l h k) (cmp : ℕ → ℕ → Bool) :
    ∃ l', l.sort cmp = .ok l' ∧
      Spells start total l' h (k.mergeSort fun e e' => cmp e.data e'.data) := by
  have hperm := List.mergeSort_perm k fun e e' => cmp e.data e'.data
  have hnodes : KList.nodes (k.mergeSort fun e e' => cmp e.data e'.data) =
      k.nodes.mergeSort fun a b => cmp (l.data a) (l.data b) := by
    refine List.map_mergeSort fun e he e' he' => ?_
    rw [hs.data e he, hs.data e' he']
  by_cases hshort : l.head = 0 ∨ l.next l.head = 0
  · have hk : k.mergeSort (fun e e' => cmp e.data e'.data) = k := by
      match k, hs.chain with
      | [], _ => simp
      | [e], _ => simp
      | e :: e' :: k, ⟨hhead, h0, hnext, h0', _⟩ =>
        rw [hhead] at hshort
        exact absurd hshort (by simp_all)
    exact ⟨l, by simp only [NodeList.sort, if_pos hshort]; rfl, hk.symm ▸ hs⟩
  · have hlen : k.nodes.length < l.loopBound := by simpa [KList.nodes] using hs.length_lt
    obtain ⟨a, l', hsort, hchain, hr⟩ := mergeSort_chain hs.chain
      (fun p hp q hq => hs.wf.payload_apart (hs.owned p hp) (hs.owned q hq)) hlen hlen
      fun _ _ _ _ => rfl
    rw [← hnodes] at hchain
    generalize k.mergeSort (fun e e' => cmp e.data e'.data) = k' at *
    have hmem : ∀ e ∈ k', e ∈ k := fun e he => hperm.mem_iff.1 he
    rcases List.eq_nil_or_concat' k' with rfl | ⟨k₁, e, rfl⟩
    · exact absurd (Or.inl (hs.head_null.2 hperm.symm.eq_nil)) hshort
    · have hlast : l'.lastElem l'.loopBound a = some e.node := by
        rw [KList.nodes_append] at hchain
        refine lastElem_chain hchain ?_
        have hlen' := hperm.length_eq
        simp only [KList.nodes, List.length_map, List.length_append, List.length_singleton] at *
        rw [hr.loopBound]
        omega
      refine ⟨{ l' with head := a, tail := e.node }, ?_, ?_⟩
      · simp only [NodeList.sort, if_neg hshort, hsort, ended, bind, Except.bind, pure, Except.pure,
          hlast]
      · refine ⟨hr.represents hs.heap hs.wf hs.owned, hs.wf, hchain, ?_, by simp, ?_⟩
        · intro x hx
          have hxk := mem_nodes (hmem x hx)
          have hkeep : l'.data x.node = l.data x.node :=
            hr.data fun z hz => hs.wf.payload_apart (hs.owned _ hxk) (hs.owned z hz)
          exact hkeep.trans (hs.data x (hmem x hx))
        · intro p hp
          obtain ⟨x, hx, rfl⟩ := List.mem_map.1 hp
          exact hs.owned _ (mem_nodes (hmem x hx))

end NodeList
end OSK
