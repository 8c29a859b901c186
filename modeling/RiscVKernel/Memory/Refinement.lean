import Mathlib.Data.List.Nodup
import Mathlib.Data.List.TakeWhile
import RiscVKernel.Memory.Words

/-! The allocator over memory words computes what the allocator over block lists
computes: `Represents` relates the two states, and each call keeps it. -/

namespace OSK

open Lib

/-- The words hold the two lists of `h`. -/
structure Represents (total : ℕ) (s : Allocator) (h : Heap) : Prop where
  ready : s.initialazed = true
  total : s.totalBlocks = total
  free : Seg s.mem s.headFree (h.free.map (·.addr)) 0
  taken : Seg s.mem s.headTaken (h.taken.map (·.addr)) 0
  sizes : ∀ b ∈ h.free ++ h.taken, s.mem (b.addr + 8) = b.size

namespace Allocator

variable {s : Allocator} {mem : ℕ → ℕ} {a v prev cur next : ℕ} {bs : List Block} {xs ys : List ℕ}

@[simp] theorem store_mem (s : Allocator) (a v : ℕ) :
    (s.store a v).mem = Function.update s.mem a v := rfl
@[simp] theorem store_headFree (s : Allocator) (a v : ℕ) : (s.store a v).headFree = s.headFree := rfl
@[simp] theorem store_headTaken (s : Allocator) (a v : ℕ) :
    (s.store a v).headTaken = s.headTaken := rfl
@[simp] theorem store_totalBlocks (s : Allocator) (a v : ℕ) :
    (s.store a v).totalBlocks = s.totalBlocks := rfl
@[simp] theorem store_initialazed (s : Allocator) (a v : ℕ) :
    (s.store a v).initialazed = s.initialazed := rfl

end Allocator

/-! The header words of different blocks are different words. -/

variable {start total n : ℕ} {s : Allocator} {h : Heap}

theorem Heap.WF.size_word_ne (hw : h.WF start total) {b c : Block} (hb : b ∈ h.free ++ h.taken)
    (hc : c ∈ h.free ++ h.taken) : c.addr ≠ b.addr + 8 := by
  obtain ⟨k, hk⟩ := hw.aligned hb
  obtain ⟨j, hj⟩ := hw.aligned hc
  unfold memBlockSize at *
  omega

/-- No header word of one block is a header word of the other. -/
def Apart (c d : Block) : Prop :=
  d.addr ≠ c.addr ∧ d.addr ≠ c.addr + 8 ∧ c.addr ≠ d.addr + 8

theorem Apart.symm {c d : Block} (h : Apart c d) : Apart d c := ⟨h.1.symm, h.2.2, h.2.1⟩

theorem Heap.WF.apart (hw : h.WF start total) : (h.free ++ h.taken).Pairwise Apart :=
  (List.pairwise_map.1 hw.nodup).imp_of_mem fun hb hc hne =>
    ⟨hne.symm, hw.size_word_ne hb hc, hw.size_word_ne hc hb⟩

/-- A taken block and the free list are apart from the other taken blocks. -/
theorem Heap.WF.apart_erase (hw : h.WF start total) {b : Block} (hb : b ∈ h.taken) :
    (b :: h.free).Pairwise Apart ∧ ∀ c ∈ b :: h.free, ∀ d ∈ h.taken.erase b, Apart c d := by
  have hp : (h.free ++ h.taken).Perm ((b :: h.free) ++ h.taken.erase b) :=
    ((List.perm_cons_erase hb).append_left _).trans List.perm_middle
  obtain ⟨h1, -, h2⟩ := List.pairwise_append.1 ((hp.pairwise_iff Apart.symm).1 hw.apart)
  exact ⟨h1, h2⟩

/-- The header words of a list of blocks. -/
def headerWords (bs : List Block) : List ℕ := bs.flatMap fun b => [b.addr, b.addr + 8]

theorem mem_headerWords {a : ℕ} {bs : List Block} :
    a ∈ headerWords bs ↔ ∃ b ∈ bs, a = b.addr ∨ a = b.addr + 8 := by
  simp [headerWords]

theorem notMem_headerWords {a : ℕ} {bs : List Block} :
    a ∉ headerWords bs ↔ ∀ b ∈ bs, a ≠ b.addr ∧ a ≠ b.addr + 8 := by
  rw [mem_headerWords]
  push Not
  rfl

theorem notMem_headerWords_singleton {a : ℕ} {b : Block} :
    a ∉ headerWords [b] ↔ a ≠ b.addr ∧ a ≠ b.addr + 8 := by
  simp [headerWords]

theorem header_notMem {bs : List Block} {d : Block} (hd : ∀ c ∈ bs, Apart c d) :
    d.addr ∉ headerWords bs ∧ d.addr + 8 ∉ headerWords bs := by
  refine ⟨notMem_headerWords.2 ?_, notMem_headerWords.2 ?_⟩
  · intro c hc
    exact ⟨(hd c hc).1, (hd c hc).2.1⟩
  · intro c hc
    exact ⟨(hd c hc).2.2.symm, fun he => (hd c hc).1 (Nat.add_right_cancel he)⟩

/-- Writing header words of other blocks leaves those of `d`. -/
theorem header_frame {m m' : ℕ → ℕ} {bs : List Block} {d : Block}
    (hm : ∀ a ∉ headerWords bs, m' a = m a) (hd : ∀ c ∈ bs, Apart c d) :
    m' d.addr = m d.addr ∧ m' (d.addr + 8) = m (d.addr + 8) :=
  ⟨hm _ (header_notMem hd).1, hm _ (header_notMem hd).2⟩

theorem seg_apart {m m' : ℕ → ℕ} {a x : ℕ} {bs ds : List Block} (hs : Seg m a (ds.map (·.addr)) x)
    (hm : ∀ a ∉ headerWords bs, m' a = m a) (hd : ∀ d ∈ ds, ∀ c ∈ bs, Apart c d) :
    Seg m' a (ds.map (·.addr)) x := by
  apply seg_frame hs
  intro y hy
  obtain ⟨d, hd', rfl⟩ := List.mem_map.1 hy
  exact (header_frame hm (hd d hd')).1

theorem wrap_of_lt {x : ℕ} (h : x < 2 ^ 64) : wrap x = x := Nat.mod_eq_of_lt h

/-- The end of a block that does not wrap around. -/
theorem wrap_stop {x n : ℕ} (h : x + n * memBlockSize < 2 ^ 64) :
    wrap (x + wrap (n * memBlockSize)) = x + n * memBlockSize := by
  rw [wrap_of_lt (x := n * memBlockSize) (by omega), wrap_of_lt h]

theorem wrapSub_of_le {x y : ℕ} (hx : x < 2 ^ 64) (hy : y ≤ x) : wrapSub x y = x - y := by
  unfold wrapSub wrap
  omega

/-- The first block that fits, found in the words. -/
theorem Represents.find_fit (hr : Represents total s h) (hw : h.WF start total) (n : ℕ) :
    walk s.mem (fun cur => s.mem (cur + 8) < n) s.loopBound s.headFree 0 =
      some (((h.free.dropWhile (·.size < n)).map (·.addr)).head?.getD 0,
        ((h.free.takeWhile (·.size < n)).map (·.addr)).getLast?.getD 0) := by
  have hl := hw.length_le
  refine walk_map hr.free ?_ ?_
  · rw [Allocator.loopBound, hr.total]
    omega
  · intro b hb
    rw [hr.sizes b (List.mem_append_left _ hb)]

theorem kmalloc_null (B : HeapBounds) (hr : Represents total s h) (hw : h.WF start total)
    (hm : h.kmalloc n = none) : s.kmalloc B n = some (0, s) := by
  have hi : Allocator.init B s = s := by simp [Allocator.init, hr.ready]
  unfold Allocator.kmalloc
  rw [hi]
  by_cases h0 : n = 0
  · simp [h0]
  · simp only [Heap.kmalloc, h0, if_false, Heap.takeFit_eq] at hm
    rw [if_neg h0, hr.find_fit hw]
    cases hd : h.free.dropWhile (·.size < n) with
    | nil => simp
    | cons b bs => simp [hd] at hm

variable {F T : List Block} {b : Block}

theorem pushTaken_mem {a : ℕ} (ha : a ∉ headerWords [b]) :
    (s.pushTaken b.addr n).mem a = s.mem a := by
  obtain ⟨h1, h2⟩ := notMem_headerWords_singleton.1 ha
  simp [Allocator.pushTaken, h1, h2]

theorem pushTaken_represents (hi : s.initialazed = true) (ht : s.totalBlocks = total)
    (hF : Seg s.mem s.headFree (F.map (·.addr)) 0) (hT : Seg s.mem s.headTaken (T.map (·.addr)) 0)
    (hsz : ∀ c ∈ F ++ T, s.mem (c.addr + 8) = c.size) (hb : b.addr ≠ 0)
    (hw : Heap.WF start total ⟨F, b :: T⟩) :
    Represents total (s.pushTaken b.addr b.size) ⟨F, b :: T⟩ := by
  have hp : (F ++ b :: T).Perm (b :: (F ++ T)) := List.perm_middle
  have hap : ∀ d ∈ F ++ T, ∀ c ∈ [b], Apart c d := fun d hd =>
    List.forall_mem_singleton.2 <|
      (List.pairwise_cons.1 ((hp.pairwise_iff Apart.symm).1 hw.apart)).1 d hd
  have hm : ∀ a ∉ headerWords [b], (s.pushTaken b.addr b.size).mem a = s.mem a :=
    fun a => pushTaken_mem
  have hhead : (s.pushTaken b.addr b.size).mem b.addr = s.headTaken := by
    simp [Allocator.pushTaken]
  refine ⟨hi, ht, ?_, ⟨rfl, hb, ?_⟩, ?_⟩
  · exact seg_apart hF hm fun d hd => hap d (List.mem_append_left _ hd)
  · rw [hhead]
    exact seg_apart hT hm fun d hd => hap d (List.mem_append_right _ hd)
  · intro c hc
    rcases List.mem_cons.1 (hp.mem_iff.1 hc) with rfl | hc
    · simp [Allocator.pushTaken]
    · rw [(header_frame hm (hap c hc)).2]
      exact hsz c hc

variable {lo bs : List Block}

/-- The links before and behind a block of the free list. -/
theorem Represents.split_free (hr : Represents total s h) (hf : h.free = lo ++ b :: bs) :
    Seg s.mem s.headFree (lo.map (·.addr)) b.addr ∧ b.addr ≠ 0 ∧
      Seg s.mem (s.mem b.addr) (bs.map (·.addr)) 0 := by
  have h1 := hr.free
  rw [hf, List.map_append, List.map_cons] at h1
  obtain ⟨m, h2, rfl, h3, h4⟩ := seg_append.1 h1
  exact ⟨h2, h3, h4⟩

theorem Heap.WF.taken_notMem (hw : h.WF start total) : ∀ c ∈ h.taken, c.addr ∉ h.free.map (·.addr) := by
  have hn := hw.nodup
  rw [List.map_append, List.nodup_append] at hn
  exact fun c hc hf => hn.2.2 _ hf _ (List.mem_map_of_mem hc) rfl

/-- The whole of the block is taken: the block before it is linked to the next one. -/
theorem takeOut_exact (hr : Represents total s h) (hf : h.free = lo ++ b :: bs) (hn : n = b.size) :
    let s' := s.takeOut b.addr ((lo.map (·.addr)).getLast?.getD 0) n
    Seg s'.mem s'.headFree ((lo ++ bs).map (·.addr)) 0 ∧
      ∀ x ∉ lo.map (·.addr), s'.mem x = s.mem x := by
  have hsize : s.mem (b.addr + 8) = b.size := hr.sizes b (by simp [hf])
  have hto : s.takeOut b.addr ((lo.map (·.addr)).getLast?.getD 0) n =
      s.linkFree ((lo.map (·.addr)).getLast?.getD 0) (s.mem b.addr) := by
    simp [Allocator.takeOut, hsize, hn]
  have hchain := hr.free
  rw [hf, List.map_append, List.map_cons] at hchain
  rw [hto, List.map_append]
  exact ⟨seg_remove hchain, fun x hx => relink_of_notMem hx⟩

/-- What is left of a split block is apart from all other blocks. -/
theorem Heap.WF.apart_leftover {ls : List Block} {c : Block}
    (hw : Heap.WF start total ⟨lo ++ ls ++ bs, c :: T⟩) :
    ∀ d ∈ c :: (lo ++ bs ++ T), ∀ l ∈ ls, Apart l d := by
  have hp : (lo ++ ls ++ bs ++ c :: T).Perm (ls ++ c :: (lo ++ bs ++ T)) := by
    refine List.perm_middle.trans (.trans (.cons c ?_) List.perm_middle.symm)
    simp only [List.append_assoc]
    exact List.perm_append_comm_assoc lo ls (bs ++ T)
  have hap := List.pairwise_append.1 ((hp.pairwise_iff Apart.symm).1 hw.apart)
  exact fun d hd l hl => hap.2.2 l hl d hd

/-- The block is split: what is left of it takes its place in the free list. -/
theorem takeOut_split (hr : Represents total s h) (hw : h.WF start total)
    (hf : h.free = lo ++ b :: bs) (hn : n < b.size) {l : Block}
    (hl : l = ⟨b.addr + n * memBlockSize, b.size - n⟩) (hend : start + memBlockSize * total < 2 ^ 64)
    (hw' : Heap.WF start total ⟨lo ++ l :: bs, ⟨b.addr, n⟩ :: h.taken⟩) :
    let s' := s.takeOut b.addr ((lo.map (·.addr)).getLast?.getD 0) n
    Seg s'.mem s'.headFree ((lo ++ l :: bs).map (·.addr)) 0 ∧ s'.mem (l.addr + 8) = l.size ∧
      ∀ x ∉ lo.map (·.addr), x ∉ headerWords [l] → s'.mem x = s.mem x := by
  obtain ⟨h1, hb0, h3⟩ := hr.split_free hf
  have hap : ∀ d ∈ ⟨b.addr, n⟩ :: (lo ++ bs ++ h.taken), ∀ c ∈ [l], Apart c d :=
    Heap.WF.apart_leftover (by simpa using hw')
  have hlb := hap _ List.mem_cons_self l (by simp)
  have hsize : s.mem (b.addr + 8) = b.size := hr.sizes b (by simp [hf])
  have hb := (hw.bounds (b := b) (by simp [hf])).2.2
  have hleft : wrap (b.addr + wrap (n * memBlockSize)) = l.addr := by
    rw [hl]
    apply wrap_stop
    unfold Span.stop memBlockSize at *
    omega
  have hless : wrapSub b.size n = l.size := by
    unfold Span.stop memBlockSize at *
    rw [wrapSub_of_le (by omega) hn.le, hl]
  have hl0 : l.addr ≠ 0 := by
    rw [hl]
    dsimp only
    omega
  -- the words of the leftover are written before the links change
  let m := Function.update (Function.update s.mem l.addr (s.mem b.addr)) (l.addr + 8) l.size
  have hm : ∀ x ∉ headerWords [l], m x = s.mem x := fun x hx => by
    obtain ⟨h4, h5⟩ := notMem_headerWords_singleton.1 hx
    simp [m, h4, h5]
  have hto : s.takeOut b.addr ((lo.map (·.addr)).getLast?.getD 0) n =
      Allocator.linkFree { s with mem := m } ((lo.map (·.addr)).getLast?.getD 0) l.addr := by
    have h8 : b.addr + 8 ≠ l.addr := hlb.2.2.symm
    simp [Allocator.takeOut, hsize, hn.ne, hleft, hless, Allocator.store, h8, m]
  have hlo : Seg m s.headFree (lo.map (·.addr)) b.addr :=
    seg_apart h1 hm fun d hd => hap d (by simp [hd])
  have hrest : Seg m (m l.addr) (bs.map (·.addr)) 0 := by
    have hml : m l.addr = s.mem b.addr := by simp [m]
    rw [hml]
    exact seg_apart h3 hm fun d hd => hap d (by simp [hd])
  have hnot : l.addr + 8 ∉ lo.map (·.addr) := by
    intro hx
    obtain ⟨d, hd, he⟩ := List.mem_map.1 hx
    exact (hap d (by simp [hd]) l (by simp)).2.1 he
  rw [hto]
  refine ⟨?_, ?_, ?_⟩
  · have hnd := hw'.nodup
    rw [List.map_append, List.nodup_append] at hnd
    rw [List.map_append, List.map_cons]
    refine seg_splice hlo ⟨rfl, hl0, hrest⟩ ?_
    simpa using hnd.1
  · simp only [Allocator.linkFree]
    rw [relink_of_notMem hnot]
    simp [m]
  · intro x hx hxl
    simp only [Allocator.linkFree]
    rw [relink_of_notMem hx, hm x hxl]

namespace Allocator

variable {cur prev : ℕ}

@[simp] theorem takeOut_initialazed : (s.takeOut cur prev n).initialazed = s.initialazed := by
  unfold takeOut
  split_ifs <;> rfl

@[simp] theorem takeOut_totalBlocks : (s.takeOut cur prev n).totalBlocks = s.totalBlocks := by
  unfold takeOut
  split_ifs <;> rfl

@[simp] theorem takeOut_headTaken : (s.takeOut cur prev n).headTaken = s.headTaken := by
  unfold takeOut
  split_ifs <;> rfl

end Allocator

/-- What is left of the block takes its place in the free list. -/
theorem takeOut_words (hr : Represents total s h) (hw : h.WF start total)
    (hf : h.free = lo ++ b :: bs) (hn : n ≤ b.size) (hend : start + memBlockSize * total < 2 ^ 64)
    {ls : List Block} (hls : ls = freeSpans (Heap.leftover n b))
    (hw' : Heap.WF start total ⟨lo ++ ls ++ bs, ⟨b.addr, n⟩ :: h.taken⟩) :
    let s' := s.takeOut b.addr ((lo.map (·.addr)).getLast?.getD 0) n
    Seg s'.mem s'.headFree ((lo ++ ls ++ bs).map (·.addr)) 0 ∧
      (∀ l ∈ ls, s'.mem (l.addr + 8) = l.size) ∧
      ∀ x ∉ lo.map (·.addr), x ∉ headerWords ls → s'.mem x = s.mem x := by
  by_cases he : n = b.size
  · obtain rfl : ls = [] := by simp [hls, Heap.leftover, he]
    obtain ⟨hseg, hmem⟩ := takeOut_exact hr hf he
    exact ⟨by simpa using hseg, by simp, fun x hx _ => hmem x hx⟩
  · obtain rfl : ls = [⟨b.addr + n * memBlockSize, b.size - n⟩] := by
      simp [hls, Heap.leftover, he]
    rw [List.append_assoc, List.singleton_append] at hw' ⊢
    obtain ⟨hseg, hsize, hmem⟩ := takeOut_split hr hw hf (by omega) rfl hend hw'
    exact ⟨hseg, List.forall_mem_singleton.2 hsize, hmem⟩

/-- The free list after `takeOut`, and what it leaves as it was. -/
theorem takeOut_spec (hr : Represents total s h) (hw : h.WF start total)
    (hf : h.free = lo ++ b :: bs) (hn : n ≤ b.size) (hend : start + memBlockSize * total < 2 ^ 64)
    (hF : F = lo ++ freeSpans (Heap.leftover n b) ++ bs)
    (hw' : Heap.WF start total ⟨F, ⟨b.addr, n⟩ :: h.taken⟩) :
    let s' := s.takeOut b.addr ((lo.map (·.addr)).getLast?.getD 0) n
    Seg s'.mem s'.headFree (F.map (·.addr)) 0 ∧
      (∀ c ∈ F ++ h.taken, s'.mem (c.addr + 8) = c.size) ∧
      (∀ c ∈ h.taken, s'.mem c.addr = s.mem c.addr) ∧
      ∀ a ∉ headerWords (h.free ++ F), s'.mem a = s.mem a := by
  subst hF
  obtain ⟨hseg, hsizes, hmem⟩ := takeOut_words hr hw hf hn hend rfl hw'
  generalize freeSpans (Heap.leftover n b) = ls at *
  have hother : ∀ c ∈ lo ++ bs ++ h.taken, c.addr ∉ headerWords ls ∧ c.addr + 8 ∉ headerWords ls :=
    fun c hc => header_notMem (hw'.apart_leftover c (List.mem_cons_of_mem _ hc))
  refine ⟨hseg, fun c hc => ?_, fun c hc => ?_, fun a ha => ?_⟩
  · by_cases hcl : c ∈ ls
    · exact hsizes c hcl
    · have hc' : c ∈ lo ++ bs ++ h.taken := by
        simp only [List.mem_append, hcl, or_false] at hc ⊢
        exact hc
      have hcm : c ∈ h.free ++ h.taken := by
        simp only [hf, List.mem_append, List.mem_cons] at hc' ⊢
        tauto
      rw [hmem _ ?_ (hother c hc').2]
      · exact hr.sizes c hcm
      · intro hx
        obtain ⟨d, hd, he⟩ := List.mem_map.1 hx
        exact hw.size_word_ne hcm (c := d) (by simp [hf, hd]) he
  · refine hmem _ (fun hx => hw.taken_notMem c hc ?_) (hother c (List.mem_append_right _ hc)).1
    rw [hf, List.map_append]
    exact List.mem_append_left _ hx
  · refine hmem a (fun hx => ?_) (notMem_headerWords.2 fun l hl => ?_)
    · obtain ⟨d, hd, rfl⟩ := List.mem_map.1 hx
      exact ha (mem_headerWords.2 ⟨d, by simp [hf, hd], Or.inl rfl⟩)
    · exact notMem_headerWords.1 ha l (by simp [hl])

/-- `_kmalloc` in the words is `_kmalloc` on the lists, and writes only header
words of free blocks. -/
theorem kmalloc_block (B : HeapBounds) (hr : Represents total s h) (hw : h.WF start total)
    (hend : start + memBlockSize * total < 2 ^ 64) {p : ℕ} {h' : Heap}
    (hm : h.kmalloc n = some (p, h')) :
    ∃ s', s.kmalloc B n = some (p, s') ∧ Represents total s' h' ∧
      ∀ a ∉ headerWords (h.free ++ h'.free), s'.mem a = s.mem a := by
  have hw' := Heap.kmalloc_wf hw hm
  have hi : Allocator.init B s = s := by simp [Allocator.init, hr.ready]
  unfold Heap.kmalloc at hm
  split_ifs at hm with h0
  rw [Heap.takeFit_eq] at hm
  have hspan := List.takeWhile_append_dropWhile (p := fun c : Block => decide (c.size < n))
    (l := h.free)
  have hfind := hr.find_fit hw n
  cases hd : h.free.dropWhile (·.size < n) with
  | nil => simp [hd] at hm
  | cons b bs =>
    generalize h.free.takeWhile (·.size < n) = lo at *
    rw [hd] at hm hfind hspan
    simp only [Option.some.injEq, Prod.mk.injEq] at hm
    obtain ⟨rfl, rfl⟩ := hm
    have hf : h.free = lo ++ b :: bs := hspan.symm
    have hfit : n ≤ b.size := by
      have := List.head_dropWhile_not (fun c : Block => decide (c.size < n)) (l := h.free)
        (by simp [hd])
      simpa [hd] using this
    have hbm : b ∈ h.free ++ h.taken := by simp [hf]
    have hb0 := hr.split_free hf
    have hhead : s.headFree ≠ 0 := by
      rw [ne_eq, seg_null hr.free, hf]
      simp
    have hpay : wrap (b.addr + sizeHeader) = payload b := by
      have hb := hw.bounds hbm
      have := stop_ge (u := memBlockSize) hb.2.1
      unfold sizeHeader memBlockSize payload at *
      exact wrap_of_lt (by omega)
    have hcode : s.kmalloc B n = some (payload b,
        (s.takeOut b.addr ((lo.map (·.addr)).getLast?.getD 0) n).pushTaken b.addr n) := by
      unfold Allocator.kmalloc
      rw [hi, if_neg h0, hfind]
      simp [hb0.2.1, hhead, hpay]
    refine ⟨_, hcode, ?_⟩
    have hF : lo ++ (if n = b.size then bs
        else ⟨b.addr + n * memBlockSize, b.size - n⟩ :: bs) =
        lo ++ freeSpans (Heap.leftover n b) ++ bs := by
      unfold Heap.leftover
      split_ifs <;> simp
    rw [hF] at hw' ⊢
    obtain ⟨hseg, hsizes, htk, hframe⟩ := takeOut_spec hr hw hf hfit hend rfl hw'
    refine ⟨pushTaken_represents (b := ⟨b.addr, n⟩) (by simpa using hr.ready)
      (by simpa using hr.total) hseg ?_ hsizes hb0.2.1 hw', ?_⟩
    · rw [Allocator.takeOut_headTaken]
      apply seg_frame hr.taken
      intro x hx
      obtain ⟨c, hc, rfl⟩ := List.mem_map.1 hx
      exact htk c hc
    · intro a ha
      have hab : a ∉ headerWords [b] :=
        notMem_headerWords_singleton.2 (notMem_headerWords.1 ha b (by simp [hf]))
      rw [pushTaken_mem hab]
      exact hframe a ha

/-! Freeing: first the pieces that link a block into the free list. -/

/-- The words hold the free list `bs`. -/
structure FreeList (s : Allocator) (bs : List Block) : Prop where
  seg : Seg s.mem s.headFree (bs.map (·.addr)) 0
  sizes : ∀ b ∈ bs, s.mem (b.addr + 8) = b.size

/-- What holds of the words between the two joins of `_kmfree`: the list up to
the block `c` in hand, which is not yet linked to the blocks `hi` above it. -/
structure Joining (s : Allocator) (lo : List Block) (c : Block) (next : ℕ) (hi : List Block) :
    Prop where
  below : Seg s.mem s.headFree (lo.map (·.addr)) c.addr
  ne_zero : c.addr ≠ 0
  size : s.mem (c.addr + 8) = c.size
  above : Seg s.mem next (hi.map (·.addr)) 0
  last : hi = [] → s.mem c.addr = 0
  apart : ∀ d ∈ lo ++ hi, Apart c d
  sizes : ∀ d ∈ lo ++ hi, s.mem (d.addr + 8) = d.size
  fits : c.addr + c.size * memBlockSize < 2 ^ 64
  fits_above : ∀ n ∈ hi, c.size + n.size < 2 ^ 64

variable {hi : List Block} {c p : Block} {next : ℕ}

/-- The block in hand, which may have grown, linked to blocks above it. -/
theorem Joining.linked (hj : Joining s lo c next hi) {s' : Allocator} {d : Block}
    {rest : List Block} (hhead : s'.headFree = s.headFree)
    (hm : ∀ a ∉ headerWords [c], s'.mem a = s.mem a) (hd : d.addr = c.addr)
    (hsize : s'.mem (c.addr + 8) = d.size) (hrest : ∀ e ∈ rest, e ∈ hi)
    (hlink : Seg s.mem (s'.mem c.addr) (rest.map (·.addr)) 0) : FreeList s' (lo ++ d :: rest) := by
  have hlo : ∀ e ∈ lo, ∀ c' ∈ [c], Apart c' e := fun e he =>
    List.forall_mem_singleton.2 (hj.apart e (List.mem_append_left _ he))
  have hhi : ∀ e ∈ rest, ∀ c' ∈ [c], Apart c' e := fun e he =>
    List.forall_mem_singleton.2 (hj.apart e (List.mem_append_right _ (hrest e he)))
  refine ⟨?_, ?_⟩
  · rw [List.map_append, List.map_cons, hd, hhead]
    exact seg_append.2 ⟨_, seg_apart hj.below hm hlo, rfl, hj.ne_zero, seg_apart hlink hm hhi⟩
  · intro e he
    rcases List.mem_append.1 he with he | he
    · rw [(header_frame hm (hlo e he)).2]
      exact hj.sizes e (List.mem_append_left _ he)
    · rcases List.mem_cons.1 he with rfl | he
      · rw [hd]
        exact hsize
      · rw [(header_frame hm (hhi e he)).2]
        exact hj.sizes e (List.mem_append_right _ (hrest e he))

namespace Allocator

variable {cur : ℕ}

@[simp] theorem joinNext_headFree : (s.joinNext cur next).headFree = s.headFree := by
  unfold joinNext
  split_ifs <;> rfl

@[simp] theorem joinNext_headTaken : (s.joinNext cur next).headTaken = s.headTaken := by
  unfold joinNext
  split_ifs <;> rfl

@[simp] theorem joinNext_initialazed : (s.joinNext cur next).initialazed = s.initialazed := by
  unfold joinNext
  split_ifs <;> rfl

@[simp] theorem joinNext_totalBlocks : (s.joinNext cur next).totalBlocks = s.totalBlocks := by
  unfold joinNext
  split_ifs <;> rfl

theorem joinNext_mem {a : ℕ} (ha : a ∉ headerWords [c]) :
    (s.joinNext c.addr next).mem a = s.mem a := by
  obtain ⟨h1, h2⟩ := notMem_headerWords_singleton.1 ha
  unfold joinNext
  split_ifs <;> simp [h1, h2]

@[simp] theorem joinPrev_headTaken {prev : ℕ} :
    (s.joinPrev prev cur).2.headTaken = s.headTaken := by
  unfold joinPrev
  split_ifs <;> rfl

@[simp] theorem joinPrev_initialazed {prev : ℕ} :
    (s.joinPrev prev cur).2.initialazed = s.initialazed := by
  unfold joinPrev
  split_ifs <;> rfl

@[simp] theorem joinPrev_totalBlocks {prev : ℕ} :
    (s.joinPrev prev cur).2.totalBlocks = s.totalBlocks := by
  unfold joinPrev
  split_ifs <;> rfl

end Allocator

/-- Joining with the block above gives the list that `joinNext` on blocks gives. -/
theorem joinNext_words (hj : Joining s lo c next hi) :
    FreeList (s.joinNext c.addr next) (lo ++ Heap.joinNext c hi) := by
  have hm : ∀ a ∉ headerWords [c], (s.joinNext c.addr next).mem a = s.mem a :=
    fun a => Allocator.joinNext_mem
  cases hi with
  | nil =>
    have hn : next = 0 := hj.above
    have hs : s.joinNext c.addr next = s := by simp [Allocator.joinNext, hn]
    have hlink : Seg s.mem (s.mem c.addr) [] 0 := hj.last rfl
    refine hj.linked (by simp) hm rfl ?_ (fun e he => he) ?_
    · rw [hs]
      exact hj.size
    · rw [hs]
      exact hlink
  | cons n ns =>
    obtain ⟨hnn, hn0, hns⟩ := hj.above
    have hap := hj.apart n (by simp)
    have hwrap := wrap_stop hj.fits
    by_cases ht : c.addr + c.size * memBlockSize = n.addr
    · -- the two blocks touch
      have hsum := wrap_of_lt (hj.fits_above n (by simp))
      have hs : s.joinNext c.addr next =
          (s.store (c.addr + 8) (c.size + n.size)).store c.addr (s.mem n.addr) := by
        simp [Allocator.joinNext, hnn, hn0, hj.size, hwrap, ht, hj.sizes n (by simp), hsum,
          hap.2.1]
      rw [Heap.joinNext, if_pos ht]
      refine hj.linked (by simp) hm rfl ?_ (fun e => List.mem_cons_of_mem n) ?_
      · simp [hs]
      · rw [hs]
        simpa using hns
    · have hs : s.joinNext c.addr next = s.store c.addr next := by
        simp [Allocator.joinNext, hnn, hn0, hj.size, hwrap, ht]
      rw [Heap.joinNext, if_neg ht]
      refine hj.linked (by simp) hm rfl ?_ (fun e he => he) ?_
      · simp [hs, hj.size]
      · rw [hs]
        simpa using hj.above

theorem insertFree_split (hf : h.free = lo ++ hi) (hlo : ∀ c ∈ lo, c.addr < b.addr)
    (hhi : ∀ c ∈ hi.head?, ¬c.addr < b.addr) :
    Heap.insertFree b h.free = match lo.getLast? with
      | none => Heap.joinNext b hi
      | some p =>
        if p.addr + p.size * memBlockSize = b.addr then
          lo.dropLast ++ Heap.joinNext ⟨p.addr, p.size + b.size⟩ hi
        else lo ++ Heap.joinNext b hi := by
  have h1 : ∀ c ∈ lo, decide (c.addr < b.addr) = true := fun c hc => by simpa using hlo c hc
  have h2 : hi.takeWhile (·.addr < b.addr) = [] ∧ hi.dropWhile (·.addr < b.addr) = hi := by
    cases hi with
    | nil => simp
    | cons c cs =>
      have := hhi c (by simp)
      simp [this]
  cases hl : lo.getLast? with
  | none =>
    simp only [Heap.insertFree, hf, List.takeWhile_append_of_pos h1,
      List.dropWhile_append_of_pos h1, h2.1, h2.2, List.append_nil, hl]
  | some p =>
    simp only [Heap.insertFree, hf, List.takeWhile_append_of_pos h1,
      List.dropWhile_append_of_pos h1, h2.1, h2.2, List.append_nil, hl]

/-- What holds of the words before the joins: the block `b` in hand is in no list
and belongs between the blocks `lo` and `hi` of the free list. -/
structure Inserting (s : Allocator) (lo : List Block) (b : Block) (next : ℕ) (hi : List Block) :
    Prop where
  below : Seg s.mem s.headFree (lo.map (·.addr)) next
  above : Seg s.mem next (hi.map (·.addr)) 0
  ne_zero : b.addr ≠ 0
  link : s.mem b.addr = 0
  apart : (b :: (lo ++ hi)).Pairwise Apart
  sizes : ∀ c ∈ b :: (lo ++ hi), s.mem (c.addr + 8) = c.size
  fits : ∀ c ∈ b :: (lo ++ hi), c.addr + c.size * memBlockSize < 2 ^ 64

theorem Inserting.last (h : Inserting s lo b next hi) (he : hi = []) : next = 0 := by
  subst he
  exact h.above

theorem Inserting.fits_above (h : Inserting s lo b next hi) {n : Block} (hn : n ∈ hi) :
    n.size * memBlockSize < 2 ^ 64 := by
  have := h.fits n (by simp [hn])
  omega

/-- The block below is apart from the others. -/
theorem Inserting.apart_prev (h : Inserting s (lo ++ [p]) b next hi) :
    ∀ d ∈ lo ++ hi, Apart p d := by
  have hp : (lo ++ [p] ++ hi).Perm (p :: (lo ++ hi)) := by
    rw [List.append_assoc]
    exact List.perm_middle
  exact (List.pairwise_cons.1 ((hp.pairwise_iff Apart.symm).1 (List.pairwise_cons.1 h.apart).2)).1

/-- No free block below: `b` becomes the head. -/
theorem Inserting.first (h : Inserting s [] b next hi) :
    Joining { s with headFree := b.addr } [] b next hi := by
  have hfits := h.fits b (by simp)
  refine ⟨rfl, h.ne_zero, h.sizes b (by simp), h.above, fun _ => h.link,
    (List.pairwise_cons.1 h.apart).1, fun d hd => h.sizes d (List.mem_cons_of_mem _ hd), hfits,
    fun n hn => ?_⟩
  have := h.fits_above hn
  unfold memBlockSize at *
  omega

/-- The block below grows over `b`. -/
theorem Inserting.grow (h : Inserting s (lo ++ [p]) b next hi)
    (ht : p.addr + p.size * memBlockSize = b.addr) :
    Joining (s.store (p.addr + 8) (p.size + b.size)) lo ⟨p.addr, p.size + b.size⟩ next hi := by
  have hap := h.apart_prev
  obtain ⟨hbelow, hp0, hlink⟩ := seg_concat.1 (List.map_append ▸ h.below)
  have hfits := h.fits b (by simp)
  have hm : ∀ a ∉ headerWords [p], (s.store (p.addr + 8) (p.size + b.size)).mem a = s.mem a :=
    fun a ha => by simp [(notMem_headerWords_singleton.1 ha).2]
  have hother : ∀ d ∈ lo ++ hi, ∀ c ∈ [p], Apart c d := fun d hd =>
    List.forall_mem_singleton.2 (hap d hd)
  have hlo := seg_apart hbelow hm fun d hd => hother d (List.mem_append_left _ hd)
  have hhi := seg_apart h.above hm fun d hd => hother d (List.mem_append_right _ hd)
  refine ⟨hlo, hp0, by simp, hhi, ?_, hap, ?_, ?_, ?_⟩
  · intro he
    simp [hlink, h.last he]
  · intro d hd
    rw [(header_frame hm (hother d hd)).2]
    refine h.sizes d (List.mem_cons_of_mem _ ?_)
    simp only [List.mem_append, List.mem_singleton] at hd ⊢
    tauto
  · unfold memBlockSize at *
    dsimp only
    omega
  · intro n hn
    have := h.fits_above hn
    unfold memBlockSize at *
    dsimp only
    omega

/-- `b` is linked in behind the block below. -/
theorem Inserting.link_in (h : Inserting s (lo ++ [p]) b next hi) :
    Joining ((s.store b.addr next).store p.addr b.addr) (lo ++ [p]) b next hi := by
  have hap := h.apart_prev
  have hb := (List.pairwise_cons.1 h.apart).1
  have hbp : Apart b p := hb p (by simp)
  obtain ⟨hbelow, hp0, hlink⟩ := seg_concat.1 (List.map_append ▸ h.below)
  have hfits := h.fits b (by simp)
  have hm : ∀ a, a ≠ b.addr → a ≠ p.addr →
      ((s.store b.addr next).store p.addr b.addr).mem a = s.mem a := fun a ha hp => by
    simp [ha, hp]
  have hlo : ∀ d ∈ lo, d.addr ≠ b.addr ∧ d.addr ≠ p.addr := fun d hd =>
    ⟨(hb d (by simp [hd])).1, (hap d (by simp [hd])).1⟩
  have hhi : ∀ d ∈ hi, d.addr ≠ b.addr ∧ d.addr ≠ p.addr := fun d hd =>
    ⟨(hb d (by simp [hd])).1, (hap d (by simp [hd])).1⟩
  refine ⟨?_, h.ne_zero, ?_, ?_, ?_, hb, ?_, hfits, ?_⟩
  · rw [List.map_append]
    refine seg_concat.2 ⟨seg_frame hbelow ?_, hp0, by simp⟩
    intro x hx
    obtain ⟨d, hd, rfl⟩ := List.mem_map.1 hx
    exact hm _ (hlo d hd).1 (hlo d hd).2
  · rw [hm _ (by omega) hbp.2.1.symm]
    exact h.sizes b (by simp)
  · apply seg_frame h.above
    intro x hx
    obtain ⟨d, hd, rfl⟩ := List.mem_map.1 hx
    exact hm _ (hhi d hd).1 (hhi d hd).2
  · intro he
    simp [hbp.1.symm, h.last he]
  · intro d hd
    have hpd : d.addr + 8 ≠ p.addr := by
      by_cases he : d = p
      · rw [he]
        omega
      · have hd' : d ∈ lo ++ hi := by
          simp only [List.mem_append, List.mem_singleton, he, or_false] at hd ⊢
          exact hd
        exact (hap d hd').2.2.symm
    rw [hm _ (hb d hd).2.2.symm hpd]
    exact h.sizes d (List.mem_cons_of_mem _ hd)
  · intro n hn
    have := h.fits_above hn
    unfold memBlockSize at *
    omega

theorem joinPrev_frame {a : ℕ} (ha : a ∉ headerWords (b :: lo)) :
    (s.joinPrev ((lo.map (·.addr)).getLast?.getD 0) b.addr).2.mem a = s.mem a := by
  have hb := notMem_headerWords.1 ha b (by simp)
  rcases List.eq_nil_or_concat' lo with rfl | ⟨lo', p, rfl⟩
  · rfl
  · have hp := notMem_headerWords.1 ha p (by simp)
    have hprev : ((lo' ++ [p]).map (·.addr)).getLast?.getD 0 = p.addr := by simp
    rw [hprev]
    unfold Allocator.joinPrev
    split_ifs <;> simp [hb, hp]

/-- Joining with the block below prepares the join with the block above, in a
list that is the one `insertFree` builds. -/
theorem joinPrev_words (hin : Inserting s lo b next hi) (hf : h.free = lo ++ hi)
    (hlo : ∀ c ∈ lo, c.addr < b.addr) (hhi : ∀ c ∈ hi.head?, ¬c.addr < b.addr) :
    ∃ lo' c, (s.joinPrev ((lo.map (·.addr)).getLast?.getD 0) b.addr).1 = c.addr ∧
      Joining (s.joinPrev ((lo.map (·.addr)).getLast?.getD 0) b.addr).2 lo' c next hi ∧
      Heap.insertFree b h.free = lo' ++ Heap.joinNext c hi ∧ ∃ p ∈ b :: lo, c.addr = p.addr := by
  rw [insertFree_split hf hlo hhi]
  rcases List.eq_nil_or_concat' lo with rfl | ⟨lo', p, rfl⟩
  · have hs : s.joinPrev 0 b.addr = (b.addr, { s with headFree := b.addr }) := rfl
    refine ⟨[], b, ?_, ?_, rfl, b, by simp, rfl⟩
    · exact congrArg (·.1) hs
    · exact (congrArg (·.2) hs) ▸ hin.first
  · have hprev : ((lo' ++ [p]).map (·.addr)).getLast?.getD 0 = p.addr := by simp
    obtain ⟨-, hp0, hlink⟩ := seg_concat.1 (List.map_append ▸ hin.below)
    have hsize := hin.sizes p (by simp)
    have hwrap := wrap_stop (hin.fits p (by simp))
    rw [hprev]
    by_cases ht : p.addr + p.size * memBlockSize = b.addr
    · have hj := hin.grow ht
      have hsum : wrap (p.size + b.size) = p.size + b.size := by
        have hfits : p.addr + (p.size + b.size) * memBlockSize < 2 ^ 64 := hj.fits
        unfold memBlockSize at hfits
        exact wrap_of_lt (by omega)
      have hs : s.joinPrev p.addr b.addr = (p.addr, s.store (p.addr + 8) (p.size + b.size)) := by
        simp [Allocator.joinPrev, hp0, hsize, hin.sizes b (by simp), hwrap, ht, hsum]
      rw [hs]
      exact ⟨lo', ⟨p.addr, p.size + b.size⟩, rfl, hj, by simp [ht], p, by simp, rfl⟩
    · have hs : s.joinPrev p.addr b.addr =
          (b.addr, (s.store b.addr next).store p.addr b.addr) := by
        simp [Allocator.joinPrev, hp0, hsize, hwrap, ht, hlink]
      rw [hs]
      exact ⟨lo' ++ [p], b, rfl, hin.link_in, by simp [ht], b, by simp, rfl⟩

theorem header_eq_iff {p : ℕ} (hp : p < 2 ^ 64) (hb : payload b < 2 ^ 64) :
    b.addr = wrapSub p sizeHeader ↔ payload b = p := by
  unfold payload wrapSub wrap sizeHeader at *
  omega

theorem payload_lt (hw : h.WF start total) (hend : start + memBlockSize * total < 2 ^ 64)
    (hb : b ∈ h.free ++ h.taken) : payload b < 2 ^ 64 := by
  have h1 := hw.bounds hb
  unfold payload Span.stop sizeHeader memBlockSize at *
  omega

/-- The taken block with a payload address, found in the words. -/
theorem Represents.find_taken (hr : Represents total s h) (hw : h.WF start total)
    (hend : start + memBlockSize * total < 2 ^ 64) {p : ℕ} (hp : p < 2 ^ 64) :
    walk s.mem (fun next => !decide (next = wrapSub p sizeHeader)) s.loopBound s.headTaken 0 =
      some (((h.taken.dropWhile (fun c => !decide (payload c = p))).map (·.addr)).head?.getD 0,
        ((h.taken.takeWhile (fun c => !decide (payload c = p))).map (·.addr)).getLast?.getD 0) := by
  have hl := hw.length_le
  refine walk_map hr.taken ?_ ?_
  · rw [Allocator.loopBound, hr.total]
    omega
  · intro b hb
    have := header_eq_iff hp (payload_lt hw hend (List.mem_append_right _ hb))
    simp [this]

theorem find?_eq_head?_dropWhile {α : Type*} (p : α → Bool) (l : List α) :
    l.find? p = (l.dropWhile (!p ·)).head? := by
  induction l with
  | nil => rfl
  | cons a l ih => cases hp : p a <;> simp [hp, ih]

/-- The block `b` has left the taken list and is in no list. -/
structure Unlinked (total : ℕ) (s : Allocator) (h : Heap) (b : Block) : Prop where
  ready : s.initialazed = true
  total : s.totalBlocks = total
  free : Seg s.mem s.headFree (h.free.map (·.addr)) 0
  taken : Seg s.mem s.headTaken ((h.taken.erase b).map (·.addr)) 0
  sizes : ∀ c ∈ h.free ++ h.taken, s.mem (c.addr + 8) = c.size
  ne_zero : b.addr ≠ 0

theorem unlinkTaken_words (hr : Represents total s h) (hw : h.WF start total) {ta tb : List Block}
    (ht : h.taken = ta ++ b :: tb) :
    let s' := s.unlinkTaken ((ta.map (·.addr)).getLast?.getD 0) (s.mem b.addr)
    Unlinked total s' h b ∧ ∀ a ∉ headerWords h.taken, s'.mem a = s.mem a := by
  have hn := hw.nodup
  rw [List.map_append, List.nodup_append] at hn
  obtain ⟨-, hnt, hdis⟩ := hn
  rw [ht, List.map_append, List.map_cons, List.nodup_append, List.nodup_cons] at hnt
  have hbta : b.addr ∉ ta.map (·.addr) := fun hc => hnt.2.2 _ hc _ (by simp) rfl
  have herase : h.taken.erase b = ta ++ tb := by
    rw [ht, List.erase_append_right _ (fun hc => hbta (List.mem_map.2 ⟨b, hc, rfl⟩))]
    simp
  have hseg := hr.taken
  rw [ht, List.map_append, List.map_cons] at hseg
  have hb0 : b.addr ≠ 0 := seg_ne_zero hseg _ (by simp)
  have hframe : ∀ a ∉ ta.map (·.addr),
      (s.unlinkTaken ((ta.map (·.addr)).getLast?.getD 0) (s.mem b.addr)).mem a = s.mem a :=
    fun a ha => relink_of_notMem ha
  refine ⟨⟨hr.ready, hr.total, ?_, ?_, ?_, hb0⟩, ?_⟩
  · refine seg_frame hr.free (fun x hx => hframe x (fun hc => hdis x hx x ?_ rfl))
    rw [ht, List.map_append]
    exact List.mem_append_left _ hc
  · rw [herase, List.map_append]
    exact seg_remove hseg
  · intro c hc
    rw [hframe, hr.sizes c hc]
    intro hx
    obtain ⟨d, hd, he⟩ := List.mem_map.1 hx
    exact hw.size_word_ne hc (c := d) (by simp [ht, hd]) he
  · intro a ha
    refine hframe a (fun hx => ha ?_)
    obtain ⟨d, hd, rfl⟩ := List.mem_map.1 hx
    exact mem_headerWords.2 ⟨d, by simp [ht, hd], Or.inl rfl⟩

/-- The block in hand and the free list after its link word was cleared. -/
theorem Unlinked.inserting (hu : Unlinked total s h b) (hw : h.WF start total)
    (hend : start + memBlockSize * total < 2 ^ 64) (hb : b ∈ h.taken) (hf : h.free = lo ++ hi) :
    Inserting (s.store b.addr 0) lo b ((hi.map (·.addr)).head?.getD 0) hi := by
  have hbm : b ∈ h.free ++ h.taken := List.mem_append_right _ hb
  have hap := (hw.apart_erase hb).1
  have hm : ∀ a ∉ headerWords [b], (s.store b.addr 0).mem a = s.mem a := fun a ha => by
    simp [(notMem_headerWords_singleton.1 ha).1]
  have hfree : ∀ c ∈ h.free, ∀ b' ∈ [b], Apart b' c := fun c hc =>
    List.forall_mem_singleton.2 ((List.pairwise_cons.1 hap).1 c hc)
  have hseg := seg_apart hu.free hm hfree
  rw [hf, List.map_append] at hseg
  obtain ⟨m, h1, h2⟩ := seg_append.1 hseg
  obtain rfl := seg_start h2
  rw [hf] at hap
  refine ⟨h1, h2, hu.ne_zero, by simp, hap, ?_, ?_⟩
  · intro c hc
    rcases List.mem_cons.1 hc with rfl | hc
    · simp [hu.sizes c hbm]
    · rw [(header_frame hm (hfree c (hf ▸ hc))).2]
      exact hu.sizes c (List.mem_append_left _ (hf ▸ hc))
  · intro c hc
    have hcm : c ∈ h.free ++ h.taken := by
      rcases List.mem_cons.1 hc with rfl | hc
      · exact hbm
      · exact List.mem_append_left _ (hf ▸ hc)
    have := (hw.bounds hcm).2.2
    unfold Span.stop memBlockSize at *
    omega

/-- The place of the block in the free list, found in the words. -/
theorem Unlinked.find_place (hu : Unlinked total s h b) (hw : h.WF start total)
    (hend : start + memBlockSize * total < 2 ^ 64) (hb : b ∈ h.taken) :
    walk (s.store b.addr 0).mem (fun next => next < b.addr) (s.store b.addr 0).loopBound s.headFree 0 =
      some (((h.free.dropWhile (·.addr < b.addr)).map (·.addr)).head?.getD 0,
        ((h.free.takeWhile (·.addr < b.addr)).map (·.addr)).getLast?.getD 0) := by
  have hfree : Seg (s.store b.addr 0).mem s.headFree (h.free.map (·.addr)) 0 := by
    have hin : Inserting (s.store b.addr 0) [] b ((h.free.map (·.addr)).head?.getD 0) h.free :=
      hu.inserting hw hend hb rfl
    exact (seg_start hu.free).symm ▸ hin.above
  have hl := hw.length_le
  refine walk_map hfree ?_ (fun _ _ => rfl)
  rw [Allocator.loopBound, show (s.store b.addr 0).totalBlocks = total from hu.total]
  omega

/-- The block is linked into the free list where `insertFree` on blocks puts it. -/
theorem insertFree_words (hu : Unlinked total s h b) (hw : h.WF start total)
    (hend : start + memBlockSize * total < 2 ^ 64) (hb : b ∈ h.taken) :
    ∃ s', s.insertFree b.addr = some s' ∧
      Represents total s' ⟨Heap.insertFree b h.free, h.taken.erase b⟩ ∧
      ∀ a ∉ headerWords (b :: h.free), s'.mem a = s.mem a := by
  obtain ⟨-, herased⟩ := hw.apart_erase hb
  let s₁ := s.store b.addr 0
  have hspan := List.takeWhile_append_dropWhile (p := fun c : Block => decide (c.addr < b.addr))
    (l := h.free)
  have hwalk : walk s₁.mem (fun next => next < b.addr) s₁.loopBound s₁.headFree 0 = _ :=
    hu.find_place hw hend hb
  have hlo : ∀ c ∈ h.free.takeWhile (·.addr < b.addr), c.addr < b.addr := by
    intro c hc
    simpa using List.mem_takeWhile_imp hc
  have hhi : ∀ c ∈ (h.free.dropWhile (·.addr < b.addr)).head?, ¬c.addr < b.addr := by
    intro c hc
    have := List.head?_dropWhile_not (fun c : Block => decide (c.addr < b.addr)) h.free
    rw [Option.mem_def.1 hc] at this
    simpa using this
  generalize h.free.takeWhile (·.addr < b.addr) = lo at *
  generalize h.free.dropWhile (·.addr < b.addr) = hi at *
  have hin := hu.inserting hw hend hb hspan.symm
  obtain ⟨lo', c, hc, hj, hins, hcb⟩ := joinPrev_words hin hspan.symm hlo hhi
  set prev := (lo.map (·.addr)).getLast?.getD 0
  set next := (hi.map (·.addr)).head?.getD 0
  set s₂ := (s₁.joinPrev prev b.addr).2
  have hcode : s.insertFree b.addr = some (s₂.joinNext c.addr next) := by
    unfold Allocator.insertFree
    simp only [show s.store b.addr 0 = s₁ from rfl, hwalk, ← hc]
    rfl
  have hframe : ∀ a ∉ headerWords (b :: h.free), (s₂.joinNext c.addr next).mem a = s.mem a := by
    intro a ha
    have hnot : ∀ d ∈ b :: lo, a ≠ d.addr ∧ a ≠ d.addr + 8 := fun d hd => by
      apply notMem_headerWords.1 ha d
      rw [← hspan]
      simp only [List.mem_cons, List.mem_append] at hd ⊢
      tauto
    have hab : a ≠ b.addr := (hnot b (by simp)).1
    obtain ⟨p, hp, hcp⟩ := hcb
    have hac : a ∉ headerWords [c] := by
      rw [notMem_headerWords_singleton, hcp]
      exact hnot p hp
    rw [Allocator.joinNext_mem hac, joinPrev_frame (notMem_headerWords.2 hnot)]
    simp [s₁, hab]
  obtain ⟨hseg, hsizes⟩ := joinNext_words hj
  have hwords : ∀ d ∈ h.taken.erase b, ∀ e ∈ b :: h.free, Apart e d := fun d hd e he =>
    herased e he d hd
  refine ⟨_, hcode, ⟨?_, ?_, ?_, ?_, ?_⟩, hframe⟩
  · simpa [s₂, s₁] using hu.ready
  · simpa [s₂, s₁] using hu.total
  · rw [hins]
    exact hseg
  · have hhead : (s₂.joinNext c.addr next).headTaken = s.headTaken := by simp [s₂, s₁]
    rw [hhead]
    exact seg_apart hu.taken hframe hwords
  · intro d hd
    rcases List.mem_append.1 hd with hd | hd
    · exact hsizes d (hins ▸ hd)
    · rw [(header_frame hframe (hwords d hd)).2]
      exact hu.sizes d (List.mem_append_right _ (List.mem_of_mem_erase hd))

/-- `_kmfree` in the words is `_kmfree` on the lists, and writes only header
words of blocks of the two lists. -/
theorem kmfree_block (hr : Represents total s h) (hw : h.WF start total)
    (hend : start + memBlockSize * total < 2 ^ 64) {p : ℕ} (hp : p < 2 ^ 64) :
    ∃ s', s.kmfree p = some ((h.kmfree p).1, s') ∧ Represents total s' (h.kmfree p).2 ∧
      ∀ a ∉ headerWords (h.free ++ h.taken), s'.mem a = s.mem a := by
  by_cases h0 : p = 0
  · exact ⟨s, by simp [Allocator.kmfree, Heap.kmfree, h0], by simpa [Heap.kmfree, h0] using hr,
      fun _ _ => rfl⟩
  have hfind := hr.find_taken hw hend hp
  have hspan := List.takeWhile_append_dropWhile (p := fun c : Block => !decide (payload c = p))
    (l := h.taken)
  have hfree? := find?_eq_head?_dropWhile (fun c : Block => decide (payload c = p)) h.taken
  have hnot := List.head?_dropWhile_not (fun c : Block => !decide (payload c = p)) h.taken
  generalize h.taken.takeWhile (fun c => !decide (payload c = p)) = ta at *
  generalize h.taken.dropWhile (fun c => !decide (payload c = p)) = td at *
  cases td with
  | nil =>
    refine ⟨s, ?_, ?_, fun _ _ => rfl⟩
    · simp only [Allocator.kmfree, if_neg h0, hfind]
      simp [Heap.kmfree, h0, hfree?]
    · simpa [Heap.kmfree, h0, hfree?] using hr
  | cons b tb =>
    have hcode : h.kmfree p = (0, ⟨Heap.insertFree b h.free, h.taken.erase b⟩) := by
      simp [Heap.kmfree, h0, hfree?]
    have ht : h.taken = ta ++ b :: tb := hspan.symm
    have hb : b ∈ h.taken := by simp [ht]
    have hpb : payload b = p := by simpa using hnot
    have hcur : wrapSub p sizeHeader = b.addr :=
      ((header_eq_iff hp (payload_lt hw hend (List.mem_append_right _ hb))).2 hpb).symm
    obtain ⟨hu, hframe₁⟩ := unlinkTaken_words hr hw ht
    obtain ⟨s', hs', hr', hframe₂⟩ := insertFree_words hu hw hend hb
    refine ⟨s', ?_, by rw [hcode]; exact hr', ?_⟩
    · simp only [Allocator.kmfree, if_neg h0, hfind]
      simp only [List.map_cons, List.head?_cons, Option.getD_some, if_neg hu.ne_zero, hcur, hs',
        hcode, Option.map_some]
    · intro a ha
      have hsub : ∀ bs : List Block, (∀ c ∈ bs, c ∈ h.free ++ h.taken) → a ∉ headerWords bs := by
        intro bs hbs hc
        obtain ⟨d, hd, he⟩ := mem_headerWords.1 hc
        exact ha (mem_headerWords.2 ⟨d, hbs d hd, he⟩)
      rw [hframe₂ a (hsub _ ?_), hframe₁ a (hsub _ (fun c hc => List.mem_append_right _ hc))]
      intro c hc
      rcases List.mem_cons.1 hc with rfl | hc
      · exact List.mem_append_right _ hb
      · exact List.mem_append_left _ hc

end OSK
