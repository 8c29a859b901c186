import RiscVKernel.Lib.Runs
import RiscVKernel.Memory.Refinement

/-! Histories of the allocator: any sequence of `_kmalloc` and `_kmfree` with
any arguments, between which callers store words into the payload of blocks
they hold. The two lists partition the heap after every call, and no search
loop runs without an end. -/

namespace OSK

open Lib

namespace Allocator

inductive Call
  | kmalloc (numOfBlocks : UInt64)
  | kmfree (toBeFreed : UInt64)
  | write (a v : UInt64)

inductive Fault
  | endless
  deriving DecidableEq

def step (B : HeapBounds) (s : Allocator) : Call → Except Fault Allocator
  | .kmalloc n => match s.kmalloc B n.toNat with
    | some (_, s') => .ok s'
    | none => .error .endless
  | .kmfree p => match s.kmfree p.toNat with
    | some (_, s') => .ok s'
    | none => .error .endless
  | .write a v => .ok (s.store a.toNat v.toNat)

/-- The words at `head` are a list of the blocks `bs`. -/
def Listed (mem : ℕ → ℕ) (head : ℕ) (bs : List Block) : Prop :=
  Seg mem head (bs.map (·.addr)) 0 ∧ ∀ b ∈ bs, mem (b.addr + 8) = b.size

instance (mem : ℕ → ℕ) (head : ℕ) (bs : List Block) : Decidable (Listed mem head bs) :=
  inferInstanceAs (Decidable (_ ∧ _))

/-- The word at `a` lies in the payload of a block of the taken list. -/
def Holds (s : Allocator) (a : ℕ) : Prop :=
  ∃ bs, Listed s.mem s.headTaken bs ∧ ∃ b ∈ bs, payload b ≤ a ∧ a + 8 ≤ b.stop memBlockSize

/-- Callers store only into what they hold. -/
def CallerWrites (s : Allocator) : Call → Prop
  | .write a _ => Holds s a.toNat
  | _ => True

/-- The free and the taken list are finite, their blocks are whole blocks of the
heap and partition it, and the free list is ascending and fully coalesced. -/
structure Partitioned (start total : ℕ) (s : Allocator) (free taken : List Block) : Prop where
  free_list : Listed s.mem s.headFree free
  taken_list : Listed s.mem s.headTaken taken
  aligned : ∀ b ∈ free ++ taken, 1 ≤ b.size ∧ ∃ k, b.addr = start + memBlockSize * k
  within : ∀ b ∈ free ++ taken, start ≤ b.addr ∧ b.stop memBlockSize ≤ start + memBlockSize * total
  disjoint : (free ++ taken).Pairwise
    fun b c => b.stop memBlockSize ≤ c.addr ∨ c.stop memBlockSize ≤ b.addr
  cover : ∀ a, start ≤ a → a < start + memBlockSize * total →
    ∃ b ∈ free ++ taken, b.addr ≤ a ∧ a < b.stop memBlockSize
  ascending : free.Pairwise fun b c => b.addr < c.addr
  coalesced : ∀ b ∈ free, ∀ c ∈ free, b.stop memBlockSize ≠ c.addr

end Allocator

namespace Heap

variable {start total : ℕ} {h : Heap}

theorem WF.cover (hw : WF start total h) {a : ℕ} (ha : start ≤ a)
    (hb : a < start + memBlockSize * total) :
    ∃ b ∈ h.free ++ h.taken, b.addr ≤ a ∧ a < b.stop memBlockSize := by
  obtain ⟨ts, ht, -, hf, htk⟩ := hw
  obtain ⟨⟨b, f⟩, hm, h1, h2⟩ := tiles_cover ht ha hb
  refine ⟨b, ?_, h1, h2⟩
  cases f with
  | true => exact List.mem_append_left _ (hf ▸ mem_freeSpans.2 hm)
  | false => exact List.mem_append_right _ (htk.mem_iff.2 (mem_usedSpans.2 hm))

theorem WF.ascending (hw : WF start total h) : h.free.Pairwise fun b c => b.addr < c.addr := by
  obtain ⟨ts, ht, -, hf, -⟩ := hw
  rw [hf]
  refine List.pairwise_map.2 (List.Pairwise.filter _ ?_)
  apply (tiles_ordered ht).imp_of_mem
  intro x y hx _ hxy
  have := stop_ge (u := memBlockSize) (tiles_bounds ht hx).2.1
  unfold memBlockSize at *
  omega

theorem WF.separate (hw : WF start total h) {b c : Block} (hb : b ∈ h.free ++ h.taken)
    (hc : c ∈ h.free ++ h.taken) (hne : b ≠ c) :
    b.stop memBlockSize ≤ c.addr ∨ c.stop memBlockSize ≤ b.addr := by
  have hsymm : Std.Symm fun b c : Block =>
      b.stop memBlockSize ≤ c.addr ∨ c.stop memBlockSize ≤ b.addr := ⟨fun _ _ h => h.symm⟩
  exact hw.disjoint.forall hb hc hne

/-- Between two free tiles that touch there is no room for another tile. -/
theorem WF.coalesced (hw : WF start total h) {b c : Block} (hb : b ∈ h.free) (hc : c ∈ h.free) :
    b.stop memBlockSize ≠ c.addr := by
  obtain ⟨ts, ht, hco, hf, -⟩ := hw
  intro he
  have hbt := mem_freeSpans.1 (hf ▸ hb)
  have hct := mem_freeSpans.1 (hf ▸ hc)
  have hlt : b.addr + memBlockSize ≤ b.stop memBlockSize := stop_ge (tiles_bounds ht hbt).2.1
  obtain ⟨ts₁, ts₂, rfl⟩ := List.append_of_mem hbt
  have hord := tiles_addr_lt (u := memBlockSize) (by decide) ht
  have hc₂ : ((c, true) : Tile) ∈ ts₂ := by
    rcases List.mem_append.1 hct with hm | hm
    · have : c.addr < b.addr := hord.1 _ hm
      unfold memBlockSize at *
      omega
    · rcases List.mem_cons.1 hm with hm | hm
      · cases hm
        unfold memBlockSize at *
        omega
      · exact hm
  obtain ⟨m, -, -, -, h4⟩ := tiles_append.1 ht
  cases ts₂ with
  | nil => cases hc₂
  | cons t ts₂ =>
    obtain ⟨h5, h6, h7⟩ := h4
    have hct : (c, true) = t := by
      rcases List.mem_cons.1 hc₂ with hm | hm
      · exact hm
      · have h8 : t.1.stop memBlockSize ≤ c.addr := (tiles_bounds h7 hm).1
        have h9 := stop_ge (u := memBlockSize) h6
        have h10 : t.1.addr = b.stop memBlockSize := h5
        unfold memBlockSize at *
        omega
    subst hct
    have := List.isChain_append.1 hco
    simp [List.isChain_cons] at this

end Heap

namespace Allocator

variable {start total : ℕ} {s s' : Allocator} {h : Heap} {B : HeapBounds} {bs : List Block}

/-- The memory is that of a well-formed heap. -/
def Sound (start total : ℕ) (s : Allocator) : Prop :=
  ∃ h : Heap, Represents total s h ∧ h.WF start total

/-- The memory determines the taken list. -/
theorem Listed.unique {mem : ℕ → ℕ} {a : ℕ} {cs : List Block} (hb : Listed mem a bs)
    (hc : Listed mem a cs) : bs = cs := by
  have hs := seg_unique hb.1 hc.1
  have hsz : ∀ ds : List Block, (∀ d ∈ ds, mem (d.addr + 8) = d.size) →
      ds = (ds.map (·.addr)).map fun a => ⟨a, mem (a + 8)⟩ := by
    intro ds hds
    rw [List.map_map]
    exact ((List.map_congr_left (fun d hd => by simp [hds d hd])).trans (List.map_id ds)).symm
  rw [hsz bs hb.2, hsz cs hc.2, hs]

theorem represents_listed (hr : Represents total s h) : Listed s.mem s.headTaken h.taken :=
  ⟨hr.taken, fun b hb => hr.sizes b (List.mem_append_right _ hb)⟩

theorem represents_partitioned (hr : Represents total s h) (hw : h.WF start total) :
    Partitioned start total s h.free h.taken :=
  ⟨⟨hr.free, fun b hb => hr.sizes b (List.mem_append_left _ hb)⟩, represents_listed hr,
    fun _ hb => ⟨(hw.bounds hb).2.1, hw.aligned hb⟩,
    fun _ hb => ⟨(hw.bounds hb).1, (hw.bounds hb).2.2⟩, hw.disjoint,
    fun _ ha hb => hw.cover ha hb, hw.ascending, fun _ hb _ hc => hw.coalesced hb hc⟩

theorem Sound.partitioned (hs : Sound start total s) :
    ∃ free taken, Partitioned start total s free taken := by
  obtain ⟨h, hr, hw⟩ := hs
  exact ⟨h.free, h.taken, represents_partitioned hr hw⟩

/-- Only the header words count. -/
theorem represents_congr (hr : Represents total s h) (hi : s'.initialazed = s.initialazed)
    (ht : s'.totalBlocks = s.totalBlocks) (hf : s'.headFree = s.headFree)
    (htk : s'.headTaken = s.headTaken)
    (hmem : ∀ a ∈ headerWords (h.free ++ h.taken), s'.mem a = s.mem a) : Represents total s' h := by
  have hlink : ∀ c ∈ h.free ++ h.taken, s'.mem c.addr = s.mem c.addr :=
    fun c hc => hmem _ (mem_headerWords.2 ⟨c, hc, Or.inl rfl⟩)
  refine ⟨hi.trans hr.ready, ht.trans hr.total, ?_, ?_, ?_⟩
  · rw [hf]
    refine seg_frame hr.free fun x hx => ?_
    obtain ⟨c, hc, rfl⟩ := List.mem_map.1 hx
    exact hlink c (List.mem_append_left _ hc)
  · rw [htk]
    refine seg_frame hr.taken fun x hx => ?_
    obtain ⟨c, hc, rfl⟩ := List.mem_map.1 hx
    exact hlink c (List.mem_append_right _ hc)
  · intro c hc
    rw [hmem _ (mem_headerWords.2 ⟨c, hc, Or.inr rfl⟩)]
    exact hr.sizes c hc

/-- A store into a word that is no header word. -/
theorem store_represents {a v : ℕ} (hr : Represents total s h)
    (ha : a ∉ headerWords (h.free ++ h.taken)) : Represents total (s.store a v) h := by
  refine represents_congr hr rfl rfl rfl rfl fun x hx => ?_
  have hxa : x ≠ a := fun he => ha (he ▸ hx)
  simp [hxa]

/-- No word of a payload is a header word. -/
theorem payload_notMem (hw : h.WF start total) {a : ℕ} {b : Block} (hb : b ∈ h.free ++ h.taken)
    (hlo : payload b ≤ a) (hhi : a + 8 ≤ b.stop memBlockSize) :
    a ∉ headerWords (h.free ++ h.taken) := by
  refine notMem_headerWords.2 ?_
  intro c hc
  by_cases hcb : c = b
  · subst hcb
    unfold payload sizeHeader at hlo
    omega
  · have hsz := stop_ge (u := memBlockSize) (hw.bounds hc).2.1
    rcases hw.separate hc hb hcb with hd | hd <;>
    · unfold payload sizeHeader memBlockSize at *
      omega

/-- A store into a payload changes no header word. -/
theorem write_represents {a v : ℕ} (hr : Represents total s h) (hw : h.WF start total)
    (hh : Holds s a) : Represents total (s.store a v) h := by
  obtain ⟨bs, hbs, b, hb, hlo, hhi⟩ := hh
  obtain rfl : bs = h.taken := hbs.unique (represents_listed hr)
  exact store_represents hr (payload_notMem hw (List.mem_append_right _ hb) hlo hhi)

/-- Every call comes back and leaves the memory of a well-formed heap. -/
theorem Sound.step (hs : Sound start total s) (hend : start + memBlockSize * total < 2 ^ 64)
    {c : Call} (hc : CallerWrites s c) : ∃ s', step B s c = .ok s' ∧ Sound start total s' := by
  obtain ⟨h, hr, hw⟩ := hs
  cases c with
  | kmalloc n =>
    cases hm : h.kmalloc n.toNat with
    | none => exact ⟨s, by simp [Allocator.step, kmalloc_null B hr hw hm], h, hr, hw⟩
    | some r =>
      obtain ⟨p, h'⟩ := r
      obtain ⟨s', hs', hr', -⟩ := kmalloc_block B hr hw hend hm
      exact ⟨s', by simp [Allocator.step, hs'], h', hr', Heap.kmalloc_wf hw hm⟩
  | kmfree p =>
    obtain ⟨s', hs', hr', -⟩ := kmfree_block hr hw hend p.toNat_lt
    exact ⟨s', by simp [Allocator.step, hs'], _, hr', Heap.kmfree_wf hw⟩
  | write a v => exact ⟨_, rfl, h, write_represents hr hw hc, hw⟩

end Allocator

/-- The bounds `hw.lib` provides: a heap of at least one block above address 0
and below `2 ^ 64`. -/
structure HeapBounds.Valid (B : HeapBounds) : Prop where
  start_pos : 0 < B.heapStartAddr
  block : B.heapStartAddr + memBlockSize ≤ B.heapEndAddr
  end_lt : B.heapEndAddr < 2 ^ 64

def HeapBounds.totalBlocks (B : HeapBounds) : ℕ :=
  (B.heapEndAddr - B.heapStartAddr) / memBlockSize

namespace HeapBounds.Valid

variable {B : HeapBounds}

theorem totalBlocks_pos (hB : B.Valid) : 1 ≤ B.totalBlocks := by
  have := hB.block
  unfold totalBlocks memBlockSize at *
  omega

theorem stop_lt (hB : B.Valid) : B.heapStartAddr + memBlockSize * B.totalBlocks < 2 ^ 64 := by
  have h1 := hB.block
  have h2 := hB.end_lt
  unfold totalBlocks memBlockSize at *
  omega

theorem init_sound (hB : B.Valid) (mem : ℕ → ℕ) :
    Allocator.Sound B.heapStartAddr B.totalBlocks (Allocator.init B (Allocator.static B mem)) := by
  have h1 := hB.block
  have h0 := hB.start_pos
  have htotal : wrapSub B.heapEndAddr B.heapStartAddr / memBlockSize = B.totalBlocks := by
    rw [wrapSub_of_le hB.end_lt (by unfold memBlockSize at h1; omega)]
    rfl
  refine ⟨Heap.init B.heapStartAddr B.totalBlocks, ⟨rfl, htotal, ?_, rfl, ?_⟩,
    Heap.init_wf hB.totalBlocks_pos⟩
  · have hl : (Allocator.init B (Allocator.static B mem)).mem B.heapStartAddr = 0 := by
      simp [Allocator.init, Allocator.static, Allocator.store]
    exact ⟨rfl, by simp only; omega, hl⟩
  · intro b hb
    obtain rfl : b = ⟨B.heapStartAddr, B.totalBlocks⟩ := by simpa [Heap.init] using hb
    simp [Allocator.init, Allocator.static, Allocator.store, htotal]

end HeapBounds.Valid

namespace Allocator

variable {B : HeapBounds} {mem : ℕ → ℕ} {s s' : Allocator} {start total : ℕ}

/-- Before the first `_kmalloc` there is nothing to free. -/
theorem static_kmfree (p : ℕ) :
    (static B mem).kmfree p = some (if p = 0 then 0 else -1, static B mem) := by
  have hempty : ∀ go, walk (static B mem).mem go (static B mem).loopBound
      (static B mem).headTaken 0 = some (0, 0) := by
    intro go
    simp [static, loopBound, walk]
  unfold Allocator.kmfree
  split_ifs with h0
  · rfl
  · simp only [hempty, if_true]

/-- Before the first `_kmalloc` there is no block to hold and nothing to free. -/
theorem static_step {c : Call} (hk : ∀ n, c ≠ .kmalloc n) (hc : CallerWrites (static B mem) c)
    (hs : step B (static B mem) c = .ok s') : s' = static B mem := by
  cases c with
  | kmalloc n => exact absurd rfl (hk n)
  | kmfree p =>
    rw [step, static_kmfree] at hs
    cases hs
    rfl
  | write a v =>
    obtain ⟨bs, hbs, b, hb, -⟩ := hc
    have : bs = [] := by simpa using (seg_null hbs.1).1 rfl
    simp [this] at hb

theorem init_ready (B : HeapBounds) (s : Allocator) : (init B s).initialazed = true := by
  unfold init
  split_ifs with h
  · exact h
  · rfl

theorem init_init (B : HeapBounds) (s : Allocator) : init B (init B s) = init B s := by
  conv_lhs => rw [init]
  rw [if_pos (init_ready B s)]

/-- `_kmalloc` starts by `init`, which does nothing the second time. -/
theorem kmalloc_init (B : HeapBounds) (s : Allocator) (n : ℕ) :
    s.kmalloc B n = (init B s).kmalloc B n := by
  unfold Allocator.kmalloc
  rw [init_init]

theorem Sound.init_eq (hs : Sound start total s) : init B s = s := by
  obtain ⟨h, hr, -⟩ := hs
  simp [init, hr.ready]

theorem step_sound (hB : B.Valid) {c : Call} (hs : Sound B.heapStartAddr B.totalBlocks s)
    (hc : CallerWrites s c) (hstep : step B s c = .ok s') :
    Sound B.heapStartAddr B.totalBlocks s' := by
  obtain ⟨s'', h1, h2⟩ : ∃ s'', step B s c = .ok s'' ∧ Sound _ _ s'' := hs.step hB.stop_lt hc
  rw [h1] at hstep
  cases hstep
  exact h2

theorem run_sound (hB : B.Valid) {cs : List Call}
    (hrun : Run (step B) CallerWrites (init B (static B mem)) cs s) :
    Sound B.heapStartAddr B.totalBlocks s :=
  hrun.invariant _ (hB.init_sound mem) fun _ _ _ => step_sound hB

/-- From the static initialisers nothing changes until the first `_kmalloc`,
which finds the heap as `init` leaves it. -/
theorem run_static (hB : B.Valid) {cs : List Call}
    (hrun : Run (step B) CallerWrites (static B mem) cs s) :
    ((∀ n, Call.kmalloc n ∉ cs) ∧ s = static B mem) ∨ Sound B.heapStartAddr B.totalBlocks s := by
  induction hrun with
  | nil => exact Or.inl ⟨by simp, rfl⟩
  | @snoc cs _ c _ _ hc hstep ih =>
    rcases ih with ⟨hcs, rfl⟩ | ih
    · by_cases hk : ∀ n, c ≠ .kmalloc n
      · refine Or.inl ⟨?_, static_step hk hc hstep⟩
        intro n hn
        rcases List.mem_append.1 hn with hn | hn
        · exact hcs n hn
        · exact hk n (by simpa [eq_comm] using hn)
      · simp only [ne_eq, not_forall, not_not] at hk
        obtain ⟨n, rfl⟩ := hk
        rw [step, kmalloc_init] at hstep
        have hc₀ : CallerWrites (init B (static B mem)) (.kmalloc n) := trivial
        exact Or.inr (step_sound hB (hB.init_sound mem) hc₀ hstep)
    · exact Or.inr (step_sound hB ih hc hstep)

/-- Every call of every history from an initialised heap comes back with the
heap partitioned; from the static initialisers the same holds from the first
`_kmalloc` on, and until then nothing has changed. -/
theorem history_partitioned (B : HeapBounds) (hB : B.Valid) (mem : ℕ → ℕ) :
    (∀ cs s, Run (step B) CallerWrites (init B (static B mem)) cs s →
      (∃ free taken, Partitioned B.heapStartAddr B.totalBlocks s free taken) ∧
      ∀ c, CallerWrites s c → ∃ s', step B s c = .ok s') ∧
    (∀ cs s, Run (step B) CallerWrites (static B mem) cs s →
      ((∀ n, Call.kmalloc n ∉ cs) ∧ s = static B mem) ∨
      ∃ free taken, Partitioned B.heapStartAddr B.totalBlocks s free taken) := by
  refine ⟨?_, fun cs s hrun => (run_static hB hrun).imp_right Sound.partitioned⟩
  intro cs s hrun
  have hs := run_sound hB hrun
  exact ⟨hs.partitioned, fun c hc => (hs.step hB.stop_lt hc).imp fun _ h => h.1⟩

/-! Samples: in a heap of eight blocks five callers get blocks, and the second and the fourth
free theirs. -/

def eight : HeapBounds := ⟨64, 576⟩

theorem eight_valid : eight.Valid := ⟨by decide, by decide, by decide⟩

def started : Allocator := init eight (static eight fun _ => 7)

def fragmenting : List Call :=
  [.kmalloc 1, .kmalloc 2, .kmalloc 1, .kmalloc 1, .kmalloc 1, .kmfree 144, .kmfree 336]

def isStore : Call → Bool
  | .write _ _ => true
  | _ => false

/-- The lists of a state that is computed, with what else can be computed about it. -/
theorem exists_fragmented {cs : List Call} {free taken : List Block} {q : Allocator → Bool}
    (h : (exec (step eight) (fun _ c => isStore c = false) started cs).any (fun s =>
      decide (Listed s.mem s.headFree free ∧ Listed s.mem s.headTaken taken) && q s) = true) :
    ∃ s, Run (step eight) CallerWrites started cs s ∧ Listed s.mem s.headFree free ∧
      Listed s.mem s.headTaken taken ∧ q s = true := by
  obtain ⟨s, hrun, hs⟩ := exists_run_from h
  rw [Bool.and_eq_true, decide_eq_true_eq] at hs
  refine ⟨s, hrun.mono fun s c hc => ?_, hs.1.1, hs.1.2, hs.2⟩
  cases c with
  | write a v => cases hc
  | _ => trivial

/-- Between the free blocks stand taken ones. -/
theorem history_partitioned_eight : ∃ s, Run (step eight) CallerWrites started fragmenting s ∧
    Partitioned 64 8 s [⟨128, 2⟩, ⟨320, 1⟩, ⟨448, 2⟩] [⟨384, 1⟩, ⟨256, 1⟩, ⟨64, 1⟩] := by
  obtain ⟨s, hrun, hfree, htaken, -⟩ := @exists_fragmented fragmenting
    [⟨128, 2⟩, ⟨320, 1⟩, ⟨448, 2⟩] [⟨384, 1⟩, ⟨256, 1⟩, ⟨64, 1⟩] (fun _ => true) (by decide +kernel)
  obtain ⟨free, taken, hp⟩ := ((history_partitioned eight eight_valid fun _ => 7).1 _ s hrun).1
  obtain rfl := hp.free_list.unique hfree
  obtain rfl := hp.taken_list.unique htaken
  exact ⟨s, hrun, hp⟩

end Allocator
end OSK
