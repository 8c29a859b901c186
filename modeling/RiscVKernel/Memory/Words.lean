import RiscVKernel.Lib.Chain
import RiscVKernel.Memory.Heap

/-! `_memoryAllocator.cpp` over memory words. `mem a` is the 64-bit word at
address `a`; a block starts with two header words, the address of the next block
of its list and its size in blocks. Address arithmetic is modulo `2 ^ 64`. -/

namespace OSK

open Lib

/-- Values of `uint64`. -/
def wrap (x : ℕ) : ℕ := x % 2 ^ 64

/-- `x - y` of two `uint64`. -/
def wrapSub (x y : ℕ) : ℕ := wrap (x + 2 ^ 64 - y)

/-- `HEAP_START_ADDR` and `HEAP_END_ADDR` of `hw.lib`. -/
structure HeapBounds where
  heapStartAddr : ℕ
  heapEndAddr : ℕ

structure Allocator where
  mem : ℕ → ℕ
  headFree : ℕ
  headTaken : ℕ
  totalBlocks : ℕ
  initialazed : Bool

namespace Allocator

def store (s : Allocator) (a v : ℕ) : Allocator := { s with mem := Function.update s.mem a v }

/-- The static initialisers, with any contents of the memory. -/
def static (B : HeapBounds) (mem : ℕ → ℕ) : Allocator :=
  ⟨mem, B.heapStartAddr, 0, wrapSub B.heapEndAddr B.heapStartAddr / memBlockSize, false⟩

def init (B : HeapBounds) (s : Allocator) : Allocator :=
  if s.initialazed then s
  else
    let s := { s with
      headFree := B.heapStartAddr
      headTaken := 0
      totalBlocks := wrapSub B.heapEndAddr B.heapStartAddr / memBlockSize }
    let s := s.store s.headFree 0
    let s := s.store (s.headFree + 8) s.totalBlocks
    { s with initialazed := true }

/-- The search loops run at most once for each block of the heap. -/
def loopBound (s : Allocator) : ℕ := s.totalBlocks + 1

/-- `prev64[0] = v`, or `headFree = v` when there is no block before. -/
def linkFree (s : Allocator) (prev v : ℕ) : Allocator :=
  let r := relink s.mem s.headFree prev v
  { s with mem := r.1, headFree := r.2 }

/-- The first `numOfBlocks` blocks of the free block `cur` taken out of the free
list, in which `prev` stands before it. -/
def takeOut (s : Allocator) (cur prev numOfBlocks : ℕ) : Allocator :=
  let next := s.mem cur
  let leftover := wrap (cur + wrap (numOfBlocks * memBlockSize))
  if numOfBlocks = s.mem (cur + 8) then s.linkFree prev next
  else
    let s := s.store leftover next
    let s := s.store (leftover + 8) (wrapSub (s.mem (cur + 8)) numOfBlocks)
    s.linkFree prev leftover

/-- The block `cur` written as one of `numOfBlocks` blocks at the head of the
taken list. -/
def pushTaken (s : Allocator) (cur numOfBlocks : ℕ) : Allocator :=
  let s := s.store (cur + 8) numOfBlocks
  let s := s.store cur 0
  let s := s.store cur s.headTaken
  { s with headTaken := cur }

/-- The result of `_kmalloc` and the state it leaves; `none` if its loop does
not end. -/
def kmalloc (B : HeapBounds) (s : Allocator) (numOfBlocks : ℕ) : Option (ℕ × Allocator) :=
  let s := init B s
  if numOfBlocks = 0 then some (0, s)
  else match walk s.mem (fun cur => s.mem (cur + 8) < numOfBlocks) s.loopBound s.headFree 0 with
    | none => none
    | some (cur, prev) =>
      if cur = 0 ∨ s.headFree = 0 then some (0, s)
      else some (wrap (cur + sizeHeader), (s.takeOut cur prev numOfBlocks).pushTaken cur numOfBlocks)

/-- `prev64[0] = next64`, or `headTaken = next64` when there is no block before. -/
def unlinkTaken (s : Allocator) (prev next : ℕ) : Allocator :=
  let r := relink s.mem s.headTaken prev next
  { s with mem := r.1, headTaken := r.2 }

/-- The block `cur` linked in after `prev`, or merged into it: the block to go
on with and the state. -/
def joinPrev (s : Allocator) (prev cur : ℕ) : ℕ × Allocator :=
  if prev = 0 then (cur, { s with headFree := cur })
  else if wrap (prev + wrap (s.mem (prev + 8) * memBlockSize)) = cur then
    (prev, s.store (prev + 8) (wrap (s.mem (prev + 8) + s.mem (cur + 8))))
  else
    let s := s.store cur (s.mem prev)
    (cur, s.store prev cur)

/-- `next` merged into the block `cur` before it, or linked behind it. -/
def joinNext (s : Allocator) (cur next : ℕ) : Allocator :=
  if next = 0 then s
  else if wrap (cur + wrap (s.mem (cur + 8) * memBlockSize)) = next then
    let s := s.store (cur + 8) (wrap (s.mem (cur + 8) + s.mem (next + 8)))
    s.store cur (s.mem next)
  else s.store cur next

/-- The block `cur` put into the free list; `none` if the loop does not end. -/
def insertFree (s : Allocator) (cur : ℕ) : Option Allocator :=
  let s := s.store cur 0
  match walk s.mem (fun next => next < cur) s.loopBound s.headFree 0 with
  | none => none
  | some (next, prev) =>
    let (cur, s) := s.joinPrev prev cur
    some (s.joinNext cur next)

/-- The result of `_kmfree` and the state it leaves; `none` if one of its loops
does not end. -/
def kmfree (s : Allocator) (toBeFreed : ℕ) : Option (ℤ × Allocator) :=
  if toBeFreed = 0 then some (0, s)
  else
    let cur := wrapSub toBeFreed sizeHeader
    match walk s.mem (fun next => !decide (next = cur)) s.loopBound s.headTaken 0 with
    | none => none
    | some (next, prev) =>
      if next = 0 then some (-1, s)
      else ((s.unlinkTaken prev (s.mem next)).insertFree cur).map fun s => (0, s)

end Allocator
end OSK
