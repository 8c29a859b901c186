import RiscVKernel.Memory.Words

/-! `_list.hpp` over memory words. A node is a block of two words, `data` at its
address and `next` behind it; a `_list` has the variables `head` and `tail`.
Comparators and conditions are functions of what they read. -/

namespace OSK

open Lib

/-- A `_list` and the memory its nodes are in. -/
structure NodeList where
  heap : Allocator
  head : ℕ
  tail : ℕ

namespace NodeList

def empty (heap : Allocator) : NodeList := ⟨heap, 0, 0⟩

/-- Why a call does not come back: a null pointer is followed, or a loop does not end. -/
inductive Fault
  | null
  | endless
  deriving DecidableEq, Repr

def data (l : NodeList) (elem : ℕ) : ℕ := l.heap.mem elem

def next (l : NodeList) (elem : ℕ) : ℕ := l.heap.mem (elem + 8)

def setData (l : NodeList) (elem data : ℕ) : NodeList := { l with heap := l.heap.store elem data }

def setNext (l : NodeList) (elem next : ℕ) : NodeList :=
  { l with heap := l.heap.store (elem + 8) next }

/-- `prev->next = v`, or `head = v` when there is no node before. -/
def link (l : NodeList) (prev v : ℕ) : NodeList :=
  if prev ≠ 0 then l.setNext prev v else { l with head := v }

/-- `_kmalloc` for an `Elem`, and the stores of `data` and `next`. -/
def newElem (B : HeapBounds) (l : NodeList) (data next : ℕ) : Except Fault (ℕ × NodeList) :=
  match l.heap.kmalloc B (blocksFor 16) with
  | none => .error .endless
  | some (elem, heap) =>
    if elem = 0 then .error .null
    else .ok (elem, ({ l with heap := heap }.setData elem data).setNext elem next)

def freeElem (l : NodeList) (elem : ℕ) : Except Fault NodeList :=
  match l.heap.kmfree elem with
  | none => .error .endless
  | some (_, heap) => .ok { l with heap := heap }

/-- The result of a loop that may not end. -/
def ended {α : Type} : Option α → Except Fault α
  | none => .error .endless
  | some a => .ok a

/-- Loops over the nodes of a list run at most once for each block of the heap. -/
def loopBound (l : NodeList) : ℕ := l.heap.loopBound

def addFirst (B : HeapBounds) (l : NodeList) (data : ℕ) : Except Fault NodeList := do
  let (elem, l) ← l.newElem B data l.head
  return { l with head := elem, tail := if l.tail = 0 then elem else l.tail }

def addLast (B : HeapBounds) (l : NodeList) (data : ℕ) : Except Fault NodeList := do
  let (elem, l) ← l.newElem B data 0
  return { l.link l.tail elem with tail := elem }

def removeFirst (l : NodeList) : Except Fault (ℕ × NodeList) := do
  if l.head = 0 then return (0, l)
  let elem := l.head
  let l := { l with head := l.next elem }
  let l := if l.head = 0 then { l with tail := 0 } else l
  let ret := l.data elem
  let l ← l.freeElem elem
  return (ret, l)

def peekFirst (l : NodeList) : ℕ := if l.head ≠ 0 then l.data l.head else 0

/-- The loop goes on to `tail` without a test for null, and `elem->data` is read
through `tail`. -/
def removeLast (l : NodeList) : Except Fault (ℕ × NodeList) := do
  if l.head = 0 then return (0, l)
  let (curr, prev) ← ended (walk l.next (fun curr => !decide (curr = l.tail)) l.loopBound l.head 0)
  if curr ≠ l.tail ∨ l.tail = 0 then .error .null
  let elem := l.tail
  let l := { l.link prev 0 with tail := prev }
  let ret := l.data elem
  let l ← l.freeElem elem
  return (ret, l)

def removeSpec (l : NodeList) (ptr : ℕ) : Except Fault (Bool × NodeList) := do
  if ptr = 0 then return (false, l)
  let (curr, prev) ← ended (walk l.next (fun curr => !decide (l.data curr = ptr)) l.loopBound l.head 0)
  if curr = 0 then return (false, l)
  let l := l.link prev (l.next curr)
  let l := if curr = l.tail then { l with tail := prev } else l
  let l ← l.freeElem curr
  return (true, l)

def peekLast (l : NodeList) : ℕ := if l.tail ≠ 0 then l.data l.tail else 0

def insertSorted (B : HeapBounds) (l : NodeList) (data : ℕ) (cmp : ℕ → ℕ → Bool) :
    Except Fault NodeList := do
  if data = 0 then return l
  let (curr, prev) ← ended (walk l.next (fun curr => cmp (l.data curr) data) l.loopBound l.head 0)
  let (elem, l) ← l.newElem B data curr
  let l := l.link prev elem
  return if curr = 0 then { l with tail := elem } else l

/-! `sort`. -/

/-- The loop of `getMiddle`. -/
def middle (l : NodeList) : ℕ → ℕ → ℕ → Option ℕ
  | 0, _, _ => none
  | fuel + 1, slow, fast =>
    if fast = 0 then some slow
    else
      let fast := l.next fast
      if fast = 0 then l.middle fuel slow fast else l.middle fuel (l.next slow) (l.next fast)

def getMiddle (l : NodeList) (head : ℕ) : Option ℕ :=
  if head = 0 then some head else l.middle l.loopBound head (l.next head)

/-- The recursion of `merge`, which is at most one call for each node deep. -/
def merge (cmp : ℕ → ℕ → Bool) : ℕ → NodeList → ℕ → ℕ → Option (ℕ × NodeList)
  | 0, _, _, _ => none
  | fuel + 1, l, left, right =>
    if left = 0 then some (right, l)
    else if right = 0 then some (left, l)
    else if cmp (l.data left) (l.data right) then do
      let (rest, l) ← merge cmp fuel l (l.next left) right
      return (left, l.setNext left rest)
    else do
      let (rest, l) ← merge cmp fuel l left (l.next right)
      return (right, l.setNext right rest)

def mergeSort (cmp : ℕ → ℕ → Bool) : ℕ → NodeList → ℕ → Option (ℕ × NodeList)
  | 0, _, _ => none
  | fuel + 1, l, head =>
    if head = 0 ∨ l.next head = 0 then some (head, l)
    else do
      let middle ← l.getMiddle head
      let nextToMiddle := l.next middle
      let l := l.setNext middle 0
      let (left, l) ← mergeSort cmp fuel l head
      let (right, l) ← mergeSort cmp fuel l nextToMiddle
      merge cmp l.loopBound l left right

/-- `tail = head; while (tail->next) tail = tail->next;` -/
def lastElem (l : NodeList) : ℕ → ℕ → Option ℕ
  | 0, _ => none
  | fuel + 1, tail => if l.next tail = 0 then some tail else l.lastElem fuel (l.next tail)

def sort (l : NodeList) (cmp : ℕ → ℕ → Bool) : Except Fault NodeList := do
  if l.head = 0 ∨ l.next l.head = 0 then return l
  let (head, l) ← ended (mergeSort cmp l.loopBound l l.head)
  let tail ← ended (l.lastElem l.loopBound head)
  return { l with head := head, tail := tail }

/-! `foreach` and `foreachWhile`. What the callbacks work on besides the list is
in `ω`. -/

section Iteration

variable {ω : Type} (func : ℕ → NodeList × ω → Except Fault (NodeList × ω))

def foreachFrom : ℕ → ℕ → NodeList × ω → Except Fault (NodeList × ω)
  | 0, _, _ => .error .endless
  | fuel + 1, curr, st =>
    if curr = 0 then .ok st
    else do
      let st ← func (st.1.data curr) st
      foreachFrom fuel (st.1.next curr) st

def foreach (st : NodeList × ω) : Except Fault (NodeList × ω) :=
  foreachFrom func st.1.loopBound st.1.head st

variable (condition : ℕ → NodeList × ω → Bool)

def foreachWhileFrom : ℕ → ℕ → NodeList × ω → Except Fault (NodeList × ω)
  | 0, _, _ => .error .endless
  | fuel + 1, curr, st =>
    if curr ≠ 0 ∧ condition (st.1.data curr) st then do
      let toCheck := curr
      let curr := st.1.next curr
      let st ← func (st.1.data toCheck) st
      foreachWhileFrom fuel curr st
    else .ok st

def foreachWhile (st : NodeList × ω) : Except Fault (NodeList × ω) :=
  foreachWhileFrom func condition st.1.loopBound st.1.head st

end Iteration

end NodeList
end OSK
