import StackLisp.Error
import StackLisp.Value.Basic

/-!
# The heap

Pairs and environment frames live in two arenas of one heap, addressed by
position. Nothing is ever freed, and an allocation fails when the two arenas
together reach the capacity of the heap.

Reading a list (`Heap.head`, `Heap.tail`) treats `nil` as a list whose head and
tail are `nil`. Allocating is a `HeapM` action: when it fails half way, the
pairs made until then stay allocated.
-/

namespace StackLisp

/-- The slots of one activation of a function. A dummy frame is made before its
    values are known, and filled in place later. -/
structure Frame where
  slots : Array Value
  filled : Bool
deriving DecidableEq, Repr, Inhabited

/-- The arenas of pairs and frames. The components of the pairs are kept apart, at
    the same positions. -/
structure Heap where
  cars : Array Value := #[]
  cdrs : Array Value := #[]
  frames : Array Frame := #[]
  /-- Upper bound on pairs and frames together. -/
  capacity : Nat := 0
  /-- Every pair has both components. -/
  size_cdrs : cdrs.size = cars.size := by rfl

instance : Inhabited Heap := ⟨{}⟩

/-- Actions on a heap; what is done before a failure stays done. -/
abbrev HeapM := EStateM Failure Heap

namespace Heap

/-- The number of pairs for which room is set aside in advance, at most. -/
def reserve : Nat := Nat.pow 2 26

/-- The most pairs and frames that memory can hold, whatever the capacity asked for:
    their number is a machine word with sign. -/
def addressable : Nat := Nat.pow 2 63 - 1

/-- A heap without pairs and frames. Room for its pairs is set aside, so that they
    stay where they are while the heap grows. -/
def empty (capacity : Nat) : Heap :=
  let room := min capacity reserve
  { cars := .emptyWithCapacity room
    cdrs := .emptyWithCapacity room
    capacity := min capacity addressable }

/-- The number of pairs so far. -/
@[inline]
def pairCount (h : Heap) : Nat := h.cars.size

/-- The number of allocations so far. -/
@[inline]
def size (h : Heap) : Nat := h.pairCount + h.frames.size

/-- Whether another allocation succeeds. -/
@[inline]
def hasRoom (h : Heap) : Bool := h.size < h.capacity

/-- The first component of a pair, `nil` for a pair never handed out. -/
def car (h : Heap) (id : PairId) : Value := h.cars.getD id.index .nil

/-- The second component of a pair, `nil` for a pair never handed out. -/
def cdr (h : Heap) (id : PairId) : Value := h.cdrs.getD id.index .nil

/-- The head of a list, `nil` for the empty list. -/
def head (h : Heap) : Value → Except Error Value
  | .nil => .ok .nil
  | .pair id => .ok (h.car id)
  | v => .error (.type (.notList "car" v.typeName))

/-- The tail of a list, `nil` for the empty list. -/
def tail (h : Heap) : Value → Except Error Value
  | .nil => .ok .nil
  | .pair id => .ok (h.cdr id)
  | v => .error (.type (.notList "cdr" v.typeName))

/-- The second element of a list. -/
def second (h : Heap) (v : Value) : Except Error Value := do
  h.head (← h.tail v)

/-- Replaces the first component of a pair. -/
def setCar (h : Heap) (id : PairId) (v : Value) : Heap :=
  { h with
    cars := h.cars.setIfInBounds id.index v
    size_cdrs := by rw [Array.size_setIfInBounds]; exact h.size_cdrs }

/-- Replaces the second component of a pair. -/
def setCdr (h : Heap) (id : PairId) (v : Value) : Heap :=
  { h with
    cdrs := h.cdrs.setIfInBounds id.index v
    size_cdrs := by rw [Array.size_setIfInBounds]; exact h.size_cdrs }

/-- A replaced component is read back. -/
theorem car_setCar (h : Heap) (id : PairId) (v : Value) (valid : id.index < h.pairCount) :
    (h.setCar id v).car id = v := by
  simp only [pairCount] at valid
  simp [car, setCar, valid]

/-- A replaced component is read back. -/
theorem cdr_setCdr (h : Heap) (id : PairId) (v : Value) (valid : id.index < h.pairCount) :
    (h.setCdr id v).cdr id = v := by
  rw [pairCount, ← h.size_cdrs] at valid
  simp [cdr, setCdr, valid]

/-- Replacing first components leaves the second ones alone. -/
@[simp]
theorem cdr_setCar (h : Heap) (id other : PairId) (v : Value) :
    (h.setCar id v).cdr other = h.cdr other := rfl

/-- Replacing second components leaves the first ones alone. -/
@[simp]
theorem car_setCdr (h : Heap) (id other : PairId) (v : Value) :
    (h.setCdr id v).car other = h.car other := rfl

/-- The heap with one more pair. -/
@[inline]
def push (h : Heap) (car cdr : Value) : Heap :=
  { h with
    cars := h.cars.push car
    cdrs := h.cdrs.push cdr
    size_cdrs := by rw [Array.size_push, Array.size_push, h.size_cdrs] }

/-- A new pair. -/
@[inline]
def alloc (car cdr : Value) : HeapM PairId := fun h =>
  if h.hasRoom then
    .ok ⟨h.pairCount⟩ (h.push car cdr)
  else
    .error (.error .heapOverflow) h

/-- The first component of a new pair. -/
@[simp]
theorem car_push (h : Heap) (car cdr : Value) : (h.push car cdr).car ⟨h.pairCount⟩ = car := by
  simp [Heap.car, push, pairCount]

/-- The second component of a new pair. -/
@[simp]
theorem cdr_push (h : Heap) (car cdr : Value) : (h.push car cdr).cdr ⟨h.pairCount⟩ = cdr := by
  simp [Heap.cdr, push, pairCount, ← h.size_cdrs]

/-- A new pair, as a value. -/
@[inline]
def cons (car cdr : Value) : HeapM Value := do
  return .pair (← alloc car cdr)

/-- A proper list of two values. -/
def listOfTwo (first second : Value) : HeapM Value := do
  cons first (← cons second .nil)

/-- The element of a list of one. -/
def onlyElement? (h : Heap) : Value → Option Value
  | .pair id => if (h.cdr id).isNil then some (h.car id) else none
  | _ => none

/-- A list of `values` that ends in `tail`; the last value is allocated first. -/
def listWithTail (values : List Value) (tail : Value) : HeapM Value :=
  values.foldrM cons tail

/-- A proper list of `values`. -/
def list (values : List Value) : HeapM Value := listWithTail values .nil

end Heap

end StackLisp
