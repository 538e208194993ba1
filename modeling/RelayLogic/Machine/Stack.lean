import RelayLogic.Symbol.Category

/-! A stack of fixed capacity. Slots above the top keep what they held before, and are never
read again before they are written. -/
namespace RelayLogic

/-- Why the machine stops. -/
inductive Fault where
  | stackOverflow (capacity : Nat)
  | stackEmpty
  | indexOutOfBounds (category : Category) (index cells : Nat)
  | wrongDepth (depth expected : Nat)
deriving DecidableEq, Repr

def Fault.message : Fault → String
  | stackOverflow capacity => "Stack overflow, capacity is " ++ capacity.repr
  | stackEmpty => "Pop from an empty stack"
  | indexOutOfBounds category index cells =>
    "Index " ++ index.repr ++ " of " ++ category.name ++ " is out of bounds (" ++ cells.repr ++
      " cells)"
  | wrongDepth depth expected =>
    "Final stack depth is " ++ depth.repr ++ ", expected " ++ expected.repr

/-- Slots for so many items, the first `size` of which are in use. -/
structure Stack (α : Type) (capacity : Nat) where
  slots : Vector α capacity
  size : Nat
  size_le : size ≤ capacity

namespace Stack

variable {α : Type} {capacity : Nat}

def empty [Inhabited α] : Stack α capacity := ⟨Vector.replicate capacity default, 0, Nat.zero_le _⟩

/-- Puts an item on top, if there is room for it. The stack that this leaves comes with the result;
it is the old one if there is no room. -/
@[inline] def tryPush (s : Stack α capacity) (item : α) : Except Fault Unit × Stack α capacity :=
  if h : s.size < capacity then (.ok (), ⟨s.slots.set s.size item, s.size + 1, h⟩)
  else (.error (.stackOverflow capacity), s)

/-- Takes off the item on top, if there is one. Its slot keeps it. -/
@[inline] def tryPop (s : Stack α capacity) : Except Fault α × Stack α capacity :=
  match s with
  | ⟨slots, 0, h⟩ => (.error .stackEmpty, ⟨slots, 0, h⟩)
  | ⟨slots, size + 1, h⟩ => (.ok slots[size], ⟨slots, size, Nat.le_of_succ_le h⟩)

-- A run that faults has no more use for its stack, so the two below leave it out then.

/-- The stack with an item put on top. -/
@[inline] def push (s : Stack α capacity) (item : α) : Except Fault (Stack α capacity) :=
  match s.tryPush item with
  | (.ok (), t) => .ok t
  | (.error fault, _) => .error fault

/-- The item on top, and the stack without it. -/
@[inline] def pop (s : Stack α capacity) : Except Fault (α × Stack α capacity) :=
  match s.tryPop with
  | (.ok item, t) => .ok (item, t)
  | (.error fault, _) => .error fault

def isEmpty (s : Stack α capacity) : Bool := s.size = 0

/-- The items on the stack, the top first. -/
def toList (s : Stack α capacity) : List α := (s.slots.toList.take s.size).reverse

theorem length_toList (s : Stack α capacity) : s.toList.length = s.size := by
  have := s.size_le
  simp [toList]
  omega

@[simp] theorem toList_empty [Inhabited α] : (empty : Stack α capacity).toList = [] := by
  simp [toList, empty]

end Stack

end RelayLogic
