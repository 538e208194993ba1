import RelayLogic.Machine.Stack
import RelayLogic.Operation
import Std.Data.TreeMap.Lemmas

/-! The cells of a controller, a row for each category. A cell comes into being, switched off,
when it is first accessed, so a row takes no more room than the cells in use. What a memory
holds is told by `value`, whether a cell has come into being or not. -/
namespace RelayLogic

/-- The cells of one category: how many there are, and the values of those accessed so far. -/
structure Row where
  size : Nat
  accessed : Std.TreeMap Nat Bool

namespace Row

def fresh (size : Nat) : Row := ⟨size, ∅⟩

/-- The value of a cell. One that was never accessed is off. -/
def value (r : Row) (index : Nat) : Bool := r.accessed[index]?.getD false

def put (r : Row) (index : Nat) (value : Bool) : Row :=
  { r with accessed := r.accessed.insert index value }

def reset (r : Row) : Row := { r with accessed := r.accessed.map fun _ _ => false }

@[simp] theorem value_fresh (size index : Nat) : (fresh size).value index = false := by
  simp [fresh, value]

@[simp] theorem value_put (r : Row) (i j : Nat) (b : Bool) :
    (r.put i b).value j = if i = j then b else r.value j := by
  simp only [put, value, Std.TreeMap.getElem?_insert, Std.LawfulEqCmp.compare_eq_iff_eq]
  split <;> rfl

@[simp] theorem value_reset (r : Row) (index : Nat) : r.reset.value index = false := by
  simp only [reset, value, Std.TreeMap.getElem?_map]
  cases r.accessed[index]? <;> rfl

end Row

structure Memory where
  inputs : Row
  outputs : Row
  flags : Row
  monoflops : Row

namespace Memory

def fresh (inputs outputs flags monoflops : Nat) : Memory :=
  ⟨.fresh inputs, .fresh outputs, .fresh flags, .fresh monoflops⟩

def row (m : Memory) : Category → Row
  | .input => m.inputs
  | .output => m.outputs
  | .flag => m.flags
  | .monoflop => m.monoflops

def setRow (m : Memory) (row : Row) : Category → Memory
  | .input => { m with inputs := row }
  | .output => { m with outputs := row }
  | .flag => { m with flags := row }
  | .monoflop => { m with monoflops := row }

def cells (m : Memory) (c : Category) : Nat := (m.row c).size

def value (m : Memory) (c : Category) (index : Nat) : Bool := (m.row c).value index

def put (m : Memory) (c : Category) (index : Nat) (value : Bool) : Memory :=
  m.setRow ((m.row c).put index value) c

/-- The value of a cell, and the memory in which it has come into being. -/
@[inline] def load (m : Memory) (c : Category) (index : Nat) : Except Fault (Bool × Memory) :=
  if index < m.cells c then
    match (m.row c).accessed[index]? with
    | some value => .ok (value, m)
    | none => .ok (false, m.put c index false)
  else .error (.indexOutOfBounds c index (m.cells c))

def write (m : Memory) (c : Category) (index : Nat) (value : Bool) : Except Fault Memory := do
  let (_, m) ← m.load c index
  return m.put c index value

def reset (m : Memory) : Memory :=
  ⟨m.inputs.reset, m.outputs.reset, m.flags.reset, m.monoflops.reset⟩

/-- What a cell holds after a value was stored: a write takes it over, the others act only on a
value that is true. -/
def stored (a : Access) (old value : Bool) : Bool :=
  match a with
  | .set => old || value
  | .reset => old && !value
  | .write | .read => value

def store (m : Memory) (a : Access) (c : Category) (index : Nat) (value : Bool) :
    Except Fault Memory := do
  let (old, m) ← m.load c index
  return m.put c index (stored a old value)

@[simp] theorem row_setRow (m : Memory) (row : Row) (c d : Category) :
    (m.setRow row c).row d = if d = c then row else m.row d := by
  cases c <;> cases d <;> rfl

@[simp] theorem row_reset (m : Memory) (c : Category) : m.reset.row c = (m.row c).reset := by
  cases c <;> rfl

@[simp] theorem cells_put (m : Memory) (c d : Category) (index : Nat) (value : Bool) :
    (m.put c index value).cells d = m.cells d := by
  by_cases h : d = c
  · subst h
    simp [put, cells, Row.put]
  · simp [put, cells, h]

@[simp] theorem cells_reset (m : Memory) (c : Category) : m.reset.cells c = m.cells c := by
  simp [cells, Row.reset]

theorem value_put (m : Memory) (c d : Category) (i j : Nat) (b : Bool) :
    (m.put c i b).value d j = if d = c ∧ i = j then b else m.value d j := by
  by_cases h : d = c
  · subst h
    simp [put, value]
  · simp [put, value, h]

@[simp] theorem value_reset (m : Memory) (c : Category) (index : Nat) :
    m.reset.value c index = false := by
  simp [value]

end Memory

end RelayLogic
