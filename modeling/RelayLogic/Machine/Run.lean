import RelayLogic.Machine.Memory

/-! Running operations. Each step takes its operands from a stack of bits, and the memory keeps
what was stored before a fault. -/
namespace RelayLogic

variable {capacity : Nat}

/-- The effect of a logical instruction on the stack. Its right operand is on top. -/
@[inline] def Instruction.combine (i : Instruction) (s : Stack Bool capacity) :
    Except Fault (Stack Bool capacity) := do
  let (right, s) ← s.pop
  match i with
  | .and => do
    let (left, s) ← s.pop
    s.push (left && right)
  | .or => do
    let (left, s) ← s.pop
    s.push (left || right)
  | _ => s.push (!right)

namespace Memory

/-- One step. A value is read before it is pushed, and popped before it is stored. -/
def step (m : Memory) (op : Operation) (s : Stack Bool capacity) :
    Except Fault (Stack Bool capacity) × Memory :=
  match op.instruction.access? with
  | some (.read, c) =>
    match m.load c op.argument with
    | .error fault => (.error fault, m)
    | .ok (value, m) => (s.push value, m)
  | some (a, c) =>
    match s.pop with
    | .error fault => (.error fault, m)
    | .ok (value, s) =>
      match m.store a c op.argument value with
      | .error fault => (.error fault, m)
      | .ok m => (.ok s, m)
  | none => (op.instruction.combine s, m)

/-- Steps through operations until one of them faults. -/
def interpret (m : Memory) (s : Stack Bool capacity) :
    List Operation → Except Fault (Stack Bool capacity) × Memory
  | [] => (.ok s, m)
  | op :: rest =>
    match m.step op s with
    | (.error fault, m) => (.error fault, m)
    | (.ok s, m) => interpret m s rest

/-- The value that operations leave, which has to be the only one on the stack. -/
def execute (m : Memory) (capacity : Nat) (ops : List Operation) : Except Fault Bool × Memory :=
  match m.interpret (Stack.empty : Stack Bool capacity) ops with
  | (.error fault, m) => (.error fault, m)
  | (.ok s, m) =>
    if s.size = 1 then (s.pop.map Prod.fst, m) else (.error (.wrongDepth s.size 1), m)

/-- Runs operations that have to leave the stack empty. -/
def run (m : Memory) (capacity : Nat) (ops : List Operation) : Except Fault Unit × Memory :=
  match m.interpret (Stack.empty : Stack Bool capacity) ops with
  | (.error fault, m) => (.error fault, m)
  | (.ok s, m) => if s.isEmpty then (.ok (), m) else (.error (.wrongDepth s.size 0), m)

end Memory

end RelayLogic
