import RelayLogic.Symbol.Category
import RelayLogic.Text.Padding

/-! The operations of the bit machine. Operations that access a cell name its category and carry
its index; logical ones work on the stack alone. -/
namespace RelayLogic

inductive Access where
  | read
  | write
  | set
  | reset
deriving DecidableEq, Repr

namespace Access

def all : List Access := [read, write, set, reset]

def name : Access → String
  | read => "Read"
  | write => "Write"
  | set => "Set"
  | reset => "Reset"

end Access

inductive Instruction where
  | readOutput
  | readFlag
  | readTimer
  | readInput
  | writeOutput
  | writeFlag
  | setOutput
  | setFlag
  | setTimer
  | resetOutput
  | resetFlag
  | resetTimer
  | and
  | or
  | not
deriving DecidableEq, Repr

namespace Instruction

def all : List Instruction :=
  [readOutput, readFlag, readTimer, readInput, writeOutput, writeFlag, setOutput, setFlag,
    setTimer, resetOutput, resetFlag, resetTimer, and, or, not]

def name : Instruction → String
  | readOutput => "ReadOutput"
  | readFlag => "ReadFlag"
  | readTimer => "ReadTimer"
  | readInput => "ReadInput"
  | writeOutput => "WriteOutput"
  | writeFlag => "WriteFlag"
  | setOutput => "SetOutput"
  | setFlag => "SetFlag"
  | setTimer => "SetTimer"
  | resetOutput => "ResetOutput"
  | resetFlag => "ResetFlag"
  | resetTimer => "ResetTimer"
  | and => "OperationAnd"
  | or => "OperationOr"
  | not => "OperationNot"

/-- The instruction that accesses a category. Inputs are only read, and a monoflop cannot be
overwritten. -/
def ofAccess? : Access → Category → Option Instruction
  | .read, .input => some readInput
  | .read, .output => some readOutput
  | .read, .monoflop => some readTimer
  | .read, .flag => some readFlag
  | .write, .output => some writeOutput
  | .write, .flag => some writeFlag
  | .set, .output => some setOutput
  | .set, .monoflop => some setTimer
  | .set, .flag => some setFlag
  | .reset, .output => some resetOutput
  | .reset, .monoflop => some resetTimer
  | .reset, .flag => some resetFlag
  | .write, .input | .write, .monoflop | .set, .input | .reset, .input => none

/-- What an instruction accesses, unless it is a logical one. -/
def access? : Instruction → Option (Access × Category)
  | readInput => some (.read, .input)
  | readOutput => some (.read, .output)
  | readTimer => some (.read, .monoflop)
  | readFlag => some (.read, .flag)
  | writeOutput => some (.write, .output)
  | writeFlag => some (.write, .flag)
  | setOutput => some (.set, .output)
  | setTimer => some (.set, .monoflop)
  | setFlag => some (.set, .flag)
  | resetOutput => some (.reset, .output)
  | resetTimer => some (.reset, .monoflop)
  | resetFlag => some (.reset, .flag)
  | and | or | not => none

/-- By how much an instruction changes the depth of the stack. -/
def stackEffect (i : Instruction) : Int :=
  match i.access? with
  | some (.read, _) => 1
  | some _ => -1
  | none => if i = not then 0 else -1

theorem ofAccess?_eq_some_iff {a : Access} {c : Category} {i : Instruction} :
    ofAccess? a c = some i ↔ i.access? = some (a, c) := by
  constructor
  · intro h
    cases a <;> cases c <;> simp only [ofAccess?, Option.some.injEq, reduceCtorEq] at h <;>
      subst h <;> rfl
  · intro h
    cases i <;> simp only [access?, Option.some.injEq, Prod.mk.injEq, reduceCtorEq] at h <;>
      obtain ⟨rfl, rfl⟩ := h <;> rfl

theorem ofAccess?_read_isSome (c : Category) : (ofAccess? .read c).isSome := by cases c <;> rfl

end Instruction

/-- An instruction with the index of the cell it accesses. Logical instructions ignore theirs. -/
structure Operation where
  instruction : Instruction
  argument : Nat
deriving DecidableEq, Repr

namespace Operation

def logic (i : Instruction) : Operation := ⟨i, 0⟩

def nameWidth : Nat := 12

/-- A line of a listing of operations. Only an access shows its index. -/
def render (op : Operation) : String :=
  match op.instruction.access? with
  | some _ => padRight nameWidth op.instruction.name ++ " " ++ op.argument.repr
  | none => op.instruction.name

end Operation

end RelayLogic
