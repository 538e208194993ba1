import RelayLogic.Code.Tree
import RelayLogic.Machine.Run

/-! Truth tables. The signal is resolved, and its value is worked out by the machine for every
combination of the variables left at the leaves of its tree. -/
namespace RelayLogic

/-- Why a table cannot be printed, or not to its end. -/
inductive TableError where
  | semantic (e : SemanticError)
  | code (e : CodeError)
  | tooManyInputs (name : String) (inputs : Nat)
  | fault (f : Fault)
deriving DecidableEq, Repr

def maxInputs : Nat := 16

def TableError.message : TableError → String
  | semantic e => e.message
  | code e => e.message
  | tooManyInputs name inputs =>
    "Signal `" ++ name ++ "` depends on " ++ inputs.repr ++ " inputs, at most " ++
      maxInputs.repr ++ " are supported"
  | fault f => f.message

/-- The capacity of the stack on which the rows are worked out. -/
def tableCapacity : Nat := 256

def bitText (b : Bool) : String := if b then "1" else "0"

/-- A memory with a cell for each variable of a table. -/
def SymbolTable.memory (t : SymbolTable) : Memory :=
  .fresh (t.cellCount .input) (t.cellCount .output) (t.cellCount .flag) (t.cellCount .monoflop)

/-- Gives variables their values, in order. -/
def Memory.assign (m : Memory) : List (Variable × Bool) → Except Fault Unit × Memory
  | [] => (.ok (), m)
  | (v, value) :: rest =>
    match m.write v.category v.index value with
    | .error fault => (.error fault, m)
    | .ok m => assign m rest

/-- The bits of a row number over so many columns, the leftmost weighing most. -/
def rowBits (columns row : Nat) : List Bool :=
  ((List.range columns).map row.testBit).reverse

/-- What a table prints, and the error that ends it, if any. -/
structure Table where
  lines : List String
  failure : Option TableError

namespace Table

def fail (e : TableError) : Table := ⟨[], some e⟩

def cons (line : String) (t : Table) : Table := { t with lines := line :: t.lines }

def rowLine (leaves : List Variable) (bits : List Bool) (result : Bool) : String :=
  " ".intercalate (List.zipWith (fun v bit => padLeft v.name.length (bitText bit)) leaves bits) ++
    " | " ++ bitText result

/-- The rows of a table. One memory serves them all and is reset before each. -/
def rows (leaves : List Variable) (ops : List Operation) (m : Memory) : List Nat → Table
  | [] => ⟨[], none⟩
  | row :: rest =>
    let bits := rowBits leaves.length row
    match m.reset.assign (leaves.zip bits) with
    | (.error fault, _) => fail (.fault fault)
    | (.ok (), m) =>
      match m.execute tableCapacity ops with
      | (.error fault, _) => fail (.fault fault)
      | (.ok result, m) => cons (rowLine leaves bits result) (rows leaves ops m rest)

def ofCode (symbols : SymbolTable) (name : String) (leaves : List Variable)
    (ops : List Operation) : Table :=
  if leaves.length > maxInputs then fail (.tooManyInputs name leaves.length)
  else
    cons (" ".intercalate (leaves.map Variable.name) ++ " | " ++ name)
      (rows leaves ops symbols.memory (List.range (1 <<< leaves.length)))

end Table

def Program.truthTable (p : Program) (name : String) : Table :=
  match p.resolve name p.ledger with
  | (.error e, _) => .fail (.semantic e)
  | (.ok tree, _) =>
    match tree.code.toExcept with
    | .error e => .fail (.code e)
    | .ok ops => .ofCode p.symbols name ((p.symbols.countLeaves tree).map Prod.fst) ops

end RelayLogic
