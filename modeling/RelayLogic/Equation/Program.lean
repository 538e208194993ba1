import RelayLogic.Equation.Expression
import RelayLogic.Symbol.Table

/-! Programs of equations. Each variable has at most one equation, and the equations are taken
in the order in which their variables are declared. -/
namespace RelayLogic

/-- Where a counter of 32 bits is full. The numbers of expressions and the counts of visits have no
bound of their own: such counters agree with them up to here, and not beyond. -/
def counterLimit : Nat := 4294967296

/-- The variables, the equations with the variables they define, and the number of the last
expression that was given out. -/
structure Program where
  symbols : SymbolTable
  equations : List (Variable × Expression)
  lastId : Nat

namespace Program

def empty : Program := ⟨.empty, [], 0⟩

/-- Gives out the next expression number. Numbers start at one and are not used again. -/
def nextId (p : Program) : Nat × Program := (p.lastId + 1, { p with lastId := p.lastId + 1 })

def equation? (p : Program) (v : Variable) : Option Expression :=
  (p.equations.find? (·.1 = v)).map Prod.snd

/-- Gives a variable its equation, unless it has one. The variable owns the expression. -/
def addEquation (p : Program) (v : Variable) (e : Expression) : Except SemanticError Program :=
  match p.equation? v with
  | some _ => .error (.duplicateEquation v.name)
  | none => .ok { p with equations := p.equations ++ [(v, { e with owner := some v })] }

/-- The equation of a name that has to be declared and defined. -/
def equationOf (p : Program) (name : String) : Except SemanticError Expression := do
  let v ← p.symbols.lookup name
  match p.equation? v with
  | some e => return e
  | none => throw (.missingEquation name)

/-- The equations in the order in which their variables are declared. -/
def inOrder (p : Program) : List (Variable × Expression) :=
  p.symbols.declared.filterMap fun v => (p.equation? v).map (v, ·)

/-- Every variable of a program is one of its table: those that are defined, and those at the
leaves of their equations. -/
structure Closed (p : Program) : Prop where
  defined : ∀ entry ∈ p.equations, entry.1 ∈ p.symbols.declared
  mentioned : ∀ entry ∈ p.equations, ∀ v ∈ entry.2.leaves, v ∈ p.symbols.declared

theorem mem_of_equation? {p : Program} {v : Variable} {e : Expression}
    (h : p.equation? v = some e) : (v, e) ∈ p.equations := by
  obtain ⟨entry, found, rfl⟩ := Option.map_eq_some_iff.1 h
  obtain rfl : entry.1 = v := by simpa using List.find?_some found
  exact List.mem_of_find?_eq_some found

theorem equation?_eq_none_iff {p : Program} {v : Variable} :
    p.equation? v = none ↔ ∀ entry ∈ p.equations, entry.1 ≠ v := by
  simp [equation?]

theorem mem_inOrder {p : Program} {equation : Variable × Expression} :
    equation ∈ p.inOrder ↔
      equation.1 ∈ p.symbols.declared ∧ p.equation? equation.1 = some equation.2 := by
  rw [inOrder, List.mem_filterMap]
  constructor
  · intro ⟨v, declared, found⟩
    obtain ⟨e, defined, rfl⟩ := Option.map_eq_some_iff.1 found
    exact ⟨declared, defined⟩
  · intro ⟨declared, found⟩
    exact ⟨equation.1, declared, by rw [found]; rfl⟩

end Program

/-- How often each variable stands at a leaf of a tree, in order of declaration. To count the leaves
one by one and sort the variables afterwards gives the same if all of them are declared. -/
def SymbolTable.countLeaves (t : SymbolTable) (e : Expression) : List (Variable × Nat) :=
  let leaves := e.leaves
  (t.declared.filter (· ∈ leaves)).map fun v => (v, leaves.count v)

end RelayLogic
