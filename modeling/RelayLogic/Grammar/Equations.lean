import RelayLogic.Equation.Program
import RelayLogic.Grammar.Declarations

/-! The language of equations. Terms are joined by `|` and by `&`, which binds more strongly, and
terms joined by the same operator make up one group, however many they are. -/
namespace RelayLogic

/-- How deep parentheses and inversions may be nested. -/
def maxNesting : Nat := 64

/-- An expression while its terms are read: all of it that is settled, the stronger group at its
end that may still go on, and the last expression number given out. Both hold their terms
backwards. -/
structure Draft where
  root : Expression
  tight : Option Expression
  lastId : Nat

namespace Draft

def start (lastId : Nat) : Draft := ⟨.anonymous (lastId + 1) .none [], none, lastId + 1⟩

def put (e : Expression) (t : Term) : Expression := { e with terms := t :: e.terms }

/-- The expression whose terms were put down backwards. -/
def settled (e : Expression) : Expression := { e with terms := e.terms.reverse }

def close (d : Draft) (t : Term) : Expression :=
  match d.tight with
  | none => settled (put d.root t)
  | some g => settled (put d.root (.group false (settled (put g t))))

/-- Takes a term that is followed by an operator. The same operator goes on with the group, a
stronger one opens a group for the term at the end, and a weaker one makes all that was read so
far the first term of a new root. -/
def extend (d : Draft) (t : Term) (operator : Operator) : Draft :=
  match d.tight with
  | some g =>
    if operator = g.operator then { d with tight := some (put g t) }
    else { d with root := put d.root (.group false (settled (put g t))), tight := none }
  | none =>
    if d.root.isEmpty || d.root.operator = operator then
      { d with root := { put d.root t with operator } }
    else if d.root.operator.strength < operator.strength then
      { d with tight := some (.anonymous (d.lastId + 1) operator [t]), lastId := d.lastId + 1 }
    else
      { d with
        root := .anonymous (d.lastId + 1) operator [.group false (settled (put d.root t))]
        lastId := d.lastId + 1 }

end Draft

/-- The operator after a term, or nothing where the expression ends. A semicolon or closing
parenthesis is left unread. -/
def readOperator (ending : Ending) :
    (ts : Tokens) → Except (Located ParseError) (Option (Read Operator ts))
  | [] => .error (ending.missing .operatorOrEnd)
  | t :: rest =>
    match t.value with
    | .char ';' | .char ')' => .ok none
    | .char '&' => .ok (some ⟨.and, rest, length_lt_cons t rest⟩)
    | .char '|' => .ok (some ⟨.or, rest, length_lt_cons t rest⟩)
    | .char c => .error (t.map fun _ => .undefinedOperator c)
    | _ => .error (t.unexpected .operator)

/-- The terms of an expression, each read by `term`, up to its end. A reader of terms is given
the last expression number and gives it back. -/
def readTerms (ending : Ending) (term : Nat → (ts : Tokens) → Reading (Term × Nat) ts) (d : Draft)
    (ts : Tokens) : Reading (Expression × Nat) ts := do
  let t ← term d.lastId ts
  let (operand, lastId) := t.value
  let d := { d with lastId }
  match ← readOperator ending t.rest with
  | none => return t.map fun _ => (d.close operand, lastId)
  | some operator =>
    let more ← readTerms ending term (d.extend operand operator.value) operator.rest
    return (t.after operator).after more
termination_by ts.length
decreasing_by exact Nat.lt_trans operator.shorter t.shorter

/-- A term that may be nested so many times: a variable, an inverted term, or an expression in
parentheses. -/
def readTerm (ending : Ending) (symbols : SymbolTable) :
    Nat → Nat → (ts : Tokens) → Reading (Term × Nat) ts :=
  fun nesting lastId ts => do
    let t ← readToken ending .operand ts
    match t.value.value with
    | .ident name =>
      match symbols.lookup name with
      | .error e => throw (e.located t.value.span)
      | .ok v => return t.map fun _ => (.leaf false v, lastId)
    | .char '!' =>
      match nesting with
      | 0 => throw (t.value.map fun _ => .nestingTooDeep)
      | nesting + 1 =>
        let operand ← readTerm ending symbols nesting lastId t.rest
        return t.after (operand.map fun (term, lastId) => (term.invert, lastId))
    | .char '(' =>
      match nesting with
      | 0 => throw (t.value.map fun _ => .nestingTooDeep)
      | nesting + 1 =>
        let e ← readTerms ending (readTerm ending symbols nesting) (.start lastId) t.rest
        let close ← readChar ending ')' .groupEnd e.rest
        return (t.after e).after (close.map fun _ => (.group false e.value.1, e.value.2))
    | _ => throw (t.value.unexpected .operand)

/-- An expression in which so many parentheses and inversions may be nested. -/
def readExpression (ending : Ending) (symbols : SymbolTable) (nesting lastId : Nat) (ts : Tokens) :
    Reading (Expression × Nat) ts :=
  readTerms ending (readTerm ending symbols nesting) (.start lastId) ts

def readEquation (ending : Ending) (p : Program) (name : Located String) (ts : Tokens) :
    Reading Program ts := do
  match p.symbols.lookup name.value with
  | .error e => throw (e.located name.span)
  | .ok v =>
    let sign ← readToken ending .assignment ts
    match sign.value.value with
    | .assignment assignment =>
      let e ← readExpression ending p.symbols maxNesting p.lastId sign.rest
      let close ← readChar ending ';' .equationEnd e.rest
      match { p with lastId := e.value.2 }.addEquation v { e.value.1 with assignment } with
      | .error e => throw (e.located name.span)
      | .ok p => return (sign.after e).after (close.map fun _ => p)
    | _ => throw (sign.value.unexpected .assignmentAfterName)

def readProgram (ending : Ending) (p : Program) (ts : Tokens) :
    Except (Located ParseError) Program := do
  match ← readHeading ending p.symbols ts with
  | .finished symbols => return { p with symbols }
  | .statement symbols name =>
    let more ← readEquation ending { p with symbols } name.value name.rest
    readProgram ending more.value more.rest
termination_by ts.length
decreasing_by exact Nat.lt_trans more.shorter name.shorter

def Tape.program (t : Tape) : Except (Located ParseError) Program :=
  readProgram t.ending .empty t.tokens

def Source.program (s : Source) : Except (Located ParseError) Program := s.tape.program

end RelayLogic
