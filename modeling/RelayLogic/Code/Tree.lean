import RelayLogic.Code.Emission
import RelayLogic.Equation.Dependency

/-! The operations of equations. A tree is walked from left to right, each term before the
operation that joins it to those before, and an equation ends by storing its value. -/
namespace RelayLogic

/-- The operation that joins two terms. Only a lone term has none. -/
def Operator.joint? : Operator → Option Instruction
  | none | timer => Option.none
  | or => some .or
  | and => some .and

/-- Whether an expression has as many terms as its operator can join. -/
def Operator.fits (operator : Operator) (terms : Nat) : Bool :=
  match operator.joint? with
  | some _ => terms ≠ 0
  | Option.none => terms = 1

mutual

/-- The operations that leave the value of an expression on the stack, if it has no more than
so many levels. -/
def Group.emit (e : Expression) : Nat → Emission :=
  match e with
  | ⟨id, operator, terms, _, _⟩ => fun
    | 0 => .fail .nestingTooDeep
    | levels + 1 =>
      if operator.fits terms.length then
        Term.emitList terms id Option.none operator.joint? levels
      else .fail (.malformed id)
termination_by structural e

/-- The operations of a term of the expression with the given number. -/
def Term.emit (t : Term) : Nat → Nat → Emission :=
  match t with
  | .empty _ => fun id _ => .fail (.emptyTerm id)
  | .leaf inverted v => fun _ _ =>
    (Emission.access .read v).andThen (.logicIf inverted .not)
  | .group inverted g => fun _ levels => (g.emit levels).andThen (.logicIf inverted .not)
termination_by structural t

/-- The operations of terms. The first is followed by one joint and each later one by another. -/
def Term.emitList (ts : List Term) :
    Nat → Option Instruction → Option Instruction → Nat → Emission :=
  match ts with
  | [] => fun _ _ _ _ => .done
  | t :: rest => fun id joint later levels =>
    (t.emit id levels).andThen <|
      (match joint with
        | some i => Emission.one (.logic i)
        | Option.none => Emission.done).andThen <|
      Term.emitList rest id later later levels
termination_by structural ts

end

def Group.code (e : Expression) : Emission := e.emit maxLevels

/-- The access that stores the value of an equation. -/
def Assignment.access : Assignment → Access
  | assign => .write
  | set => .set
  | reset => .reset

/-- The operations that evaluate an equation and store its value in its variable. -/
def Group.codeFor (e : Expression) (target : Variable) : Emission :=
  e.code.andThen (.access e.assignment.access target)

def Program.codeOf (p : Program) (v : Variable) : Emission :=
  match p.equation? v with
  | some e => e.codeFor v
  | none => .fail (.semantic (.missingEquation v.name))

def Program.code (p : Program) : Except CodeError (List Operation) :=
  (Emission.concat (p.inOrder.map fun equation => equation.2.codeFor equation.1)).toExcept

end RelayLogic
