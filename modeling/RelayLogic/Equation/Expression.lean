import RelayLogic.Symbol.Variable
import RelayLogic.Token

/-! Equations as trees. An expression joins terms by one operator; a term is a variable or an
expression of its own, inverted or not. -/
namespace RelayLogic

/-- What joins the terms of an expression. A lone term needs no operator, and a timer marks its
only term as seen through a monoflop. -/
inductive Operator where
  | none
  | or
  | and
  | timer
deriving DecidableEq, Repr

def Operator.strength : Operator → Nat
  | none => 0
  | or => 1
  | and => 2
  | timer => 3

/-- Terms under one operator. The owner is the variable whose equation the group is, or was
before it was inlined; the assignment says how that equation changes its variable. -/
structure Group (τ : Type) where
  id : Nat
  operator : Operator
  terms : List τ
  owner : Option Variable
  assignment : Assignment

/-- An operand, inverted or not. Only hand-made trees have empty terms. -/
inductive Term where
  | empty (inverted : Bool)
  | leaf (inverted : Bool) (v : Variable)
  | group (inverted : Bool) (g : Group Term)

abbrev Expression := Group Term

namespace Term

def inverted : Term → Bool
  | empty inverted => inverted
  | leaf inverted _ => inverted
  | group inverted _ => inverted

/-- Inverts a term once more. Two inversions cancel. -/
def invert : Term → Term
  | empty inverted => empty (!inverted)
  | leaf inverted v => leaf (!inverted) v
  | group inverted g => group (!inverted) g

def isLeaf : Term → Bool
  | leaf _ _ => true
  | _ => false

@[simp] theorem invert_invert (t : Term) : t.invert.invert = t := by
  cases t <;> simp [invert]

end Term

namespace Group

def anonymous (id : Nat) (operator : Operator) (terms : List Term) : Expression :=
  ⟨id, operator, terms, none, .assign⟩

def add (e : Expression) (t : Term) : Expression := { e with terms := e.terms ++ [t] }

/-- An expression has content if it is one term without operator, or at least one with. -/
def isEmpty (e : Expression) : Bool :=
  match e.operator with
  | .none => e.terms.length != 1
  | _ => e.terms.isEmpty

/-- A simple expression has only variables for terms. -/
def isSimple (e : Expression) : Bool := e.terms.all Term.isLeaf

/-- A root that only wraps one expression, not inverted, takes that expression's operator and
terms. It keeps its own identity, owner and assignment. -/
def pullUp (e : Expression) : Expression :=
  match e.operator, e.terms with
  | .none, [.group false g] => { e with operator := g.operator, terms := g.terms }
  | _, _ => e

end Group

mutual

def Group.levels (e : Expression) : Nat :=
  match e with
  | ⟨_, _, terms, _, _⟩ => 1 + Term.levelsOfList terms
termination_by structural e

def Term.levels (t : Term) : Nat :=
  match t with
  | .group _ g => g.levels
  | _ => 0
termination_by structural t

def Term.levelsOfList (ts : List Term) : Nat :=
  match ts with
  | [] => 0
  | t :: rest => max t.levels (Term.levelsOfList rest)
termination_by structural ts

end

mutual

/-- The variables at the leaves, from left to right, once for each occurrence. -/
def Group.leaves (e : Expression) : List Variable :=
  match e with
  | ⟨_, _, terms, _, _⟩ => Term.leavesOfList terms
termination_by structural e

def Term.leaves (t : Term) : List Variable :=
  match t with
  | .empty _ => []
  | .leaf _ v => [v]
  | .group _ g => g.leaves
termination_by structural t

def Term.leavesOfList (ts : List Term) : List Variable :=
  match ts with
  | [] => []
  | t :: rest => t.leaves ++ Term.leavesOfList rest
termination_by structural ts

end

theorem Group.leaves_eq (e : Expression) : e.leaves = Term.leavesOfList e.terms := by
  rcases e with ⟨id, operator, terms, owner, assignment⟩
  rfl

def Operator.separator : Operator → String
  | and => " & "
  | or => " | "
  | none | timer => ", "

/-- Whether an expression is written in parentheses: any below the root that joins several
terms, and every timer. -/
def Group.isBracketed (root : Bool) (e : Expression) : Bool :=
  (!root && e.terms.length > 1) || e.operator = .timer

/-- Whether an inverted expression needs parentheses that it does not bring along. -/
def Group.needsBrackets (e : Expression) : Bool :=
  e.terms.length ≤ 1 && e.operator != .timer

def bracketIf (bracketed : Bool) (text : String) : String :=
  if bracketed then "(" ++ text ++ ")" else text

mutual

/-- The text of an expression. The root is written without parentheses. -/
def Group.render (root : Bool) (e : Expression) : String :=
  match e with
  | ⟨id, operator, terms, owner, assignment⟩ =>
    (if operator = .timer then "timer" else "") ++
      bracketIf (Group.isBracketed root ⟨id, operator, terms, owner, assignment⟩)
        (operator.separator.intercalate (Term.renderList terms))
termination_by structural e

def Term.render (t : Term) : String :=
  match t with
  | .empty inverted => (if inverted then "!" else "") ++ "<empty>"
  | .leaf inverted v => (if inverted then "!" else "") ++ v.name
  | .group inverted g =>
    (if inverted then "!" else "") ++ bracketIf (inverted && g.needsBrackets) (g.render false)
termination_by structural t

def Term.renderList (ts : List Term) : List String :=
  match ts with
  | [] => []
  | t :: rest => t.render :: Term.renderList rest
termination_by structural ts

end

end RelayLogic
