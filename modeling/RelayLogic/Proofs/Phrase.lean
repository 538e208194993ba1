import RelayLogic.Proofs.Reading

/-! Expressions as they are written. A phrase is a chain of operands with a sign between any two,
and has no shape but that. Its tree is found by cutting it at every `|` and joining what stands
between two cuts by `&`. -/
namespace RelayLogic

inductive Joiner where
  | and
  | or
deriving DecidableEq, Repr

namespace Joiner

def token : Joiner → Token
  | and => .char '&'
  | or => .char '|'

def operator : Joiner → Operator
  | and => .and
  | or => .or

end Joiner

mutual

/-- An operand as it is written: a name, an operand with `!` before it, or a phrase in
parentheses. -/
inductive Operand where
  | name (v : Variable)
  | inverted (o : Operand)
  | enclosed (p : Phrase)

/-- Operands with signs between them. -/
inductive Phrase where
  | last (o : Operand)
  | join (o : Operand) (sign : Joiner) (rest : Phrase)

end

mutual

def Operand.words (o : Operand) : List Token :=
  match o with
  | .name v => [.ident v.name]
  | .inverted o => .char '!' :: o.words
  | .enclosed p => .char '(' :: (p.words ++ [.char ')'])
termination_by structural o

def Phrase.words (p : Phrase) : List Token :=
  match p with
  | .last o => o.words
  | .join o sign rest => o.words ++ sign.token :: rest.words
termination_by structural p

end

mutual

/-- Whether the names of an operand are declared, and each `!` and `(` of it stands inside fewer
than `maxNesting` of them. `depth` of them enclose the operand. -/
def Operand.Fits (symbols : SymbolTable) (o : Operand) : Nat → Prop :=
  match o with
  | .name v => fun _ => symbols.find? v.name = some v
  | .inverted o => fun depth => depth < maxNesting ∧ o.Fits symbols (depth + 1)
  | .enclosed p => fun depth => depth < maxNesting ∧ p.Fits symbols (depth + 1)
termination_by structural o

def Phrase.Fits (symbols : SymbolTable) (p : Phrase) : Nat → Prop :=
  match p with
  | .last o => fun depth => o.Fits symbols depth
  | .join o _ rest => fun depth => o.Fits symbols depth ∧ rest.Fits symbols depth
termination_by structural p

end

def Term.ofSegment : List Term → Term
  | [t] => t
  | ts => .group false (.anonymous 0 .and ts)

/-- The tree of terms cut into segments. Without a cut it is one group of the terms. -/
def Group.ofSegments : List (List Term) → Expression
  | [[t]] => .anonymous 0 .none [t]
  | [ts] => .anonymous 0 .and ts
  | segments => .anonymous 0 .or (segments.map Term.ofSegment)

def extendFirst (ts : List Term) : List (List Term) → List (List Term)
  | [] => [ts]
  | segment :: more => (ts ++ segment) :: more

mutual

/-- The term of an operand. All its expressions have number zero. -/
def Operand.term (o : Operand) : Term :=
  match o with
  | .name v => .leaf false v
  | .inverted o => o.term.invert
  | .enclosed p => .group false (.ofSegments p.segments)
termination_by structural o

/-- The terms of a phrase, cut at every `|`. -/
def Phrase.segments (p : Phrase) : List (List Term) :=
  match p with
  | .last o => [[o.term]]
  | .join o .and rest => extendFirst [o.term] rest.segments
  | .join o .or rest => [o.term] :: rest.segments
termination_by structural p

end

def Phrase.tree (p : Phrase) : Expression := .ofSegments p.segments

mutual

def Group.unnumbered (e : Expression) : Expression :=
  match e with
  | ⟨_, operator, terms, owner, assignment⟩ =>
    ⟨0, operator, Term.unnumberedList terms, owner, assignment⟩
termination_by structural e

def Term.unnumbered (t : Term) : Term :=
  match t with
  | .empty inverted => .empty inverted
  | .leaf inverted v => .leaf inverted v
  | .group inverted g => .group inverted g.unnumbered
termination_by structural t

def Term.unnumberedList (ts : List Term) : List Term :=
  match ts with
  | [] => []
  | t :: rest => t.unnumbered :: Term.unnumberedList rest
termination_by structural ts

end

/-- Whether an expression ends here: before a semicolon or a closing parenthesis. -/
def EndsExpression (ts : Tokens) : Prop :=
  ∃ t rest, ts = t :: rest ∧ (t.value = .char ';' ∨ t.value = .char ')')

end RelayLogic
