import RelayLogic.Equation.Program

/-! Dependencies between equations. Resolving a signal gives a copy of its equation in which each
variable that has an equation of its own is replaced by a copy of that, and so on. A signal that
was visited before is left as it stands, so no equation is copied twice. -/
namespace RelayLogic

/-- Levels that a tree may have before walking it is refused. -/
def maxLevels : Nat := 256

/-- The names visited, once for each visit, and the last expression number given out. Both
outlast a resolution that fails. -/
structure Ledger where
  visits : List String
  lastId : Nat

/-- Whether counters of 32 bits hold a ledger: one for each name, and one for the numbers. -/
structure Ledger.Fits (l : Ledger) : Prop where
  visits : ∀ name, l.visits.count name < counterLimit
  lastId : l.lastId < counterLimit

/-- A step of a resolution, which leaves a ledger behind whether it fails or not. -/
def Resolution (α : Type) := Ledger → Except SemanticError α × Ledger

namespace Resolution

variable {α β : Type}

instance : Monad Resolution where
  pure a := fun l => (.ok a, l)
  bind x f := fun l =>
    match x l with
    | (.ok a, l) => f a l
    | (.error e, l) => (.error e, l)

def fail (e : SemanticError) : Resolution α := fun l => (.error e, l)

/-- Visits a name and counts its visits, this one included. -/
def visit (name : String) : Resolution Nat := fun l =>
  let visits := name :: l.visits
  (.ok (visits.count name), { l with visits })

def nextId : Resolution Nat := fun l =>
  (.ok (l.lastId + 1), { l with lastId := l.lastId + 1 })

theorem pure_apply (a : α) (l : Ledger) : (pure a : Resolution α) l = (.ok a, l) := rfl

theorem bind_apply (x : Resolution α) (f : α → Resolution β) (l : Ledger) :
    (x >>= f) l =
      match x l with
      | (.ok a, l) => f a l
      | (.error e, l) => (.error e, l) := rfl

end Resolution

/-- The copy of a variable's equation that takes the variable's place, before its own variables
are replaced. A lone term loses its operator. What stands behind a monoflop is marked by a
timer, which holds a lone term itself and any other equation as a whole. -/
def Program.copyFor (v : Variable) (equation : Expression) : Resolution Expression :=
  match equation.terms with
  | [t] =>
    return ⟨equation.id, if v.category = .monoflop then .timer else .none, [t], some v, .assign⟩
  | terms =>
    let copy : Expression := ⟨equation.id, equation.operator, terms, some v, .assign⟩
    if v.category = .monoflop then do
      let id ← Resolution.nextId
      return ⟨id, .timer, [.group false copy], some v, .assign⟩
    else return copy

/-- Replaces the variable of a term. `path` holds the variables whose equations are open, and
`expand` does the same for the terms of an expression one level further down. -/
def Program.expandTerm (p : Program)
    (expand : List Variable → Expression → Resolution Expression) (path : List Variable) :
    Term → Resolution Term
  | .empty inverted => return .empty inverted
  | .group inverted g => return .group inverted (← expand path g)
  | .leaf inverted v =>
    match p.equation? v with
    | none => return .leaf inverted v
    | some equation =>
      if v ∈ path then Resolution.fail (.cyclicDependency v.name)
      else do
        let visits ← Resolution.visit v.name
        if visits > 1 then return .leaf inverted v
        else
          let copy ← Program.copyFor v equation
          return .group inverted (← expand (v :: path) copy)

/-- Replaces the variables of terms from left to right. -/
def Program.expandTerms (p : Program)
    (expand : List Variable → Expression → Resolution Expression) (path : List Variable) :
    List Term → Resolution (List Term)
  | [] => return []
  | t :: rest => do
    let t ← p.expandTerm expand path t
    let rest ← p.expandTerms expand path rest
    return t :: rest

def Program.expand (p : Program) (root : Variable) :
    Nat → List Variable → Expression → Resolution Expression
  | 0, _, _ => Resolution.fail (.nestingTooDeep root.name)
  | levels + 1, path, e => do
    let terms ← p.expandTerms (p.expand root levels) path e.terms
    return { e with terms }

/-- The resolved equation of a name. -/
def Program.resolve (p : Program) (name : String) : Resolution Expression :=
  match p.symbols.lookup name with
  | .error e => Resolution.fail e
  | .ok v =>
    match p.equation? v with
    | none => Resolution.fail (.missingEquation v.name)
    | some equation => do
      let resolved ← p.expand v maxLevels [v] equation
      return resolved.pullUp

/-- Resolves names in order with one account of visits. The first failure ends it. -/
def Program.resolveEach (p : Program) : List String → Resolution (List Expression)
  | [] => return []
  | name :: rest => do
    let e ← p.resolve name
    let rest ← p.resolveEach rest
    return e :: rest

def Program.resolveAll (p : Program) : Resolution (List Expression) :=
  p.resolveEach (p.inOrder.map fun equation => equation.1.name)

/-- A ledger without visits, which goes on numbering where the program stopped. -/
def Program.ledger (p : Program) : Ledger := ⟨[], p.lastId⟩

end RelayLogic
