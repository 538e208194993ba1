import RelayLogic.Proofs.ListingCode

/-! Trees written as listings. The variables of a tree become lines, each joined to those before by
the operator of its group. What stands in a group of its own is worked out apart, and then joined by
a line without argument. Such a listing has the code of the tree. -/
namespace RelayLogic

/-- The mnemonic of a variable that is joined to the terms before it, or merely read. -/
def Operator.mnemonic : Operator → Mnemonic
  | none | timer => .read
  | or => .or
  | and => .and

/-- The lines that join a group to the terms before it, if there are any. -/
def Operator.joinLines : Operator → List Line
  | none | timer => []
  | or => [⟨.or, Option.none, false⟩]
  | and => [⟨.and, Option.none, false⟩]

mutual

/-- The lines that work out an expression. -/
def Group.lines (e : Expression) : List Line :=
  match e with
  | ⟨_, operator, terms, _, _⟩ => Term.linesOfList terms .none operator
termination_by structural e

/-- The lines of a term that is joined to those before by an operator, where `none` stands for the
first term. -/
def Term.lines (t : Term) : Operator → List Line :=
  match t with
  | .empty _ => fun _ => []
  | .leaf inverted v => fun joint => [⟨joint.mnemonic, some v, inverted⟩]
  | .group inverted g => fun joint =>
    g.lines ++ ((if inverted then [⟨.not, none, false⟩] else []) ++ joint.joinLines)
termination_by structural t

/-- The lines of terms. The first is joined by one operator and each later one by another. -/
def Term.linesOfList (ts : List Term) : Operator → Operator → List Line :=
  match ts with
  | [] => fun _ _ => []
  | t :: rest => fun joint later => t.lines joint ++ Term.linesOfList rest later later
termination_by structural ts

end

/-- The lines that work out an equation and store its value. -/
def Group.linesFor (e : Expression) (target : Variable) : List Line :=
  e.lines ++ [⟨e.assignment.mnemonic, some target, false⟩]

/-- The operation that joins a term to those before, if there are any. -/
def Operator.joinCode (operator : Operator) : Emission :=
  match operator.joint? with
  | some i => .one (.logic i)
  | Option.none => .done

section

open Emission

theorem Operator.concat_joinLines (operator : Operator) :
    concat (operator.joinLines.map Line.code) = operator.joinCode := by
  cases operator with
  | none | timer => rfl
  | or | and => exact andThen_done _

theorem Operator.code_leaf (operator : Operator) (v : Variable) (inverted : Bool) :
    (⟨operator.mnemonic, some v, inverted⟩ : Line).code =
      ((access .read v).andThen (logicIf inverted .not)).andThen operator.joinCode := by
  cases operator <;> rfl

theorem concat_inversion (inverted : Bool) :
    concat ((if inverted then [(⟨.not, none, false⟩ : Line)] else []).map Line.code) =
      logicIf inverted .not := by
  cases inverted with
  | true => exact andThen_done _
  | false => rfl

mutual

/-- The listing of a tree has the code of the tree. -/
theorem Group.concat_lines (e : Expression) {levels : Nat}
    (clean : (e.emit levels).failure = none) :
    concat (e.lines.map Line.code) = e.emit levels := by
  obtain ⟨inner, rfl, -, walked⟩ := Group.emit_eq clean
  rw [walked] at clean ⊢
  exact match e with
  | ⟨_, operator, terms, _, _⟩ => Term.concat_linesOfList terms .none operator clean
termination_by structural e

theorem Term.concat_lines (t : Term) (joint : Operator) {id levels : Nat}
    (clean : (t.emit id levels).failure = none) :
    concat ((t.lines joint).map Line.code) = (t.emit id levels).andThen joint.joinCode :=
  match t with
  | .empty _ => by simp [Term.emit, fail] at clean
  | .leaf inverted v => by
    rw [Term.lines, List.map_singleton, concat, concat, andThen_done, Operator.code_leaf, Term.emit]
  | .group inverted g => by
    have inner := g.concat_lines (failure_andThen.1 clean).1
    simp only [Term.lines, List.map_append, concat_append, Operator.concat_joinLines,
      concat_inversion, Term.emit, inner, andThen_assoc]
termination_by structural t

theorem Term.concat_linesOfList (ts : List Term) (joint later : Operator) {id levels : Nat}
    (clean : (Term.emitList ts id joint.joint? later.joint? levels).failure = none) :
    concat ((Term.linesOfList ts joint later).map Line.code) =
      Term.emitList ts id joint.joint? later.joint? levels :=
  match ts with
  | [] => rfl
  | t :: rest => by
    obtain ⟨first, others⟩ := failure_andThen.1 clean
    have top := t.concat_lines joint first
    have below := Term.concat_linesOfList rest later later (failure_andThen.1 others).2
    rw [Term.linesOfList, List.map_append, concat_append, top, below, andThen_assoc]
    rfl
termination_by structural ts

end

theorem Assignment.code_store (a : Assignment) (v : Variable) :
    (⟨a.mnemonic, some v, false⟩ : Line).code = Emission.access a.access v := by
  cases a <;> exact (andThen_done _).trans (done_andThen _)

theorem Group.concat_linesFor (e : Expression) {v : Variable}
    (clean : (e.codeFor v).failure = none) :
    concat ((e.linesFor v).map Line.code) = e.codeFor v := by
  rw [Group.linesFor, List.map_append, concat_append, List.map_singleton, concat, concat,
    andThen_done, Assignment.code_store, e.concat_lines (failure_andThen.1 clean).1]
  rfl

theorem concat_flatMap_linesFor {equations : List (Variable × Expression)}
    (clean : (concat
      (equations.map fun equation => equation.2.codeFor equation.1)).failure = none) :
    concat ((equations.flatMap fun equation => equation.2.linesFor equation.1).map Line.code) =
      concat (equations.map fun equation => equation.2.codeFor equation.1) := by
  induction equations with
  | nil => rfl
  | cons equation rest ih =>
      obtain ⟨first, later⟩ := failure_andThen.1 clean
      rw [List.flatMap_cons, List.map_append, concat_append, equation.2.concat_linesFor first,
        ih later]
      rfl

/-- All equations of a program, written as one listing, have the code of the program. -/
theorem Program.code_listing {p : Program} {ops : List Operation} (compiled : p.code = .ok ops) :
    (⟨p.symbols, p.inOrder.flatMap fun equation => equation.2.linesFor equation.1⟩ :
      Listing).code = .ok ops := by
  rw [Listing.code, concat_flatMap_linesFor (toExcept_eq_ok.1 compiled).1]
  exact compiled

end

/-- The two languages have the same code: as the equation of any variable that it can be stored in,
a tree gives just the operations of its listing with the line that stores the value. -/
theorem Group.code_of_lines {e : Expression} {ops : List Operation}
    (compiled : e.code.toExcept = .ok ops) {p : Program} {v : Variable} {owner : Option Variable}
    {a : Assignment} (defined : p.equation? v = some { e with owner := owner, assignment := a })
    {i : Instruction} (stores : i.access? = some (a.access, v.category)) :
    (⟨p.symbols, e.lines ++ [⟨a.mnemonic, some v, false⟩]⟩ : Listing).code =
        (p.codeOf v).toExcept ∧
      (p.codeOf v).toExcept = .ok (ops ++ [⟨i, v.index⟩]) := by
  rcases e with ⟨id, operator, terms, owner', a'⟩
  have stored : ((⟨id, operator, terms, owner, a⟩ : Expression).codeFor v).toExcept =
      .ok (ops ++ [⟨i, v.index⟩]) :=
    Emission.toExcept_andThen_eq_ok.2
      ⟨ops, _, compiled, Emission.toExcept_access_eq_ok.2 ⟨i, stores, rfl⟩, rfl⟩
  have clean := (Emission.toExcept_eq_ok.1 stored).1
  rw [Program.codeOf, defined]
  exact ⟨congrArg Emission.toExcept (Group.concat_linesFor _ clean), stored⟩

/-- `mixedTree` as an equation that turns a flag off. -/
def mixedReset : Program :=
  let a := Variable.plain "a" .input 0
  let b := Variable.plain "b" .input 1
  let c := Variable.plain "c" .input 2
  let f := Variable.plain "f" .flag 4
  ⟨⟨[a, b, c, f], by decide⟩, [(f, { mixedTree with owner := some f, assignment := .reset })], 2⟩

/-- The lines are `read a; read b; and !c; not; or; reset f;`. -/
theorem code_of_lines_mixedTree :
    let f := Variable.plain "f" .flag 4
    mixedTree.code.toExcept = .ok mixedCode ∧
      mixedTree.lines = [⟨.read, some (.plain "a" .input 0), false⟩,
        ⟨.read, some (.plain "b" .input 1), false⟩, ⟨.and, some (.plain "c" .input 2), true⟩,
        ⟨.not, none, false⟩, ⟨.or, none, false⟩] ∧
      (⟨mixedReset.symbols, mixedTree.lines ++ [⟨.reset, some f, false⟩]⟩ : Listing).code =
        (mixedReset.codeOf f).toExcept ∧
      (mixedReset.codeOf f).toExcept = .ok (mixedCode ++ [⟨.resetFlag, 4⟩]) :=
  ⟨rfl, rfl, Group.code_of_lines (a := .reset) (i := .resetFlag) rfl rfl rfl⟩

end RelayLogic
