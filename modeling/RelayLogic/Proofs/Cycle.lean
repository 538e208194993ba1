import Mathlib.Logic.Relation
import RelayLogic.Proofs.Shape
import RelayLogic.Proofs.Visits

/-! Cycles of references. Resolving walks the references of a program depth first: a variable on
the way from the name to the term at hand is open, and one that was visited and is no longer open
leads into no cycle. So a name from which a cycle can be reached never resolves, and a cycle is
reported only where there is one. -/
namespace RelayLogic

namespace Program

/-- A variable refers to another if its equation mentions it and it has an equation too. -/
def Refers (p : Program) (v w : Variable) : Prop :=
  ∃ e, p.equation? v = some e ∧ w ∈ e.leaves ∧ p.equation? w ≠ none

def Reaches (p : Program) : Variable → Variable → Prop := Relation.ReflTransGen p.Refers

/-- A variable is on a cycle if following references from it leads back to it. -/
def OnCycle (p : Program) (v : Variable) : Prop := Relation.TransGen p.Refers v v

def LeadsIntoCycle (p : Program) (v : Variable) : Prop := ∃ w, p.Reaches v w ∧ p.OnCycle w

variable {p : Program} {root : Variable}

theorem exists_refers_of_leadsIntoCycle {v : Variable} (h : p.LeadsIntoCycle v) :
    ∃ w, p.Refers v w ∧ p.LeadsIntoCycle w := by
  obtain ⟨x, reached, cycle⟩ := h
  rcases Relation.ReflTransGen.cases_head reached with rfl | ⟨w, first, later⟩
  · obtain ⟨w, first, back⟩ := Relation.TransGen.head'_iff.1 cycle
    exact ⟨w, first, v, back, cycle⟩
  · exact ⟨w, first, x, later, cycle⟩

/-- What holds of the open variables while a tree of `head` is expanded: references lead from the
root to each of them, and from there to `head`. -/
structure Trail (p : Program) (root head : Variable) (path : List Variable) : Prop where
  reached : p.Reaches root head
  strung : ∀ u ∈ path, p.Reaches u head

theorem Trail.start (p : Program) (root : Variable) : p.Trail root root [root] := by
  refine ⟨.refl, fun u member => ?_⟩
  rw [List.mem_singleton.1 member]
  exact .refl

theorem Trail.push {head v : Variable} {path : List Variable} (h : p.Trail root head path)
    (refers : p.Refers head v) : p.Trail root v (v :: path) := by
  refine ⟨h.reached.tail refers, fun u member => ?_⟩
  rcases List.mem_cons.1 member with rfl | there
  · exact .refl
  · exact (h.strung u there).tail refers

/-- The references that a tree of `head` makes are references of `head`. -/
def Mentions (p : Program) (head : Variable) (vs : List Variable) : Prop :=
  ∀ w ∈ vs, p.equation? w ≠ none → p.Refers head w

/-- A reported cycle is one: its variable is reached from the root and on a cycle. -/
theorem cycle_of_expand {levels : Nat} {head : Variable} {path : List Variable} {e : Expression}
    {l k : Ledger} {f : SemanticError} (trail : p.Trail root head path)
    (mentions : p.Mentions head e.leaves)
    (failed : p.expand root levels path e l = (.error f, k)) :
    f = .nestingTooDeep root.name ∨
      ∃ w, f = .cyclicDependency w.name ∧ p.Reaches root w ∧ p.OnCycle w := by
  induction levels generalizing head path e l k with
  | zero =>
      rcases expand_eq_error.1 failed with ⟨-, rfl, -⟩ | ⟨_, impossible, -⟩
      · exact .inl rfl
      · cases impossible
  | succ levels ih =>
      rcases expand_eq_error.1 failed with ⟨impossible, -⟩ | ⟨_, same, failed⟩
      · cases impossible
      cases same
      obtain ⟨t, member, l', failed⟩ := exists_of_expandTerms_eq_error failed
      have mentions' : p.Mentions head t.leaves := by
        intro w leaf
        exact mentions w (e.leaves_eq ▸ Term.mem_leavesOfList.2 ⟨t, member, leaf⟩)
      have failed := expandTerm_eq_error.1 failed
      cases t with
      | empty inverted => cases failed
      | group inverted g => exact ih trail mentions' failed
      | leaf inverted v =>
          obtain ⟨equation, found, failed⟩ := failed
          have refers : p.Refers head v :=
            mentions' v (List.mem_singleton_self v) (by rw [found]; exact Option.some_ne_none _)
          split at failed
          · -- The references from `v` to `head` and from `head` to `v` close the cycle.
            rename_i opened
            exact .inr ⟨v, failed.1, trail.reached.tail refers,
              Relation.TransGen.tail' (trail.strung v opened) refers⟩
          · obtain ⟨-, copy, l'', copied, failed⟩ := failed
            refine ih (trail.push refers) ?_ failed
            intro w leaf defined
            rw [(leaves_of_copyFor copied).1] at leaf
            exact ⟨equation, found, leaf, defined⟩

/-- A variable leads into no cycle if none of those does to which it refers. -/
theorem inherited_not_leadsIntoCycle : p.Inherited fun v => ¬p.LeadsIntoCycle v := by
  intro v equation found cleared cycle
  obtain ⟨w, ⟨equation', found', leaf, defined⟩, cycle⟩ := exists_refers_of_leadsIntoCycle cycle
  cases found.symm.trans found'
  exact cleared w leaf defined cycle

/-- Whatever was visited before, a defined name fails only by its depth or by a cycle that it
leads into. -/
theorem cycle_of_resolve {name : String} {v : Variable} {equation : Expression} {l k : Ledger}
    {f : SemanticError} (declared : p.symbols.find? name = some v)
    (found : p.equation? v = some equation) (failed : p.resolve name l = (.error f, k)) :
    f = .nestingTooDeep name ∨
      ∃ w, f = .cyclicDependency w.name ∧ p.Reaches v w ∧ p.OnCycle w := by
  have h := resolve_eq_error.1 failed
  simp only [declared, found] at h
  rw [← (SymbolTable.mem_of_find? declared).2]
  exact cycle_of_expand (.start p v) (fun w leaf defined => ⟨equation, found, leaf, defined⟩) h

theorem not_leadsIntoCycle_of_resolve (closed : p.Closed) {name : String} {v : Variable}
    {lastId : Nat} {t : Expression} {k : Ledger} (declared : p.symbols.find? name = some v)
    (resolved : p.resolve name ⟨[], lastId⟩ = (.ok t, k)) : ¬p.LeadsIntoCycle v := by
  have unvisited : p.Marks (fun w => ¬p.LeadsIntoCycle w) [] ⟨[], lastId⟩ :=
    fun w _ visited => by cases visited
  obtain ⟨w, e, declared', found, cleared, -⟩ :=
    marks_of_resolve closed inherited_not_leadsIntoCycle resolved unvisited
  cases declared.symm.trans declared'
  exact inherited_not_leadsIntoCycle v e found cleared

/-- Resolving with no visits before tells where cycles are. A name that is not declared, or has no
equation, is refused as such. A name from which references lead into a cycle is refused, and a
cycle is reported only where they do, at a variable that is on one of them. -/
theorem resolve_unvisited (closed : p.Closed) (name : String) (lastId : Nat) :
    (name ∉ p.symbols.names →
      (p.resolve name ⟨[], lastId⟩).1 = .error (.unknownVariable name)) ∧
    ∀ v ∈ p.symbols.declared, v.name = name →
      (p.equation? v = none →
        (p.resolve name ⟨[], lastId⟩).1 = .error (.missingEquation name)) ∧
      (p.equation? v ≠ none →
        (p.LeadsIntoCycle v →
          (p.resolve name ⟨[], lastId⟩).1 = .error (.nestingTooDeep name) ∨
            ∃ x, (p.resolve name ⟨[], lastId⟩).1 = .error (.cyclicDependency x)) ∧
        (¬p.LeadsIntoCycle v →
          ∀ x, (p.resolve name ⟨[], lastId⟩).1 ≠ .error (.cyclicDependency x)) ∧
        ∀ x, (p.resolve name ⟨[], lastId⟩).1 = .error (.cyclicDependency x) →
          ∃ w, w.name = x ∧ p.Reaches v w ∧ p.OnCycle w) := by
  refine ⟨fun undeclared => ?_, fun v member named => ?_⟩
  · have absent := SymbolTable.find?_eq_none_iff.2 undeclared
    simp only [resolve, SymbolTable.lookup, absent, Resolution.fail]
  have declared := SymbolTable.find?_eq_some_iff.2 ⟨member, named⟩
  cases found : p.equation? v with
  | none =>
      refine ⟨fun _ => ?_, fun defined => absurd rfl defined⟩
      simp only [resolve, SymbolTable.lookup, declared, found, Resolution.fail, named]
  | some equation =>
      refine ⟨fun undefined => absurd undefined (Option.some_ne_none _), fun _ => ?_⟩
      have reported : ∀ f, (p.resolve name ⟨[], lastId⟩).1 = .error f →
          f = .nestingTooDeep name ∨
            ∃ w, f = .cyclicDependency w.name ∧ p.Reaches v w ∧ p.OnCycle w :=
        fun f failed => cycle_of_resolve declared found (Prod.ext failed rfl)
      refine ⟨fun cycle => ?_, fun clear x failed => ?_, fun x failed => ?_⟩
      · cases outcome : (p.resolve name ⟨[], lastId⟩).1 with
        | ok t =>
            exact absurd cycle (not_leadsIntoCycle_of_resolve closed declared (Prod.ext outcome rfl))
        | error f =>
            rcases reported f outcome with rfl | ⟨w, rfl, -⟩
            · exact .inl rfl
            · exact .inr ⟨w.name, rfl⟩
      · rcases reported _ failed with impossible | ⟨w, -, reached, cycle⟩
        · cases impossible
        · exact clear ⟨w, reached, cycle⟩
      · rcases reported _ failed with impossible | ⟨w, same, reached, cycle⟩
        · cases impossible
        · cases same
          exact ⟨w, rfl, reached, cycle⟩

/-- The program of `f = h & a; h = f | a; g = !f; out = g & f;`. -/
def entangled : Program :=
  let a := Variable.plain "a" .input 0
  let f := Variable.plain "f" .flag 0
  let g := Variable.plain "g" .flag 1
  let h := Variable.plain "h" .flag 2
  let out := Variable.plain "out" .output 0
  ⟨⟨[a, f, g, h, out], by decide⟩,
    [(f, ⟨1, .and, [.leaf false h, .leaf false a], some f, .assign⟩),
      (h, ⟨2, .or, [.leaf false f, .leaf false a], some h, .assign⟩),
      (g, ⟨3, .none, [.leaf true f], some g, .assign⟩),
      (out, ⟨4, .and, [.leaf false g, .leaf false f], some out, .assign⟩)], 4⟩

/-- The cycle of `f` and `h` is reported at `f`, though neither the name nor what it mentions first
is on it. -/
theorem resolve_entangled :
    entangled.Closed ∧ Variable.plain "out" .output 0 ∈ entangled.symbols.declared ∧
      entangled.equation? (.plain "out" .output 0) ≠ none ∧
      (entangled.resolve "out" ⟨[], 4⟩).1 = .error (.cyclicDependency "f") ∧
      ∃ w, w.name = "f" ∧ entangled.Reaches (.plain "out" .output 0) w ∧ entangled.OnCycle w := by
  have closed : entangled.Closed := ⟨by decide, by decide⟩
  have declared : Variable.plain "out" .output 0 ∈ entangled.symbols.declared := by decide
  have defined : entangled.equation? (.plain "out" .output 0) ≠ none := by
    intro impossible
    cases impossible
  have failed : (entangled.resolve "out" ⟨[], 4⟩).1 = .error (.cyclicDependency "f") := rfl
  obtain ⟨-, declaredCase⟩ := resolve_unvisited closed "out" 4
  obtain ⟨-, -, reported⟩ := (declaredCase _ declared rfl).2 defined
  exact ⟨closed, declared, defined, failed, reported "f" failed⟩

end Program

end RelayLogic
