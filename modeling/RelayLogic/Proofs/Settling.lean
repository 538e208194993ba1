import RelayLogic.Proofs.Safety
import RelayLogic.Proofs.Sequence
import RelayLogic.Proofs.TableMeaning

/-! Programs that settle in one run. Where no two variables share a cell, and each equation looks
back, at variables without an equation and at those declared before its own, a run leaves every
variable with the value of its equation. The state is then a solution of all the equations, so a
resolved signal has the value that its cell holds, whichever references were left in its tree. -/
namespace RelayLogic

/-- Whether a variable is declared before another. -/
def SymbolTable.Before (t : SymbolTable) (w v : Variable) : Prop :=
  t.declared.idxOf w < t.declared.idxOf v

/-- Each equation mentions only variables without an equation, and variables declared before its
own. -/
def Program.LooksBack (p : Program) : Prop :=
  ∀ v e, p.equation? v = some e → ∀ w ∈ e.leaves, p.equation? w = none ∨ p.symbols.Before w v

/-- Whether two variables have the same cell. -/
def Variable.SharesCell (v w : Variable) : Prop := w.category = v.category ∧ v.index = w.index

instance : Std.Symm fun v w : Variable => ¬w.SharesCell v :=
  ⟨fun _ _ apart same => apart ⟨same.1.symm, same.2.symm⟩⟩

theorem SymbolTable.pairwise_before (t : SymbolTable) : t.declared.Pairwise t.Before := by
  have distinct : t.declared.Nodup := .of_map _ t.distinct
  rw [List.pairwise_iff_getElem]
  intro i j hi hj less
  simpa only [Before, distinct.idxOf_getElem] using less

theorem SymbolTable.Apart.not_sharesCell {t : SymbolTable} (apart : t.Apart) {v w : Variable}
    (hv : v ∈ t.declared) (hw : w ∈ t.declared) (other : v ≠ w) : ¬v.SharesCell w := by
  have pairs : t.declared.Pairwise fun v w => ¬w.SharesCell v := apart
  exact pairs.forall hw hv other.symm

namespace Snapshot

variable {x : Snapshot} {v w : Variable} {e : Expression}

theorem bitOf_after_of_apart (apart : ¬v.SharesCell w) :
    (x.after v e).bitOf w = x.bitOf w :=
  if_neg apart

/-- An equation that does not mention its own cell holds once it has been carried out. -/
theorem bitOf_after (assigns : e.assignment = .assign)
    (apart : ∀ w ∈ e.leaves, ¬v.SharesCell w) :
    (x.after v e).bitOf v = e.value (x.after v e).bitOf := by
  have unchanged : e.value (x.after v e).bitOf = e.value x.bitOf := by
    apply e.value_congr
    intro w leaf
    exact bitOf_after_of_apart (apart w leaf)
  have stored : (x.after v e).bitOf v = e.assignment.apply (e.value x.bitOf) (x.bitOf v) :=
    if_pos ⟨rfl, rfl⟩
  rw [unchanged, stored, assigns]
  rfl

theorem bitOf_foldl_after {equations : List (Variable × Expression)}
    (apart : ∀ equation ∈ equations, ¬equation.1.SharesCell w) :
    (equations.foldl (fun x equation => x.after equation.1 equation.2) x).bitOf w = x.bitOf w := by
  induction equations generalizing x with
  | nil => rfl
  | cons equation rest ih =>
      obtain ⟨here, there⟩ := List.forall_mem_cons.1 apart
      exact (ih there).trans (bitOf_after_of_apart here)

/-- Equations hold at the end if none of them stores in a cell that it mentions itself, or that an
earlier one mentions or has stored in. -/
theorem bitOf_foldl_after_mem {equations : List (Variable × Expression)}
    (assigns : ∀ equation ∈ equations, equation.2.assignment = .assign)
    (own : ∀ equation ∈ equations, ∀ w ∈ equation.2.leaves, ¬equation.1.SharesCell w)
    (later : equations.Pairwise fun a b => ∀ w ∈ a.1 :: a.2.leaves, ¬b.1.SharesCell w) :
    ∀ equation ∈ equations,
      let last := equations.foldl (fun x equation => x.after equation.1 equation.2) x
      last.bitOf equation.1 = equation.2.value last.bitOf := by
  induction equations generalizing x with
  | nil => exact fun equation member => by cases member
  | cons first rest ih =>
      obtain ⟨assign, assigns⟩ := List.forall_mem_cons.1 assigns
      obtain ⟨apart, own⟩ := List.forall_mem_cons.1 own
      obtain ⟨spared, later⟩ := List.pairwise_cons.1 later
      intro equation member last
      rcases List.mem_cons.1 member with here | there
      · -- The cells of the first equation stay as it left them.
        have kept : ∀ w ∈ first.1 :: first.2.leaves,
            last.bitOf w = (x.after first.1 first.2).bitOf w := by
          intro w mentioned
          exact bitOf_foldl_after fun other there => spared other there w mentioned
        rw [here, kept first.1 List.mem_cons_self, bitOf_after assign apart]
        apply first.2.value_congr
        intro w leaf
        exact (kept w (List.mem_cons_of_mem _ leaf)).symm
      · exact ih assigns own later equation there

end Snapshot

namespace Program

variable {p : Program}

theorem pairwise_inOrder (p : Program) :
    p.inOrder.Pairwise fun a b => p.symbols.Before a.1 b.1 := by
  apply p.symbols.pairwise_before.filterMap
  intro v w before a ha b hb
  obtain ⟨_, -, rfl⟩ := Option.map_eq_some_iff.1 ha
  obtain ⟨_, -, rfl⟩ := Option.map_eq_some_iff.1 hb
  exact before

/-- What an equation mentions is neither its own variable nor that of a later equation. -/
theorem LooksBack.ne (back : p.LooksBack) {a b : Variable × Expression} (ha : a ∈ p.inOrder)
    (hb : b ∈ p.inOrder) (order : ¬p.symbols.Before b.1 a.1) {w : Variable}
    (leaf : w ∈ a.2.leaves) : b.1 ≠ w := by
  rintro rfl
  rcases back a.1 a.2 (mem_inOrder.1 ha).2 b.1 leaf with undefined | before
  · rw [(mem_inOrder.1 hb).2] at undefined
    cases undefined
  · exact order before

/-- Carrying out equations that look back gives every variable the value of its equation. -/
theorem solves_carryOut (closed : p.Closed) (apart : p.symbols.Apart) (back : p.LooksBack)
    (assigns : ∀ v e, p.equation? v = some e → e.assignment = .assign) (x : Snapshot) :
    p.Solves (p.carryOut x).bitOf := by
  have known : ∀ a ∈ p.inOrder, ∀ w ∈ a.2.leaves, w ∈ p.symbols.declared := by
    intro a ha w leaf
    exact closed.mentioned a (mem_of_equation? (mem_inOrder.1 ha).2) w leaf
  have own : ∀ a ∈ p.inOrder, ∀ w ∈ a.2.leaves, ¬a.1.SharesCell w := by
    intro a ha w leaf
    have other := back.ne ha ha (Nat.lt_irrefl _) leaf
    exact apart.not_sharesCell (mem_inOrder.1 ha).1 (known a ha w leaf) other
  have later : p.inOrder.Pairwise fun a b => ∀ w ∈ a.1 :: a.2.leaves, ¬b.1.SharesCell w := by
    apply p.pairwise_inOrder.imp_of_mem
    intro a b ha hb before w mentioned
    have declared := (mem_inOrder.1 hb).1
    rcases List.mem_cons.1 mentioned with rfl | leaf
    · refine apart.not_sharesCell declared (mem_inOrder.1 ha).1 fun same => ?_
      rw [same] at before
      exact Nat.lt_irrefl _ before
    · have other := back.ne ha hb (Nat.lt_asymm before) leaf
      exact apart.not_sharesCell declared (known a ha w leaf) other
  intro v e found
  have member : (v, e) ∈ p.inOrder :=
    mem_inOrder.2 ⟨closed.defined _ (mem_of_equation? found), found⟩
  rw [← p.foldl_inOrder]
  refine Snapshot.bitOf_foldl_after_mem (fun a ha => ?_) own later (v, e) member
  exact assigns a.1 a.2 (mem_inOrder.1 ha).2

namespace Accepted

variable {ops : List Operation} {m : Memory} {capacity : Nat}

/-- A run brings the values of the cells into agreement with all equations. -/
theorem solves_run (h : p.Accepted)
    (assigns : ∀ equation ∈ p.equations, equation.2.assignment = .assign)
    (apart : p.symbols.Apart) (back : p.LooksBack) (compiled : p.code = .ok ops)
    (enough : ∀ c, p.symbols.cellCount c ≤ m.cells c)
    (room : ∀ equation ∈ p.equations, equation.2.need ≤ capacity) :
    ∃ last, m.run capacity ops = (.ok (), last) ∧ p.Solves last.bitOf ∧
      ∀ c, last.cells c = m.cells c := by
  rcases outcome : m.run capacity ops with ⟨result, last⟩
  have ran := p.run_code compiled
    (fun equation member => h.cells enough (h.mem_inOrder_iff.1 member))
    (fun equation member => room equation (h.mem_inOrder_iff.1 member))
  rw [outcome] at ran
  obtain ⟨ends, same⟩ := ran
  refine ⟨last, Prod.ext ends rfl, ?_, fun c => ?_⟩
  · have values : last.value = p.carryOut m.value := by
      funext c index
      rw [same.values, Memory.value_performAll, p.foldl_inOrder]
    have settled := p.solves_carryOut h.closed apart back
      (fun v e found => assigns (v, e) (mem_of_equation? found)) m.value
    rw [← values] at settled
    exact settled
  · rw [same.cells, Memory.cells_performAll]

/-- In a memory that agrees with all equations, a resolved tree has the value of its signal's
cell. -/
theorem execute_resolve (h : p.Accepted) (enough : ∀ c, p.symbols.cellCount c ≤ m.cells c)
    (solves : p.Solves m.bitOf) {name : String} {v : Variable} {l k : Ledger} {tree : Expression}
    (declared : p.symbols.find? name = some v) (resolved : p.resolve name l = (.ok tree, k)) :
    ∃ code, tree.code.toExcept = .ok code ∧ tree.need ≤ maxLevels + 1 ∧
      ∀ places, tree.need ≤ places → (m.execute places code).1 = .ok (m.bitOf v) := by
  have proper := proper_of_resolve h.proper_equation resolved
  obtain ⟨code, compiled, runs⟩ := proper.execute_of_need (Nat.le_refl maxLevels)
  refine ⟨code, compiled, proper.need_le, fun places room => ?_⟩
  rw [← value_of_resolve solves declared resolved]
  refine runs m (fun w known => ?_) places room
  exact Nat.lt_of_lt_of_le (SymbolTable.index_lt_cellCount known) (enough w.category)

end Accepted

end Program

/-- Resolving agrees with running. If all equations of a program overwrite their variables and look
back, and no two variables share a cell, then after a run from any memory the resolved tree of a
signal has the value that the signal's cell holds, whatever was visited before it was resolved. -/
theorem Source.execute_resolved {source : Source} {p : Program} (read : source.program = .ok p)
    (assigns : ∀ equation ∈ p.equations, equation.2.assignment = .assign)
    (apart : p.symbols.Apart) (back : p.LooksBack) {ops : List Operation}
    (compiled : p.code = .ok ops) {m : Memory}
    (enough : ∀ c, p.symbols.cellCount c ≤ m.cells c) {capacity : Nat}
    (room : ∀ equation ∈ p.equations, equation.2.need ≤ capacity) :
    ∃ last, m.run capacity ops = (.ok (), last) ∧
      ∀ name v l tree k, p.symbols.find? name = some v → p.resolve name l = (.ok tree, k) →
        ∃ code, tree.code.toExcept = .ok code ∧ tree.need ≤ maxLevels + 1 ∧
          ∀ places, tree.need ≤ places →
            (last.execute places code).1 = .ok (last.bitOf v) := by
  have accepted := Source.accepted_program read
  obtain ⟨last, ran, solves, cells⟩ :=
    accepted.solves_run assigns apart back compiled enough room
  refine ⟨last, ran, ?_⟩
  intro name v l tree k declared resolved
  refine accepted.execute_resolve (fun c => ?_) solves declared resolved
  rw [cells]
  exact enough c

instance (t : SymbolTable) (w v : Variable) : Decidable (t.Before w v) :=
  inferInstanceAs (Decidable (_ < _))

/-- The equations stand in reverse order of declaration. -/
def steadyText : Source :=
  .ofString "steady"
    "inputs: a=0, b=1; flags: f=0, g=1; outputs: o=0; o = !g & (f | b); g = !f; f = a & b;"

def steady : Program :=
  let a := Variable.plain "a" .input 0
  let b := Variable.plain "b" .input 1
  let f := Variable.plain "f" .flag 0
  let g := Variable.plain "g" .flag 1
  let o := Variable.plain "o" .output 0
  ⟨⟨[a, b, f, g, o], by decide⟩,
    [(o, ⟨1, .and,
        [.leaf true g, .group false ⟨2, .or, [.leaf false f, .leaf false b], none, .assign⟩],
        some o, .assign⟩),
      (g, ⟨3, .none, [.leaf true f], some g, .assign⟩),
      (f, ⟨4, .and, [.leaf false a, .leaf false b], some f, .assign⟩)], 4⟩

set_option maxRecDepth 4000 in
theorem program_steadyText : steadyText.program = .ok steady := by cbv

theorem looksBack_steady : steady.LooksBack := by
  intro v e found w leaf
  have member := Program.mem_of_equation? found
  fin_cases member <;> fin_cases leaf <;> decide

def steadyCode : List Operation :=
  [⟨.readInput, 0⟩, ⟨.readInput, 1⟩, .logic .and, ⟨.writeFlag, 0⟩, ⟨.readFlag, 0⟩, .logic .not,
    ⟨.writeFlag, 1⟩, ⟨.readFlag, 1⟩, .logic .not, ⟨.readFlag, 0⟩, ⟨.readInput, 1⟩, .logic .or,
    .logic .and, ⟨.writeOutput, 0⟩]

/-- The tree of `o` after `f` was visited, which leaves both references to `f`. -/
def steadyTree : Expression :=
  let b := Variable.plain "b" .input 1
  let f := Variable.plain "f" .flag 0
  let g := Variable.plain "g" .flag 1
  ⟨1, .and,
    [.group true ⟨3, .none, [.leaf true f], some g, .assign⟩,
      .group false ⟨2, .or, [.leaf false f, .leaf false b], none, .assign⟩],
    some (.plain "o" .output 0), .assign⟩

/-- Both inputs are on, and `g` is still on from a time when they were not. The run turns `f` and
`o` on and `g` off, and the tree of `o` agrees. -/
theorem execute_resolved_steadyText :
    let m := ((Memory.fresh 2 1 2 0).put .input 0 true).put .input 1 true |>.put .flag 1 true
    steadyText.program = .ok steady ∧
      (∀ equation ∈ steady.equations, equation.2.assignment = .assign) ∧
      steady.symbols.Apart ∧ steady.LooksBack ∧ steady.code = .ok steadyCode ∧
      (∀ c, steady.symbols.cellCount c ≤ m.cells c) ∧
      (∀ equation ∈ steady.equations, equation.2.need ≤ 3) ∧
      steady.resolve "o" ⟨["f"], 4⟩ = (.ok steadyTree, ⟨["f", "f", "g", "f"], 4⟩) ∧
      ∃ last code, m.run 3 steadyCode = (.ok (), last) ∧ steadyTree.code.toExcept = .ok code ∧
        (last.execute 3 code).1 = .ok (last.bitOf (.plain "o" .output 0)) ∧
        last.bitOf (.plain "o" .output 0) = true := by
  intro m
  have assigns : ∀ equation ∈ steady.equations, equation.2.assignment = .assign := by decide
  have apart : steady.symbols.Apart := by decide
  have compiled : steady.code = .ok steadyCode := rfl
  have enough : ∀ c, steady.symbols.cellCount c ≤ m.cells c := by
    intro c
    cases c <;> decide
  have room : ∀ equation ∈ steady.equations, equation.2.need ≤ 3 := by decide
  have resolved : steady.resolve "o" ⟨["f"], 4⟩ =
      (.ok steadyTree, ⟨["f", "f", "g", "f"], 4⟩) := rfl
  obtain ⟨last, ran, agrees⟩ :=
    Source.execute_resolved program_steadyText assigns apart looksBack_steady compiled enough room
  obtain ⟨code, coded, -, runs⟩ := agrees "o" _ _ _ _ rfl resolved
  refine ⟨program_steadyText, assigns, apart, looksBack_steady, compiled, enough, room, resolved,
    last, code, ran, coded, runs 3 (by decide), ?_⟩
  cases ran
  rfl

end RelayLogic
