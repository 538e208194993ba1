import Mathlib
import RelayLogic.Proofs.Execution
import RelayLogic.Proofs.ProgramGrammar

/-! Accepted programs on the machine. Only a store that has no instruction keeps an accepted
program from being compiled, and what it is compiled to faults nowhere: each variable has a cell,
and a stack has room for every tree if it holds one item more than a tree has levels. -/
namespace RelayLogic

namespace Emission

theorem failure_access (a : Access) (v : Variable) :
    (access a v).failure =
      if Instruction.ofAccess? a v.category = none then some (.unsupported a v.category v.name)
      else none := by
  cases found : Instruction.ofAccess? a v.category <;> simp [access, found, one, fail]

/-- Emissions in a row fail as the first of them does that fails. -/
theorem failure_concat (es : List Emission) : (concat es).failure = es.findSome? failure := by
  induction es with
  | nil => rfl
  | cons first rest ih =>
      cases failed : first.failure with
      | none => simp only [concat, andThen, failed, ih, List.findSome?]
      | some e => simp only [concat, andThen, failed, List.findSome?]

theorem toExcept_eq_error {e : Emission} {failure : CodeError} :
    e.toExcept = .error failure ↔ e.failure = some failure := by
  unfold toExcept
  cases e.failure <;> simp

end Emission

/-- Nothing is stored in an input, and no monoflop is overwritten. -/
theorem Instruction.ofAccess?_store_eq_none_iff {assignment : Assignment} {c : Category} :
    ofAccess? assignment.access c = none ↔ c = .input ∨ c = .monoflop ∧ assignment = .assign := by
  cases assignment <;> cases c <;> simp [ofAccess?, Assignment.access]

/-- The tree of an equation compiles if it is proper, so only the store may fail. -/
theorem Group.Proper.failure_codeFor {e : Expression} {vs : List Variable}
    (proper : e.Proper vs maxLevels) (v : Variable) :
    (e.codeFor v).failure = (Emission.access e.assignment.access v).failure := by
  have clean := e.failure_emit proper.regular proper.shallow
  simp only [Group.codeFor, Group.code, Emission.andThen, clean]

theorem SymbolTable.index_lt_cellCount {t : SymbolTable} {v : Variable} (h : v ∈ t.declared) :
    v.index < t.cellCount v.category := by
  have member : v.index ∈ (t.ofCategory v.category).map Variable.index :=
    List.mem_map_of_mem (List.mem_filter.2 ⟨h, decide_eq_true rfl⟩)
  unfold cellCount
  cases largest : t.maxIndex? v.category with
  | none =>
      rw [List.max?_eq_none_iff.1 largest] at member
      cases member
  | some index => exact Nat.lt_succ_of_le ((List.max?_eq_some_iff.1 largest).2 _ member)

namespace Program

/-- Where no variable has two equations, each equation is found. -/
theorem equation?_eq_some_of_nodup {p : Program} (distinct : (p.equations.map Prod.fst).Nodup)
    {v : Variable} {e : Expression} : p.equation? v = some e ↔ (v, e) ∈ p.equations := by
  refine ⟨mem_of_equation?, fun member => ?_⟩
  cases found : p.equation? v with
  | none => exact absurd rfl (equation?_eq_none_iff.1 found (v, e) member)
  | some other =>
      have same := List.inj_on_of_nodup_map distinct (mem_of_equation? found) member rfl
      rw [(Prod.mk.inj same).2]

namespace Accepted

variable {p : Program}

theorem equation?_eq_some_iff (h : p.Accepted) {v : Variable} {e : Expression} :
    p.equation? v = some e ↔ (v, e) ∈ p.equations :=
  equation?_eq_some_of_nodup h.distinct

theorem mem_inOrder_iff (h : p.Accepted) {equation : Variable × Expression} :
    equation ∈ p.inOrder ↔ equation ∈ p.equations := by
  rw [mem_inOrder, h.equation?_eq_some_iff, and_iff_right_iff_imp]
  exact h.declared equation

/-- The code of an equation fails only where its value cannot be stored. -/
theorem failure_codeFor (h : p.Accepted) {equation : Variable × Expression}
    (member : equation ∈ p.inOrder) :
    (equation.2.codeFor equation.1).failure =
      (Emission.access equation.2.assignment.access equation.1).failure := by
  have proper := h.proper equation (h.mem_inOrder_iff.1 member)
  have bounded : 2 * maxNesting + 2 ≤ maxLevels := by decide
  exact Group.Proper.failure_codeFor ⟨proper.regular, Nat.le_trans proper.shallow bounded,
    proper.known⟩ equation.1

theorem code_eq_error (h : p.Accepted) {failure : CodeError} (failed : p.code = .error failure) :
    ∃ equation ∈ p.equations,
      Instruction.ofAccess? equation.2.assignment.access equation.1.category = none ∧
        failure =
          .unsupported equation.2.assignment.access equation.1.category equation.1.name := by
  rw [code, Emission.toExcept_eq_error, Emission.failure_concat, List.findSome?_map] at failed
  obtain ⟨equation, member, failed⟩ := List.exists_of_findSome?_eq_some failed
  rw [Function.comp_apply, h.failure_codeFor member, Emission.failure_access] at failed
  split at failed
  · rename_i none
    exact ⟨equation, h.mem_inOrder_iff.1 member, none, (Option.some.inj failed).symm⟩
  · cases failed

theorem ofAccess?_of_code (h : p.Accepted) {ops : List Operation} (compiled : p.code = .ok ops)
    {equation : Variable × Expression} (member : equation ∈ p.equations) :
    Instruction.ofAccess? equation.2.assignment.access equation.1.category ≠ none := by
  have there := h.mem_inOrder_iff.2 member
  have clean := (Emission.toExcept_eq_ok.1 compiled).1
  rw [Emission.failure_concat, List.findSome?_map, List.findSome?_eq_none_iff] at clean
  have stored := clean equation there
  rw [Function.comp_apply, h.failure_codeFor there, Emission.failure_access] at stored
  intro refused
  rw [if_pos refused] at stored
  cases stored

theorem cells (h : p.Accepted) {m : Memory} (enough : ∀ c, p.symbols.cellCount c ≤ m.cells c)
    {equation : Variable × Expression} (member : equation ∈ p.equations) :
    ∀ v ∈ equation.1 :: equation.2.leaves, v.index < m.cells v.category := by
  intro v mentioned
  have declared : v ∈ p.symbols.declared := by
    rcases List.mem_cons.1 mentioned with rfl | leaf
    · exact h.declared equation member
    · exact (h.proper equation member).known v leaf
  exact Nat.lt_of_lt_of_le (SymbolTable.index_lt_cellCount declared) (enough v.category)

end Accepted

end Program

/-- Programs that can be read never fault. Their trees have at most 130 levels, compiling fails
just where an input is to be stored or a monoflop overwritten, and the code runs to its end in every
memory with a cell for each variable, on every stack that holds one item more than a tree has
levels. -/
theorem Source.run_program {source : Source} {p : Program} (read : source.program = .ok p) :
    (∀ equation ∈ p.equations, equation.2.levels ≤ 130) ∧
      ((∃ ops, p.code = .ok ops) ∨ ∃ a c name, p.code = .error (.unsupported a c name)) ∧
      ((∃ a c name, p.code = .error (.unsupported a c name)) ↔
        ∃ equation ∈ p.equations, equation.1.category = .input ∨
          equation.1.category = .monoflop ∧ equation.2.assignment = .assign) ∧
      ∀ ops, p.code = .ok ops → ∀ m : Memory, (∀ c, p.symbols.cellCount c ≤ m.cells c) →
        ∀ capacity, 131 ≤ capacity → (m.run capacity ops).1 = .ok () := by
  have accepted := Source.accepted_program read
  have levels : ∀ equation ∈ p.equations, equation.2.levels ≤ 130 :=
    fun equation member => (accepted.proper equation member).shallow
  refine ⟨levels, ?_, ⟨?_, ?_⟩, ?_⟩
  · cases compiled : p.code with
    | ok ops => exact .inl ⟨ops, rfl⟩
    | error failure =>
        obtain ⟨equation, -, -, rfl⟩ := accepted.code_eq_error compiled
        exact .inr ⟨_, _, _, rfl⟩
  · rintro ⟨a, c, name, failed⟩
    obtain ⟨equation, member, refused, -⟩ := accepted.code_eq_error failed
    exact ⟨equation, member, Instruction.ofAccess?_store_eq_none_iff.1 refused⟩
  · rintro ⟨equation, member, refused⟩
    cases compiled : p.code with
    | ok ops =>
        exact absurd (Instruction.ofAccess?_store_eq_none_iff.2 refused)
          (accepted.ofAccess?_of_code compiled member)
    | error failure =>
        obtain ⟨_, -, -, rfl⟩ := accepted.code_eq_error compiled
        exact ⟨_, _, _, rfl⟩
  · intro ops compiled m enough capacity room
    refine (p.run_code compiled (fun equation there => ?_) fun equation there => ?_).1
    · exact accepted.cells enough (accepted.mem_inOrder_iff.1 there)
    · have bound := levels equation (accepted.mem_inOrder_iff.1 there)
      have need := equation.2.need_le
      omega

/-- The output is on while the monoflop is. -/
def heldText : Source :=
  .ofString "held"
    "inputs: a=0, b=2; monoflops: t(2min)=0; outputs: out=1; t += a & !b; out = t | !(a | b) & a;"

def held : Program :=
  let a := Variable.plain "a" .input 0
  let b := Variable.plain "b" .input 2
  let t := (Variable.plain "t" .monoflop 0).withTime 60
  let out := Variable.plain "out" .output 1
  ⟨⟨[a, b, t, out], by decide⟩,
    [(t, ⟨1, .and, [.leaf false a, .leaf true b], some t, .set⟩),
      (out, ⟨2, .or,
        [.leaf false t,
          .group false ⟨4, .and,
            [.group true ⟨3, .or, [.leaf false a, .leaf false b], none, .assign⟩, .leaf false a],
            none, .assign⟩],
        some out, .assign⟩)], 4⟩

set_option maxRecDepth 4000 in
theorem program_heldText : heldText.program = .ok held := by cbv

def heldCode : List Operation :=
  [⟨.readInput, 0⟩, ⟨.readInput, 2⟩, .logic .not, .logic .and, ⟨.setTimer, 0⟩, ⟨.readTimer, 0⟩,
    ⟨.readInput, 0⟩, ⟨.readInput, 2⟩, .logic .or, .logic .not, ⟨.readInput, 0⟩, .logic .and,
    .logic .or, ⟨.writeOutput, 1⟩]

theorem run_heldText :
    heldText.program = .ok held ∧ held.code = .ok heldCode ∧
      (∀ c, held.symbols.cellCount c ≤ (Memory.fresh 3 2 0 1).cells c) ∧
      ((Memory.fresh 3 2 0 1).run 131 heldCode).1 = .ok () := by
  have compiled : held.code = .ok heldCode := rfl
  have enough : ∀ c, held.symbols.cellCount c ≤ (Memory.fresh 3 2 0 1).cells c := by
    intro c
    cases c <;> decide
  obtain ⟨-, -, -, runs⟩ := Source.run_program program_heldText
  exact ⟨program_heldText, compiled, enough, runs heldCode compiled _ enough 131 (Nat.le_refl 131)⟩

end RelayLogic
