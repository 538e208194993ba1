import RelayLogic.Proofs.Machine
import RelayLogic.Proofs.Value

/-! Running the operations of a tree. On any stack they put the value of the tree on top, and the
stack gets exactly as deep as the tree needs; where it may not, the run overflows. -/
namespace RelayLogic

namespace Emission

theorem andThen_operations {first : Emission} (second : Emission) (h : first.failure = none) :
    (first.andThen second).operations = first.operations ++ second.operations := by
  simp only [andThen, h]

theorem failure_andThen {first second : Emission} :
    (first.andThen second).failure = none ↔ first.failure = none ∧ second.failure = none := by
  cases failed : first.failure with
  | none => simp only [andThen, failed, true_and]
  | some e => simp [andThen, failed]

theorem toExcept_eq_ok {e : Emission} {ops : List Operation} :
    e.toExcept = .ok ops ↔ e.failure = none ∧ e.operations = ops := by
  unfold toExcept
  cases e.failure <;> simp

end Emission

namespace Memory

variable {m : Memory} {capacity : Nat}

theorem Turns.andThen {first second : Emission} {a b : Nat} {before between after : List Bool}
    (clean : (first.andThen second).failure = none)
    (h : m.Turns capacity first.operations a before between)
    (h' : m.Turns capacity second.operations b between after) :
    m.Turns capacity (first.andThen second).operations (max a b) before after := by
  rw [Emission.andThen_operations second (Emission.failure_andThen.1 clean).1]
  exact h.append h'

/-- An inversion after a value complements it, and takes no room of its own. -/
theorem Turns.invertIf (inverted : Bool) (b : Bool) (items : List Bool) :
    m.Turns capacity (Emission.logicIf inverted .not).operations 0 (b :: items)
      ((inverted ^^ b) :: items) := by
  cases inverted with
  | true =>
      rw [Bool.true_xor]
      exact Turns.not b items
  | false =>
      rw [Bool.false_xor]
      exact Turns.nil (Nat.zero_le _)

theorem Turns.access {v : Variable} (inside : v.index < m.cells v.category) (items : List Bool) :
    m.Turns capacity (Emission.access .read v).operations (items.length + 1) items
      (m.bitOf v :: items) := by
  obtain ⟨i, found⟩ := Option.isSome_iff_exists.1 (Instruction.ofAccess?_read_isSome v.category)
  simp only [Emission.access, found]
  exact Turns.read (Instruction.ofAccess?_eq_some_iff.1 found) inside items

theorem Turns.joint {operator : Operator} {i : Instruction} (h : operator.joint? = some i)
    (left right : Bool) (items : List Bool) :
    m.Turns capacity [.logic i] 0 (right :: left :: items)
      (operator.join [left, right] :: items) := by
  cases operator with
  | none => cases h
  | timer => cases h
  | and =>
      cases h
      simpa [Operator.join] using Turns.and left right items
  | or =>
      cases h
      simpa [Operator.join] using Turns.or left right items

/-- Operations that put a value on the empty stack give it as their result. -/
theorem Turns.execute {n : Memory} {depth : Nat} {ops : List Operation} {b : Bool}
    (h : m.Turns capacity ops depth [] [b]) (same : n.Same m) :
    (n.execute capacity ops).1 =
        (if depth ≤ capacity then .ok b else .error (.stackOverflow capacity)) ∧
      (n.execute capacity ops).2.Same m := by
  obtain ⟨k, same', run⟩ := h n .empty same Stack.toList_empty
  unfold Memory.execute
  split at run
  · rename_i room
    obtain ⟨t, run, held⟩ := run
    obtain ⟨u, pop, -⟩ := Stack.pop_of_cons held
    have one : t.size = 1 := by rw [← Stack.length_toList, held, List.length_singleton]
    simp only [run, one, pop, Except.map, if_true, if_pos room]
    exact ⟨trivial, same'⟩
  · rename_i full
    simp only [run, if_neg full]
    exact ⟨trivial, same'⟩

end Memory

theorem Operator.join_join {operator : Operator} {i : Instruction} (h : operator.joint? = some i)
    (a b : Bool) (bits : List Bool) :
    operator.join (operator.join [a, b] :: bits) = operator.join (a :: b :: bits) := by
  cases operator with
  | none => cases h
  | timer => cases h
  | and => simp [join, Bool.and_assoc]
  | or => simp [join, Bool.or_assoc]

/-- An expression is walked only within its levels and where its operator fits its terms. -/
theorem Group.emit_eq {e : Expression} {levels : Nat} (clean : (e.emit levels).failure = none) :
    ∃ inner, levels = inner + 1 ∧ e.operator.fits e.terms.length = true ∧
      e.emit levels = Term.emitList e.terms e.id none e.operator.joint? inner := by
  rcases e with ⟨id, operator, terms, owner, assignment⟩
  cases levels with
  | zero => simp [Group.emit, Emission.fail] at clean
  | succ inner =>
      refine ⟨inner, rfl, ?_⟩
      simp only [Group.emit] at clean ⊢
      split at clean
      · rename_i fits
        exact ⟨fits, if_pos fits⟩
      · simp [Emission.fail] at clean

theorem Operator.length_eq_one {operator : Operator} {terms : Nat}
    (joint : operator.joint? = Option.none) (fits : operator.fits terms = true) : terms = 1 := by
  rw [Operator.fits, joint] at fits
  exact of_decide_eq_true fits

theorem Operator.ne_zero_of_fits {operator : Operator} {terms : Nat}
    (fits : operator.fits terms = true) : terms ≠ 0 := by
  cases joint : operator.joint? with
  | none =>
      rw [Operator.length_eq_one joint fits]
      exact Nat.one_ne_zero
  | some i =>
      rw [Operator.fits, joint] at fits
      exact of_decide_eq_true fits

mutual

theorem Group.turns_emit {m : Memory} (capacity : Nat) (e : Expression) (levels : Nat)
    (clean : (e.emit levels).failure = none)
    (cells : ∀ v ∈ e.leaves, v.index < m.cells v.category) (items : List Bool) :
    m.Turns capacity (e.emit levels).operations (items.length + e.need) items
      (e.value m.bitOf :: items) := by
  obtain ⟨inner, rfl, fits, walked⟩ := Group.emit_eq clean
  rw [walked] at clean ⊢
  exact match e with
  | ⟨_, _, [], _, _⟩ => absurd rfl (Operator.ne_zero_of_fits fits)
  | ⟨id, operator, t :: rest, _, _⟩ => by
    simp only [Term.emitList, Emission.done_andThen] at clean ⊢
    simp only [Group.leaves, Term.leavesOfList, List.mem_append] at cells
    obtain ⟨first, later⟩ := Emission.failure_andThen.1 clean
    have top := t.turns_emit capacity id inner first (fun v here => cells v (.inl here)) items
    simp only [Group.need, Term.needOfList, Group.value, Term.values, Nat.zero_add,
      ← Nat.add_max_add_left]
    refine .andThen clean top ?_
    cases joint : operator.joint? with
    | some i =>
        simp only [joint] at later
        exact Term.turns_emitList capacity rest joint id inner later
          (fun v there => cells v (.inr there)) _ items
    | none =>
        obtain rfl : rest = [] :=
          List.eq_nil_of_length_eq_zero (Nat.succ.inj (Operator.length_eq_one joint fits))
        rw [Term.values, Operator.join_singleton]
        exact .nil (Nat.le_succ _)
termination_by structural e

theorem Term.turns_emit {m : Memory} (capacity : Nat) (t : Term) (id levels : Nat)
    (clean : (t.emit id levels).failure = none)
    (cells : ∀ v ∈ t.leaves, v.index < m.cells v.category) (items : List Bool) :
    m.Turns capacity (t.emit id levels).operations (items.length + t.need) items
      (t.value m.bitOf :: items) :=
  match t with
  | .empty _ => by simp [Term.emit, Emission.fail] at clean
  | .leaf inverted v => by
    simp only [Term.emit, Term.leaves, List.mem_singleton, forall_eq] at clean cells ⊢
    simpa only [Nat.max_zero, Term.value, Term.need] using
      (Memory.Turns.access cells items).andThen clean (.invertIf inverted _ items)
  | .group inverted g => by
    simp only [Term.emit, Term.leaves] at clean cells ⊢
    have inner := g.turns_emit capacity levels (Emission.failure_andThen.1 clean).1 cells items
    simpa only [Nat.max_zero, Term.value, Term.need] using
      inner.andThen clean (.invertIf inverted _ items)
termination_by structural t

/-- The terms after the first. Each is joined to the value of those before. -/
theorem Term.turns_emitList {m : Memory} (capacity : Nat) (ts : List Term)
    {operator : Operator} {i : Instruction} (joint : operator.joint? = some i) (id levels : Nat)
    (clean : (Term.emitList ts id (some i) (some i) levels).failure = none)
    (cells : ∀ v ∈ Term.leavesOfList ts, v.index < m.cells v.category) (b : Bool)
    (items : List Bool) :
    m.Turns capacity (Term.emitList ts id (some i) (some i) levels).operations
      (items.length + Term.needOfList ts 1) (b :: items)
      (operator.join (b :: Term.values m.bitOf ts) :: items) :=
  match ts with
  | [] => by
    rw [Term.values, Operator.join_singleton]
    exact .nil (Nat.le_succ _)
  | t :: rest => by
    simp only [Term.emitList, Term.leavesOfList, List.mem_append] at clean cells ⊢
    obtain ⟨first, later⟩ := Emission.failure_andThen.1 clean
    obtain ⟨-, last⟩ := Emission.failure_andThen.1 later
    have top := t.turns_emit capacity id levels first (fun v here => cells v (.inl here))
      (b :: items)
    have below := Term.turns_emitList capacity rest joint id levels last
      (fun v there => cells v (.inr there)) (operator.join [b, t.value m.bitOf]) items
    -- The term stands above `b` until both are joined, so it has one place less.
    rw [Operator.join_join joint] at below
    have room : items.length + Term.needOfList (t :: rest) 1 =
        max ((b :: items).length + t.need) (max 0 (items.length + Term.needOfList rest 1)) := by
      simp only [Term.needOfList, List.length_cons]
      omega
    rw [room]
    exact .andThen clean top (.andThen later (.joint joint b _ items) below)
termination_by structural ts

end

/-- The operations of a tree put its value on the empty stack. -/
theorem Group.turns_code {e : Expression} (clean : e.code.failure = none) {m : Memory}
    (cells : ∀ v ∈ e.leaves, v.index < m.cells v.category) (capacity : Nat) :
    m.Turns capacity e.code.operations e.need [] [e.value m.bitOf] := by
  have turns := e.turns_emit capacity maxLevels clean cells []
  rwa [List.length_nil, Nat.zero_add] at turns

/-- The operations of a tree run on their own. They give the value of the tree if the stack has
the room that the tree needs, and overflow otherwise, and the memory looks the same as before. -/
theorem Group.execute_code {e : Expression} {ops : List Operation}
    (compiled : e.code.toExcept = .ok ops) {m : Memory}
    (cells : ∀ v ∈ e.leaves, v.index < m.cells v.category) (capacity : Nat) :
    (m.execute capacity ops).1 =
        (if e.need ≤ capacity then .ok (e.value m.bitOf) else .error (.stackOverflow capacity)) ∧
      (m.execute capacity ops).2.Same m := by
  obtain ⟨clean, rfl⟩ := Emission.toExcept_eq_ok.1 compiled
  obtain ⟨n, same, run⟩ := e.turns_emit capacity maxLevels clean cells [] m .empty (.refl m)
    Stack.toList_empty
  rw [List.length_nil, Nat.zero_add] at run
  unfold Memory.execute
  split at run
  · rename_i room
    obtain ⟨t, run, held⟩ := run
    obtain ⟨u, pop, -⟩ := Stack.pop_of_cons held
    have one : t.size = 1 := by rw [← Stack.length_toList, held, List.length_singleton]
    simp only [Group.code, run, one, pop, Except.map, if_true, if_pos room]
    exact ⟨trivial, same⟩
  · rename_i full
    simp only [Group.code, run, if_neg full]
    exact ⟨trivial, same⟩

/-- The tree of `a | !(b & !c)`, all three being inputs. -/
def mixedTree : Expression :=
  ⟨1, .or,
    [.leaf false (.plain "a" .input 0),
      .group true ⟨2, .and, [.leaf false (.plain "b" .input 1), .leaf true (.plain "c" .input 2)],
        none, .assign⟩],
    none, .assign⟩

def mixedCode : List Operation :=
  [⟨.readInput, 0⟩, ⟨.readInput, 1⟩, ⟨.readInput, 2⟩, .logic .not, .logic .and, .logic .not,
    .logic .or]

/-- The group is worked out above the value of `a`, which takes three places. -/
theorem execute_mixedTree :
    mixedTree.code.toExcept = .ok mixedCode ∧
      (∀ v ∈ mixedTree.leaves, v.index < (Memory.fresh 3 0 0 0).cells v.category) ∧
      ((Memory.fresh 3 0 0 0).execute 3 mixedCode).1 = .ok true ∧
      ((Memory.fresh 3 0 0 0).execute 2 mixedCode).1 = .error (.stackOverflow 2) := by
  have compiled : mixedTree.code.toExcept = .ok mixedCode := rfl
  have cells : ∀ v ∈ mixedTree.leaves, v.index < (Memory.fresh 3 0 0 0).cells v.category := by
    decide
  have off : (Memory.fresh 3 0 0 0).bitOf = fun _ => false := by
    funext v
    rcases v with ⟨_, _ | _ | _ | _, _, _⟩ <;>
      simp [Memory.bitOf, Memory.value, Memory.row, Memory.fresh]
  refine ⟨compiled, cells, ?_, ?_⟩
  · rw [(Group.execute_code compiled cells 3).1, off]
    rfl
  · rw [(Group.execute_code compiled cells 2).1]
    rfl

end RelayLogic
