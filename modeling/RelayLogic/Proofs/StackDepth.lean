import Mathlib
import RelayLogic.Proofs.Board

/-! Whether and how a run faults. It takes a counter to tell: how deep the stack gets, and which
cells there are. No operation looks at a bit to decide where to go, so what the cells hold makes no
difference. -/
namespace RelayLogic

namespace Operation

/-- The depth of the stack after an operation, or the fault in which the operation ends. -/
def depthAfter (cells : Category → Nat) (capacity depth : Nat) (op : Operation) :
    Except Fault Nat :=
  match op.instruction.access? with
  | some (.read, c) =>
    if cells c ≤ op.argument then .error (.indexOutOfBounds c op.argument (cells c))
    else if depth = capacity then .error (.stackOverflow capacity)
    else .ok (depth + 1)
  | some (_, c) =>
    if depth = 0 then .error .stackEmpty
    else if cells c ≤ op.argument then .error (.indexOutOfBounds c op.argument (cells c))
    else .ok (depth - 1)
  | none =>
    if op.instruction = .not then if depth = 0 then .error .stackEmpty else .ok depth
    else if depth < 2 then .error .stackEmpty else .ok (depth - 1)

variable {cells : Category → Nat} {capacity depth after : Nat} {op : Operation}

/-- A step that does not fault changes the depth as its instruction is said to, and leaves it
within the capacity. -/
theorem depthAfter_effect (h : op.depthAfter cells capacity depth = .ok after) :
    (after : Int) = depth + op.instruction.stackEffect ∧ (depth ≤ capacity → after ≤ capacity) := by
  unfold depthAfter at h
  unfold Instruction.stackEffect
  split at h <;> grind

/-- The depth in which operations end is the sum of their effects. -/
theorem foldlM_depthAfter {ops : List Operation}
    (h : ops.foldlM (depthAfter cells capacity) depth = .ok after) :
    (after : Int) = depth + (ops.map (·.instruction.stackEffect)).sum := by
  induction ops generalizing depth with
  | nil =>
    cases h
    simp
  | cons op rest ih =>
    rw [List.foldlM_cons] at h
    cases stepped : op.depthAfter cells capacity depth with
    | error fault => simp [stepped, bind, Except.bind] at h
    | ok between =>
      simp only [stepped, bind, Except.bind] at h
      have counted := ih h
      rw [(depthAfter_effect stepped).1] at counted
      rw [List.map_cons, List.sum_cons, counted, Int.add_assoc]

end Operation

namespace Board

variable {capacity : Nat} {bits : List Bool}

/-- Whether there is a cell is told by its index. -/
theorem get_cases (x : Board) (c : Category) (index : Nat) :
    (x.counts c ≤ index ∧ x.get c index = .error (.indexOutOfBounds c index (x.counts c))) ∨
      (¬x.counts c ≤ index ∧ ∃ b, x.get c index = .ok b) := by
  rcases Nat.lt_or_ge index (x.counts c) with inside | outside
  · exact .inr ⟨Nat.not_le_of_lt inside, _, get_eq_ok_iff.2 (List.getElem?_eq_getElem inside)⟩
  · exact .inl ⟨outside, get_of_le outside⟩

/-- What the counter says of a step is what the step does, whatever the bits are. -/
theorem depth_step (x : Board) (op : Operation) (room : bits.length ≤ capacity) :
    (x.step capacity op bits).1.map List.length =
      op.depthAfter x.counts capacity bits.length := by
  unfold step Operation.depthAfter
  rcases accessed : op.instruction.access? with _ | ⟨a, c⟩
  · cases named : op.instruction with
    | not => rcases bits with _ | ⟨b, bits⟩ <;> rfl
    | and | or => rcases bits with _ | ⟨right, _ | ⟨left, bits⟩⟩ <;> rfl
    | _ => simp [named, Instruction.access?] at accessed
  have cell := x.get_cases c op.argument
  cases a with
  | read =>
    obtain ⟨outside, missing⟩ | ⟨inside, b, found⟩ := cell
    · simp only [missing, if_pos outside, Except.map]
    · by_cases full : bits.length = capacity
      · simp [found, inside, full, Except.map]
      · simp [found, inside, full, Nat.lt_of_le_of_ne room full, Except.map]
  | write | set | reset =>
    -- The value is popped before the index is looked at, so an empty stack is the first fault.
    rcases bits with _ | ⟨b, bits⟩
    · rfl
    · obtain ⟨outside, missing⟩ | ⟨inside, b, found⟩ := cell
      · simp [missing, outside, Except.map]
      · simp [found, inside, Except.map]

/-- So it is with a run. -/
theorem depth_interpret (x : Board) (room : bits.length ≤ capacity) (ops : List Operation) :
    (x.interpret capacity bits ops).1.map List.length =
      ops.foldlM (Operation.depthAfter x.counts capacity) bits.length := by
  induction ops generalizing x bits with
  | nil => rfl
  | cons op rest ih =>
    have stepped := x.depth_step op room
    have kept := x.counts_step capacity op bits
    rw [List.foldlM_cons, ← stepped, interpret]
    rcases result : x.step capacity op bits with ⟨fault | bits', y⟩
    · rfl
    · rw [result] at stepped kept
      rw [← kept]
      exact ih y ((Operation.depthAfter_effect stepped.symm).2 room)

end Board

namespace Memory

/-- A run that got to its end at some depth. Anything but the one expected is a fault. -/
def endAt (expected depth : Nat) : Except Fault Unit :=
  if depth = expected then .ok () else .error (.wrongDepth depth expected)

/-- The counter over a run from the empty stack. -/
theorem depth_interpret (m : Memory) (capacity : Nat) (ops : List Operation) :
    (m.interpret (Stack.empty : Stack Bool capacity) ops).1.map Stack.size =
      ops.foldlM (Operation.depthAfter m.cells capacity) 0 := by
  have counted : m.board.counts = m.cells := funext m.length_board
  have seen := m.interpret_board (Stack.empty : Stack Bool capacity) ops
  have room : ([] : List Bool).length ≤ capacity := Nat.zero_le capacity
  have depths := m.board.depth_interpret room ops
  rw [Stack.toList_empty] at seen
  rw [← seen, counted] at depths
  refine Eq.trans ?_ depths
  rcases m.interpret (Stack.empty : Stack Bool capacity) ops with ⟨fault | s, n⟩
  · rfl
  · exact congrArg Except.ok s.length_toList.symm

theorem execute_ends (m : Memory) (capacity : Nat) (ops : List Operation) :
    (m.execute capacity ops).1.map (fun _ => ()) =
      (ops.foldlM (Operation.depthAfter m.cells capacity) 0).bind (endAt 1) := by
  rw [← m.depth_interpret]
  unfold execute
  rcases m.interpret (Stack.empty : Stack Bool capacity) ops with ⟨fault | s, n⟩
  · rfl
  · rcases s with ⟨slots, _ | _ | size, bound⟩ <;> rfl

theorem run_ends (m : Memory) (capacity : Nat) (ops : List Operation) :
    (m.run capacity ops).1 =
      (ops.foldlM (Operation.depthAfter m.cells capacity) 0).bind (endAt 0) := by
  rw [← m.depth_interpret]
  unfold run
  rcases m.interpret (Stack.empty : Stack Bool capacity) ops with ⟨fault | s, n⟩
  · rfl
  · simp only [Except.map, Except.bind, endAt, Stack.isEmpty, decide_eq_true_eq]
    split <;> rfl

theorem eq_error_of_map {result : Except Fault Bool} {fault : Fault}
    (h : result.map (fun _ => ()) = .error fault) : result = .error fault := by
  cases result with
  | error fault' => exact congrArg Except.error (Except.error.inj h)
  | ok b => cases h

/-- A result with its value left out still tells how a run ended. -/
theorem ended_iff {result : Except Fault Bool} {depth : Nat} :
    result.map (fun _ => ()) = endAt 1 depth ↔
      if depth = 1 then ∃ b, result = .ok b else result = .error (.wrongDepth depth 1) := by
  unfold endAt
  rcases result with fault | b <;> split <;> simp [Except.map]

/-- How a run ends is told by its operations, the capacity and how many cells there are. What the
cells hold decides only which value it leaves. -/
theorem outcome_of_operations (m : Memory) (capacity : Nat) (ops : List Operation) :
    (match ops.foldlM (Operation.depthAfter m.cells capacity) 0 with
      | .error fault =>
        (m.execute capacity ops).1 = .error fault ∧ (m.run capacity ops).1 = .error fault
      | .ok depth =>
        (depth : Int) = (ops.map (·.instruction.stackEffect)).sum ∧
        (if depth = 1 then ∃ b, (m.execute capacity ops).1 = .ok b
          else (m.execute capacity ops).1 = .error (.wrongDepth depth 1)) ∧
        (m.run capacity ops).1 = if depth = 0 then .ok () else .error (.wrongDepth depth 0)) ∧
    ∀ n : Memory, (∀ c, n.cells c = m.cells c) →
      (n.execute capacity ops).1.map (fun _ => ()) =
        (m.execute capacity ops).1.map (fun _ => ()) ∧
      (n.run capacity ops).1 = (m.run capacity ops).1 := by
  have executed := m.execute_ends capacity ops
  have ran := m.run_ends capacity ops
  refine ⟨?_, fun n counted => ?_⟩
  · cases counter : ops.foldlM (Operation.depthAfter m.cells capacity) 0 with
    | error fault =>
      rw [counter] at executed ran
      exact ⟨eq_error_of_map executed, ran⟩
    | ok depth =>
      rw [counter] at executed ran
      exact ⟨by simpa using Operation.foldlM_depthAfter counter, ended_iff.1 executed, ran⟩
  · have same : n.cells = m.cells := funext counted
    rw [n.execute_ends, n.run_ends, same]
    exact ⟨executed.symm, ran.symm⟩

/-- A run that leaves another value where another input is on, and ends as well. -/
theorem outcome_of_operations_with_other_cells :
    let ops : List Operation := [⟨.readInput, 0⟩, ⟨.writeOutput, 0⟩, ⟨.readOutput, 0⟩]
    let m := fresh 1 1 0 0
    let n := m.put .input 0 true
    (∀ c, n.cells c = m.cells c) ∧
      (n.execute 1 ops).1.map (fun _ => ()) = (m.execute 1 ops).1.map (fun _ => ()) ∧
      (n.run 1 ops).1 = (m.run 1 ops).1 := by
  intro ops m n
  have counted : ∀ c, n.cells c = m.cells c := fun c => cells_put ..
  exact ⟨counted, (m.outcome_of_operations 1 ops).2 n counted⟩

end Memory

end RelayLogic
