import RelayLogic.Proofs.Board

/-! More room on the stack. The same operations on the same memory, once with less room and once
with more: until the smaller stack overflows both hold the same items, and the memories are one and
the same. So a run that does not overflow comes out the same however much room is added. -/
namespace RelayLogic

variable {small large : Nat}

/-- How a run with less room and one with more may end: the first overflows, or both fault in the
same way, or both end well with the same items on their stacks. The memories are the same. -/
inductive EndsAlike :
    Except Fault (Stack Bool small) × Memory → Except Fault (Stack Bool large) × Memory → Prop
  | overflow (n : Memory) (result : Except Fault (Stack Bool large) × Memory) :
      EndsAlike (.error (.stackOverflow small), n) result
  | fault (fault : Fault) (n : Memory) : EndsAlike (.error fault, n) (.error fault, n)
  | held {s : Stack Bool small} {t : Stack Bool large} (same : t.toList = s.toList) (n : Memory) :
      EndsAlike (.ok s, n) (.ok t, n)

theorem EndsAlike.of_map {result : Except Fault (Stack Bool small)}
    {result' : Except Fault (Stack Bool large)}
    (same : result'.map Stack.toList = result.map Stack.toList) (m : Memory) :
    EndsAlike (result, m) (result', m) := by
  rcases result with fault | s <;> rcases result' with fault' | t
  · cases same
    exact .fault fault m
  · cases same
  · cases same
  · exact .held (Except.ok.inj same) m

namespace Stack

variable {s : Stack Bool small} {t : Stack Bool large}

theorem size_alike (same : t.toList = s.toList) : t.size = s.size := by
  rw [← t.length_toList, same, s.length_toList]

theorem top_alike (same : t.toList = s.toList) : t.pop.map Prod.fst = s.pop.map Prod.fst := by
  rcases held : s.toList with _ | ⟨b, rest⟩ <;> rw [held] at same
  · rw [pop_of_nil held, pop_of_nil same]
    rfl
  · obtain ⟨s', pop, -⟩ := pop_of_cons held
    obtain ⟨t', pop', -⟩ := pop_of_cons same
    rw [pop, pop']
    rfl

end Stack

namespace Memory

variable {s : Stack Bool small} {t : Stack Bool large}

theorem push_alike (le : small ≤ large) (same : t.toList = s.toList) (b : Bool) (m : Memory) :
    EndsAlike (s.push b, m) (t.push b, m) := by
  by_cases room : s.toList.length < small
  · have room' : s.toList.length < large := Nat.lt_of_lt_of_le room le
    apply EndsAlike.of_map
    rw [Stack.map_push, Stack.map_push, same, if_pos room, if_pos room']
  · have full : s.toList.length = small :=
      Nat.le_antisymm s.length_toList_le (Nat.le_of_not_lt room)
    rw [s.push_of_full b full]
    exact .overflow m _

/-- A step does the same to two stacks that hold the same items, as long as there is room. -/
theorem step_alike (le : small ≤ large) (same : t.toList = s.toList) (m : Memory)
    (op : Operation) : EndsAlike (m.step op s) (m.step op t) := by
  rcases accessed : op.instruction.access? with _ | ⟨a, c⟩
  · simp only [step, accessed]
    apply EndsAlike.of_map
    rw [combine_board accessed, combine_board accessed, same]
  cases a with
  | read =>
      simp only [step, accessed]
      rcases m.load c op.argument with fault | ⟨b, n⟩
      · exact .fault fault m
      · exact push_alike le same b n
  | write | set | reset =>
      simp only [step, accessed]
      rcases held : s.toList with _ | ⟨b, rest⟩ <;> rw [held] at same
      · rw [Stack.pop_of_nil held, Stack.pop_of_nil same]
        exact .fault _ m
      · obtain ⟨s', pop, below⟩ := Stack.pop_of_cons held
        obtain ⟨t', pop', below'⟩ := Stack.pop_of_cons same
        simp only [pop, pop']
        split
        · exact .fault _ m
        · exact .held (below'.trans below.symm) _

theorem interpret_alike (le : small ≤ large) (same : t.toList = s.toList) (m : Memory)
    (ops : List Operation) : EndsAlike (m.interpret s ops) (m.interpret t ops) := by
  induction ops generalizing m s t with
  | nil => exact .held same m
  | cons op rest ih =>
      have stepped := step_alike le same m op
      unfold interpret
      -- Only where both steps end well do the runs go on.
      generalize m.step op s = result, m.step op t = result' at stepped
      cases stepped with
      | overflow n result' => exact .overflow n _
      | fault fault n => exact .fault fault n
      | held same' n => exact ih same' n

/-- A run that does not overflow its stack comes out the same with more room: it gives the same
value or the same fault, and leaves the same memory. -/
theorem outcome_of_more_room (le : small ≤ large) (m : Memory) (ops : List Operation) :
    ((m.execute small ops).1 ≠ .error (.stackOverflow small) →
      m.execute large ops = m.execute small ops) ∧
    ((m.run small ops).1 ≠ .error (.stackOverflow small) → m.run large ops = m.run small ops) := by
  have ran := interpret_alike le (s := .empty) (t := .empty) (by simp) m ops
  unfold execute run
  generalize m.interpret (.empty : Stack Bool small) ops = result,
    m.interpret (.empty : Stack Bool large) ops = result' at ran
  cases ran with
  | overflow n result' => exact ⟨fun fits => absurd rfl fits, fun fits => absurd rfl fits⟩
  | fault fault n => exact ⟨fun _ => rfl, fun _ => rfl⟩
  | held same n =>
      have size := Stack.size_alike same
      refine ⟨fun _ => ?_, fun _ => ?_⟩
      · simp only [size, Stack.top_alike same]
      · simp only [Stack.isEmpty, decide_eq_true_eq, size]

/-- A run that takes one place. It gives a value, or ends at a depth that is not expected; without
the place it overflows. -/
theorem outcome_of_more_room_latch :
    let m := (fresh 1 0 1 0).put .input 0 true
    let ops : List Operation := [⟨.readInput, 0⟩, ⟨.setFlag, 0⟩, ⟨.readFlag, 0⟩]
    1 ≤ 9 ∧ (m.execute 0 ops).1 = .error (.stackOverflow 0) ∧
      (m.execute 1 ops).1 ≠ .error (.stackOverflow 1) ∧
      m.execute 9 ops = m.execute 1 ops ∧ (m.execute 9 ops).1 = .ok true ∧
      (m.run 1 ops).1 ≠ .error (.stackOverflow 1) ∧
      m.run 9 ops = m.run 1 ops ∧ (m.run 9 ops).1 = .error (.wrongDepth 1 0) := by
  intro m ops
  have executed : (m.execute 1 ops).1 = .ok true := rfl
  have ran : (m.run 1 ops).1 = .error (.wrongDepth 1 0) := rfl
  have fits : (m.execute 1 ops).1 ≠ .error (.stackOverflow 1) := by rw [executed]; nofun
  have fits' : (m.run 1 ops).1 ≠ .error (.stackOverflow 1) := by rw [ran]; nofun
  have le : 1 ≤ 9 := by decide
  obtain ⟨same, same'⟩ := outcome_of_more_room le m ops
  refine ⟨le, rfl, fits, same fits, ?_, fits', same' fits', ?_⟩
  · rw [same fits, executed]
  · rw [same' fits', ran]

end Memory

end RelayLogic
