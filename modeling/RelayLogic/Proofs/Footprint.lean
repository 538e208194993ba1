import RelayLogic.Proofs.Execution

/-! What a run may change. A step changes the value of one cell at most, the one that its store
names, and a step that faults changes none. So the cells that no operation of a run stores in keep
their values however the run ends, and after a fault all cells are as the operations before the
faulty one left them. -/
namespace RelayLogic

/-- `op.Stores a c index`: the operation stores in this cell, by this access. -/
def Operation.Stores (op : Operation) (a : Access) (c : Category) (index : Nat) : Prop :=
  op.instruction.access? = some (a, c) ∧ a ≠ .read ∧ op.argument = index

/-- Inputs are only read. -/
theorem Operation.not_stores_input (op : Operation) (a : Access) (index : Nat) :
    ¬op.Stores a .input index := by
  rintro ⟨accesses, writes, -⟩
  have found := Instruction.ofAccess?_eq_some_iff.2 accesses
  cases a with
  | read => exact writes rfl
  | write | set | reset => cases found

namespace Memory

variable {capacity : Nat}

/-- A cell that is loaded is there, and loading it does not show. -/
theorem same_of_load {m n : Memory} {c : Category} {index : Nat} {b : Bool}
    (h : m.load c index = .ok (b, n)) : index < m.cells c ∧ n.Same m := by
  by_cases inside : index < m.cells c
  · obtain ⟨k, load, same⟩ := load_of_lt inside
    rw [load] at h
    cases h
    exact ⟨inside, same⟩
  · rw [load, if_neg inside] at h
    cases h

theorem same_of_store {m n : Memory} {a : Access} {c : Category} {index : Nat} {b : Bool}
    (h : m.store a c index b = .ok n) :
    n.Same (m.put c index (stored a (m.value c index) b)) := by
  have inside : index < m.cells c := by
    cases loaded : m.load c index with
    | error fault => simp [store, loaded, bind, Except.bind] at h
    | ok found => exact (same_of_load loaded).1
  obtain ⟨k, stores, same⟩ := store_of_lt inside a b
  rw [h] at stores
  cases stores
  exact same

/-- A step leaves the memory as it was, as far as can be seen, or it ends well and has stored a
value in the cell that it names. -/
theorem step_changes (m : Memory) (op : Operation) (s : Stack Bool capacity) :
    (m.step op s).2.Same m ∨
      ∃ a c b t, op.Stores a c op.argument ∧ (m.step op s).1 = .ok t ∧
        (m.step op s).2.Same (m.put c op.argument (stored a (m.value c op.argument) b)) := by
  rcases accessed : op.instruction.access? with _ | ⟨a, c⟩
  · simp only [step, accessed]
    exact .inl (.refl m)
  cases a with
  | read =>
      simp only [step, accessed]
      rcases loaded : m.load c op.argument with fault | ⟨b, n⟩
      · exact .inl (.refl m)
      · exact .inl (same_of_load loaded).2
  | write | set | reset =>
      -- The three differ only in what they leave in the cell.
      simp only [step, accessed]
      rcases popped : s.pop with fault | ⟨b, t⟩
      · exact .inl (.refl m)
      · dsimp only
        split
        · exact .inl (.refl m)
        · rename_i n stores
          exact .inr ⟨_, c, b, t, ⟨accessed, by simp, rfl⟩, rfl, same_of_store stores⟩

theorem same_of_step_error {m : Memory} {op : Operation} {s : Stack Bool capacity} {fault : Fault}
    (h : (m.step op s).1 = .error fault) : (m.step op s).2.Same m := by
  obtain same | ⟨a, c, b, t, -, ends, -⟩ := m.step_changes op s
  · exact same
  · rw [h] at ends
    cases ends

theorem cells_step (m : Memory) (op : Operation) (s : Stack Bool capacity) (c : Category) :
    (m.step op s).2.cells c = m.cells c := by
  obtain same | ⟨a, d, b, t, -, -, same⟩ := m.step_changes op s
  · exact same.cells c
  · exact (same.cells c).trans (cells_put ..)

/-- What a step makes of one cell. -/
theorem value_step (m : Memory) (op : Operation) (s : Stack Bool capacity) (c : Category)
    (index : Nat) :
    (m.step op s).2.value c index = m.value c index ∨
      ∃ a b, op.Stores a c index ∧
        (m.step op s).2.value c index = stored a (m.value c index) b := by
  obtain same | ⟨a, d, b, t, stores, -, same⟩ := m.step_changes op s
  · exact .inl (same.values c index)
  · rw [same.values, value_put]
    split
    · rename_i here
      obtain ⟨rfl, rfl⟩ := here
      exact .inr ⟨a, b, stores, rfl⟩
    · exact .inl rfl

theorem cells_interpret (m : Memory) (s : Stack Bool capacity) (ops : List Operation)
    (c : Category) : (m.interpret s ops).2.cells c = m.cells c := by
  induction ops generalizing m s with
  | nil => rfl
  | cons op rest ih =>
      have kept := m.cells_step op s c
      unfold interpret
      rcases stepped : m.step op s with ⟨fault | t, n⟩ <;> rw [stepped] at kept
      · exact kept
      · exact (ih n t).trans kept

/-- A cell keeps a value that none of the stores in it can take away. -/
theorem value_interpret {c : Category} {index : Nat} {bit : Bool} {ops : List Operation}
    (keeps : ∀ op ∈ ops, ∀ a, op.Stores a c index → ∀ b, stored a bit b = bit) {m : Memory}
    (held : m.value c index = bit) (s : Stack Bool capacity) :
    (m.interpret s ops).2.value c index = bit := by
  induction ops generalizing m s with
  | nil => exact held
  | cons op rest ih =>
      obtain ⟨here, there⟩ := List.forall_mem_cons.1 keeps
      have first : (m.step op s).2.value c index = bit := by
        obtain kept | ⟨a, b, stores, changed⟩ := m.value_step op s c index
        · rw [kept, held]
        · rw [changed, held]
          exact here a stores b
      unfold interpret
      rcases stepped : m.step op s with ⟨fault | t, n⟩ <;> rw [stepped] at first
      · exact first
      · exact ih there first t

/-- The memory that the first `k` of some operations leave, or those of them before a fault. -/
def upTo (m : Memory) (s : Stack Bool capacity) (ops : List Operation) (k : Nat) : Memory :=
  (m.interpret s (ops.take k)).2

theorem upTo_length (m : Memory) (s : Stack Bool capacity) (ops : List Operation) :
    m.upTo s ops ops.length = (m.interpret s ops).2 := by
  rw [upTo, List.take_length]

/-- So it is from any moment of a run to any later one. -/
theorem value_upTo {c : Category} {index : Nat} {bit : Bool} {ops : List Operation}
    (keeps : ∀ op ∈ ops, ∀ a, op.Stores a c index → ∀ b, stored a bit b = bit) (m : Memory)
    (s : Stack Bool capacity) {i j : Nat} (le : i ≤ j)
    (held : (m.upTo s ops i).value c index = bit) : (m.upTo s ops j).value c index = bit := by
  have cut : ops.take j = ops.take i ++ (ops.take j).drop i := by
    have front : (ops.take j).take i = ops.take i := by rw [List.take_take, Nat.min_eq_left le]
    rw [← front, List.take_append_drop]
  unfold upTo at held ⊢
  rw [cut, interpret_append]
  rcases before : m.interpret s (ops.take i) with ⟨fault | t, n⟩ <;> rw [before] at held
  · exact held
  · -- What comes later is a run of its own, from where the first `i` operations left off.
    refine value_interpret (fun op member => keeps op ?_) held t
    exact List.mem_of_mem_take (List.mem_of_mem_drop member)

/-- `m.FaultsAt s ops k fault`: the first `k` operations run to their end, and the one after them
faults. -/
def FaultsAt (m : Memory) (s : Stack Bool capacity) (ops : List Operation) (k : Nat)
    (fault : Fault) : Prop :=
  ∃ (op : Operation) (t : Stack Bool capacity) (n : Memory), ops[k]? = some op ∧
    m.interpret s (ops.take k) = (.ok t, n) ∧ (n.step op t).1 = .error fault

/-- A run that faults somewhere ends there, and the faulty operation has no part in what is left. -/
theorem FaultsAt.interpret {m : Memory} {s : Stack Bool capacity} {ops : List Operation} {k : Nat}
    {fault : Fault} (h : m.FaultsAt s ops k fault) :
    (m.interpret s ops).1 = .error fault ∧ (m.interpret s ops).2.Same (m.upTo s ops k) := by
  obtain ⟨op, t, n, here, before, faults⟩ := h
  have same := same_of_step_error faults
  have cut : ops.take k ++ op :: ops.drop (k + 1) = ops := by
    obtain ⟨inside, rfl⟩ := List.getElem?_eq_some_iff.1 here
    rw [← List.drop_eq_getElem_cons, List.take_append_drop]
  have ends : m.interpret s (ops.take k ++ op :: ops.drop (k + 1)) =
      (.error fault, (n.step op t).2) := by
    rw [interpret_append, before]
    rcases stepped : n.step op t with ⟨fault' | u, n'⟩ <;> rw [stepped] at faults
    · cases faults
      simp only [Memory.interpret, stepped]
    · cases faults
  rw [cut] at ends
  rw [ends, upTo, before]
  exact ⟨rfl, same⟩

/-- A run that faults does so at one of its operations. -/
theorem exists_faultsAt {m : Memory} {s : Stack Bool capacity} {ops : List Operation}
    {fault : Fault} (h : (m.interpret s ops).1 = .error fault) : ∃ k, m.FaultsAt s ops k fault := by
  induction ops generalizing m s with
  | nil => cases h
  | cons op rest ih =>
      rcases stepped : m.step op s with ⟨fault' | t, n⟩
      · refine ⟨0, op, s, m, rfl, rfl, ?_⟩
        simpa only [interpret, stepped] using h
      · obtain ⟨k, op', u, n', here, before, faults⟩ := ih (by simpa only [interpret, stepped] using h)
        refine ⟨k + 1, op', u, n', here, ?_, faults⟩
        simpa only [List.take_succ_cons, interpret, stepped] using before

/-- How a run concludes. A depth other than the one expected is a fault, and no other fault comes
about at the end; the memory stays as the operations left it. -/
structure Concludes {α : Type} (ran : Except Fault (Stack Bool capacity) × Memory) (expected : Nat)
    (result : Except Fault α × Memory) : Prop where
  memory : result.2 = ran.2
  error_iff : ∀ fault, result.1 = .error fault ↔ ran.1 = .error fault ∨
    ∃ t, ran.1 = .ok t ∧ t.size ≠ expected ∧ fault = .wrongDepth t.size expected

theorem concludes_execute (m : Memory) (capacity : Nat) (ops : List Operation) :
    Concludes (m.interpret (.empty : Stack Bool capacity) ops) 1 (m.execute capacity ops) := by
  unfold execute
  rcases m.interpret (.empty : Stack Bool capacity) ops with ⟨fault | t, n⟩
  · exact ⟨rfl, by simp⟩
  · rcases t with ⟨slots, _ | _ | size, bound⟩
    · exact ⟨rfl, by simp [eq_comm]⟩
    · exact ⟨rfl, by simp [Stack.pop, Stack.tryPop, Except.map]⟩
    · exact ⟨rfl, by simp [eq_comm]⟩

theorem concludes_run (m : Memory) (capacity : Nat) (ops : List Operation) :
    Concludes (m.interpret (.empty : Stack Bool capacity) ops) 0 (m.run capacity ops) := by
  unfold run
  rcases m.interpret (.empty : Stack Bool capacity) ops with ⟨fault | t, n⟩
  · exact ⟨rfl, by simp⟩
  · rcases t with ⟨slots, _ | size, bound⟩
    · exact ⟨rfl, by simp [Stack.isEmpty]⟩
    · exact ⟨rfl, by simp [Stack.isEmpty, eq_comm]⟩

namespace Concludes

variable {α : Type} {m : Memory} {s : Stack Bool capacity} {ops : List Operation} {expected : Nat}
  {result : Except Fault α × Memory} {fault : Fault}

theorem of_faultsAt (h : Concludes (m.interpret s ops) expected result) {k : Nat}
    (faults : m.FaultsAt s ops k fault) :
    result.1 = .error fault ∧ result.2.Same (m.upTo s ops k) := by
  obtain ⟨ends, same⟩ := faults.interpret
  rw [h.memory]
  exact ⟨(h.error_iff fault).2 (.inl ends), same⟩

theorem faultsAt (h : Concludes (m.interpret s ops) expected result)
    (failed : result.1 = .error fault) :
    (∃ k, m.FaultsAt s ops k fault) ∨ ∃ depth, fault = .wrongDepth depth expected := by
  obtain faults | ⟨t, -, -, rfl⟩ := (h.error_iff fault).1 failed
  · exact .inl (exists_faultsAt faults)
  · exact .inr ⟨t.size, rfl⟩

end Concludes

/-- A run changes no cells but those that its operations store in, and no input. A cell that is only
set never goes off, and one that is only reset never goes on. A fault at one of the operations ends
the run with all cells as the operations before it left them, and a fault at none of them is a wrong
depth at the end. -/
theorem changes_only_stored (m : Memory) (capacity : Nat) (ops : List Operation) :
    let s : Stack Bool capacity := .empty
    (m.execute capacity ops).2 = m.upTo s ops ops.length ∧
    (m.run capacity ops).2 = m.upTo s ops ops.length ∧
    (∀ k c, (m.upTo s ops k).cells c = m.cells c) ∧
    (∀ c index, (∀ op ∈ ops, ∀ a, ¬op.Stores a c index) →
      ∀ k, (m.upTo s ops k).value c index = m.value c index) ∧
    (∀ k index, (m.upTo s ops k).value .input index = m.value .input index) ∧
    (∀ c index, (∀ op ∈ ops, ∀ a, op.Stores a c index → a = .set) → ∀ i j, i ≤ j →
      (m.upTo s ops i).value c index = true → (m.upTo s ops j).value c index = true) ∧
    (∀ c index, (∀ op ∈ ops, ∀ a, op.Stores a c index → a = .reset) → ∀ i j, i ≤ j →
      (m.upTo s ops i).value c index = false → (m.upTo s ops j).value c index = false) ∧
    (∀ k fault, m.FaultsAt s ops k fault →
      ((m.execute capacity ops).1 = .error fault ∧
        (m.execute capacity ops).2.Same (m.upTo s ops k)) ∧
      (m.run capacity ops).1 = .error fault ∧ (m.run capacity ops).2.Same (m.upTo s ops k)) ∧
    (∀ fault, (m.execute capacity ops).1 = .error fault →
      (∃ k, m.FaultsAt s ops k fault) ∨ ∃ depth, fault = .wrongDepth depth 1) ∧
    ∀ fault, (m.run capacity ops).1 = .error fault →
      (∃ k, m.FaultsAt s ops k fault) ∨ ∃ depth, fault = .wrongDepth depth 0 := by
  intro s
  have executed := m.concludes_execute capacity ops
  have ran := m.concludes_run capacity ops
  have kept (c : Category) (index : Nat) (untouched : ∀ op ∈ ops, ∀ a, ¬op.Stores a c index)
      (k : Nat) : (m.upTo s ops k).value c index = m.value c index := by
    refine value_upTo ?_ m s (Nat.zero_le k) rfl
    intro op member a stores
    exact absurd stores (untouched op member a)
  refine ⟨?_, ?_, fun k c => m.cells_interpret s _ c, kept, ?_, ?_, ?_, ?_, ?_, ?_⟩
  · rw [upTo_length, executed.memory]
  · rw [upTo_length, ran.memory]
  · exact fun k index => kept .input index (fun op _ a => op.not_stores_input a index) k
  · intro c index only i j le
    apply value_upTo _ m s le
    intro op member a stores b
    rw [only op member a stores, stored, Bool.true_or]
  · intro c index only i j le
    apply value_upTo _ m s le
    intro op member a stores b
    rw [only op member a stores, stored, Bool.false_and]
  · exact fun k fault faults => ⟨executed.of_faultsAt faults, ran.of_faultsAt faults⟩
  · exact fun fault failed => executed.faultsAt failed
  · exact fun fault failed => ran.faultsAt failed

/-- A flag is set from an input before a store that finds no cell. -/
def strayStore : List Operation :=
  [⟨.readInput, 0⟩, ⟨.setFlag, 0⟩, ⟨.readInput, 0⟩, ⟨.writeOutput, 7⟩, ⟨.resetFlag, 0⟩]

/-- The fault is at position 3. The flag stays on, and neither the store without a cell nor the one
after it has changed anything. -/
theorem changes_only_stored_strayStore :
    let m := (fresh 1 1 1 0).put .input 0 true
    let s : Stack Bool 1 := .empty
    let n := (m.execute 1 strayStore).2
    m.FaultsAt s strayStore 3 (.indexOutOfBounds .output 7 1) ∧
      (m.execute 1 strayStore).1 = .error (.indexOutOfBounds .output 7 1) ∧
      n.Same (m.upTo s strayStore 3) ∧ n.value .flag 0 = true ∧
      (∀ op ∈ strayStore, ∀ a, ¬op.Stores a .output 0) ∧ n.value .output 0 = false := by
  intro m s n
  obtain ⟨executed, -, -, untouched, -, -, -, faulty, -⟩ := m.changes_only_stored 1 strayStore
  have faults : m.FaultsAt s strayStore 3 (.indexOutOfBounds .output 7 1) :=
    ⟨⟨.writeOutput, 7⟩, _, _, rfl, rfl, rfl⟩
  obtain ⟨⟨ends, same⟩, -⟩ := faulty 3 _ faults
  have others : ∀ op ∈ strayStore, ∀ a, ¬op.Stores a .output 0 := by
    simp [strayStore, Operation.Stores, Instruction.access?]
  refine ⟨faults, ends, same, ?_, others, ?_⟩
  · rw [same.values]
    rfl
  · change (m.execute 1 strayStore).2.value .output 0 = false
    rw [executed, untouched .output 0 others]
    rfl

end Memory

end RelayLogic
