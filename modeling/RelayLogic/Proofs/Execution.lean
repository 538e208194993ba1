import RelayLogic.Proofs.Evaluation

/-! Running equations. An equation is worked out on an empty stack and stored in the cell of its
variable, which leaves the stack empty again. Several equations take effect one after another, each
on the memory that those before it leave. -/
namespace RelayLogic

theorem Assignment.access_ne_read (assignment : Assignment) : assignment.access ≠ .read := by
  cases assignment <;> decide

namespace Memory

variable {m n : Memory}

theorem Same.put (h : m.Same n) (c : Category) (index : Nat) (b : Bool) :
    (m.put c index b).Same (n.put c index b) := by
  refine ⟨fun d => ?_, fun d j => ?_⟩
  · rw [cells_put, cells_put, h.cells d]
  · rw [value_put, value_put, h.values d j]

/-- The memory after the value of an equation was stored in the cell of its variable. -/
def perform (m : Memory) (v : Variable) (e : Expression) : Memory :=
  m.put v.category v.index (stored e.assignment.access (m.bitOf v) (e.value m.bitOf))

/-- The memory after equations took effect one after another. -/
def performAll (m : Memory) (equations : List (Variable × Expression)) : Memory :=
  equations.foldl (fun m equation => m.perform equation.1 equation.2) m

@[simp] theorem cells_perform (m : Memory) (v : Variable) (e : Expression) (c : Category) :
    (m.perform v e).cells c = m.cells c :=
  cells_put ..

@[simp] theorem cells_performAll (m : Memory) (equations : List (Variable × Expression))
    (c : Category) : (m.performAll equations).cells c = m.cells c := by
  induction equations generalizing m with
  | nil => rfl
  | cons equation rest ih => exact (ih (m.perform equation.1 equation.2)).trans (cells_perform ..)

theorem store_of_lt {c : Category} {index : Nat} (inside : index < m.cells c) (a : Access)
    (b : Bool) :
    ∃ n, m.store a c index b = .ok n ∧ n.Same (m.put c index (stored a (m.value c index) b)) := by
  obtain ⟨n, load, same⟩ := load_of_lt inside
  refine ⟨n.put c index (stored a (m.value c index) b), ?_, same.put c index _⟩
  simp only [store, load, bind, Except.bind]
  rfl

variable {capacity : Nat}

theorem step_store {i : Instruction} {a : Access} {c : Category}
    (stores : i.access? = some (a, c)) (writes : a ≠ .read) {index : Nat}
    (inside : index < m.cells c) {s : Stack Bool capacity} {b : Bool} {rest : List Bool}
    (held : s.toList = b :: rest) :
    ∃ (n : Memory) (t : Stack Bool capacity), m.step ⟨i, index⟩ s = (.ok t, n) ∧
      n.Same (m.put c index (stored a (m.value c index) b)) ∧ t.toList = rest := by
  obtain ⟨t, pop, held'⟩ := Stack.pop_of_cons held
  obtain ⟨n, store, same⟩ := store_of_lt inside a b
  refine ⟨n, t, ?_, same, held'⟩
  cases a with
  | read => exact absurd rfl writes
  | write | set | reset => simp only [step, stores, pop, store]

/-- Operations that find the stack empty and leave it empty turn one memory into another, as far as
can be seen. -/
def Effects (m : Memory) (capacity : Nat) (ops : List Operation) (after : Memory) : Prop :=
  ∀ (n : Memory) (s : Stack Bool capacity), n.Same m → s.toList = [] →
    ∃ (k : Memory) (t : Stack Bool capacity),
      n.interpret s ops = (.ok t, k) ∧ k.Same after ∧ t.toList = []

namespace Effects

theorem nil (m : Memory) (capacity : Nat) : m.Effects capacity [] m :=
  fun n s same held => ⟨n, s, rfl, same, held⟩

theorem append {between after : Memory} {first second : List Operation}
    (h : m.Effects capacity first between) (h' : between.Effects capacity second after) :
    m.Effects capacity (first ++ second) after := by
  intro n s same held
  obtain ⟨k, t, run, same, held⟩ := h n s same held
  obtain ⟨l, u, run', same, held⟩ := h' k t same held
  refine ⟨l, u, ?_, same, held⟩
  rw [interpret_append, run]
  exact run'

/-- A value is worked out on the empty stack and stored. -/
theorem store {ops : List Operation} {depth : Nat} {b : Bool}
    (turns : m.Turns capacity ops depth [] [b]) (room : depth ≤ capacity) {i : Instruction}
    {a : Access} {c : Category} (stores : i.access? = some (a, c)) (writes : a ≠ .read)
    {index : Nat} (inside : index < m.cells c) :
    m.Effects capacity (ops ++ [⟨i, index⟩]) (m.put c index (stored a (m.value c index) b)) := by
  intro n s same held
  obtain ⟨k, same', run⟩ := turns n s same held
  rw [if_pos room] at run
  obtain ⟨t, run, held'⟩ := run
  rw [← same'.cells] at inside
  obtain ⟨l, u, step, same'', empty⟩ := step_store stores writes inside held'
  rw [same'.values] at same''
  refine ⟨l, u, ?_, same''.trans (same'.put c index _), empty⟩
  rw [interpret_append, run]
  simp only [interpret, step]

theorem run {ops : List Operation} {after : Memory} (h : m.Effects capacity ops after) :
    (m.run capacity ops).1 = .ok () ∧ (m.run capacity ops).2.Same after := by
  obtain ⟨k, t, run, same, held⟩ := h m .empty (.refl m) Stack.toList_empty
  have empty : t.isEmpty = true := by
    rw [Stack.isEmpty, ← Stack.length_toList, held]
    rfl
  simp only [Memory.run, run, empty, if_true]
  exact ⟨trivial, same⟩

end Effects

/-- An equation takes effect, and the stack is as empty as before. -/
theorem effects_codeFor {v : Variable} {e : Expression} (clean : (e.codeFor v).failure = none)
    (cells : ∀ w ∈ v :: e.leaves, w.index < m.cells w.category) (room : e.need ≤ capacity) :
    m.Effects capacity (e.codeFor v).operations (m.perform v e) := by
  obtain ⟨worked, stored⟩ := Emission.failure_andThen.1 clean
  have turns := Group.turns_code worked (fun w leaf => cells w (List.mem_cons_of_mem v leaf))
    capacity
  cases found : Instruction.ofAccess? e.assignment.access v.category with
  | none => simp [Emission.access, found, Emission.fail] at stored
  | some i =>
      have stores := Instruction.ofAccess?_eq_some_iff.1 found
      rw [Group.codeFor, Emission.andThen_operations _ worked]
      simp only [Emission.access, found, Emission.one]
      exact .store turns room stores e.assignment.access_ne_read (cells v List.mem_cons_self)

theorem effects_concat {equations : List (Variable × Expression)}
    (clean : (Emission.concat
      (equations.map fun equation => equation.2.codeFor equation.1)).failure = none)
    (cells : ∀ equation ∈ equations, ∀ w ∈ equation.1 :: equation.2.leaves,
      w.index < m.cells w.category)
    (room : ∀ equation ∈ equations, equation.2.need ≤ capacity) :
    m.Effects capacity (Emission.concat
      (equations.map fun equation => equation.2.codeFor equation.1)).operations
      (m.performAll equations) := by
  induction equations generalizing m with
  | nil => exact .nil m capacity
  | cons equation rest ih =>
      obtain ⟨first, later⟩ := Emission.failure_andThen.1 clean
      rw [List.map_cons, Emission.concat, Emission.andThen_operations _ first]
      -- The others start from what the first equation leaves, which has the same cells.
      refine (effects_codeFor first (cells equation List.mem_cons_self)
        (room equation List.mem_cons_self)).append (ih later ?_ ?_)
      · intro other there w mentioned
        rw [cells_perform]
        exact cells other (List.mem_cons_of_mem equation there) w mentioned
      · exact fun other there => room other (List.mem_cons_of_mem equation there)

end Memory

/-- The operations of a program run to their end wherever there are cells and there is room for
each of its equations, and the equations have taken effect in order. -/
theorem Program.run_code {p : Program} {ops : List Operation} (compiled : p.code = .ok ops)
    {m : Memory} (cells : ∀ equation ∈ p.inOrder, ∀ w ∈ equation.1 :: equation.2.leaves,
      w.index < m.cells w.category)
    {capacity : Nat} (room : ∀ equation ∈ p.inOrder, equation.2.need ≤ capacity) :
    (m.run capacity ops).1 = .ok () ∧ (m.run capacity ops).2.Same (m.performAll p.inOrder) := by
  obtain ⟨clean, rfl⟩ := Emission.toExcept_eq_ok.1 compiled
  exact (Memory.effects_concat clean cells room).run

end RelayLogic
