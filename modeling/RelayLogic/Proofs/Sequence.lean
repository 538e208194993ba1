import RelayLogic.Proofs.Execution

/-! Programs as sequences of assignments. The compiled operations of a program turn the values of
all cells into those that its equations give when they are carried out one after another, in the
order in which their variables are declared. -/
namespace RelayLogic

/-- The values of all cells at one time. -/
abbrev Snapshot := Category → Nat → Bool

/-- What an assignment makes of an old value. -/
def Assignment.apply (a : Assignment) (value old : Bool) : Bool :=
  match a with
  | assign => value
  | set => if value then true else old
  | reset => if value then false else old

namespace Snapshot

def bitOf (x : Snapshot) (v : Variable) : Bool := x v.category v.index

/-- The values after one equation: its tree is evaluated, and its variable's cell assigned. -/
def after (x : Snapshot) (v : Variable) (e : Expression) : Snapshot := fun c index =>
  if c = v.category ∧ v.index = index then e.assignment.apply (e.value x.bitOf) (x.bitOf v)
  else x c index

/-- The values after a value was assigned to a variable. -/
def assign (x : Snapshot) (a : Assignment) (v : Variable) (value : Bool) : Snapshot :=
  fun c index => if c = v.category ∧ v.index = index then a.apply value (x.bitOf v) else x c index

end Snapshot

/-- The values after all equations of a program, in order of declaration. -/
def Program.carryOut (p : Program) (x : Snapshot) : Snapshot :=
  p.symbols.declared.foldl
    (fun x v =>
      match p.equation? v with
      | some e => x.after v e
      | none => x) x

theorem Memory.stored_access (a : Assignment) (value old : Bool) :
    stored a.access old value = a.apply value old := by
  cases a <;> cases value <;> cases old <;> rfl

theorem Memory.value_put_stored (m : Memory) (a : Assignment) (v : Variable) (value : Bool) :
    (m.put v.category v.index (stored a.access (m.bitOf v) value)).value =
      Snapshot.assign m.value a v value := by
  funext c index
  rw [value_put, stored_access]
  rfl

theorem Memory.value_perform (m : Memory) (v : Variable) (e : Expression) :
    (m.perform v e).value = Snapshot.after m.value v e :=
  value_put_stored m e.assignment v (e.value m.bitOf)

theorem Memory.value_performAll (m : Memory) (equations : List (Variable × Expression)) :
    (m.performAll equations).value =
      equations.foldl (fun x equation => Snapshot.after x equation.1 equation.2) m.value := by
  induction equations generalizing m with
  | nil => rfl
  | cons equation rest ih =>
      have later := ih (m.perform equation.1 equation.2)
      rw [value_perform] at later
      exact later

theorem Program.foldl_inOrder (p : Program) (x : Snapshot) :
    p.inOrder.foldl (fun x equation => x.after equation.1 equation.2) x = p.carryOut x := by
  rw [inOrder, List.foldl_filterMap, carryOut]
  congr
  funext x v
  cases p.equation? v <;> rfl

/-- Running the code of a program is carrying out its equations in order of declaration, wherever
there is a cell for each variable and room for each equation. -/
theorem Program.value_run_code {p : Program} (closed : p.Closed) {ops : List Operation}
    (compiled : p.code = .ok ops) {m : Memory}
    (cells : ∀ v ∈ p.symbols.declared, v.index < m.cells v.category)
    {capacity : Nat} (room : ∀ equation ∈ p.inOrder, equation.2.need ≤ capacity) :
    (m.run capacity ops).1 = .ok () ∧
      (m.run capacity ops).2.value = p.carryOut m.value ∧
      ∀ c, (m.run capacity ops).2.cells c = m.cells c := by
  have inside : ∀ equation ∈ p.inOrder, ∀ w ∈ equation.1 :: equation.2.leaves,
      w.index < m.cells w.category := by
    intro equation member w mentioned
    obtain ⟨declared, found⟩ := mem_inOrder.1 member
    have there := mem_of_equation? found
    rcases List.mem_cons.1 mentioned with rfl | leaf
    · exact cells _ declared
    · exact cells w (closed.mentioned _ there w leaf)
  obtain ⟨ends, same⟩ := p.run_code compiled inside room
  refine ⟨ends, ?_, ?_⟩
  · funext c index
    rw [same.values, Memory.value_performAll, p.foldl_inOrder]
  · intro c
    rw [same.cells, Memory.cells_performAll]

/-- The program of `latch += out; out = f | a; f -= a;`, the variables being declared as `a`, `f`,
`out` and `latch`. -/
def latching : Program :=
  let a := Variable.plain "a" .input 0
  let f := Variable.plain "f" .flag 0
  let out := Variable.plain "out" .output 0
  let latch := Variable.plain "latch" .output 1
  ⟨⟨[a, f, out, latch], by decide⟩,
    [(latch, ⟨1, .none, [.leaf false out], some latch, .set⟩),
      (out, ⟨2, .or, [.leaf false f, .leaf false a], some out, .assign⟩),
      (f, ⟨3, .none, [.leaf false a], some f, .reset⟩)], 3⟩

def latchingCode : List Operation :=
  [⟨.readInput, 0⟩, ⟨.resetFlag, 0⟩, ⟨.readFlag, 0⟩, ⟨.readInput, 0⟩, .logic .or, ⟨.writeOutput, 0⟩,
    ⟨.readOutput, 0⟩, ⟨.setOutput, 1⟩]

/-- With `a` and `f` on, `f` goes off before `out` is worked out, and `latch` sees the new `out`. -/
theorem value_run_latchingCode :
    let m := ((Memory.fresh 1 2 1 0).put .input 0 true).put .flag 0 true
    latching.Closed ∧ latching.code = .ok latchingCode ∧
      (∀ v ∈ latching.symbols.declared, v.index < m.cells v.category) ∧
      (∀ equation ∈ latching.inOrder, equation.2.need ≤ 2) ∧
      (m.run 2 latchingCode).1 = .ok () ∧
      (m.run 2 latchingCode).2.value .flag 0 = false ∧
      (m.run 2 latchingCode).2.value .output 1 = true := by
  intro m
  have closed : latching.Closed := ⟨by decide, by decide⟩
  have compiled : latching.code = .ok latchingCode := rfl
  have cells : ∀ v ∈ latching.symbols.declared, v.index < m.cells v.category := by decide
  have room : ∀ equation ∈ latching.inOrder, equation.2.need ≤ 2 := by decide
  obtain ⟨ends, values, -⟩ := Program.value_run_code closed compiled cells room
  refine ⟨closed, compiled, cells, room, ends, ?_, ?_⟩
  · rw [values]
    rfl
  · rw [values]
    rfl

end RelayLogic
