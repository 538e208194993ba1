import RelayLogic.Proofs.TruthTable

/-! What the rows of truth tables tell. A row gives values to the variables left at the leaves of a
resolved tree. Some of these may have equations: a signal that is reached twice is replaced only
once. A row in which each of them has the value of its equation tells the value of the signal. Any
other row is the row of no state of the program, and its result need not be a value of the
signal. -/
namespace RelayLogic

/-- No two variables share a cell. -/
def SymbolTable.Apart (t : SymbolTable) : Prop :=
  t.declared.Pairwise fun v w => ¬(v.category = w.category ∧ w.index = v.index)

instance (t : SymbolTable) : Decidable t.Apart :=
  inferInstanceAs (Decidable (t.declared.Pairwise _))

namespace Table

variable {t : SymbolTable} {leaves : List Variable} {number : Nat}

theorem map_fst_entries : (entries leaves number).map Prod.fst = leaves := by
  apply List.map_fst_zip
  rw [length_rowBits]

theorem exists_entry {v : Variable} (number : Nat) (column : v ∈ leaves) :
    ∃ entry ∈ entries leaves number, entry.1 = v := by
  have listed : v ∈ (entries leaves number).map Prod.fst := by
    rw [map_fst_entries]
    exact column
  exact List.mem_map.1 listed

theorem bitOf_entry (apart : t.Apart) (e : Expression) {m : Memory} :
    ∀ entry ∈ entries (t.columns e) number,
      (m.putAll (entries (t.columns e) number)).bitOf entry.1 = entry.2 := by
  have columns : (t.columns e).Sublist t.declared := by
    rw [SymbolTable.columns_eq]
    exact List.filter_sublist
  have pairs : ((entries (t.columns e) number).map Prod.fst).Pairwise
      fun v w => ¬(v.category = w.category ∧ w.index = v.index) := by
    rw [map_fst_entries]
    exact apart.sublist columns
  exact Memory.bitOf_putAll (List.pairwise_map.1 pairs)

end Table

namespace Program

variable {p : Program} {name : String}

theorem Accepted.line_eq (h : p.Accepted) {number : Nat} {line : String}
    (printed : (p.truthTable name).lines[number + 1]? = some line) :
    ∃ tree l, p.resolve name p.ledger = (.ok tree, l) ∧
      line = Table.rowOf p.symbols.memory tree (p.symbols.columns tree) number := by
  rcases resolved : p.resolve name p.ledger with ⟨_ | tree, l⟩
  · unfold truthTable at printed
    rw [resolved] at printed
    cases printed
  · refine ⟨tree, l, rfl, ?_⟩
    by_cases few : (p.symbols.columns tree).length ≤ maxInputs
    · rw [h.truthTable_rows resolved few] at printed
      split at printed
      · have row := (List.getElem?_cons_succ).symm.trans printed
        rw [List.getElem?_map] at row
        obtain ⟨i, inRange, same⟩ := Option.map_eq_some_iff.1 row
        obtain ⟨_, here⟩ := List.getElem?_eq_some_iff.1 inRange
        rw [List.getElem_range] at here
        rw [here, same]
      · cases printed
    · rw [(h.truthTable_eq resolved).2, Table.ofCode, if_pos (Nat.lt_of_not_le few)] at printed
      cases printed

/-- Where the leaves have the values of a row in some state, so has the resolved tree. -/
theorem Solves.value_of_row {s : Variable → Bool} (solves : p.Solves s)
    (apart : p.symbols.Apart) {v : Variable} {tree : Expression} {l : Ledger}
    (declared : p.symbols.find? name = some v) (resolved : p.resolve name p.ledger = (.ok tree, l))
    (known : ∀ w ∈ tree.leaves, w ∈ p.symbols.declared) {number : Nat}
    (shown : ∀ entry ∈ Table.entries (p.symbols.columns tree) number, s entry.1 = entry.2)
    {m : Memory} :
    tree.value (m.putAll (Table.entries (p.symbols.columns tree) number)).bitOf = s v := by
  have agree : ∀ w ∈ tree.leaves,
      (m.putAll (Table.entries (p.symbols.columns tree) number)).bitOf w = s w := by
    intro w leaf
    have column : w ∈ p.symbols.columns tree := SymbolTable.mem_columns.2 ⟨known w leaf, leaf⟩
    obtain ⟨entry, member, rfl⟩ := Table.exists_entry number column
    rw [Table.bitOf_entry apart tree entry member, shown entry member]
  rw [tree.value_congr agree]
  exact value_of_resolve solves declared resolved

end Program

/-- Each row of a table belongs to states of the program in which the variables without an equation
have the values that it shows, and its result is the value of the signal in every such state in
which the variables with an equation have the values that it shows too. -/
theorem Source.row_of_truthTable {source : Source} {p : Program} (read : source.program = .ok p)
    (acyclic : p.Acyclic) (apart : p.symbols.Apart) {name : String} {number : Nat} {line : String}
    (printed : (p.truthTable name).lines[number + 1]? = some line) :
    ∃ v tree l leaves result, p.symbols.find? name = some v ∧
      p.resolve name p.ledger = (.ok tree, l) ∧ leaves = p.symbols.columns tree ∧
      line = Table.rowLine leaves (rowBits leaves.length number) result ∧
      (∃ s, p.Solves s ∧
        ∀ entry ∈ Table.entries leaves number, p.equation? entry.1 = none → s entry.1 = entry.2) ∧
      ∀ s, p.Solves s → (∀ entry ∈ Table.entries leaves number, s entry.1 = entry.2) →
        s v = result := by
  have accepted := Source.accepted_program read
  obtain ⟨tree, l, resolved, row⟩ := accepted.line_eq printed
  have proper := Program.proper_of_resolve accepted.proper_equation resolved
  obtain ⟨v, -, -, declared, -, -, -⟩ := Program.resolve_eq_ok.1 resolved
  let m := p.symbols.memory.putAll (Table.entries (p.symbols.columns tree) number)
  refine ⟨v, tree, l, _, tree.value m.bitOf, declared, resolved, rfl, row, ?_, ?_⟩
  · obtain ⟨s, solves, free⟩ := Program.exists_solves acyclic m.bitOf
    refine ⟨s, solves, ?_⟩
    intro entry member undefined
    rw [free entry.1 undefined]
    exact Table.bitOf_entry apart tree entry member
  · intro s solves shown
    exact (solves.value_of_row apart declared resolved proper.known shown).symm

def sharedText : Source :=
  .ofString "shared" "inputs: a=0; flags: f=0, o=1; f = a; o = f | !f;"

def shared : Program :=
  let a := Variable.plain "a" .input 0
  let f := Variable.plain "f" .flag 0
  let o := Variable.plain "o" .flag 1
  ⟨⟨[a, f, o], by decide⟩,
    [(f, ⟨1, .none, [.leaf false a], some f, .assign⟩),
      (o, ⟨2, .or, [.leaf false f, .leaf true f], some o, .assign⟩)], 2⟩

set_option maxRecDepth 4000 in
theorem program_sharedText : sharedText.program = .ok shared := by cbv

theorem acyclic_shared : shared.Acyclic := by
  apply Program.Acyclic.of_rank Variable.index
  rintro v w ⟨e, found, leaf, defined⟩
  have member := Program.mem_of_equation? found
  fin_cases member
  · cases List.mem_singleton.1 leaf
    exact absurd rfl defined
  · fin_cases leaf <;> decide

theorem apart_shared : shared.symbols.Apart := by decide

/-- Where `a` and `f` are on, so is `o`. -/
theorem row_of_sharedText :
    sharedText.program = .ok shared ∧ shared.Acyclic ∧ shared.symbols.Apart ∧
      (shared.truthTable "o").lines[4]? = some "1 1 | 1" ∧
      ∃ tree l, shared.resolve "o" shared.ledger = (.ok tree, l) ∧
        "1 1 | 1" = Table.rowLine (shared.symbols.columns tree) [true, true] true := by
  have printed : (shared.truthTable "o").lines[4]? = some "1 1 | 1" := by decide
  obtain ⟨v, tree, l, leaves, result, declared, resolved, rfl, row, -, tells⟩ :=
    Source.row_of_truthTable program_sharedText acyclic_shared apart_shared printed
  cases declared
  cases resolved
  have solves : shared.Solves fun _ => true := by
    intro v e found
    have member := Program.mem_of_equation? found
    fin_cases member <;> rfl
  have on := tells (fun _ => true) solves (by decide)
  subst on
  exact ⟨program_sharedText, acyclic_shared, apart_shared, printed, _, _, rfl, row⟩

/-- The second row has a value of `f` that contradicts its equation, and tells that `o` is off, which
it is in no state of the program. -/
theorem row_of_sharedText_untrue :
    sharedText.program = .ok shared ∧ shared.Acyclic ∧ shared.symbols.Apart ∧
      (shared.truthTable "o").lines[0]? = some "a f | o" ∧
      (shared.truthTable "o").lines[2]? = some "0 1 | 0" ∧
      ∀ s, shared.Solves s → s (.plain "o" .flag 1) = true := by
  refine ⟨program_sharedText, acyclic_shared, apart_shared, by decide, by decide, ?_⟩
  intro s solves
  have value := solves (.plain "o" .flag 1) _ rfl
  rw [value]
  cases f : s (.plain "f" .flag 0) <;>
    simp [Group.value, Term.values, Term.value, Operator.join, f]

end RelayLogic
