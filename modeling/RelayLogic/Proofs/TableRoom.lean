import RelayLogic.Proofs.TruthTable

/-! Room for truth tables. Resolving stops at as many levels as the stack of a table has places,
but working out a tree may take one place more than it has levels. So a tree that was resolved gets
its whole table, unless it has all the levels it may have and needs that one place more. -/
namespace RelayLogic

/-- The table of a resolved name with few leaves has all of its rows just where the tree finds
room on the stack. Where it does not, the tree is as deep as it may be, and the table ends behind
its heading. -/
theorem Source.truthTable_complete {source : Source} {p : Program} (read : source.program = .ok p)
    {name : String} {tree : Expression} {l : Ledger}
    (resolved : p.resolve name p.ledger = (.ok tree, l))
    (few : tree.leaves.dedup.length ≤ maxInputs) :
    (∃ ops, tree.code.toExcept = .ok ops) ∧
      (tree.need ≤ tableCapacity → (p.truthTable name).failure = none ∧
        (p.truthTable name).lines.length = 1 + 2 ^ tree.leaves.dedup.length) ∧
      (tableCapacity < tree.need → tree.levels = maxLevels ∧ tree.need = maxLevels + 1 ∧
        (p.truthTable name).failure = some (.fault (.stackOverflow tableCapacity)) ∧
        (p.truthTable name).lines.length = 1) := by
  have accepted := Source.accepted_program read
  have proper := Program.proper_of_resolve accepted.proper_equation resolved
  have count : (p.symbols.columns tree).length = tree.leaves.dedup.length :=
    SymbolTable.length_columns proper.known
  have rows := accepted.truthTable_rows resolved (count ▸ few)
  have clean := (accepted.truthTable_eq resolved).1
  refine ⟨⟨tree.code.operations, Emission.toExcept_eq_ok.2 ⟨clean, rfl⟩⟩, ?_, ?_⟩
  · intro room
    rw [if_pos room, count] at rows
    rw [rows]
    refine ⟨rfl, ?_⟩
    simp only [Table.cons, List.length_cons, List.length_map, List.length_range]
    exact Nat.add_comm _ 1
  · intro full
    rw [if_neg (Nat.not_le_of_lt full)] at rows
    have bound := tree.need_le
    have shallow := proper.shallow
    have limits : tableCapacity = maxLevels := rfl
    rw [rows]
    exact ⟨by omega, by omega, rfl, rfl⟩

def heldTree : Expression :=
  let a := Variable.plain "a" .input 0
  let b := Variable.plain "b" .input 2
  let t := (Variable.plain "t" .monoflop 0).withTime 60
  let out := Variable.plain "out" .output 1
  ⟨2, .or,
    [.group false ⟨5, .timer,
        [.group false ⟨1, .and, [.leaf false a, .leaf true b], some t, .assign⟩], some t, .assign⟩,
      .group false ⟨4, .and,
        [.group true ⟨3, .or, [.leaf false a, .leaf false b], none, .assign⟩, .leaf false a],
        none, .assign⟩],
    some out, .assign⟩

theorem truthTable_heldText :
    heldText.program = .ok held ∧
      held.resolve "out" held.ledger = (.ok heldTree, ⟨["t"], 5⟩) ∧
      heldTree.leaves.dedup.length ≤ maxInputs ∧
      (held.truthTable "out").failure = none ∧ (held.truthTable "out").lines.length = 5 := by
  have resolved : held.resolve "out" held.ledger = (.ok heldTree, ⟨["t"], 5⟩) := rfl
  have few : heldTree.leaves.dedup.length ≤ maxInputs := by decide
  have room : heldTree.need ≤ tableCapacity := by decide
  obtain ⟨-, whole, -⟩ := Source.truthTable_complete program_heldText resolved few
  obtain ⟨ends, count⟩ := whole room
  exact ⟨program_heldText, resolved, few, ends, count⟩

/-- Nests a term so many times in `a|a&(…)`, which takes two levels each time. -/
def nestedText (times : Nat) (inner : Char) : List Char :=
  (List.replicate times ['a', '|', 'a', '&', '(']).flatten ++ ['a', '|', 'a', '&', inner] ++
    List.replicate times ')'

/-- Two flags, the first at the bottom of the second. -/
def nestedSource (outer inner : Nat) : Source :=
  ⟨"nested", [
    some ['i', 'n', 'p', 'u', 't', 's', ':', 'a', '=', '0', ';'],
    some ['f', 'l', 'a', 'g', 's', ':', 'f', '=', '0', ',', 'o', '=', '1', ';'],
    some (['o', '='] ++ nestedText outer 'f' ++ [';']),
    some (['f', '='] ++ nestedText inner 'a' ++ [';'])]⟩

/-- The places that the tree of a name needs, and how many variables are at its leaves. -/
def Source.demand (source : Source) (name : String) : Option (Nat × Nat) :=
  match source.program with
  | .error _ => none
  | .ok p =>
    match p.resolve name p.ledger with
    | (.error _, _) => none
    | (.ok tree, _) => some (tree.need, tree.leaves.dedup.length)

theorem Source.demand_eq_some {source : Source} {name : String} {need leaves : Nat}
    (h : source.demand name = some (need, leaves)) :
    ∃ p tree l, source.program = .ok p ∧ p.resolve name p.ledger = (.ok tree, l) ∧
      tree.need = need ∧ tree.leaves.dedup.length = leaves := by
  unfold demand at h
  split at h
  · cases h
  · rename_i p read
    split at h
    · cases h
    · rename_i tree l resolved
      cases h
      exact ⟨p, tree, l, read, resolved, rfl, rfl⟩

theorem demand_nestedSource : (nestedSource 64 62).demand "o" = some (257, 1) := by
  decide +kernel

/-- The deepest tree that can be resolved ends its table before the first of two rows. -/
theorem truthTable_nestedSource :
    ∃ p tree l, (nestedSource 64 62).program = .ok p ∧
      p.resolve "o" p.ledger = (.ok tree, l) ∧ tree.leaves.dedup.length = 1 ∧
      (p.truthTable "o").failure = some (.fault (.stackOverflow 256)) ∧
      (p.truthTable "o").lines.length = 1 := by
  obtain ⟨p, tree, l, read, resolved, need, leaves⟩ := Source.demand_eq_some demand_nestedSource
  have accepted := Source.accepted_program read
  have proper := Program.proper_of_resolve accepted.proper_equation resolved
  have count := SymbolTable.length_columns proper.known
  have few : (p.symbols.columns tree).length ≤ maxInputs := by
    rw [count, leaves]
    decide
  have full : ¬tree.need ≤ tableCapacity := by
    rw [need]
    decide
  have rows := accepted.truthTable_rows resolved few
  rw [if_neg full] at rows
  refine ⟨p, tree, l, read, resolved, leaves, ?_⟩
  rw [rows]
  exact ⟨rfl, rfl⟩

end RelayLogic
