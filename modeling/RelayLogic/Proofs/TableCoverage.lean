import RelayLogic.Proofs.TableRoom

/-! What a truth table covers. The rows are numbered, and the digits of a row are its number in base
two, so each way to give values to the columns has one row and no other. A row tells the value of
the tree for the values that it shows, whatever the memory held before. -/
namespace RelayLogic

/-- The number that digits spell in base two, the leftmost weighing most. -/
def binary (digits : List Bool) : Nat :=
  digits.foldl (fun n digit => 2 * n + digit.toNat) 0

def digitChar (digit : Bool) : Char := if digit then '1' else '0'

/-! Digits. -/

theorem binary_append_singleton (digits : List Bool) (digit : Bool) :
    binary (digits ++ [digit]) = 2 * binary digits + digit.toNat :=
  List.foldl_concat ..

theorem binary_lt (digits : List Bool) : binary digits < 2 ^ digits.length := by
  induction digits using List.reverseRecOn with
  | nil => exact Nat.one_pos
  | append_singleton digits digit ih =>
      have small := digit.toNat_lt
      rw [binary_append_singleton, List.length_append, List.length_singleton, Nat.pow_succ]
      omega

/-- The last digit is that of an odd number or an even one, and those before it are the digits of
half the number. -/
theorem rowBits_succ (columns number : Nat) :
    rowBits (columns + 1) number = rowBits columns (number / 2) ++ [number.testBit 0] := by
  have half : (number.testBit ∘ Nat.succ) = (number / 2).testBit := by
    funext i
    exact Nat.testBit_succ number i
  rw [rowBits, List.range_succ_eq_map, List.map_cons, List.map_map, half, List.reverse_cons, rowBits]

theorem binary_rowBits {columns number : Nat} (inside : number < 2 ^ columns) :
    binary (rowBits columns number) = number := by
  induction columns generalizing number with
  | zero => exact (Nat.lt_one_iff.1 inside).symm
  | succ columns ih =>
      have less : number / 2 < 2 ^ columns := by
        rw [Nat.pow_succ] at inside
        omega
      rw [rowBits_succ, binary_append_singleton, ih less, Nat.testBit_zero]
      rcases Nat.mod_two_eq_zero_or_one number with even | odd
      · simp only [even, Nat.zero_ne_one, decide_false, Bool.toNat_false]
        omega
      · simp only [odd, decide_true, Bool.toNat_true]
        omega

theorem rowBits_binary (digits : List Bool) : rowBits digits.length (binary digits) = digits := by
  induction digits using List.reverseRecOn with
  | nil => rfl
  | append_singleton digits digit ih =>
      have half : (2 * binary digits + digit.toNat) / 2 = binary digits := by
        have small := digit.toNat_lt
        omega
      have last : (2 * binary digits + digit.toNat).testBit 0 = digit := by
        rw [Nat.testBit_zero]
        cases digit <;> simp
      rw [List.length_append, List.length_singleton, rowBits_succ, binary_append_singleton, half,
        last, ih]

/-- So many digits are those of one row. -/
theorem existsUnique_rowBits {columns : Nat} {digits : List Bool}
    (count : digits.length = columns) :
    ∃! number, number < 2 ^ columns ∧ rowBits columns number = digits := by
  subst count
  refine ⟨binary digits, ⟨binary_lt digits, rowBits_binary digits⟩, ?_⟩
  intro number row
  calc number = binary (rowBits digits.length number) := (binary_rowBits row.1).symm
    _ = binary digits := congrArg binary row.2

/-! Rows. -/

namespace Table

theorem filter_padLeft (width : Nat) (digit : Bool) :
    (padLeft width (bitText digit)).toList.filter (· ≠ ' ') = [digitChar digit] := by
  have blanks (count : Nat) : (List.replicate count ' ').filter (· ≠ ' ') = [] := by
    simp
  rw [padLeft, String.toList_ofList, List.leftpad, List.filter_append, blanks]
  cases digit <;> rfl

theorem filter_intercalate (texts : List String) :
    (" ".intercalate texts).toList.filter (· ≠ ' ') =
      texts.flatMap fun text => text.toList.filter (· ≠ ' ') := by
  induction texts with
  | nil => rfl
  | cons text texts ih =>
      cases texts with
      | nil => simp
      | cons next texts =>
          rw [String.intercalate_cons_cons, String.toList_append, String.toList_append,
            List.filter_append, List.filter_append, ih, List.flatMap_cons]
          exact congrArg (· ++ _) (List.append_nil _)

theorem flatMap_padLeft {leaves : List Variable} {bits : List Bool}
    (count : bits.length = leaves.length) :
    (List.zipWith (fun v bit => padLeft v.name.length (bitText bit)) leaves bits).flatMap
      (fun text => text.toList.filter (· ≠ ' ')) = bits.map digitChar := by
  induction bits generalizing leaves with
  | nil =>
      rw [List.zipWith_nil_right]
      rfl
  | cons bit bits ih =>
      obtain ⟨v, leaves, rfl⟩ := List.exists_cons_of_length_eq_add_one count.symm
      rw [List.zipWith_cons_cons, List.flatMap_cons, filter_padLeft,
        ih (Nat.succ.inj count), List.map_cons]
      rfl

/-- Without its blanks, a row is its digits, a bar, and the result. -/
theorem filter_rowLine {leaves : List Variable} {bits : List Bool}
    (count : bits.length = leaves.length) (result : Bool) :
    (rowLine leaves bits result).toList.filter (· ≠ ' ') =
      bits.map digitChar ++ ['|', digitChar result] := by
  rw [rowLine, String.toList_append, String.toList_append, List.filter_append,
    List.filter_append, filter_intercalate, flatMap_padLeft count, List.append_assoc]
  cases result <;> rfl

section

variable {t : SymbolTable} {e : Expression} {number : Nat} {s : Variable → Bool}

/-- No two variables at the leaves share a cell. -/
def LeavesApart (e : Expression) : Prop :=
  ∀ v ∈ e.leaves, ∀ w ∈ e.leaves, v.category = w.category → v.index = w.index → v = w

theorem entries_eq (shown : (t.columns e).map s = rowBits (t.columns e).length number) :
    entries (t.columns e) number = (t.columns e).map fun v => (v, s v) := by
  rw [entries, ← shown]
  exact List.map_prod_left_eq_zip.symm

/-- In the memory of a row, the tree has the value that it has for the values shown. -/
theorem value_row (known : ∀ v ∈ e.leaves, v ∈ t.declared) (apart : LeavesApart e)
    (shown : (t.columns e).map s = rowBits (t.columns e).length number) (m : Memory) :
    e.value (m.putAll (entries (t.columns e) number)).bitOf = e.value s := by
  have cells : (entries (t.columns e) number).Pairwise
      fun a b => ¬(a.1.category = b.1.category ∧ b.1.index = a.1.index) := by
    rw [entries_eq shown, List.pairwise_map]
    apply (t.nodup_columns e).imp_of_mem
    intro v w column column' other same
    have leaf := (SymbolTable.mem_columns.1 column).2
    have leaf' := (SymbolTable.mem_columns.1 column').2
    exact other (apart v leaf w leaf' same.1 same.2.symm)
  apply e.value_congr
  intro v leaf
  have column : v ∈ t.columns e := SymbolTable.mem_columns.2 ⟨known v leaf, leaf⟩
  have entry : (v, s v) ∈ entries (t.columns e) number := by
    rw [entries_eq shown]
    exact List.mem_map_of_mem column
  exact Memory.bitOf_putAll cells (v, s v) entry

/-- What a row shows. -/
theorem exists_rowOf (known : ∀ v ∈ e.leaves, v ∈ t.declared) (apart : LeavesApart e)
    (m : Memory) (number : Nat) :
    ∃ result, rowOf m e (t.columns e) number =
        rowLine (t.columns e) (rowBits (t.columns e).length number) result ∧
      (rowOf m e (t.columns e) number).toList.filter (· ≠ ' ') =
        (rowBits (t.columns e).length number).map digitChar ++ ['|', digitChar result] ∧
      ∀ s, (t.columns e).map s = rowBits (t.columns e).length number → e.value s = result := by
  refine ⟨_, rfl, filter_rowLine (length_rowBits ..) _, ?_⟩
  intro s shown
  exact (value_row known apart shown m).symm

end

end Table

/-- A tree with a level to spare has its whole table. -/
theorem Program.Accepted.truthTable_whole {p : Program} (h : p.Accepted) {name : String}
    {tree : Expression} {l : Ledger} (resolved : p.resolve name p.ledger = (.ok tree, l))
    (shallow : tree.levels < tableCapacity)
    (few : (p.symbols.columns tree).length ≤ maxInputs) :
    (p.truthTable name).failure = none ∧
      (p.truthTable name).lines = Table.heading name (p.symbols.columns tree) ::
        (List.range (2 ^ (p.symbols.columns tree).length)).map
          (Table.rowOf p.symbols.memory tree (p.symbols.columns tree)) := by
  have room : tree.need ≤ tableCapacity := Nat.le_trans tree.need_le shallow
  have rows := h.truthTable_rows resolved few
  rw [if_pos room] at rows
  rw [rows]
  exact ⟨rfl, rfl⟩

/-- The table of a signal whose tree leaves a level to spare, and has few leaves in cells of their
own, has a heading and one row for each way to give values to these leaves. The digits of a row are
its number in base two, in the order in which the leaves are declared, and its result is the value
of the tree for just these values, so the rows before have no part in it. -/
theorem Source.truthTable_covers {source : Source} {p : Program} (read : source.program = .ok p)
    {name : String} {tree : Expression} {l : Ledger}
    (resolved : p.resolve name p.ledger = (.ok tree, l)) (shallow : tree.levels ≤ 255)
    (few : tree.leaves.dedup.length ≤ 16) (apart : Table.LeavesApart tree) :
    let table := p.truthTable name
    let columns := p.symbols.columns tree
    let n := tree.leaves.dedup.length
    (columns.Sublist p.symbols.declared ∧ (∀ v, v ∈ columns ↔ v ∈ tree.leaves) ∧
        columns.length = n) ∧
      (table.failure = none ∧ table.lines.length = 1 + 2 ^ n ∧
        table.lines[0]? = some (" ".intercalate (columns.map Variable.name) ++ " | " ++ name)) ∧
      (∀ i < 2 ^ n, (rowBits n i).length = n ∧ binary (rowBits n i) = i ∧
        ∃ row result, table.lines[i + 1]? = some row ∧
          row = Table.rowLine columns (rowBits n i) result ∧
          row.toList.filter (· ≠ ' ') = (rowBits n i).map digitChar ++ ['|', digitChar result] ∧
          ∀ s, columns.map s = rowBits n i → tree.value s = result) ∧
      ∀ s : Variable → Bool, ∃! i, i < 2 ^ n ∧ rowBits n i = columns.map s := by
  intro table columns n
  have accepted := Source.accepted_program read
  have proper := Program.proper_of_resolve accepted.proper_equation resolved
  have count : columns.length = n := SymbolTable.length_columns proper.known
  have whole := accepted.truthTable_whole resolved (Nat.lt_succ_of_le shallow)
    (Nat.le_trans (Nat.le_of_eq count) few)
  have lines : table.lines = Table.heading name columns ::
      (List.range (2 ^ n)).map (Table.rowOf p.symbols.memory tree columns) := count ▸ whole.2
  refine ⟨⟨?_, ?_, count⟩, ⟨whole.1, ?_, ?_⟩, ?_, ?_⟩
  · rw [show columns = _ from p.symbols.columns_eq tree]
    exact List.filter_sublist
  · intro v
    rw [SymbolTable.mem_columns, and_iff_right_iff_imp]
    exact proper.known v
  · rw [lines, List.length_cons, List.length_map, List.length_range]
    exact Nat.add_comm _ 1
  · rw [lines, List.getElem?_cons_zero, Table.heading]
  · intro i inside
    have printed : table.lines[i + 1]? =
        some (Table.rowOf p.symbols.memory tree columns i) := by
      rw [lines, List.getElem?_cons_succ, List.getElem?_map, List.getElem?_range inside,
        Option.map_some]
    have shows := Table.exists_rowOf proper.known apart p.symbols.memory i
    rw [show (p.symbols.columns tree).length = n from count] at shows
    obtain ⟨result, row, digits, value⟩ := shows
    exact ⟨Table.length_rowBits n i, binary_rowBits inside, _, result, printed, row, digits, value⟩
  · intro s
    apply existsUnique_rowBits
    rw [List.length_map, count]

/-- In the row of two, only the first of two leaves is set. -/
theorem truthTable_heldText_two :
    heldText.program = .ok held ∧
      held.resolve "out" held.ledger = (.ok heldTree, ⟨["t"], 5⟩) ∧ heldTree.levels ≤ 255 ∧
      heldTree.leaves.dedup.length ≤ 16 ∧ Table.LeavesApart heldTree ∧
      (held.truthTable "out").lines[0]? = some "a b | out" ∧
      ∃ row result, (held.truthTable "out").lines[3]? = some row ∧
        row.toList.filter (· ≠ ' ') = ['1', '0', '|', digitChar result] ∧
        heldTree.value (fun v => v.name == "a") = result := by
  have resolved : held.resolve "out" held.ledger = (.ok heldTree, ⟨["t"], 5⟩) := rfl
  have shallow : heldTree.levels ≤ 255 := by decide
  have few : heldTree.leaves.dedup.length ≤ 16 := by decide
  have apart : Table.LeavesApart heldTree := by
    unfold Table.LeavesApart
    decide
  have count : heldTree.leaves.dedup.length = 2 := by decide
  obtain ⟨-, ⟨-, -, heading⟩, rows, -⟩ :=
    Source.truthTable_covers program_heldText resolved shallow few apart
  obtain ⟨-, -, row, result, printed, -, digits, value⟩ := rows 2 (by rw [count]; decide)
  rw [count] at digits value
  exact ⟨program_heldText, resolved, shallow, few, apart, heading, row, result, printed, digits,
    value _ (by decide)⟩

end RelayLogic
