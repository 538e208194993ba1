import Mathlib.Data.List.Dedup
import RelayLogic.Proofs.ResolvedTree
import RelayLogic.Proofs.Safety
import RelayLogic.Proofs.Solution
import RelayLogic.TruthTable

/-! Truth tables of accepted programs. A row resets the memory, gives the columns their bits and
works the tree out, so it depends on its number only and not on the rows before. The tree of a name
that was resolved always compiles, and has its whole table if the stack has room for it. -/
namespace RelayLogic

namespace Memory

variable {m n : Memory}

/-- The memory after values were given to variables, in order. -/
def putAll (m : Memory) (entries : List (Variable × Bool)) : Memory :=
  entries.foldl (fun m entry => m.put entry.1.category entry.1.index entry.2) m

@[simp] theorem cells_putAll (m : Memory) (entries : List (Variable × Bool)) (c : Category) :
    (m.putAll entries).cells c = m.cells c := by
  induction entries generalizing m with
  | nil => rfl
  | cons entry rest ih =>
      exact (ih (m.put entry.1.category entry.1.index entry.2)).trans (cells_put ..)

theorem write_of_lt {c : Category} {index : Nat} (inside : index < m.cells c) (b : Bool) :
    ∃ k, m.write c index b = .ok k ∧ k.Same (m.put c index b) := by
  obtain ⟨k, load, same⟩ := load_of_lt inside
  refine ⟨k.put c index b, ?_, same.put c index b⟩
  simp only [write, load, bind, Except.bind]
  rfl

theorem assign_of_lt {entries : List (Variable × Bool)}
    (inside : ∀ entry ∈ entries, entry.1.index < m.cells entry.1.category) (same : n.Same m) :
    ∃ k, n.assign entries = (.ok (), k) ∧ k.Same (m.putAll entries) := by
  induction entries generalizing m n with
  | nil => exact ⟨n, rfl, same⟩
  | cons entry rest ih =>
      have here := inside entry List.mem_cons_self
      rw [← same.cells] at here
      obtain ⟨k, written, same'⟩ := write_of_lt here entry.2
      have later : ∀ other ∈ rest,
          other.1.index < (m.put entry.1.category entry.1.index entry.2).cells other.1.category := by
        intro other there
        rw [cells_put]
        exact inside other (List.mem_cons_of_mem entry there)
      obtain ⟨l, assigned, same''⟩ := ih later (same'.trans (same.put _ _ _))
      refine ⟨l, ?_, same''⟩
      simp only [assign, written]
      exact assigned

theorem value_putAll {entries : List (Variable × Bool)} {c : Category} {index : Nat}
    (apart : ∀ entry ∈ entries, ¬(c = entry.1.category ∧ entry.1.index = index)) :
    (m.putAll entries).value c index = m.value c index := by
  induction entries generalizing m with
  | nil => rfl
  | cons entry rest ih =>
      have later := ih (m := m.put entry.1.category entry.1.index entry.2)
        fun other there => apart other (List.mem_cons_of_mem entry there)
      rw [value_put, if_neg (apart entry List.mem_cons_self)] at later
      exact later

theorem bitOf_putAll {entries : List (Variable × Bool)}
    (apart : entries.Pairwise fun a b => ¬(a.1.category = b.1.category ∧ b.1.index = a.1.index)) :
    ∀ entry ∈ entries, (m.putAll entries).bitOf entry.1 = entry.2 := by
  induction entries generalizing m with
  | nil =>
      intro entry member
      cases member
  | cons first rest ih =>
      obtain ⟨here, later⟩ := List.pairwise_cons.1 apart
      intro entry member
      rcases List.mem_cons.1 member with rfl | there
      · have kept := value_putAll (m := m.put entry.1.category entry.1.index entry.2) here
        rw [value_put, if_pos ⟨rfl, rfl⟩] at kept
        exact kept
      · exact ih later entry there

theorem same_reset (cells : ∀ c, m.cells c = n.cells c)
    (off : ∀ c index, n.value c index = false) : m.reset.Same n := by
  refine ⟨fun c => ?_, fun c index => ?_⟩
  · rw [cells_reset, cells]
  · rw [value_reset, off]

end Memory

namespace SymbolTable

theorem cells_memory (t : SymbolTable) (c : Category) : t.memory.cells c = t.cellCount c := by
  cases c <;> rfl

theorem value_memory (t : SymbolTable) (c : Category) (index : Nat) :
    t.memory.value c index = false := by
  cases c <;> exact Row.value_fresh _ index

/-- The columns of the table of a tree: the variables at its leaves, in order of declaration. -/
def columns (t : SymbolTable) (e : Expression) : List Variable :=
  (t.countLeaves e).map Prod.fst

theorem columns_eq (t : SymbolTable) (e : Expression) :
    t.columns e = t.declared.filter (· ∈ e.leaves) := by
  simp only [columns, countLeaves, List.map_map]
  exact List.map_id _

theorem mem_columns {t : SymbolTable} {e : Expression} {v : Variable} :
    v ∈ t.columns e ↔ v ∈ t.declared ∧ v ∈ e.leaves := by
  simp [columns_eq]

theorem nodup_columns (t : SymbolTable) (e : Expression) : (t.columns e).Nodup := by
  rw [columns_eq]
  exact (List.Nodup.of_map _ t.distinct).filter _

theorem length_columns {t : SymbolTable} {e : Expression} (known : ∀ v ∈ e.leaves, v ∈ t.declared) :
    (t.columns e).length = e.leaves.dedup.length := by
  refine ((List.perm_ext_iff_of_nodup (t.nodup_columns e) e.leaves.nodup_dedup).2 ?_).length_eq
  intro v
  rw [mem_columns, List.mem_dedup, and_iff_right_iff_imp]
  exact known v

theorem mem_countLeaves {t : SymbolTable} {e : Expression} {v : Variable} {n : Nat} :
    (v, n) ∈ t.countLeaves e ↔ v ∈ t.declared ∧ v ∈ e.leaves ∧ n = e.leaves.count v := by
  simp [countLeaves, and_assoc, eq_comm]

/-- Whether the variable of a count is declared no later than that of another one. -/
def precedes (t : SymbolTable) (a b : Variable × Nat) : Bool :=
  t.declared.idxOf a.1 ≤ t.declared.idxOf b.1

theorem pairwise_countLeaves (t : SymbolTable) (e : Expression) :
    (t.countLeaves e).Pairwise fun a b => t.precedes a b = true := by
  have nodup : t.declared.Nodup := .of_map _ t.distinct
  have ordered : t.declared.Pairwise fun v w => t.declared.idxOf v ≤ t.declared.idxOf w := by
    refine List.pairwise_iff_getElem.2 fun i j first second before => ?_
    rw [nodup.idxOf_getElem i first, nodup.idxOf_getElem j second]
    exact Nat.le_of_lt before
  exact (ordered.filter _).map _ fun _ _ le => decide_eq_true le

/-- The leaves may as well be counted one by one, and the counts, whose order is then left open, be
sorted by the places of their variables. -/
theorem mergeSort_eq_countLeaves {t : SymbolTable} {e : Expression}
    (known : ∀ v ∈ e.leaves, v ∈ t.declared) {counts : List (Variable × Nat)}
    (distinct : (counts.map Prod.fst).Nodup)
    (counted : ∀ v n, (v, n) ∈ counts ↔ v ∈ e.leaves ∧ n = e.leaves.count v) :
    counts.mergeSort t.precedes = t.countLeaves e := by
  have nodup : (t.countLeaves e).Nodup := .of_map _ (t.nodup_columns e)
  have same : counts.Perm (t.countLeaves e) := by
    refine (List.perm_ext_iff_of_nodup (.of_map _ distinct) nodup).2 fun (v, n) => ?_
    rw [counted, mem_countLeaves]
    exact ⟨fun h => ⟨known v h.1, h⟩, And.right⟩
  have sorted : (counts.mergeSort t.precedes).Pairwise fun a b => t.precedes a b = true := by
    apply List.pairwise_mergeSort
    · simp only [precedes, decide_eq_true_eq]
      exact fun a b c => Nat.le_trans
    · simp only [precedes, Bool.or_eq_true, decide_eq_true_eq]
      exact fun a b => Nat.le_total _ _
  refine List.Perm.eq_of_pairwise ?_ sorted (t.pairwise_countLeaves e)
    ((List.mergeSort_perm _ _).trans same)
  -- Variables at one place are one variable, which has one count.
  rintro ⟨v, n⟩ ⟨w, k⟩ here there le ge
  obtain ⟨leaf, rfl⟩ := (counted v n).1 ((List.mergeSort_perm _ _).mem_iff.1 here)
  obtain ⟨-, -, rfl⟩ := mem_countLeaves.1 there
  obtain rfl : v = w := (List.idxOf_inj (known v leaf)).1
    (Nat.le_antisymm (of_decide_eq_true le) (of_decide_eq_true ge))
  rfl

end SymbolTable

namespace Table

def heading (name : String) (leaves : List Variable) : String :=
  " ".intercalate (leaves.map Variable.name) ++ " | " ++ name

/-- What the variables of a table are given in a row. -/
def entries (leaves : List Variable) (number : Nat) : List (Variable × Bool) :=
  leaves.zip (rowBits leaves.length number)

theorem length_rowBits (columns number : Nat) : (rowBits columns number).length = columns := by
  simp [rowBits]

section

variable {base m : Memory} {e : Expression} {leaves : List Variable}

/-- The row of a number for a tree that is evaluated on a base memory. -/
def rowOf (base : Memory) (e : Expression) (leaves : List Variable) (number : Nat) : String :=
  rowLine leaves (rowBits leaves.length number)
    (e.value (base.putAll (entries leaves number)).bitOf)

/-- What happens in each row, whatever the rows before have left in the memory. -/
theorem execute_row (clean : e.code.failure = none)
    (columns : ∀ v ∈ leaves, v.index < base.cells v.category)
    (cells : ∀ v ∈ e.leaves, v.index < base.cells v.category)
    (off : ∀ c index, base.value c index = false) (sized : ∀ c, m.cells c = base.cells c)
    (number : Nat) :
    ∃ k, m.reset.assign (entries leaves number) = (.ok (), k) ∧
      (k.execute tableCapacity e.code.operations).1 =
        (if e.need ≤ tableCapacity then .ok (e.value (base.putAll (entries leaves number)).bitOf)
          else .error (.stackOverflow tableCapacity)) ∧
      ∀ c, (k.execute tableCapacity e.code.operations).2.cells c = base.cells c := by
  have inside : ∀ entry ∈ entries leaves number, entry.1.index < base.cells entry.1.category :=
    fun entry member => columns entry.1 (List.of_mem_zip member).1
  obtain ⟨k, assigned, same⟩ := Memory.assign_of_lt inside (Memory.same_reset sized off)
  have turns := Group.turns_code (m := base.putAll (entries leaves number)) clean
    (fun v leaf => by rw [Memory.cells_putAll]; exact cells v leaf) tableCapacity
  obtain ⟨result, same'⟩ := turns.execute same
  refine ⟨k, assigned, result, fun c => ?_⟩
  exact (same'.cells c).trans (Memory.cells_putAll ..)

theorem rows_of_room (clean : e.code.failure = none)
    (columns : ∀ v ∈ leaves, v.index < base.cells v.category)
    (cells : ∀ v ∈ e.leaves, v.index < base.cells v.category)
    (off : ∀ c index, base.value c index = false) (room : e.need ≤ tableCapacity)
    (sized : ∀ c, m.cells c = base.cells c) (numbers : List Nat) :
    rows leaves e.code.operations m numbers = ⟨numbers.map (rowOf base e leaves), none⟩ := by
  induction numbers generalizing m with
  | nil => rfl
  | cons number rest ih =>
      -- The row leaves a memory with the same cells, which is all that the next row asks for.
      obtain ⟨k, assigned, result, sized'⟩ := execute_row clean columns cells off sized number
      rw [if_pos room] at result
      rcases outcome : k.execute tableCapacity e.code.operations with ⟨r, l⟩
      rw [outcome] at result sized'
      cases result
      simp only [entries] at assigned
      simp only [rows, assigned, outcome]
      rw [ih sized']
      rfl

theorem rows_of_overflow (clean : e.code.failure = none)
    (columns : ∀ v ∈ leaves, v.index < base.cells v.category)
    (cells : ∀ v ∈ e.leaves, v.index < base.cells v.category)
    (off : ∀ c index, base.value c index = false) (full : tableCapacity < e.need)
    (sized : ∀ c, m.cells c = base.cells c) (number : Nat) (rest : List Nat) :
    rows leaves e.code.operations m (number :: rest) =
      fail (.fault (.stackOverflow tableCapacity)) := by
  obtain ⟨k, assigned, result, -⟩ := execute_row clean columns cells off sized number
  rw [if_neg (Nat.not_le_of_lt full)] at result
  rcases outcome : k.execute tableCapacity e.code.operations with ⟨r, l⟩
  rw [outcome] at result
  cases result
  simp only [entries] at assigned
  simp only [rows, assigned, outcome]

end

end Table

namespace Program.Accepted

variable {p : Program} {name : String} {tree : Expression} {l : Ledger}

theorem truthTable_eq (h : p.Accepted) (resolved : p.resolve name p.ledger = (.ok tree, l)) :
    tree.code.failure = none ∧
      p.truthTable name =
        .ofCode p.symbols name (p.symbols.columns tree) tree.code.operations := by
  have proper := proper_of_resolve h.proper_equation resolved
  have clean : tree.code.failure = none := tree.failure_emit proper.regular proper.shallow
  refine ⟨clean, ?_⟩
  unfold truthTable
  rw [resolved]
  simp only [Emission.toExcept_eq_ok.2 ⟨clean, rfl⟩]
  rfl

/-- A table has all of its rows, or ends in the first for want of room. -/
theorem truthTable_rows (h : p.Accepted) (resolved : p.resolve name p.ledger = (.ok tree, l))
    (few : (p.symbols.columns tree).length ≤ maxInputs) :
    p.truthTable name =
      .cons (Table.heading name (p.symbols.columns tree))
        (if tree.need ≤ tableCapacity then
          ⟨(List.range (2 ^ (p.symbols.columns tree).length)).map
            (Table.rowOf p.symbols.memory tree (p.symbols.columns tree)), none⟩
        else .fail (.fault (.stackOverflow tableCapacity))) := by
  have proper := proper_of_resolve h.proper_equation resolved
  obtain ⟨clean, table⟩ := h.truthTable_eq resolved
  have cells : ∀ v ∈ p.symbols.declared, v.index < p.symbols.memory.cells v.category := by
    intro v declared
    rw [SymbolTable.cells_memory]
    exact SymbolTable.index_lt_cellCount declared
  have columns : ∀ v ∈ p.symbols.columns tree, v.index < p.symbols.memory.cells v.category :=
    fun v column => cells v (SymbolTable.mem_columns.1 column).1
  have leaves : ∀ v ∈ tree.leaves, v.index < p.symbols.memory.cells v.category :=
    fun v leaf => cells v (proper.known v leaf)
  rw [table, Table.ofCode, if_neg (Nat.not_lt_of_le few), Nat.one_shiftLeft]
  congr 1
  split
  · rename_i room
    exact Table.rows_of_room clean columns leaves p.symbols.value_memory room (fun _ => rfl) _
  · rename_i full
    -- There is always a first row to fail, even in a table without columns.
    obtain ⟨more, count⟩ := Nat.exists_eq_succ_of_ne_zero
      (Nat.two_pow_pos (p.symbols.columns tree).length).ne'
    rw [count, List.range_succ_eq_map]
    exact Table.rows_of_overflow clean columns leaves p.symbols.value_memory
      (Nat.lt_of_not_le full) (fun _ => rfl) 0 _

end Program.Accepted

end RelayLogic
