import RelayLogic.SemanticError
import RelayLogic.Symbol.Variable

/-! The table of the variables declared. -/
namespace RelayLogic

/-- The variables declared so far, in order. No two share a name. -/
structure SymbolTable where
  declared : List Variable
  distinct : (declared.map Variable.name).Nodup

namespace SymbolTable

def empty : SymbolTable := ⟨[], .nil⟩

def names (t : SymbolTable) : List String := t.declared.map Variable.name

/-- A new variable at the end keeps the names distinct. -/
theorem nodup_append_name {vs : List Variable} {v : Variable} (h : (vs.map Variable.name).Nodup)
    (fresh : v.name ∉ vs.map Variable.name) : ((vs ++ [v]).map Variable.name).Nodup := by
  simp only [List.map_append, List.map_cons, List.map_nil]
  refine List.nodup_append.2 ⟨h, by simp, fun a ha b hb hab => fresh ?_⟩
  rw [List.mem_singleton] at hb
  rwa [← hb, ← hab]

def contains (t : SymbolTable) (name : String) : Bool := t.declared.any (·.name = name)

theorem contains_iff {t : SymbolTable} {name : String} :
    t.contains name = true ↔ name ∈ t.names := by
  simp [contains, names]

/-- Adds a variable at the end, unless its name is taken. -/
def declare (t : SymbolTable) (v : Variable) : Except SemanticError SymbolTable :=
  if h : t.contains v.name then .error (.duplicateVariable v.name)
  else .ok ⟨t.declared ++ [v], nodup_append_name t.distinct fun taken => h (contains_iff.2 taken)⟩

def find? (t : SymbolTable) (name : String) : Option Variable :=
  t.declared.find? (·.name = name)

def lookup (t : SymbolTable) (name : String) : Except SemanticError Variable :=
  match t.find? name with
  | some v => .ok v
  | none => .error (.unknownVariable name)

/-- The place of a name in the order of declaration, counted from zero. -/
def place? (t : SymbolTable) (name : String) : Option Nat :=
  t.declared.findIdx? (·.name = name)

def ofCategory (t : SymbolTable) (c : Category) : List Variable :=
  t.declared.filter (·.category = c)

def maxIndex? (t : SymbolTable) (c : Category) : Option Nat :=
  ((t.ofCategory c).map Variable.index).max?

/-- How many cells a category needs so that each of its variables has one. -/
def cellCount (t : SymbolTable) (c : Category) : Nat :=
  match t.maxIndex? c with
  | none => 0
  | some index => index + 1

def size (t : SymbolTable) : Nat := t.declared.length

theorem mem_of_find? {t : SymbolTable} {name : String} {v : Variable}
    (h : t.find? name = some v) : v ∈ t.declared ∧ v.name = name :=
  ⟨List.mem_of_find?_eq_some h, by simpa using List.find?_some h⟩

theorem find?_eq_none_iff {t : SymbolTable} {name : String} :
    t.find? name = none ↔ name ∉ t.names := by
  simp [find?, names]

/-- Since names are distinct, a variable is the one that its name finds. -/
theorem find?_eq_some_iff {t : SymbolTable} {name : String} {v : Variable} :
    t.find? name = some v ↔ v ∈ t.declared ∧ v.name = name := by
  refine ⟨mem_of_find?, ?_⟩
  rintro ⟨member, rfl⟩
  rcases t with ⟨vs, distinct⟩
  unfold find?
  induction vs with
  | nil => cases member
  | cons w rest ih =>
      obtain ⟨fresh, distinct⟩ := List.nodup_cons.1 distinct
      rcases List.mem_cons.1 member with rfl | later
      · exact List.find?_cons_of_pos (decide_eq_true rfl)
      · have other : w.name ≠ v.name := fun same => fresh (same ▸ List.mem_map_of_mem later)
        rw [List.find?_cons_of_neg (by simpa using other)]
        exact ih distinct later

end SymbolTable

end RelayLogic
