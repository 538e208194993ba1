import RelayLogic.Code.Tree
import RelayLogic.Machine.Memory

/-! What trees mean. A tree has a value wherever its variables have values, and working it out on
a stack needs a certain room, which never exceeds the levels of the tree by more than one. -/
namespace RelayLogic

/-- The bit that a variable stands for in a memory. -/
def Memory.bitOf (m : Memory) (v : Variable) : Bool := m.value v.category v.index

/-- Joins the values of all terms. A lone term passes its value on. -/
def Operator.join : Operator → List Bool → Bool
  | and, bits => bits.all id
  | or, bits => bits.any id
  | none, bits | timer, bits => bits.headD false

mutual

/-- The value of an expression where its variables have the given values. -/
def Group.value (s : Variable → Bool) (e : Expression) : Bool :=
  match e with
  | ⟨_, operator, terms, _, _⟩ => operator.join (Term.values s terms)
termination_by structural e

/-- The value of a term. An inverted one is complemented, and an empty one counts as off. -/
def Term.value (s : Variable → Bool) (t : Term) : Bool :=
  match t with
  | .empty inverted => inverted
  | .leaf inverted v => inverted ^^ s v
  | .group inverted g => inverted ^^ g.value s
termination_by structural t

def Term.values (s : Variable → Bool) (ts : List Term) : List Bool :=
  match ts with
  | [] => []
  | t :: rest => t.value s :: Term.values s rest
termination_by structural ts

end

mutual

/-- How many places a stack needs for working out an expression. -/
def Group.need (e : Expression) : Nat :=
  match e with
  | ⟨_, _, terms, _, _⟩ => Term.needOfList terms 0
termination_by structural e

def Term.need (t : Term) : Nat :=
  match t with
  | .empty _ => 0
  | .leaf _ _ => 1
  | .group _ g => g.need
termination_by structural t

/-- The room for some terms while so many values are held. All but the first term are worked out
while the value of those before is held. -/
def Term.needOfList (ts : List Term) : Nat → Nat :=
  match ts with
  | [] => fun _ => 0
  | t :: rest => fun held => max (held + t.need) (Term.needOfList rest 1)
termination_by structural ts

end

theorem Term.values_eq_map (s : Variable → Bool) (ts : List Term) :
    Term.values s ts = ts.map (Term.value s) := by
  induction ts with
  | nil => rfl
  | cons t rest ih => rw [Term.values, ih, List.map_cons]

theorem Group.value_eq (s : Variable → Bool) (e : Expression) :
    e.value s = e.operator.join (e.terms.map (Term.value s)) := by
  rcases e with ⟨id, operator, terms, owner, assignment⟩
  rw [Group.value, Term.values_eq_map]

theorem Operator.join_singleton (operator : Operator) (b : Bool) : operator.join [b] = b := by
  cases operator <;> simp [Operator.join]

mutual

/-- Only the variables at the leaves have a part in the value. -/
theorem Group.value_congr {s s' : Variable → Bool} (e : Expression)
    (agree : ∀ v ∈ e.leaves, s v = s' v) : e.value s = e.value s' :=
  match e with
  | ⟨_, operator, terms, _, _⟩ => congrArg operator.join (Term.values_congr terms agree)
termination_by structural e

theorem Term.value_congr {s s' : Variable → Bool} (t : Term)
    (agree : ∀ v ∈ t.leaves, s v = s' v) : t.value s = t.value s' :=
  match t with
  | .empty _ => rfl
  | .leaf inverted v => congrArg (inverted ^^ ·) (agree v (List.mem_singleton_self v))
  | .group inverted g => congrArg (inverted ^^ ·) (g.value_congr agree)
termination_by structural t

theorem Term.values_congr {s s' : Variable → Bool} (ts : List Term)
    (agree : ∀ v ∈ Term.leavesOfList ts, s v = s' v) : Term.values s ts = Term.values s' ts :=
  match ts with
  | [] => rfl
  | t :: rest => by
    have first := t.value_congr fun v leaf => agree v (List.mem_append_left _ leaf)
    have later := Term.values_congr rest fun v leaf => agree v (List.mem_append_right _ leaf)
    rw [Term.values, Term.values, first, later]
termination_by structural ts

end

mutual

/-- One place for each level, and one for the value of a variable. -/
theorem Group.need_le (e : Expression) : e.need ≤ e.levels + 1 :=
  match e with
  | ⟨_, _, terms, _, _⟩ => by
    have := Term.needOfList_le terms 0 (Nat.zero_le 1)
    simp only [Group.need, Group.levels]
    omega
termination_by structural e

theorem Term.need_le (t : Term) : t.need ≤ t.levels + 1 :=
  match t with
  | .empty _ => Nat.zero_le _
  | .leaf _ _ => Nat.le_refl 1
  | .group _ g => g.need_le
termination_by structural t

theorem Term.needOfList_le (ts : List Term) (held : Nat) (few : held ≤ 1) :
    Term.needOfList ts held ≤ Term.levelsOfList ts + 2 :=
  match ts with
  | [] => Nat.zero_le _
  | t :: rest => by
    have first := t.need_le
    have later := Term.needOfList_le rest 1 (Nat.le_refl 1)
    simp only [Term.needOfList, Term.levelsOfList]
    omega
termination_by structural ts

end

end RelayLogic
