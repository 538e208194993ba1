import RelayLogic.Proofs.ResolvedShape
import RelayLogic.Proofs.Visits

/-! What the account of visits says of the tree. Every reference that is met is a visit, and all but
the first visit leave a leaf behind; so the account grows by the leaves, and by one for a variable
that gives way to its equation. -/
namespace RelayLogic

theorem Group.leaves_pullUp (e : Expression) : e.pullUp.leaves = e.leaves := by
  unfold Group.pullUp
  split
  · rename_i g operator terms
    rw [Group.leaves_eq, e.leaves_eq, terms]
    simp only [Term.leavesOfList, Term.leaves, List.append_nil, Group.leaves_eq]
  · rfl

theorem Ledger.count_visited_of_ne {name other : String} (h : other ≠ name) (l : Ledger) :
    (l.visited name).visits.count other = l.visits.count other :=
  List.count_cons_of_ne h.symm

namespace Program

/-- A group that stands in the place of a variable: a copy of the variable's equation, with terms
that were expanded. -/
def Replaces (p : Program) (g : Expression) (v : Variable) : Prop :=
  ∃ equation copy levels path l l' terms k, p.equation? v = some equation ∧
    copyFor v equation l = (.ok copy, l') ∧
    p.Expands levels (v :: path) copy.terms l' terms k ∧ g = { copy with terms }

/-- How the count of a variable's visits has changed where a tree with these leaves and groups was
made: not at all without an equation; by the leaves of the variable if it was visited before; and
otherwise it is still zero without any leaf, or a group stands in the place of the variable, and the
count is the leaves and one for that group. -/
structure Tally (p : Program) (v : Variable) (leaves : List Variable) (groups : List Expression)
    (l k : Ledger) : Prop where
  undefined : p.equation? v = none → k.visits.count v.name = l.visits.count v.name
  seen : p.equation? v ≠ none → 1 ≤ l.visits.count v.name →
    k.visits.count v.name = l.visits.count v.name + leaves.count v
  unseen : p.equation? v ≠ none → l.visits.count v.name = 0 →
    leaves.count v = 0 ∧ k.visits.count v.name = 0 ∨
      (∃ g ∈ groups, p.Replaces g v) ∧ k.visits.count v.name = 1 + leaves.count v

variable {p : Program} {v : Variable} {l l' k : Ledger}

namespace Tally

variable {leaves leaves' : List Variable} {groups groups' : List Expression}

theorem nil (l : Ledger) : p.Tally v [] [] l l where
  undefined _ := rfl
  seen _ _ := rfl
  unseen _ unvisited := .inl ⟨rfl, unvisited⟩

theorem append (h : p.Tally v leaves groups l l') (h' : p.Tally v leaves' groups' l' k) :
    p.Tally v (leaves ++ leaves') (groups ++ groups') l k where
  undefined none := (h'.undefined none).trans (h.undefined none)
  seen defined visited := by
    have between := h.seen defined visited
    rw [List.count_append, h'.seen defined (by omega), between, Nat.add_assoc]
  unseen defined unvisited := by
    rw [List.count_append]
    rcases h.unseen defined unvisited with ⟨none, still⟩ | ⟨⟨g, member, replaces⟩, counted⟩
    · rcases h'.unseen defined still with ⟨none', still'⟩ | ⟨⟨g, member, replaces⟩, counted⟩
      · exact .inl ⟨by omega, still'⟩
      · exact .inr ⟨⟨g, List.mem_append_right groups member, replaces⟩, by omega⟩
    · have counted' := h'.seen defined (by omega)
      exact .inr ⟨⟨g, List.mem_append_left groups' member, replaces⟩, by omega⟩

theorem mono (h : p.Tally v leaves groups l k) (more : groups ⊆ groups') :
    p.Tally v leaves groups' l k where
  undefined := h.undefined
  seen := h.seen
  unseen defined unvisited :=
    (h.unseen defined unvisited).imp id fun ⟨⟨g, member, replaces⟩, counted⟩ =>
      ⟨⟨g, more member, replaces⟩, counted⟩

/-- A leaf without an equation is no visit. -/
theorem free {w : Variable} (undefined : p.equation? w = none) (l : Ledger) :
    p.Tally v [w] [] l l := by
  have apart (defined : p.equation? v ≠ none) : [w].count v = 0 := by
    refine List.count_eq_zero_of_not_mem fun member => defined ?_
    rwa [List.mem_singleton.1 member]
  exact ⟨fun _ => rfl, fun defined _ => by rw [apart defined, Nat.add_zero],
    fun defined unvisited => .inl ⟨apart defined, unvisited⟩⟩

/-- A leaf of a variable that was visited is one more visit. -/
theorem again {w : Variable} (apart : v = w ∨ v.name ≠ w.name) (defined : p.equation? w ≠ none)
    (seen : w.name ∈ l.visits) : p.Tally v [w] [] l (l.visited w.name) := by
  rcases apart with rfl | apart
  · have before : 1 ≤ l.visits.count v.name := List.count_pos_iff.2 seen
    refine ⟨fun none => absurd none defined, fun _ _ => ?_, fun _ none => by omega⟩
    rw [List.count_singleton_self]
    exact List.count_cons_self
  · have same := l.count_visited_of_ne apart
    have other : [w].count v = 0 := by
      refine List.count_eq_zero_of_not_mem fun member => apart ?_
      rw [List.mem_singleton.1 member]
    exact ⟨fun _ => same, fun _ _ => by omega, fun _ none => .inl ⟨other, same.trans none⟩⟩

/-- A variable that was not visited gives way to its equation, and that is its visit. -/
theorem opened {w : Variable} {g : Expression} (apart : v = w ∨ v.name ≠ w.name)
    (replaces : p.Replaces g w) (unseen : w.name ∉ l.visits)
    (visited : l'.visits = (l.visited w.name).visits) (h : p.Tally v leaves groups l' k) :
    p.Tally v leaves (g :: groups) l k := by
  rcases apart with rfl | apart
  · have before : l.visits.count v.name = 0 := List.count_eq_zero_of_not_mem unseen
    have between : l'.visits.count v.name = 1 := by
      rw [visited, Ledger.visited, List.count_cons_self, before]
    have defined : p.equation? v ≠ none := by
      obtain ⟨_, _, _, _, _, _, _, _, found, -⟩ := replaces
      simp [found]
    have after := h.seen defined (Nat.le_of_eq between.symm)
    rw [between] at after
    exact ⟨fun none => absurd none defined, fun _ some => by omega,
      fun _ _ => .inr ⟨⟨g, List.mem_cons_self, replaces⟩, after⟩⟩
  · have same : l'.visits.count v.name = l.visits.count v.name := by
      rw [visited, Ledger.count_visited_of_ne apart]
    have grown := h.mono (List.subset_cons_self g groups)
    rcases grown with ⟨undefined, seen, unseen⟩
    rw [same] at undefined seen unseen
    exact ⟨undefined, seen, unseen⟩

end Tally

/-- What an expansion does to the count of a declared variable. -/
theorem Expands.tally (closed : p.Closed) (declared : v ∈ p.symbols.declared) {levels : Nat}
    {path : List Variable} {ts us : List Term} (h : p.Expands levels path ts l us k) :
    p.Tally v (Term.leavesOfList us) (Term.groupsOfList us) l k := by
  have apart {w : Variable} {e : Expression} (found : p.equation? w = some e) :
      v = w ∨ v.name ≠ w.name := by
    by_cases same : v.name = w.name
    · have there := closed.defined _ (mem_of_equation? found)
      exact .inl (SymbolTable.eq_of_name declared there same)
    · exact .inr same
  induction h with
  | done => exact .nil _
  | empty _ later => exact later
  | group _ _ inside later => exact (inside.mono (List.subset_cons_self _ _)).append later
  | free undefined _ later => exact (Tally.free undefined _).append later
  | again found _ seen _ later =>
      exact (Tally.again (apart found) (by simp [found]) seen).append later
  | @first _ _ _ w _ copy _ _ terms _ _ _ _ found _ unseen copied expanded _ inside later =>
      have replaces : p.Replaces { copy with terms } w :=
        ⟨_, _, _, _, _, _, _, _, found, copied, expanded, rfl⟩
      exact (inside.opened (apart found) replaces unseen (leaves_of_copyFor copied).2).append later

/-- No variable whose equation is open becomes a leaf. -/
theorem Expands.not_mem_leaves {levels : Nat} {path : List Variable} {ts us : List Term}
    (h : p.Expands levels path ts l us k) (opened : v ∈ path) (defined : p.equation? v ≠ none) :
    v ∉ Term.leavesOfList us := by
  induction h with
  | done => exact List.not_mem_nil
  | empty _ later => exact later opened
  | group _ _ inside later =>
      exact List.not_mem_append (inside opened) (later opened)
  | free undefined _ later =>
      refine List.not_mem_append (fun member => defined ?_) (later opened)
      rwa [List.mem_singleton.1 member]
  | again _ closed _ _ later =>
      refine List.not_mem_append (fun member => closed ?_) (later opened)
      rwa [← List.mem_singleton.1 member]
  | first _ _ _ _ _ _ inside later =>
      exact List.not_mem_append (inside (List.mem_cons_of_mem _ opened)) (later opened)

/-- Whatever was visited before, the visits of every variable are accounted for by the tree that a
name resolves to, and by the groups that stand in the place of variables. Those are groups of the
expanded equation; the root of the tree may have taken over the terms of its only group since. The
root is no leaf. -/
theorem visits_of_resolve (closed : p.Closed) {name : String} {t : Expression}
    (resolved : p.resolve name l = (.ok t, k)) :
    ∃ root equation e, p.symbols.find? name = some root ∧ p.equation? root = some equation ∧
      p.expand root maxLevels [root] equation l = (.ok e, k) ∧ t = e.pullUp ∧ root ∉ t.leaves ∧
      ∀ v ∈ p.symbols.declared, p.Tally v t.leaves (Term.groupsOfList e.terms) l k := by
  obtain ⟨root, equation, e, declared, found, expanded, rfl⟩ := resolve_eq_ok.1 resolved
  obtain ⟨below, terms, -, derived, rfl⟩ := expands_of_expand expanded
  refine ⟨root, equation, _, declared, found, expanded, rfl, ?_, fun v member => ?_⟩
  · rw [Group.leaves_pullUp, Group.leaves_eq]
    exact derived.not_mem_leaves List.mem_cons_self (by simp [found])
  · rw [Group.leaves_pullUp, Group.leaves_eq]
    exact derived.tally closed member

/-- What `out` of `sharing` resolves to after a visit of `f`. Both references to `f` are left. -/
def keptTree : Expression :=
  let a := Variable.plain "a" .input 0
  let f := Variable.plain "f" .flag 0
  let t := Variable.plain "t" .monoflop 0
  ⟨3, .and,
    [.group false ⟨4, .timer,
        [.group false ⟨2, .or, [.leaf false f, .leaf false a], some t, .assign⟩], some t, .assign⟩,
      .leaf true f], some (Variable.plain "out" .output 0), .assign⟩

/-- The two leaves of `f` are two more visits, and the one visit of `t` is the timer of the tree. -/
theorem visits_of_resolve_sharing :
    let out := Variable.plain "out" .output 0
    let k : Ledger := ⟨["f", "f", "t", "f"], 4⟩
    sharing.Closed ∧ sharing.resolve "out" ⟨["f"], 3⟩ = (.ok keptTree, k) ∧ out ∉ keptTree.leaves ∧
      ∃ e : Expression, keptTree = e.pullUp ∧ ∀ v ∈ sharing.symbols.declared,
        sharing.Tally v keptTree.leaves (Term.groupsOfList e.terms) ⟨["f"], 3⟩ k := by
  intro out k
  have closed : sharing.Closed := ⟨by decide, by decide⟩
  have resolved : sharing.resolve "out" ⟨["f"], 3⟩ = (.ok keptTree, k) := rfl
  obtain ⟨root, equation, e, declared, -, -, same, inner, tally⟩ :=
    visits_of_resolve closed resolved
  cases declared
  exact ⟨closed, resolved, inner, e, same, tally⟩

end Program

end RelayLogic
