import Mathlib.Data.List.Nodup
import RelayLogic.Proofs.Expansion

/-! What visits tell. A resolution visits a variable when it opens the variable's equation, and from
then on leaves the variable as it stands. That loses nothing if all that is wanted of a variable
follows from the same for the variables that its equation refers to: whatever was visited, and is
no longer open, has it. -/
namespace RelayLogic

theorem SymbolTable.eq_of_name {t : SymbolTable} {v w : Variable} (hv : v ∈ t.declared)
    (hw : w ∈ t.declared) (same : v.name = w.name) : v = w :=
  List.inj_on_of_nodup_map t.distinct hv hw same

namespace Program

variable {p : Program} {clear : Variable → Prop} {path : List Variable} {l k : Ledger}
  {v : Variable}

theorem Closed.eq_of_name (closed : p.Closed) {v w : Variable} (hv : p.equation? v ≠ none)
    (hw : p.equation? w ≠ none) (same : v.name = w.name) : v = w := by
  obtain ⟨e, found⟩ := Option.ne_none_iff_exists'.1 hv
  obtain ⟨f, found'⟩ := Option.ne_none_iff_exists'.1 hw
  exact SymbolTable.eq_of_name (closed.defined _ (mem_of_equation? found))
    (closed.defined _ (mem_of_equation? found')) same

/-- What a variable with an equation has if the variables have it that the equation refers to. -/
def Inherited (p : Program) (clear : Variable → Prop) : Prop :=
  ∀ v e, p.equation? v = some e → (∀ w ∈ e.leaves, p.equation? w ≠ none → clear w) → clear v

/-- Every variable that was visited is open or clear. -/
def Marks (p : Program) (clear : Variable → Prop) (path : List Variable) (l : Ledger) : Prop :=
  ∀ w, p.equation? w ≠ none → w.name ∈ l.visits → w ∈ path ∨ clear w

/-- Every reference among these variables is to a clear one. -/
def Clears (p : Program) (clear : Variable → Prop) (vs : List Variable) : Prop :=
  ∀ w ∈ vs, p.equation? w ≠ none → clear w

theorem Marks.again (h : p.Marks clear path l) (seen : v.name ∈ l.visits) :
    p.Marks clear path (l.visited v.name) := by
  intro w defined visited
  rcases List.mem_cons.1 visited with same | visited
  · exact h w defined (same ▸ seen)
  · exact h w defined visited

theorem Marks.push (closed : p.Closed) (h : p.Marks clear path l)
    (defined : p.equation? v ≠ none) : p.Marks clear (v :: path) (l.visited v.name) := by
  intro w hw visited
  rcases List.mem_cons.1 visited with same | visited
  · exact .inl (closed.eq_of_name hw defined same ▸ List.mem_cons_self)
  · exact (h w hw visited).imp (List.mem_cons_of_mem v) id

theorem Marks.pop (h : p.Marks clear (v :: path) l) (here : clear v) : p.Marks clear path l := by
  intro w defined visited
  rcases h w defined visited with opened | there
  · rcases List.mem_cons.1 opened with rfl | opened
    · exact .inr here
    · exact .inl opened
  · exact .inr there

theorem Clears.singleton (here : p.equation? v ≠ none → clear v) : p.Clears clear [v] := by
  intro w leaf
  rwa [List.mem_singleton.1 leaf]

theorem Clears.append {vs ws : List Variable} (h : p.Clears clear vs) (h' : p.Clears clear ws) :
    p.Clears clear (vs ++ ws) := by
  intro w member
  rcases List.mem_append.1 member with here | there
  · exact h w here
  · exact h' w there

/-- What is expanded refers to clear variables only, and every variable that is left visited and not
open is clear. -/
theorem Expands.marks (closed : p.Closed) (inherited : p.Inherited clear) {levels : Nat}
    {ts us : List Term} (h : p.Expands levels path ts l us k) (before : p.Marks clear path l) :
    p.Marks clear path k ∧ p.Clears clear (Term.leavesOfList ts) := by
  induction h with
  | done => exact ⟨before, fun w leaf => by cases leaf⟩
  | empty _ later => exact later before
  | @group _ _ _ g _ _ _ _ _ _ _ _ inside later =>
      obtain ⟨between, here⟩ := inside before
      obtain ⟨after, there⟩ := later between
      rw [← g.leaves_eq] at here
      exact ⟨after, here.append there⟩
  | free undefined _ later =>
      obtain ⟨after, there⟩ := later before
      exact ⟨after, (Clears.singleton fun defined => absurd undefined defined).append there⟩
  | again found notOpen seen _ later =>
      have defined := Option.ne_none_iff_exists'.2 ⟨_, found⟩
      -- It was visited before and is not open now, so it was clear then.
      have here := (before _ defined seen).resolve_left notOpen
      obtain ⟨after, there⟩ := later (before.again seen)
      exact ⟨after, (Clears.singleton fun _ => here).append there⟩
  | @first _ _ _ _ _ copy _ _ _ _ _ _ _ found _ _ copied _ _ inside later =>
      have defined := Option.ne_none_iff_exists'.2 ⟨_, found⟩
      obtain ⟨leaves, visits⟩ := leaves_of_copyFor copied
      -- It is open while its copy is expanded, which clears its references and so itself.
      have opened := before.push closed defined
      unfold Marks at opened
      rw [← visits] at opened
      obtain ⟨between, inner⟩ := inside opened
      rw [← copy.leaves_eq, leaves] at inner
      have here := inherited _ _ found inner
      obtain ⟨after, there⟩ := later (between.pop here)
      exact ⟨after, (Clears.singleton fun _ => here).append there⟩

/-- A name that resolves refers to clear variables only, and every variable that is left visited is
clear. -/
theorem marks_of_resolve (closed : p.Closed) (inherited : p.Inherited clear) {name : String}
    {t : Expression} (resolved : p.resolve name l = (.ok t, k)) (before : p.Marks clear [] l) :
    ∃ v e, p.symbols.find? name = some v ∧ p.equation? v = some e ∧ p.Clears clear e.leaves ∧
      p.Marks clear [] k := by
  obtain ⟨v, equation, e, declared, found, expanded, -⟩ := resolve_eq_ok.1 resolved
  obtain ⟨_, _, -, derived, -⟩ := expands_of_expand expanded
  have opened : p.Marks clear [v] l := by
    intro w defined visited
    exact .inr ((before w defined visited).resolve_left List.not_mem_nil)
  obtain ⟨after, inner⟩ := derived.marks closed inherited opened
  rw [← equation.leaves_eq] at inner
  exact ⟨v, equation, declared, found, inner, after.pop (inherited v equation found inner)⟩

end Program

end RelayLogic
