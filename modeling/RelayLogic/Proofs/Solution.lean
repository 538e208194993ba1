import Mathlib.Data.Finset.Card
import Mathlib.Data.List.Dedup
import RelayLogic.Proofs.Cycle

/-! Equations as a system. Where no references form a cycle, the values of the variables without an
equation can be chosen freely, and each choice has a solution. -/
namespace RelayLogic.Program

variable {p : Program}

/-- Every variable that has an equation has the value of it. -/
def Solves (p : Program) (s : Variable → Bool) : Prop :=
  ∀ v e, p.equation? v = some e → s v = e.value s

def Acyclic (p : Program) : Prop := ∀ v, ¬p.OnCycle v

/-- Where references only lead to lower ranks, none leads back. -/
theorem Acyclic.of_rank (rank : Variable → Nat)
    (falls : ∀ v w, p.Refers v w → rank w < rank v) : p.Acyclic := by
  intro v cycle
  have below : ∀ w, Relation.TransGen p.Refers v w → rank w < rank v := by
    intro w path
    induction path with
    | single refers => exact falls _ _ refers
    | tail _ refers ih => exact (falls _ _ refers).trans ih
  exact Nat.lt_irrefl _ (below v cycle)

/-- Without cycles, following references comes to an end. -/
theorem Acyclic.wellFounded (acyclic : p.Acyclic) : WellFounded fun w v => p.Refers v w := by
  classical
  let defined := (p.equations.map Prod.fst).toFinset
  let below := fun v => defined.filter fun w => Relation.TransGen p.Refers v w
  have listed : ∀ {v w}, p.Refers v w → w ∈ defined := by
    rintro v w ⟨-, -, -, hw⟩
    obtain ⟨e, found⟩ := Option.ne_none_iff_exists'.1 hw
    exact List.mem_toFinset.2 (List.mem_map_of_mem (mem_of_equation? found))
  have shrinks : ∀ {v w}, p.Refers v w → (below w).card < (below v).card := by
    intro v w refers
    refine Finset.card_lt_card ⟨fun x member => ?_, fun contained => ?_⟩
    · obtain ⟨there, later⟩ := Finset.mem_filter.1 member
      exact Finset.mem_filter.2 ⟨there, later.head refers⟩
    · have here : w ∈ below v := Finset.mem_filter.2 ⟨listed refers, .single refers⟩
      exact acyclic w (Finset.mem_filter.1 (contained here)).2
  exact Subrelation.wf shrinks (measure fun v => (below v).card).wf

open Classical in
/-- The values of all variables, worked out from those of the variables without an equation. -/
noncomputable def solution (p : Program) (acyclic : p.Acyclic) (base : Variable → Bool) :
    Variable → Bool :=
  acyclic.wellFounded.fix fun v below =>
    match p.equation? v with
    | none => base v
    | some e => e.value fun w => if refers : p.Refers v w then below w refers else base w

theorem solution_eq (acyclic : p.Acyclic) (base : Variable → Bool) (v : Variable) :
    p.solution acyclic base v =
      match p.equation? v with
      | none => base v
      | some e => e.value (p.solution acyclic base) := by
  rw [solution, WellFounded.fix_eq]
  cases found : p.equation? v with
  | none => rfl
  | some e =>
      refine e.value_congr fun w leaf => ?_
      split
      · rfl
      · rename_i free
        have undefined : p.equation? w = none := by
          by_contra defined
          exact free ⟨e, found, leaf, defined⟩
        rw [WellFounded.fix_eq, undefined]

theorem exists_solves (acyclic : p.Acyclic) (base : Variable → Bool) :
    ∃ s, p.Solves s ∧ ∀ v, p.equation? v = none → s v = base v := by
  refine ⟨p.solution acyclic base, fun v e found => ?_, fun v undefined => ?_⟩
  · rw [solution_eq, found]
  · rw [solution_eq, undefined]

end RelayLogic.Program
