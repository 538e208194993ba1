import RelayLogic.Proofs.Evaluation

/-! The shape of trees. A tree is regular if no term of it is empty and every operator has as many
terms as it can join. Regular trees are those that can be walked, and a walk fails nowhere in them
just if it may go as deep as they have levels. -/
namespace RelayLogic

mutual

def Group.isRegular (e : Expression) : Bool :=
  match e with
  | ⟨_, operator, terms, _, _⟩ => operator.fits terms.length && Term.areRegular terms
termination_by structural e

def Term.isRegular (t : Term) : Bool :=
  match t with
  | .empty _ => false
  | .leaf _ _ => true
  | .group _ g => g.isRegular
termination_by structural t

def Term.areRegular (ts : List Term) : Bool :=
  match ts with
  | [] => true
  | t :: rest => t.isRegular && Term.areRegular rest
termination_by structural ts

end

theorem Emission.failure_read (v : Variable) : (access .read v).failure = none := by
  obtain ⟨i, found⟩ := Option.isSome_iff_exists.1 (Instruction.ofAccess?_read_isSome v.category)
  simp only [access, found, one]

theorem Emission.failure_logicIf (wanted : Bool) (i : Instruction) :
    (logicIf wanted i).failure = none := by
  cases wanted <;> rfl

/-! What holds of lists of terms, term by term. -/

theorem Term.areRegular_iff {ts : List Term} :
    Term.areRegular ts = true ↔ ∀ t ∈ ts, t.isRegular = true := by
  induction ts with
  | nil => simp [Term.areRegular]
  | cons t rest ih => simp [Term.areRegular, ih]

theorem Term.levelsOfList_le_iff {ts : List Term} {levels : Nat} :
    Term.levelsOfList ts ≤ levels ↔ ∀ t ∈ ts, t.levels ≤ levels := by
  induction ts with
  | nil => simp [Term.levelsOfList]
  | cons t rest ih =>
      simp only [Term.levelsOfList, Nat.max_le, ih, List.mem_cons, forall_eq_or_imp]

theorem Term.mem_leavesOfList {v : Variable} {ts : List Term} :
    v ∈ Term.leavesOfList ts ↔ ∃ t ∈ ts, v ∈ t.leaves := by
  induction ts with
  | nil => simp [Term.leavesOfList]
  | cons t rest ih => simp [Term.leavesOfList, ih]

/-! What holds of groups, by their terms. -/

theorem Group.isRegular_iff {e : Expression} :
    e.isRegular = true ↔
      e.operator.fits e.terms.length = true ∧ ∀ t ∈ e.terms, t.isRegular = true := by
  rcases e with ⟨_, _, _, _, _⟩
  simp only [Group.isRegular, Bool.and_eq_true, Term.areRegular_iff]

theorem Group.levels_le_iff {e : Expression} {levels : Nat} :
    e.levels ≤ levels ↔ 0 < levels ∧ ∀ t ∈ e.terms, t.levels ≤ levels - 1 := by
  rw [← Term.levelsOfList_le_iff]
  rcases e with ⟨_, _, terms, _, _⟩
  change 1 + Term.levelsOfList terms ≤ levels ↔ _ ∧ Term.levelsOfList terms ≤ levels - 1
  omega

theorem Term.levels_lt {t : Term} {e : Expression} (member : t ∈ e.terms) : t.levels < e.levels := by
  obtain ⟨positive, below⟩ := Group.levels_le_iff.1 (Nat.le_refl e.levels)
  exact Nat.lt_of_le_sub_one positive (below t member)

/-- What all empty terms and all variables have, and a group has if its terms have it. -/
@[elab_as_elim]
theorem Term.induction {motive : Term → Prop} (empty : ∀ inverted, motive (.empty inverted))
    (leaf : ∀ inverted v, motive (.leaf inverted v))
    (group : ∀ inverted (g : Expression), (∀ t ∈ g.terms, motive t) → motive (.group inverted g))
    (t : Term) : motive t := by
  cases t with
  | empty inverted => exact empty inverted
  | leaf inverted v => exact leaf inverted v
  | group inverted g => exact group inverted g fun u _ => Term.induction empty leaf group u
termination_by t.levels
decreasing_by exact Term.levels_lt ‹_›

/-! What a walk gives out, step by step. -/

namespace Group

variable {e : Expression}

theorem emit_zero (e : Expression) : e.emit 0 = .fail .nestingTooDeep := by
  rcases e with ⟨_, _, _, _, _⟩
  rfl

theorem emit_of_fits (fits : e.operator.fits e.terms.length = true) (levels : Nat) :
    e.emit (levels + 1) = Term.emitList e.terms e.id none e.operator.joint? levels := by
  rcases e with ⟨_, _, _, _, _⟩
  exact if_pos fits

theorem emit_of_not_fits (fits : ¬e.operator.fits e.terms.length = true) (levels : Nat) :
    e.emit (levels + 1) = .fail (.malformed e.id) := by
  rcases e with ⟨_, _, _, _, _⟩
  exact if_neg fits

end Group

theorem Term.emitList_cons (t : Term) (rest : List Term) (id levels : Nat)
    (joint later : Option Instruction) :
    Term.emitList (t :: rest) id joint later levels =
      (t.emit id levels).andThen (Emission.andThen ⟨joint.toList.map .logic, none⟩
        (Term.emitList rest id later later levels)) := by
  cases joint <;> rfl

theorem Term.failure_emitList_iff {ts : List Term} {id levels : Nat}
    {joint later : Option Instruction} :
    (Term.emitList ts id joint later levels).failure = none ↔
      ∀ t ∈ ts, (t.emit id levels).failure = none := by
  induction ts generalizing joint with
  | nil => exact iff_of_true rfl nofun
  | cons t rest ih =>
      rw [Term.emitList_cons, Emission.failure_andThen, Emission.failure_andThen, ih,
        List.forall_mem_cons]
      exact and_congr_right fun _ => and_iff_right rfl

theorem Group.failure_emit_iff {e : Expression} {levels : Nat} :
    (e.emit levels).failure = none ↔
      0 < levels ∧ e.operator.fits e.terms.length = true ∧
        ∀ t ∈ e.terms, (t.emit e.id (levels - 1)).failure = none := by
  cases levels with
  | zero => simp [Group.emit_zero, Emission.fail]
  | succ inner =>
      by_cases fits : e.operator.fits e.terms.length = true
      · rw [Group.emit_of_fits fits, Term.failure_emitList_iff, Nat.add_sub_cancel]
        simp [fits]
      · simp [Group.emit_of_not_fits fits, Emission.fail, fits]

/-- A walk comes to the end of just those terms that are regular and not too deep for it. -/
theorem Term.failure_emit_iff {t : Term} {id levels : Nat} :
    (t.emit id levels).failure = none ↔ t.isRegular = true ∧ t.levels ≤ levels := by
  induction t using Term.induction generalizing id levels with
  | empty inverted =>
      refine iff_of_false ?_ ?_
      · exact fun clean => nomatch clean
      · exact fun ⟨regular, _⟩ => nomatch regular
  | leaf inverted v =>
      refine iff_of_true ?_ ⟨rfl, Nat.zero_le levels⟩
      exact Emission.failure_andThen.2
        ⟨Emission.failure_read v, Emission.failure_logicIf inverted .not⟩
  | group inverted g ih =>
      rw [Term.emit, Emission.failure_andThen, Group.failure_emit_iff]
      change _ ↔ g.isRegular = true ∧ g.levels ≤ levels
      rw [Group.isRegular_iff, Group.levels_le_iff]
      constructor
      · rintro ⟨⟨room, fits, each⟩, -⟩
        have both := fun t member => (ih t member).1 (each t member)
        exact ⟨⟨fits, fun t member => (both t member).1⟩, room, fun t member => (both t member).2⟩
      · rintro ⟨⟨fits, regular⟩, room, shallow⟩
        refine ⟨⟨room, fits, fun t member => ?_⟩, Emission.failure_logicIf inverted .not⟩
        exact (ih t member).2 ⟨regular t member, shallow t member⟩

/-- A regular tree is walked to its end. -/
theorem Group.failure_emit (e : Expression) (regular : e.isRegular = true) {levels : Nat}
    (deep : e.levels ≤ levels) : (e.emit levels).failure = none := by
  obtain ⟨fits, each⟩ := Group.isRegular_iff.1 regular
  obtain ⟨room, shallow⟩ := Group.levels_le_iff.1 deep
  refine Group.failure_emit_iff.2 ⟨room, fits, fun t member => ?_⟩
  exact Term.failure_emit_iff.2 ⟨each t member, shallow t member⟩

/-- A regular tree of so many levels at most, all of whose variables are among those given. -/
structure Group.Proper (e : Expression) (vs : List Variable) (levels : Nat) : Prop where
  regular : e.isRegular = true
  shallow : e.levels ≤ levels
  known : ∀ v ∈ e.leaves, v ∈ vs

structure Term.Proper (t : Term) (vs : List Variable) (levels : Nat) : Prop where
  regular : t.isRegular = true
  shallow : t.levels ≤ levels
  known : ∀ v ∈ t.leaves, v ∈ vs

variable {vs : List Variable} {levels : Nat}

theorem Group.Proper.of_terms {e : Expression} (fits : e.operator.fits e.terms.length = true)
    (each : ∀ t ∈ e.terms, t.Proper vs levels) : e.Proper vs (levels + 1) := by
  refine ⟨?_, ?_, fun v member => ?_⟩
  · exact Group.isRegular_iff.2 ⟨fits, fun t member => (each t member).regular⟩
  · exact Group.levels_le_iff.2 ⟨Nat.succ_pos levels, fun t member => (each t member).shallow⟩
  · rw [e.leaves_eq] at member
    obtain ⟨t, there, here⟩ := Term.mem_leavesOfList.1 member
    exact (each t there).known v here

theorem Term.Proper.mono {t : Term} (h : t.Proper vs levels) {more : Nat} (le : levels ≤ more) :
    t.Proper vs more :=
  ⟨h.regular, Nat.le_trans h.shallow le, h.known⟩

theorem Group.Proper.term {g : Expression} (h : g.Proper vs levels) (inverted : Bool) :
    (Term.group inverted g).Proper vs levels :=
  ⟨h.regular, h.shallow, h.known⟩

theorem Term.Proper.invert {t : Term} (h : t.Proper vs levels) : t.invert.Proper vs levels := by
  cases t with
  | empty _ => cases h.regular
  | leaf _ _ => exact ⟨rfl, h.shallow, h.known⟩
  | group inverted g => exact ⟨h.regular, h.shallow, h.known⟩

/-- The owner and the assignment have no part in the shape. -/
theorem Group.Proper.owned {e : Expression} (h : e.Proper vs levels) (assignment : Assignment)
    (owner : Option Variable) : Group.Proper { e with assignment, owner } vs levels := by
  rcases e with ⟨id, operator, terms, _, _⟩
  exact ⟨h.regular, h.shallow, h.known⟩

theorem Group.Proper.need_le {e : Expression} (h : e.Proper vs levels) : e.need ≤ levels + 1 :=
  Nat.le_trans (Group.need_le e) (Nat.succ_le_succ h.shallow)

/-- A proper tree compiles, and its code gives its value where there is the room that it needs. -/
theorem Group.Proper.execute_of_need {e : Expression} (proper : e.Proper vs levels)
    (bounded : levels ≤ maxLevels) :
    ∃ ops, e.code.toExcept = .ok ops ∧
      ∀ m : Memory, (∀ v ∈ vs, v.index < m.cells v.category) →
        ∀ capacity, e.need ≤ capacity → (m.execute capacity ops).1 = .ok (e.value m.bitOf) := by
  have clean := e.failure_emit proper.regular (Nat.le_trans proper.shallow bounded)
  refine ⟨_, Emission.toExcept_eq_ok.2 ⟨clean, rfl⟩, fun m cells capacity room => ?_⟩
  have inside : ∀ v ∈ e.leaves, v.index < m.cells v.category :=
    fun v leaf => cells v (proper.known v leaf)
  exact ((Group.turns_code clean inside capacity).execute (.refl m)).1.trans (if_pos room)

/-- One item more than the tree has levels is room enough. -/
theorem Group.Proper.execute {e : Expression} (proper : e.Proper vs levels)
    (bounded : levels ≤ maxLevels) :
    ∃ ops, e.code.toExcept = .ok ops ∧
      ∀ m : Memory, (∀ v ∈ vs, v.index < m.cells v.category) →
        ∀ capacity, levels < capacity → (m.execute capacity ops).1 = .ok (e.value m.bitOf) := by
  obtain ⟨ops, compiled, runs⟩ := proper.execute_of_need bounded
  refine ⟨ops, compiled, fun m cells capacity room => ?_⟩
  exact runs m cells capacity (Nat.le_trans proper.need_le room)

end RelayLogic
