import RelayLogic.Proofs.Expansion
import RelayLogic.Proofs.Shape

/-! The trees of resolved names. They are regular, have only variables of the table, and have no
more levels than resolving may go down, so they can all be compiled. -/
namespace RelayLogic

section

variable {vs : List Variable} {levels : Nat}

theorem Group.Proper.of_eq {e g : Expression} (h : g.Proper vs levels)
    (operator : e.operator = g.operator) (terms : e.terms = g.terms) : e.Proper vs levels := by
  rcases e with ⟨_, _, _, _, _⟩
  rcases g with ⟨_, _, _, _, _⟩
  cases operator
  cases terms
  exact ⟨h.regular, h.shallow, h.known⟩

theorem Group.Proper.fits {e : Expression} (h : e.Proper vs levels) :
    e.operator.fits e.terms.length = true :=
  (Group.isRegular_iff.1 h.regular).1

theorem Group.Proper.terms {e : Expression} (h : e.Proper vs (levels + 1)) :
    ∀ t ∈ e.terms, t.Proper vs levels := by
  intro t member
  have regular := (Group.isRegular_iff.1 h.regular).2
  have shallow := (Group.levels_le_iff.1 h.shallow).2
  refine ⟨regular t member, shallow t member, fun v leaf => h.known v ?_⟩
  rw [e.leaves_eq]
  exact Term.mem_leavesOfList.2 ⟨t, member, leaf⟩

theorem Group.Proper.levels_pos {e : Expression} (h : e.Proper vs levels) :
    ∃ inner, levels = inner + 1 :=
  Nat.exists_eq_add_one.2 (Group.levels_le_iff.1 h.shallow).1

theorem Group.Proper.mono {e : Expression} (h : e.Proper vs levels) {more : Nat}
    (le : levels ≤ more) : e.Proper vs more :=
  ⟨h.regular, Nat.le_trans h.shallow le, h.known⟩

/-- Other terms in the place of the terms, as many of them, make a proper expression again. -/
theorem Group.Proper.refill {e : Expression} {depth : Nat} (h : e.Proper vs depth)
    {terms : List Term}
    (refilled : ∀ {depth : Nat}, (∀ t ∈ e.terms, t.Proper vs depth) →
      terms.length = e.terms.length ∧ ∀ u ∈ terms, u.Proper vs levels) :
    Group.Proper { e with terms } vs (levels + 1) := by
  obtain ⟨inner, rfl⟩ := h.levels_pos
  obtain ⟨length, each⟩ := refilled h.terms
  apply Group.Proper.of_terms _ each
  rw [length]
  exact h.fits

theorem Term.Proper.leaf {inverted : Bool} {v : Variable}
    (h : (Term.leaf inverted v).Proper vs levels) (other : Nat) :
    (Term.leaf inverted v).Proper vs other :=
  ⟨h.regular, Nat.zero_le _, h.known⟩

theorem Group.Proper.pullUp {e : Expression} (h : e.Proper vs levels) :
    e.pullUp.Proper vs levels := by
  unfold Group.pullUp
  split
  · rename_i g operator terms
    obtain ⟨inner, rfl⟩ := h.levels_pos
    have term := h.terms (.group false g) (by rw [terms]; exact List.mem_singleton_self _)
    have inside : g.Proper vs inner := ⟨term.regular, term.shallow, term.known⟩
    exact (inside.mono (Nat.le_succ inner)).of_eq rfl rfl
  · exact h

end

namespace Program

variable {p : Program} {vs : List Variable} {path : List Variable} {l k : Ledger}

/-- The copy of an equation may be wrapped once more than the equation itself. -/
theorem proper_of_copyFor {v : Variable} {equation copy : Expression} {depth : Nat}
    (proper : equation.Proper vs depth) (copied : copyFor v equation l = (.ok copy, k)) :
    copy.Proper vs (depth + 1) := by
  by_cases lone : ∃ t, equation.terms = [t]
  · obtain ⟨t, lone⟩ := lone
    rw [copyFor_of_lone lone] at copied
    obtain ⟨rfl, -⟩ := Resolution.pure_eq_ok.1 copied
    obtain ⟨inner, rfl⟩ := proper.levels_pos
    have term := proper.terms t (by rw [lone]; exact List.mem_singleton_self t)
    refine .of_terms ?_ fun u member => ?_
    · split <;> rfl
    · rw [List.mem_singleton.1 member]
      exact term.mono (Nat.le_succ inner)
  · rw [copyFor_of_group (not_exists.1 lone)] at copied
    split at copied
    · obtain ⟨id, l', -, wrapped⟩ := Resolution.bind_eq_ok.1 copied
      obtain ⟨rfl, -⟩ := Resolution.pure_eq_ok.1 wrapped
      refine .of_terms rfl fun u member => ?_
      rw [List.mem_singleton.1 member]
      exact (proper.owned .assign (some v)).term false
    · obtain ⟨rfl, -⟩ := Resolution.pure_eq_ok.1 copied
      exact (proper.owned .assign (some v)).mono (Nat.le_succ depth)

/-- However deep the equations are, what is expanded has no more levels than it may go down. -/
theorem Expands.proper (equations : ∀ v e, p.equation? v = some e → e.Proper vs e.levels)
    {levels : Nat} {ts us : List Term} (h : p.Expands levels path ts l us k) {depth : Nat}
    (before : ∀ t ∈ ts, t.Proper vs depth) :
    us.length = ts.length ∧ ∀ u ∈ us, u.Proper vs levels := by
  induction h generalizing depth with
  | done => exact ⟨rfl, fun u member => by cases member⟩
  | empty _ _ => cases (before _ List.mem_cons_self).regular
  | @group _ _ inverted g _ _ _ _ _ _ _ _ inside later =>
      obtain ⟨here, there⟩ := List.forall_mem_cons.1 before
      have proper : g.Proper vs depth := ⟨here.regular, here.shallow, here.known⟩
      obtain ⟨count, others⟩ := later there
      have whole := proper.refill inside
      exact ⟨congrArg Nat.succ count, List.forall_mem_cons.2 ⟨whole.term inverted, others⟩⟩
  | free _ _ later | again _ _ _ _ later =>
      obtain ⟨here, there⟩ := List.forall_mem_cons.1 before
      obtain ⟨count, others⟩ := later there
      exact ⟨congrArg Nat.succ count, List.forall_mem_cons.2 ⟨here.leaf _, others⟩⟩
  | @first _ _ inverted _ _ _ _ _ _ _ _ _ _ found _ _ copied _ _ inside later =>
      obtain ⟨-, there⟩ := List.forall_mem_cons.1 before
      have proper := proper_of_copyFor (equations _ _ found) copied
      obtain ⟨count, others⟩ := later there
      have whole := proper.refill inside
      exact ⟨congrArg Nat.succ count, List.forall_mem_cons.2 ⟨whole.term inverted, others⟩⟩

theorem proper_of_expand (equations : ∀ v e, p.equation? v = some e → e.Proper vs e.levels)
    {root : Variable} {levels : Nat} {e t : Expression} {depth : Nat} (proper : e.Proper vs depth)
    (expanded : p.expand root levels path e l = (.ok t, k)) : t.Proper vs levels := by
  obtain ⟨below, terms, rfl, derived, rfl⟩ := expands_of_expand expanded
  exact proper.refill (derived.proper equations)

theorem proper_of_resolve (equations : ∀ v e, p.equation? v = some e → e.Proper vs e.levels)
    {name : String} {t : Expression} (resolved : p.resolve name l = (.ok t, k)) :
    t.Proper vs maxLevels := by
  obtain ⟨v, equation, e, -, found, expanded, rfl⟩ := resolve_eq_ok.1 resolved
  exact (proper_of_expand equations (equations v equation found) expanded).pullUp

/-- Where every variable has the value of its equation, a resolved tree has the value of its name. -/
theorem value_of_resolve {s : Variable → Bool}
    (solves : ∀ v e, p.equation? v = some e → s v = e.value s) {name : String} {v : Variable}
    {t : Expression} (declared : p.symbols.find? name = some v)
    (resolved : p.resolve name l = (.ok t, k)) : t.value s = s v := by
  obtain ⟨w, equation, e, declared', found, expanded, rfl⟩ := resolve_eq_ok.1 resolved
  cases declared.symm.trans declared'
  rw [Group.value_pullUp, value_of_expand solves expanded, solves v equation found]

end Program

end RelayLogic
