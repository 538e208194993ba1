import RelayLogic.Proofs.ExpressionGrammar
import RelayLogic.Proofs.Shape

/-! The trees of phrases. Each is regular and has only declared variables, and each parenthesis of
the phrase adds two levels at most: a group of its own, and one for what stands between two cuts. -/
namespace RelayLogic

mutual

/-- The numbers of the nodes have no part in the shape of an expression. -/
theorem Group.shape_unnumbered (e : Expression) :
    e.unnumbered.isRegular = e.isRegular ∧ e.unnumbered.levels = e.levels ∧
      e.unnumbered.leaves = e.leaves :=
  match e with
  | ⟨_, operator, terms, _, _⟩ => by
    obtain ⟨regular, levels, leaves⟩ := Term.shape_unnumberedList terms
    have length : (Term.unnumberedList terms).length = terms.length := by
      rw [Term.unnumberedList_eq_map, List.length_map]
    simp only [Group.unnumbered, Group.isRegular, Group.levels, Group.leaves, regular, levels,
      leaves, length, and_self]
termination_by structural e

theorem Term.shape_unnumbered (t : Term) :
    t.unnumbered.isRegular = t.isRegular ∧ t.unnumbered.levels = t.levels ∧
      t.unnumbered.leaves = t.leaves :=
  match t with
  | .empty _ => ⟨rfl, rfl, rfl⟩
  | .leaf _ _ => ⟨rfl, rfl, rfl⟩
  | .group _ g => g.shape_unnumbered
termination_by structural t

theorem Term.shape_unnumberedList (ts : List Term) :
    Term.areRegular (Term.unnumberedList ts) = Term.areRegular ts ∧
      Term.levelsOfList (Term.unnumberedList ts) = Term.levelsOfList ts ∧
      Term.leavesOfList (Term.unnumberedList ts) = Term.leavesOfList ts :=
  match ts with
  | [] => ⟨rfl, rfl, rfl⟩
  | t :: rest => by
    obtain ⟨regular, levels, leaves⟩ := t.shape_unnumbered
    obtain ⟨regular', levels', leaves'⟩ := Term.shape_unnumberedList rest
    simp only [Term.unnumberedList, Term.areRegular, Term.levelsOfList, Term.leavesOfList, regular,
      levels, leaves, regular', levels', leaves', and_self]
termination_by structural ts

end

variable {vs : List Variable} {levels : Nat}

theorem Group.proper_unnumbered {e : Expression} :
    e.unnumbered.Proper vs levels ↔ e.Proper vs levels := by
  obtain ⟨regular, depth, leaves⟩ := e.shape_unnumbered
  constructor
  · intro h
    exact ⟨regular ▸ h.regular, depth ▸ h.shallow, leaves ▸ h.known⟩
  · intro h
    exact ⟨regular.symm ▸ h.regular, depth.symm ▸ h.shallow, leaves.symm ▸ h.known⟩

/-- A segment with terms, all of which are proper. -/
structure ProperSegment (vs : List Variable) (levels : Nat) (ts : List Term) : Prop where
  some : ts ≠ []
  each : ∀ t ∈ ts, t.Proper vs levels

theorem Term.proper_ofSegment {ts : List Term} (h : ProperSegment vs levels ts) :
    (Term.ofSegment ts).Proper vs (levels + 1) := by
  unfold Term.ofSegment
  split
  · rename_i t
    exact (h.each t (List.mem_singleton_self t)).mono (Nat.le_succ levels)
  · refine (Group.Proper.of_terms ?_ h.each).term false
    simpa [Operator.fits, Operator.joint?, Group.anonymous] using h.some

theorem Group.proper_ofSegments {segments : List (List Term)} (some : segments ≠ [])
    (each : ∀ ts ∈ segments, ProperSegment vs levels ts) :
    (Group.ofSegments segments).Proper vs (levels + 2) := by
  unfold Group.ofSegments
  split
  · rename_i t
    have h := each [t] (List.mem_singleton_self _)
    refine .of_terms rfl fun u member => ?_
    exact (h.each u member).mono (Nat.le_succ levels)
  · rename_i ts _
    have h := each ts (List.mem_singleton_self _)
    refine .of_terms ?_ fun u member => (h.each u member).mono (Nat.le_succ levels)
    simpa [Operator.fits, Operator.joint?, Group.anonymous] using h.some
  · refine .of_terms ?_ fun u member => ?_
    · simpa [Operator.fits, Operator.joint?, Group.anonymous] using some
    · obtain ⟨ts, there, rfl⟩ := List.mem_map.1 member
      exact Term.proper_ofSegment (each ts there)

theorem ProperSegment.singleton {t : Term} (h : t.Proper vs levels) :
    ProperSegment vs levels [t] :=
  ⟨List.cons_ne_nil t [], fun u member => by rwa [List.mem_singleton.1 member]⟩

theorem ProperSegment.cons {t : Term} {ts : List Term} (h : t.Proper vs levels)
    (h' : ProperSegment vs levels ts) : ProperSegment vs levels (t :: ts) :=
  ⟨List.cons_ne_nil t ts, List.forall_mem_cons.2 ⟨h, h'.each⟩⟩

/-- A term before the first segment: what holds of that and of the later segments holds of all. -/
theorem forall_extendFirst {P : List Term → Prop} {t : Term} {segments : List (List Term)}
    (single : P [t]) (join : ∀ {ts}, P ts → P (t :: ts)) (each : ∀ ts ∈ segments, P ts) :
    ∀ ts ∈ extendFirst [t] segments, P ts := by
  cases segments with
  | nil => exact List.forall_mem_singleton.2 single
  | cons segment more =>
      obtain ⟨first, others⟩ := List.forall_mem_cons.1 each
      exact List.forall_mem_cons.2 ⟨join first, others⟩

mutual

/-- What an operand means has at most two levels for each sign that may still enclose it. -/
theorem Operand.proper_term {symbols : SymbolTable} (o : Operand) {depth : Nat}
    (fits : o.Fits symbols depth) :
    o.term.Proper symbols.declared (2 * (maxNesting - depth)) :=
  match o with
  | .name v => ⟨rfl, Nat.zero_le _, fun w here => by
      obtain rfl := List.mem_singleton.1 here
      exact (SymbolTable.mem_of_find? fits).1⟩
  | .inverted o => by
    have inner := o.proper_term fits.2
    exact inner.invert.mono (by omega)
  | .enclosed p => by
    have inner := Group.proper_ofSegments p.segments_ne_nil (p.proper_segments fits.2)
    have room := fits.1
    exact (inner.term false).mono (by omega)
termination_by structural o

theorem Phrase.proper_segments {symbols : SymbolTable} (p : Phrase) {depth : Nat}
    (fits : p.Fits symbols depth) :
    ∀ ts ∈ p.segments, ProperSegment symbols.declared (2 * (maxNesting - depth)) ts :=
  match p with
  | .last o => fun ts member => by
    rw [List.mem_singleton.1 member]
    exact .singleton (o.proper_term fits)
  | .join o .and rest =>
    forall_extendFirst (.singleton (o.proper_term fits.1)) (.cons (o.proper_term fits.1))
      (rest.proper_segments fits.2)
  | .join o .or rest => fun ts member => by
    have later := rest.proper_segments fits.2
    rcases List.mem_cons.1 member with rfl | there
    · exact .singleton (o.proper_term fits.1)
    · exact later ts there
termination_by structural p

end

theorem Phrase.proper_tree {symbols : SymbolTable} {p : Phrase} {depth : Nat}
    (fits : p.Fits symbols depth) :
    p.tree.Proper symbols.declared (2 * (maxNesting - depth) + 2) :=
  Group.proper_ofSegments p.segments_ne_nil (p.proper_segments fits)

end RelayLogic
