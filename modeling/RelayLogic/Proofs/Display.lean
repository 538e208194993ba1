import RelayLogic.Proofs.Formula
import RelayLogic.Proofs.ResolvedShape

/-! The phrases that trees are displayed as. In a tree that was read there are neither timers nor
empty terms, so names, signs and parentheses are enough to display it. Parentheses around one operand
are left out where no inversion stands before them, so the tree of the phrase may lack some groups of
one term. It keeps the value of the tree, and it is displayed as the tree is. -/
namespace RelayLogic

/-! Trees that are read have no timers. -/

def Untimed (gs : List Expression) : Prop := ∀ g ∈ gs, g.operator ≠ .timer

theorem Group.untimed_anonymous {id : Nat} {operator : Operator} {ts : List Term}
    (joins : operator ≠ .timer) (each : Untimed (Term.groupsOfList ts)) :
    Untimed (Group.anonymous id operator ts).groups := by
  rw [Untimed, Group.groups_eq]
  exact List.forall_mem_cons.2 ⟨joins, each⟩

theorem Term.groupsOfList_singleton (t : Term) : Term.groupsOfList [t] = t.groups :=
  List.append_nil _

theorem Term.untimed_ofSegment {ts : List Term} (h : Untimed (Term.groupsOfList ts)) :
    Untimed (Term.ofSegment ts).groups := by
  unfold Term.ofSegment
  split
  · rwa [Term.groupsOfList_singleton] at h
  · exact Group.untimed_anonymous nofun h

theorem Group.untimed_ofSegments {segments : List (List Term)}
    (each : ∀ ts ∈ segments, Untimed (Term.groupsOfList ts)) :
    Untimed (Group.ofSegments segments).groups := by
  unfold Group.ofSegments
  split
  · exact Group.untimed_anonymous nofun (each _ (List.mem_singleton_self _))
  · exact Group.untimed_anonymous nofun (each _ (List.mem_singleton_self _))
  · refine Group.untimed_anonymous nofun fun g member => ?_
    obtain ⟨t, there, inside⟩ := Term.mem_groupsOfList.1 member
    obtain ⟨ts, segment, rfl⟩ := List.mem_map.1 there
    exact Term.untimed_ofSegment (each ts segment) g inside

theorem Term.groups_invert (t : Term) : t.invert.groups = t.groups := by
  cases t <;> rfl

mutual

theorem Operand.untimed_term (o : Operand) : Untimed o.term.groups :=
  match o with
  | .name v => nofun
  | .inverted o => by
    rw [Operand.term, Term.groups_invert]
    exact o.untimed_term
  | .enclosed p => Group.untimed_ofSegments p.untimed_segments
termination_by structural o

theorem Phrase.untimed_segments (p : Phrase) :
    ∀ ts ∈ p.segments, Untimed (Term.groupsOfList ts) :=
  match p with
  | .last o => by
    have first := o.untimed_term
    rw [← Term.groupsOfList_singleton] at first
    exact List.forall_mem_singleton.2 first
  | .join o .and rest => by
    have first := o.untimed_term
    have single : Untimed (Term.groupsOfList [o.term]) := by rwa [Term.groupsOfList_singleton]
    exact forall_extendFirst single (fun h => List.forall_mem_append.2 ⟨first, h⟩)
      rest.untimed_segments
  | .join o .or rest => by
    have first := o.untimed_term
    rw [← Term.groupsOfList_singleton] at first
    exact List.forall_mem_cons.2 ⟨first, rest.untimed_segments⟩
termination_by structural p

end

/-- The numbers of the nodes have no part in this. -/
theorem Untimed.of_unnumbered {e : Expression} (h : Untimed e.unnumbered.groups) :
    Untimed e.groups := by
  intro g member
  rw [Group.groups_unnumbered] at h
  have same := h _ (List.mem_map_of_mem member)
  rcases g with ⟨_, _, _, _, _⟩
  exact same

theorem Untimed.owned {e : Expression} (h : Untimed e.groups) (assignment : Assignment)
    (owner : Option Variable) : Untimed (Group.groups { e with assignment, owner }) := by
  rw [Untimed, Group.groups_eq] at h
  obtain ⟨root, below⟩ := List.forall_mem_cons.1 h
  rw [Untimed, Group.groups_eq]
  exact List.forall_mem_cons.2 ⟨root, below⟩

/-- A tree without timers, every group of which has as many terms as its operator needs. -/
def Group.Plain (e : Expression) : Prop := ∀ g ∈ e.groups, g.Formed ∧ g.operator ≠ .timer

/-- Every equation that is read is plain, and the name of its variable begins no section. -/
theorem Source.plain_of_program {source : Source} {p : Program} (read : source.program = .ok p) :
    ∀ entry ∈ p.equations, entry.2.Plain ∧ sectionOf? entry.1.name = none := by
  have sound := Source.sound_of_program read
  have untimed : ∀ entry ∈ p.equations, Untimed entry.2.groups ∧ sectionOf? entry.1.name = none := by
    refine readProgram_keeps_named
      (motive := fun p => ∀ entry ∈ p.equations,
        Untimed entry.2.groups ∧ sectionOf? entry.1.name = none)
      (fun h _ => h) ?_ (fun entry member => by cases member) read
    intro p name ts r before other read
    obtain ⟨v, assignment, tail, e, found, -, -, expression, -, grown⟩ := readEquation_eq_ok.1 read
    obtain ⟨phrase, -, tree, -⟩ := phrase_of_readExpression 0 expression
    have untimed : Untimed e.value.1.groups := by
      apply Untimed.of_unnumbered
      rw [tree]
      exact Group.untimed_ofSegments phrase.untimed_segments
    have named : v.name = name.value := (SymbolTable.mem_of_find? found).2
    rw [grown]
    refine List.forall_mem_append.2 ⟨before, List.forall_mem_singleton.2 ?_⟩
    exact ⟨untimed.owned assignment (some v), named ▸ other⟩
  intro entry member
  obtain ⟨each, other⟩ := untimed entry member
  exact ⟨fun g inside => ⟨(sound entry member g inside).1, each g inside⟩, other⟩

/-! What holds of plain trees is proved along their groups. -/

namespace Group.Plain

variable {e : Expression}

theorem root (h : e.Plain) : e.Formed ∧ e.operator ≠ .timer := h e (e.groups_eq ▸ List.mem_cons_self)

theorem below (h : e.Plain) {inverted : Bool} {g : Expression}
    (member : Term.group inverted g ∈ e.terms) : g.Plain := by
  intro u inside
  apply h
  rw [e.groups_eq]
  exact List.mem_cons_of_mem e (Term.mem_groupsOfList.2 ⟨_, member, inside⟩)

/-- A plain group has one term and no operator, or several terms and a sign between any two. -/
theorem terms_eq (h : e.Plain) :
    (e.operator = .none ∧ ∃ t, e.terms = [t]) ∨
      ∃ (sign : Joiner) (t t' : Term) (ts : List Term),
        e.operator = sign.operator ∧ e.terms = t :: t' :: ts := by
  obtain ⟨⟨-, lone, several⟩, untimed⟩ := h.root
  have joined : e.operator = .or ∨ e.operator = .and → ∃ t t' ts, e.terms = t :: t' :: ts := by
    intro sign
    have two := several sign
    rcases terms : e.terms with _ | ⟨t, _ | ⟨t', ts⟩⟩
    · simp [terms] at two
    · simp [terms] at two
    · exact ⟨t, t', ts, rfl⟩
  cases operator : e.operator with
  | none => exact .inl ⟨rfl, List.length_eq_one_iff.1 (lone (.inl operator))⟩
  | or =>
      obtain ⟨t, t', ts, terms⟩ := joined (.inl operator)
      exact .inr ⟨.or, t, t', ts, rfl, terms⟩
  | and =>
      obtain ⟨t, t', ts, terms⟩ := joined (.inr operator)
      exact .inr ⟨.and, t, t', ts, rfl, terms⟩
  | timer => exact absurd operator untimed

/-- A plain group has what its terms have, and a term what its variable or its group has. -/
theorem induction (motive : Expression → Prop) (motive' : Term → Prop)
    (leaf : ∀ inverted v, motive' (.leaf inverted v))
    (group : ∀ inverted (g : Expression), g.Plain → motive g → motive' (.group inverted g))
    (join : ∀ e : Expression, e.Plain → (∀ t ∈ e.terms, motive' t) → motive e)
    {e : Expression} (h : e.Plain) : motive e := by
  refine join e h fun t member => ?_
  cases t with
  | empty inverted => exact absurd member (h.root.1.full inverted)
  | leaf inverted v => exact leaf inverted v
  | group inverted g =>
      have less : g.levels < e.levels := Term.levels_lt member
      exact group inverted g (h.below member)
        (induction motive motive' leaf group join (h.below member))
termination_by e.levels

end Group.Plain

/-! Phrases with one sign. -/

namespace Phrase

/-- Operands with the same sign between any two of them. -/
def chain (sign : Joiner) : Operand → List Operand → Phrase
  | o, [] => .last o
  | o, o' :: rest => .join o sign (chain sign o' rest)

theorem segments_chain_and (o : Operand) (os : List Operand) :
    (chain .and o os).segments = [(o :: os).map Operand.term] := by
  induction os generalizing o with
  | nil => rfl
  | cons o' os ih =>
      rw [chain, segments, ih]
      rfl

theorem segments_chain_or (o : Operand) (os : List Operand) :
    (chain .or o os).segments = (o :: os).map fun o => [o.term] := by
  induction os generalizing o with
  | nil => rfl
  | cons o' os ih =>
      rw [chain, segments, ih]
      rfl

/-- Several operands under one sign make up one group. -/
theorem tree_chain (sign : Joiner) (o o' : Operand) (os : List Operand) :
    (chain sign o (o' :: os)).tree =
      .anonymous 0 sign.operator ((o :: o' :: os).map Operand.term) := by
  cases sign with
  | and =>
      rw [tree, segments_chain_and]
      rfl
  | or =>
      rw [tree, segments_chain_or]
      change Group.anonymous 0 .or (List.map Term.ofSegment (_ :: _ :: List.map _ os)) = _
      rw [List.map_cons, List.map_cons, List.map_map]
      rfl

theorem fits_chain {symbols : SymbolTable} {depth : Nat} (sign : Joiner) {o : Operand}
    {os : List Operand} (each : ∀ o' ∈ o :: os, o'.Fits symbols depth) :
    (chain sign o os).Fits symbols depth := by
  induction os generalizing o with
  | nil => exact each o List.mem_cons_self
  | cons o' os ih =>
      obtain ⟨first, others⟩ := List.forall_mem_cons.1 each
      exact ⟨first, ih others⟩

theorem fits_operand {symbols : SymbolTable} {depth : Nat} (room : depth < maxNesting) {p : Phrase}
    (h : p.Fits symbols depth) (inside : p.Fits symbols (depth + 1)) :
    p.operand.Fits symbols depth := by
  cases p with
  | last o => exact h
  | join o sign rest => exact ⟨room, inside⟩

/-- Parentheses around a phrase have no part in its value. -/
theorem value_operand (s : Variable → Bool) (p : Phrase) :
    p.operand.term.value s = p.tree.value s := by
  cases p with
  | last o =>
      have lone : (last o).tree = .anonymous 0 .none [o.term] := rfl
      rw [lone, Group.value_eq]
      rfl
  | join o sign rest => exact Bool.false_xor _

end Phrase

/-! The text of trees. -/

theorem Term.renderList_eq_map (ts : List Term) : Term.renderList ts = ts.map Term.render := by
  induction ts with
  | nil => rfl
  | cons t rest ih => rw [Term.renderList, ih, List.map_cons]

namespace Group

variable {e : Expression}

theorem render_eq (root : Bool) (e : Expression) :
    e.render root = (if e.operator = .timer then "timer" else "") ++
      bracketIf (e.isBracketed root)
        (e.operator.separator.intercalate (e.terms.map Term.render)) := by
  rcases e with ⟨_, operator, terms, _, _⟩
  rw [render, Term.renderList_eq_map]

theorem render_root (untimed : e.operator ≠ .timer) :
    e.render true = e.operator.separator.intercalate (e.terms.map Term.render) := by
  have bare : e.isBracketed true = false := by simp [isBracketed, untimed]
  rw [render_eq, if_neg untimed, bare, String.empty_append]
  rfl

/-- Below the root, a group of several terms is displayed in parentheses. -/
theorem render_below (untimed : e.operator ≠ .timer) :
    e.render false = bracketIf (1 < e.terms.length) (e.render true) := by
  have brackets : e.isBracketed false = decide (1 < e.terms.length) := by
    simp [isBracketed, untimed]
  rw [render_root untimed, render_eq, if_neg untimed, brackets, String.empty_append]

end Group

theorem Group.needsBrackets_unnumbered (e : Expression) :
    e.unnumbered.needsBrackets = e.needsBrackets := by
  rcases e with ⟨_, operator, terms, _, _⟩
  rw [Group.unnumbered, Term.unnumberedList_eq_map, needsBrackets, needsBrackets, List.length_map]

mutual

/-- The numbers of the nodes have no part in the text. -/
theorem Group.render_unnumbered (root : Bool) (e : Expression) :
    e.unnumbered.render root = e.render root :=
  match e with
  | ⟨_, operator, terms, _, _⟩ => by
    have texts := Term.renderList_unnumbered terms
    have length : (Term.unnumberedList terms).length = terms.length := by
      rw [Term.unnumberedList_eq_map, List.length_map]
    simp only [Group.unnumbered, Group.render, Group.isBracketed, texts, length]
termination_by structural e

theorem Term.render_unnumbered (t : Term) : t.unnumbered.render = t.render :=
  match t with
  | .empty _ => rfl
  | .leaf _ _ => rfl
  | .group inverted g => by
    rw [Term.unnumbered, Term.render, Term.render, g.needsBrackets_unnumbered,
      g.render_unnumbered false]
termination_by structural t

theorem Term.renderList_unnumbered (ts : List Term) :
    Term.renderList (Term.unnumberedList ts) = Term.renderList ts :=
  match ts with
  | [] => rfl
  | t :: rest => by
    rw [Term.unnumberedList, Term.renderList, Term.renderList, t.render_unnumbered,
      Term.renderList_unnumbered rest]
termination_by structural ts

end

/-- Neither have the owner and the assignment. -/
theorem Group.render_owned (root : Bool) (e : Expression) (assignment : Assignment)
    (owner : Option Variable) :
    Group.render root { e with assignment, owner } = e.render root := by
  rw [Group.render_eq, e.render_eq]
  rfl

/-- Behind an inversion, a group is displayed in one pair of parentheses. -/
theorem Term.render_inverted {g : Expression} (untimed : g.operator ≠ .timer) :
    (Term.group true g).render = "!" ++ ("(" ++ g.render true ++ ")") := by
  rw [Term.render, Group.render_below untimed]
  by_cases several : 1 < g.terms.length
  · have brought : g.needsBrackets = false := by simp [Group.needsBrackets]; omega
    simp [brought, several, bracketIf]
  · have needed : g.needsBrackets = true := by simp [Group.needsBrackets, untimed]; omega
    simp [needed, several, bracketIf]

theorem Phrase.render_operand (p : Phrase) : p.operand.term.render = p.tree.render false := by
  cases p with
  | last o =>
      have lone : (last o).tree = .anonymous 0 .none [o.term] := rfl
      rw [lone, Group.render_eq]
      rfl
  | join o sign rest =>
      rw [operand, Operand.term, Term.render]
      exact String.empty_append

/-- A name for what has none. -/
def nameless : Variable := .plain "<empty>" .input 0

/-- The sign of an operator that joins. -/
def Operator.sign : Operator → Joiner
  | and => .and
  | _ => .or

mutual

/-- The phrase that a tree is displayed as. Only hand-made trees have something nameless in it. -/
def Group.phrase (e : Expression) : Phrase :=
  match e with
  | ⟨_, operator, terms, _, _⟩ =>
    match Term.operands terms with
    | [] => .last (.name nameless)
    | o :: os => .chain operator.sign o os
termination_by structural e

/-- A term in a phrase. Parentheses stand around several operands, and behind an inversion. -/
def Term.operand (t : Term) : Operand :=
  match t with
  | .empty _ => .name nameless
  | .leaf inverted v => if inverted then .inverted (.name v) else .name v
  | .group inverted g => if inverted then .inverted (.enclosed g.phrase) else g.phrase.operand
termination_by structural t

def Term.operands (ts : List Term) : List Operand :=
  match ts with
  | [] => []
  | t :: rest => t.operand :: Term.operands rest
termination_by structural ts

end

theorem Term.operands_eq_map (ts : List Term) : Term.operands ts = ts.map Term.operand := by
  induction ts with
  | nil => rfl
  | cons t rest ih => rw [Term.operands, ih, List.map_cons]

theorem Group.phrase_eq {e : Expression} {t : Term} {ts : List Term} (terms : e.terms = t :: ts) :
    e.phrase = .chain e.operator.sign t.operand (ts.map Term.operand) := by
  rcases e with ⟨_, operator, _, _, _⟩
  cases terms
  rw [Group.phrase, Term.operands, Term.operands_eq_map]

namespace Group.Plain

variable {e : Expression}

theorem exists_cons (h : e.Plain) : ∃ t ts, e.terms = t :: ts := by
  rcases h.terms_eq with ⟨-, t, terms⟩ | ⟨_, t, t', ts, -, terms⟩
  · exact ⟨t, [], terms⟩
  · exact ⟨t, t' :: ts, terms⟩

/-- The tree of the phrase has the operator of the tree and the terms of its operands. -/
theorem tree_phrase (h : e.Plain) :
    e.phrase.tree = .anonymous 0 e.operator (e.terms.map fun t => t.operand.term) := by
  rcases h.terms_eq with ⟨operator, t, terms⟩ | ⟨sign, t, t', ts, operator, terms⟩
  · rw [phrase_eq terms, operator, terms]
    rfl
  · have same : sign.operator.sign = sign := by cases sign <;> rfl
    rw [phrase_eq terms, List.map_cons, Phrase.tree_chain, operator, terms, same]
    rw [← List.map_cons, ← List.map_cons, List.map_map]
    rfl

theorem value_phrase (h : e.Plain) (s : Variable → Bool) : e.phrase.tree.value s = e.value s := by
  refine induction (fun e => e.phrase.tree.value s = e.value s)
    (fun t => t.operand.term.value s = t.value s) ?leaf ?group ?join h
  case leaf =>
    intro inverted v
    cases inverted <;> rfl
  case group =>
    intro inverted g plain same
    cases inverted with
    | false => exact ((Phrase.value_operand s g.phrase).trans same).trans (Bool.false_xor _).symm
    | true => exact congrArg (true ^^ ·) same
  case join =>
    intro e plain each
    rw [plain.tree_phrase, Group.value_eq, e.value_eq]
    refine congrArg e.operator.join ?_
    rw [Group.anonymous, List.map_map]
    exact List.map_congr_left each

theorem render_phrase (h : e.Plain) (root : Bool) :
    e.phrase.tree.render root = e.render root := by
  refine induction (fun e => ∀ root, e.phrase.tree.render root = e.render root)
    (fun t => t.operand.term.render = t.render) ?leaf ?group ?join h root
  case leaf =>
    intro inverted v
    cases inverted <;> rfl
  case group =>
    intro inverted g plain same
    cases inverted with
    | false =>
        rw [Term.render]
        exact ((Phrase.render_operand g.phrase).trans (same false)).trans String.empty_append.symm
    | true =>
        have untimed : g.phrase.tree.operator ≠ .timer := by
          rw [plain.tree_phrase]
          exact plain.root.2
        have inverted : (Term.group true g).operand.term = .group true g.phrase.tree := rfl
        rw [inverted, Term.render_inverted untimed, Term.render_inverted plain.root.2, same]
  case join =>
    intro e plain each root
    have texts : (e.terms.map fun t => t.operand.term).map Term.render = e.terms.map Term.render := by
      rw [List.map_map]
      exact List.map_congr_left each
    rw [plain.tree_phrase, Group.render_eq, e.render_eq]
    simp only [Group.anonymous, isBracketed, texts, List.length_map]
    rfl

theorem fits_phrase (h : e.Plain) {symbols : SymbolTable}
    (declared : ∀ v ∈ e.leaves, symbols.find? v.name = some v) {depth : Nat}
    (room : depth + 2 * e.levels ≤ maxNesting + 1) : e.phrase.Fits symbols depth := by
  refine induction
    (fun e => (∀ v ∈ e.leaves, symbols.find? v.name = some v) → ∀ depth,
      depth + 2 * e.levels ≤ maxNesting + 1 → e.phrase.Fits symbols depth)
    (fun t => (∀ v ∈ t.leaves, symbols.find? v.name = some v) → ∀ depth,
      depth + 2 * t.levels < maxNesting → t.operand.Fits symbols depth)
    ?leaf ?group ?join h declared depth room
  case leaf =>
    intro inverted v declared depth room
    have found := declared v (List.mem_singleton_self v)
    cases inverted with
    | false => exact found
    | true => exact ⟨by omega, found⟩
  case group =>
    intro inverted g plain fits declared depth room
    rw [Term.levels] at room
    cases inverted with
    | false =>
        exact Phrase.fits_operand (by omega) (fits declared depth (by omega))
          (fits declared (depth + 1) (by omega))
    | true =>
        have levels : 0 < g.levels := by
          obtain ⟨t, ts, terms⟩ := plain.exists_cons
          exact Nat.zero_lt_of_lt (Term.levels_lt (t := t) (by rw [terms]; exact List.mem_cons_self))
        exact ⟨by omega, by omega, fits declared (depth + 2) (by omega)⟩
  case join =>
    intro e plain each declared depth room
    obtain ⟨t, ts, terms⟩ := plain.exists_cons
    rw [phrase_eq terms]
    apply Phrase.fits_chain
    rw [← List.map_cons, ← terms]
    intro o member
    obtain ⟨u, there, rfl⟩ := List.mem_map.1 member
    have less := Term.levels_lt there
    refine each u there (fun v leaf => declared v ?_) depth (by omega)
    rw [e.leaves_eq]
    exact Term.mem_leavesOfList.2 ⟨u, there, leaf⟩

end Group.Plain

end RelayLogic
