import Mathlib
import RelayLogic.Proofs.ProgramGrammar
import RelayLogic.Proofs.ResolvedTree

/-! The groups of resolved trees. In a tree that is read every group has as many terms as its
operator needs, and there are no timers. Resolving puts copies of such trees into such trees, which
keeps the first and adds timers for monoflops only; the root alone may take over a timer that is not
its own. -/
namespace RelayLogic

mutual

/-- The group at the root of a tree and those below it. -/
def Group.groups (e : Expression) : List Expression :=
  match e with
  | ⟨id, operator, terms, owner, assignment⟩ =>
    ⟨id, operator, terms, owner, assignment⟩ :: Term.groupsOfList terms
termination_by structural e

def Term.groups (t : Term) : List Expression :=
  match t with
  | .group _ g => g.groups
  | _ => []
termination_by structural t

def Term.groupsOfList (ts : List Term) : List Expression :=
  match ts with
  | [] => []
  | t :: rest => t.groups ++ Term.groupsOfList rest
termination_by structural ts

end

theorem Group.groups_eq (e : Expression) : e.groups = e :: Term.groupsOfList e.terms := by
  rcases e with ⟨_, _, _, _, _⟩
  rfl

theorem Term.mem_groupsOfList {g : Expression} {ts : List Term} :
    g ∈ Term.groupsOfList ts ↔ ∃ t ∈ ts, g ∈ t.groups := by
  induction ts with
  | nil => simp [Term.groupsOfList]
  | cons t rest ih => simp [Term.groupsOfList, ih]

/-- As many terms as the operator needs, none of them empty. A term is alone if nothing joins it to
others or if it is behind a timer, and is one of several otherwise. -/
structure Group.Formed (g : Expression) : Prop where
  full : ∀ inverted, Term.empty inverted ∉ g.terms
  lone : g.operator = .none ∨ g.operator = .timer → g.terms.length = 1
  several : g.operator = .or ∨ g.operator = .and → 2 ≤ g.terms.length

/-- A timer is owned by a monoflop. -/
def Group.Timed (g : Expression) : Prop :=
  g.operator = .timer → ∃ v, g.owner = some v ∧ v.category = .monoflop

/-- Every group of a tree is formed, and every timer of it is owned by a monoflop. -/
def Group.Sound (e : Expression) : Prop := ∀ g ∈ e.groups, g.Formed ∧ g.Timed

structure Term.Sound (t : Term) : Prop where
  full : ∀ inverted, t ≠ .empty inverted
  groups : ∀ g ∈ t.groups, g.Formed ∧ g.Timed

theorem Term.Sound.leaf (inverted : Bool) (v : Variable) : (Term.leaf inverted v).Sound :=
  ⟨nofun, nofun⟩

theorem Group.Sound.term {g : Expression} (h : g.Sound) (inverted : Bool) :
    (Term.group inverted g).Sound :=
  ⟨nofun, h⟩

theorem Term.Sound.invert {t : Term} (h : t.Sound) : t.invert.Sound := by
  cases t with
  | empty inverted => exact absurd rfl (h.full inverted)
  | leaf inverted v => exact .leaf _ v
  | group inverted g => exact Group.Sound.term h.groups _

namespace Group.Sound

variable {e : Expression}

theorem root (h : e.Sound) : e.Formed ∧ e.Timed :=
  h e (e.groups_eq ▸ List.mem_cons_self)

theorem terms (h : e.Sound) : ∀ t ∈ e.terms, t.Sound := by
  intro t member
  refine ⟨?_, fun g inside => h g ?_⟩
  · rintro inverted rfl
    exact h.root.1.full inverted member
  · rw [e.groups_eq]
    exact List.mem_cons_of_mem e (Term.mem_groupsOfList.2 ⟨t, member, inside⟩)

theorem of_terms (lone : e.operator = .none ∨ e.operator = .timer → e.terms.length = 1)
    (several : e.operator = .or ∨ e.operator = .and → 2 ≤ e.terms.length) (timed : e.Timed)
    (each : ∀ t ∈ e.terms, t.Sound) : e.Sound := by
  intro g member
  rw [e.groups_eq] at member
  rcases List.mem_cons.1 member with rfl | below
  · exact ⟨⟨fun inverted empty => (each _ empty).full inverted rfl, lone, several⟩, timed⟩
  · obtain ⟨t, there, inside⟩ := Term.mem_groupsOfList.1 below
    exact (each t there).groups g inside

/-- Other terms in the place of the terms, as many of them, make a sound tree again. -/
theorem refill (h : e.Sound) {terms : List Term} (length : terms.length = e.terms.length)
    (each : ∀ t ∈ terms, t.Sound) : Group.Sound { e with terms } := by
  obtain ⟨formed, timed⟩ := h.root
  refine .of_terms (fun lone => ?_) (fun several => ?_) timed each
  · exact length.trans (formed.lone lone)
  · exact Nat.le_trans (formed.several several) (Nat.le_of_eq length.symm)

/-- The owner and the assignment have a part in this at a timer only. -/
theorem owned (h : e.Sound) (untimed : e.operator ≠ .timer) (assignment : Assignment)
    (owner : Option Variable) : Group.Sound { e with assignment, owner } := by
  obtain ⟨formed, -⟩ := h.root
  exact .of_terms formed.lone formed.several (fun timer => absurd timer untimed) h.terms

/-- A root that takes over the terms of its only group may take over a timer that it has no right
to. -/
theorem pullUp (h : e.Sound) :
    (∀ g ∈ e.pullUp.groups, g.Formed) ∧ ∀ g ∈ Term.groupsOfList e.pullUp.terms, g.Timed := by
  have below : ∀ ts : List Term, (∀ t ∈ ts, t.Sound) →
      ∀ g ∈ Term.groupsOfList ts, g.Formed ∧ g.Timed := by
    intro ts each g member
    obtain ⟨t, there, inside⟩ := Term.mem_groupsOfList.1 member
    exact (each t there).groups g inside
  unfold Group.pullUp
  split
  · rename_i g operator terms
    have inner : g.Sound := (h.terms (.group false g) (terms ▸ List.mem_singleton_self _)).groups
    obtain ⟨⟨full, lone, several⟩, -⟩ := inner.root
    refine ⟨fun u member => ?_, fun u member => (below _ inner.terms u member).2⟩
    rw [Group.groups_eq] at member
    rcases List.mem_cons.1 member with rfl | there
    · exact ⟨full, lone, several⟩
    · exact (below _ inner.terms u there).1
  · exact ⟨fun u member => (h u member).1, fun u member => (below _ h.terms u member).2⟩

end Group.Sound

/-! Trees that are read. -/

mutual

theorem Group.groups_unnumbered (e : Expression) :
    e.unnumbered.groups = e.groups.map Group.unnumbered :=
  match e with
  | ⟨_, _, terms, _, _⟩ => congrArg (List.cons _) (Term.groupsOfList_unnumbered terms)
termination_by structural e

theorem Term.groups_unnumbered (t : Term) :
    t.unnumbered.groups = t.groups.map Group.unnumbered :=
  match t with
  | .empty _ => rfl
  | .leaf _ _ => rfl
  | .group _ g => g.groups_unnumbered
termination_by structural t

theorem Term.groupsOfList_unnumbered (ts : List Term) :
    Term.groupsOfList (Term.unnumberedList ts) =
      (Term.groupsOfList ts).map Group.unnumbered :=
  match ts with
  | [] => rfl
  | t :: rest => by
    simp only [Term.unnumberedList, Term.groupsOfList, t.groups_unnumbered,
      Term.groupsOfList_unnumbered rest, List.map_append]
termination_by structural ts

end

theorem Group.Formed.of_unnumbered {g : Expression} (h : g.unnumbered.Formed) : g.Formed := by
  rcases g with ⟨id, operator, terms, owner, assignment⟩
  rcases h with ⟨full, lone, several⟩
  simp only [Group.unnumbered, Term.unnumberedList_eq_map, List.length_map] at full lone several
  refine ⟨fun inverted empty => full inverted ?_, lone, several⟩
  exact List.mem_map_of_mem (f := Term.unnumbered) empty

/-- The numbers of the nodes have no part in this. -/
theorem Group.Sound.of_unnumbered {e : Expression} (h : e.unnumbered.Sound) : e.Sound := by
  intro g member
  have numberless : g.unnumbered ∈ e.unnumbered.groups := by
    rw [Group.groups_unnumbered]
    exact List.mem_map_of_mem member
  obtain ⟨formed, timed⟩ := h _ numberless
  rcases g with ⟨_, _, _, _, _⟩
  exact ⟨formed.of_unnumbered, timed⟩

/-- A segment with terms, all of which are sound. -/
structure SoundSegment (ts : List Term) : Prop where
  some : ts ≠ []
  each : ∀ t ∈ ts, t.Sound

theorem SoundSegment.singleton {t : Term} (h : t.Sound) : SoundSegment [t] :=
  ⟨List.cons_ne_nil t [], fun u member => by rwa [List.mem_singleton.1 member]⟩

theorem SoundSegment.cons {t : Term} {ts : List Term} (h : t.Sound) (h' : SoundSegment ts) :
    SoundSegment (t :: ts) :=
  ⟨List.cons_ne_nil t ts, List.forall_mem_cons.2 ⟨h, h'.each⟩⟩

/-- Lists that are neither empty nor of one element have two elements or more. -/
theorem two_le_length {α : Type} {xs : List α} (some : xs ≠ []) (several : ∀ x, xs ≠ [x]) :
    2 ≤ xs.length := by
  rcases xs with _ | ⟨x, _ | ⟨y, rest⟩⟩
  · exact absurd rfl some
  · exact absurd rfl (several x)
  · exact Nat.le_add_left 2 rest.length

theorem Group.sound_anonymous {id : Nat} {operator : Operator} {ts : List Term}
    (joined : operator = .or ∨ operator = .and) (several : 2 ≤ ts.length)
    (each : ∀ t ∈ ts, t.Sound) : (Group.anonymous id operator ts).Sound := by
  refine .of_terms ?_ (fun _ => several) ?_ each
  · rintro (rfl | rfl) <;> simp at joined
  · rintro rfl
    simp at joined

theorem Term.sound_ofSegment {ts : List Term} (h : SoundSegment ts) :
    (Term.ofSegment ts).Sound := by
  unfold Term.ofSegment
  split
  · exact h.each _ (List.mem_singleton_self _)
  · rename_i other
    exact (Group.sound_anonymous (.inr rfl) (two_le_length h.some other) h.each).term false

theorem Group.sound_ofSegments {segments : List (List Term)} (some : segments ≠ [])
    (each : ∀ ts ∈ segments, SoundSegment ts) : (Group.ofSegments segments).Sound := by
  unfold Group.ofSegments
  split
  · exact .of_terms (fun _ => rfl) (by simp [Group.anonymous]) nofun
      (each _ (List.mem_singleton_self _)).each
  · rename_i ts other
    have h := each ts (List.mem_singleton_self ts)
    exact Group.sound_anonymous (.inr rfl) (two_le_length h.some fun t same => other t (same ▸ rfl))
      h.each
  · rename_i other
    refine Group.sound_anonymous (.inl rfl) ?_ fun t member => ?_
    · rw [List.length_map]
      exact two_le_length some other
    · obtain ⟨ts, there, rfl⟩ := List.mem_map.1 member
      exact Term.sound_ofSegment (each ts there)

theorem Group.operator_ofSegments (segments : List (List Term)) :
    (Group.ofSegments segments).operator ≠ .timer := by
  unfold Group.ofSegments
  split <;> simp [Group.anonymous]

mutual

theorem Operand.sound_term (o : Operand) : o.term.Sound :=
  match o with
  | .name v => .leaf false v
  | .inverted o => o.sound_term.invert
  | .enclosed p => (Group.sound_ofSegments p.segments_ne_nil p.sound_segments).term false
termination_by structural o

theorem Phrase.sound_segments (p : Phrase) : ∀ ts ∈ p.segments, SoundSegment ts :=
  match p with
  | .last o => fun ts member => by
    rw [List.mem_singleton.1 member]
    exact .singleton o.sound_term
  | .join o .and rest =>
    forall_extendFirst (.singleton o.sound_term) (.cons o.sound_term) rest.sound_segments
  | .join o .or rest =>
    List.forall_mem_cons.2 ⟨.singleton o.sound_term, rest.sound_segments⟩
termination_by structural p

end

/-- Every equation that is read is sound. -/
theorem Source.sound_of_program {source : Source} {p : Program} (read : source.program = .ok p) :
    ∀ entry ∈ p.equations, entry.2.Sound := by
  refine readProgram_keeps (motive := fun p => ∀ entry ∈ p.equations, entry.2.Sound)
    (fun h _ => h) ?_ (fun entry member => by cases member) read
  intro p name ts r before read
  obtain ⟨v, assignment, tail, e, -, -, -, expression, -, grown⟩ := readEquation_eq_ok.1 read
  obtain ⟨phrase, -, tree, -⟩ := phrase_of_readExpression 0 expression
  have sound : e.value.1.Sound := by
    apply Group.Sound.of_unnumbered
    rw [tree]
    exact Group.sound_ofSegments phrase.segments_ne_nil phrase.sound_segments
  have untimed : e.value.1.operator ≠ .timer := by
    have same : e.value.1.unnumbered.operator = e.value.1.operator := by
      rcases e.value.1 with ⟨_, _, _, _, _⟩
      rfl
    rw [← same, tree]
    exact Group.operator_ofSegments _
  rw [grown]
  intro entry member
  rcases List.mem_append.1 member with there | here
  · exact before entry there
  · rw [List.mem_singleton.1 here]
    exact sound.owned untimed assignment (some v)

namespace Program

variable {p : Program} {l k : Ledger}

theorem sound_of_copyFor {v : Variable} {equation copy : Expression} (sound : equation.Sound)
    (copied : copyFor v equation l = (.ok copy, k)) : copy.Sound := by
  by_cases lone : ∃ t, equation.terms = [t]
  · obtain ⟨t, lone⟩ := lone
    rw [copyFor_of_lone lone] at copied
    obtain ⟨rfl, -⟩ := Resolution.pure_eq_ok.1 copied
    have term := sound.terms t (by rw [lone]; exact List.mem_singleton_self t)
    refine .of_terms (fun _ => rfl) (fun several => ?_) (fun timer => ⟨v, rfl, ?_⟩)
      fun u member => ?_
    · split at several <;> simp at several
    · dsimp only at timer
      split at timer
      · assumption
      · cases timer
    · rwa [List.mem_singleton.1 member]
  · rw [copyFor_of_group (not_exists.1 lone)] at copied
    have untimed : equation.operator ≠ .timer := by
      intro timer
      exact lone (List.length_eq_one_iff.1 (sound.root.1.lone (.inr timer)))
    have inner := sound.owned untimed .assign (some v)
    split at copied
    · rename_i monoflop
      obtain ⟨id, l', -, wrapped⟩ := Resolution.bind_eq_ok.1 copied
      obtain ⟨rfl, -⟩ := Resolution.pure_eq_ok.1 wrapped
      refine .of_terms (fun _ => rfl) (by simp) (fun _ => ⟨v, rfl, monoflop⟩) fun u member => ?_
      rw [List.mem_singleton.1 member]
      exact inner.term false
    · obtain ⟨rfl, -⟩ := Resolution.pure_eq_ok.1 copied
      exact inner

theorem Expands.sound (equations : ∀ v e, p.equation? v = some e → e.Sound) {levels : Nat}
    {path : List Variable} {ts us : List Term} (h : p.Expands levels path ts l us k)
    (before : ∀ t ∈ ts, t.Sound) : us.length = ts.length ∧ ∀ u ∈ us, u.Sound := by
  induction h with
  | done => exact ⟨rfl, before⟩
  | empty _ later =>
      obtain ⟨here, there⟩ := List.forall_mem_cons.1 before
      obtain ⟨count, others⟩ := later there
      exact ⟨congrArg Nat.succ count, List.forall_mem_cons.2 ⟨here, others⟩⟩
  | @group _ _ inverted g _ _ _ _ _ _ _ _ inside later =>
      obtain ⟨here, there⟩ := List.forall_mem_cons.1 before
      have sound : g.Sound := here.groups
      obtain ⟨count, others⟩ := later there
      obtain ⟨length, each⟩ := inside sound.terms
      have whole := (sound.refill length each).term inverted
      exact ⟨congrArg Nat.succ count, List.forall_mem_cons.2 ⟨whole, others⟩⟩
  | free _ _ later | again _ _ _ _ later =>
      obtain ⟨here, there⟩ := List.forall_mem_cons.1 before
      obtain ⟨count, others⟩ := later there
      exact ⟨congrArg Nat.succ count, List.forall_mem_cons.2 ⟨here, others⟩⟩
  | @first _ _ inverted _ _ copy _ _ _ _ _ _ _ found _ _ copied _ _ inside later =>
      obtain ⟨-, there⟩ := List.forall_mem_cons.1 before
      have sound := sound_of_copyFor (equations _ _ found) copied
      obtain ⟨count, others⟩ := later there
      obtain ⟨length, each⟩ := inside sound.terms
      have whole := (sound.refill length each).term inverted
      exact ⟨congrArg Nat.succ count, List.forall_mem_cons.2 ⟨whole, others⟩⟩

theorem sound_of_expand (equations : ∀ v e, p.equation? v = some e → e.Sound) {root : Variable}
    {levels : Nat} {path : List Variable} {e t : Expression} (sound : e.Sound)
    (expanded : p.expand root levels path e l = (.ok t, k)) : t.Sound := by
  obtain ⟨_, terms, -, derived, rfl⟩ := expands_of_expand expanded
  obtain ⟨length, each⟩ := derived.sound equations sound.terms
  exact sound.refill length each

end Program

/-- Every name of a program that is read resolves to a tree that can be compiled, if it resolves:
the tree is not too deep, its groups are formed, and below its root only monoflops have timers. -/
theorem Source.compiles_of_resolve {source : Source} {p : Program} (read : source.program = .ok p)
    {name : String} {l k : Ledger} {t : Expression} (resolved : p.resolve name l = (.ok t, k)) :
    t.levels ≤ 256 ∧ (∀ g ∈ t.groups, g.Formed) ∧
      (∀ g ∈ Term.groupsOfList t.terms, g.Timed) ∧ ∃ ops, t.code.toExcept = .ok ops := by
  have accepted := Source.accepted_program read
  have proper := Program.proper_of_resolve accepted.proper_equation resolved
  obtain ⟨ops, compiled, -⟩ := proper.execute_of_need (Nat.le_refl maxLevels)
  obtain ⟨v, equation, e, -, found, expanded, rfl⟩ := Program.resolve_eq_ok.1 resolved
  have equations : ∀ v e, p.equation? v = some e → e.Sound :=
    fun v e found => Source.sound_of_program read (v, e) (Program.mem_of_equation? found)
  have sound := Program.sound_of_expand equations (equations v equation found) expanded
  obtain ⟨formed, timed⟩ := sound.pullUp
  exact ⟨proper.shallow, formed, timed, ops, compiled⟩

/-- An output that is switched by a monoflop, which itself sees two inputs. -/
def delayedText : Source :=
  .ofString "delayed" "inputs: a=0, b=1; monoflops: t=0; outputs: o=0; t = a | b; o = t;"

def delayed : Program :=
  let a := Variable.plain "a" .input 0
  let b := Variable.plain "b" .input 1
  let t := Variable.plain "t" .monoflop 0
  let o := Variable.plain "o" .output 0
  ⟨⟨[a, b, t, o], by decide⟩,
    [(t, ⟨1, .or, [.leaf false a, .leaf false b], some t, .assign⟩),
      (o, ⟨2, .none, [.leaf false t], some o, .assign⟩)], 2⟩

/-- What the output resolves to. Its root has taken over the timer of the monoflop. -/
def delayedTree : Expression :=
  let a := Variable.plain "a" .input 0
  let b := Variable.plain "b" .input 1
  ⟨2, .timer,
    [.group false ⟨1, .or, [.leaf false a, .leaf false b], some (.plain "t" .monoflop 0), .assign⟩],
    some (.plain "o" .output 0), .assign⟩

set_option maxRecDepth 4000 in
theorem program_delayedText : delayedText.program = .ok delayed := by cbv

/-- The one timer of this tree is at its root, and is owned by an output. -/
theorem compiles_of_resolve_delayedText :
    delayedText.program = .ok delayed ∧
      delayed.resolve "o" delayed.ledger = (.ok delayedTree, ⟨["t"], 3⟩) ∧
      delayedTree.levels ≤ 256 ∧ (∀ g ∈ delayedTree.groups, g.Formed) ∧
      (∀ g ∈ Term.groupsOfList delayedTree.terms, g.Timed) ∧
      (∃ ops, delayedTree.code.toExcept = .ok ops) ∧ ¬delayedTree.Timed := by
  have resolved : delayed.resolve "o" delayed.ledger = (.ok delayedTree, ⟨["t"], 3⟩) := rfl
  obtain ⟨shallow, formed, timed, compiled⟩ :=
    Source.compiles_of_resolve program_delayedText resolved
  refine ⟨program_delayedText, resolved, shallow, formed, timed, compiled, fun owned => ?_⟩
  obtain ⟨v, owner, monoflop⟩ := owned rfl
  cases owner
  cases monoflop

end RelayLogic
