import RelayLogic.Proofs.PhraseShape

/-! Formulas as phrases. A formula is a tree with two branches at every sign, and a phrase is
written flat. The parentheses that a formula is written with, all of them or just those that the
strength of the signs demands, make the tree of its phrase have the value of the formula. -/
namespace RelayLogic

/-- Formulas over variables. -/
inductive Formula where
  | var (v : Variable)
  | not (f : Formula)
  | join (f : Formula) (sign : Joiner) (g : Formula)

namespace Joiner

/-- The strength of a sign: the one of higher level is applied first. -/
def level : Joiner → Nat
  | or => 0
  | and => 1

def apply : Joiner → Bool → Bool → Bool
  | or, a, b => a || b
  | and, a, b => a && b

theorem level_lt_two (sign : Joiner) : sign.level < 2 := by cases sign <;> decide

end Joiner

namespace Formula

def value (s : Variable → Bool) : Formula → Bool
  | var v => s v
  | not f => !f.value s
  | join f sign g => sign.apply (f.value s) (g.value s)

/-- The variables at the leaves, in order. -/
def atoms : Formula → List Variable
  | var v => [v]
  | not f => f.atoms
  | join f _ g => f.atoms ++ g.atoms

/-- Whether a formula that joins by a sign is written in parentheses: always where formulas are
written `grouped`, and else where the context is stronger than the sign. -/
def bracketed (grouped : Bool) (context : Nat) (sign : Joiner) : Bool :=
  grouped || sign.level < context

/-- How many of the signs `!` and `(` stand inside each other where a formula is written. -/
def nesting (grouped : Bool) (f : Formula) (context : Nat) : Nat :=
  match f with
  | var _ => 0
  | not f => f.nesting grouped 2 + 1
  | join f sign g =>
    (if bracketed grouped context sign then 1 else 0) +
      max (f.nesting grouped sign.level) (g.nesting grouped sign.level)

end Formula

theorem Term.value_ofSegment (s : Variable → Bool) (ts : List Term) :
    (Term.ofSegment ts).value s = ts.all (Term.value s) := by
  unfold Term.ofSegment
  split
  · rw [List.all_cons, List.all_nil, Bool.and_true]
  · rw [Term.value, Group.value_eq, Bool.false_xor]
    exact List.all_map

/-- The tree of segments is true where one of them is, and a segment where all its terms are. -/
theorem Group.value_ofSegments (s : Variable → Bool) (segments : List (List Term)) :
    (Group.ofSegments segments).value s = segments.any fun ts => ts.all (Term.value s) := by
  unfold Group.ofSegments
  split
  · simp [Group.value_eq, Group.anonymous, Operator.join]
  · simp [Group.value_eq, Group.anonymous, Operator.join]
  · rw [Group.value_eq]
    change ((segments.map Term.ofSegment).map (Term.value s)).any (fun b => b) = _
    rw [List.any_map, List.any_map]
    exact congrArg segments.any (funext (Term.value_ofSegment s))

theorem Term.value_invert (s : Variable → Bool) (t : Term) : t.invert.value s = !t.value s := by
  cases t <;> simp [Term.invert, Term.value]

mutual

/-- The numbers of the nodes have no part in the value. -/
theorem Group.value_unnumbered (s : Variable → Bool) (e : Expression) :
    e.unnumbered.value s = e.value s :=
  match e with
  | ⟨_, operator, terms, _, _⟩ => congrArg operator.join (Term.values_unnumbered s terms)
termination_by structural e

theorem Term.value_unnumbered (s : Variable → Bool) (t : Term) :
    t.unnumbered.value s = t.value s :=
  match t with
  | .empty _ => rfl
  | .leaf _ _ => rfl
  | .group inverted g => congrArg (inverted ^^ ·) (g.value_unnumbered s)
termination_by structural t

theorem Term.values_unnumbered (s : Variable → Bool) (ts : List Term) :
    Term.values s (Term.unnumberedList ts) = Term.values s ts :=
  match ts with
  | [] => rfl
  | t :: rest => by
    rw [Term.unnumberedList, Term.values, Term.values, t.value_unnumbered s,
      Term.values_unnumbered s rest]
termination_by structural ts

end

/-- Neither have the owner and the assignment. -/
theorem Group.value_owned (s : Variable → Bool) (e : Expression) (assignment : Assignment)
    (owner : Option Variable) : Group.value s { e with assignment, owner } = e.value s := by
  rcases e with ⟨id, operator, terms, _, _⟩
  rfl

namespace Phrase

/-- A phrase, a sign and another phrase. -/
def append (p : Phrase) (sign : Joiner) (q : Phrase) : Phrase :=
  match p with
  | last o => join o sign q
  | join o sign' rest => join o sign' (rest.append sign q)
termination_by structural p

/-- A phrase in the place of an operand: in parentheses, unless it is a single operand. -/
def operand : Phrase → Operand
  | last o => o
  | join o sign rest => .enclosed (join o sign rest)

theorem words_append (p : Phrase) (sign : Joiner) (q : Phrase) :
    (p.append sign q).words = p.words ++ sign.token :: q.words :=
  match p with
  | last _ => rfl
  | join _ _ rest => by
    rw [append, words, words, rest.words_append, List.append_assoc, List.cons_append]
termination_by structural p

theorem fits_append {symbols : SymbolTable} (p : Phrase) {sign : Joiner} {q : Phrase} {depth : Nat}
    (h : p.Fits symbols depth) (h' : q.Fits symbols depth) :
    (p.append sign q).Fits symbols depth :=
  match p with
  | last _ => ⟨h, h'⟩
  | join _ _ rest => ⟨h.1, rest.fits_append h.2 h'⟩
termination_by structural p

theorem segments_append_or (p q : Phrase) :
    (p.append .or q).segments = p.segments ++ q.segments :=
  match p with
  | last _ => rfl
  | join _ .or rest => congrArg (_ :: ·) (rest.segments_append_or q)
  | join o .and rest => by
    rw [append, segments, segments, rest.segments_append_or q]
    cases cut : rest.segments with
    | nil => exact absurd cut rest.segments_ne_nil
    | cons segment more => rfl
termination_by structural p

/-- A phrase without a cut continues into the first segment of the phrase behind it. -/
theorem segments_append_and (p q : Phrase) {ts : List Term} (h : p.segments = [ts]) :
    (p.append .and q).segments = extendFirst ts q.segments :=
  match p with
  | last o => by
    obtain ⟨rfl, -⟩ := List.cons.inj h
    rfl
  | join o .or rest => absurd (List.cons.inj h).2 rest.segments_ne_nil
  | join o .and rest => by
    cases cut : rest.segments with
    | nil => exact absurd cut rest.segments_ne_nil
    | cons segment more =>
        rw [segments, cut] at h
        obtain ⟨rfl, rfl⟩ := List.cons.inj h
        rw [append, segments, rest.segments_append_and q cut, extendFirst_extendFirst]
termination_by structural p

end Phrase

namespace Formula

/-- A formula as it is written in a context of some strength. -/
def phrase (grouped : Bool) (f : Formula) (context : Nat) : Phrase :=
  match f with
  | var v => .last (.name v)
  | not f => .last (.inverted (f.phrase grouped 2).operand)
  | join f sign g =>
    let p := (f.phrase grouped sign.level).append sign (g.phrase grouped sign.level)
    if bracketed grouped context sign then .last (.enclosed p) else p

/-- Where the context is stronger than every sign, a formula is written as one operand. -/
theorem phrase_two (grouped : Bool) (f : Formula) :
    f.phrase grouped 2 = .last (f.phrase grouped 2).operand := by
  cases f with
  | var | not => rfl
  | join f sign g =>
      have closed : bracketed grouped 2 sign = true := by
        simp [bracketed, sign.level_lt_two]
      simp only [phrase, closed, if_true]
      rfl

/-- Joining the phrases of two formulas joins their values, where no cut of theirs lies open to a
stronger sign. -/
theorem value_append (s : Variable → Bool) {p q : Phrase} {sign : Joiner}
    (single : 0 < sign.level → (∃ ts, p.segments = [ts]) ∧ ∃ us, q.segments = [us]) :
    (p.append sign q).tree.value s = sign.apply (p.tree.value s) (q.tree.value s) ∧
      (0 < sign.level → ∃ ts, (p.append sign q).segments = [ts]) := by
  simp only [Phrase.tree, Group.value_ofSegments]
  cases sign with
  | or =>
      rw [Phrase.segments_append_or, List.any_append]
      exact ⟨rfl, nofun⟩
  | and =>
      obtain ⟨⟨ts, left⟩, us, right⟩ := single (Nat.lt_succ_self 0)
      rw [Phrase.segments_append_and p q left, left, right]
      refine ⟨?_, fun _ => ⟨ts ++ us, rfl⟩⟩
      simp [extendFirst, Joiner.apply]

/-- The phrase of a formula means what the formula means, and it has a cut only where the context
lets a `|` stand open. -/
theorem value_phrase (s : Variable → Bool) (grouped : Bool) (f : Formula) (context : Nat) :
    (f.phrase grouped context).tree.value s = f.value s ∧
      (0 < context → ∃ ts, (f.phrase grouped context).segments = [ts]) := by
  induction f generalizing context with
  | var v =>
      refine ⟨?_, fun _ => ⟨_, rfl⟩⟩
      rw [Phrase.tree, Group.value_ofSegments]
      simp [phrase, Phrase.segments, Operand.term, Term.value, value]
  | not f ih =>
      refine ⟨?_, fun _ => ⟨_, rfl⟩⟩
      obtain ⟨inner, -⟩ := ih 2
      rw [phrase_two, Phrase.tree, Group.value_ofSegments] at inner
      rw [Phrase.tree, Group.value_ofSegments]
      simpa [phrase, Phrase.segments, Operand.term, Term.value_invert, value] using inner
  | join f sign g ih ih' =>
      obtain ⟨left, single⟩ := ih sign.level
      obtain ⟨right, single'⟩ := ih' sign.level
      obtain ⟨joined, alone⟩ := value_append s fun strong => ⟨single strong, single' strong⟩
      rw [left, right] at joined
      cases closed : bracketed grouped context sign with
      | true =>
          simp only [phrase, closed, if_true]
          refine ⟨?_, fun _ => ⟨_, rfl⟩⟩
          rw [Phrase.tree] at joined
          rw [Phrase.tree, Group.value_ofSegments]
          simpa [Phrase.segments, Operand.term, Term.value, value] using joined
      | false =>
          simp only [phrase, closed, Bool.false_eq_true, if_false]
          refine ⟨joined, fun strong => alone ?_⟩
          rw [bracketed, Bool.or_eq_false_iff, decide_eq_false_iff_not] at closed
          omega

theorem fits_phrase {symbols : SymbolTable} {grouped : Bool} {f : Formula} {context depth : Nat}
    (declared : ∀ v ∈ f.atoms, symbols.find? v.name = some v)
    (room : depth + f.nesting grouped context ≤ maxNesting) :
    (f.phrase grouped context).Fits symbols depth := by
  induction f generalizing context depth with
  | var v => exact declared v (List.mem_singleton_self v)
  | not f ih =>
      rw [nesting] at room
      have inner : (f.phrase grouped 2).Fits symbols (depth + 1) := ih declared (by omega)
      rw [phrase_two] at inner
      exact ⟨by omega, inner⟩
  | join f sign g ih ih' =>
      have left : ∀ v ∈ f.atoms, symbols.find? v.name = some v :=
        fun v here => declared v (List.mem_append_left _ here)
      have right : ∀ v ∈ g.atoms, symbols.find? v.name = some v :=
        fun v here => declared v (List.mem_append_right _ here)
      cases closed : bracketed grouped context sign with
      | true =>
          simp only [nesting, closed, if_true] at room
          simp only [phrase, closed, if_true]
          exact ⟨by omega, Phrase.fits_append _ (ih left (by omega)) (ih' right (by omega))⟩
      | false =>
          simp only [nesting, closed, Bool.false_eq_true, if_false] at room
          simp only [phrase, closed, Bool.false_eq_true, if_false]
          exact Phrase.fits_append _ (ih left (by omega)) (ih' right (by omega))

end Formula

namespace SymbolTable

/-- The variables of a table that are among those given. -/
def restrict (t : SymbolTable) (vs : List Variable) : SymbolTable :=
  ⟨t.declared.filter (· ∈ vs), t.distinct.sublist (List.filter_sublist.map _)⟩

theorem mem_restrict {t : SymbolTable} {vs : List Variable} {v : Variable} :
    v ∈ (t.restrict vs).declared ↔ v ∈ t.declared ∧ v ∈ vs := by
  simp [restrict]

end SymbolTable

namespace Formula

/-- The tree of a formula has no more levels than a text can nest, and only the variables of the
formula. -/
theorem proper_phrase {symbols : SymbolTable} {f : Formula}
    (within : ∀ v ∈ f.atoms, v ∈ symbols.declared) {grouped : Bool}
    (nested : f.nesting grouped 0 ≤ maxNesting) :
    (f.phrase grouped 0).tree.Proper f.atoms (2 * maxNesting + 2) := by
  have found : ∀ v ∈ f.atoms, (symbols.restrict f.atoms).find? v.name = some v :=
    fun v inside =>
      SymbolTable.find?_eq_some_iff.2 ⟨SymbolTable.mem_restrict.2 ⟨within v inside, inside⟩, rfl⟩
  have proper := Phrase.proper_tree (fits_phrase found (by rwa [Nat.zero_add]))
  exact ⟨proper.regular, proper.shallow, fun v leaf =>
    (SymbolTable.mem_restrict.1 (proper.known v leaf)).2⟩

end Formula

end RelayLogic
