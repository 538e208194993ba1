import Mathlib
import RelayLogic.Proofs.ResolvedShape

/-! The numbers of the expressions that are read. Every number that a reader gives out belongs to one
node of the trees that it makes: a draft is given one for its first group, one for a stronger group
at its end and one for a weaker root around it, and loses none of them. So the nodes of a program
that is read are numbered from one to the last number, each once. -/
namespace RelayLogic

def Group.numbers (e : Expression) : List Nat := e.groups.map Group.id

def Term.numbers (t : Term) : List Nat := t.groups.map Group.id

def Term.numbersOfList (ts : List Term) : List Nat := ts.flatMap Term.numbers

/-- The numbers of all nodes of all equations. -/
def Program.numbers (p : Program) : List Nat := p.equations.flatMap fun entry => entry.2.numbers

theorem Group.numbers_eq (e : Expression) : e.numbers = e.id :: Term.numbersOfList e.terms := by
  have below (ts : List Term) : (Term.groupsOfList ts).map Group.id = Term.numbersOfList ts := by
    induction ts with
    | nil => rfl
    | cons t rest ih =>
        rw [Term.groupsOfList, List.map_append, ih]
        rfl
  rw [Group.numbers, e.groups_eq, List.map_cons, below]

theorem Term.numbersOfList_cons (t : Term) (ts : List Term) :
    Term.numbersOfList (t :: ts) = t.numbers ++ Term.numbersOfList ts := List.flatMap_cons

theorem Term.numbers_group (inverted : Bool) (g : Expression) :
    (Term.group inverted g).numbers = g.numbers := rfl

theorem Term.numbers_invert (t : Term) : t.invert.numbers = t.numbers := by
  cases t <;> rfl

/-- These are the numbers behind the first and up to the last, each once, in any order. -/
structure Numbers (first last : Nat) (ns : List Nat) : Prop where
  le : first ≤ last
  perm : ns.Perm (List.range' (first + 1) (last - first))

namespace Numbers

variable {first between last : Nat} {ns ns' : List Nat}

theorem nil (n : Nat) : Numbers n n [] := ⟨Nat.le_refl n, by simp⟩

theorem next (n : Nat) : Numbers n (n + 1) [n + 1] := ⟨Nat.le_succ n, by simp⟩

theorem append (h : Numbers first between ns) (h' : Numbers between last ns') :
    Numbers first last (ns ++ ns') := by
  have le := h.le
  have le' := h'.le
  refine ⟨Nat.le_trans le le', (h.perm.append h'.perm).trans (.of_eq ?_)⟩
  have start : between + 1 = first + 1 + (between - first) := by omega
  have count : last - first = (between - first) + (last - between) := by omega
  rw [start, count, List.range'_append_1]

theorem of_perm (h : Numbers first last ns) (same : ns'.Perm ns) : Numbers first last ns' :=
  ⟨h.le, same.trans h.perm⟩

theorem nodup (h : Numbers first last ns) : ns.Nodup := h.perm.nodup_iff.2 List.nodup_range'

theorem mem_iff (h : Numbers first last ns) {n : Nat} : n ∈ ns ↔ first < n ∧ n ≤ last := by
  have le := h.le
  rw [h.perm.mem_iff, List.mem_range'_1]
  omega

end Numbers

namespace Draft

/-- The numbers of the root and of the group that may still go on. -/
def numbers (d : Draft) : List Nat := d.root.numbers ++ (d.tight.map Group.numbers).getD []

theorem numbers_put (e : Expression) (t : Term) : (put e t).numbers.Perm (e.numbers ++ t.numbers) := by
  rw [Group.numbers_eq, e.numbers_eq, List.cons_append]
  exact .cons _ List.perm_append_comm

theorem numbers_settled (e : Expression) : (settled e).numbers.Perm e.numbers := by
  rw [Group.numbers_eq, e.numbers_eq]
  exact .cons _ ((List.reverse_perm e.terms).flatMap_right _)

/-- A term that is put down behind a group that ends with it. -/
theorem numbers_put_settled (e g : Expression) (t : Term) :
    (put e (.group false (settled (put g t)))).numbers.Perm (e.numbers ++ (g.numbers ++ t.numbers)) :=
  (numbers_put e _).trans (.append_left _ ((numbers_settled _).trans (numbers_put g t)))

theorem numbers_close (d : Draft) (t : Term) : (d.close t).numbers.Perm (d.numbers ++ t.numbers) := by
  rcases d with ⟨root, _ | g, lastId⟩
  · have all : (close ⟨root, none, lastId⟩ t).numbers.Perm (root.numbers ++ t.numbers) :=
      (numbers_settled _).trans (numbers_put root t)
    simpa [numbers] using all
  · have all : (close ⟨root, some g, lastId⟩ t).numbers.Perm
        (root.numbers ++ (g.numbers ++ t.numbers)) :=
      (numbers_settled _).trans (numbers_put_settled root g t)
    simpa [numbers] using all

/-- Taking a term and the operator behind it gives out the number of a new group, if there is one. -/
theorem numbers_extend (d : Draft) (t : Term) (operator : Operator) :
    ∃ new, Numbers d.lastId (d.extend t operator).lastId new ∧
      (d.extend t operator).numbers.Perm (d.numbers ++ t.numbers ++ new) := by
  rcases d with ⟨root, _ | g, lastId⟩
  · have known : numbers ⟨root, none, lastId⟩ = root.numbers := List.append_nil _
    rw [known]
    simp only [extend]
    split
    · -- The term goes on with the root.
      refine ⟨[], .nil lastId, ?_⟩
      have same : numbers ⟨{ put root t with operator }, none, lastId⟩ = (put root t).numbers := by
        simp [numbers, Group.numbers_eq]
      rw [same, List.append_nil]
      exact numbers_put root t
    split
    · -- The term begins a stronger group.
      refine ⟨[lastId + 1], .next lastId, ?_⟩
      have opened : numbers ⟨root, some (.anonymous (lastId + 1) operator [t]), lastId + 1⟩ =
          root.numbers ++ (lastId + 1) :: t.numbers := by
        simp [numbers, Group.numbers_eq, Group.anonymous, Term.numbersOfList]
      rw [opened, List.append_assoc]
      exact .append_left _ (List.perm_append_singleton _ _).symm
    · -- All that was read becomes the first term of a weaker root.
      refine ⟨[lastId + 1], .next lastId, ?_⟩
      have wrapped : numbers ⟨.anonymous (lastId + 1) operator [.group false (settled (put root t))],
          none, lastId + 1⟩ = (lastId + 1) :: (settled (put root t)).numbers := by
        rw [numbers, Group.numbers_eq]
        simp [Group.anonymous, Term.numbersOfList, Term.numbers_group]
      rw [wrapped]
      have inner := (numbers_settled (put root t)).trans (numbers_put root t)
      exact (inner.cons _).trans (List.perm_append_singleton _ _).symm
  · have known : numbers ⟨root, some g, lastId⟩ = root.numbers ++ g.numbers := rfl
    rw [known]
    simp only [extend]
    refine ⟨[], ?_⟩
    rw [List.append_nil, List.append_assoc]
    split
    · exact ⟨.nil lastId, .append_left _ (numbers_put g t)⟩
    · refine ⟨.nil lastId, ?_⟩
      have ended : numbers ⟨put root (.group false (settled (put g t))), none, lastId⟩ =
          (put root (.group false (settled (put g t)))).numbers := List.append_nil _
      rw [ended]
      exact numbers_put_settled root g t

end Draft

section

variable {ending : Ending} {symbols : SymbolTable}

/-- Reading terms, each of which is numbered on from where the one before ended, gives one tree with
the numbers of the draft and those that follow. -/
theorem numbers_of_readTerms {term : Nat → (ts : Tokens) → Reading (Term × Nat) ts}
    (operand : ∀ {lastId : Nat} {ts : Tokens} {r : Read (Term × Nat) ts},
      term lastId ts = .ok r → Numbers lastId r.value.2 r.value.1.numbers)
    {first : Nat} {d : Draft} (drafted : Numbers first d.lastId d.numbers) {ts : Tokens}
    {r : Read (Expression × Nat) ts} (read : readTerms ending term d ts = .ok r) :
    Numbers first r.value.2 r.value.1.numbers := by
  obtain ⟨t, taken, h⟩ := readTerms_eq_ok.1 read
  have further := drafted.append (operand taken)
  rcases h with ⟨-, -, value⟩ | ⟨sign, tail, more, spelled, others, -, value⟩
  · rw [value]
    exact further.of_perm (Draft.numbers_close _ _)
  · have less : tail.length < ts.length := Nat.lt_trans spelled.shorter t.shorter
    obtain ⟨new, opened, same⟩ :=
      Draft.numbers_extend { d with lastId := t.value.2 } t.value.1 sign.operator
    rw [value]
    exact numbers_of_readTerms operand ((further.append opened).of_perm same) others
termination_by ts.length

theorem numbers_start (lastId : Nat) : Numbers lastId (lastId + 1) (Draft.start lastId).numbers :=
  .next lastId

/-- The nodes of a term that is read are numbered on from the last number before it. -/
theorem numbers_of_readTerm {nesting lastId : Nat} {ts : Tokens} {r : Read (Term × Nat) ts}
    (read : readTerm ending symbols nesting lastId ts = .ok r) :
    Numbers lastId r.value.2 r.value.1.numbers := by
  rcases readTerm_eq_ok.1 read with ⟨v, -, -, value⟩ | ⟨inner, tail, t, rfl, -, read, -, value⟩ |
    ⟨inner, tail, e, rfl, -, read, -, value⟩
  · rw [value]
    exact .nil lastId
  · rw [value, Term.numbers_invert]
    exact numbers_of_readTerm read
  · rw [value]
    exact numbers_of_readTerms numbers_of_readTerm (numbers_start lastId) read
termination_by nesting

end

/-- An equation adds the numbers of its nodes to those of the program. -/
theorem numbers_of_readEquation {ending : Ending} {p : Program} {name : Located String}
    {ts : Tokens} {r : Read Program ts} (before : Numbers 0 p.lastId p.numbers)
    (read : readEquation ending p name ts = .ok r) :
    Numbers 0 r.value.lastId r.value.numbers := by
  obtain ⟨v, assignment, tail, e, -, -, -, expression, -, grown⟩ := readEquation_eq_ok.1 read
  have own : Numbers p.lastId e.value.2 e.value.1.numbers :=
    numbers_of_readTerms numbers_of_readTerm (numbers_start p.lastId) expression
  have both := before.append own
  rw [grown]
  refine both.of_perm (.of_eq ?_)
  simp [Program.numbers, Group.numbers_eq]

/-- The nodes of a program that is read are numbered from one to the last number, each once. -/
theorem Source.numbers_of_program {source : Source} {p : Program} (read : source.program = .ok p) :
    Numbers 0 p.lastId p.numbers :=
  readProgram_keeps (motive := fun p => Numbers 0 p.lastId p.numbers) (fun h _ => h)
    numbers_of_readEquation (.nil 0) read

end RelayLogic
