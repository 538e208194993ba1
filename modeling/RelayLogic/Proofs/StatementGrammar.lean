import Mathlib.Data.List.Forall2
import Mathlib.Data.List.Nodup
import RelayLogic.Proofs.ProgramGrammar

/-! Programs as they are written. Behind sections a program is a row of statements, each of which is a
name, a sign, a phrase and a semicolon. Up to the numbers of its nodes, what is read has the trees of
the phrases in the order of the statements. -/
namespace RelayLogic

mutual

theorem Operand.semicolon_not_mem (o : Operand) : .char ';' ∉ o.words :=
  match o with
  | .name v => by simp [Operand.words]
  | .inverted o => by simpa [Operand.words] using o.semicolon_not_mem
  | .enclosed p => by simpa [Operand.words] using p.semicolon_not_mem
termination_by structural o

theorem Phrase.semicolon_not_mem (p : Phrase) : .char ';' ∉ p.words :=
  match p with
  | .last o => o.semicolon_not_mem
  | .join o sign rest => by
    have other : .char ';' ≠ sign.token := by cases sign <;> decide
    simp [Phrase.words, o.semicolon_not_mem, rest.semicolon_not_mem, other]
termination_by structural p

end

/-- An equation as it is written: its variable, its sign and its phrase. -/
structure Statement where
  target : Variable
  assignment : Assignment
  phrase : Phrase

namespace Statement

def words (d : Statement) : List Token :=
  .ident d.target.name :: .assignment d.assignment :: (d.phrase.words ++ [.char ';'])

/-- The equation of a program that has the tree of the phrase, whatever its numbers are. -/
def Makes (d : Statement) (entry : Variable × Expression) : Prop :=
  ∃ e : Expression, e.unnumbered = d.phrase.tree ∧
    entry = (d.target, { e with assignment := d.assignment, owner := some d.target })

/-- The words of a statement are those up to the first semicolon. -/
theorem words_unique {d : Statement} {front rest rest' : List Token} (single : .char ';' ∉ front)
    (same : front ++ .char ';' :: rest = d.words ++ rest') :
    d.words = front ++ [.char ';'] ∧ rest = rest' := by
  let own := Token.ident d.target.name :: .assignment d.assignment :: d.phrase.words
  have words : d.words = own ++ [.char ';'] := rfl
  have single' : .char ';' ∉ own := by simp [own, d.phrase.semicolon_not_mem]
  rw [words, List.append_assoc] at same
  obtain ⟨rfl, rfl⟩ := cut_unique single single' same
  exact ⟨words, rfl⟩

structure Fits (symbols : SymbolTable) (d : Statement) : Prop where
  declared : symbols.find? d.target.name = some d.target
  other : sectionOf? d.target.name = none
  phrase : d.phrase.Fits symbols 0

end Statement

/-- The words of one equation: a name that begins no section, and what follows it up to the first
semicolon. -/
inductive EquationWords : List Token → Prop
  | upTo {name : String} {body : List Token} : sectionOf? name = none → .char ';' ∉ body →
      EquationWords (.ident name :: (body ++ [.char ';']))

section

variable {ending : Ending} {p : Program}

/-- What is read as an equation is a statement for a variable that had none. -/
theorem statement_of_readEquation {name : Located String} (other : sectionOf? name.value = none)
    {ts : Tokens} {r : Read Program ts} (read : readEquation ending p name ts = .ok r) :
    ∃ (d : Statement) (entry : Variable × Expression), d.Fits p.symbols ∧ d.Makes entry ∧
      Spells (⟨.ident name.value, name.span⟩ :: ts) d.words r.rest ∧
      r.value.symbols = p.symbols ∧ r.value.equations = p.equations ++ [entry] := by
  obtain ⟨v, assignment, tail, e, found, -, signed, expression, closed, grown⟩ :=
    readEquation_eq_ok.1 read
  obtain ⟨phrase, fits, tree, spelled, -⟩ := phrase_of_readExpression 0 expression
  have named : v.name = name.value := (SymbolTable.mem_of_find? found).2
  refine ⟨⟨v, assignment, phrase⟩, _, ⟨?_, ?_, fits⟩, ⟨e.value.1, tree, rfl⟩, ?_, ?_, ?_⟩
  · rw [named]
    exact found
  · rw [named]
    exact other
  · exact .cons (congrArg Token.ident named.symm) (signed.append (spelled.append closed))
  · rw [grown]
  · rw [grown]

/-- A statement for a variable that had none can be read. -/
theorem Statement.Fits.read (ending : Ending) {d : Statement} (fits : d.Fits p.symbols)
    (fresh : d.target ∉ p.equations.map Prod.fst) {span : Span} {tail rest : Tokens}
    (spelled : Spells (⟨.ident d.target.name, span⟩ :: tail) d.words rest) :
    ∃ (r : Read Program tail) (entry : Variable × Expression), d.Makes entry ∧
      readEquation ending p ⟨d.target.name, span⟩ tail = .ok r ∧ r.rest = rest ∧
      r.value.symbols = p.symbols ∧ r.value.equations = p.equations ++ [entry] := by
  obtain ⟨_, tail', same, -, assigned⟩ := spelled.of_cons
  obtain ⟨-, rfl⟩ := List.cons.inj same
  obtain ⟨behind, signed, ended⟩ := assigned.uncons
  obtain ⟨next, formula, closed⟩ := ended.of_append
  obtain ⟨t, rfl, semicolon⟩ := Spells.singleton_iff.1 closed
  obtain ⟨e, expression, left, tree⟩ :=
    d.phrase.read ending fits.phrase (.start (p.lastId + 1) (p.lastId + 1)) formula
      ⟨t, rest, rfl, .inl semicolon⟩
  rw [List.nil_append, extendFirst_nil d.phrase.segments_ne_nil] at tree
  have undefined : p.equation? d.target = none := by
    refine Program.equation?_eq_none_iff.2 fun entry member same => fresh ?_
    rw [← same]
    exact List.mem_map_of_mem member
  have within := e.shorter
  rw [left] at within
  have shorter := Nat.lt_trans closed.shorter (Nat.lt_trans within signed.shorter)
  let entry := (d.target, { e.value.1 with assignment := d.assignment, owner := some d.target })
  refine ⟨⟨{ p with equations := p.equations ++ [entry], lastId := e.value.2 }, rest, shorter⟩,
    entry, ⟨e.value.1, tree, rfl⟩, readEquation_eq_ok.2 ?_, rfl, rfl, rfl⟩
  exact ⟨d.target, d.assignment, behind, e, fits.declared, undefined, signed, expression,
    left ▸ closed, rfl⟩

/-- Statements behind sections can be read, if they are for different variables that had no
equation. -/
theorem Statement.readProgram {last : Span} {heading : List Token} {symbols : SymbolTable}
    (sections : Sections p.symbols heading symbols) {ds : List Statement}
    (fits : ∀ d ∈ ds, d.Fits symbols)
    (distinct : (p.equations.map Prod.fst ++ ds.map Statement.target).Nodup) {ts : Tokens}
    (spelled : Spells ts (heading ++ ds.flatMap Statement.words) []) :
    ∃ q entries, readProgram (.finished last) p ts = .ok q ∧ q.symbols = symbols ∧
      q.equations = p.equations ++ entries ∧ List.Forall₂ Makes ds entries := by
  induction ds generalizing p heading ts with
  | nil =>
      rw [List.flatMap_nil, List.append_nil] at spelled
      have finished := sections.read_finished last spelled
      exact ⟨_, [], readProgram_eq_ok.2 (.inl ⟨symbols, finished, rfl⟩), rfl,
        (List.append_nil _).symm, .nil⟩
  | cons d ds ih =>
      obtain ⟨first, others⟩ := List.forall_mem_cons.1 fits
      rw [List.flatMap_cons] at spelled
      obtain ⟨mid, before, statements⟩ := spelled.of_append
      obtain ⟨next, here, later⟩ := statements.of_append
      obtain ⟨⟨_, span⟩, tail, rfl, rfl, -⟩ := here.of_cons
      obtain ⟨shorter, statement⟩ := sections.read_statement (.finished last) before first.other
      have fresh : d.target ∉ p.equations.map Prod.fst := by
        intro member
        exact (List.nodup_append'.1 distinct).2.2 member List.mem_cons_self
      obtain ⟨r, entry, makes, read, rfl, same, grown⟩ :=
        first.read (p := { p with symbols }) (.finished last) fresh here
      have distinct' : (r.value.equations.map Prod.fst ++ ds.map Statement.target).Nodup := by
        obtain ⟨e, -, rfl⟩ := makes
        rw [grown, List.map_append, List.append_assoc]
        exact distinct
      have nothing : Sections r.value.symbols [] symbols := by
        rw [same]
        exact .nil symbols
      obtain ⟨q, entries, reads, declared, all, made⟩ := ih nothing others distinct' later
      refine ⟨q, entry :: entries, readProgram_eq_ok.2 (.inr ⟨symbols, _, r, statement, read, reads⟩),
        declared, ?_, .cons makes made⟩
      rw [all, grown, List.append_assoc]
      rfl

/-- Where a program is read from sections and behind them from equations, word for word, each of
these is a statement. -/
theorem statements_of_readProgram {last : Span} {q : Program} {heading : List Token}
    {symbols : SymbolTable} (sections : Sections p.symbols heading symbols)
    {chunks : List (List Token)} (each : ∀ words ∈ chunks, EquationWords words) {ts : Tokens}
    (spelled : Spells ts (heading ++ chunks.flatten) [])
    (read : readProgram (.finished last) p ts = .ok q) :
    ∃ ds entries, chunks = ds.map Statement.words ∧ (∀ d ∈ ds, d.Fits symbols) ∧
      q.symbols = symbols ∧ q.equations = p.equations ++ entries ∧
        List.Forall₂ Statement.Makes ds entries := by
  induction chunks generalizing p heading ts with
  | nil =>
      rw [List.flatten_nil, List.append_nil] at spelled
      have finished := sections.read_finished last spelled
      rcases readProgram_eq_ok.1 read with ⟨_, heading, rfl⟩ | ⟨_, _, _, heading, -⟩
      · cases finished.symm.trans heading
        exact ⟨[], [], rfl, nofun, rfl, (List.append_nil _).symm, .nil⟩
      · cases finished.symm.trans heading
  | cons chunk chunks ih =>
      obtain ⟨first, others⟩ := List.forall_mem_cons.1 each
      cases first with
      | @upTo name body other single =>
          obtain ⟨mid, before, statements⟩ := spelled.of_append
          obtain ⟨⟨_, span⟩, tail, rfl, rfl, behind⟩ := statements.of_cons
          obtain ⟨shorter, statement⟩ := sections.read_statement (.finished last) before other
          rcases readProgram_eq_ok.1 read with ⟨_, finished, -⟩ |
            ⟨_, here, r, heading, equation, reads⟩
          · cases statement.symm.trans finished
          cases statement.symm.trans heading
          obtain ⟨d, entry, fits, makes, taken, same, grown⟩ :=
            statement_of_readEquation other equation
          have both : tail.map Located.value = body ++ .char ';' :: chunks.flatten := by
            have said : tail.map Located.value = (body ++ [.char ';']) ++ chunks.flatten ++ [] :=
              behind.map_eq
            rw [said, List.append_nil, List.append_assoc]
            rfl
          have told : (.ident name :: body) ++ .char ';' :: chunks.flatten =
              d.words ++ r.rest.map Located.value :=
            (congrArg (Token.ident name :: ·) both).symm.trans taken.map_eq
          obtain ⟨words, left⟩ := Statement.words_unique (by simp [single]) told
          have later : Spells r.rest ([] ++ chunks.flatten) [] :=
            ⟨r.rest, (List.append_nil _).symm, left.symm⟩
          have nothing : Sections r.value.symbols [] symbols := by
            rw [same]
            exact .nil symbols
          obtain ⟨ds, entries, rfl, each', declared, all, made⟩ := ih nothing others later reads
          refine ⟨d :: ds, entry :: entries, ?_, List.forall_mem_cons.2 ⟨fits, each'⟩, declared,
            ?_, .cons makes made⟩
          · rw [List.map_cons, words]
            rfl
          · rw [all, grown, List.append_assoc]
            rfl

end

namespace Source

variable {s : Source} {heading : List Token} {symbols : SymbolTable}

/-- A text of sections, and behind them statements for different variables, is a program. -/
theorem program_of_statements (sections : Sections .empty heading symbols) {ds : List Statement}
    (fits : ∀ d ∈ ds, d.Fits symbols) (distinct : (ds.map Statement.target).Nodup)
    (said : s.HasWords (heading ++ ds.flatMap Statement.words)) :
    ∃ q, s.program = .ok q ∧ q.symbols = symbols ∧ List.Forall₂ Statement.Makes ds q.equations := by
  obtain ⟨words, last, finished⟩ := said
  have spelled : Spells s.tape.tokens (heading ++ ds.flatMap Statement.words) [] :=
    ⟨_, (List.append_nil _).symm, words⟩
  obtain ⟨q, entries, read, same, equations, made⟩ :=
    Statement.readProgram (p := .empty) sections fits distinct spelled
  refine ⟨q, ?_, same, ?_⟩
  · rw [Source.program, Tape.program, finished]
    exact read
  · rw [equations]
    exact made

/-- A program that is read from sections and behind them from equations is one of statements. -/
theorem statements_of_program (sections : Sections .empty heading symbols)
    {chunks : List (List Token)} (each : ∀ words ∈ chunks, EquationWords words)
    (said : s.HasWords (heading ++ chunks.flatten)) {p : Program} (read : s.program = .ok p) :
    ∃ ds, chunks = ds.map Statement.words ∧ (∀ d ∈ ds, d.Fits symbols) ∧ p.symbols = symbols ∧
      List.Forall₂ Statement.Makes ds p.equations := by
  obtain ⟨words, last, finished⟩ := said
  have spelled : Spells s.tape.tokens (heading ++ chunks.flatten) [] :=
    ⟨_, (List.append_nil _).symm, words⟩
  rw [Source.program, Tape.program, finished] at read
  obtain ⟨ds, entries, same, fits, declared, equations, made⟩ :=
    statements_of_readProgram (p := .empty) sections each spelled read
  refine ⟨ds, same, fits, declared, ?_⟩
  rw [equations]
  exact made

end Source

end RelayLogic
