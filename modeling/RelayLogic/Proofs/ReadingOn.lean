import RelayLogic.Proofs.ListingGrammar
import RelayLogic.Proofs.ProgramGrammar

/-! Reading on. A reader takes the same tokens whatever follows them and however the text ends. So
what is read of a text that goes on is what is read without the rest, and if the rest cannot be
read, it is for the same reason. -/
namespace RelayLogic

/-- What was read, where more tokens follow. -/
def Read.extend {α : Type} {ts : Tokens} (r : Read α ts) (more : Tokens) : Read α (ts ++ more) :=
  ⟨r.value, r.rest ++ more, by
    rw [List.length_append, List.length_append]
    exact Nat.add_lt_add_right r.shorter _⟩

theorem Spells.extend {ts rest : Tokens} {words : List Token} (h : Spells ts words rest)
    (more : Tokens) : Spells (ts ++ more) words (rest ++ more) := by
  obtain ⟨front, rfl, same⟩ := h
  exact ⟨front, List.append_assoc _ _ _, same⟩

theorem EndsExpression.extend {ts : Tokens} (h : EndsExpression ts) (more : Tokens) :
    EndsExpression (ts ++ more) := by
  obtain ⟨t, rest, rfl, sign⟩ := h
  exact ⟨t, rest ++ more, rfl, sign⟩

section

variable {ending : Ending} {symbols : SymbolTable} (other : Ending) (more : Tokens)

theorem readTerms_extend {term term' : Nat → (ts : Tokens) → Reading (Term × Nat) ts}
    (operand : ∀ (lastId : Nat) (ts : Tokens) (r : Read (Term × Nat) ts),
      term lastId ts = .ok r → term' lastId (ts ++ more) = .ok (r.extend more))
    {ts : Tokens} {d : Draft} {r : Read (Expression × Nat) ts}
    (read : readTerms ending term d ts = .ok r) :
    readTerms other term' d (ts ++ more) = .ok (r.extend more) := by
  obtain ⟨t, first, h⟩ := readTerms_eq_ok.1 read
  refine readTerms_eq_ok.2 ⟨t.extend more, operand _ _ _ first, ?_⟩
  rcases h with ⟨ends, left, value⟩ | ⟨sign, tail, others, spelled, read, left, value⟩
  · exact .inl ⟨ends.extend more, congrArg (· ++ more) left, value⟩
  · have less : tail.length < ts.length := Nat.lt_trans spelled.shorter t.shorter
    exact .inr ⟨sign, tail ++ more, others.extend more, spelled.extend more,
      readTerms_extend operand read, congrArg (· ++ more) left, value⟩
termination_by ts.length

theorem readTerm_extend {nesting lastId : Nat} {ts : Tokens} {r : Read (Term × Nat) ts}
    (read : readTerm ending symbols nesting lastId ts = .ok r) :
    readTerm other symbols nesting lastId (ts ++ more) = .ok (r.extend more) := by
  apply readTerm_eq_ok.2
  rcases readTerm_eq_ok.1 read with ⟨v, found, spelled, value⟩ |
    ⟨inner, tail, t, rfl, spelled, read, left, value⟩ |
    ⟨inner, tail, e, rfl, spelled, read, closed, value⟩
  · exact .inl ⟨v, found, spelled.extend more, value⟩
  · exact .inr (.inl ⟨inner, tail ++ more, t.extend more, rfl, spelled.extend more,
      readTerm_extend read, congrArg (· ++ more) left, value⟩)
  · have longer : readTerms other (readTerm other symbols inner) (.start lastId) (tail ++ more) =
        .ok (e.extend more) := by
      refine readTerms_extend other more ?_ read
      exact fun _ _ _ => readTerm_extend
    exact .inr (.inr ⟨inner, tail ++ more, e.extend more, rfl, spelled.extend more, longer,
      closed.extend more, value⟩)
termination_by nesting

theorem readEquation_extend {p : Program} {name : Located String} {ts : Tokens}
    {r : Read Program ts} (read : readEquation ending p name ts = .ok r) :
    readEquation other p name (ts ++ more) = .ok (r.extend more) := by
  obtain ⟨v, assignment, tail, e, found, fresh, signed, expression, closed, value⟩ :=
    readEquation_eq_ok.1 read
  have longer : readExpression other p.symbols maxNesting p.lastId (tail ++ more) =
      .ok (e.extend more) := by
    refine readTerms_extend other more ?_ expression
    exact fun _ _ _ => readTerm_extend other more
  exact readEquation_eq_ok.2 ⟨v, assignment, tail ++ more, e.extend more, found, fresh,
    signed.extend more, longer, closed.extend more, value⟩

end

/-- `Leads category symbols words symbols'`: the words are declarations with a comma behind each,
and their variables turn the first table into the second. -/
inductive Leads (category : Category) : SymbolTable → List Token → SymbolTable → Prop
  | nil (symbols : SymbolTable) : Leads category symbols [] symbols
  | cons {symbols between symbols' : SymbolTable} {v : Variable} {words rest : List Token} :
      Declaration category v words → symbols.declare v = .ok between →
      Leads category between rest symbols' →
      Leads category symbols (words ++ .char ',' :: rest) symbols'

variable {ending : Ending} {e : Located ParseError}

/-- Behind declarations, a section fails as the declaration that follows. -/
theorem Leads.readVariables_eq_error {category : Category} {symbols symbols' : SymbolTable}
    {words : List Token} (h : Leads category symbols words symbols') {ts rest : Tokens}
    (spelled : Spells ts words rest)
    (failed : readVariable ending category symbols' rest = .error e) :
    readVariables ending category symbols ts = .error e := by
  induction h generalizing ts with
  | nil =>
      rw [spelled.of_nil, readVariables, failed]
      rfl
  | cons entry declared _ ih =>
      obtain ⟨next, written, behind⟩ := spelled.of_append
      obtain ⟨t, tail, rfl, here, others⟩ := behind.of_cons
      rw [readVariables_of_comma ending entry declared written here, ih others failed]
      rfl

/-- Behind sections, a heading fails as what follows them does. -/
theorem Sections.readHeading_eq_error {symbols symbols' : SymbolTable} {words : List Token}
    (h : Sections symbols words symbols') {ts rest : Tokens} (spelled : Spells ts words rest)
    (failed : readHeading ending symbols' rest = .error e) :
    readHeading ending symbols ts = .error e := by
  induction h generalizing ts with
  | nil =>
      rw [spelled.of_nil]
      exact failed
  | cons word entries _ ih =>
      obtain ⟨⟨_, span⟩, tail, rfl, rfl, behind⟩ := spelled.of_cons
      obtain ⟨next, _, block, others⟩ := entries.read_section ending behind
      rw [readHeading]
      simp only [word, block, ih others failed]

/-- Behind a program, reading fails as what follows does if that begins with sections. -/
theorem readProgram_append_eq_error {last : Span} {p q : Program} {ts : Tokens}
    (read : readProgram (.finished last) p ts = .ok q) {rest : Tokens}
    (failed : readHeading ending q.symbols rest = .error e) :
    readProgram ending p (ts ++ rest) = .error e := by
  rcases readProgram_eq_ok.1 read with ⟨symbols, heading, rfl⟩ |
    ⟨symbols, name, more, heading, equation, read⟩
  · obtain ⟨⟨words, sections, spelled⟩, -⟩ := readHeading_eq_finished.1 heading
    rw [readProgram, sections.readHeading_eq_error (spelled.extend rest) failed]
    rfl
  · obtain ⟨words, sections, spelled, other⟩ := readHeading_eq_statement.1 heading
    have less : more.rest.length < ts.length := Nat.lt_trans more.shorter name.shorter
    obtain ⟨_, first⟩ := sections.read_statement ending (spelled.extend rest) other
    rw [readProgram, first]
    change (readEquation ending _ name.value (name.rest ++ rest) >>= fun more =>
      readProgram ending more.value more.rest) = _
    rw [readEquation_extend ending rest equation]
    exact readProgram_append_eq_error read failed
termination_by ts.length

/-- A text goes on with a section. -/
def BeginsSection (ts : Tokens) : Prop :=
  ∃ name category span rest, ts = ⟨.ident name, span⟩ :: rest ∧ sectionOf? name = some category

theorem Sections.begins {symbols symbols' : SymbolTable} {words : List Token}
    (h : Sections symbols words symbols') {ts rest : Tokens} (spelled : Spells ts words rest)
    (begins : BeginsSection rest) : BeginsSection ts := by
  cases h with
  | nil => rwa [spelled.of_nil]
  | cons word _ _ =>
      obtain ⟨⟨_, span⟩, tail, rfl, rfl, -⟩ := spelled.of_cons
      exact ⟨_, _, span, tail, rfl, word⟩

/-- Behind sections and lines, reading fails as what follows does if that begins with sections. -/
theorem Lists.readListing_eq_error {symbols : SymbolTable} {words : List Token} {l : Listing}
    (h : Lists symbols words l) {ts rest : Tokens} (spelled : Spells ts words rest)
    (begins : BeginsSection rest) (failed : readHeading ending l.symbols rest = .error e) :
    readListing ending symbols ts = .error e := by
  induction h generalizing ts with
  | finished sections =>
      obtain ⟨name, _, span, tail, rfl, -⟩ := sections.begins spelled begins
      rw [readListing, sections.readHeading_eq_error spelled failed]
      · rfl
      · simp
  | line sections mnemonic written _ ih =>
      obtain ⟨_, before, behind⟩ := spelled.of_append
      obtain ⟨⟨_, span⟩, tail, rfl, rfl, completed⟩ := behind.of_cons
      obtain ⟨next, here, others⟩ := completed.of_append
      obtain ⟨_, heading⟩ :=
        sections.read_statement ending before (sectionOf?_of_ofName? mnemonic)
      have first : readLine ending _ ⟨_, span⟩ false tail = .ok ⟨_, next, written.shorter here⟩ :=
        readLine_eq_ok.2 ⟨_, _, mnemonic, written, here⟩
      rw [readListing_of_readHeading heading]
      simp only [bind, Except.bind, first, ih others failed]
  | leading mnemonic written _ ih =>
      obtain ⟨⟨_, span⟩, tail, rfl, rfl, named⟩ := spelled.of_cons
      obtain ⟨⟨_, span'⟩, tail, rfl, rfl, completed⟩ := named.of_cons
      obtain ⟨next, here, others⟩ := completed.of_append
      have first : readLine ending _ ⟨_, span'⟩ true tail = .ok ⟨_, next, written.shorter here⟩ :=
        readLine_eq_ok.2 ⟨_, _, mnemonic, written, here⟩
      rw [readListing]
      simp only [readName, readToken, bind, Except.bind, pure, Except.pure, Read.map, first,
        ih others failed]

end RelayLogic
