import RelayLogic.Proofs.DeclarationGrammar
import RelayLogic.Proofs.PhraseShape

/-! Reading programs. A program grows by the variables of sections, which are put behind those
declared before, and by equations, each the tree of a phrase for a variable that had none. What
both kinds of growth keep holds of every program that can be read. -/
namespace RelayLogic

section

variable {ending : Ending}

/-- An equation that is read is the expression behind a sign and before a semicolon. Its variable
is declared and had none. -/
theorem readEquation_eq_ok {p : Program} {name : Located String} {ts : Tokens}
    {r : Read Program ts} :
    readEquation ending p name ts = .ok r ↔
    ∃ (v : Variable) (assignment : Assignment) (tail : Tokens) (e : Read (Expression × Nat) tail),
      p.symbols.find? name.value = some v ∧ p.equation? v = none ∧
        Spells ts [.assignment assignment] tail ∧
        readExpression ending p.symbols maxNesting p.lastId tail = .ok e ∧
        Spells e.rest [.char ';'] r.rest ∧
        r.value =
          { p with
            equations := p.equations ++ [(v, { e.value.1 with assignment, owner := some v })]
            lastId := e.value.2 } := by
  constructor
  · intro read
    unfold readEquation at read
    split at read
    · cases read
    · rename_i v found
      obtain ⟨sign, taken, read⟩ := bind_eq_ok.1 read
      split at read
      · rename_i assignment here
        obtain ⟨e, expression, read⟩ := bind_eq_ok.1 read
        obtain ⟨close, closed, read⟩ := bind_eq_ok.1 read
        split at read
        · cases read
        · rename_i grown added
          unfold Program.addEquation at added
          split at added
          · cases added
          · rename_i fresh
            refine ⟨v, assignment, sign.rest, e, SymbolTable.lookup_eq_ok.1 found, fresh,
              Spells.singleton_iff.2 ⟨sign.value, readToken_eq_ok.1 taken, here⟩, expression,
              ?_, ?_⟩
            · rw [← Except.ok.inj read]
              exact readChar_eq_ok.1 closed
            · rw [← Except.ok.inj read]
              exact (Except.ok.inj added).symm
      · cases read
  · rcases r with ⟨grown, rest, shorter⟩
    rintro ⟨v, assignment, tail, e, found, fresh, signed, expression, closed, rfl⟩
    obtain ⟨sign, rfl, here⟩ := Spells.singleton_iff.1 signed
    unfold readEquation
    rw [SymbolTable.lookup_eq_ok.2 found]
    refine bind_eq_ok.2 ⟨⟨sign, tail, Nat.lt_succ_self _⟩, rfl, ?_⟩
    simp only [here]
    refine bind_eq_ok.2 ⟨e, expression, bind_eq_ok.2 ⟨⟨(), rest, closed.shorter⟩,
      readChar_eq_ok.2 closed, ?_⟩⟩
    simp only [Program.addEquation, Program.equation?] at fresh ⊢
    simp only [fresh]
    rfl

/-- A program that is read is a heading, or behind a heading an equation and then a program. -/
theorem readProgram_eq_ok {p q : Program} {ts : Tokens} :
    readProgram ending p ts = .ok q ↔
      (∃ symbols, readHeading ending p.symbols ts = .ok (.finished symbols) ∧
          q = { p with symbols }) ∨
        ∃ symbols name more, readHeading ending p.symbols ts = .ok (.statement symbols name) ∧
          readEquation ending { p with symbols } name.value name.rest = .ok more ∧
          readProgram ending more.value more.rest = .ok q := by
  rw [readProgram, bind_eq_ok]
  constructor
  · rintro ⟨symbols | ⟨symbols, name⟩, sections, read⟩
    · exact .inl ⟨symbols, sections, (Except.ok.inj read).symm⟩
    · obtain ⟨more, equation, read⟩ := bind_eq_ok.1 read
      exact .inr ⟨symbols, name, more, sections, equation, read⟩
  · rintro (⟨symbols, sections, rfl⟩ | ⟨symbols, name, more, sections, equation, read⟩)
    · exact ⟨_, sections, rfl⟩
    · exact ⟨_, sections, bind_eq_ok.2 ⟨more, equation, read⟩⟩

/-- Whatever sections and equations keep holds of the program that is read if it holds of the one
that reading begins with. The name of an equation begins no section. -/
theorem readProgram_keeps_named {motive : Program → Prop}
    (declares : ∀ {p : Program} {symbols : SymbolTable}, motive p →
      p.symbols.declared <+: symbols.declared → motive { p with symbols })
    (defines : ∀ {p : Program} {name : Located String} {ts : Tokens} {r : Read Program ts},
      motive p → sectionOf? name.value = none → readEquation ending p name ts = .ok r →
        motive r.value)
    {p q : Program} (before : motive p) {ts : Tokens} (read : readProgram ending p ts = .ok q) :
    motive q := by
  rcases readProgram_eq_ok.1 read with ⟨symbols, heading, rfl⟩ |
    ⟨symbols, name, more, heading, equation, read⟩
  · obtain ⟨words, _, sections, -⟩ := sections_of_readHeading heading
    exact declares before sections.grows
  · obtain ⟨words, sections, -, other⟩ := readHeading_eq_statement.1 heading
    have less : more.rest.length < ts.length := Nat.lt_trans more.shorter name.shorter
    exact readProgram_keeps_named declares defines
      (defines (declares before sections.grows) other equation) read
termination_by ts.length

theorem readProgram_keeps {motive : Program → Prop}
    (declares : ∀ {p : Program} {symbols : SymbolTable}, motive p →
      p.symbols.declared <+: symbols.declared → motive { p with symbols })
    (defines : ∀ {p : Program} {name : Located String} {ts : Tokens} {r : Read Program ts},
      motive p → readEquation ending p name ts = .ok r → motive r.value)
    {p q : Program} (before : motive p) {ts : Tokens} (read : readProgram ending p ts = .ok q) :
    motive q :=
  readProgram_keeps_named declares (fun h _ => defines h) before read

/-- A program without equations is read from sections alone. -/
theorem Source.sections_of_program {s : Source} {p : Program} (read : s.program = .ok p)
    (none : p.equations = []) : ∃ words, s.HasWords words ∧ Sections .empty words p.symbols := by
  rcases readProgram_eq_ok.1 read with ⟨symbols, heading, rfl⟩ |
    ⟨symbols, name, more, heading, equation, read⟩
  · obtain ⟨⟨words, sections, front, tokens, rfl⟩, finished⟩ := readHeading_eq_finished.1 heading
    rw [List.append_nil] at tokens
    exact ⟨_, ⟨congrArg _ tokens, finished⟩, sections⟩
  · -- An equation that is read stays in the program.
    obtain ⟨_, _, _, _, -, -, -, -, -, grown⟩ := readEquation_eq_ok.1 equation
    have some : more.value.equations ≠ [] := by
      rw [grown]
      exact List.append_ne_nil_of_right_ne_nil _ (List.cons_ne_nil _ _)
    refine absurd none (readProgram_keeps (motive := fun q => q.equations ≠ []) (fun h _ => h) ?_
      some read)
    intro p name ts r h read
    obtain ⟨_, _, _, _, -, -, -, -, -, grown⟩ := readEquation_eq_ok.1 read
    rw [grown]
    exact List.append_ne_nil_of_left_ne_nil h _

end

namespace Program

/-- What holds of every program that was read. Its equations are of distinct variables, all of
them declared, and their trees have no more levels than a text can nest. -/
structure Accepted (p : Program) : Prop where
  distinct : (p.equations.map Prod.fst).Nodup
  declared : ∀ entry ∈ p.equations, entry.1 ∈ p.symbols.declared
  proper : ∀ entry ∈ p.equations, entry.2.Proper p.symbols.declared (2 * maxNesting + 2)

theorem Accepted.empty : empty.Accepted := ⟨.nil, by simp [Program.empty], by simp [Program.empty]⟩

theorem Accepted.declares {p : Program} (h : p.Accepted) {symbols : SymbolTable}
    (more : p.symbols.declared <+: symbols.declared) : ({ p with symbols } : Program).Accepted := by
  refine ⟨h.distinct, fun entry member => more.subset (h.declared entry member), ?_⟩
  intro entry member
  have proper := h.proper entry member
  exact ⟨proper.regular, proper.shallow, fun v leaf => more.subset (proper.known v leaf)⟩

theorem Accepted.defines {p : Program} (h : p.Accepted) {ending : Ending} {name : Located String}
    {ts : Tokens} {r : Read Program ts} (read : readEquation ending p name ts = .ok r) :
    r.value.Accepted := by
  obtain ⟨v, assignment, tail, e, found, fresh, -, expression, -, grown⟩ :=
    readEquation_eq_ok.1 read
  have proper : e.value.1.Proper p.symbols.declared (2 * maxNesting + 2) := by
    obtain ⟨phrase, fits, tree, -⟩ := phrase_of_readExpression 0 expression
    rw [← Group.proper_unnumbered, tree]
    exact Phrase.proper_tree fits
  rw [grown]
  refine ⟨?_, ?_, ?_⟩
  · rw [List.map_append]
    refine List.nodup_append.2 ⟨h.distinct, List.nodup_cons.2 ⟨List.not_mem_nil, .nil⟩, ?_⟩
    intro a there b here same
    obtain ⟨entry, member, rfl⟩ := List.mem_map.1 there
    exact equation?_eq_none_iff.1 fresh entry member (same.trans (List.mem_singleton.1 here))
  · intro entry member
    rcases List.mem_append.1 member with there | here
    · exact h.declared entry there
    · rw [List.mem_singleton.1 here]
      exact (SymbolTable.mem_of_find? found).1
  · intro entry member
    rcases List.mem_append.1 member with there | here
    · exact h.proper entry there
    · rw [List.mem_singleton.1 here]
      exact proper.owned assignment (some v)

theorem Accepted.closed {p : Program} (h : p.Accepted) : p.Closed :=
  ⟨h.declared, fun entry member => (h.proper entry member).known⟩

theorem Accepted.proper_equation {p : Program} (h : p.Accepted) (v : Variable) (e : Expression)
    (found : p.equation? v = some e) : e.Proper p.symbols.declared e.levels := by
  have proper := h.proper (v, e) (mem_of_equation? found)
  exact ⟨proper.regular, Nat.le_refl _, proper.known⟩

end Program

theorem Source.accepted_program {source : Source} {p : Program} (read : source.program = .ok p) :
    p.Accepted :=
  readProgram_keeps (fun h => h.declares) (fun h => h.defines) .empty read

end RelayLogic
