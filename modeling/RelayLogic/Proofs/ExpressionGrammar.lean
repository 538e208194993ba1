import RelayLogic.Proofs.Draft

/-! Reading expressions. A reader of expressions accepts just the phrases that end before a
semicolon or a closing parenthesis, and gives the tree of the phrase. -/
namespace RelayLogic

section

variable {ending : Ending} {symbols : SymbolTable} {ts : Tokens}

/-- A sign is read as its operator, and an end is left unread. -/
theorem readOperator_eq_ok {found : Option (Read Operator ts)} :
    readOperator ending ts = .ok found ↔
      match found with
      | none => EndsExpression ts
      | some r => ∃ sign : Joiner, r.value = sign.operator ∧ Spells ts [sign.token] r.rest := by
  constructor
  · intro h
    cases ts with
    | nil => cases h
    | cons t rest =>
        simp only [readOperator] at h
        split at h
        case h_1 here =>
          cases h
          exact ⟨t, rest, rfl, .inl here⟩
        case h_2 here =>
          cases h
          exact ⟨t, rest, rfl, .inr here⟩
        case h_3 here =>
          cases h
          exact ⟨.and, rfl, .cons here (.nil rest)⟩
        case h_4 here =>
          cases h
          exact ⟨.or, rfl, .cons here (.nil rest)⟩
        all_goals cases h
  · rcases found with _ | ⟨operator, rest, shorter⟩
    · rintro ⟨t, rest, rfl, here | here⟩ <;> simp only [readOperator, here]
    · rintro ⟨sign, rfl, spelled⟩
      obtain ⟨t, rfl, here⟩ := Spells.singleton_iff.1 (show Spells ts _ rest from spelled)
      cases sign <;> simp only [readOperator, here, Joiner.token, Joiner.operator]

/-- Taking an operand, and going on after a sign. -/
theorem readTerms_eq_ok {term : Nat → (ts : Tokens) → Reading (Term × Nat) ts} {d : Draft}
    {r : Read (Expression × Nat) ts} :
    readTerms ending term d ts = .ok r ↔
      ∃ o : Read (Term × Nat) ts, term d.lastId ts = .ok o ∧
        ((EndsExpression o.rest ∧ r.rest = o.rest ∧
            r.value = ({ d with lastId := o.value.2 }.close o.value.1, o.value.2)) ∨
          ∃ (sign : Joiner) (tail : Tokens) (more : Read (Expression × Nat) tail),
            Spells o.rest [sign.token] tail ∧
            readTerms ending term ({ d with lastId := o.value.2 }.extend o.value.1 sign.operator)
              tail = .ok more ∧ r.rest = more.rest ∧ r.value = more.value) := by
  rcases r with ⟨value, rest, shorter⟩
  rw [readTerms]
  simp only [bind_eq_ok]
  refine exists_congr fun o => and_congr_right fun _ => ?_
  constructor
  · rintro ⟨_ | operator, found, h⟩
    · cases h
      exact .inl ⟨readOperator_eq_ok.1 found, rfl, rfl⟩
    · obtain ⟨more, read, h⟩ := bind_eq_ok.1 h
      obtain ⟨sign, same, spelled⟩ := readOperator_eq_ok.1 found
      cases h
      rw [same] at read
      exact .inr ⟨sign, operator.rest, more, spelled, read, rfl, rfl⟩
  · rintro (⟨ends, rfl, rfl⟩ | ⟨sign, tail, more, spelled, read, rfl, rfl⟩)
    · exact ⟨none, readOperator_eq_ok.2 ends, rfl⟩
    · exact ⟨some ⟨sign.operator, tail, spelled.shorter⟩,
        readOperator_eq_ok.2 ⟨sign, rfl, spelled⟩, bind_eq_ok.2 ⟨more, read, rfl⟩⟩

/-- The three kinds of operands. The last two are read one level further inside. -/
theorem readTerm_eq_ok {nesting lastId : Nat} {r : Read (Term × Nat) ts} :
    readTerm ending symbols nesting lastId ts = .ok r ↔
      (∃ v : Variable, symbols.find? v.name = some v ∧ Spells ts [.ident v.name] r.rest ∧
          r.value = (.leaf false v, lastId)) ∨
        (∃ (inner : Nat) (tail : Tokens) (o : Read (Term × Nat) tail), nesting = inner + 1 ∧
          Spells ts [.char '!'] tail ∧ readTerm ending symbols inner lastId tail = .ok o ∧
          r.rest = o.rest ∧ r.value = (o.value.1.invert, o.value.2)) ∨
        ∃ (inner : Nat) (tail : Tokens) (e : Read (Expression × Nat) tail), nesting = inner + 1 ∧
          Spells ts [.char '('] tail ∧
          readTerms ending (readTerm ending symbols inner) (.start lastId) tail = .ok e ∧
          Spells e.rest [.char ')'] r.rest ∧ r.value = (.group false e.value.1, e.value.2) := by
  rw [readTerm]
  simp only [bind_eq_ok]
  constructor
  · rintro ⟨t, taken, h⟩
    have spelled : Spells ts [t.value.value] t.rest :=
      Spells.singleton_iff.2 ⟨t.value, readToken_eq_ok.1 taken, rfl⟩
    split at h
    case h_1 name here =>
      split at h
      · cases h
      · rename_i v found
        cases h
        have found := SymbolTable.lookup_eq_ok.1 found
        obtain ⟨-, rfl⟩ := SymbolTable.mem_of_find? found
        exact .inl ⟨v, found, here ▸ spelled, rfl⟩
    case h_2 here =>
      cases nesting with
      | zero => cases h
      | succ inner =>
          obtain ⟨o, read, h⟩ := bind_eq_ok.1 h
          cases h
          exact .inr (.inl ⟨inner, t.rest, o, rfl, here ▸ spelled, read, rfl, rfl⟩)
    case h_3 here =>
      cases nesting with
      | zero => cases h
      | succ inner =>
          obtain ⟨e, read, h⟩ := bind_eq_ok.1 h
          obtain ⟨close, closed, h⟩ := bind_eq_ok.1 h
          cases h
          exact .inr (.inr ⟨inner, t.rest, e, rfl, here ▸ spelled, read,
            readChar_eq_ok.1 closed, rfl⟩)
    case h_4 => cases h
  · rcases r with ⟨value, rest, shorter⟩
    rintro (⟨v, found, spelled, rfl⟩ | ⟨inner, tail, o, rfl, spelled, read, rfl, rfl⟩ |
      ⟨inner, tail, e, rfl, spelled, read, closed, rfl⟩)
    · obtain ⟨t, rfl, here⟩ := Spells.singleton_iff.1 (show Spells ts _ rest from spelled)
      refine ⟨⟨t, _, Nat.lt_succ_self _⟩, rfl, ?_⟩
      simp only [here, SymbolTable.lookup_eq_ok.2 found]
      rfl
    · obtain ⟨t, rfl, here⟩ := Spells.singleton_iff.1 spelled
      refine ⟨⟨t, _, Nat.lt_succ_self _⟩, rfl, ?_⟩
      simp only [here, bind_eq_ok]
      exact ⟨o, read, rfl⟩
    · obtain ⟨t, rfl, here⟩ := Spells.singleton_iff.1 spelled
      refine ⟨⟨t, _, Nat.lt_succ_self _⟩, rfl, ?_⟩
      simp only [here, bind_eq_ok]
      exact ⟨e, read, ⟨(), rest, closed.shorter⟩, readChar_eq_ok.2 closed, rfl⟩

/-- Whatever is read as terms is a phrase, if whatever is read as a term is an operand. -/
theorem phrase_of_readTerms {term : Nat → (ts : Tokens) → Reading (Term × Nat) ts} {depth : Nat}
    (operand : ∀ {lastId : Nat} {ts : Tokens} {r : Read (Term × Nat) ts},
      term lastId ts = .ok r → ∃ o : Operand, o.Fits symbols depth ∧
        r.value.1.unnumbered = o.term ∧ Spells ts o.words r.rest)
    {ts : Tokens} {d : Draft} {done : List (List Term)} {opened : List Term}
    (holds : d.Holds done opened) {r : Read (Expression × Nat) ts}
    (read : readTerms ending term d ts = .ok r) :
    ∃ p : Phrase, p.Fits symbols depth ∧
      r.value.1.unnumbered = .ofSegments (done ++ extendFirst opened p.segments) ∧
      Spells ts p.words r.rest ∧ EndsExpression r.rest := by
  obtain ⟨t, first, h⟩ := readTerms_eq_ok.1 read
  obtain ⟨o, fits, same, words⟩ := operand first
  rcases h with ⟨ends, left, value⟩ | ⟨sign, tail, more, spelled, read, left, value⟩
  · refine ⟨.last o, fits, ?_, left ▸ words, left ▸ ends⟩
    rw [value, (holds.renumber _).close, same]
    rfl
  · -- What the draft holds says where the segments of the rest of the phrase belong.
    obtain ⟨done', opened', holds', joined⟩ := (holds.renumber t.value.2).extend same sign
    have less : tail.length < ts.length := Nat.lt_trans spelled.shorter t.shorter
    obtain ⟨p, fits', tree, words', ends⟩ := phrase_of_readTerms operand holds' read
    refine ⟨.join o sign p, ⟨fits, fits'⟩, ?_, ?_, left ▸ ends⟩
    · rw [value, tree, joined]
    · rw [left]
      exact words.append (spelled.append words')
termination_by ts.length

/-- Whatever is read as a term is an operand. Reading goes inside where fewer than `maxNesting`
signs enclose the operand, and then one more of them encloses what is inside. -/
theorem operand_of_readTerm {nesting depth : Nat} (room : nesting = maxNesting - depth)
    {lastId : Nat} {ts : Tokens} {r : Read (Term × Nat) ts}
    (read : readTerm ending symbols nesting lastId ts = .ok r) :
    ∃ o : Operand, o.Fits symbols depth ∧ r.value.1.unnumbered = o.term ∧
      Spells ts o.words r.rest := by
  rcases readTerm_eq_ok.1 read with ⟨v, found, spelled, value⟩ |
    ⟨inner, tail, t, rfl, spelled, read, left, value⟩ |
    ⟨inner, tail, e, rfl, spelled, read, closed, value⟩
  · exact ⟨.name v, found, by rw [value]; rfl, spelled⟩
  · obtain ⟨o, fits, same, words⟩ := operand_of_readTerm
      (show inner = maxNesting - (depth + 1) by omega) read
    refine ⟨.inverted o, ⟨by omega, fits⟩, ?_, left ▸ spelled.append words⟩
    rw [value, Term.unnumbered_invert, same]
    rfl
  · obtain ⟨p, fits, tree, words, -⟩ := phrase_of_readTerms
      (operand_of_readTerm (show inner = maxNesting - (depth + 1) by omega)) (.start _ _) read
    refine ⟨.enclosed p, ⟨by omega, fits⟩, ?_, spelled.append (words.append closed)⟩
    rw [value, Term.unnumbered, tree, List.nil_append, extendFirst_nil p.segments_ne_nil]
    rfl
termination_by nesting

theorem phrase_of_readExpression (depth : Nat) {lastId : Nat} {ts : Tokens}
    {r : Read (Expression × Nat) ts}
    (read : readExpression ending symbols (maxNesting - depth) lastId ts = .ok r) :
    ∃ p : Phrase, p.Fits symbols depth ∧ r.value.1.unnumbered = p.tree ∧
      Spells ts p.words r.rest ∧ EndsExpression r.rest := by
  obtain ⟨p, fits, tree, words, ends⟩ :=
    phrase_of_readTerms (operand_of_readTerm rfl) (.start _ _) read
  refine ⟨p, fits, ?_, words, ends⟩
  rw [tree, List.nil_append, extendFirst_nil p.segments_ne_nil]
  rfl

end

mutual

theorem Operand.read (ending : Ending) {symbols : SymbolTable} (o : Operand) {depth : Nat}
    (fits : o.Fits symbols depth) (lastId : Nat) {ts rest : Tokens}
    (spelled : Spells ts o.words rest) :
    ∃ r, readTerm ending symbols (maxNesting - depth) lastId ts = .ok r ∧ r.rest = rest ∧
      r.value.1.unnumbered = o.term :=
  match o with
  | .name v =>
    ⟨⟨(.leaf false v, lastId), rest, spelled.shorter⟩,
      readTerm_eq_ok.2 (.inl ⟨v, fits, spelled, rfl⟩), rfl, rfl⟩
  | .inverted o => by
    obtain ⟨tail, sign, words⟩ := spelled.uncons
    obtain ⟨t, read, rfl, same⟩ := o.read ending fits.2 lastId words
    have room : maxNesting - depth = maxNesting - (depth + 1) + 1 := by have := fits.1; omega
    refine ⟨⟨(t.value.1.invert, t.value.2), t.rest, Nat.lt_trans t.shorter sign.shorter⟩,
      readTerm_eq_ok.2 (.inr (.inl ⟨_, tail, t, room, sign, read, rfl, rfl⟩)), rfl, ?_⟩
    rw [Term.unnumbered_invert, same]
    rfl
  | .enclosed p => by
    obtain ⟨tail, sign, words⟩ := spelled.uncons
    obtain ⟨last, words, closed⟩ := words.of_append
    obtain ⟨close, same, here⟩ := Spells.singleton_iff.1 closed
    obtain ⟨e, read, rfl, tree⟩ := p.read ending fits.2 (.start (lastId + 1) (lastId + 1)) words
      ⟨close, rest, same, .inr here⟩
    have room : maxNesting - depth = maxNesting - (depth + 1) + 1 := by have := fits.1; omega
    refine ⟨⟨(.group false e.value.1, e.value.2), rest,
      Nat.lt_trans closed.shorter (Nat.lt_trans e.shorter sign.shorter)⟩,
      readTerm_eq_ok.2 (.inr (.inr ⟨_, tail, e, room, sign, read, closed, rfl⟩)), rfl, ?_⟩
    rw [Term.unnumbered, tree, List.nil_append, extendFirst_nil p.segments_ne_nil]
    rfl
termination_by structural o

theorem Phrase.read (ending : Ending) {symbols : SymbolTable} (p : Phrase) {depth : Nat}
    (fits : p.Fits symbols depth) {d : Draft} {done : List (List Term)} {opened : List Term}
    (holds : d.Holds done opened) {ts rest : Tokens} (spelled : Spells ts p.words rest)
    (ends : EndsExpression rest) :
    ∃ r, readTerms ending (readTerm ending symbols (maxNesting - depth)) d ts = .ok r ∧
      r.rest = rest ∧
      r.value.1.unnumbered = .ofSegments (done ++ extendFirst opened p.segments) :=
  match p with
  | .last o => by
    obtain ⟨t, read, rfl, same⟩ := o.read ending fits d.lastId spelled
    refine ⟨⟨_, t.rest, t.shorter⟩, readTerms_eq_ok.2 ⟨t, read, .inl ⟨ends, rfl, rfl⟩⟩, rfl, ?_⟩
    rw [(holds.renumber _).close, same]
    rfl
  | .join o sign p => by
    obtain ⟨next, words, spelled⟩ := spelled.of_append
    obtain ⟨tail, here, words'⟩ := spelled.uncons
    obtain ⟨t, read, rfl, same⟩ := o.read ending fits.1 d.lastId words
    obtain ⟨done', opened', holds', joined⟩ := (holds.renumber t.value.2).extend same sign
    obtain ⟨more, read', rfl, tree⟩ := p.read ending fits.2 holds' words' ends
    refine ⟨⟨more.value, more.rest,
      Nat.lt_trans more.shorter (Nat.lt_trans here.shorter t.shorter)⟩,
      readTerms_eq_ok.2 ⟨t, read, .inr ⟨sign, tail, more, here, read', rfl, rfl⟩⟩, rfl, ?_⟩
    rw [tree, joined]
termination_by structural p

end

end RelayLogic
