import RelayLogic.Grammar.Listing
import RelayLogic.Proofs.DeclarationGrammar

/-! Listings as they are written. A line is a mnemonic with an argument or alone, and the inversion
of the argument stands before it or before the mnemonic. The reader of listings accepts just
these lines, with sections between them, but none between a line and the inversion that begins the
next. -/
namespace RelayLogic

/-- Whether a variable is declared and of a category that a mnemonic takes. -/
structure Mnemonic.Takes (m : Mnemonic) (symbols : SymbolTable) (v : Variable) : Prop where
  declared : symbols.find? v.name = some v
  allowed : m.allowed.allows v.category = true

/-- `Written symbols m leading words line`: behind the mnemonic the words complete the line.
`leading` tells whether an inversion stands before the mnemonic. -/
inductive Written (symbols : SymbolTable) (m : Mnemonic) : Bool → List Token → Line → Prop
  | alone : m.requiresArgument = false → Written symbols m false [.char ';'] ⟨m, none, false⟩
  | argument {leading : Bool} {v : Variable} : m.Takes symbols v →
      Written symbols m leading [.ident v.name, .char ';'] ⟨m, some v, leading⟩
  | inverted {v : Variable} : m.Takes symbols v →
      Written symbols m false [.char '!', .ident v.name, .char ';'] ⟨m, some v, true⟩

/-- `Lists symbols words l`: with the variables of the table declared before, the words are the
sections and lines of the listing. -/
inductive Lists : SymbolTable → List Token → Listing → Prop
  | finished {symbols symbols' : SymbolTable} {words : List Token} :
      Sections symbols words symbols' → Lists symbols words ⟨symbols', []⟩
  | line {symbols between : SymbolTable} {heading words rest : List Token} {name : String}
      {m : Mnemonic} {line : Line} {l : Listing} :
      Sections symbols heading between → Mnemonic.ofName? name = some m →
      Written between m false words line → Lists between rest l →
      Lists symbols (heading ++ .ident name :: (words ++ rest)) (l.cons line)
  | leading {symbols : SymbolTable} {words rest : List Token} {name : String} {m : Mnemonic}
      {line : Line} {l : Listing} :
      Mnemonic.ofName? name = some m → Written symbols m true words line →
      Lists symbols rest l →
      Lists symbols (.char '!' :: .ident name :: (words ++ rest)) (l.cons line)

/-- No mnemonic is a word that begins a section. -/
theorem sectionOf?_of_ofName? {name : String} {m : Mnemonic} (h : Mnemonic.ofName? name = some m) :
    sectionOf? name = none := by
  have same : m.name.toList.map Char.toLower = name.toList.map Char.toLower := by
    simpa [sameWord] using List.find?_some h
  simp only [sectionOf?, sameWord, ← same]
  cases m <;> rfl

section

variable {ending : Ending} {symbols : SymbolTable} {m : Mnemonic} {place : Span} {inverted : Bool}
  {t : Located Token} {ts : Tokens}

theorem readArgument_eq_some {v : Variable} :
    readArgument symbols m place inverted t = .ok (some v) ↔
      t.value = .ident v.name ∧ m.Takes symbols v := by
  unfold readArgument
  constructor
  · intro h
    split at h
    · rename_i name here
      split at h
      · cases h
      · rename_i w found
        split at h
        · rename_i allowed
          cases h
          have declared := SymbolTable.lookup_eq_ok.1 found
          obtain ⟨-, rfl⟩ := SymbolTable.mem_of_find? declared
          exact ⟨here, declared, allowed⟩
        · cases h
    · split at h
      · cases h
      · split at h <;> cases h
  · rintro ⟨here, takes⟩
    simp only [here, SymbolTable.lookup_eq_ok.2 takes.declared, takes.allowed, if_true]

theorem readArgument_eq_none :
    readArgument symbols m place inverted t = .ok none ↔
      (∀ name, t.value ≠ .ident name) ∧ m.requiresArgument = false ∧ inverted = false := by
  unfold readArgument
  split
  · rename_i name here
    constructor
    · intro h
      split at h
      · cases h
      · split at h <;> cases h
    · rintro ⟨other, -⟩
      exact absurd here (other name)
  · rename_i other
    rw [and_iff_right other]
    cases m.requiresArgument <;> cases inverted <;> simp

/-- Behind a mnemonic and the inversions a line is an argument and a semicolon, or the semicolon
alone if there was no inversion. -/
theorem readLineEnd_eq_ok {r : Read Line (t :: ts)} :
    readLineEnd ending symbols m place inverted t ts = .ok r ↔
      (∃ v, m.Takes symbols v ∧ Spells (t :: ts) [.ident v.name, .char ';'] r.rest ∧
          r.value = ⟨m, some v, inverted⟩) ∨
        m.requiresArgument = false ∧ inverted = false ∧ Spells (t :: ts) [.char ';'] r.rest ∧
          r.value = ⟨m, none, false⟩ := by
  rcases r with ⟨line, rest, shorter⟩
  unfold readLineEnd
  rw [bind_eq_ok]
  constructor
  · rintro ⟨_ | v, argument, h⟩
    · obtain ⟨close, closed, h⟩ := bind_eq_ok.1 h
      obtain ⟨-, free, rfl⟩ := readArgument_eq_none.1 argument
      cases h
      exact .inr ⟨free, rfl, readChar_eq_ok.1 closed, rfl⟩
    · obtain ⟨close, closed, h⟩ := bind_eq_ok.1 h
      obtain ⟨here, takes⟩ := readArgument_eq_some.1 argument
      cases h
      exact .inl ⟨v, takes, .cons here (readChar_eq_ok.1 closed), rfl⟩
  · rintro (⟨v, takes, spelled, rfl⟩ | ⟨free, rfl, spelled, rfl⟩)
    · obtain ⟨_, _, same, here, closed⟩ := spelled.of_cons
      obtain ⟨rfl, rfl⟩ := List.cons.inj same
      exact ⟨some v, readArgument_eq_some.2 ⟨here, takes⟩,
        bind_eq_ok.2 ⟨⟨(), rest, closed.shorter⟩, readChar_eq_ok.2 closed, rfl⟩⟩
    · obtain ⟨_, same, here⟩ := Spells.singleton_iff.1 spelled
      obtain ⟨rfl, -⟩ := List.cons.inj same
      refine ⟨none, readArgument_eq_none.2 ⟨fun name other => ?_, free, rfl⟩,
        bind_eq_ok.2 ⟨⟨(), rest, spelled.shorter⟩, readChar_eq_ok.2 spelled, rfl⟩⟩
      rw [here] at other
      cases other

theorem Written.shorter {leading : Bool} {words : List Token} {line : Line} {rest : Tokens}
    (h : Written symbols m leading words line) (spelled : Spells ts words rest) :
    rest.length < ts.length := by
  cases h <;> exact spelled.shorter

/-- What is read as a line is a mnemonic and the words that complete it. -/
theorem readLine_eq_ok {name : Located String} {leading : Bool} {r : Read Line ts} :
    readLine ending symbols name leading ts = .ok r ↔
      ∃ m words, Mnemonic.ofName? name.value = some m ∧ Written symbols m leading words r.value ∧
        Spells ts words r.rest := by
  rcases r with ⟨line, rest, shorter⟩
  unfold readLine
  constructor
  · intro h
    split at h
    · cases h
    · rename_i m named
      split at h
      · cases h
      · rename_i t ts
        split at h
        · rename_i sign
          split at h
          · cases h
          · rename_i trailing
            split at h
            · cases h
            · rename_i u ts
              obtain ⟨end_, read, h⟩ := bind_eq_ok.1 h
              cases h
              rcases readLineEnd_eq_ok.1 read with ⟨v, takes, spelled, value⟩ | ⟨-, bare, -⟩
              · rw [value, Bool.eq_false_iff.2 trailing]
                exact ⟨m, _, named, .inverted takes, .cons sign spelled⟩
              · cases bare
        · rcases readLineEnd_eq_ok.1 h with ⟨v, takes, spelled, value⟩ |
            ⟨free, rfl, spelled, value⟩
          · rw [value]
            exact ⟨m, _, named, .argument takes, spelled⟩
          · rw [value]
            exact ⟨m, _, named, .alone free, spelled⟩
  · rintro ⟨m, words, named, written, spelled⟩
    change Spells ts words rest at spelled
    simp only [named]
    cases written with
    | alone free =>
        obtain ⟨t, rfl, here⟩ := Spells.singleton_iff.1 spelled
        simp only [here, Token.char.injEq, Char.reduceEq, if_false]
        exact readLineEnd_eq_ok.2 (.inr ⟨free, rfl, .cons here (.nil rest), rfl⟩)
    | argument takes =>
        obtain ⟨t, tail, rfl, here, closed⟩ := spelled.of_cons
        simp only [here, reduceCtorEq, if_false]
        exact readLineEnd_eq_ok.2 (.inl ⟨_, takes, .cons here closed, rfl⟩)
    | inverted takes =>
        obtain ⟨t, tail, rfl, here, behind⟩ := spelled.of_cons
        obtain ⟨u, tail, rfl, there, closed⟩ := behind.of_cons
        simp only [here, if_true, Bool.false_eq_true, if_false]
        have less := (Spells.cons there closed).shorter
        exact bind_eq_ok.2 ⟨⟨_, rest, less⟩,
          readLineEnd_eq_ok.2 (.inl ⟨_, takes, .cons there closed, rfl⟩), rfl⟩

end

/-- What is read as a listing is sections and lines, up to the end of a text without errors. -/
theorem lists_of_readListing {ending : Ending} {symbols : SymbolTable} {ts : Tokens} {l : Listing}
    (read : readListing ending symbols ts = .ok l) :
    ∃ words, Lists symbols words l ∧ Spells ts words [] ∧ ∃ last, ending = .finished last := by
  fun_induction readListing ending symbols ts generalizing l with
  | case1 symbols span rest =>
    rename_i ih
    obtain ⟨name, named, read⟩ := bind_eq_ok.1 read
    obtain ⟨line, first, read⟩ := bind_eq_ok.1 read
    obtain ⟨l, others, read⟩ := bind_eq_ok.1 read
    obtain ⟨m, words, mnemonic, written, spelled⟩ := readLine_eq_ok.1 first
    obtain ⟨words', lists, spelled', last⟩ := ih name line others
    cases read
    have here := (Spells.head (readName_eq_ok.1 named)).append (spelled.append spelled')
    exact ⟨_, .leading mnemonic written lists, .cons rfl here, last⟩
  | case2 symbols ts other =>
    rename_i ih
    obtain ⟨symbols' | ⟨symbols', name⟩, heading, read⟩ := bind_eq_ok.1 read
    · obtain ⟨⟨words, sections, spelled⟩, last⟩ := readHeading_eq_finished.1 heading
      cases read
      exact ⟨words, .finished sections, spelled, last⟩
    · obtain ⟨line, first, read⟩ := bind_eq_ok.1 read
      obtain ⟨l, others, read⟩ := bind_eq_ok.1 read
      obtain ⟨words, sections, before, -⟩ := readHeading_eq_statement.1 heading
      obtain ⟨m, words', mnemonic, written, spelled⟩ := readLine_eq_ok.1 first
      obtain ⟨words'', lists, spelled', last⟩ := ih symbols' name line others
      cases read
      exact ⟨_, .line sections mnemonic written lists,
        before.append (.cons rfl (spelled.append spelled')), last⟩

/-- Where a heading can be read, no inversion begins the next line. -/
theorem readListing_of_readHeading {ending : Ending} {symbols : SymbolTable} {ts : Tokens}
    {heading : Heading ts} : readHeading ending symbols ts = .ok heading →
    readListing ending symbols ts =
      match heading with
      | .finished symbols => .ok ⟨symbols, []⟩
      | .statement symbols name => do
        let line ← readLine ending symbols name.value false name.rest
        let l ← readListing ending symbols line.rest
        return l.cons line.value := by
  intro read
  rw [readListing.eq_def]
  split
  · rw [readHeading] at read
    cases read
  · rw [read]
    cases heading <;> rfl

theorem Lists.read {symbols : SymbolTable} {words : List Token} {l : Listing}
    (h : Lists symbols words l) (last : Span) {ts : Tokens} (spelled : Spells ts words []) :
    readListing (.finished last) symbols ts = .ok l := by
  induction h generalizing ts with
  | finished sections =>
      rw [readListing_of_readHeading (sections.read_finished last spelled)]
  | line sections mnemonic written _ ih =>
      obtain ⟨_, before, behind⟩ := spelled.of_append
      obtain ⟨⟨_, span⟩, tail, rfl, rfl, completed⟩ := behind.of_cons
      obtain ⟨rest, here, others⟩ := completed.of_append
      obtain ⟨shorter, heading⟩ :=
        sections.read_statement (.finished last) before (sectionOf?_of_ofName? mnemonic)
      rw [readListing_of_readHeading heading]
      have first : readLine (.finished last) _ ⟨_, span⟩ _ tail =
          .ok ⟨_, rest, written.shorter here⟩ :=
        readLine_eq_ok.2 ⟨_, _, mnemonic, written, here⟩
      exact bind_eq_ok.2 ⟨_, first, bind_eq_ok.2 ⟨_, ih others, rfl⟩⟩
  | leading mnemonic written _ ih =>
      obtain ⟨⟨_, span⟩, tail, rfl, rfl, named⟩ := spelled.of_cons
      obtain ⟨⟨_, span'⟩, tail, rfl, rfl, completed⟩ := named.of_cons
      obtain ⟨rest, here, others⟩ := completed.of_append
      have first : readLine (.finished last) _ ⟨_, span'⟩ _ tail =
          .ok ⟨_, rest, written.shorter here⟩ :=
        readLine_eq_ok.2 ⟨_, _, mnemonic, written, here⟩
      rw [readListing]
      exact bind_eq_ok.2 ⟨⟨⟨_, span'⟩, tail, Nat.lt_succ_self _⟩, readName_eq_ok.2 rfl,
        bind_eq_ok.2 ⟨_, first, bind_eq_ok.2 ⟨_, ih others, rfl⟩⟩⟩

/-- A listing is read from a text without errors just if it is written there. -/
theorem readListing_eq_ok_iff {ending : Ending} {symbols : SymbolTable} {ts : Tokens}
    {l : Listing} :
    readListing ending symbols ts = .ok l ↔
      Lists symbols (ts.map Located.value) l ∧ ∃ last, ending = .finished last := by
  constructor
  · intro read
    obtain ⟨words, lists, ⟨front, rfl, rfl⟩, last⟩ := lists_of_readListing read
    rw [List.append_nil]
    exact ⟨lists, last⟩
  · rintro ⟨lists, last, rfl⟩
    exact lists.read last ⟨ts, (List.append_nil ts).symm, rfl⟩

theorem Source.listing_eq_ok {s : Source} {l : Listing} :
    s.listing = .ok l ↔ ∃ words, s.HasWords words ∧ Lists .empty words l := by
  rw [Source.listing, Tape.listing, readListing_eq_ok_iff]
  constructor
  · rintro ⟨lists, finished⟩
    exact ⟨_, ⟨rfl, finished⟩, lists⟩
  · rintro ⟨_, ⟨rfl, finished⟩, lists⟩
    exact ⟨lists, finished⟩

end RelayLogic
