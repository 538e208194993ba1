import RelayLogic.Proofs.Reading
import RelayLogic.Grammar.Declarations

/-! Declarations as they are written. A variable is written as its name and its index with a sign
between them, and a monoflop may have its duration behind the name. The readers of declarations
accept just the sections of such declarations. -/
namespace RelayLogic

/-- `Declaration category v words`: the variable `v` of a category is declared by these words. -/
inductive Declaration : Category → Variable → List Token → Prop
  | plain {category : Category} {name digits : String} {index : UInt64} :
      index.toNat < indexLimit →
      Declaration category (.plain name category index.toNat)
        [.ident name, .assignment .assign, .integer index digits]
  | timed {name digits digits' : String} {amount index : UInt64} {unit : Token} {time : Nat} :
      timeOf? amount.toNat unit = some time → time ≤ maxTime → index.toNat < indexLimit →
      Declaration .monoflop ((Variable.plain name .monoflop index.toNat).withTime time)
        [.ident name, .char '(', .integer amount digits, unit, .char ')', .assignment .assign,
          .integer index digits']

/-- `Declarations category symbols words symbols'`: the words are declarations with commas between
them and a semicolon at the end, and their variables turn the first table into the second. -/
inductive Declarations (category : Category) : SymbolTable → List Token → SymbolTable → Prop
  | last {symbols symbols' : SymbolTable} {v : Variable} {words : List Token} :
      Declaration category v words → symbols.declare v = .ok symbols' →
      Declarations category symbols (words ++ [.char ';']) symbols'
  | more {symbols between symbols' : SymbolTable} {v : Variable} {words rest : List Token} :
      Declaration category v words → symbols.declare v = .ok between →
      Declarations category between rest symbols' →
      Declarations category symbols (words ++ .char ',' :: rest) symbols'

/-- `Sections symbols words symbols'`: the words are sections, and their variables turn the first
table into the second. -/
inductive Sections : SymbolTable → List Token → SymbolTable → Prop
  | nil (symbols : SymbolTable) : Sections symbols [] symbols
  | cons {symbols between symbols' : SymbolTable} {name : String} {category : Category}
      {words rest : List Token} :
      sectionOf? name = some category → Declarations category symbols words between →
      Sections between rest symbols' →
      Sections symbols (.ident name :: .char ':' :: (words ++ rest)) symbols'

theorem Declaration.single {category : Category} {v : Variable} {words : List Token}
    (h : Declaration category v words) : .char ';' ∉ words := by
  cases h with
  | plain => simp
  | timed known =>
      intro inside
      simp only [List.mem_cons, reduceCtorEq, Token.char.injEq, Char.reduceEq, List.not_mem_nil,
        or_false, false_or] at inside
      rw [← inside] at known
      cases known

/-- The semicolon of a section is at its end. -/
theorem Declarations.single {category : Category} {symbols symbols' : SymbolTable}
    {words : List Token}
    (h : Declarations category symbols words symbols') :
    ∃ front, words = front ++ [.char ';'] ∧ .char ';' ∉ front := by
  induction h with
  | last entry _ => exact ⟨_, rfl, entry.single⟩
  | @more _ _ _ _ words rest entry _ _ ih =>
      obtain ⟨front, rfl, single⟩ := ih
      refine ⟨words ++ .char ',' :: front, by simp, ?_⟩
      simp only [List.mem_append, List.mem_cons, Token.char.injEq, Char.reduceEq, false_or]
      rintro (inside | inside)
      · exact entry.single inside
      · exact single inside

/-- Sections end with a semicolon. -/
theorem Sections.last {symbols symbols' : SymbolTable} {words : List Token}
    (h : Sections symbols words symbols') : ∀ t ∈ words.getLast?, t = .char ';' := by
  have ended : words = [] ∨ ∃ front, words = front ++ [.char ';'] := by
    induction h with
    | nil => exact .inl rfl
    | cons _ entries _ ih =>
        obtain ⟨front, rfl, -⟩ := entries.single
        rcases ih with rfl | ⟨front', rfl⟩
        · exact .inr ⟨_ :: _ :: front, by rw [List.append_nil]; rfl⟩
        · exact .inr ⟨_ :: _ :: (front ++ [.char ';'] ++ front'), by rw [← List.append_assoc]; rfl⟩
  intro t final
  rcases ended with rfl | ⟨front, rfl⟩
  · cases final
  · rw [List.getLast?_concat] at final
    exact (Option.some.inj final).symm

theorem Declaration.named {category : Category} {v : Variable} {words : List Token}
    (h : Declaration category v words) : .ident v.name ∈ words := by
  cases h <;> exact List.mem_cons_self

theorem Declaration.category_eq {category : Category} {v : Variable} {words : List Token}
    (h : Declaration category v words) : v.category = category := by
  cases h <;> rfl

/-- A variable is declared somewhere among these words. -/
def Variable.WrittenIn (v : Variable) (words : List Token) : Prop :=
  ∃ own, own <:+: words ∧ Declaration v.category v own

theorem Variable.WrittenIn.of_infix {v : Variable} {words others : List Token}
    (h : v.WrittenIn words) (inside : words <:+: others) : v.WrittenIn others := by
  obtain ⟨own, there, entry⟩ := h
  exact ⟨own, there.trans inside, entry⟩

theorem Declaration.written {category : Category} {v : Variable} {words : List Token}
    (h : Declaration category v words) : v.WrittenIn words :=
  ⟨words, List.infix_rfl, h.category_eq.symm ▸ h⟩

theorem SymbolTable.mem_of_declare {symbols symbols' : SymbolTable} {v w : Variable}
    (declared : symbols.declare v = .ok symbols') (member : w ∈ symbols'.declared) :
    w ∈ symbols.declared ∨ w = v := by
  rwa [(SymbolTable.declare_eq_ok.1 declared).2, List.mem_append, List.mem_singleton] at member

theorem Declarations.written {category : Category} {symbols symbols' : SymbolTable}
    {words : List Token}
    (h : Declarations category symbols words symbols') :
    ∀ v ∈ symbols'.declared, v ∈ symbols.declared ∨ v.WrittenIn words := by
  induction h with
  | last entry declared =>
      intro v member
      rcases SymbolTable.mem_of_declare declared member with before | rfl
      · exact .inl before
      · exact .inr (entry.written.of_infix (List.prefix_append _ _).isInfix)
  | more entry declared _ ih =>
      intro v member
      rcases ih v member with before | later
      · rcases SymbolTable.mem_of_declare declared before with before | rfl
        · exact .inl before
        · exact .inr (entry.written.of_infix (List.prefix_append _ _).isInfix)
      · exact .inr (later.of_infix ((List.suffix_cons _ _).trans (List.suffix_append _ _)).isInfix)

/-- The variables that sections declare are written in them. -/
theorem Sections.written {symbols symbols' : SymbolTable} {words : List Token}
    (h : Sections symbols words symbols') :
    ∀ v ∈ symbols'.declared, v ∈ symbols.declared ∨ v.WrittenIn words := by
  induction h with
  | nil => exact fun v => .inl
  | @cons _ _ _ name _ words rest _ entries _ ih =>
      intro v member
      have behind : words ++ rest <:+: .ident name :: .char ':' :: (words ++ rest) :=
        ((List.suffix_cons _ _).trans (List.suffix_cons _ _)).isInfix
      rcases ih v member with before | later
      · rcases entries.written v before with before | here
        · exact .inl before
        · exact .inr (here.of_infix ((List.prefix_append words rest).isInfix.trans behind))
      · exact .inr (later.of_infix ((List.suffix_append words rest).isInfix.trans behind))

theorem Sections.named {symbols symbols' : SymbolTable} {words : List Token}
    (h : Sections symbols words symbols') :
    ∀ v ∈ symbols'.declared, v ∈ symbols.declared ∨ .ident v.name ∈ words := by
  intro v member
  refine (h.written v member).imp id ?_
  rintro ⟨own, inside, entry⟩
  exact inside.subset entry.named

theorem Declarations.grows {category : Category} {symbols symbols' : SymbolTable}
    {words : List Token}
    (h : Declarations category symbols words symbols') :
    symbols.declared <+: symbols'.declared := by
  induction h with
  | last _ declared =>
      rw [(SymbolTable.declare_eq_ok.1 declared).2]
      exact List.prefix_append _ _
  | more _ declared _ ih =>
      rw [(SymbolTable.declare_eq_ok.1 declared).2] at ih
      exact (List.prefix_append _ _).trans ih

theorem Sections.grows {symbols symbols' : SymbolTable} {words : List Token}
    (h : Sections symbols words symbols') : symbols.declared <+: symbols'.declared := by
  induction h with
  | nil => exact List.prefix_rfl
  | cons _ entries _ ih => exact entries.grows.trans ih

section

variable {ending : Ending} {ts : Tokens}

theorem readDuration_eq_ok {name : Located String} {r : Read Nat ts} :
    readDuration ending name ts = .ok r ↔
      ∃ amount digits unit, timeOf? (UInt64.toNat amount) unit = some r.value ∧
        r.value ≤ maxTime ∧ Spells ts [.integer amount digits, unit] r.rest := by
  rcases r with ⟨time, rest, shorter⟩
  simp only [readDuration, bind_eq_ok]
  constructor
  · rintro ⟨amount, read, unit, taken, h⟩
    obtain ⟨digits, number⟩ := readInteger_eq_ok.1 read
    split at h
    · cases h
    · rename_i time known
      split at h
      · cases h
      · rename_i short
        cases h
        exact ⟨amount.value.value, digits, unit.value.value, known, Nat.le_of_not_lt short,
          (Spells.head number).append (.head (readToken_eq_ok.1 taken))⟩
  · rintro ⟨amount, digits, unit, known, short, spelled⟩
    obtain ⟨t, tail, rfl, here, spelled⟩ := spelled.of_cons
    obtain ⟨u, rfl, there⟩ := Spells.singleton_iff.1 spelled
    refine ⟨⟨⟨amount, t.span⟩, _, Nat.lt_succ_self _⟩, readInteger_eq_ok.2 ⟨digits, ?_⟩,
      ⟨u, rest, Nat.lt_succ_self _⟩, rfl, ?_⟩
    · rw [← here]
    · simp only [there, known, if_neg (Nat.not_lt.2 short)]
      rfl

/-- A sign stands alone, or behind the duration of a monoflop. -/
theorem readSign_eq_ok {category : Category} {name : Located String} {r : Read (Option Nat) ts} :
    readSign ending category name ts = .ok r ↔
      match r.value with
      | none => Spells ts [.assignment .assign] r.rest
      | some time => category = .monoflop ∧
        ∃ amount digits unit, timeOf? (UInt64.toNat amount) unit = some time ∧ time ≤ maxTime ∧
          Spells ts [.char '(', .integer amount digits, unit, .char ')', .assignment .assign]
            r.rest := by
  rcases r with ⟨time, rest, shorter⟩
  simp only [readSign, bind_eq_ok]
  constructor
  · rintro ⟨t, taken, h⟩
    have first := Spells.head (readToken_eq_ok.1 taken)
    split at h
    · rename_i opened
      split at h
      · cases h
      · rename_i monoflop
        obtain ⟨duration, read, h⟩ := bind_eq_ok.1 h
        obtain ⟨close, closed, h⟩ := bind_eq_ok.1 h
        obtain ⟨sign, signed, h⟩ := bind_eq_ok.1 h
        split at h
        · rename_i assigned
          obtain ⟨amount, digits, unit, known, short, between⟩ := readDuration_eq_ok.1 read
          cases h
          rw [opened] at first
          have last := Spells.head (readToken_eq_ok.1 signed)
          rw [assigned] at last
          exact ⟨Decidable.not_not.1 monoflop, amount, digits, unit, known, short,
            first.append (between.append ((readChar_eq_ok.1 closed).append last))⟩
        · cases h
    · rename_i assigned
      cases h
      rw [assigned] at first
      exact first
    · cases h
  · cases time with
    | none =>
        intro spelled
        obtain ⟨t, rfl, here⟩ := Spells.singleton_iff.1 spelled
        refine ⟨⟨t, rest, shorter⟩, rfl, ?_⟩
        simp only [here]
        rfl
    | some time =>
        rintro ⟨rfl, amount, digits, unit, known, short, spelled⟩
        obtain ⟨t, tail, rfl, opened, spelled⟩ := spelled.of_cons
        obtain ⟨behind, between, spelled⟩ :=
          (show Spells tail ([.integer amount digits, unit] ++ [.char ')', .assignment .assign]) rest
            from spelled).of_append
        obtain ⟨last, closed, signed⟩ := spelled.uncons
        obtain ⟨sign, rfl, assigned⟩ := Spells.singleton_iff.1 signed
        refine ⟨⟨t, tail, Nat.lt_succ_self _⟩, rfl, ?_⟩
        simp only [opened, ne_eq, not_true_eq_false, if_false, bind_eq_ok]
        refine ⟨⟨time, behind, between.shorter⟩, readDuration_eq_ok.2 ⟨amount, digits, unit, known,
          short, between⟩, ⟨(), sign :: rest, closed.shorter⟩, readChar_eq_ok.2 closed,
          ⟨sign, rest, Nat.lt_succ_self _⟩, rfl, ?_⟩
        rw [if_pos assigned]
        rfl

/-- A name and a sign that can be read, and an index behind them, make a variable. -/
theorem readVariable_of_sign {category : Category} {symbols symbols' : SymbolTable}
    {name digits : String} {span span' : Span} {index : UInt64} {tail rest : Tokens}
    {sign : Read (Option Nat) tail} {v : Variable}
    (signed : readSign ending category ⟨name, span⟩ tail = .ok sign)
    (number : sign.rest = ⟨.integer index digits, span'⟩ :: rest)
    (low : index.toNat < indexLimit)
    (made : (match sign.value with
      | some time => (Variable.plain name category index.toNat).withTime time
      | none => .plain name category index.toNat) = v)
    (declared : symbols.declare v = .ok symbols') :
    ∃ shorter, readVariable ending category symbols (⟨.ident name, span⟩ :: tail) =
      .ok ⟨symbols', rest, shorter⟩ := by
  have fresh : ¬symbols.contains name = true := by
    have named : v.name = name := by
      rw [← made]
      cases sign.value <;> rfl
    rw [SymbolTable.contains_iff, ← named]
    exact (SymbolTable.declare_eq_ok.1 declared).1
  have less : rest.length < sign.rest.length := by
    rw [number]
    exact Nat.lt_succ_self _
  refine ⟨Nat.lt_succ_of_lt (Nat.lt_trans less sign.shorter), ?_⟩
  simp only [readVariable, bind_eq_ok]
  refine ⟨⟨⟨name, span⟩, tail, Nat.lt_succ_self _⟩, readName_eq_ok.2 rfl, ?_⟩
  rw [if_neg fresh]
  refine bind_eq_ok.2 ⟨sign, signed, bind_eq_ok.2 ⟨⟨⟨index, span'⟩, rest, less⟩,
    readInteger_eq_ok.2 ⟨digits, number⟩, ?_⟩⟩
  rw [if_neg (Nat.not_le.2 low)]
  rw [← made] at declared
  cases timed : sign.value with
  | none | some time =>
      simp only [timed] at declared ⊢
      simp only [declared]
      rfl

/-- What is read as a variable is a declaration whose name is new. -/
theorem readVariable_eq_ok {category : Category} {symbols : SymbolTable} {r : Read SymbolTable ts} :
    readVariable ending category symbols ts = .ok r ↔
      ∃ v words, Declaration category v words ∧ symbols.declare v = .ok r.value ∧
        Spells ts words r.rest := by
  rcases r with ⟨symbols', rest, shorter⟩
  simp only [readVariable, bind_eq_ok]
  constructor
  · rintro ⟨name, named, h⟩
    split at h
    · cases h
    · obtain ⟨sign, signed, h⟩ := bind_eq_ok.1 h
      obtain ⟨index, numbered, h⟩ := bind_eq_ok.1 h
      split at h
      · cases h
      · rename_i low
        obtain ⟨digits, number⟩ := readInteger_eq_ok.1 numbered
        have low := Nat.not_le.1 low
        have first := Spells.head (readName_eq_ok.1 named)
        have between := readSign_eq_ok.1 signed
        have last := Spells.head number
        split at h
        · cases h
        · rename_i symbols' declared
          cases h
          split at declared
          · rename_i time timed
            simp only [timed] at between
            obtain ⟨rfl, amount, digits', unit, known, short, between⟩ := between
            exact ⟨_, _, .timed known short low, declared, first.append (between.append last)⟩
          · rename_i untimed
            simp only [untimed] at between
            exact ⟨_, _, .plain low, declared, first.append (between.append last)⟩
  · rintro ⟨v, words, entry, declared, spelled⟩
    cases entry with
    | @plain category name _ _ low =>
        obtain ⟨⟨_, span⟩, tail, rfl, rfl, behind⟩ := spelled.of_cons
        obtain ⟨next, signed, numbered⟩ := behind.uncons
        obtain ⟨⟨_, span'⟩, rfl, rfl⟩ := Spells.singleton_iff.1 numbered
        have sign : readSign ending category ⟨name, span⟩ tail = .ok ⟨none, _, signed.shorter⟩ :=
          readSign_eq_ok.2 signed
        obtain ⟨_, read⟩ := readVariable_of_sign sign rfl low rfl declared
        exact bind_eq_ok.1 read
    | @timed name digits digits' amount index unit time known short low =>
        obtain ⟨⟨_, span⟩, tail, rfl, rfl, behind⟩ := spelled.of_cons
        obtain ⟨next, signed, numbered⟩ :=
          (show Spells tail ([.char '(', .integer amount digits, unit, .char ')',
            .assignment .assign] ++ [.integer index digits']) rest from behind).of_append
        obtain ⟨⟨_, span'⟩, rfl, rfl⟩ := Spells.singleton_iff.1 numbered
        have sign : readSign ending .monoflop ⟨name, span⟩ tail =
            .ok ⟨some time, _, signed.shorter⟩ :=
          readSign_eq_ok.2 ⟨rfl, amount, digits, unit, known, short, signed⟩
        obtain ⟨_, read⟩ := readVariable_of_sign sign rfl low rfl declared
        exact bind_eq_ok.1 read

/-- What is read as the variables of a section is declarations up to a semicolon. -/
theorem declarations_of_readVariables {category : Category} {symbols : SymbolTable} {ts : Tokens}
    {r : Read SymbolTable ts} (read : readVariables ending category symbols ts = .ok r) :
    ∃ words, Declarations category symbols words r.value ∧ Spells ts words r.rest := by
  rw [readVariables] at read
  obtain ⟨v, first, read⟩ := bind_eq_ok.1 read
  obtain ⟨t, taken, read⟩ := bind_eq_ok.1 read
  obtain ⟨_, words, entry, declared, spelled⟩ := readVariable_eq_ok.1 first
  have sign := Spells.head (readToken_eq_ok.1 taken)
  split at read
  · rename_i here
    obtain ⟨more, later, read⟩ := bind_eq_ok.1 read
    have less : t.rest.length < ts.length := Nat.lt_trans t.shorter v.shorter
    obtain ⟨words', entries, spelled'⟩ := declarations_of_readVariables later
    cases read
    rw [here] at sign
    exact ⟨_, .more entry declared entries, spelled.append (sign.append spelled')⟩
  · rename_i here
    cases read
    rw [here] at sign
    exact ⟨_, .last entry declared, spelled.append sign⟩
  · cases read
termination_by ts.length

theorem Declaration.shorter {category : Category} {v : Variable} {words : List Token}
    {rest : Tokens} (h : Declaration category v words) (spelled : Spells ts words rest) :
    rest.length < ts.length := by
  cases h <;> exact spelled.shorter

/-- Behind a declaration and a comma, the variables of a section are read on. -/
theorem readVariables_of_comma {category : Category} {symbols between : SymbolTable} {v : Variable}
    {words : List Token} {t : Located Token} {tail : Tokens} (ending : Ending)
    (entry : Declaration category v words) (declared : symbols.declare v = .ok between)
    (written : Spells ts words (t :: tail)) (comma : t.value = .char ',') :
    readVariables ending category symbols ts =
      (readVariables ending category between tail).map fun r =>
        ⟨r.value, r.rest, Nat.lt_trans (Nat.lt_succ_of_lt r.shorter) (entry.shorter written)⟩ := by
  have first : readVariable ending category symbols ts =
      .ok ⟨between, t :: tail, entry.shorter written⟩ :=
    readVariable_eq_ok.2 ⟨v, words, entry, declared, written⟩
  rw [readVariables, first]
  simp only [bind, Except.bind, readToken, comma]
  cases readVariables ending category between tail <;> rfl

theorem Declarations.read {category : Category} {symbols symbols' : SymbolTable}
    {words : List Token}
    (h : Declarations category symbols words symbols') (ending : Ending) {ts rest : Tokens}
    (spelled : Spells ts words rest) :
    ∃ shorter, readVariables ending category symbols ts = .ok ⟨symbols', rest, shorter⟩ := by
  induction h generalizing ts with
  | last entry declared =>
      obtain ⟨next, written, closed⟩ := spelled.of_append
      obtain ⟨t, rfl, here⟩ := Spells.singleton_iff.1 closed
      have less := entry.shorter written
      refine ⟨Nat.lt_trans closed.shorter less, ?_⟩
      rw [readVariables]
      refine bind_eq_ok.2 ⟨⟨_, _, less⟩, readVariable_eq_ok.2 ⟨_, _, entry, declared, written⟩,
        bind_eq_ok.2 ⟨⟨t, rest, closed.shorter⟩, rfl, ?_⟩⟩
      simp only [here]
      rfl
  | more entry declared _ ih =>
      obtain ⟨next, written, behind⟩ := spelled.of_append
      obtain ⟨t, tail, rfl, here, others⟩ := behind.of_cons
      obtain ⟨less, read⟩ := ih others
      refine ⟨Nat.lt_trans (Nat.lt_succ_of_lt less) (entry.shorter written), ?_⟩
      rw [readVariables_of_comma ending entry declared written here, read]
      rfl

/-- A section is a colon and declarations behind the word that begins it. -/
theorem readSection_eq_ok {category : Category} {symbols : SymbolTable} {r : Read SymbolTable ts} :
    readSection ending category symbols ts = .ok r ↔
      ∃ words,
        Declarations category symbols words r.value ∧ Spells ts (.char ':' :: words) r.rest := by
  rcases r with ⟨symbols', rest, shorter⟩
  simp only [readSection, bind_eq_ok]
  constructor
  · rintro ⟨colon, opened, block, read, h⟩
    obtain ⟨words, entries, spelled⟩ := declarations_of_readVariables read
    cases h
    exact ⟨words, entries, (readChar_eq_ok.1 opened).append spelled⟩
  · rintro ⟨words, entries, spelled⟩
    obtain ⟨tail, opened, behind⟩ := spelled.uncons
    obtain ⟨less, read⟩ := entries.read ending behind
    exact ⟨⟨(), tail, opened.shorter⟩, readChar_eq_ok.2 opened, ⟨symbols', rest, less⟩, read, rfl⟩

end

/-- The variables declared where a heading ends. -/
def Heading.symbols {ts : Tokens} : Heading ts → SymbolTable
  | .finished symbols => symbols
  | .statement symbols _ => symbols

/-- Where a heading ends: there is nothing left of a text without an error, or a name comes next
that is no word of a section. -/
def Heading.Ends {ts : Tokens} (ending : Ending) (rest : Tokens) : Heading ts → Prop
  | .finished _ => rest = [] ∧ ∃ last, ending = .finished last
  | .statement _ name =>
    rest = ⟨.ident name.value.value, name.value.span⟩ :: name.rest ∧
      sectionOf? name.value.value = none

/-- What is read as a heading is sections. -/
theorem sections_of_readHeading {ending : Ending} {symbols : SymbolTable} {ts : Tokens}
    {heading : Heading ts} (read : readHeading ending symbols ts = .ok heading) :
    ∃ words rest, Sections symbols words heading.symbols ∧ Spells ts words rest ∧
      heading.Ends ending rest := by
  fun_induction readHeading ending symbols ts with
  | case1 symbols last =>
      cases read
      exact ⟨[], [], .nil symbols, .nil [], rfl, last, rfl⟩
  | case2 | case4 | case5 | case8 => cases read
  | case3 symbols t rest ending name here other =>
      cases read
      refine ⟨[], t :: rest, .nil symbols, .nil _, ?_, other⟩
      rw [← here]
  | case6 symbols t rest ending name here category word block declared last finished ih =>
      cases read
      obtain ⟨words, left, sections, spelled, ends⟩ := ih finished
      obtain ⟨words', entries, spelled'⟩ := readSection_eq_ok.1 declared
      exact ⟨_, left, .cons word entries sections, .cons here (spelled'.append spelled), ends⟩
  | case7 symbols t rest ending name here category word block declared last first statement ih =>
      cases read
      obtain ⟨words, left, sections, spelled, ends⟩ := ih statement
      obtain ⟨words', entries, spelled'⟩ := readSection_eq_ok.1 declared
      exact ⟨_, left, .cons word entries sections, .cons here (spelled'.append spelled), ends⟩

/-- The variables of a section are read up to what follows them. -/
theorem Declarations.read_section {category : Category} {symbols symbols' : SymbolTable}
    {words others : List Token} (h : Declarations category symbols words symbols')
    (ending : Ending) {ts rest : Tokens} (spelled : Spells ts (.char ':' :: (words ++ others)) rest) :
    ∃ next shorter, readSection ending category symbols ts = .ok ⟨symbols', next, shorter⟩ ∧
      Spells next others rest := by
  have joined : Spells ts ((.char ':' :: words) ++ others) rest := spelled
  obtain ⟨next, written, behind⟩ := joined.of_append
  exact ⟨next, written.shorter, readSection_eq_ok.2 ⟨words, h, written⟩, behind⟩

theorem Sections.read_finished {symbols symbols' : SymbolTable} {words : List Token}
    (h : Sections symbols words symbols') (last : Span) {ts : Tokens} (spelled : Spells ts words []) :
    readHeading (.finished last) symbols ts = .ok (.finished symbols') := by
  induction h generalizing ts with
  | nil symbols =>
      obtain rfl := spelled.of_nil
      rw [readHeading]
  | cons word entries _ ih =>
      obtain ⟨⟨_, span⟩, tail, rfl, rfl, behind⟩ := spelled.of_cons
      obtain ⟨next, _, block, others⟩ := entries.read_section (.finished last) behind
      rw [readHeading]
      simp only [word, block, ih others]

theorem Sections.read_statement {symbols symbols' : SymbolTable} {words : List Token}
    (h : Sections symbols words symbols') (ending : Ending) {name : String} {span : Span}
    {ts rest : Tokens} (spelled : Spells ts words (⟨.ident name, span⟩ :: rest))
    (other : sectionOf? name = none) :
    ∃ shorter, readHeading ending symbols ts =
      .ok (.statement symbols' ⟨⟨name, span⟩, rest, shorter⟩) := by
  induction h generalizing ts with
  | nil symbols =>
      obtain rfl := spelled.of_nil
      refine ⟨Nat.lt_succ_self _, ?_⟩
      rw [readHeading]
      simp only [other]
  | cons word entries _ ih =>
      obtain ⟨⟨_, span⟩, tail, rfl, rfl, behind⟩ := spelled.of_cons
      obtain ⟨next, less, block, others⟩ := entries.read_section ending behind
      obtain ⟨shorter, read⟩ := ih others
      refine ⟨Nat.lt_succ_of_lt (Nat.lt_trans shorter less), ?_⟩
      rw [readHeading]
      simp only [word, block, read]

/-- A text is a heading alone just if it is sections up to its end. -/
theorem readHeading_eq_finished {ending : Ending} {symbols symbols' : SymbolTable} {ts : Tokens} :
    readHeading ending symbols ts = .ok (.finished symbols') ↔
      (∃ words, Sections symbols words symbols' ∧ Spells ts words []) ∧
        ∃ last, ending = .finished last := by
  constructor
  · intro read
    obtain ⟨words, _, sections, spelled, rfl, last⟩ := sections_of_readHeading read
    exact ⟨⟨words, sections, spelled⟩, last⟩
  · rintro ⟨⟨words, sections, spelled⟩, last, rfl⟩
    exact sections.read_finished last spelled

/-- A statement follows a heading just if it is behind sections and begins with another name than
they do. -/
theorem readHeading_eq_statement {ending : Ending} {symbols symbols' : SymbolTable} {ts : Tokens}
    {name : Read (Located String) ts} :
    readHeading ending symbols ts = .ok (.statement symbols' name) ↔
      ∃ words, Sections symbols words symbols' ∧
        Spells ts words (⟨.ident name.value.value, name.value.span⟩ :: name.rest) ∧
        sectionOf? name.value.value = none := by
  constructor
  · intro read
    obtain ⟨words, _, sections, spelled, rfl, other⟩ := sections_of_readHeading read
    exact ⟨words, sections, spelled, other⟩
  · rintro ⟨words, sections, spelled, other⟩
    exact (sections.read_statement ending spelled other).2

end RelayLogic
