import Mathlib
import RelayLogic.Proofs.Numerals
import RelayLogic.Proofs.ReadingOn

/-! The numbers of declarations. What a declaration denotes is told by its digits alone, however
many there are. Number tokens have 64 bits, so wider numbers wrap before they are compared with any
bound: a declaration that is read declares the wrapped numbers, and one whose wrapped index or
duration is out of range is refused for it. Where all numbers fit their tokens, these are the
numbers that are denoted. -/
namespace RelayLogic

/-- `Lasts amount unit time`: so many seconds, minutes or hours last so many units of two seconds,
rounded down. -/
inductive Lasts (amount : Nat) : Token → Nat → Prop
  | seconds : Lasts amount (.ident "s") (amount / 2)
  | minutes : Lasts amount (.ident "min") (30 * amount)
  | hours : Lasts amount (.ident "h") (1800 * amount)

theorem timeOf?_eq_some_iff {amount : Nat} {unit : Token} {time : Nat} :
    timeOf? amount unit = some time ↔ Lasts amount unit time := by
  constructor
  · intro known
    unfold timeOf? at known
    split at known
    · split at known
      · rename_i second
        cases second
        cases known
        exact .seconds
      split at known
      · rename_i minute
        cases minute
        cases known
        exact Nat.mul_comm 30 amount ▸ .minutes
      split at known
      · rename_i hour
        cases hour
        cases known
        exact Nat.mul_comm 1800 amount ▸ .hours
      · cases known
    · cases known
  · rintro (_ | _ | _)
    · simp [timeOf?]
    · simp [timeOf?, Nat.mul_comm]
    · simp [timeOf?, Nat.mul_comm]

namespace Lasts

variable {amount time : Nat} {unit : Token}

/-- A unit is one for every amount. -/
theorem exists_of (h : Lasts amount unit time) (other : Nat) : ∃ time', Lasts other unit time' := by
  cases h with
  | seconds => exact ⟨_, .seconds⟩
  | minutes => exact ⟨_, .minutes⟩
  | hours => exact ⟨_, .hours⟩

theorem unique {time' : Nat} (h : Lasts amount unit time) (h' : Lasts amount unit time') :
    time = time' :=
  Option.some.inj ((timeOf?_eq_some_iff.2 h).symm.trans (timeOf?_eq_some_iff.2 h'))

theorem amount_le (h : Lasts amount unit time) : amount ≤ 2 * time + 1 := by
  cases h <;> omega

end Lasts

/-- The number that digits stand for. -/
def numberOf (digits : String) : Nat := numeral digits.toList

/-- What a number token keeps of the number that its digits stand for. -/
def wrappedNumberOf (digits : String) : Nat := numberOf digits % 2 ^ 64

/-- `Denotes number category v words`: the words declare the variable `v` of a category, whose numbers
are those that `number` makes of the digits. A variable without a duration has the time of its
category. -/
inductive Denotes (number : String → Nat) : Category → Variable → List Token → Prop
  | plain {category : Category} {name digits : String} {value : UInt64} :
      Denotes number category (.plain name category (number digits))
        [.ident name, .assignment .assign, .integer value digits]
  | timed {name digits digits' : String} {value value' : UInt64} {unit : Token} {time : Nat} :
      Lasts (number digits) unit time →
      Denotes number .monoflop ((Variable.plain name .monoflop (number digits')).withTime time)
        [.ident name, .char '(', .integer value digits, unit, .char ')', .assignment .assign,
          .integer value' digits']

/-- Whether a number is small enough to be the value of its token. -/
def Token.Narrow : Token → Prop
  | .integer _ digits => numberOf digits < 2 ^ 64
  | _ => True

theorem wrappedNumberOf_of_narrow {value : UInt64} {digits : String}
    (narrow : (Token.integer value digits).Narrow) : wrappedNumberOf digits = numberOf digits :=
  Nat.mod_eq_of_lt narrow

/-- Every declaration also denotes something if numbers wrap. The times differ only if the number of
a duration, which stands in the middle, is too wide. -/
theorem Denotes.exists_wrapped {category : Category} {v : Variable} {first last : Token}
    {middle : List Token} (h : Denotes numberOf category v (first :: (middle ++ [last]))) :
    ∃ w, Denotes wrappedNumberOf category w (first :: (middle ++ [last])) ∧ w.name = v.name ∧
      ((∀ t ∈ middle, t.Narrow) → w.time = v.time) ∧
      ((∀ t ∈ first :: (middle ++ [last]), t.Narrow) → w = v) := by
  generalize same : first :: (middle ++ [last]) = words at h
  cases h with
  | @plain _ name digits value =>
      refine ⟨_, .plain, rfl, fun _ => rfl, fun narrow => ?_⟩
      rw [wrappedNumberOf_of_narrow (narrow (.integer value digits) (by simp))]
  | @timed name digits digits' value value' unit time lasts =>
      obtain ⟨-, behind⟩ := List.cons.inj same
      obtain ⟨rfl, -⟩ := List.append_inj' (show _ = [_, _, _, _, _] ++ [_] from behind) rfl
      obtain ⟨time', lasts'⟩ := lasts.exists_of (wrappedNumberOf digits)
      have timeSame (narrow : (Token.integer value digits).Narrow) : time' = time := by
        rw [wrappedNumberOf_of_narrow narrow] at lasts'
        exact lasts'.unique lasts
      refine ⟨_, .timed lasts', rfl, fun narrow => ?_, fun narrow => ?_⟩
      · exact timeSame (narrow (.integer value digits) (by simp))
      · rw [timeSame (narrow (.integer value digits) (by simp)),
          wrappedNumberOf_of_narrow (narrow (.integer value' digits') (by simp))]

theorem Declaration.low {category : Category} {v : Variable} {words : List Token}
    (h : Declaration category v words) : v.index < indexLimit ∧ v.time ≤ maxTime := by
  cases h with
  | plain low =>
      refine ⟨low, ?_⟩
      simp only [Variable.plain]
      split <;> decide
  | timed _ short low => exact ⟨low, short⟩

/-- A declaration that is read declares what it denotes if numbers wrap. This is what it denotes just
if none of its numbers is too wide. -/
theorem Declaration.denotes {category : Category} {v : Variable} {words : List Token}
    (h : Declaration category v words) (honest : ∀ t ∈ words, t.Honest) :
    Denotes wrappedNumberOf category v words ∧
      ∃ w, Denotes numberOf category w words ∧ w.name = v.name ∧
        ((∀ t ∈ words, t.Narrow) ↔ w = v) := by
  cases h with
  | @plain _ name digits index low =>
      have value : index.toNat = wrappedNumberOf digits :=
        honest (.integer index digits) (by simp)
      have narrow : (∀ t ∈ [.ident name, .assignment .assign, .integer index digits],
          Token.Narrow t) ↔ numberOf digits < 2 ^ 64 := by
        simp [Token.Narrow]
      refine ⟨value ▸ .plain, _, .plain, rfl, ?_⟩
      rw [narrow]
      simp only [Variable.plain, Variable.mk.injEq, true_and, and_true]
      simp only [indexLimit] at low
      simp only [wrappedNumberOf] at value
      omega
  | @timed name digits digits' amount index unit time known short low =>
      have value : amount.toNat = wrappedNumberOf digits :=
        honest (.integer amount digits) (by simp)
      have value' : index.toNat = wrappedNumberOf digits' :=
        honest (.integer index digits') (by simp)
      have lasts := timeOf?_eq_some_iff.1 known
      rw [value] at lasts
      obtain ⟨time', denoted⟩ := lasts.exists_of (numberOf digits)
      have narrow : (∀ t ∈ [.ident name, .char '(', .integer amount digits, unit, .char ')',
          .assignment .assign, .integer index digits'], Token.Narrow t) ↔
          numberOf digits < 2 ^ 64 ∧ numberOf digits' < 2 ^ 64 := by
        cases lasts <;> simp [Token.Narrow]
      refine ⟨value' ▸ .timed lasts, _, .timed denoted, rfl, ?_⟩
      rw [narrow]
      simp only [Variable.plain, Variable.withTime, Variable.mk.injEq, true_and]
      simp only [indexLimit] at low
      simp only [maxTime] at short
      simp only [wrappedNumberOf] at value' lasts
      constructor
      · rintro ⟨small, small'⟩
        rw [Nat.mod_eq_of_lt small] at lasts
        exact ⟨by omega, denoted.unique lasts⟩
      · rintro ⟨same, rfl⟩
        have := denoted.amount_le
        omega

/-- `Overflows v name index e`: the error of a variable that is out of range. Its duration is
reported at its name, and its index only if the duration is in range. -/
inductive Overflows (v : Variable) (name index : Span) : Located ParseError → Prop
  | time : 65535 < v.time →
      Overflows v name index ((SemanticError.timeOverflow v.name).located name)
  | index : v.time ≤ 65535 → 2 ^ 32 ≤ v.index →
      Overflows v name index ((SemanticError.indexOverflow v.name).located index)

section

variable {ending : Ending} {category : Category} {symbols : SymbolTable} {name digits : String}
  {span span' : Span} {e : Located ParseError}

/-- A name and a sign that can be read, and an index behind them that is out of range. -/
theorem readVariable_of_wideIndex {tail rest : Tokens} {sign : Read (Option Nat) tail}
    {index : UInt64} (fresh : name ∉ symbols.names)
    (signed : readSign ending category ⟨name, span⟩ tail = .ok sign)
    (number : sign.rest = ⟨.integer index digits, span'⟩ :: rest)
    (high : indexLimit ≤ index.toNat) :
    readVariable ending category symbols (⟨.ident name, span⟩ :: tail) =
      .error ((SemanticError.indexOverflow name).located span') := by
  have new : ¬symbols.contains name = true := by rwa [SymbolTable.contains_iff]
  have less : rest.length < sign.rest.length := by
    rw [number]
    exact Nat.lt_succ_self _
  have read : readInteger ending .index sign.rest = .ok ⟨⟨index, span'⟩, rest, less⟩ :=
    readInteger_eq_ok.2 ⟨digits, number⟩
  simp only [readVariable, readName, readToken, Read.map, bind, Except.bind, pure, Except.pure,
    if_neg new, signed, read, ge_iff_le, if_pos high]
  rfl

/-- A name and a duration that is out of range. -/
theorem readVariable_of_longTime {amount : UInt64} {unit : Token} {time : Nat} {tail rest : Tokens}
    (fresh : name ∉ symbols.names) (known : timeOf? amount.toNat unit = some time)
    (spelled : Spells tail [.char '(', .integer amount digits, unit] rest) (long : maxTime < time) :
    readVariable ending .monoflop symbols (⟨.ident name, span⟩ :: tail) =
      .error ((SemanticError.timeOverflow name).located span) := by
  have new : ¬symbols.contains name = true := by rwa [SymbolTable.contains_iff]
  obtain ⟨⟨_, _⟩, _, rfl, rfl, duration⟩ := spelled.of_cons
  obtain ⟨⟨_, _⟩, _, rfl, rfl, ended⟩ := duration.of_cons
  obtain ⟨⟨_, _⟩, rfl, rfl⟩ := Spells.singleton_iff.1 ended
  simp only [readVariable, readSign, readDuration, readInteger, readName, readToken, Read.map, bind,
    Except.bind, pure, Except.pure, if_neg new, known, gt_iff_lt, if_pos long, ne_eq,
    not_true_eq_false, if_false]
  rfl

/-- A declaration that denotes something out of range if numbers wrap is refused for it, if its name
is new. -/
theorem Overflows.readVariable_eq_error {v : Variable} {first last : Located Token}
    {middle : Tokens} (overflows : Overflows v first.span last.span e)
    (denotes : Denotes wrappedNumberOf category v
      (first.value :: (middle.map Located.value ++ [last.value])))
    (honest : ∀ t ∈ first.value :: (middle.map Located.value ++ [last.value]), t.Honest)
    (fresh : v.name ∉ symbols.names) (rest : Tokens) :
    readVariable ending category symbols (first :: (middle ++ last :: rest)) = .error e := by
  generalize same : first.value :: (middle.map Located.value ++ [last.value]) = words
    at denotes honest
  rcases first with ⟨word, span⟩
  rcases last with ⟨number, span'⟩
  cases denotes with
  | @plain _ name digits value =>
      obtain ⟨rfl, behind⟩ := List.cons.inj same
      obtain ⟨between, ended⟩ := List.append_inj' (show _ = [_] ++ [_] from behind) rfl
      obtain ⟨rfl, -⟩ := List.cons.inj ended
      have exact : value.toNat = wrappedNumberOf digits := honest (.integer value digits) (by simp)
      have signed : Spells (middle ++ ⟨.integer value digits, span'⟩ :: rest)
          [.assignment .assign] _ := ⟨middle, rfl, between⟩
      have sign : readSign ending category ⟨name, span⟩ _ = .ok ⟨none, _, signed.shorter⟩ :=
        readSign_eq_ok.2 signed
      cases overflows with
      | time long =>
          simp only [Variable.plain] at long
          split at long <;> simp [Variable.defaultTime] at long
      | index _ high => exact readVariable_of_wideIndex fresh sign rfl (exact.symm ▸ high)
  | @timed name digits digits' value value' unit time lasts =>
      obtain ⟨rfl, behind⟩ := List.cons.inj same
      obtain ⟨between, ended⟩ := List.append_inj' (show _ = [_, _, _, _, _] ++ [_] from behind) rfl
      obtain ⟨rfl, -⟩ := List.cons.inj ended
      have exact : value.toNat = wrappedNumberOf digits := honest (.integer value digits) (by simp)
      have exact' : value'.toNat = wrappedNumberOf digits' :=
        honest (.integer value' digits') (by simp)
      have known : timeOf? value.toNat unit = some time := by
        rwa [exact, timeOf?_eq_some_iff]
      have signed : Spells (middle ++ ⟨.integer value' digits', span'⟩ :: rest)
          ([.char '(', .integer value digits, unit] ++ [.char ')', .assignment .assign]) _ :=
        ⟨middle, rfl, between⟩
      cases overflows with
      | time long =>
          obtain ⟨_, opened, -⟩ := signed.of_append
          exact readVariable_of_longTime fresh known opened long
      | index short high =>
          have sign : readSign ending .monoflop ⟨name, span⟩ _ =
              .ok ⟨some time, _, signed.shorter⟩ :=
            readSign_eq_ok.2 ⟨rfl, value, digits, unit, known, short, signed⟩
          exact readVariable_of_wideIndex fresh sign rfl (exact'.symm ▸ high)

end

/-! Both front ends. -/

theorem words_of_readEquation {ending : Ending} {p : Program} {name : Located String} {ts : Tokens}
    {r : Read Program ts} (read : readEquation ending p name ts = .ok r) :
    r.value.symbols = p.symbols ∧ ∃ words, Spells ts words r.rest := by
  obtain ⟨v, assignment, tail, e, -, -, signed, expression, closed, value⟩ :=
    readEquation_eq_ok.1 read
  obtain ⟨phrase, -, -, spelled, -⟩ := phrase_of_readExpression 0 expression
  exact ⟨by rw [value], _, signed.append (spelled.append closed)⟩

/-- The variables that the text of a program declares are written in it. -/
theorem written_of_readProgram {ending : Ending} {p q : Program} {ts : Tokens}
    (read : readProgram ending p ts = .ok q) :
    ∀ v ∈ q.symbols.declared, v ∈ p.symbols.declared ∨ v.WrittenIn (ts.map Located.value) := by
  intro v member
  rcases readProgram_eq_ok.1 read with ⟨symbols, heading, rfl⟩ |
    ⟨symbols, name, more, heading, equation, others⟩
  · obtain ⟨⟨words, sections, spelled⟩, -⟩ := readHeading_eq_finished.1 heading
    rw [spelled.map_eq, List.map_nil, List.append_nil]
    exact sections.written v member
  · obtain ⟨words, sections, spelled, -⟩ := readHeading_eq_statement.1 heading
    obtain ⟨same, words', spelled'⟩ := words_of_readEquation equation
    have less : more.rest.length < ts.length := Nat.lt_trans more.shorter name.shorter
    rw [spelled.map_eq, List.map_cons, spelled'.map_eq]
    rcases written_of_readProgram others v member with before | later
    · rw [same] at before
      exact (sections.written v before).imp id fun here =>
        here.of_infix (List.prefix_append _ _).isInfix
    · refine .inr (later.of_infix (List.IsSuffix.isInfix ?_))
      exact ((List.suffix_append _ _).trans (List.suffix_cons _ _)).trans (List.suffix_append _ _)
termination_by ts.length

theorem Lists.written {symbols : SymbolTable} {words : List Token} {l : Listing}
    (h : Lists symbols words l) :
    ∀ v ∈ l.symbols.declared, v ∈ symbols.declared ∨ v.WrittenIn words := by
  intro v member
  induction h with
  | finished sections => exact sections.written v member
  | @line _ _ heading words rest name _ _ _ sections _ _ _ ih =>
      rcases ih member with before | later
      · exact (sections.written v before).imp id fun here =>
          here.of_infix (List.prefix_append _ _).isInfix
      · refine .inr (later.of_infix (List.IsSuffix.isInfix ?_))
        exact ((List.suffix_append _ _).trans (List.suffix_cons _ _)).trans (List.suffix_append _ _)
  | leading _ _ _ ih =>
      refine (ih member).imp id fun later => later.of_infix (List.IsSuffix.isInfix ?_)
      exact ((List.suffix_append _ _).trans (List.suffix_cons _ _)).trans (List.suffix_cons _ _)

theorem map_eq_ok {ε α β : Type} {x : Except ε α} {f : α → β} {b : β} :
    x.map f = .ok b ↔ ∃ a, x = .ok a ∧ f a = b := by
  cases x <;> simp [Except.map]

/-- The two languages in which texts are read: equations, and lines of a listing. -/
inductive Language where
  | equations
  | lines

/-- The variables that a text of a language declares, if it can be read. -/
def Language.symbols : Language → Tape → Except (Located ParseError) SymbolTable
  | equations, t => t.program.map Program.symbols
  | lines, t => t.listing.map Listing.symbols

/-- `lang.Opens front category symbols`: the tokens can be read up to a place in a section of the
category where a declaration comes next, and they declare the variables of the table. -/
inductive Language.Opens (lang : Language) : Tokens → Category → SymbolTable → Prop
  | intro {before earlier : Tokens} {last : Span} {known symbols : SymbolTable}
      {word colon : Located Token} {name : String} {category : Category} :
      lang.symbols ⟨before, .finished last⟩ = .ok known → word.value = .ident name →
      sectionOf? name = some category → colon.value = .char ':' →
      Leads category known (earlier.map Located.value) symbols →
      Opens lang (before ++ word :: colon :: earlier) category symbols

namespace Language

variable {lang : Language}

theorem symbols_eq_ok {t : Tape} {symbols : SymbolTable} :
    lang.symbols t = .ok symbols ↔
      match lang with
      | equations => ∃ p, t.program = .ok p ∧ p.symbols = symbols
      | lines => ∃ l, t.listing = .ok l ∧ l.symbols = symbols := by
  cases lang with
  | equations => exact map_eq_ok
  | lines => exact map_eq_ok

/-- Behind a text that can be read, a section fails as it does in a heading. -/
theorem symbols_append_eq_error {before rest : Tokens} {last : Span} {known : SymbolTable}
    (read : lang.symbols ⟨before, .finished last⟩ = .ok known) (begins : BeginsSection rest)
    {ending : Ending} {e : Located ParseError} (failed : readHeading ending known rest = .error e) :
    lang.symbols ⟨before ++ rest, ending⟩ = .error e := by
  cases lang with
  | equations =>
      obtain ⟨p, accepted, rfl⟩ := symbols_eq_ok.1 read
      have refused : (Tape.mk (before ++ rest) ending).program = .error e :=
        readProgram_append_eq_error accepted failed
      rw [Language.symbols, refused]
      rfl
  | lines =>
      obtain ⟨l, accepted, rfl⟩ := symbols_eq_ok.1 read
      obtain ⟨lists, -⟩ := readListing_eq_ok_iff.1 accepted
      have refused : (Tape.mk (before ++ rest) ending).listing = .error e :=
        lists.readListing_eq_error ⟨before, rfl, rfl⟩ begins failed
      rw [Language.symbols, refused]
      rfl

/-- Where a declaration comes next, reading fails as the declaration does. -/
theorem Opens.symbols_eq_error {front rest : Tokens} {category : Category} {symbols : SymbolTable}
    (h : lang.Opens front category symbols) {ending : Ending} {e : Located ParseError}
    (failed : readVariable ending category symbols rest = .error e) :
    lang.symbols ⟨front ++ rest, ending⟩ = .error e := by
  cases h with
  | @intro before earlier last known _ word colon name _ read named begins opened leads =>
      rcases word with ⟨_, span⟩
      obtain rfl := named
      have refused := leads.readVariables_eq_error ⟨earlier, rfl, rfl⟩ failed
      have heading : readHeading ending known
          (⟨.ident name, span⟩ :: colon :: (earlier ++ rest)) = .error e := by
        rw [readHeading]
        simp only [begins, readSection, readChar, readToken, bind, Except.bind, opened, if_true,
          pure, Except.pure, Read.map, refused]
      rw [List.append_assoc]
      exact symbols_append_eq_error read ⟨name, category, span, _, rfl, begins⟩ heading

theorem written_of_symbols {t : Tape} {symbols : SymbolTable}
    (read : lang.symbols t = .ok symbols) :
    ∀ v ∈ symbols.declared, v.WrittenIn (t.tokens.map Located.value) := by
  intro v member
  have nothing : v ∉ SymbolTable.empty.declared := List.not_mem_nil
  cases lang with
  | equations =>
      obtain ⟨p, accepted, rfl⟩ := symbols_eq_ok.1 read
      exact (written_of_readProgram accepted v member).resolve_left nothing
  | lines =>
      obtain ⟨l, accepted, rfl⟩ := symbols_eq_ok.1 read
      obtain ⟨lists, -⟩ := readListing_eq_ok_iff.1 accepted
      exact (lists.written v member).resolve_left nothing

end Language

/-- The numbers of every variable that is declared in a text are those of its declaration, wrapped to
the width of number tokens. They are the numbers that it denotes just if none is too wide. Where a
declaration comes next whose wrapped numbers are out of range, the text is refused for that; and if
its numbers are not too wide, these are the wrapped ones, the duration whatever the index. -/
theorem Source.declared_numbers (lang : Language) (s : Source) :
    (∀ symbols, lang.symbols s.tape = .ok symbols → ∀ v ∈ symbols.declared,
      ∃ words w, words <:+: s.tape.tokens.map Located.value ∧
        Denotes wrappedNumberOf v.category v words ∧ Denotes numberOf v.category w words ∧
        w.name = v.name ∧ ((∀ t ∈ words, t.Narrow) ↔ w = v) ∧ v.index < 2 ^ 32 ∧
        v.time ≤ 65535) ∧
      ∀ (front middle rest : Tokens) (first last : Located Token) (category : Category)
        (symbols : SymbolTable) (v : Variable),
        s.tape.tokens = front ++ first :: (middle ++ last :: rest) →
        lang.Opens front category symbols → v.name ∉ symbols.names →
        let words := first.value :: (middle.map Located.value ++ [last.value])
        Denotes numberOf category v words →
        ∃ w, Denotes wrappedNumberOf category w words ∧
          ((∀ t ∈ middle.map Located.value, t.Narrow) → w.time = v.time) ∧
          ((∀ t ∈ words, t.Narrow) → w = v) ∧
          ∀ e, Overflows w first.span last.span e → lang.symbols s.tape = .error e := by
  refine ⟨fun symbols read v member => ?_, ?_⟩
  · obtain ⟨words, inside, entry⟩ := Language.written_of_symbols read v member
    obtain ⟨wrapped, w, denotes, named, exact⟩ :=
      entry.denotes fun t there => s.honest_tokens t (inside.subset there)
    obtain ⟨low, short⟩ := entry.low
    exact ⟨words, w, inside, wrapped, denotes, named, exact, low, short⟩
  · intro front middle rest first last category symbols v split opens fresh words denotes
    have honest : ∀ t ∈ words, t.Honest := by
      intro t member
      apply s.honest_tokens
      rw [split, List.map_append, List.map_cons, List.map_append, List.map_cons]
      refine List.mem_append_right _ (List.IsPrefix.subset ?_ member)
      exact ⟨rest.map Located.value, by simp [words]⟩
    obtain ⟨w, wrapped, named, time, exact⟩ := denotes.exists_wrapped
    refine ⟨w, wrapped, time, exact, fun e overflows => ?_⟩
    have failed : lang.symbols ⟨front ++ first :: (middle ++ last :: rest), s.tape.ending⟩ =
        .error e :=
      opens.symbols_eq_error
        (overflows.readVariable_eq_error wrapped honest (named.symm ▸ fresh) rest)
    rwa [← split] at failed

def excessiveText : Source := .ofString "excessive" "inputs: a=1, b=4294967296;"

set_option maxRecDepth 4000 in
theorem tokens_excessiveText :
    excessiveText.tape.tokens =
      [⟨.ident "inputs", ⟨⟨1, 1⟩, ⟨1, 7⟩⟩⟩, ⟨.char ':', ⟨⟨1, 7⟩, ⟨1, 8⟩⟩⟩,
        ⟨.ident "a", ⟨⟨1, 9⟩, ⟨1, 10⟩⟩⟩, ⟨.assignment .assign, ⟨⟨1, 10⟩, ⟨1, 11⟩⟩⟩,
        ⟨.integer 1 "1", ⟨⟨1, 11⟩, ⟨1, 12⟩⟩⟩, ⟨.char ',', ⟨⟨1, 12⟩, ⟨1, 13⟩⟩⟩,
        ⟨.ident "b", ⟨⟨1, 14⟩, ⟨1, 15⟩⟩⟩, ⟨.assignment .assign, ⟨⟨1, 15⟩, ⟨1, 16⟩⟩⟩,
        ⟨.integer 4294967296 "4294967296", ⟨⟨1, 16⟩, ⟨1, 26⟩⟩⟩,
        ⟨.char ';', ⟨⟨1, 26⟩, ⟨1, 27⟩⟩⟩] := by
  cbv

/-- The second declaration is out of range, and is refused at its number. -/
theorem declared_numbers_excessiveText :
    Language.equations.symbols excessiveText.tape =
      .error ((SemanticError.indexOverflow "b").located ⟨⟨1, 16⟩, ⟨1, 26⟩⟩) := by
  let word : Located Token := ⟨.ident "inputs", ⟨⟨1, 1⟩, ⟨1, 7⟩⟩⟩
  let colon : Located Token := ⟨.char ':', ⟨⟨1, 7⟩, ⟨1, 8⟩⟩⟩
  let earlier : Tokens := [⟨.ident "a", ⟨⟨1, 9⟩, ⟨1, 10⟩⟩⟩,
    ⟨.assignment .assign, ⟨⟨1, 10⟩, ⟨1, 11⟩⟩⟩, ⟨.integer 1 "1", ⟨⟨1, 11⟩, ⟨1, 12⟩⟩⟩,
    ⟨.char ',', ⟨⟨1, 12⟩, ⟨1, 13⟩⟩⟩]
  have nothing : Language.equations.symbols ⟨[], .finished (.of .origin)⟩ = .ok .empty := by cbv
  have entry : Declaration .input (.plain "a" .input (1 : UInt64).toNat)
      [.ident "a", .assignment .assign, .integer 1 "1"] := .plain (by decide)
  have leads : Leads .input .empty (earlier.map Located.value)
      ⟨[.plain "a" .input 1], by decide⟩ := .cons entry rfl (.nil _)
  have opens : Language.equations.Opens ([] ++ word :: colon :: earlier) .input _ :=
    .intro nothing rfl rfl rfl leads
  have denotes : Denotes numberOf .input (.plain "b" .input (numberOf "4294967296"))
      [.ident "b", .assignment .assign, .integer 4294967296 "4294967296"] := .plain
  have small : numberOf "4294967296" < 2 ^ 64 := by decide
  have narrow : ∀ t ∈ [.ident "b", .assignment .assign, .integer 4294967296 "4294967296"],
      Token.Narrow t :=
    List.forall_mem_cons.2 ⟨trivial, List.forall_mem_cons.2 ⟨trivial,
      List.forall_mem_singleton.2 small⟩⟩
  obtain ⟨w, -, -, exact, refused⟩ := (Source.declared_numbers .equations excessiveText).2
    ([] ++ word :: colon :: earlier) [⟨.assignment .assign, ⟨⟨1, 15⟩, ⟨1, 16⟩⟩⟩] _ _ _ .input _ _
    tokens_excessiveText opens (by decide) denotes
  obtain rfl := exact narrow
  exact refused _ (.index (by decide) (by decide))

/-- A number of twenty digits, which is the modulus of the values of tokens. -/
def wideText : Source := .ofString "wide" "inputs: a=18446744073709551616;"

set_option maxRecDepth 4000 in
theorem words_wideText :
    wideText.tape.tokens.map Located.value =
      [.ident "inputs", .char ':', .ident "a", .assignment .assign,
        .integer 0 "18446744073709551616", .char ';'] := by
  cbv

set_option maxRecDepth 4000 in
theorem program_wideText :
    wideText.program = .ok ⟨⟨[.plain "a" .input 0], by decide⟩, [], 0⟩ := by
  cbv

/-- The number wraps to zero. The text is accepted, and declares what no words of it denote. -/
theorem declared_wideText :
    let words := wideText.tape.tokens.map Located.value
    Language.equations.symbols wideText.tape = .ok ⟨[.plain "a" .input 0], by decide⟩ ∧
      (∃ own, own <:+: words ∧ Denotes numberOf .input (.plain "a" .input (2 ^ 64)) own) ∧
      ∀ own w, own <:+: words → Denotes numberOf .input w own → w ≠ .plain "a" .input 0 := by
  have wide : numberOf "18446744073709551616" = 2 ^ 64 := by decide
  simp only [words_wideText]
  refine ⟨?_, ?_, fun own w inside denotes same => ?_⟩
  · exact Language.symbols_eq_ok.2 ⟨_, program_wideText, rfl⟩
  · have denotes : Denotes numberOf .input (.plain "a" .input (numberOf "18446744073709551616"))
        [.ident "a", .assignment .assign, .integer 0 "18446744073709551616"] := .plain
    rw [wide] at denotes
    exact ⟨_, ⟨[.ident "inputs", .char ':'], [.char ';'], rfl⟩, denotes⟩
  · cases denotes with
    | @plain _ name digits value =>
        have member : Token.integer value digits ∈ _ := inside.subset (by simp)
        simp only [List.mem_cons, reduceCtorEq, Token.integer.injEq, List.not_mem_nil, or_false,
          false_or] at member
        rw [member.2, wide] at same
        cases same

end RelayLogic
