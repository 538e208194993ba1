import RelayLogic.Grammar.Equations
import RelayLogic.Grammar.Listing
import RelayLogic.Proofs.DeclarationGrammar

/-! Which tokens errors blame. A reader that fails on some tokens blames one of them, and says of it
what is wrong with it, or is missing more of them. Every reader leaves only tokens that it was given,
so this is passed on from reader to reader. -/
namespace RelayLogic

/-- What an error says of the token at which it is reported. -/
def ParseError.Concerns (found : Token) : ParseError → Prop
  | .unexpectedToken _ named | .unknownTimeUnit named => found = named
  | .undefinedOperator c => found = .char c
  | .durationNotAllowed => found = .char '('
  | .nestingTooDeep => found = .char '!' ∨ found = .char '('
  | .undefinedInstruction name => found = .ident name
  | .semantic e =>
    match e with
    | .duplicateVariable name | .unknownVariable name | .duplicateEquation name
    | .timeOverflow name => found = .ident name
    | .indexOverflow _ => ∃ value digits, found = .integer value digits
    | .invalidArgument m _ => ∃ name, found = .ident name ∧ Mnemonic.ofName? name = some m
    | .missingEquation _ | .cyclicDependency _ | .nestingTooDeep _ => False
  | .lexical _ | .unexpectedEnd _ => False

/-- An error that is reported at one of these tokens, and concerns it, or at their end. -/
inductive Blames (all : Tokens) (ending : Ending) : Located ParseError → Prop
  | token {t : Located Token} {e : ParseError} : t ∈ all → e.Concerns t.value →
      Blames all ending ⟨e, t.span⟩
  | missing (expected : Expected) : Blames all ending (ending.missing expected)

/-- A result that is good, or an error that is told so. -/
inductive Ends {ε α : Type} (good : α → Prop) (bad : ε → Prop) : Except ε α → Prop
  | ok {a : α} : good a → Ends good bad (.ok a)
  | error {e : ε} : bad e → Ends good bad (.error e)

theorem Ends.bind {ε α β : Type} {good : α → Prop} {good' : β → Prop} {bad : ε → Prop}
    {x : Except ε α} {f : α → Except ε β} (h : Ends good bad x)
    (next : ∀ a, good a → Ends good' bad (f a)) : Ends good' bad (x >>= f) := by
  cases h with
  | ok here => exact next _ here
  | error wrong => exact .error wrong

theorem Ends.of_ok {ε α : Type} {good : α → Prop} {bad : ε → Prop} {x : Except ε α} {a : α}
    (h : Ends good bad x) (read : x = .ok a) : good a := by
  subst read
  cases h with
  | ok here => exact here

theorem Ends.of_error {ε α : Type} {good : α → Prop} {bad : ε → Prop} {x : Except ε α} {e : ε}
    (h : Ends good bad x) (failed : x = .error e) : bad e := by
  subst failed
  cases h with
  | error wrong => exact wrong

/-- A reading that leaves tokens of a text unread, or blames a token of the text. -/
def Places (all : Tokens) (ending : Ending) {α : Type} {ts : Tokens} (x : Reading α ts) : Prop :=
  Ends (fun r => r.rest ⊆ all) (Blames all ending) x

/-- A name that is one of the tokens of a text. -/
def Located.NameIn (name : Located String) (all : Tokens) : Prop :=
  ⟨.ident name.value, name.span⟩ ∈ all

theorem SymbolTable.lookup_eq_error {t : SymbolTable} {name : String} {e : SemanticError}
    (h : t.lookup name = .error e) : e = .unknownVariable name := by
  unfold lookup at h
  split at h
  · cases h
  · exact (Except.error.inj h).symm

theorem SymbolTable.declare_eq_error {t : SymbolTable} {v : Variable} {e : SemanticError}
    (h : t.declare v = .error e) : e = .duplicateVariable v.name := by
  unfold declare at h
  split at h
  · exact (Except.error.inj h).symm
  · cases h

theorem Program.addEquation_eq_error {p : Program} {v : Variable} {e : Expression}
    {wrong : SemanticError} (h : p.addEquation v e = .error wrong) :
    wrong = .duplicateEquation v.name := by
  unfold addEquation at h
  split at h
  · exact (Except.error.inj h).symm
  · cases h

section

variable {all : Tokens} {ending : Ending} {ts : Tokens}

/-! Single tokens. -/

theorem ends_readToken (expected : Expected) (inside : ts ⊆ all) :
    Ends (fun r => r.value ∈ all ∧ r.rest ⊆ all) (Blames all ending)
      (readToken ending expected ts) := by
  cases ts with
  | nil => exact .error (.missing expected)
  | cons t rest => exact .ok ⟨inside List.mem_cons_self, List.subset_of_cons_subset inside⟩

theorem places_readChar (c : Char) (expected : Expected) (inside : ts ⊆ all) :
    Places all ending (readChar ending c expected ts) := by
  apply (ends_readToken expected inside).bind
  intro t taken
  split
  · exact .ok taken.2
  · exact .error (.token taken.1 rfl)

theorem ends_readName (inside : ts ⊆ all) :
    Ends (fun r => r.value.NameIn all ∧ r.rest ⊆ all) (Blames all ending)
      (readName ending ts) := by
  apply (ends_readToken .identifier inside).bind
  intro t taken
  split
  · rename_i name found
    refine .ok ⟨?_, taken.2⟩
    change ⟨.ident name, t.value.span⟩ ∈ all
    rw [← found]
    exact taken.1
  · exact .error (.token taken.1 rfl)

theorem ends_readInteger (expected : Expected) (inside : ts ⊆ all) :
    Ends (fun r => (∃ digits, ⟨.integer r.value.value digits, r.value.span⟩ ∈ all) ∧ r.rest ⊆ all)
      (Blames all ending) (readInteger ending expected ts) := by
  apply (ends_readToken expected inside).bind
  intro t taken
  split
  · rename_i value digits found
    refine .ok ⟨⟨digits, ?_⟩, taken.2⟩
    change ⟨.integer value digits, t.value.span⟩ ∈ all
    rw [← found]
    exact taken.1
  · exact .error (.token taken.1 rfl)

/-! Sections. -/

theorem places_readDuration {name : Located String} (named : name.NameIn all)
    (inside : ts ⊆ all) : Places all ending (readDuration ending name ts) := by
  apply (ends_readInteger .duration inside).bind
  intro amount taken
  apply (ends_readToken .timeUnit taken.2).bind
  intro unit taken'
  split
  · exact .error (.token taken'.1 rfl)
  split
  · exact .error (.token named rfl)
  · exact .ok taken'.2

theorem places_readSign (category : Category) {name : Located String} (named : name.NameIn all)
    (inside : ts ⊆ all) : Places all ending (readSign ending category name ts) := by
  apply (ends_readToken .declarationSign inside).bind
  intro t taken
  split
  · rename_i opening
    split
    · exact .error (.token taken.1 opening)
    apply (places_readDuration named taken.2).bind
    intro time behind
    apply (places_readChar ')' .durationEnd behind).bind
    intro close behind'
    apply (ends_readToken .declarationSign behind').bind
    intro sign taken'
    split
    · exact .ok taken'.2
    · exact .error (.token taken'.1 rfl)
  · exact .ok taken.2
  · exact .error (.token taken.1 rfl)

theorem places_readVariable (category : Category) (symbols : SymbolTable) (inside : ts ⊆ all) :
    Places all ending (readVariable ending category symbols ts) := by
  simp only [readVariable]
  apply (ends_readName inside).bind
  intro name taken
  split
  · exact .error (.token taken.1 rfl)
  apply (places_readSign category taken.1 taken.2).bind
  intro time behind
  apply (ends_readInteger .index behind).bind
  intro index taken'
  split
  · have concerns : (ParseError.semantic (.indexOverflow name.value.value)).Concerns
        (.integer index.value.value taken'.1.choose) := ⟨_, _, rfl⟩
    exact .error (.token taken'.1.choose_spec concerns)
  split
  · rename_i e failed
    have named : e = .duplicateVariable name.value.value := by
      rw [SymbolTable.declare_eq_error failed]
      cases time.value <;> rfl
    subst named
    exact .error (.token taken.1 rfl)
  · exact .ok taken'.2

theorem places_readVariables (category : Category) (symbols : SymbolTable) {ts : Tokens}
    (inside : ts ⊆ all) : Places all ending (readVariables ending category symbols ts) := by
  rw [readVariables]
  apply (places_readVariable category symbols inside).bind
  intro v behind
  apply (ends_readToken .listEnd behind).bind
  intro t taken
  split
  · apply (places_readVariables category v.value taken.2).bind
    intro more behind'
    exact .ok behind'
  · exact .ok taken.2
  · exact .error (.token taken.1 rfl)
termination_by ts.length
decreasing_by exact Nat.lt_trans t.shorter v.shorter

theorem places_readSection (category : Category) (symbols : SymbolTable) (inside : ts ⊆ all) :
    Places all ending (readSection ending category symbols ts) := by
  apply (places_readChar ':' .sectionColon inside).bind
  intro colon behind
  apply (places_readVariables category symbols behind).bind
  intro symbols behind'
  exact .ok behind'

/-- What is left unread behind a heading, and the name it leads to, are of the text. -/
def Heading.Within (all : Tokens) {ts : Tokens} : Heading ts → Prop
  | finished _ => True
  | statement _ name => name.value.NameIn all ∧ name.rest ⊆ all

theorem ends_readHeading (symbols : SymbolTable) {ts : Tokens} (inside : ts ⊆ all) :
    Ends (Heading.Within all) (Blames all ending) (readHeading ending symbols ts) := by
  fun_induction readHeading ending symbols ts with
  | case1 => exact .ok trivial
  | case2 => exact .error (.missing .statement)
  | case3 symbols t rest ending name found other =>
      refine .ok ⟨?_, List.subset_of_cons_subset inside⟩
      change ⟨.ident name, t.span⟩ ∈ all
      rw [← found]
      exact inside List.mem_cons_self
  | case4 symbols t rest ending name found category here e failed =>
      have behind := List.subset_of_cons_subset inside
      exact .error ((places_readSection category symbols behind).of_error failed)
  | case5 symbols t rest ending name found category here block read e failed ih =>
      have behind := List.subset_of_cons_subset inside
      have later := ih ((places_readSection category symbols behind).of_ok read)
      exact .error (later.of_error failed)
  | case6 => exact .ok trivial
  | case7 symbols t rest ending name found category here block read symbols' name' led ih =>
      have behind := List.subset_of_cons_subset inside
      have later := ih ((places_readSection category symbols behind).of_ok read)
      exact .ok (later.of_ok led)
  | case8 => exact .error (.token (inside List.mem_cons_self) rfl)

/-! Equations. -/

theorem ends_readOperator (inside : ts ⊆ all) :
    Ends (fun o => ∀ r ∈ o, r.rest ⊆ all) (Blames all ending) (readOperator ending ts) := by
  cases ts with
  | nil => exact .error (.missing _)
  | cons t rest =>
      have here := inside List.mem_cons_self
      have behind := List.subset_of_cons_subset inside
      simp only [readOperator]
      split
      · exact .ok nofun
      · exact .ok nofun
      · refine .ok ?_
        rintro r ⟨⟩
        exact behind
      · refine .ok ?_
        rintro r ⟨⟩
        exact behind
      · rename_i found
        exact .error (.token here found)
      · exact .error (.token here rfl)

theorem places_readTerms {term : Nat → (ts : Tokens) → Reading (Term × Nat) ts}
    (each : ∀ lastId ts, ts ⊆ all → Places all ending (term lastId ts)) (d : Draft) {ts : Tokens}
    (inside : ts ⊆ all) : Places all ending (readTerms ending term d ts) := by
  rw [readTerms]
  apply (each d.lastId ts inside).bind
  intro t behind
  apply (ends_readOperator behind).bind
  intro found behind'
  cases found with
  | none => exact .ok behind
  | some operator =>
      apply (places_readTerms each _ (behind' operator rfl)).bind
      intro more behind''
      exact .ok behind''
termination_by ts.length
decreasing_by exact Nat.lt_trans operator.shorter t.shorter

theorem places_readTerm (symbols : SymbolTable) (nesting lastId : Nat) {ts : Tokens}
    (inside : ts ⊆ all) : Places all ending (readTerm ending symbols nesting lastId ts) := by
  unfold readTerm
  apply (ends_readToken .operand inside).bind
  intro t taken
  split
  · rename_i name found
    split
    · rename_i e failed
      rw [SymbolTable.lookup_eq_error failed]
      exact .error (.token taken.1 found)
    · exact .ok taken.2
  · rename_i inversion
    cases nesting with
    | zero => exact .error (.token taken.1 (.inl inversion))
    | succ nesting =>
        apply (places_readTerm symbols nesting lastId taken.2).bind
        intro operand behind
        exact .ok behind
  · rename_i opening
    cases nesting with
    | zero => exact .error (.token taken.1 (.inr opening))
    | succ nesting =>
        apply (places_readTerms (places_readTerm symbols nesting) (.start lastId) taken.2).bind
        intro e behind
        apply (places_readChar ')' .groupEnd behind).bind
        intro close behind'
        exact .ok behind'
  · exact .error (.token taken.1 rfl)
termination_by nesting

theorem places_readEquation (p : Program) {name : Located String} (named : name.NameIn all)
    (inside : ts ⊆ all) : Places all ending (readEquation ending p name ts) := by
  unfold readEquation
  split
  · rename_i e failed
    obtain rfl := SymbolTable.lookup_eq_error failed
    exact .error (Blames.token named rfl)
  · rename_i v found
    have same : v.name = name.value :=
      (SymbolTable.mem_of_find? (SymbolTable.lookup_eq_ok.1 found)).2
    apply (ends_readToken .assignment inside).bind
    intro sign taken
    split
    · apply (places_readTerms (places_readTerm p.symbols maxNesting) _ taken.2).bind
      intro e behind
      apply (places_readChar ';' .equationEnd behind).bind
      intro close behind'
      split
      · rename_i wrong failed
        obtain rfl := Program.addEquation_eq_error failed
        exact .error (Blames.token named (congrArg Token.ident same.symm))
      · exact .ok behind'
    · exact .error (.token taken.1 rfl)

theorem ends_readProgram (p : Program) {ts : Tokens} (inside : ts ⊆ all) :
    Ends (fun _ => True) (Blames all ending) (readProgram ending p ts) := by
  rw [readProgram]
  apply (ends_readHeading p.symbols inside).bind
  intro heading within
  cases heading with
  | finished symbols => exact .ok trivial
  | statement symbols name =>
      apply (places_readEquation { p with symbols } within.1 within.2).bind
      intro more behind
      exact ends_readProgram more.value behind
termination_by ts.length
decreasing_by exact Nat.lt_trans more.shorter name.shorter

/-! Listings. -/

section

variable {symbols : SymbolTable} {name : Located String} {m : Mnemonic} {t : Located Token}

theorem ends_readArgument (symbols : SymbolTable) (named : name.NameIn all)
    (known : Mnemonic.ofName? name.value = some m) (here : t ∈ all) (inverted : Bool) :
    Ends (fun _ => True) (Blames all ending) (readArgument symbols m name.span inverted t) := by
  have invalid (reason : ArgumentError) :
      Blames all ending ((SemanticError.invalidArgument m reason).located name.span) :=
    .token named ⟨name.value, rfl, known⟩
  unfold readArgument
  split
  · rename_i word found
    split
    · rename_i e failed
      rw [SymbolTable.lookup_eq_error failed]
      exact .error (.token here found)
    split
    · exact .ok trivial
    · exact .error (invalid _)
  · split
    · exact .error (invalid .missing)
    split
    · exact .error (invalid .nothingToInvert)
    · exact .ok trivial

theorem places_readLineEnd (symbols : SymbolTable) (named : name.NameIn all)
    (known : Mnemonic.ofName? name.value = some m) (inverted : Bool) (inside : t :: ts ⊆ all) :
    Places all ending (readLineEnd ending symbols m name.span inverted t ts) := by
  apply (ends_readArgument symbols named known (inside List.mem_cons_self) inverted).bind
  intro argument _
  cases argument with
  | some v =>
      apply (places_readChar ';' .lineEnd (List.subset_of_cons_subset inside)).bind
      intro close behind
      exact .ok behind
  | none =>
      apply (places_readChar ';' .lineEnd inside).bind
      intro close behind
      exact .ok behind

theorem places_readLine (symbols : SymbolTable) (named : name.NameIn all) (leading : Bool)
    (inside : ts ⊆ all) : Places all ending (readLine ending symbols name leading ts) := by
  unfold readLine
  split
  · exact .error (.token named rfl)
  rename_i m known
  split
  · exact .error (.missing _)
  rename_i t rest
  split
  · split
    · have concerns : (ParseError.semantic (.invalidArgument m .invertedTwice)).Concerns
          (.ident name.value) := ⟨name.value, rfl, known⟩
      exact .error (.token named concerns)
    split
    · exact .error (.missing _)
    · rename_i u rest
      apply (places_readLineEnd symbols named known true (List.subset_of_cons_subset inside)).bind
      intro line behind
      exact .ok behind
  · exact places_readLineEnd symbols named known leading inside

theorem ends_readListing (symbols : SymbolTable) {ts : Tokens} (inside : ts ⊆ all) :
    Ends (fun _ => True) (Blames all ending) (readListing ending symbols ts) := by
  unfold readListing
  generalize same : ts = us at inside ⊢
  split
  · apply (ends_readName (List.subset_of_cons_subset inside)).bind
    intro name taken
    apply (places_readLine symbols taken.1 true taken.2).bind
    intro line behind
    apply (ends_readListing symbols behind).bind
    intro l _
    exact .ok trivial
  · apply (ends_readHeading symbols inside).bind
    intro heading within
    cases heading with
    | finished symbols => exact .ok trivial
    | statement symbols name =>
        apply (places_readLine symbols within.1 false within.2).bind
        intro line behind
        apply (ends_readListing symbols behind).bind
        intro l _
        exact .ok trivial
termination_by ts.length
decreasing_by
  · rw [same]
    exact Nat.lt_succ_of_lt (Nat.lt_trans line.shorter name.shorter)
  · exact Nat.lt_trans line.shorter name.shorter

end

end

end RelayLogic
