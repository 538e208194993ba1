import RelayLogic.Proofs.DeclaredNumbers
import RelayLogic.Proofs.StatementText

/-! Declarations printed and read back. Variables are printed in their order, those of one category
that follow each other as one section. Both languages read the table of these variables from such a
text, and nothing else. -/
namespace RelayLogic

/-- Whether a variable can be declared: its name is one, its numbers are in range, and only a
monoflop has a duration. -/
structure Variable.Declarable (v : Variable) : Prop where
  shaped : WordShaped v.name
  low : v.index < 2 ^ 32
  short : v.time ≤ 65535
  untimed : v.category ≠ .monoflop → v.time = 0

namespace Variable

/-- The words of a declaration. The duration of a monoflop is told in seconds. -/
def words (v : Variable) : List Token :=
  if v.category = .monoflop then
    [.ident v.name, .char '(', .number (2 * v.time), .ident "s", .char ')', .assignment .assign,
      .number v.index]
  else [.ident v.name, .assignment .assign, .number v.index]

def text (v : Variable) : String :=
  if v.category = .monoflop then
    v.name ++ "(" ++ ((2 * v.time).repr ++ "s") ++ ")=" ++ v.index.repr
  else v.name ++ "=" ++ v.index.repr

/-- The words of declarations with commas between them. -/
def listWords : List Variable → List Token
  | [] => []
  | [v] => v.words
  | v :: rest => v.words ++ .char ',' :: listWords rest

def listText : List Variable → String
  | [] => ""
  | [v] => v.text
  | v :: rest => v.text ++ ", " ++ listText rest

/-- The words of a section of some variables, up to its semicolon. `word` tells how the word that
begins a section of a category is spelled. -/
def blockWords (word : Category → String) : List Variable → List Token
  | [] => []
  | v :: rest => .ident (word v.category) :: .char ':' :: listWords (v :: rest)

def blockText (word : Category → String) : List Variable → String
  | [] => ""
  | v :: rest => word v.category ++ ": " ++ listText (v :: rest)

/-- Variables cut where the category changes. -/
def blocks (vs : List Variable) : List (List Variable) :=
  vs.splitBy fun v w => v.category = w.category

theorem flatten_blocks (vs : List Variable) : (blocks vs).flatten = vs := List.flatten_splitBy _ vs

/-- The words of the sections that declare some variables. -/
def headingWords (word : Category → String) (vs : List Variable) : List Token :=
  statementWords ((blocks vs).map (blockWords word))

def headingText (word : Category → String) (vs : List Variable) : String :=
  statements ((blocks vs).map (blockText word))

end Variable

/-! What the words declare. -/

/-- The words of a variable declare it. -/
theorem Variable.Declarable.declaration {v : Variable} (h : v.Declarable) :
    Declaration v.category v v.words := by
  rcases v with ⟨name, category, index, time⟩
  have low : index < 2 ^ 32 := h.low
  have short : time ≤ 65535 := h.short
  have small : index < UInt64.size := Nat.lt_trans low (by decide)
  have value : (UInt64.ofNat index).toNat = index := UInt64.toNat_ofNat_of_lt' small
  have inside : (UInt64.ofNat index).toNat < indexLimit := value.symm ▸ low
  by_cases timed : category = .monoflop
  · obtain rfl := timed
    have narrow : 2 * time < UInt64.size :=
      Nat.lt_of_le_of_lt (Nat.mul_le_mul_left 2 short) (by decide)
    have amount : (UInt64.ofNat (2 * time)).toNat = 2 * time := UInt64.toNat_ofNat_of_lt' narrow
    have known : timeOf? (UInt64.ofNat (2 * time)).toNat (.ident "s") = some time := by
      rw [timeOf?, if_pos rfl, amount, Nat.mul_div_cancel_left time (by decide)]
    have entry : Declaration .monoflop _ [.ident name, .char '(', .number (2 * time), .ident "s",
      .char ')', .assignment .assign, .number index] := .timed known short inside
    rwa [value] at entry
  · have entry : Declaration category _ [.ident name, .assignment .assign, .number index] :=
      .plain inside
    have none : time = 0 := h.untimed timed
    rw [value, Variable.plain, if_neg timed, ← none] at entry
    simpa only [words, if_neg timed] using entry

/-- A table that goes on with some variables, as it was before the others came in. -/
theorem SymbolTable.exists_between {symbols symbols' : SymbolTable} {vs rest : List Variable}
    (grown : symbols'.declared = symbols.declared ++ (vs ++ rest)) :
    ∃ between : SymbolTable, between.declared = symbols.declared ++ vs ∧
      symbols'.declared = between.declared ++ rest := by
  rw [← List.append_assoc] at grown
  have distinct := symbols'.distinct
  rw [grown, List.map_append] at distinct
  exact ⟨⟨symbols.declared ++ vs, distinct.of_append_left⟩, rfl, grown⟩

theorem SymbolTable.declare_of_append {symbols symbols' : SymbolTable} {v : Variable}
    (grown : symbols'.declared = symbols.declared ++ [v]) : symbols.declare v = .ok symbols' := by
  refine declare_eq_ok.2 ⟨fun taken => ?_, grown⟩
  have distinct := symbols'.distinct
  rw [grown, List.map_append] at distinct
  exact (List.nodup_append.1 distinct).2.2 _ taken _ List.mem_cons_self rfl

/-- The variables of a section are declared one after another. -/
theorem Declarations.of_variables {category : Category} {v : Variable} {rest : List Variable}
    (chain : (v :: rest).IsChain fun v w => v.category = w.category) (first : v.category = category)
    (each : ∀ w ∈ v :: rest, w.Declarable) {symbols symbols' : SymbolTable}
    (grown : symbols'.declared = symbols.declared ++ v :: rest) :
    Declarations category symbols (Variable.listWords (v :: rest) ++ [.char ';']) symbols' := by
  have entry := (each v List.mem_cons_self).declaration
  rw [first] at entry
  induction rest generalizing v symbols with
  | nil => exact .last entry (SymbolTable.declare_of_append grown)
  | cons w rest ih =>
      obtain ⟨between, declared, grown⟩ := SymbolTable.exists_between
        (show symbols'.declared = symbols.declared ++ ([v] ++ w :: rest) from grown)
      obtain ⟨same, chain⟩ := List.isChain_cons_cons.1 chain
      have each' := (List.forall_mem_cons.1 each).2
      have entry' := (each' w List.mem_cons_self).declaration
      rw [← same, first] at entry'
      have later := ih chain (same.symm.trans first) each' grown entry'
      rw [Variable.listWords, List.append_assoc]
      · exact .more entry (SymbolTable.declare_of_append declared) later
      · exact List.cons_ne_nil w rest

/-- Sections declare their variables. -/
theorem Sections.of_blocks {word : Category → String}
    (spelled : ∀ c, sectionOf? (word c) = some c) {blocks : List (List Variable)}
    (some : [] ∉ blocks)
    (chains : ∀ block ∈ blocks, block.IsChain fun v w => v.category = w.category)
    (each : ∀ v ∈ blocks.flatten, v.Declarable) {symbols symbols' : SymbolTable}
    (grown : symbols'.declared = symbols.declared ++ blocks.flatten) :
    Sections symbols (statementWords (blocks.map (Variable.blockWords word))) symbols' := by
  induction blocks generalizing symbols with
  | nil =>
      have same : symbols = symbols' := by
        rcases symbols with ⟨declared, _⟩
        rcases symbols' with ⟨declared', _⟩
        obtain rfl : declared' = declared := by simpa using grown
        rfl
      exact same ▸ .nil symbols
  | cons block blocks ih =>
      -- The first section declares up to where its block ends, and the others go on from there.
      obtain ⟨between, declared, grown⟩ := SymbolTable.exists_between grown
      obtain ⟨chain, chains⟩ := List.forall_mem_cons.1 chains
      rw [List.flatten_cons, List.forall_mem_append] at each
      have later := ih (List.not_mem_of_not_mem_cons some) chains each.2 grown
      cases block with
      | nil => exact absurd List.mem_cons_self some
      | cons v rest =>
          exact .cons (spelled v.category) (.of_variables chain rfl each.1 declared) later

/-- The words of a heading declare its variables. -/
theorem Sections.of_table {word : Category → String}
    (spelled : ∀ c, sectionOf? (word c) = some c) {symbols : SymbolTable}
    (each : ∀ v ∈ symbols.declared, v.Declarable) :
    Sections .empty (Variable.headingWords word symbols.declared) symbols := by
  have whole := Variable.flatten_blocks symbols.declared
  have chains : ∀ block ∈ Variable.blocks symbols.declared,
      block.IsChain fun v w => v.category = w.category := fun block member =>
    (List.isChain_of_mem_splitBy member).imp fun _ _ => of_decide_eq_true
  exact .of_blocks spelled (List.nil_notMem_splitBy _ _) chains (whole.symm ▸ each) whole.symm

/-! What the text says. -/

theorem Variable.Declarable.speaks {v : Variable} (h : v.Declarable) : Speaks v.text v.words := by
  have name := Speaks.name h.shaped
  have index := Speaks.number v.index
  by_cases timed : v.category = .monoflop
  · have opens : Parts "(" [.char '('] :=
      ⟨by decide, fun _ => stops_cons (by decide), fun h => h.sign (by decide)⟩
    have closes : Parts ")=" [.char ')', .assignment .assign] :=
      ⟨by decide, fun _ => stops_cons (by decide), fun h => h.assign.sign (c := ')') (by decide)⟩
    have whole := (name.between opens (.seconds (2 * v.time))).between closes index
    rwa [text, words, if_pos timed, if_pos timed]
  · have sign : Parts "=" [.assignment .assign] :=
      ⟨by decide, fun _ => stops_cons (by decide), fun h => h.assign⟩
    rw [text, words, if_neg timed, if_neg timed]
    exact name.between sign index

theorem Variable.speaks_listText {v : Variable} {rest : List Variable}
    (each : ∀ w ∈ v :: rest, w.Declarable) :
    Speaks (listText (v :: rest)) (listWords (v :: rest)) := by
  have comma : Parts ", " [.char ','] :=
    ⟨by decide, fun _ => stops_cons (by decide), fun h => h.blank.sign (c := ',') (by decide)⟩
  induction rest generalizing v with
  | nil => exact (each v List.mem_cons_self).speaks
  | cons w rest ih =>
      obtain ⟨here, there⟩ := List.forall_mem_cons.1 each
      exact here.speaks.between comma (ih there)

theorem wordShaped_of_sectionOf? {name : String} {c : Category} (h : sectionOf? name = some c) :
    WordShaped name := by
  have shaped : ∀ entry ∈ sectionWords, WordShaped entry.1 := by
    intro entry member
    simp only [sectionWords, List.mem_cons, List.not_mem_nil, or_false] at member
    rcases member with rfl | rfl | rfl | rfl | rfl <;> exact ⟨_, _, rfl, by decide, by decide⟩
  obtain ⟨entry, found, -⟩ := Option.map_eq_some_iff.1 h
  have same : sameWord name entry.1 = true := by simpa using List.find?_some found
  exact (shaped entry (List.mem_of_find?_eq_some found)).of_sameWord same

theorem Variable.speaks_blockText {word : Category → String}
    (spelled : ∀ c, sectionOf? (word c) = some c) {v : Variable} {rest : List Variable}
    (each : ∀ w ∈ v :: rest, w.Declarable) :
    Speaks (blockText word (v :: rest)) (blockWords word (v :: rest)) := by
  have colon : Parts ": " [.char ':'] :=
    ⟨by decide, fun _ => stops_cons (by decide), fun h => h.blank.sign (c := ':') (by decide)⟩
  exact (Speaks.name (wordShaped_of_sectionOf? (spelled v.category))).between colon
    (speaks_listText each)

/-- The text of the sections of some variables makes up their words. -/
theorem Variable.speaks_blocks {word : Category → String}
    (spelled : ∀ c, sectionOf? (word c) = some c) {vs : List Variable}
    (each : ∀ v ∈ vs, v.Declarable) :
    List.Forall₂ Speaks ((blocks vs).map (blockText word)) ((blocks vs).map (blockWords word)) := by
  rw [List.forall₂_map_left_iff, List.forall₂_map_right_iff, List.forall₂_same]
  intro block member
  cases block with
  | nil => exact absurd member (List.nil_notMem_splitBy _ _)
  | cons v rest =>
      refine speaks_blockText spelled fun w inside => each w ?_
      rw [← flatten_blocks vs]
      exact List.mem_flatten_of_mem member inside

theorem Source.program_of_sections {s : Source} {words : List Token} {symbols : SymbolTable}
    (said : s.HasWords words) (sections : Sections .empty words symbols) :
    s.program = .ok ⟨symbols, [], 0⟩ := by
  obtain ⟨rfl, last, finished⟩ := said
  have heading := sections.read_finished last ⟨s.tape.tokens, (List.append_nil _).symm, rfl⟩
  rw [program, Tape.program, finished]
  exact readProgram_eq_ok.2 (.inl ⟨symbols, heading, rfl⟩)

theorem Source.listing_of_sections {s : Source} {words : List Token} {symbols : SymbolTable}
    (said : s.HasWords words) (sections : Sections .empty words symbols) :
    s.listing = .ok ⟨symbols, []⟩ :=
  listing_eq_ok.2 ⟨words, said, .finished sections⟩

/-- Declarations come back from their text. Whatever way its words are laid out, both languages read
the table of the variables in their order, and nothing else. -/
theorem Source.declarations_round_trip {word : Category → String}
    (spelled : ∀ c, sectionOf? (word c) = some c) {vs : List Variable}
    (distinct : (vs.map Variable.name).Nodup) (each : ∀ v ∈ vs, v.Declarable) :
    ∃ symbols : SymbolTable, symbols.declared = vs ∧
      (∀ v ∈ vs, symbols.find? v.name = some v) ∧
      (∀ s : Source, s.HasWords (Variable.headingWords word vs) →
        s.program = .ok ⟨symbols, [], 0⟩ ∧ s.listing = .ok ⟨symbols, []⟩) ∧
      ∀ name, (ofString name (Variable.headingText word vs)).program = .ok ⟨symbols, [], 0⟩ ∧
        (ofString name (Variable.headingText word vs)).listing = .ok ⟨symbols, []⟩ := by
  let symbols : SymbolTable := ⟨vs, distinct⟩
  have sections := @Sections.of_table word spelled symbols each
  have read (s : Source) (said : s.HasWords (Variable.headingWords word vs)) :
      s.program = .ok ⟨symbols, [], 0⟩ ∧ s.listing = .ok ⟨symbols, []⟩ :=
    ⟨program_of_sections said sections, listing_of_sections said sections⟩
  refine ⟨symbols, rfl, fun v member => SymbolTable.find?_eq_some_iff.2 ⟨member, rfl⟩, read, ?_⟩
  exact fun name => read _ (hasWords_statements (Variable.speaks_blocks spelled each) name)

/-- The words of sections in small letters. -/
def Category.plural : Category → String
  | input => "inputs"
  | output => "outputs"
  | monoflop => "monoflops"
  | flag => "flags"

theorem Category.sectionOf?_plural (c : Category) : sectionOf? c.plural = some c := by
  cases c <;> decide

/-- Variables of three categories, some with the names of reserved words. -/
def reservedNames : List Variable :=
  [.plain "inputs" .input 0, .plain "read" .input 4294967295, ⟨"s", .monoflop, 7, 65535⟩,
    ⟨"Timer", .monoflop, 7, 0⟩, .plain "_1" .input 0]

example : Variable.headingText Category.plural reservedNames =
    "inputs: inputs=0, read=4294967295;\n" ++ "monoflops: s(131070s)=7, Timer(0s)=7;\n" ++
      "inputs: _1=0;\n" := by
  decide

theorem declarations_round_trip_reservedNames :
    (∀ c, sectionOf? (Category.plural c) = some c) ∧ (reservedNames.map Variable.name).Nodup ∧
      (∀ v ∈ reservedNames, v.Declarable) ∧
      ∃ symbols : SymbolTable, symbols.declared = reservedNames ∧
        (Source.ofString "reserved" (Variable.headingText Category.plural reservedNames)).listing =
          .ok ⟨symbols, []⟩ := by
  have distinct : (reservedNames.map Variable.name).Nodup := by decide
  have each : ∀ v ∈ reservedNames, v.Declarable := by
    intro v member
    simp only [reservedNames, List.mem_cons, List.not_mem_nil, or_false] at member
    rcases member with rfl | rfl | rfl | rfl | rfl <;>
      exact ⟨⟨_, _, rfl, by decide, by decide⟩, by decide, by decide, by decide⟩
  obtain ⟨symbols, same, -, -, read⟩ :=
    Source.declarations_round_trip Category.sectionOf?_plural distinct each
  exact ⟨Category.sectionOf?_plural, distinct, each, symbols, same, (read "reserved").2⟩

end RelayLogic
