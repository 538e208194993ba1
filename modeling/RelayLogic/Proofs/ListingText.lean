import RelayLogic.Proofs.DeclarationText
import RelayLogic.Proofs.ListingCode

/-! Listings printed and read back. A line is printed as its mnemonic, in any letter case, and its
argument, and the lines are printed behind the sections of the variables. The text is read as the
listing that was printed, and every listing that is read from any text can be printed so. -/
namespace RelayLogic

/-- Whether a line can stand where the variables of a table are declared: its argument is one of
them, in a category that its mnemonic takes, and nothing but an argument is inverted. -/
inductive Line.Stands (symbols : SymbolTable) : Line → Prop
  | alone {m : Mnemonic} : m.requiresArgument = false → Stands symbols ⟨m, none, false⟩
  | argument {m : Mnemonic} {v : Variable} {inverted : Bool} : m.Takes symbols v →
      Stands symbols ⟨m, some v, inverted⟩

/-- Whether a listing can be printed. -/
structure Listing.Printable (l : Listing) : Prop where
  declarable : ∀ v ∈ l.symbols.declared, v.Declarable
  stands : ∀ line ∈ l.lines, line.Stands l.symbols

namespace Line

/-- What stands behind the mnemonic of a line. -/
def argumentWords (line : Line) : List Token :=
  match line.argument with
  | none => []
  | some v => if line.inverted then [.char '!', .ident v.name] else [.ident v.name]

def argumentText (line : Line) : String :=
  match line.argument with
  | none => ""
  | some v => (if line.inverted then " !" else " ") ++ v.name

/-- The words of a line whose mnemonic is spelled in some way, up to its semicolon. -/
def words (name : String) (line : Line) : List Token := .ident name :: line.argumentWords

def text (name : String) (line : Line) : String := name ++ line.argumentText

/-- The words of lines, each with the spelling of its mnemonic. -/
def listWords (lines : List (String × Line)) : List Token :=
  statementWords (lines.map fun line => line.2.words line.1)

def listText (lines : List (String × Line)) : String :=
  statements (lines.map fun line => line.2.text line.1)

end Line

/-! Lines that are printed are read. -/

theorem Mnemonic.ofName?_of_sameWord {name : String} {m : Mnemonic}
    (same : sameWord m.name name = true) : ofName? name = some m := by
  have alike : m.name.toList.map Char.toLower = name.toList.map Char.toLower := by
    simpa [sameWord] using same
  simp only [ofName?, sameWord, ← alike]
  cases m <;> rfl

theorem wordShaped_of_sameWord {name : String} {m : Mnemonic}
    (same : sameWord m.name name = true) : WordShaped name := by
  have shaped : WordShaped m.name := by
    cases m <;> exact ⟨_, _, rfl, by decide, by decide⟩
  have alike : sameWord name m.name = true := by simpa [sameWord, eq_comm] using same
  exact shaped.of_sameWord alike

/-- The words of a line are those of its mnemonic and others that complete it. -/
theorem Line.Stands.written {symbols : SymbolTable} {line : Line} (h : line.Stands symbols) :
    Written symbols line.mnemonic false (line.argumentWords ++ [.char ';']) line := by
  cases h with
  | alone free => exact .alone free
  | @argument m v inverted takes =>
      cases inverted with
      | true => exact .inverted takes
      | false => exact .argument takes

/-- Lines behind sections make up a listing. -/
theorem Lists.of_lines {symbols between : SymbolTable} {heading : List Token}
    (sections : Sections symbols heading between) {lines : List (String × Line)}
    (each : ∀ line ∈ lines, sameWord line.2.mnemonic.name line.1 = true ∧ line.2.Stands between) :
    Lists symbols (heading ++ Line.listWords lines) ⟨between, lines.map Prod.snd⟩ := by
  induction lines generalizing symbols heading with
  | nil =>
      rw [Line.listWords, List.map_nil, statementWords, List.flatMap_nil, List.append_nil]
      exact .finished sections
  | cons line lines ih =>
      -- All sections stand before the first line, and none before the others.
      obtain ⟨⟨spelled, stands⟩, others⟩ := List.forall_mem_cons.1 each
      have rest := ih (.nil between) others
      exact .line sections (Mnemonic.ofName?_of_sameWord spelled) stands.written rest

theorem Line.speaks {symbols : SymbolTable} {name : String} (shaped : WordShaped name) {line : Line}
    (stands : line.Stands symbols) (declarable : ∀ v ∈ symbols.declared, v.Declarable) :
    Speaks (line.text name) (line.words name) := by
  have spoken := Speaks.name shaped
  cases stands with
  | alone =>
      rw [text, argumentText, String.append_empty]
      exact spoken
  | @argument m v inverted takes =>
      have argument := Speaks.name (declarable v takes.mem).shaped
      have blank : Parts " " [] := ⟨by decide, fun _ => stops_cons (by decide), fun h => h.blank⟩
      have bang : Parts " !" [.char '!'] :=
        ⟨by decide, fun _ => stops_cons (by decide), fun h => (h.sign (by decide)).blank⟩
      cases inverted with
      | true =>
          have whole := spoken.between bang argument
          rwa [String.append_assoc] at whole
      | false =>
          have whole := spoken.between blank argument
          rwa [String.append_assoc] at whole

theorem Line.speaks_lines {symbols : SymbolTable} {lines : List (String × Line)}
    (each : ∀ line ∈ lines, sameWord line.2.mnemonic.name line.1 = true ∧ line.2.Stands symbols)
    (declarable : ∀ v ∈ symbols.declared, v.Declarable) :
    List.Forall₂ Speaks (lines.map fun line => line.2.text line.1)
      (lines.map fun line => line.2.words line.1) := by
  rw [List.forall₂_map_left_iff, List.forall₂_map_right_iff, List.forall₂_same]
  intro line member
  obtain ⟨same, stands⟩ := each line member
  exact speaks (wordShaped_of_sameWord same) stands declarable

/-! Every listing that is read can be printed. -/

theorem Declaration.declarable {category : Category} {v : Variable} {words : List Token}
    (h : Declaration category v words) (shaped : ∀ t ∈ words, t.Shaped) : v.Declarable := by
  obtain ⟨low, short⟩ := h.low
  refine ⟨shaped _ h.named, low, short, fun untimed => ?_⟩
  cases h with
  | plain => exact if_neg untimed
  | timed => exact absurd rfl untimed

theorem Written.stands {symbols : SymbolTable} {m : Mnemonic} {leading : Bool} {words : List Token}
    {line : Line} (h : Written symbols m leading words line) : line.Stands symbols := by
  cases h with
  | alone free => exact .alone free
  | argument takes | inverted takes => exact .argument takes

theorem Mnemonic.Takes.of_prefix {symbols symbols' : SymbolTable} {m : Mnemonic} {v : Variable}
    (h : m.Takes symbols v) (grown : symbols.declared <+: symbols'.declared) :
    m.Takes symbols' v :=
  ⟨SymbolTable.find?_eq_some_iff.2 ⟨grown.subset h.mem, rfl⟩, h.allowed⟩

theorem Line.Stands.of_prefix {symbols symbols' : SymbolTable} {line : Line}
    (h : line.Stands symbols) (grown : symbols.declared <+: symbols'.declared) :
    line.Stands symbols' := by
  cases h with
  | alone free => exact .alone free
  | argument takes => exact .argument (takes.of_prefix grown)

theorem Lists.stands {symbols : SymbolTable} {words : List Token} {l : Listing}
    (h : Lists symbols words l) : ∀ line ∈ l.lines, line.Stands l.symbols := by
  induction h with
  | finished => exact fun line member => by cases member
  | line _ _ written lists ih | leading _ written lists ih =>
      exact List.forall_mem_cons.2 ⟨written.stands.of_prefix lists.grows, ih⟩

theorem Source.printable_of_listing {s : Source} {l : Listing} (read : s.listing = .ok l) :
    l.Printable := by
  obtain ⟨words, ⟨rfl, -⟩, lists⟩ := listing_eq_ok.1 read
  refine ⟨fun v member => ?_, lists.stands⟩
  obtain ⟨own, inside, entry⟩ := (lists.written v member).resolve_left List.not_mem_nil
  exact entry.declarable fun t there => s.shaped_tokens t (inside.subset there)

/-- Listings come back from their text, whatever way its words are laid out, and all that are ever
read can be printed so. -/
theorem Source.listings_round_trip {word : Category → String}
    (spelled : ∀ c, sectionOf? (word c) = some c) :
    (∀ (symbols : SymbolTable) (lines : List (String × Line)),
      (⟨symbols, lines.map Prod.snd⟩ : Listing).Printable →
      (∀ line ∈ lines, sameWord line.2.mnemonic.name line.1 = true) →
      (∀ s : Source,
        s.HasWords (Variable.headingWords word symbols.declared ++ Line.listWords lines) →
          s.listing = .ok ⟨symbols, lines.map Prod.snd⟩) ∧
      ∀ name, (ofString name
        (Variable.headingText word symbols.declared ++ Line.listText lines)).listing =
          .ok ⟨symbols, lines.map Prod.snd⟩) ∧
    ∀ (s : Source) (l : Listing), s.listing = .ok l → l.Printable := by
  refine ⟨fun symbols lines printable same => ?_, fun s l => printable_of_listing⟩
  have each : ∀ line ∈ lines,
      sameWord line.2.mnemonic.name line.1 = true ∧ line.2.Stands symbols :=
    fun line member =>
      ⟨same line member, printable.stands line.2 (List.mem_map_of_mem member)⟩
  have lists := Lists.of_lines (.of_table spelled printable.declarable) each
  have read (s : Source)
      (said : s.HasWords (Variable.headingWords word symbols.declared ++ Line.listWords lines)) :
      s.listing = .ok ⟨symbols, lines.map Prod.snd⟩ := listing_eq_ok.2 ⟨_, said, lists⟩
  refine ⟨read, fun name => read _ ?_⟩
  have spoken := Line.speaks_lines each printable.declarable
  have heading := Variable.speaks_blocks spelled printable.declarable
  have whole := hasWords_statements (List.rel_append heading spoken) name
  rwa [statements_append, statementWords_append] at whole

/-- The lines of `pulse`, with small and capital letters mixed. -/
def pulseLines : List (String × Line) :=
  ["READ", "or", "Not", "set", "anD", "Write"].zip pulse.lines

example : Variable.headingText Category.plural pulse.symbols.declared ++ Line.listText pulseLines =
    "inputs: a=0;\nmonoflops: t(2s)=1;\noutputs: o=3;\n" ++
      "READ !a;\nor t;\nNot;\nset !t;\nanD !a;\nWrite o;\n" := by
  decide

theorem listings_round_trip_pulse :
    (∀ c, sectionOf? (Category.plural c) = some c) ∧ pulse.Printable ∧
      (∀ line ∈ pulseLines, sameWord line.2.mnemonic.name line.1 = true) ∧
      (Source.ofString "pulse" (Variable.headingText Category.plural pulse.symbols.declared ++
        Line.listText pulseLines)).listing = .ok pulse := by
  have same : ∀ line ∈ pulseLines, sameWord line.2.mnemonic.name line.1 = true := by decide
  obtain ⟨prints, reads⟩ := Source.listings_round_trip Category.sectionOf?_plural
  have printable : pulse.Printable := reads pulseText pulse listing_pulseText
  exact ⟨Category.sectionOf?_plural, printable, same,
    (prints pulse.symbols pulseLines printable same).2 "pulse"⟩

end RelayLogic
