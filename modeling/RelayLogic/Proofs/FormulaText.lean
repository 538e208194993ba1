import RelayLogic.Proofs.Formula
import RelayLogic.Proofs.StatementGrammar
import RelayLogic.Proofs.TextGrowth

/-! Formulas from their text to their value. A formula is written behind declarations as the
equation of a variable. The text is accepted, the tree that is read compiles, and running its code
gives the value of the formula. -/
namespace RelayLogic

namespace Joiner

def text : Joiner → String
  | or => " | "
  | and => " & "

end Joiner

namespace Formula

/-- The text of a formula in a context of some strength. -/
def render (grouped : Bool) (f : Formula) (context : Nat) : String :=
  match f with
  | var v => v.name
  | not f => "!" ++ f.render grouped 2
  | join f sign g =>
    let text := f.render grouped sign.level ++ sign.text ++ g.render grouped sign.level
    if bracketed grouped context sign then "(" ++ text ++ ")" else text

end Formula

section

variable {rest : List Char} {words : List Token}

theorem stops_cons {c : Char} (h : isWordChar c = false) : Stops isWordChar (c :: rest) := by
  intro d first
  rwa [← Option.some.inj first]

theorem Lexes.blank (h : Lexes rest words) : Lexes (' ' :: rest) words :=
  h.after_skip (.blank (by decide) (.stop rest))

theorem Lexes.name {name : String} (shaped : WordShaped name) (stops : Stops isWordChar rest)
    (h : Lexes rest words) : Lexes (name.toList ++ rest) (.ident name :: words) := by
  obtain ⟨c, word, same, start, all⟩ := shaped
  obtain rfl := String.toList_inj.1 (same.trans String.toList_ofList.symm)
  rw [String.toList_ofList]
  exact .token (.stop _) (.ident start all stops) h

/-- The signs that are tokens by themselves. -/
theorem Lexes.sign {c : Char} (h : Lexes rest words)
    (mem : c ∈ ['!', '(', ')', '&', '|', ';', ',', ':']) : Lexes (c :: rest) (.char c :: words) := by
  have alone : isBlank c = false ∧ c ∉ ['/', '=', '+', '-'] ∧ c.isDigit = false ∧
      isWordStart c = false := by
    simp only [List.mem_cons, List.not_mem_nil, or_false] at mem
    rcases mem with rfl | rfl | rfl | rfl | rfl | rfl | rfl | rfl <;> decide
  obtain ⟨black, noSign, noDigit, noStart⟩ := alone
  have munches : Munches (.char c) [c] rest := .other rest black noSign noDigit noStart
  exact .token (.stop _) munches h

theorem Lexes.assign (h : Lexes rest words) : Lexes ('=' :: rest) (.assignment .assign :: words) :=
  .token (.stop _) (.assign rest) h

end

theorem WordShaped.lineFeed_not_mem {name : String} (shaped : WordShaped name) :
    '\n' ∉ name.toList := by
  obtain ⟨c, word, same, start, all⟩ := shaped
  rw [same]
  have munches : Munches _ (c :: word) [] := .ident start all nofun
  exact munches.lineFeed_not_mem

/-- What parts two texts: it begins with no character of a word, and makes up these words before
anything. -/
structure Parts (text : String) (spoken : List Token) : Prop where
  oneLine : '\n' ∉ text.toList
  stops : ∀ rest : List Char, Stops isWordChar (text.toList ++ rest)
  lexes : ∀ {rest : List Char} {words : List Token}, Lexes rest words →
    Lexes (text.toList ++ rest) (spoken ++ words)

theorem Joiner.parts (sign : Joiner) : Parts sign.text [sign.token] := by
  cases sign with
  | or => exact ⟨by decide, fun _ => stops_cons (by decide),
      fun h => (h.blank.sign (c := '|') (by decide)).blank⟩
  | and => exact ⟨by decide, fun _ => stops_cons (by decide),
      fun h => (h.blank.sign (c := '&') (by decide)).blank⟩

/-- A text within a line makes up these words before anything that continues no word. -/
structure Speaks (text : String) (spoken : List Token) : Prop where
  oneLine : '\n' ∉ text.toList
  lexes : ∀ {rest : List Char} {words : List Token}, Stops isWordChar rest → Lexes rest words →
    Lexes (text.toList ++ rest) (spoken ++ words)

namespace Speaks

variable {text text' : String} {spoken spoken' : List Token}

theorem name {name : String} (shaped : WordShaped name) : Speaks name [.ident name] :=
  ⟨shaped.lineFeed_not_mem, fun stops behind => behind.name shaped stops⟩

theorem inverted (h : Speaks text spoken) : Speaks ("!" ++ text) (.char '!' :: spoken) := by
  refine ⟨by simp [h.oneLine], fun stops behind => ?_⟩
  rw [String.toList_append, List.append_assoc]
  exact (h.lexes stops behind).sign (by decide)

theorem enclosed (h : Speaks text spoken) :
    Speaks ("(" ++ text ++ ")") (.char '(' :: (spoken ++ [.char ')'])) := by
  refine ⟨by simp [h.oneLine], fun stops behind => ?_⟩
  have inner := h.lexes (stops_cons (by decide)) (behind.sign (c := ')') (by decide))
  have all := inner.sign (c := '(') (by decide)
  simp only [String.toList_append, List.append_assoc, List.cons_append]
  exact all

theorem between (h : Speaks text spoken) {sep : String} {signs : List Token}
    (parts : Parts sep signs) (h' : Speaks text' spoken') :
    Speaks (text ++ sep ++ text') (spoken ++ (signs ++ spoken')) := by
  refine ⟨by simp [h.oneLine, h'.oneLine, parts.oneLine], fun stops behind => ?_⟩
  have later := parts.lexes (h'.lexes stops behind)
  simp only [String.toList_append, List.append_assoc]
  exact h.lexes (parts.stops _) later

theorem join (sign : Joiner) (h : Speaks text spoken) (h' : Speaks text' spoken') :
    Speaks (text ++ sign.text ++ text') (spoken ++ sign.token :: spoken') :=
  h.between sign.parts h'

end Speaks

/-- The text of a formula makes up the words of its phrase. -/
theorem Formula.speaks_render (grouped : Bool) {f : Formula} (context : Nat)
    (shaped : ∀ v ∈ f.atoms, WordShaped v.name) :
    Speaks (f.render grouped context) (f.phrase grouped context).words := by
  induction f generalizing context with
  | var v => exact .name (shaped v (List.mem_singleton_self v))
  | not f ih =>
      have inner := ih 2 shaped
      rw [phrase_two] at inner
      exact inner.inverted
  | join f sign g ih ih' =>
      have left := ih sign.level fun v here => shaped v (List.mem_append_left _ here)
      have right := ih' sign.level fun v here => shaped v (List.mem_append_right _ here)
      have joined := left.join sign right
      rw [← Phrase.words_append] at joined
      cases closed : bracketed grouped context sign with
      | true =>
          simp only [render, phrase, closed, if_true]
          exact joined.enclosed
      | false =>
          simp only [render, phrase, closed, Bool.false_eq_true, if_false]
          exact joined

/-- The text of the equation of a variable, around the text of an expression. -/
def equationText (target : Variable) (body : String) : String := target.name ++ " = " ++ body ++ ";"

section

variable {target : Variable} {body : String} {spoken : List Token}

theorem lineFeed_not_mem_equationText (shaped : WordShaped target.name)
    (oneLine : '\n' ∉ body.toList) : '\n' ∉ (equationText target body).toList := by
  simp [equationText, shaped.lineFeed_not_mem, oneLine]

theorem Speaks.lexes_equationText (h : Speaks body spoken) (shaped : WordShaped target.name) :
    Lexes (readable (equationText target body).toList)
      (.ident target.name :: .assignment .assign :: (spoken ++ [.char ';'])) := by
  have some : (equationText target body).toList ≠ [] := by simp [equationText]
  have last : Lexes ['\n'] [] := .finished (.blank (by decide) (.stop []))
  have ended := h.lexes (stops_cons (by decide)) (last.sign (c := ';') (by decide))
  have all := ended.blank.assign.blank.name shaped (stops_cons (by decide))
  rw [readable_last (lineFeed_not_mem_equationText shaped h.oneLine) some]
  simp only [equationText, String.toList_append, List.append_assoc]
  exact all

/-- An equation behind a text that ends with a semicolon, outside a comment, adds its words. -/
theorem Source.hasWords_append_equationText {name text : String} {words : List Token}
    (said : (ofString name text).HasWords words) (clear : endsInComment text = false)
    (last : ∀ t ∈ words.getLast?, t = .char ';') (shaped : WordShaped target.name)
    (speaks : Speaks body spoken) :
    (ofString name (text ++ equationText target body)).HasWords
      (words ++ .ident target.name :: .assignment .assign :: (spoken ++ [.char ';'])) := by
  refine hasWords_append said clear last (by simp [equationText]) ?_
    (speaks.lexes_equationText shaped)
  intro c first same
  exact lineFeed_not_mem_equationText shaped speaks.oneLine (List.mem_of_mem_head? (same ▸ first))

end

/-- The text of the equation that gives a variable the value of a formula. -/
def Formula.equation (grouped : Bool) (f : Formula) (target : Variable) : String :=
  target.name ++ " = " ++ f.render grouped 0 ++ ";"

theorem Source.hasWords_append_equation (grouped : Bool) {f : Formula} {target : Variable}
    {name text : String} {words : List Token} (said : (ofString name text).HasWords words)
    (clear : endsInComment text = false) (last : ∀ t ∈ words.getLast?, t = .char ';')
    (shaped : ∀ v ∈ target :: f.atoms, WordShaped v.name) :
    (ofString name (text ++ f.equation grouped target)).HasWords (words ++
      .ident target.name :: .assignment .assign :: ((f.phrase grouped 0).words ++ [.char ';'])) := by
  obtain ⟨here, there⟩ := List.forall_mem_cons.1 shaped
  exact hasWords_append_equationText said clear last here (Formula.speaks_render grouped 0 there)

/-- An equation behind sections is read as the one equation of a program. -/
theorem Source.program_of_equation {s : Source} {words : List Token} {symbols : SymbolTable}
    {phrase : Phrase} {target : Variable}
    (said : s.HasWords
      (words ++ .ident target.name :: .assignment .assign :: (phrase.words ++ [.char ';'])))
    (sections : Sections .empty words symbols) (declared : symbols.find? target.name = some target)
    (other : sectionOf? target.name = none) (fits : phrase.Fits symbols 0) :
    ∃ (q : Program) (e : Expression), s.program = .ok q ∧ q.symbols = symbols ∧
      q.equations = [(target, { e with assignment := .assign, owner := some target })] ∧
      e.unnumbered = phrase.tree := by
  let d : Statement := ⟨target, .assign, phrase⟩
  have whole : s.HasWords (words ++ [d].flatMap Statement.words) := by
    rwa [List.flatMap_singleton]
  have each : ∀ d' ∈ [d], d'.Fits symbols :=
    List.forall_mem_singleton.2 ⟨declared, other, fits⟩
  obtain ⟨q, read, same, made⟩ :=
    program_of_statements sections each (List.nodup_singleton target) whole
  obtain ⟨_, _, ⟨e, tree, rfl⟩, nothing, equations⟩ := List.forall₂_cons_left_iff.1 made
  rw [List.forall₂_nil_left_iff.1 nothing] at equations
  exact ⟨q, e, read, same, equations, tree⟩

/-- A formula over declared variables, behind declarations that end outside a comment, is read as
the equation of its target if at most 64 of the signs `!` and `(` stand inside each other. The tree
compiles, and on every stack of at least 131 places its code gives the value of the formula. -/
theorem Source.execute_formula {name declarations : String} {p : Program}
    (read : (ofString name declarations).program = .ok p) (bare : p.equations = [])
    (clear : endsInComment declarations = false) {target : Variable}
    (known : target ∈ p.symbols.declared) (other : sectionOf? target.name = none)
    {f : Formula} (within : ∀ v ∈ f.atoms, v ∈ p.symbols.declared) {grouped : Bool}
    (nested : f.nesting grouped 0 ≤ 64) :
    ∃ q e ops, (ofString name (declarations ++ f.equation grouped target)).program = .ok q ∧
      q.symbols = p.symbols ∧ q.equations = [(target, e)] ∧ e.code.toExcept = .ok ops ∧
      ∀ m : Memory, (∀ v ∈ f.atoms, v.index < m.cells v.category) →
        ∀ capacity, 131 ≤ capacity → (m.execute capacity ops).1 = .ok (f.value m.bitOf) := by
  obtain ⟨words, said, sections⟩ := sections_of_program read bare
  have shaped : ∀ v ∈ p.symbols.declared, WordShaped v.name := by
    intro v member
    have inside := (sections.named v member).resolve_left List.not_mem_nil
    exact (hasWords_ofString.1 said).wordShaped inside
  have found : ∀ v ∈ p.symbols.declared, p.symbols.find? v.name = some v :=
    fun v member => SymbolTable.find?_eq_some_iff.2 ⟨member, rfl⟩
  have fits : (f.phrase grouped 0).Fits p.symbols 0 :=
    Formula.fits_phrase (fun v inside => found v (within v inside)) (by rwa [Nat.zero_add])
  have named : ∀ v ∈ target :: f.atoms, WordShaped v.name := by
    intro v member
    rcases List.mem_cons.1 member with rfl | inside
    · exact shaped v known
    · exact shaped v (within v inside)
  obtain ⟨q, e, accepted, symbols, equations, tree⟩ :=
    program_of_equation (hasWords_append_equation grouped said clear sections.last named) sections
      (found target known) other fits
  have proper : e.Proper f.atoms (2 * maxNesting + 2) := by
    rw [← Group.proper_unnumbered, tree]
    exact Formula.proper_phrase within nested
  obtain ⟨ops, compiled, runs⟩ := (proper.owned .assign (some target)).execute (by decide)
  refine ⟨q, _, ops, accepted, symbols, equations, compiled, fun m cells capacity room => ?_⟩
  rw [runs m cells capacity room, Group.value_owned, ← e.value_unnumbered, tree,
    (f.value_phrase m.bitOf grouped 0).1]

/-- A text that declares three variables, and behind it `out = !(a | b) & a | b;`. -/
def declaringText : String := "inputs: a=0, b=1; outputs: out=0; "

def declaring : Program :=
  ⟨⟨[.plain "a" .input 0, .plain "b" .input 1, .plain "out" .output 0], by decide⟩, [], 0⟩

theorem program_declaringText :
    (Source.ofString "formula" declaringText).program = .ok declaring := by cbv

def mixedFormula : Formula :=
  let a := Formula.var (.plain "a" .input 0)
  let b := Formula.var (.plain "b" .input 1)
  .join (.join (.not (.join a .or b)) .and a) .or b

theorem execute_mixedFormula :
    endsInComment declaringText = false ∧ mixedFormula.nesting false 0 ≤ 64 ∧
      ∃ q e ops,
        (Source.ofString "formula" (declaringText ++ "out = !(a | b) & a | b;")).program = .ok q ∧
          q.symbols = declaring.symbols ∧ q.equations = [(.plain "out" .output 0, e)] ∧
          e.code.toExcept = .ok ops ∧
          (((Memory.fresh 2 1 0 0).put .input 1 true).execute 131 ops).1 = .ok true := by
  have clear : endsInComment declaringText = false := by decide
  have known : Variable.plain "out" .output 0 ∈ declaring.symbols.declared := by decide
  have within : ∀ v ∈ mixedFormula.atoms, v ∈ declaring.symbols.declared := by decide
  have nested : mixedFormula.nesting false 0 ≤ 64 := by decide
  obtain ⟨q, e, ops, read, symbols, equations, compiled, runs⟩ :=
    Source.execute_formula program_declaringText rfl clear known (by decide) within nested
  refine ⟨clear, nested, q, e, ops, read, symbols, equations, compiled, ?_⟩
  exact runs _ (by decide) 131 (Nat.le_refl 131)

end RelayLogic
