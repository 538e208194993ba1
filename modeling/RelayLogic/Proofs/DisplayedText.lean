import RelayLogic.Proofs.Display
import RelayLogic.Proofs.FormulaText

/-! Displayed equations as texts. What a tree that was read is displayed as makes up the words of its
phrase. So the text can be put behind declarations as an equation: it is accepted, and the tree that
is read then has the value of the first one and is displayed alike. -/
namespace RelayLogic

/-- The texts of terms with one sign between any two. -/
theorem Speaks.chain (sign : Joiner) {t : Term} {ts : List Term}
    (each : ∀ u ∈ t :: ts, Speaks u.render u.operand.words) :
    Speaks (sign.text.intercalate ((t :: ts).map Term.render))
      (Phrase.chain sign t.operand (ts.map Term.operand)).words := by
  induction ts generalizing t with
  | nil =>
      rw [List.map_singleton, String.intercalate_singleton]
      exact each t List.mem_cons_self
  | cons t' ts ih =>
      obtain ⟨first, others⟩ := List.forall_mem_cons.1 each
      rw [List.map_cons, List.map_cons, String.intercalate_cons_cons]
      exact first.join sign (ih others)

theorem Group.Plain.speaks_render {e : Expression} (h : e.Plain)
    (shaped : ∀ v ∈ e.leaves, WordShaped v.name) : Speaks (e.render true) e.phrase.words := by
  refine induction
    (fun e => (∀ v ∈ e.leaves, WordShaped v.name) → Speaks (e.render true) e.phrase.words)
    (fun t => (∀ v ∈ t.leaves, WordShaped v.name) → Speaks t.render t.operand.words)
    ?leaf ?group ?join h shaped
  case leaf =>
    intro inverted v shaped
    have name := Speaks.name (shaped v (List.mem_singleton_self v))
    cases inverted with
    | false =>
        rw [Term.render, if_neg Bool.false_ne_true, String.empty_append]
        exact name
    | true => exact name.inverted
  case group =>
    intro inverted g plain speaks shaped
    have inside := speaks shaped
    cases inverted with
    | true =>
        rw [Term.render_inverted plain.root.2]
        exact inside.enclosed.inverted
    | false =>
        have text : (Term.group false g).render = g.render false := String.empty_append
        rw [text, Group.render_below plain.root.2]
        change Speaks _ g.phrase.operand.words
        rcases plain.terms_eq with ⟨-, u, terms⟩ | ⟨_, u, u', us, -, terms⟩
        · rw [phrase_eq terms] at inside ⊢
          rw [terms]
          exact inside
        · rw [phrase_eq terms] at inside ⊢
          rw [terms, bracketIf, if_pos (by simp)]
          exact inside.enclosed
  case join =>
    intro e plain each shaped
    have speaks : ∀ t ∈ e.terms, Speaks t.render t.operand.words := by
      intro t member
      refine each t member fun v leaf => shaped v ?_
      rw [e.leaves_eq]
      exact Term.mem_leavesOfList.2 ⟨t, member, leaf⟩
    rw [Group.render_root plain.root.2]
    rcases plain.terms_eq with ⟨-, t, terms⟩ | ⟨sign, t, t', ts, operator, terms⟩
    · rw [phrase_eq terms, terms, List.map_singleton, String.intercalate_singleton]
      exact speaks t (terms ▸ List.mem_cons_self)
    · have same : sign.operator.sign = sign ∧ sign.operator.separator = sign.text := by
        cases sign <;> exact ⟨rfl, rfl⟩
      rw [phrase_eq terms, terms, operator, same.1, same.2]
      exact .chain sign (terms ▸ speaks)

/-- An equation of a program that is read, at most 32 levels deep, reads back from its own text
behind a text that declares the same variables and ends outside a comment. What is read has the
same value wherever the variables have values, and the same text. -/
theorem Source.program_of_display {source : Source} {p : Program} (read : source.program = .ok p)
    {v : Variable} {e : Expression} (member : (v, e) ∈ p.equations) (shallow : e.levels ≤ 32)
    {name declarations : String} {d : Program}
    (declares : (ofString name declarations).program = .ok d) (bare : d.equations = [])
    (same : d.symbols = p.symbols) (clear : endsInComment declarations = false) :
    ∃ q e', (ofString name (declarations ++ equationText v (e.render true))).program = .ok q ∧
      q.symbols = p.symbols ∧ q.equations = [(v, e')] ∧ (∀ s, e'.value s = e.value s) ∧
      e'.render true = e.render true := by
  have accepted := Source.accepted_program read
  obtain ⟨plain, other⟩ := Source.plain_of_program read (v, e) member
  obtain ⟨words, said, sections⟩ := sections_of_program declares bare
  rw [same] at sections
  have shaped : ∀ w ∈ p.symbols.declared, WordShaped w.name := by
    intro w declared
    have inside := (sections.named w declared).resolve_left List.not_mem_nil
    exact (hasWords_ofString.1 said).wordShaped inside
  have found : ∀ w ∈ p.symbols.declared, p.symbols.find? w.name = some w :=
    fun w declared => SymbolTable.find?_eq_some_iff.2 ⟨declared, rfl⟩
  have known : ∀ w ∈ e.leaves, w ∈ p.symbols.declared := (accepted.proper _ member).known
  have target : v ∈ p.symbols.declared := accepted.declared _ member
  have fits : e.phrase.Fits p.symbols 0 := by
    have room : 0 + 2 * e.levels ≤ maxNesting + 1 := by
      rw [maxNesting]
      omega
    exact plain.fits_phrase (fun w leaf => found w (known w leaf)) room
  have speaks := plain.speaks_render fun w leaf => shaped w (known w leaf)
  obtain ⟨q, e', accepts, symbols, equations, tree⟩ := program_of_equation
    (hasWords_append_equationText said clear sections.last (shaped v target) speaks) sections
    (found v target) other fits
  refine ⟨q, _, accepts, symbols, equations, fun s => ?_, ?_⟩
  · rw [Group.value_owned, ← e'.value_unnumbered, tree, plain.value_phrase]
  · rw [Group.render_owned, ← e'.render_unnumbered, tree, plain.render_phrase]

/-- An equation with parentheses around single operands, behind the declarations of its variables. -/
def layeredText : Source := .ofString "layered" (declaringText ++ "out += !((a | b)) & ((b));")

def layeredTree : Expression :=
  let a := Variable.plain "a" .input 0
  let b := Variable.plain "b" .input 1
  ⟨1, .and,
    [.group true ⟨2, .none, [.group false ⟨3, .or, [.leaf false a, .leaf false b], none, .assign⟩],
        none, .assign⟩,
      .group false ⟨4, .none, [.group false ⟨5, .none, [.leaf false b], none, .assign⟩], none,
        .assign⟩], some (.plain "out" .output 0), .set⟩

def layered : Program :=
  { declaring with equations := [(.plain "out" .output 0, layeredTree)], lastId := 5 }

set_option maxRecDepth 4000 in
theorem program_layeredText : layeredText.program = .ok layered := by cbv

/-- Its second term is read without the parentheses. -/
theorem program_of_display_layeredText :
    layeredText.program = .ok layered ∧ layeredTree.levels = 3 ∧
      layeredTree.render true = "!((a | b)) & b" ∧ endsInComment declaringText = false ∧
      ∃ q e', (Source.ofString "shown" (declaringText ++ "out = !((a | b)) & b;")).program = .ok q ∧
        q.symbols = declaring.symbols ∧ q.equations = [(.plain "out" .output 0, e')] ∧
        (∀ s, e'.value s = layeredTree.value s) ∧ e'.render true = "!((a | b)) & b" := by
  have clear : endsInComment declaringText = false := by decide
  have text : layeredTree.render true = "!((a | b)) & b" := by decide
  have declares : (Source.ofString "shown" declaringText).program = .ok declaring := by cbv
  obtain ⟨q, e', read, symbols, equations, value, shown⟩ :=
    Source.program_of_display program_layeredText (List.mem_singleton_self _) (by decide) declares
      rfl rfl clear
  exact ⟨program_layeredText, rfl, text, clear, q, e', read, symbols, equations, value,
    shown.trans text⟩

end RelayLogic
