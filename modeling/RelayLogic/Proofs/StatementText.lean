import RelayLogic.Proofs.FormulaText

/-! Texts of statements, one in a line. Where each statement makes up its words, the text makes up
the words of all of them, a semicolon behind each. -/
namespace RelayLogic

/-! Numbers as they are printed. -/

/-- The token of a number that is printed. -/
def Token.number (n : Nat) : Token := .integer (UInt64.ofNat n) n.repr

theorem numeral_eq_ofDigitChars (digits : List Char) :
    numeral digits = Nat.ofDigitChars 10 digits 0 := by
  induction digits using List.reverseRecOn with
  | nil => rfl
  | append_singleton digits c ih =>
      rw [numeral_append_singleton, ih, Nat.ofDigitChars_append, Nat.ofDigitChars_cons,
        Nat.mul_comm]
      rfl

theorem numeral_repr (n : Nat) : numeral n.repr.toList = n := by
  rw [numeral_eq_ofDigitChars, Nat.toList_repr, Nat.ofDigitChars_ten_toDigits]

theorem decimalValue_repr (n : Nat) : decimalValue n.repr.toList = UInt64.ofNat n := by
  refine UInt64.toNat_inj.1 ?_
  rw [toNat_decimalValue, numeral_repr, UInt64.toNat_ofNat']

theorem isDigit_of_mem_repr {n : Nat} {c : Char} (h : c ∈ n.repr.toList) : c.isDigit = true := by
  rw [Nat.toList_repr] at h
  exact Nat.isDigit_of_mem_toDigits (by decide) (by decide) h

theorem Munches.number (n : Nat) {rest : List Char} (stops : Stops Char.isDigit rest) :
    Munches (.number n) n.repr.toList rest := by
  have some : n.repr.toList ≠ [] := by
    rw [Nat.toList_repr]
    exact Nat.toDigits_ne_nil
  obtain ⟨c, digits, spelled⟩ := List.exists_cons_of_ne_nil some
  have digit : ∀ d ∈ c :: digits, d.isDigit = true := fun d inside =>
    isDigit_of_mem_repr (spelled ▸ inside)
  obtain ⟨first, others⟩ := List.forall_mem_cons.1 digit
  have munches := Munches.integer first (List.all_eq_true.2 others) stops
  rwa [← spelled, decimalValue_repr, String.ofList_toList] at munches

theorem Lexes.number {rest : List Char} {words : List Token} (n : Nat)
    (stops : Stops Char.isDigit rest) (h : Lexes rest words) :
    Lexes (n.repr.toList ++ rest) (.number n :: words) :=
  .token (.stop _) (.number n stops) h

theorem isDigit_of_not_isWordChar {c : Char} (h : isWordChar c = false) : c.isDigit = false := by
  simp only [isWordChar, Char.isAlphanum, Bool.or_eq_false_iff] at h
  exact h.1.2

theorem Speaks.number (n : Nat) : Speaks n.repr [.number n] := by
  refine ⟨fun inside => ?_, fun stops behind => behind.number n fun c first => ?_⟩
  · have digit := isDigit_of_mem_repr inside
    revert digit
    decide
  · exact isDigit_of_not_isWordChar (stops c first)

/-- An amount of seconds, as it is printed. -/
theorem Speaks.seconds (n : Nat) : Speaks (n.repr ++ "s") [.number n, .ident "s"] := by
  have unit : WordShaped "s" := ⟨'s', [], rfl, by decide, rfl⟩
  refine ⟨by simpa using (Speaks.number n).oneLine, fun stops behind => ?_⟩
  rw [String.toList_append, List.append_assoc]
  refine (behind.name unit stops).number n fun c first => ?_
  rw [← Option.some.inj first]
  decide

/-! Words in any letter case. -/

theorem isWordStart_toLower (c : Char) : isWordStart c.toLower = isWordStart c := by
  by_cases upper : c.isUpper = true
  · have letter : c.isAlpha = true := by rw [Char.isAlpha, upper, Bool.true_or]
    simp only [isWordStart, Char.isAlpha_toLower_eq_isAlpha, letter, Bool.true_or]
  · rw [Char.toLower_eq_of_not_isUpper upper]

theorem isWordChar_toLower (c : Char) : isWordChar c.toLower = isWordChar c := by
  by_cases upper : c.isUpper = true
  · have letter : c.isAlpha = true := by rw [Char.isAlpha, upper, Bool.true_or]
    simp only [isWordChar, Char.isAlphanum, Char.isAlpha_toLower_eq_isAlpha, letter, Bool.true_or]
  · rw [Char.toLower_eq_of_not_isUpper upper]

/-- Letter case does not matter for the shape of a word. -/
theorem WordShaped.of_sameWord {name word : String} (same : sameWord name word = true)
    (h : WordShaped word) : WordShaped name := by
  obtain ⟨d, word', spelled, start, all⟩ := h
  have alike : name.toList.map Char.toLower = word.toList.map Char.toLower := by
    simpa [sameWord] using same
  rw [spelled, List.map_cons] at alike
  obtain ⟨c, rest, spelled', first, others⟩ := List.map_eq_cons_iff.1 alike
  refine ⟨c, rest, spelled', ?_, ?_⟩
  · rw [← isWordStart_toLower, first, isWordStart_toLower, start]
  · have kinds := congrArg (List.all · isWordChar) others
    simpa [List.all_map, Function.comp_def, isWordChar_toLower, all] using kinds

/-! Statements in their lines. -/

/-- Statements as a text, each in a line of its own with a semicolon behind it. -/
def statements (bodies : List String) : String := String.join (bodies.map (· ++ ";\n"))

/-- The words of statements, a semicolon behind each. -/
def statementWords (spoken : List (List Token)) : List Token := spoken.flatMap (· ++ [.char ';'])

theorem statements_append (bodies bodies' : List String) :
    statements (bodies ++ bodies') = statements bodies ++ statements bodies' := by
  rw [statements, List.map_append, String.join_append]
  rfl

theorem statementWords_append (spoken spoken' : List (List Token)) :
    statementWords (spoken ++ spoken') = statementWords spoken ++ statementWords spoken' :=
  List.flatMap_append

theorem readable_statement {body : String} (oneLine : '\n' ∉ body.toList) (rest : List Char) :
    readable ((body ++ ";\n").toList ++ rest) = body.toList ++ ';' :: '\n' :: readable rest := by
  have line : '\n' ∉ body.toList ++ [';'] := by simpa using oneLine
  have split : (body ++ ";\n").toList ++ rest = (body.toList ++ [';']) ++ '\n' :: rest := by simp
  have kept : dropLastReturn (body.toList ++ [';']) = body.toList ++ [';'] := by
    rw [dropLastReturn, List.getLast?_concat, if_neg (by decide)]
  rw [split, readable_line line, kept, List.append_assoc]
  rfl

/-- Statements make up their words one after another. -/
theorem Lexes.statements {bodies : List String} {spoken : List (List Token)}
    (speaks : List.Forall₂ Speaks bodies spoken) :
    Lexes (readable (RelayLogic.statements bodies).toList) (statementWords spoken) := by
  induction speaks with
  | nil => exact .finished (.stop [])
  | @cons body words bodies spoken here _ ih =>
      -- The line feed that ends a statement is a blank before the next one.
      have behind := ih.after_skip (.blank (c := '\n') (by decide) (.stop _))
      have all := here.lexes (stops_cons (by decide)) (behind.sign (c := ';') (by decide))
      rw [RelayLogic.statements, List.map_cons, String.join_cons, String.toList_append,
        readable_statement here.oneLine, statementWords, List.flatMap_cons, List.append_assoc]
      exact all

theorem Source.hasWords_statements {bodies : List String} {spoken : List (List Token)}
    (speaks : List.Forall₂ Speaks bodies spoken) (name : String) :
    (ofString name (statements bodies)).HasWords (statementWords spoken) :=
  hasWords_ofString.2 (.statements speaks)

end RelayLogic
