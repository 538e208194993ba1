import Mathlib.Data.List.Induction
import Mathlib.Data.Nat.Digits.Defs
import RelayLogic.Token.Lexer

/-! Numbers as they are written. A number token has the digits that were scanned, and for its value
the number that they stand for, but that it wraps. This holds of every token of every source, up to
a line that cannot be read too, as all does that holds of the tokens of single scans. -/
namespace RelayLogic

/-- The number that decimal digits stand for. -/
def numeral (digits : List Char) : Nat :=
  Nat.ofDigits 10 (digits.map fun c => c.toNat - '0'.toNat).reverse

theorem numeral_append_singleton (digits : List Char) (c : Char) :
    numeral (digits ++ [c]) = numeral digits * 10 + (c.toNat - '0'.toNat) := by
  rw [numeral, List.map_append, List.map_singleton, List.reverse_append, List.reverse_singleton,
    List.singleton_append, Nat.ofDigits_cons, numeral, Nat.mul_comm, Nat.add_comm]

/-- The value that a number token is given is the number it stands for, but that it wraps. -/
theorem toNat_decimalValue (digits : List Char) :
    (decimalValue digits).toNat = numeral digits % 2 ^ 64 := by
  induction digits using List.reverseRecOn with
  | nil => rfl
  | append_singleton digits c ih =>
      have value : decimalValue (digits ++ [c]) =
          decimalValue digits * 10 + UInt64.ofNat (c.toNat - '0'.toNat) := by
        simp only [decimalValue, List.foldl_append, List.foldl_cons, List.foldl_nil]
      rw [value, numeral_append_singleton, UInt64.toNat_add, UInt64.toNat_mul, ih,
        UInt64.toNat_ofNat']
      change (numeral digits % 2 ^ 64 * 10 % 2 ^ 64 + _ % 2 ^ 64) % 2 ^ 64 = _
      omega

theorem Tape.mem_of_mem_tokens {last : Span} {lexemes : List Lexeme} {t : Located Token}
    (member : t ∈ (ofLexemes last lexemes).tokens) : .ok t ∈ lexemes := by
  fun_induction ofLexemes last lexemes with
  | case1 | case2 => cases member
  | case3 last u rest tape ih =>
      rcases List.mem_cons.1 member with rfl | later
      · exact List.mem_cons_self
      · exact List.mem_cons_of_mem _ (ih later)

/-! What holds of every token. A token is a slash alone, or is scanned as a word. -/

section

variable {P : Token → Prop}

/-- A scan that gives a token with a property, if it gives any. -/
def Scan.Gives (P : Token → Prop) (s : Scan) : Prop :=
  ∀ t span, s.found = some (.ok ⟨t, span⟩) → P t

theorem Scan.Gives.token {t : Token} (h : P t) (span : Span) (rest : List Item) :
    (Scan.token t span rest).Gives P := by
  rintro _ _ ⟨⟩
  exact h

theorem Scan.Gives.settled {t : Token} (h : P t) (span : Span) (rest : List Item) :
    (Scan.settled t span rest).Gives P := by
  unfold Scan.settled
  split
  · exact nofun
  · exact .token h span _

/-- Whether a property is one of the slash and of every token that is scanned as a word. -/
structure HoldsOfTokens (P : Token → Prop) : Prop where
  slash : P (.char '/')
  word : ∀ c p rest, (scanWord c p rest).Gives P

mutual

theorem gives_scan (h : HoldsOfTokens P) (here : Position) : ∀ items, (scan here items).Gives P
  | [] => by simp [scan, Scan.finished, Scan.Gives]
  | .unreadable _ :: rest => by simp [scan, Scan.unreadable, Scan.Gives]
  | .char c p :: rest => by
    unfold scan
    split
    · exact gives_scan h _ rest
    split
    · exact gives_scanSlash h p rest
    · exact h.word c p rest

theorem gives_scanSlash (h : HoldsOfTokens P) (start : Position) :
    ∀ items, (scanSlash start items).Gives P
  | [] => by
    unfold scanSlash
    exact .token h.slash _ _
  | .unreadable _ :: rest => by simp [scanSlash, Scan.unreadable, Scan.Gives]
  | .char c p :: rest => by
    unfold scanSlash
    split
    · exact gives_scanLine h _ rest
    split
    · exact gives_scanBlock h _ _ _ rest
    · exact .token h.slash _ _

theorem gives_scanLine (h : HoldsOfTokens P) (here : Position) :
    ∀ items, (scanLine here items).Gives P
  | [] => by simp [scanLine, Scan.finished, Scan.Gives]
  | .unreadable _ :: rest => by simp [scanLine, Scan.unreadable, Scan.Gives]
  | .char c p :: rest => by
    unfold scanLine
    split
    · exact gives_scan h _ rest
    · exact gives_scanLine h _ rest

theorem gives_scanBlock (h : HoldsOfTokens P) (start : Position) (star : Bool) (here : Position) :
    ∀ items, (scanBlock start star here items).Gives P
  | [] => by simp [scanBlock, Scan.Gives]
  | .unreadable _ :: rest => by simp [scanBlock, Scan.unreadable, Scan.Gives]
  | .char c p :: rest => by
    unfold scanBlock
    split
    · exact gives_scan h _ rest
    · exact gives_scanBlock h _ _ _ rest

end

theorem Cursor.gives_lexemes (h : HoldsOfTokens P) (c : Cursor) {t : Token} {span : Span}
    (member : .ok ⟨t, span⟩ ∈ c.lexemes) : P t := by
  fun_induction Cursor.lexemes c with
  | case1 => cases member
  | case2 c lexeme rest found ih =>
      rcases List.mem_cons.1 member with rfl | later
      · exact gives_scan h c.here c.items t span (congrArg Scan.found found)
      · exact ih later

theorem Source.gives_tokens (h : HoldsOfTokens P) (s : Source) :
    ∀ t ∈ s.tape.tokens.map Located.value, P t := by
  intro t member
  obtain ⟨located, there, rfl⟩ := List.mem_map.1 member
  exact s.cursor.gives_lexemes h (Tape.mem_of_mem_tokens there)

end

/-- A number token has the value of its digits. -/
def Token.Honest : Token → Prop
  | .integer value digits => value.toNat = numeral digits.toList % 2 ^ 64
  | _ => True

/-- A scan that gives an honest token, if it gives any. -/
def Scan.Honest (s : Scan) : Prop := ∀ t span, s.found = some (.ok ⟨t, span⟩) → t.Honest

theorem honest_scanWord (c : Char) (p : Position) (rest : List Item) :
    (scanWord c p rest).Honest := by
  change (scanWord c p rest).Gives Token.Honest
  unfold scanWord
  split
  · exact .token (by trivial) _ _
  split
  · split
    · exact .token (by trivial) _ _
    · exact .settled (by trivial) _ _
  split
  · refine .settled ?_ _ _
    rw [Token.Honest, String.toList_ofList, toNat_decimalValue]
  split
  · exact .settled (by trivial) _ _
  · exact .token (by trivial) _ _

theorem Cursor.honest_lexemes (c : Cursor) {t : Token} {span : Span}
    (member : .ok ⟨t, span⟩ ∈ c.lexemes) : t.Honest :=
  c.gives_lexemes ⟨by trivial, honest_scanWord⟩ member

theorem Source.honest_tokens (s : Source) : ∀ t ∈ s.tape.tokens.map Located.value, t.Honest :=
  s.gives_tokens ⟨by trivial, honest_scanWord⟩

end RelayLogic
