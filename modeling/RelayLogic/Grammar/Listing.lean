import RelayLogic.Grammar.Declarations
import RelayLogic.Listing

/-! The language of listings. Each line is a mnemonic with an optional argument, and an inversion
stands before the mnemonic or before the argument. -/
namespace RelayLogic

/-- The argument of a line, if it has one, and the tokens that follow. The argument has to be
declared, in a category that the mnemonic takes. `inverted` tells whether there was an inversion
before. -/
def readArgument (symbols : SymbolTable) (m : Mnemonic) (place : Span) (inverted : Bool)
    (t : Located Token) : Except (Located ParseError) (Option Variable) :=
  let invalid (reason : ArgumentError) := (SemanticError.invalidArgument m reason).located place
  match t.value with
  | .ident name =>
    match symbols.lookup name with
    | .error e => .error (e.located t.span)
    | .ok v =>
      if m.allowed.allows v.category then .ok (some v)
      else .error (invalid (.notAllowed v.category name))
  | _ =>
    if m.requiresArgument then .error (invalid .missing)
    else if inverted then .error (invalid .nothingToInvert)
    else .ok none

/-- What follows a mnemonic up to the end of its line. The token after it is already known. -/
def readLineEnd (ending : Ending) (symbols : SymbolTable) (m : Mnemonic) (place : Span)
    (inverted : Bool) (t : Located Token) (ts : Tokens) :
    Except (Located ParseError) (Read Line (t :: ts)) := do
  match ← readArgument symbols m place inverted t with
  | some v =>
    let close ← readChar ending ';' .lineEnd ts
    return ⟨⟨m, some v, inverted⟩, close.rest, Nat.lt_succ_of_lt close.shorter⟩
  | none =>
    let close ← readChar ending ';' .lineEnd (t :: ts)
    return close.map fun _ => ⟨m, none, inverted⟩

/-- What follows the word that begins a line. `leading` tells whether an inversion stood before
it. -/
def readLine (ending : Ending) (symbols : SymbolTable) (name : Located String) (leading : Bool)
    (ts : Tokens) : Reading Line ts :=
  match Mnemonic.ofName? name.value with
  | none => .error (name.map .undefinedInstruction)
  | some m =>
    match ts with
    | [] => .error (ending.missing .argumentOrEnd)
    | t :: rest =>
      if t.value = .char '!' then
        if leading then
          .error ((SemanticError.invalidArgument m .invertedTwice).located name.span)
        else
          match rest with
          | [] => .error (ending.missing .argument)
          | t :: rest => do
            let line ← readLineEnd ending symbols m name.span true t rest
            return ⟨line.value, line.rest, Nat.lt_succ_of_lt line.shorter⟩
      else readLineEnd ending symbols m name.span leading t rest

/-- Sections and lines up to the end of the text. An inversion may stand before a mnemonic only
where no section comes between it and the line before, or the start of the text. -/
def readListing (ending : Ending) (symbols : SymbolTable) (ts : Tokens) :
    Except (Located ParseError) Listing := do
  match ts with
  | ⟨.char '!', _⟩ :: rest =>
    let name ← readName ending rest
    let line ← readLine ending symbols name.value true name.rest
    let l ← readListing ending symbols line.rest
    return l.cons line.value
  | ts =>
    match ← readHeading ending symbols ts with
    | .finished symbols => return ⟨symbols, []⟩
    | .statement symbols name =>
      let line ← readLine ending symbols name.value false name.rest
      let l ← readListing ending symbols line.rest
      return l.cons line.value
termination_by ts.length
decreasing_by
  · exact Nat.lt_succ_of_lt (Nat.lt_trans line.shorter name.shorter)
  · exact Nat.lt_trans line.shorter name.shorter

def Tape.listing (t : Tape) : Except (Located ParseError) Listing :=
  readListing t.ending .empty t.tokens

def Source.listing (s : Source) : Except (Located ParseError) Listing := s.tape.listing

end RelayLogic
