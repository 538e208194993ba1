import RelayLogic.Grammar.Reading
import RelayLogic.Symbol.Table

/-! Sections of declarations, which both languages share. A section names its category, and
lists its variables with their indices; a monoflop may have a duration. -/
namespace RelayLogic

/-- The words that begin a section, in any letter case, and the categories that they declare. -/
def sectionWords : List (String × Category) :=
  [("inputs", .input), ("outputs", .output), ("monoflops", .monoflop), ("timer", .monoflop),
    ("flags", .flag)]

def sectionOf? (name : String) : Option Category :=
  (sectionWords.find? fun entry => sameWord name entry.1).map Prod.snd

/-- The longest duration, in units of two seconds. -/
def maxTime : Nat := 65535

/-- The first index out of range, the 32nd power of two. -/
def indexLimit : Nat := 4294967296

/-- An amount of seconds, minutes or hours in units of two seconds. -/
def timeOf? (amount : Nat) : Token → Option Nat
  | .ident unit =>
    if unit = "s" then some (amount / 2)
    else if unit = "min" then some (amount * 30)
    else if unit = "h" then some (amount * 1800)
    else none
  | _ => none

/-- An amount and a unit. A duration that is too long is reported at the name it belongs to. -/
def readDuration (ending : Ending) (name : Located String) (ts : Tokens) : Reading Nat ts := do
  let amount ← readInteger ending .duration ts
  let unit ← readToken ending .timeUnit amount.rest
  match timeOf? amount.value.value.toNat unit.value.value with
  | none => throw (unit.value.map .unknownTimeUnit)
  | some time =>
    if time > maxTime then throw ((SemanticError.timeOverflow name.value).located name.span)
    else return amount.after (unit.map fun _ => time)

/-- What stands between the name of a variable and its index: a sign, and before it the duration
of a monoflop in parentheses. -/
def readSign (ending : Ending) (category : Category) (name : Located String) (ts : Tokens) :
    Reading (Option Nat) ts := do
  let t ← readToken ending .declarationSign ts
  match t.value.value with
  | .char '(' =>
    if category ≠ .monoflop then throw (t.value.map fun _ => .durationNotAllowed)
    else
      let time ← readDuration ending name t.rest
      let close ← readChar ending ')' .durationEnd time.rest
      let sign ← readToken ending .declarationSign close.rest
      if sign.value.value = .assignment .assign then
        return (t.after time).after (close.after sign) |>.map fun _ => some time.value
      else throw (sign.value.unexpected .signAfterName)
  | .assignment .assign => return t.map fun _ => none
  | _ => throw (t.value.unexpected .signAfterName)

/-- A variable of a category: its name, which has to be new, its duration and its index. -/
def readVariable (ending : Ending) (category : Category) (symbols : SymbolTable) (ts : Tokens) :
    Reading SymbolTable ts := do
  let name ← readName ending ts
  if symbols.contains name.value.value then
    throw ((SemanticError.duplicateVariable name.value.value).located name.value.span)
  let time ← readSign ending category name.value name.rest
  let index ← readInteger ending .index time.rest
  if index.value.value.toNat ≥ indexLimit then
    throw ((SemanticError.indexOverflow name.value.value).located index.value.span)
  let v := Variable.plain name.value.value category index.value.value.toNat
  match symbols.declare (match time.value with | some time => v.withTime time | none => v) with
  | .error e => throw (e.located name.value.span)
  | .ok symbols => return (name.after time).after index |>.map fun _ => symbols

/-- The variables of a section up to the semicolon that ends it. -/
def readVariables (ending : Ending) (category : Category) (symbols : SymbolTable) (ts : Tokens) :
    Reading SymbolTable ts := do
  let v ← readVariable ending category symbols ts
  let t ← readToken ending .listEnd v.rest
  match t.value.value with
  | .char ',' =>
    let more ← readVariables ending category v.value t.rest
    return (v.after t).after more
  | .char ';' => return v.after t |>.map fun _ => v.value
  | _ => throw (t.value.unexpected .separatorInList)
termination_by ts.length
decreasing_by exact Nat.lt_trans t.shorter v.shorter

def readSection (ending : Ending) (category : Category) (symbols : SymbolTable) (ts : Tokens) :
    Reading SymbolTable ts := do
  let colon ← readChar ending ':' .sectionColon ts
  let symbols ← readVariables ending category symbols colon.rest
  return colon.after symbols

/-- Where the sections at the front of some tokens end: at the end of the text, or with the name
that begins a statement. -/
inductive Heading (ts : Tokens) where
  | finished (symbols : SymbolTable)
  | statement (symbols : SymbolTable) (name : Read (Located String) ts)

/-- Reads sections up to the name that begins a statement. -/
def readHeading (ending : Ending) (symbols : SymbolTable) (ts : Tokens) :
    Except (Located ParseError) (Heading ts) :=
  match ts, ending with
  | [], .finished _ => .ok (.finished symbols)
  | [], .failed e => .error (e.map .lexical)
  | t :: rest, ending =>
    match t.value with
    | .ident name =>
      match sectionOf? name with
      | none => .ok (.statement symbols ⟨⟨name, t.span⟩, rest, Nat.lt_succ_self _⟩)
      | some category =>
        match readSection ending category symbols rest with
        | .error e => .error e
        | .ok block =>
          match readHeading ending block.value block.rest with
          | .error e => .error e
          | .ok (.finished symbols) => .ok (.finished symbols)
          | .ok (.statement symbols name) =>
            .ok (.statement symbols
              ⟨name.value, name.rest, Nat.lt_succ_of_lt (Nat.lt_trans name.shorter block.shorter)⟩)
    | _ => .error (t.unexpected .statement)
termination_by ts.length
decreasing_by exact Nat.lt_succ_of_lt block.shorter

end RelayLogic
