import RelayLogic.Grammar.Error
import RelayLogic.Token.Lexer

/-! Reading a tape of tokens. Every reader takes at least one token, says so in its result, and
stops at the first error, which is reported at the token where it shows. -/
namespace RelayLogic

abbrev Tokens := List (Located Token)

/-- What was read from the front of some tokens, and the tokens that follow. -/
structure Read (α : Type) (ts : Tokens) where
  value : α
  rest : Tokens
  shorter : rest.length < ts.length

abbrev Reading (α : Type) (ts : Tokens) := Except (Located ParseError) (Read α ts)

/-- The error of a reader that needs a token where the tape has none. -/
def Ending.missing (expected : Expected) : Ending → Located ParseError
  | finished last => ⟨.unexpectedEnd expected, last⟩
  | failed e => e.map .lexical

def SemanticError.located (e : SemanticError) (span : Span) : Located ParseError :=
  ⟨.semantic e, span⟩

def Located.unexpected (t : Located Token) (expected : Expected) : Located ParseError :=
  t.map (.unexpectedToken expected)

namespace Read

variable {α β : Type} {ts : Tokens}

def map (f : α → β) (r : Read α ts) : Read β ts := ⟨f r.value, r.rest, r.shorter⟩

/-- What was read after something else was, seen from the start of both. -/
def after (first : Read α ts) (second : Read β first.rest) : Read β ts :=
  ⟨second.value, second.rest, Nat.lt_trans second.shorter first.shorter⟩

end Read

theorem length_lt_cons (t : Located Token) (rest : Tokens) : rest.length < (t :: rest).length :=
  Nat.lt_succ_self _

def readToken (ending : Ending) (expected : Expected) : (ts : Tokens) → Reading (Located Token) ts
  | [] => .error (ending.missing expected)
  | t :: rest => .ok ⟨t, rest, length_lt_cons t rest⟩

def readChar (ending : Ending) (c : Char) (expected : Expected) (ts : Tokens) : Reading Unit ts := do
  let t ← readToken ending expected ts
  if t.value.value = .char c then return t.map fun _ => ()
  else throw (t.value.unexpected expected)

def readName (ending : Ending) (ts : Tokens) : Reading (Located String) ts := do
  let t ← readToken ending .identifier ts
  match t.value.value with
  | .ident name => return t.map fun found => ⟨name, found.span⟩
  | _ => throw (t.value.unexpected .identifier)

def readInteger (ending : Ending) (expected : Expected) (ts : Tokens) :
    Reading (Located UInt64) ts := do
  let t ← readToken ending expected ts
  match t.value.value with
  | .integer value _ => return t.map fun found => ⟨value, found.span⟩
  | _ => throw (t.value.unexpected expected)

end RelayLogic
