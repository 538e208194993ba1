import RelayLogic.Token.Scan

/-! The tokens of a source. A lexer hands them out one at a time and takes some back; a tape
holds those before the first that cannot be read, with the reason why it ends. -/
namespace RelayLogic

def Source.cursor (s : Source) : Cursor := ⟨.origin, s.items⟩

/-- All that can be scanned from a cursor on. Scanning goes on after an error. -/
def Cursor.lexemes (c : Cursor) : List Lexeme :=
  match _found : c.scan with
  | ⟨none, _⟩ => []
  | ⟨some lexeme, rest⟩ => lexeme :: rest.lexemes
termination_by c.items.length
decreasing_by
  have := length_scan_lt c.here c.items
  simp only [Cursor.scan] at _found
  simpa [_found] using this

def Source.lexemes (s : Source) : List Lexeme := s.cursor.lexemes

/-- A lexer remembers the place of the token it gave last, or of the start of the text. -/
structure Lexer where
  cursor : Cursor
  returned : List (Located Token)
  last : Span

namespace Lexer

def ofSource (s : Source) : Lexer := ⟨s.cursor, [], .of .origin⟩

/-- The next token, or the reason why there is none; nothing at the end of the text. -/
def next (l : Lexer) : Option Lexeme × Lexer :=
  match l.returned with
  | t :: rest => (some (.ok t), { l with returned := rest, last := t.span })
  | [] =>
    match l.cursor.scan with
    | ⟨some (.ok t), rest⟩ => (some (.ok t), { l with cursor := rest, last := t.span })
    | ⟨found, rest⟩ => (found, { l with cursor := rest })

/-- Hands a token back. It is the next one to be given. -/
def handBack (l : Lexer) (t : Located Token) : Lexer := { l with returned := t :: l.returned }

def line (l : Lexer) : Nat := l.cursor.here.line

end Lexer

/-- How the tokens of a text end: after the last one, whose place is kept, or with an error. -/
inductive Ending where
  | finished (last : Span)
  | failed (e : Located LexError)

/-- The readable tokens at the front of a text, and how they end. -/
structure Tape where
  tokens : List (Located Token)
  ending : Ending

def Tape.ofLexemes (last : Span) : List Lexeme → Tape
  | [] => ⟨[], .finished last⟩
  | .error e :: _ => ⟨[], .failed e⟩
  | .ok t :: rest =>
    let tape := ofLexemes t.span rest
    ⟨t :: tape.tokens, tape.ending⟩

def Source.tape (s : Source) : Tape := .ofLexemes (.of .origin) s.lexemes

end RelayLogic
