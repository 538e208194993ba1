/-! Places in a text. Lines and columns count from one, and a span runs from its first position
up to, but not including, its last one. They have no upper bound. Counters of 32 bits count alike in
any text of fewer than `2 ^ 32 - 1` lines, none of which has `2 ^ 30` characters. -/
namespace RelayLogic

structure Position where
  line : Nat
  column : Nat
deriving DecidableEq, Repr

namespace Position

def tabWidth : Nat := 4

def origin : Position := ⟨1, 1⟩

def advance (p : Position) : Position := { p with column := p.column + 1 }

/-- The column before, which never leaves the line. -/
def back (p : Position) : Position := { p with column := max (p.column - 1) 1 }

def newline (p : Position) : Position := ⟨p.line + 1, 1⟩

/-- The next tab stop to the right, a column of the form `4 * k + 1`. -/
def tab (p : Position) : Position :=
  { p with column := 1 + ((p.column - 1) / tabWidth + 1) * tabWidth }

def render (p : Position) : String := p.line.repr ++ ":" ++ p.column.repr

end Position

/-- A stretch of text, its end exclusive. -/
structure Span where
  start : Position
  stop : Position
deriving DecidableEq, Repr

namespace Span

def of (p : Position) : Span := ⟨p, p.advance⟩

def join (first last : Span) : Span := ⟨first.start, last.stop⟩

/-- One column is shown by itself, anything longer by its first and last column. -/
def render (name : String) (s : Span) : String :=
  if s.stop = s.start.advance then name ++ ":" ++ s.start.render
  else name ++ ":[" ++ s.start.render ++ "-" ++ s.stop.back.render ++ "]"

end Span

/-- A value together with the text it was read from. -/
structure Located (α : Type) where
  value : α
  span : Span
deriving DecidableEq, Repr

namespace Located

variable {α β : Type}

def map (f : α → β) (x : Located α) : Located β := ⟨f x.value, x.span⟩

def line (x : Located α) : Nat := x.span.start.line

end Located

end RelayLogic
