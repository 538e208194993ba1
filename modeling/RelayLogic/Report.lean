import RelayLogic.Text.Padding
import RelayLogic.Text.Source

/-! Reports of errors. Each error is shown with its place, the line of the text on which it
begins, and a mark under the columns it covers. -/
namespace RelayLogic

/-- A source as far as it was read when an error was found. -/
structure View where
  source : Source
  taken : Nat

def View.lineText (v : View) (number : Nat) : String := v.source.lineText v.taken number

structure Problem where
  message : String
  view : View
  span : Span

/-- Problems in order, all shown under one label. -/
structure Report where
  kind : String
  problems : List Problem

def trimLineEnd (line : String) : String :=
  String.ofList (line.toList.reverse.dropWhile fun c => c = '\r' || c = '\n').reverse

namespace Problem

/-- The columns to be marked, both included. Of a span that goes beyond its first line only the
first column is marked. -/
def marked (p : Problem) : Nat × Nat :=
  let first := max p.span.start.column 1
  let last :=
    if p.span.stop.line = p.span.start.line then max (p.span.stop.column - 1) first else first
  (first, last)

/-- The place, the line, and the mark under it, after a margin as wide as the line number. -/
def excerpt (p : Problem) : String :=
  let number := p.span.start.line
  let margin := repeated number.repr.length ' '
  let (first, last) := p.marked
  " --> " ++ p.span.render p.view.source.name ++ "\n" ++
    margin ++ " |\n" ++
    number.repr ++ " | " ++ trimLineEnd (p.view.lineText number) ++ "\n" ++
    margin ++ " | " ++ repeated (first - 1) ' ' ++ repeated (last - first + 1) '^' ++ "\n"

end Problem

namespace Report

def empty : Report := ⟨"error", []⟩

def push (r : Report) (p : Problem) : Report := { r with problems := r.problems ++ [p] }

def ofList (problems : List Problem) : Report := problems.foldl push empty

def single (p : Problem) : Report := ofList [p]

def size (r : Report) : Nat := r.problems.length

def isEmpty (r : Report) : Bool := r.problems.isEmpty

def render (r : Report) : String :=
  if r.isEmpty then "No errors were reported\n"
  else
    String.join (r.problems.map fun p => r.kind ++ ": " ++ p.message ++ "\n" ++ p.excerpt ++ "\n") ++
      "Build failed with " ++ r.size.repr ++ (if r.size = 1 then " error\n" else " errors\n")

end Report

end RelayLogic
