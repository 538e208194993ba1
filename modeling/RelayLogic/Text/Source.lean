import RelayLogic.Text.Position
import RelayLogic.Text.Utf8

/-! A source text. It is read line by line: a line that is not valid UTF-8 is lost, and counts
as one unreadable item of the stream of characters that the lines make up. -/
namespace RelayLogic

/-- A named text, line by line. A line is absent where its bytes are not valid UTF-8. -/
structure Source where
  name : String
  lines : List (Option (List Char))

/-- What a source yields when it is read: a character with its place, or an unreadable line. -/
inductive Item where
  | char (c : Char) (place : Position)
  | unreadable (line : Nat)
deriving DecidableEq, Repr

namespace Source

def lineFeed : UInt8 := 10
def carriageReturn : UInt8 := 13

/-- Drops one carriage return from the end of a line whose bytes are given backwards. -/
def dropReturn : List UInt8 → List UInt8
  | b :: rest => if b = carriageReturn then rest else b :: rest
  | [] => []

/-- Cuts bytes after each line feed. A line end is `\n` or `\r\n`; a last line without one is a
line too and keeps its carriage return. `current` holds the open line backwards. -/
def cutLines (current : List UInt8) : List UInt8 → List (List UInt8)
  | [] => if current.isEmpty then [] else [current.reverse]
  | b :: rest =>
    if b = lineFeed then (dropReturn current).reverse :: cutLines [] rest
    else cutLines (b :: current) rest

def decodeLine (bytes : List UInt8) : Option (List Char) :=
  (ByteArray.mk bytes.toArray).utf8Decode?.map Array.toList

def ofBytes (name : String) (bytes : List UInt8) : Source :=
  ⟨name, (cutLines [] bytes).map decodeLine⟩

def ofString (name text : String) : Source := ofBytes name (utf8Bytes text)

/-- A source that opens but cannot be read, such as a directory. -/
def unreadable (name : String) : Source := ⟨name, [none]⟩

/-- The items of a readable line from a position on. Each line ends with one line feed. -/
def lineItems (p : Position) : List Char → List Item
  | [] => [.char '\n' p]
  | c :: rest => .char c p :: lineItems (if c = '\t' then p.tab else p.advance) rest

/-- The items of lines, the first of which has the given number. -/
def itemsFrom (number : Nat) : List (Option (List Char)) → List Item
  | [] => []
  | none :: rest => .unreadable number :: itemsFrom (number + 1) rest
  | some line :: rest => lineItems ⟨number, 1⟩ line ++ itemsFrom (number + 1) rest

def items (s : Source) : List Item := itemsFrom 1 s.lines

/-- The texts remembered once `taken` lines have been read. Unreadable lines leave no text, so
the lines after them move up. -/
def remembered (s : Source) (taken : Nat) : List (List Char) :=
  (s.lines.take taken).filterMap id

/-- The text kept in the place of a line number, once `taken` lines have been read. -/
def lineText (s : Source) (taken number : Nat) : String :=
  if number = 0 then "" else String.ofList ((s.remembered taken).getD (number - 1) [])

end Source

end RelayLogic
