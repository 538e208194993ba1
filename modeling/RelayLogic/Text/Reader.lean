import RelayLogic.Text.Blank
import RelayLogic.Text.Source

/-! Reading a source character by character. Characters may be handed back, and are then read
again, the last one first. -/
namespace RelayLogic

/-- The place after a character, as it is announced before the next one is known. -/
def Position.after (c : Char) (p : Position) : Position :=
  if c = '\n' then p.newline else p.advance

/-- What one reading step gives. -/
inductive Glance where
  | char (c : Located Char)
  | unreadable
  | finished

/-- A reader keeps the items still ahead, the number of lines taken so far, the characters
handed back and the announced place of the next character. -/
structure Reader where
  source : Source
  ahead : List Item
  taken : Nat
  returned : List (Located Char)
  next : Span

namespace Reader

def ofSource (s : Source) : Reader := ⟨s, s.items, 0, [], .of .origin⟩

/-- Announces the place after a character that has just been read. -/
def announce (r : Reader) (c : Located Char) : Reader :=
  { r with next := .of (c.span.start.after c.value) }

def read (r : Reader) : Glance × Reader :=
  match r.returned with
  | c :: rest => (.char c, { r with returned := rest }.announce c)
  | [] =>
    match r.ahead with
    | [] => (.finished, r)
    | .unreadable line :: rest => (.unreadable, { r with ahead := rest, taken := line })
    | .char c p :: rest =>
      (.char ⟨c, .of p⟩, { r with ahead := rest, taken := p.line }.announce ⟨c, .of p⟩)

def size (r : Reader) : Nat := r.returned.length + r.ahead.length

/-- Every step but the last leaves less to read. -/
theorem size_read_lt {r : Reader} (h : r.read.1 ≠ .finished) : r.read.2.size < r.size := by
  unfold read at h ⊢
  split
  · rename_i hr
    simp [size, announce, hr]
  · rename_i hr
    split
    · rename_i ha
      simp [hr, ha] at h
    · rename_i ha
      simp [size, hr, ha]
    · rename_i ha
      simp [size, announce, hr, ha]

def readNonBlank (r : Reader) : Glance × Reader :=
  match _ : r.read.1 with
  | .char c => if isBlank c.value then readNonBlank r.read.2 else (.char c, r.read.2)
  | .unreadable => (.unreadable, r.read.2)
  | .finished => (.finished, r.read.2)
termination_by r.size
decreasing_by exact size_read_lt (by simp [*])

/-- Reads to the end. Gives the characters read, after those already in `found` backwards, the
number of unreadable lines, and the reader left behind. -/
def readAll (r : Reader) (found : List Char) (failures : Nat) : List Char × Nat × Reader :=
  match _ : r.read.1 with
  | .char c => readAll r.read.2 (c.value :: found) failures
  | .unreadable => readAll r.read.2 found (failures + 1)
  | .finished => (found.reverse, failures, r.read.2)
termination_by r.size
decreasing_by all_goals exact size_read_lt (by simp [*])

/-- Hands a character back. It is the next one to be read. -/
def handBack (r : Reader) (c : Located Char) : Reader :=
  { r with returned := c :: r.returned, next := c.span }

def line (r : Reader) : Nat := r.next.start.line

/-- The text in the place of a line number; a line not read yet is empty. -/
def lineText (r : Reader) (number : Nat) : String := r.source.lineText r.taken number

end Reader

end RelayLogic
