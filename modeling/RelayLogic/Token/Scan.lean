import RelayLogic.Text.Reader
import RelayLogic.Token

/-! Cutting a stream of items into tokens. One scan passes over blanks and comments, and then
takes the longest word, number or sign that follows, or reports why there is none. -/
namespace RelayLogic

/-- The items still to be scanned, and the announced place of the next one. -/
structure Cursor where
  here : Position
  items : List Item

abbrev Lexeme := Except (Located LexError) (Located Token)

/-- What a scan finds, nothing at the end of the text, and where it stops. -/
structure Scan where
  found : Option Lexeme
  rest : Cursor

namespace Scan

def finished (here : Position) : Scan := ⟨none, ⟨here, []⟩⟩

/-- A line that cannot be read is reported at the announced place. -/
def unreadable (here : Position) (rest : List Item) : Scan :=
  ⟨some (.error ⟨.unreadable, .of here⟩), ⟨here, rest⟩⟩

def token (t : Token) (span : Span) (rest : List Item) : Scan :=
  ⟨some (.ok ⟨t, span⟩), ⟨span.stop, rest⟩⟩

/-- A token that ends only where the next item shows it. It is lost if that item is an
unreadable line. -/
def settled (t : Token) (span : Span) : List Item → Scan
  | .unreadable _ :: rest => unreadable span.stop rest
  | rest => token t span rest

end Scan

/-- The characters of a kind at the front of some items, the end of the last one, and what
follows. -/
structure Run where
  chars : List Char
  stop : Position
  rest : List Item

def Run.take (kind : Char → Bool) (stop : Position) : List Item → Run
  | .char c p :: rest =>
    if kind c then
      let run := take kind p.advance rest
      ⟨c :: run.chars, run.stop, run.rest⟩
    else ⟨[], stop, .char c p :: rest⟩
  | rest => ⟨[], stop, rest⟩

/-- The token that begins with a character which is neither blank nor a slash. -/
def scanWord (c : Char) (p : Position) (rest : List Item) : Scan :=
  if c = '=' then .token (.assignment .assign) (.of p) rest
  else if c = '+' || c = '-' then
    match rest with
    | .char '=' q :: rest =>
      .token (.assignment (if c = '+' then .set else .reset)) ⟨p, q.advance⟩ rest
    | rest => .settled (.char c) (.of p) rest
  else if c.isDigit then
    let run := Run.take Char.isDigit p.advance rest
    let digits := c :: run.chars
    .settled (.integer (decimalValue digits) (String.ofList digits)) ⟨p, run.stop⟩ run.rest
  else if isWordStart c then
    let run := Run.take isWordChar p.advance rest
    .settled (.ident (String.ofList (c :: run.chars))) ⟨p, run.stop⟩ run.rest
  else .token (.char c) (.of p) rest

mutual

/-- Scans on from a place between tokens. -/
def scan (here : Position) : List Item → Scan
  | [] => .finished here
  | .unreadable _ :: rest => .unreadable here rest
  | .char c p :: rest =>
    if isBlank c then scan (p.after c) rest
    else if c = '/' then scanSlash p rest
    else scanWord c p rest

/-- After a slash: the start of a comment, or a token of its own. -/
def scanSlash (start : Position) : List Item → Scan
  | .char c p :: rest =>
    if c = '/' then scanLine p.advance rest
    else if c = '*' then scanBlock start false p.advance rest
    else .token (.char '/') (.of start) (.char c p :: rest)
  | .unreadable _ :: rest => .unreadable start.advance rest
  | [] => .token (.char '/') (.of start) []

/-- Inside a comment that ends with its line. -/
def scanLine (here : Position) : List Item → Scan
  | [] => .finished here
  | .unreadable _ :: rest => .unreadable here rest
  | .char c p :: rest => if c = '\n' then scan p.newline rest else scanLine p.advance rest

/-- Inside a comment that ends with the first `*/` after its opening `/*`. -/
def scanBlock (start : Position) (star : Bool) (here : Position) : List Item → Scan
  | [] => ⟨some (.error ⟨.unterminatedComment, .of start⟩), ⟨here, []⟩⟩
  | .unreadable _ :: rest => .unreadable here rest
  | .char c p :: rest =>
    if star && c = '/' then scan p.advance rest
    else scanBlock start (c = '*') (p.after c) rest

end

def Cursor.scan (c : Cursor) : Scan := RelayLogic.scan c.here c.items

namespace Run

theorem length_rest_le (kind : Char → Bool) (stop : Position) (items : List Item) :
    (take kind stop items).rest.length ≤ items.length := by
  induction items generalizing stop with
  | nil => simp [take]
  | cons item rest ih =>
    cases item with
    | unreadable => simp [take]
    | char c p =>
      simp only [take]
      split
      · exact Nat.le_succ_of_le (ih p.advance)
      · simp

end Run

namespace Scan

theorem length_settled_le (t : Token) (span : Span) (items : List Item) :
    (settled t span items).rest.items.length ≤ items.length := by
  unfold settled
  split <;> simp [unreadable, token]

end Scan

theorem length_scanWord_le (c : Char) (p : Position) (rest : List Item) :
    (scanWord c p rest).rest.items.length ≤ rest.length := by
  unfold scanWord
  split
  · simp [Scan.token]
  split
  · split
    · simp [Scan.token]
    · exact Scan.length_settled_le _ _ _
  split
  · exact Nat.le_trans (Scan.length_settled_le _ _ _) (Run.length_rest_le _ _ _)
  split
  · exact Nat.le_trans (Scan.length_settled_le _ _ _) (Run.length_rest_le _ _ _)
  · simp [Scan.token]

mutual

/-- Whatever a scan finds, it has taken at least one item. -/
theorem length_scan_lt (here : Position) :
    ∀ items, (scan here items).found ≠ none → (scan here items).rest.items.length < items.length
  | [], h => by simp [scan, Scan.finished] at h
  | .unreadable _ :: rest, _ => by simp [scan, Scan.unreadable]
  | .char c p :: rest, h => by
    unfold scan at h ⊢
    split
    · rename_i hc
      rw [if_pos hc] at h
      exact Nat.lt_succ_of_lt (length_scan_lt _ rest h)
    · rename_i hc
      rw [if_neg hc] at h
      split
      · exact Nat.lt_succ_of_le (length_scanSlash_le p rest)
      · exact Nat.lt_succ_of_le (length_scanWord_le c p rest)

theorem length_scanSlash_le (start : Position) :
    ∀ items, (scanSlash start items).rest.items.length ≤ items.length
  | [] => by simp [scanSlash, Scan.token]
  | .unreadable _ :: rest => by simp [scanSlash, Scan.unreadable]
  | .char c p :: rest => by
    unfold scanSlash
    split
    · exact Nat.le_succ_of_le (length_scanLine_le _ rest)
    split
    · exact Nat.le_succ_of_le (length_scanBlock_le _ _ _ rest)
    · simp [Scan.token]

theorem length_scanLine_le (here : Position) :
    ∀ items, (scanLine here items).rest.items.length ≤ items.length
  | [] => by simp [scanLine, Scan.finished]
  | .unreadable _ :: rest => by simp [scanLine, Scan.unreadable]
  | .char c p :: rest => by
    unfold scanLine
    split
    · exact Nat.le_succ_of_le (length_rest_scan_le _ rest)
    · exact Nat.le_succ_of_le (length_scanLine_le _ rest)

theorem length_scanBlock_le (start : Position) (star : Bool) (here : Position) :
    ∀ items, (scanBlock start star here items).rest.items.length ≤ items.length
  | [] => by simp [scanBlock]
  | .unreadable _ :: rest => by simp [scanBlock, Scan.unreadable]
  | .char c p :: rest => by
    unfold scanBlock
    split
    · exact Nat.le_succ_of_le (length_rest_scan_le _ rest)
    · exact Nat.le_succ_of_le (length_scanBlock_le _ _ _ rest)

theorem length_rest_scan_le (here : Position) :
    ∀ items, (scan here items).rest.items.length ≤ items.length
  | [] => by simp [scan, Scan.finished]
  | .unreadable _ :: rest => by simp [scan, Scan.unreadable]
  | .char c p :: rest => by
    unfold scan
    split
    · exact Nat.le_succ_of_le (length_rest_scan_le _ rest)
    split
    · exact Nat.le_succ_of_le (length_scanSlash_le p rest)
    · exact Nat.le_succ_of_le (length_scanWord_le c p rest)

end

end RelayLogic
