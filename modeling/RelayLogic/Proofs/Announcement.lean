import RelayLogic.Proofs.Lines

/-! The announced place of the next character. Characters are read off a text and handed back, and
come out in the order of the text whatever was handed back. The announced line is always that of the
next character. The announced column is wrong only right after a tab has been read, and then just if
the tab takes more than one column. -/
namespace RelayLogic

/-- What a caller may do with a reader. What is handed back is the character that was read last. -/
inductive Reader.Move where
  | read
  | readNonBlank
  | handBack
deriving DecidableEq, Repr

/-- A place among characters: those passed, the last one first, and those ahead. -/
structure Bookmark where
  passed : List (Located Char)
  ahead : List (Located Char)

namespace Bookmark

def forward : Bookmark → Bookmark
  | ⟨passed, c :: ahead⟩ => ⟨c :: passed, ahead⟩
  | ⟨passed, []⟩ => ⟨passed, []⟩

def back : Bookmark → Bookmark
  | ⟨c :: passed, ahead⟩ => ⟨passed, c :: ahead⟩
  | ⟨[], ahead⟩ => ⟨[], ahead⟩

/-- The place behind the next character that is not blank. The blanks before it are passed too. -/
def pastBlanks (passed : List (Located Char)) : List (Located Char) → Bookmark
  | [] => ⟨passed, []⟩
  | c :: ahead =>
    if isBlank c.value then pastBlanks (c :: passed) ahead else ⟨c :: passed, ahead⟩

def after (b : Bookmark) : Reader.Move → Bookmark
  | .read => b.forward
  | .readNonBlank => pastBlanks b.passed b.ahead
  | .handBack => b.back

end Bookmark

/-- A reader, and the place that it ought to have reached. -/
structure Session where
  mark : Bookmark
  reader : Reader

/-- A character is handed back at its own place. -/
def Session.after (x : Session) (m : Reader.Move) : Session where
  mark := x.mark.after m
  reader :=
    match m with
    | .read => x.reader.read.2
    | .readNonBlank => x.reader.readNonBlank.2
    | .handBack =>
      match x.mark.passed with
      | [] => x.reader
      | c :: _ => x.reader.handBack c

/-- What is read where a character is next, or none. -/
def Glance.ofNext : Option (Located Char) → Glance
  | some c => .char c
  | none => .finished

def Item.character? : Item → Option (Located Char)
  | .char c p => some ⟨c, .of p⟩
  | .unreadable _ => none

namespace Source

def characters (s : Source) : List (Located Char) := s.items.filterMap Item.character?

/-- A session of moves from the start of a source on. -/
def session (s : Source) (moves : List Reader.Move) : Session :=
  moves.foldl Session.after ⟨⟨[], s.characters⟩, .ofSource s⟩

end Source

/-! The characters of a text. -/

def Located.item (c : Located Char) : Item := .char c.value c.span.start

theorem Located.glance_item {c : Located Char} (span : c.span = .of c.span.start) :
    c.item.glance = .char c :=
  congrArg (fun s => Glance.char ⟨c.value, s⟩) span.symm

theorem Carries.items_eq {items : List Item} {cs : List Char} (h : Carries items cs) :
    items = (items.filterMap Item.character?).map Located.item := by
  induction h with
  | nil => rfl
  | cons _ ih => exact congrArg _ ih

namespace Source

theorem span_of_mem_characters {s : Source} {c : Located Char} (member : c ∈ s.characters) :
    c.item ∈ s.items ∧ c.span = .of c.span.start := by
  obtain ⟨item, there, found⟩ := List.mem_filterMap.1 member
  cases item with
  | char d p =>
      cases found
      exact ⟨there, rfl⟩
  | unreadable line => cases found

theorem items_ofString (name text : String) :
    (ofString name text).items = (ofString name text).characters.map Located.item :=
  (carries_ofString name text).items_eq

theorem glances_ofString (name text : String) :
    (Reader.ofSource (ofString name text)).glances =
      (ofString name text).characters.map .char := by
  rw [Reader.ofSource, Reader.glances_ahead, items_ofString, List.map_map]
  refine List.map_congr_left fun c member => ?_
  exact Located.glance_item (span_of_mem_characters member).2

end Source

/-! Readers and what they have ahead. -/

namespace Reader

/-- A reader that has these characters ahead, those handed back first. -/
def Holds (r : Reader) (cs : List (Located Char)) : Prop :=
  ∃ more, r.ahead = more.map Located.item ∧ r.returned ++ more = cs

variable {r : Reader} {c : Located Char} {cs : List (Located Char)}

theorem Holds.read_nil (h : r.Holds []) : r.read = (.finished, r) := by
  obtain ⟨more, ahead, all⟩ := h
  obtain ⟨returned, rfl⟩ := List.append_eq_nil_iff.1 all
  simp only [read, returned, ahead, List.map_nil]

theorem Holds.read_cons (h : r.Holds (c :: cs)) (span : c.span = .of c.span.start) :
    ∃ rest, r.read = (.char c, rest) ∧ rest.Holds cs ∧
      rest.next = .of (c.span.start.after c.value) := by
  obtain ⟨more, ahead, all⟩ := h
  unfold read
  cases returned : r.returned with
  | cons d returned' =>
      rw [returned] at all
      obtain ⟨rfl, rest⟩ := List.cons.inj all
      exact ⟨_, rfl, ⟨more, ahead, rest⟩, rfl⟩
  | nil =>
      rw [returned, List.nil_append] at all
      subst all
      have same : (⟨c.value, .of c.span.start⟩ : Located Char) = c :=
        congrArg (Located.mk c.value) span.symm
      rw [ahead, List.map_cons]
      simp only [Located.item, same]
      exact ⟨_, rfl, ⟨cs, rfl, rfl⟩, rfl⟩

theorem Holds.handBack (h : r.Holds cs) (c : Located Char) : (r.handBack c).Holds (c :: cs) := by
  obtain ⟨more, ahead, all⟩ := h
  exact ⟨more, ahead, congrArg (c :: ·) all⟩

theorem readNonBlank_eq (r : Reader) :
    r.readNonBlank = match r.read.1 with
      | .char c => if isBlank c.value then r.read.2.readNonBlank else (.char c, r.read.2)
      | .unreadable => (.unreadable, r.read.2)
      | .finished => (.finished, r.read.2) := by
  rw [readNonBlank]
  split <;> simp only [*]

theorem readNonBlank_of_finished (found : r.read.1 = .finished) :
    r.readNonBlank = (.finished, r.read.2) := by
  rw [readNonBlank_eq, found]

theorem readNonBlank_of_black (found : r.read.1 = .char c) (black : isBlank c.value = false) :
    r.readNonBlank = (.char c, r.read.2) := by
  rw [readNonBlank_eq, found]
  exact if_neg (Bool.eq_false_iff.1 black)

theorem readNonBlank_of_blank (found : r.read.1 = .char c) (blank : isBlank c.value = true) :
    r.readNonBlank = r.read.2.readNonBlank := by
  rw [readNonBlank_eq, found]
  exact if_pos blank

end Reader

/-! Sessions. -/

namespace Session

/-- What a session keeps of the characters that it is about. `back` says whether its last move
handed a character back. -/
structure Keeps (cs : List (Located Char)) (back : Bool) (x : Session) : Prop where
  whole : x.mark.passed.reverse ++ x.mark.ahead = cs
  holds : x.reader.Holds x.mark.ahead
  right : back = true ∨ x.mark.passed = [] → ∀ c ∈ x.mark.ahead.head?, x.reader.next = c.span
  after : back = false → ∀ t ∈ x.mark.passed.head?,
    x.reader.next = .of (t.span.start.after t.value)
  more : back = true → x.mark.ahead = [] → x.mark.passed = []

variable {cs : List (Located Char)} {back : Bool} {x : Session}

theorem Keeps.read (h : x.Keeps cs back) (spans : ∀ c ∈ cs, c.span = .of c.span.start) :
    x.reader.read.1 = .ofNext x.mark.ahead.head? ∧ (Session.after x .read).Keeps cs false := by
  rcases x with ⟨⟨passed, ahead⟩, r⟩
  obtain ⟨whole, holds, right, after, more⟩ := h
  cases ahead with
  | nil =>
      have finished := holds.read_nil
      have same : Session.after ⟨⟨passed, []⟩, r⟩ .read = ⟨⟨passed, []⟩, r⟩ :=
        congrArg (Session.mk _) (congrArg Prod.snd finished)
      rw [same]
      refine ⟨congrArg Prod.fst finished, whole, holds, nofun, fun _ t last => ?_, nofun⟩
      cases back with
      | false => exact after rfl t last
      | true =>
          have none : passed = [] := more rfl rfl
          subst none
          cases last
  | cons c ahead =>
      have member : c ∈ cs := by simp [← whole]
      obtain ⟨rest, step, holds', next⟩ := holds.read_cons (spans c member)
      have same : Session.after ⟨⟨passed, c :: ahead⟩, r⟩ .read = ⟨⟨c :: passed, ahead⟩, rest⟩ :=
        congrArg (Session.mk _) (congrArg Prod.snd step)
      rw [same]
      refine ⟨congrArg Prod.fst step, ?_, holds', nofun, fun _ t last => ?_, nofun⟩
      · rw [← whole]
        simp
      · cases last
        exact next

/-- Passing blanks is reading one character after the other. -/
theorem Keeps.readNonBlank (h : x.Keeps cs back)
    (spans : ∀ c ∈ cs, c.span = .of c.span.start) :
    x.reader.readNonBlank.1 = .ofNext (x.mark.ahead.find? fun c => !isBlank c.value) ∧
      (Session.after x .readNonBlank).Keeps cs false := by
  rcases x with ⟨⟨passed, ahead⟩, r⟩
  obtain ⟨found, keeps⟩ := h.read spans
  clear h
  induction ahead generalizing passed r with
  | nil =>
      have step := Reader.readNonBlank_of_finished found
      have same : Session.after ⟨⟨passed, []⟩, r⟩ .readNonBlank =
          Session.after ⟨⟨passed, []⟩, r⟩ .read := by
        simp only [Session.after, Bookmark.after, Bookmark.pastBlanks, Bookmark.forward, step]
      rw [same]
      exact ⟨congrArg Prod.fst step, keeps⟩
  | cons c ahead ih =>
      cases blank : isBlank c.value with
      | false =>
          have step := Reader.readNonBlank_of_black found blank
          have same : Session.after ⟨⟨passed, c :: ahead⟩, r⟩ .readNonBlank =
              Session.after ⟨⟨passed, c :: ahead⟩, r⟩ .read := by
            simp only [Session.after, Bookmark.after, Bookmark.pastBlanks, blank, step]
            rfl
          rw [same, List.find?_cons_of_pos (by simp [blank])]
          exact ⟨congrArg Prod.fst step, keeps⟩
      | true =>
          have step := Reader.readNonBlank_of_blank found blank
          have same : Session.after ⟨⟨passed, c :: ahead⟩, r⟩ .readNonBlank =
              Session.after ⟨⟨c :: passed, ahead⟩, r.read.2⟩ .readNonBlank := by
            simp only [Session.after, Bookmark.after, Bookmark.pastBlanks, blank, step]
            rfl
          obtain ⟨found', keeps'⟩ := keeps.read spans
          rw [same, List.find?_cons_of_neg (by simp [blank]), step]
          exact ih _ _ found' keeps'

theorem Keeps.handBack (h : x.Keeps cs back) : (Session.after x .handBack).Keeps cs true := by
  rcases x with ⟨⟨passed, ahead⟩, r⟩
  obtain ⟨whole, holds, right, after, more⟩ := h
  cases passed with
  | nil => exact ⟨whole, holds, fun _ => right (.inr rfl), nofun, fun _ _ => rfl⟩
  | cons c passed =>
      refine ⟨?_, holds.handBack c, fun _ d next => ?_, nofun, nofun⟩
      · rw [← whole]
        simp [Session.after, Bookmark.after, Bookmark.back]
      · cases next
        rfl

theorem Keeps.after_move (h : x.Keeps cs back) (spans : ∀ c ∈ cs, c.span = .of c.span.start)
    (m : Reader.Move) : (Session.after x m).Keeps cs (m = .handBack) := by
  cases m with
  | read => exact (h.read spans).2
  | readNonBlank => exact (h.readNonBlank spans).2
  | handBack => exact h.handBack

end Session

/-! Places. -/

theorem Position.line_after (c : Char) (p : Position) : (p.after c).line = (p.behind c).line := by
  unfold after behind
  split
  · rfl
  · split <;> rfl

/-- The announced place is that of the next character unless a tab takes several columns. -/
theorem Position.after_eq_behind_iff {c : Char} {p : Position} (inside : 1 ≤ p.column) :
    p.after c = p.behind c ↔ (c = '\t' → p.column % 4 = 0) := by
  by_cases tab : c = '\t'
  · subst tab
    have column : p.after '\t' = p.behind '\t' ↔
        p.column + 1 = 1 + ((p.column - 1) / 4 + 1) * 4 := by
      change Position.mk p.line (p.column + 1) = Position.mk p.line _ ↔ _
      simp only [Position.mk.injEq, true_and, tabWidth]
    rw [column, forall_prop_of_true rfl]
    omega
  · simp [after, behind, tab]

namespace Source

variable {s : Source}

/-- Each character of a text stands where the one before says. -/
theorem chain_characters (name text : String) :
    (ofString name text).characters.IsChain fun t c =>
      c.span.start = t.span.start.behind t.value := by
  have chain := chain_items name (utf8Bytes text)
  change (ofString name text).items.IsChain _ at chain
  rw [items_ofString, List.isChain_map] at chain
  exact chain

theorem one_le_column_of_mem_characters {c : Located Char} (member : c ∈ s.characters) :
    1 ≤ c.span.start.column :=
  one_le_column_of_mem_itemsFrom (span_of_mem_characters member).1

end Source

/-- Behind a character that was passed, the next one stands where that one says. -/
theorem Session.Keeps.start_eq {name text : String} {back : Bool} {x : Session}
    (h : x.Keeps (Source.ofString name text).characters back) {t c : Located Char}
    (last : t ∈ x.mark.passed.head?) (next : c ∈ x.mark.ahead.head?) :
    c.span.start = t.span.start.behind t.value := by
  have chain := Source.chain_characters name text
  rw [← h.whole, List.isChain_append] at chain
  exact chain.2.2 t (by rwa [List.getLast?_reverse]) c next

/-- The announced line is right, and the announced column is wrong only behind a tab. -/
theorem Session.Keeps.announced {name text : String} {back : Bool} {x : Session}
    (h : x.Keeps (Source.ofString name text).characters back) {c : Located Char}
    (next : c ∈ x.mark.ahead.head?) :
    x.reader.line = c.line ∧ (x.reader.next.start = c.span.start ↔ back = true ∨
      ∀ t ∈ x.mark.passed.head?, t.value = '\t' → t.span.start.column % 4 = 0) := by
  by_cases right : back = true ∨ x.mark.passed = []
  · have place : x.reader.next = c.span := h.right right c next
    refine ⟨congrArg (fun s => s.start.line) place, ?_⟩
    rw [place, eq_self_iff_true, true_iff]
    refine right.imp_right fun none t last => ?_
    rw [none] at last
    cases last
  · obtain ⟨moved, passed⟩ := not_or.1 right
    obtain ⟨t, rest, passed⟩ := List.exists_cons_of_ne_nil passed
    have last : t ∈ x.mark.passed.head? := by rw [passed]; rfl
    have place : x.reader.next = .of (t.span.start.after t.value) :=
      h.after (Bool.eq_false_iff.2 moved) t last
    have start : c.span.start = t.span.start.behind t.value := h.start_eq last next
    have inside : 1 ≤ t.span.start.column := by
      refine Source.one_le_column_of_mem_characters (s := .ofString name text) ?_
      rw [← h.whole, passed]
      simp
    constructor
    · change x.reader.next.start.line = c.span.start.line
      rw [place, start]
      exact Position.line_after t.value t.span.start
    · rw [place, start, passed]
      change t.span.start.after t.value = _ ↔ _
      rw [Position.after_eq_behind_iff inside]
      simp [moved]

namespace Source

theorem keeps_session (name text : String) (moves : List Reader.Move) :
    ((ofString name text).session moves).Keeps (ofString name text).characters
      (moves.getLast? = some .handBack) := by
  have spans (c) (member : c ∈ (ofString name text).characters) := (span_of_mem_characters member).2
  induction moves using List.reverseRecOn with
  | nil =>
      refine ⟨rfl, ⟨_, items_ofString name text, rfl⟩, fun _ c first => ?_, nofun, nofun⟩
      have item : c.item ∈ (ofString name text).items.head? := by
        rw [items_ofString, List.head?_map]
        exact congrArg (Option.map Located.item) first
      have place : c.span.start = .origin := place_of_mem_head?_itemsFrom item
      rw [spans c (List.mem_of_head? first), place]
      rfl
  | append_singleton moves m ih =>
      have same : (ofString name text).session (moves ++ [m]) =
          ((ofString name text).session moves).after m := List.foldl_concat ..
      rw [same, List.getLast?_concat]
      simpa using ih.after_move spans m

/-- Moves over a text keep to its characters: what was handed back is read again in its place. The
announced line is that of the next character. The announced column is too, unless the character read
last is a tab and takes more than one column, as it does where its own column is no multiple of
four. -/
theorem announced_place (name text : String) (moves : List Reader.Move) :
    let s := ofString name text
    let x := s.session moves
    (Reader.ofSource s).glances = s.characters.map .char ∧
      x.mark.passed.reverse ++ x.mark.ahead = s.characters ∧
      x.reader.read.1 = .ofNext x.mark.ahead.head? ∧
      x.reader.readNonBlank.1 = .ofNext (x.mark.ahead.find? fun c => !isBlank c.value) ∧
      ∀ c ∈ x.mark.ahead.head?, x.reader.line = c.line ∧
        (x.reader.next.start = c.span.start ↔ moves.getLast? = some .handBack ∨
          ∀ t ∈ x.mark.passed.head?, t.value = '\t' → t.span.start.column % 4 = 0) := by
  intro s x
  have spans (c) (member : c ∈ s.characters) := (span_of_mem_characters member).2
  have keeps : x.Keeps s.characters (moves.getLast? = some .handBack) :=
    keeps_session name text moves
  refine ⟨glances_ofString name text, keeps.whole, (keeps.read spans).1,
    (keeps.readNonBlank spans).1, ?_⟩
  intro c next
  simpa only [decide_eq_true_eq] using keeps.announced next

end Source

/-- A tab takes all the columns up to the next stop, but only one of them is announced. -/
theorem announced_tabbedText :
    let x := (Source.ofString "tabbed" "\ta").session [.read]
    x.mark.ahead.head? = some ⟨'a', .of ⟨1, 5⟩⟩ ∧ x.reader.read.1 = .char ⟨'a', .of ⟨1, 5⟩⟩ ∧
      x.reader.next.start = ⟨1, 2⟩ := by
  cbv
  exact ⟨rfl, rfl, trivial⟩

end RelayLogic
