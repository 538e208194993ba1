import Mathlib
import RelayLogic.Proofs.SourceText
import RelayLogic.Text.Reader

/-! What is read of a source. Its bytes are cut into lines in one way only. A line that is the
encoding of characters is read as these, each at its place, and one line feed behind them, however
the line ends; any other line is read as one failure. -/
namespace RelayLogic

/-- `Lines bytes lines`: the bytes are these lines with their ends, which are `\n` or `\r\n`. Only
the last line may have no end. -/
inductive Lines : List UInt8 → List (List UInt8) → Prop
  | none : Lines [] []
  | unended {line : List UInt8} : line ≠ [] → Source.lineFeed ∉ line → Lines line [line]
  | lineFeed {line rest : List UInt8} {lines : List (List UInt8)} : Source.lineFeed ∉ line →
      line.getLast? ≠ some Source.carriageReturn → Lines rest lines →
      Lines (line ++ Source.lineFeed :: rest) (line :: lines)
  | returnLineFeed {line rest : List UInt8} {lines : List (List UInt8)} :
      Source.lineFeed ∉ line → Lines rest lines →
      Lines (line ++ Source.carriageReturn :: Source.lineFeed :: rest) (line :: lines)

/-- `Follows c p q`: behind a character at `p`, the next one of its line stands at `q`. Behind a tab
this is the next column of the form `4 * k + 1`. -/
structure Follows (c : Char) (p q : Position) : Prop where
  line : q.line = p.line
  tab : c = '\t' → IsLeast {n | p.column < n ∧ ∃ k, n = 4 * k + 1} q.column
  other : c ≠ '\t' → q.column = p.column + 1

/-- `Placed p cs glances`: reading a line from `p` on gives these characters and a line feed, each
with a span of one column. -/
inductive Placed : Position → List Char → List Glance → Prop
  | lineFeed (p : Position) : Placed p [] [.char ⟨'\n', ⟨p, ⟨p.line, p.column + 1⟩⟩⟩]
  | cons {c : Char} {p q : Position} {cs : List Char} {glances : List Glance} : Follows c p q →
      Placed q cs glances →
      Placed p (c :: cs) (.char ⟨c, ⟨p, ⟨p.line, p.column + 1⟩⟩⟩ :: glances)

/-- `Shows number lines glances`: reading lines, the first of which has a number, gives these
glances. -/
inductive Shows : Nat → List (List UInt8) → List Glance → Prop
  | finished (number : Nat) : Shows number [] []
  | readable {number : Nat} {cs : List Char} {lines : List (List UInt8)}
      {front rest : List Glance} : Placed ⟨number, 1⟩ cs front → Shows (number + 1) lines rest →
      Shows number (encoded cs :: lines) (front ++ rest)
  | unreadable {number : Nat} {line : List UInt8} {lines : List (List UInt8)}
      {rest : List Glance} : (∀ cs, line ≠ encoded cs) → Shows (number + 1) lines rest →
      Shows number (line :: lines) (.unreadable :: rest)

/-! Lines. -/

namespace Source

theorem cutLines_lineFeed (current rest : List UInt8) :
    cutLines current (lineFeed :: rest) = (dropReturn current).reverse :: cutLines [] rest := by
  rw [cutLines, if_pos rfl]

theorem dropReturn_of_head? {current : List UInt8} (h : current.head? ≠ some carriageReturn) :
    dropReturn current = current := by
  cases current with
  | nil => rfl
  | cons b rest => exact if_neg fun same => h (congrArg some same)

theorem dropReturn_cons (rest : List UInt8) : dropReturn (carriageReturn :: rest) = rest := by
  rw [dropReturn.eq_def]
  exact if_pos rfl

/-- What is cut are the lines. -/
theorem lines_cutLines {current : List UInt8} (fresh : lineFeed ∉ current) (bytes : List UInt8) :
    Lines (current.reverse ++ bytes) (cutLines current bytes) := by
  induction bytes generalizing current with
  | nil =>
      rw [List.append_nil, cutLines]
      cases current with
      | nil => exact .none
      | cons b rest =>
          refine .unended ?_ ?_
          · simp
          · rwa [List.mem_reverse]
  | cons b bytes ih =>
      by_cases ended : b = lineFeed
      · subst ended
        have later : Lines bytes (cutLines [] bytes) := ih List.not_mem_nil
        rw [cutLines_lineFeed]
        by_cases returned : current.head? = some carriageReturn
        · obtain ⟨front, rfl⟩ := List.head?_eq_some_iff.1 returned
          rw [List.reverse_cons, List.append_assoc, dropReturn_cons]
          refine .returnLineFeed ?_ later
          rw [List.mem_reverse]
          exact List.not_mem_of_not_mem_cons fresh
        · rw [dropReturn_of_head? returned]
          refine .lineFeed ?_ ?_ later
          · rwa [List.mem_reverse]
          · rwa [List.getLast?_reverse]
      · have longer : lineFeed ∉ b :: current :=
          List.not_mem_cons_of_ne_of_not_mem (Ne.symm ended) fresh
        rw [cutLines, if_neg ended, List.append_cons, ← List.reverse_cons]
        exact ih longer

theorem lineFeed_not_mem_of_lines {bytes : List UInt8} {lines : List (List UInt8)}
    (h : Lines bytes lines) : ∀ line ∈ lines, lineFeed ∉ line := by
  induction h with
  | none => exact nofun
  | unended some fresh => exact List.forall_mem_singleton.2 fresh
  | lineFeed fresh last _ ih => exact List.forall_mem_cons.2 ⟨fresh, ih⟩
  | returnLineFeed fresh _ ih => exact List.forall_mem_cons.2 ⟨fresh, ih⟩

theorem cutLines_of_lines {bytes : List UInt8} {lines : List (List UInt8)} (h : Lines bytes lines) :
    cutLines [] bytes = lines := by
  induction h with
  | none => rfl
  | @unended line some fresh =>
      have whole := cutLines_append fresh [] []
      rw [List.append_nil, List.append_nil] at whole
      rw [whole, cutLines, if_neg (by simpa using some), List.reverse_reverse]
  | @lineFeed line rest lines fresh last _ ih =>
      rw [cutLines_append fresh, List.append_nil, cutLines_lineFeed, ih,
        dropReturn_of_head? (by rwa [List.head?_reverse]), List.reverse_reverse]
  | @returnLineFeed line rest lines fresh _ ih =>
      have fresh' : Source.lineFeed ∉ line ++ [carriageReturn] := by
        simpa using ⟨fresh, by decide⟩
      rw [List.append_cons, cutLines_append fresh', List.append_nil, cutLines_lineFeed, ih,
        List.reverse_append]
      change (dropReturn (carriageReturn :: line.reverse)).reverse :: lines = line :: lines
      rw [dropReturn_cons, List.reverse_reverse]

/-- Bytes are cut into lines in one way. -/
theorem lines_iff {bytes : List UInt8} {lines : List (List UInt8)} :
    Lines bytes lines ↔ lines = cutLines [] bytes := by
  constructor
  · intro h
    exact (cutLines_of_lines h).symm
  · rintro rfl
    exact lines_cutLines List.not_mem_nil bytes

theorem decodeLine_eq_some_iff {line : List UInt8} {cs : List Char} :
    decodeLine line = some cs ↔ line = encoded cs := by
  constructor
  · intro read
    have valid : (ByteArray.mk line.toArray).utf8Decode?.isSome = true := by
      rw [← Option.isSome_map (f := Array.toList)]
      exact Option.isSome_of_eq_some read
    obtain ⟨text, bytes⟩ := ByteArray.isSome_utf8Decode?_iff.1 valid
    have data : ByteArray.mk line.toArray = ByteArray.mk (encoded text).toArray :=
      bytes.trans (congrArg ByteArray.mk List.data_toByteArray)
    have same : line = encoded text := List.toArray_inj (ByteArray.mk.inj data)
    subst same
    rw [decodeLine_encoded] at read
    rw [Option.some.inj read]
  · rintro rfl
    exact decodeLine_encoded cs

theorem decodeLine_eq_none_iff {line : List UInt8} :
    decodeLine line = none ↔ ∀ cs, line ≠ encoded cs := by
  rw [Option.eq_none_iff_forall_ne_some]
  exact forall_congr' fun cs => not_congr decodeLine_eq_some_iff

/-- No line has a line feed in it. -/
theorem lineFeed_not_mem_lines (name : String) (bytes : List UInt8) {cs : List Char}
    (member : some cs ∈ (ofBytes name bytes).lines) : '\n' ∉ cs := by
  obtain ⟨line, cut, read⟩ := List.mem_map.1 member
  have fresh := lineFeed_not_mem_of_lines (lines_cutLines List.not_mem_nil bytes) line cut
  rw [decodeLine_eq_some_iff.1 read] at fresh
  intro inside
  exact fresh (List.mem_flatMap.2 ⟨'\n', inside, List.mem_singleton_self _⟩)

end Source

/-! Places. -/

/-- What is read of an item. -/
def Item.glance : Item → Glance
  | .char c p => .char ⟨c, .of p⟩
  | .unreadable _ => .unreadable

/-- The place of an item. An unreadable line is placed at its start. -/
def Item.place : Item → Position
  | .char _ p => p
  | .unreadable number => ⟨number, 1⟩

/-- The place of the character behind one that stands at `p`. -/
def Position.behind (c : Char) (p : Position) : Position :=
  if c = '\n' then p.newline else if c = '\t' then p.tab else p.advance

/-- The place of what follows an item. -/
def Item.behind : Item → Position
  | .char c p => p.behind c
  | .unreadable number => ⟨number + 1, 1⟩

theorem Position.tab_follows {p : Position} (inside : 1 ≤ p.column) : Follows '\t' p p.tab := by
  refine ⟨rfl, fun _ => ⟨⟨?_, (p.column - 1) / 4 + 1, ?_⟩, ?_⟩, fun h => absurd rfl h⟩
  · simp only [tab, tabWidth]
    omega
  · simp only [tab, tabWidth]
    omega
  · rintro n ⟨behind, k, rfl⟩
    simp only [tab, tabWidth]
    omega

theorem Source.placed_lineItems {p : Position} (inside : 1 ≤ p.column) (cs : List Char) :
    Placed p cs ((lineItems p cs).map Item.glance) := by
  induction cs generalizing p with
  | nil => exact .lineFeed p
  | cons c cs ih =>
      rw [lineItems, List.map_cons]
      by_cases tab : c = '\t'
      · subst tab
        have follows := Position.tab_follows inside
        rw [if_pos rfl]
        refine .cons follows (ih ?_)
        simp [Position.tab]
      · have follows : Follows c p p.advance := ⟨rfl, fun h => absurd h tab, fun _ => rfl⟩
        rw [if_neg tab]
        exact .cons follows (ih (Nat.le_add_left ..))

theorem Source.shows_itemsFrom (number : Nat) (lines : List (List UInt8)) :
    Shows number lines ((itemsFrom number (lines.map decodeLine)).map Item.glance) := by
  induction lines generalizing number with
  | nil => exact .finished number
  | cons line lines ih =>
      rw [List.map_cons]
      cases read : decodeLine line with
      | none => exact .unreadable (decodeLine_eq_none_iff.1 read) (ih (number + 1))
      | some cs =>
          rw [itemsFrom, List.map_append, decodeLine_eq_some_iff.1 read]
          exact .readable (placed_lineItems (Nat.le_refl 1) cs) (ih (number + 1))

theorem Position.behind_of_ne {c : Char} (h : c ≠ '\n') (p : Position) :
    p.behind c = if c = '\t' then p.tab else p.advance :=
  if_neg h

theorem Position.line_behind_of_ne {c : Char} (h : c ≠ '\n') (p : Position) :
    (p.behind c).line = p.line := by
  rw [behind_of_ne h]
  split <;> rfl

/-- The next character is on the same line or the next one, and no more than a tab away. -/
theorem Position.behind_le {p : Position} (inside : 1 ≤ p.column) (c : Char) :
    (p.behind c).line ≤ p.line + 1 ∧ (p.behind c).column ≤ p.column + 4 := by
  unfold behind
  split
  · exact ⟨Nat.le_refl _, Nat.le_add_right_of_le inside⟩
  split
  · simp only [tab, tabWidth]
    omega
  · simp only [advance]
    omega

/-- `item.Within number width`: the item stands in the line with this number, and neither it nor what
follows it stands beyond the column `width`. -/
structure Item.Within (item : Item) (number width : Nat) : Prop where
  line : item.place.line = number
  inside : 1 ≤ item.place.column
  column : item.place.column ≤ width
  nextLine : item.behind.line ≤ number + 1
  nextColumn : item.behind.column ≤ width

/-- Whether counters of 32 bits hold a position. -/
def Position.Fits (p : Position) : Prop := p.line < 2 ^ 32 ∧ p.column < 2 ^ 32

namespace Source

theorem place_of_mem_head?_lineItems {p : Position} {cs : List Char} {item : Item}
    (first : item ∈ (lineItems p cs).head?) : item.place = p := by
  cases cs <;> cases first <;> rfl

/-- A line ends with a line feed that stands in it. -/
theorem exists_lineItems_eq_concat (p : Position) {cs : List Char} (fresh : '\n' ∉ cs) :
    ∃ front q, lineItems p cs = front ++ [.char '\n' q] ∧ q.line = p.line := by
  induction cs generalizing p with
  | nil => exact ⟨[], p, rfl, rfl⟩
  | cons c cs ih =>
      have other := (List.ne_of_not_mem_cons fresh).symm
      obtain ⟨front, q, same, line⟩ := ih (p.behind c) (List.not_mem_of_not_mem_cons fresh)
      refine ⟨.char c p :: front, q, ?_, line.trans (p.line_behind_of_ne other)⟩
      rw [lineItems, ← Position.behind_of_ne other, same]
      rfl

theorem behind_of_mem_getLast?_lineItems {p : Position} {cs : List Char} (fresh : '\n' ∉ cs)
    {item : Item} (last : item ∈ (lineItems p cs).getLast?) : item.behind = ⟨p.line + 1, 1⟩ := by
  obtain ⟨front, q, same, line⟩ := exists_lineItems_eq_concat p fresh
  rw [same, List.getLast?_concat] at last
  cases last
  exact congrArg (fun n => Position.mk (n + 1) 1) line

theorem chain_lineItems (p : Position) {cs : List Char} (fresh : '\n' ∉ cs) :
    (lineItems p cs).IsChain fun a b => b.place = a.behind := by
  induction cs generalizing p with
  | nil => exact .singleton _
  | cons c cs ih =>
      rw [lineItems, ← Position.behind_of_ne (List.ne_of_not_mem_cons fresh).symm]
      refine (ih _ (List.not_mem_of_not_mem_cons fresh)).cons ?_
      intro item first
      exact place_of_mem_head?_lineItems first

theorem place_of_mem_head?_itemsFrom {number : Nat} {lines : List (Option (List Char))}
    {item : Item} (first : item ∈ (itemsFrom number lines).head?) : item.place = ⟨number, 1⟩ := by
  cases lines with
  | nil => cases first
  | cons line lines =>
      rcases line with _ | _ | ⟨c, cs⟩ <;> cases first <;> rfl

/-- Each item stands where the one before says. -/
theorem chain_itemsFrom (number : Nat) {lines : List (Option (List Char))}
    (fresh : ∀ cs, some cs ∈ lines → '\n' ∉ cs) :
    (itemsFrom number lines).IsChain fun a b => b.place = a.behind := by
  induction lines generalizing number with
  | nil => exact .nil
  | cons line lines ih =>
      have later := ih (number + 1) fun cs member => fresh cs (List.mem_cons_of_mem _ member)
      cases line with
      | none =>
          refine later.cons fun item first => ?_
          exact place_of_mem_head?_itemsFrom first
      | some cs =>
          have fresh' := fresh cs List.mem_cons_self
          refine (chain_lineItems ⟨number, 1⟩ fresh').append later fun item last next first => ?_
          rw [behind_of_mem_getLast?_lineItems fresh' last]
          exact place_of_mem_head?_itemsFrom first

theorem itemsFrom_cons (number : Nat) (line : Option (List Char))
    (lines : List (Option (List Char))) :
    itemsFrom number (line :: lines) = itemsFrom number [line] ++ itemsFrom (number + 1) lines := by
  cases line <;> simp [itemsFrom]

/-- The items of lines are those of each line by itself. -/
theorem mem_itemsFrom {number : Nat} {lines : List (Option (List Char))} {item : Item} :
    item ∈ itemsFrom number lines ↔
      ∃ k line, lines[k]? = some line ∧ item ∈ itemsFrom (number + k) [line] := by
  induction lines generalizing number with
  | nil => simp [itemsFrom]
  | cons first lines ih =>
      rw [itemsFrom_cons, List.mem_append, ih]
      constructor
      · rintro (here | ⟨k, line, there, inside⟩)
        · exact ⟨0, first, rfl, here⟩
        · rw [Nat.add_right_comm] at inside
          exact ⟨k + 1, line, there, inside⟩
      · rintro ⟨_ | k, line, there, inside⟩
        · cases there
          exact .inl inside
        · rw [← Nat.add_assoc, Nat.add_right_comm] at inside
          exact .inr ⟨k, line, there, inside⟩

theorem within_of_mem_lineItems {p : Position} (inside : 1 ≤ p.column) {cs : List Char}
    {item : Item} (member : item ∈ lineItems p cs) :
    item.Within p.line (p.column + 4 * cs.length) := by
  induction cs generalizing p with
  | nil =>
      obtain rfl := List.mem_singleton.1 member
      exact ⟨rfl, inside, Nat.le_refl _, Nat.le_refl _, inside⟩
  | cons c cs ih =>
      have longer : 4 * (c :: cs).length = 4 + 4 * cs.length := by
        rw [List.length_cons, Nat.mul_succ, Nat.add_comm]
      obtain ⟨nextLine, nextColumn⟩ := p.behind_le inside c
      rw [longer]
      rcases List.mem_cons.1 member with rfl | later
      · refine ⟨rfl, inside, Nat.le_add_right _ _, nextLine, Nat.le_trans nextColumn ?_⟩
        exact Nat.add_le_add_left (Nat.le_add_right _ _) _
      · generalize ahead : (if c = '\t' then p.tab else p.advance) = q at later
        have line : q.line = p.line := by
          rw [← ahead]
          split <;> rfl
        have column : 1 ≤ q.column ∧ q.column ≤ p.column + 4 := by
          rw [← ahead]
          split
          · simp only [Position.tab, Position.tabWidth]
            omega
          · simp only [Position.advance]
            omega
        obtain ⟨line', inside', column', nextLine', nextColumn'⟩ := ih column.1 later
        rw [line] at line' nextLine'
        exact ⟨line', inside', by omega, nextLine', by omega⟩

/-- A line of so many characters reaches no further than as many tabs. -/
theorem within_of_mem_line {number : Nat} {line : Option (List Char)} {item : Item}
    (member : item ∈ itemsFrom number [line]) :
    item.Within number (1 + 4 * (line.getD []).length) := by
  cases line with
  | none =>
      obtain rfl := List.mem_singleton.1 member
      exact ⟨rfl, Nat.le_refl 1, Nat.le_refl 1, Nat.le_refl _, Nat.le_refl 1⟩
  | some cs =>
      rw [itemsFrom, itemsFrom, List.append_nil] at member
      exact within_of_mem_lineItems (Nat.le_refl 1) member

/-- Columns count from one. -/
theorem one_le_column_of_mem_itemsFrom {number : Nat} {lines : List (Option (List Char))}
    {item : Item} (member : item ∈ itemsFrom number lines) : 1 ≤ item.place.column := by
  obtain ⟨k, line, -, here⟩ := mem_itemsFrom.1 member
  exact (within_of_mem_line here).inside

/-- In a text of fewer than `2 ^ 32 - 1` lines, none of which has `2 ^ 30` characters, counters of
32 bits hold the ends of the span of each item, and the place of what follows it. -/
theorem fits_of_mem_items {s : Source} (few : s.lines.length < 2 ^ 32 - 1)
    (short : ∀ cs, some cs ∈ s.lines → cs.length < 2 ^ 30) {item : Item} (member : item ∈ s.items) :
    item.place.Fits ∧ item.place.advance.Fits ∧ item.behind.Fits := by
  obtain ⟨k, line, there, here⟩ := mem_itemsFrom.1 member
  obtain ⟨before, -⟩ := List.getElem?_eq_some_iff.1 there
  have narrow : (line.getD []).length < 2 ^ 30 := by
    cases line with
    | none => exact Nat.two_pow_pos 30
    | some cs => exact short cs (List.mem_of_getElem? there)
  obtain ⟨line, -, column, nextLine, nextColumn⟩ := within_of_mem_line here
  have lines : item.place.line + 1 < 2 ^ 32 ∧ item.behind.line < 2 ^ 32 := by omega
  have columns : item.place.column + 1 < 2 ^ 32 ∧ item.behind.column < 2 ^ 32 := by omega
  exact ⟨⟨Nat.lt_of_succ_lt lines.1, Nat.lt_of_succ_lt columns.1⟩,
    ⟨Nat.lt_of_succ_lt lines.1, columns.1⟩, lines.2, columns.2⟩

theorem chain_items (name : String) (bytes : List UInt8) :
    (ofBytes name bytes).items.IsChain fun a b => b.place = a.behind :=
  chain_itemsFrom 1 fun _ member => lineFeed_not_mem_lines name bytes member

end Source

namespace Reader

/-- All that is read, one glance after the other, up to the end. -/
def glances (r : Reader) : List Glance :=
  match _ : r.read.1 with
  | .char c => .char c :: glances r.read.2
  | .unreadable => .unreadable :: glances r.read.2
  | .finished => []
termination_by r.size
decreasing_by all_goals exact size_read_lt (by simp [*])

theorem glances_eq (r : Reader) :
    r.glances = match r.read with
      | (.char c, r) => .char c :: r.glances
      | (.unreadable, r) => .unreadable :: r.glances
      | (.finished, _) => [] := by
  rw [glances]
  rcases r.read with ⟨_ | _ | _, _⟩ <;> rfl

/-- A reader that has nothing handed back gives the items ahead of it. -/
theorem glances_ahead (source : Source) (ahead : List Item) (taken : Nat) (next : Span) :
    glances ⟨source, ahead, taken, [], next⟩ = ahead.map Item.glance := by
  induction ahead generalizing taken next with
  | nil => rw [glances_eq]; rfl
  | cons item ahead ih =>
      rw [glances_eq, List.map_cons]
      cases item with
      | char c p => exact congrArg _ (ih ..)
      | unreadable line => exact congrArg _ (ih ..)

end Reader

/-! Line ends. -/

namespace Source

/-- Writes every line feed as a carriage return and a line feed. -/
def withReturns (bytes : List UInt8) : List UInt8 :=
  bytes.flatMap fun b => if b = lineFeed then [carriageReturn, lineFeed] else [b]

theorem cutLines_withReturns {current bytes : List UInt8}
    (read : carriageReturn ∉ current) (ahead : carriageReturn ∉ bytes) :
    cutLines current (withReturns bytes) = cutLines current bytes := by
  induction bytes generalizing current with
  | nil => rfl
  | cons b bytes ih =>
      have behind := List.not_mem_of_not_mem_cons ahead
      by_cases ended : b = lineFeed
      · subst ended
        have kept : dropReturn current = current :=
          dropReturn_of_head? fun first => read (List.mem_of_head? first)
        have written : withReturns (lineFeed :: bytes) =
            carriageReturn :: lineFeed :: withReturns bytes := rfl
        rw [written, cutLines, if_neg (by decide), cutLines_lineFeed, dropReturn_cons,
          ih List.not_mem_nil behind, cutLines_lineFeed, kept]
      · have written : withReturns (b :: bytes) = b :: withReturns bytes := by
          rw [withReturns, List.flatMap_cons, if_neg ended]
          rfl
        have read' : carriageReturn ∉ b :: current :=
          List.not_mem_cons_of_ne_of_not_mem (List.ne_of_not_mem_cons ahead) read
        rw [written, cutLines, if_neg ended, cutLines, if_neg ended]
        exact ih read' behind

/-- Whichever way its lines end, a text without other carriage returns is read alike. -/
theorem ofBytes_withReturns (name : String) {bytes : List UInt8}
    (without : carriageReturn ∉ bytes) :
    ofBytes name (withReturns bytes) = ofBytes name bytes := by
  rw [ofBytes, cutLines_withReturns List.not_mem_nil without, ofBytes]

/-- All that is read of bytes is what their lines have, one after the other. A text without carriage
returns is read alike when each of its line feeds is given one. -/
theorem glances_ofBytes (name : String) (bytes : List UInt8) :
    (∃ lines, (∀ cut, Lines bytes cut ↔ cut = lines) ∧
      Shows 1 lines (Reader.ofSource (ofBytes name bytes)).glances) ∧
    (carriageReturn ∉ bytes →
      (Reader.ofSource (ofBytes name (withReturns bytes))).glances =
        (Reader.ofSource (ofBytes name bytes)).glances) := by
  constructor
  · refine ⟨cutLines [] bytes, fun cut => lines_iff, ?_⟩
    rw [Reader.ofSource, Reader.glances_ahead]
    exact shows_itemsFrom 1 _
  · intro without
    rw [ofBytes_withReturns name without]

/-- Lines with a tab, with bytes that are no characters, and with no end. -/
example : (ofBytes "mixed" [0x09, 0x61, 0x0D, 0x0A, 0xFF, 0x0A, 0x62, 0x0D]).items =
    [.char '\t' ⟨1, 1⟩, .char 'a' ⟨1, 5⟩, .char '\n' ⟨1, 6⟩, .unreadable 2, .char 'b' ⟨3, 1⟩,
      .char '\r' ⟨3, 2⟩, .char '\n' ⟨3, 3⟩] := by
  cbv

end Source

end RelayLogic
