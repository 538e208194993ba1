import RelayLogic.Proofs.QuotedLine
import RelayLogic.Proofs.TextGrowth

/-! The mark under a token. In a line without tabs a character stands in the column of its number in
the line, and the rows of an excerpt begin with margins of one width. So the carets come to stand
under the characters of the token, and nowhere else. -/
namespace RelayLogic

/-- Behind `front` a word stands in a row, and the row below it has a caret in the column of each of
its characters and in no other. -/
structure Underlines (row below : String) (front word : List Char) : Prop where
  shown : front ++ word <+: row.toList
  count : below.toList.count '^' = word.length
  carets : ∀ k, below.toList[k]? = some '^' ↔ front.length ≤ k ∧ k < front.length + word.length

theorem underlines_of_length {row : String} {front word margin : List Char}
    (shown : front ++ word <+: row.toList) (width : margin.length = front.length)
    (clear : '^' ∉ margin) :
    Underlines row (String.ofList (margin ++ List.replicate word.length '^')) front word := by
  refine ⟨shown, ?_, fun k => ?_⟩
  · rw [String.toList_ofList, List.count_append, List.count_eq_zero.2 clear,
      List.count_replicate_self, Nat.zero_add]
  · rw [String.toList_ofList, ← width]
    rcases Nat.lt_or_ge k margin.length with inside | behind
    · rw [List.getElem?_append_left inside]
      refine iff_of_false (fun caret => clear (List.mem_of_getElem? caret)) ?_
      omega
    · rw [List.getElem?_append_right behind, List.getElem?_replicate]
      simp only [Option.ite_none_right_eq_some, and_true]
      omega

/-! Tokens are written without blanks. -/

theorem Munches.spelling {t : Token} {front rest : List Char} (h : Munches t front rest) :
    t.spelling = front := by
  cases h <;> first | rfl | exact String.toList_ofList

theorem Munches.blank_not_mem {t : Token} {front rest : List Char} (h : Munches t front rest)
    {c : Char} (blank : c = '\t' ∨ c = '\r') : c ∉ front := by
  rcases blank with rfl | rfl
  all_goals
    refine h.not_mem (by decide) (by decide) (by decide) ?_
    rintro rfl
    cases h with
    | sign change => simp at change
    | other _ black => cases black

theorem Segments.munches {items : List Item} {lexemes : List Lexeme} (h : Segments items lexemes)
    {t : Located Token} (member : .ok t ∈ lexemes) :
    ∃ rest, Munches t.value t.value.spelling rest := by
  induction h with
  | finished => cases member
  | separator _ _ _ ih => exact ih member
  | @token _ _ _ rest _ _ _ _ munches _ _ ih =>
      rcases List.mem_cons.1 member with same | later
      · cases same
        exact ⟨rest, munches.spelling ▸ munches⟩
      · exact ih later
  | unclosed => cases List.mem_singleton.1 member

/-! Lines. -/

namespace Source

/-- Every line of a text can be read. -/
theorem none_not_mem_lines (name text : String) : none ∉ (ofString name text).lines := by
  intro gap
  obtain ⟨k, there⟩ := List.mem_iff_getElem?.1 gap
  have member : .unreadable (1 + k) ∈ (ofString name text).items :=
    mem_itemsFrom.2 ⟨k, none, there, List.mem_singleton_self _⟩
  rw [items_ofString] at member
  obtain ⟨c, -, other⟩ := List.mem_map.1 member
  cases other

theorem le_line_of_mem_itemsFrom {number : Nat} {lines : List (Option (List Char))} {item : Item}
    (member : item ∈ itemsFrom number lines) : number ≤ item.place.line := by
  obtain ⟨k, line, -, here⟩ := mem_itemsFrom.1 member
  rw [(within_of_mem_line here).line]
  exact Nat.le_add_right number k

/-- The items of a line are those with its number. -/
theorem filter_itemsFrom {lines : List (Option (List Char))} {i : Nat} {line : List Char}
    (there : lines[i]? = some (some line)) (number : Nat) :
    (itemsFrom number lines).filter (fun item => item.place.line = number + i) =
      lineItems ⟨number + i, 1⟩ line := by
  induction lines generalizing number i with
  | nil => cases there
  | cons first lines ih =>
      rw [itemsFrom_cons, List.filter_append]
      cases i with
      | zero =>
          obtain rfl := Option.some.inj there
          have here : ∀ item ∈ itemsFrom number [some line], item.place.line = number :=
            fun item member => (within_of_mem_line member).line
          have behind : ∀ item ∈ itemsFrom (number + 1) lines, item.place.line ≠ number :=
            fun item member => Nat.ne_of_gt (le_line_of_mem_itemsFrom member)
          rw [List.filter_eq_self.2 (by simpa using here),
            List.filter_eq_nil_iff.2 (by simpa using behind), List.append_nil, itemsFrom, itemsFrom,
            List.append_nil]
          rfl
      | succ i =>
          have later := ih there (number + 1)
          rw [Nat.add_right_comm, Nat.add_assoc] at later
          have before : ∀ item ∈ itemsFrom number [first], item.place.line ≠ number + (i + 1) := by
            intro item member
            rw [(within_of_mem_line member).line]
            exact Nat.ne_of_lt (Nat.lt_add_of_pos_right (Nat.succ_pos i))
          rw [List.filter_eq_nil_iff.2 (by simpa using before), List.nil_append, later]

/-- Where there is no tab, characters stand in the columns that they have in the line. -/
theorem place_of_lineItems {p : Position} {cs : List Char} {before after : List Item} {item : Item}
    (split : lineItems p cs = before ++ item :: after)
    (plain : ∀ q, .char '\t' q ∉ before) : item.place = ⟨p.line, p.column + before.length⟩ := by
  induction before generalizing p cs with
  | nil =>
      have first : item ∈ (lineItems p cs).head? := by
        rw [split]
        rfl
      exact place_of_mem_head?_lineItems first
  | cons first before ih =>
      cases cs with
      | nil => cases before <;> cases (List.cons.inj split).2
      | cons c cs =>
          rw [lineItems, List.cons_append] at split
          obtain ⟨rfl, rest⟩ := List.cons.inj split
          have noTab : c ≠ '\t' := by
            rintro rfl
            exact plain p List.mem_cons_self
          rw [if_neg noTab] at rest
          have place := ih rest fun q member => plain q (List.mem_cons_of_mem _ member)
          rw [place, List.length_cons]
          simp only [Position.advance]
          congr 1
          omega

/-- The text that is kept for a line of a text. -/
theorem lineText_ofString {name text : String} {i taken : Nat} {line : List Char}
    (there : (ofString name text).lines[i]? = some (some line)) (read : i < taken) :
    (ofString name text).lineText taken (i + 1) = String.ofList line := by
  have here : ((ofString name text).lines.take taken)[i]? = some (some line) := by
    rw [List.getElem?_take_of_lt read, there]
  have full : ∀ o ∈ ((ofString name text).lines.take taken).take i, o.isSome := by
    intro o member
    refine Option.isSome_iff_ne_none.2 ?_
    rintro rfl
    exact none_not_mem_lines name text (List.mem_of_mem_take (List.mem_of_mem_take member))
  rw [lineText_succ, List.getD_eq_getElem?_getD, getElem?_reduceOption here full, Option.getD_some]

end Source

theorem Carries.map_value {cs : List (Located Char)} {spelling : List Char}
    (h : Carries (cs.map Located.item) spelling) : cs.map Located.value = spelling := by
  induction cs generalizing spelling with
  | nil =>
      cases h
      rfl
  | cons c cs ih =>
      cases h with
      | cons later => exact congrArg (c.value :: ·) (ih later)

/-- The characters of a text that are in one line. -/
def Source.lineOf (s : Source) (number : Nat) : List (Located Char) :=
  s.characters.filter fun c => c.line = number

theorem Source.map_item_lineOf {name text : String} {i : Nat} {line : List Char}
    (there : (ofString name text).lines[i]? = some (some line)) :
    ((ofString name text).lineOf (i + 1)).map Located.item = lineItems ⟨i + 1, 1⟩ line := by
  have here := filter_itemsFrom there 1
  rw [Nat.add_comm 1 i] at here
  change (ofString name text).items.filter _ = _ at here
  rw [items_ofString, List.filter_map] at here
  exact here

/-- These characters are those of a token, in the place that it is given. -/
structure Located.Stretch (t : Located Token) (here : List (Located Char)) : Prop where
  spelling : here.map Located.value = t.value.spelling
  start : here.head?.map (·.span.start) = some t.span.start
  stop : here.getLast?.map (·.span.stop) = some t.span.stop

theorem Located.WrittenAs.stretch {t : Located Token} {here : List (Located Char)}
    (h : t.WrittenAs (here.map Located.item)) (spans : ∀ c ∈ here, c.span = .of c.span.start) :
    t.Stretch here := by
  obtain ⟨c, first⟩ := h.covers.first
  obtain ⟨d, p, last, stop⟩ := h.covers.last
  rw [List.head?_map, Option.map_eq_some_iff] at first
  rw [List.getLast?_map, Option.map_eq_some_iff] at last
  obtain ⟨x, first, same⟩ := first
  obtain ⟨y, last, same'⟩ := last
  have start : x.span.start = t.span.start := (Item.char.inj same).2
  have place : y.span.start = p := (Item.char.inj same').2
  refine ⟨h.carries.map_value, ?_, ?_⟩
  · rw [first, Option.map_some, start]
  · rw [last, Option.map_some, spans y (List.mem_of_getLast? last), stop, place]
    rfl

/-- A token is written in a line, between what is before it and what is behind it. -/
theorem Source.exists_stretch {name text : String} {t : Located Token}
    (member : .ok t ∈ (ofString name text).lexemes) :
    ∃ i line before here after, t.line = i + 1 ∧
      (ofString name text).lines[i]? = some (some line) ∧
      (ofString name text).lineOf t.line = before ++ here ++ after ∧ t.Stretch here := by
  obtain ⟨part, inside, written⟩ := Cursor.stands_of_mem_lexemes member
  obtain ⟨c, first⟩ := written.covers.first
  have nonempty : t.value.spelling ≠ [] := by
    intro none
    have carries := written.carries
    rw [none] at carries
    cases carries
    cases first
  obtain ⟨i, line, there, short⟩ := exists_line_of_infix
    (fun line member => lineFeed_not_mem_lines name (utf8Bytes text) member) written.carries
    nonempty (fun last => written.single (List.mem_of_mem_dropLast last)) inside
  rw [Nat.add_comm] at short
  have number : t.line = i + 1 :=
    (within_of_mem_lineItems (Nat.le_refl 1) (short.subset (List.mem_of_head? first))).line
  obtain ⟨front, back, same⟩ := short
  rw [← map_item_lineOf there] at same
  obtain ⟨early, after, whole, split, -⟩ := List.map_eq_append_iff.1 same.symm
  obtain ⟨before, here, rfl, -, rfl⟩ := List.map_eq_append_iff.1 split
  refine ⟨i, line, before, here, after, number, there, number ▸ whole, written.stretch ?_⟩
  intro x member
  have character : x ∈ (ofString name text).lineOf (i + 1) := by
    rw [whole]
    exact List.mem_append_left _ (List.mem_append_right _ member)
  exact (span_of_mem_characters (List.mem_of_mem_filter character)).2

/-- Where no tab is before a character, it stands in the column of its number in the line. -/
theorem Source.start_of_lineOf {name text : String} {i : Nat} {line : List Char}
    (there : (ofString name text).lines[i]? = some (some line)) {before after : List (Located Char)}
    {c : Located Char} (whole : (ofString name text).lineOf (i + 1) = before ++ c :: after)
    (plain : '\t' ∉ before.map Located.value) : c.span.start = ⟨i + 1, before.length + 1⟩ := by
  have split := map_item_lineOf there
  rw [whole, List.map_append, List.map_cons] at split
  have plain' (q : Position) : .char '\t' q ∉ before.map Located.item := by
    intro tab
    obtain ⟨d, member, same⟩ := List.mem_map.1 tab
    have value : d.value = '\t' := (Item.char.inj same).1
    exact plain (value ▸ List.mem_map_of_mem member)
  have place := place_of_lineItems split.symm plain'
  rw [List.length_map] at place
  exact place.trans (congrArg (Position.mk (i + 1)) (Nat.add_comm 1 before.length))

/-- So it is with a token. -/
theorem Located.Stretch.span_eq {name text : String} {i : Nat} {line : List Char}
    {t : Located Token} {before here after : List (Located Char)} (h : t.Stretch here)
    (there : (Source.ofString name text).lines[i]? = some (some line))
    (whole : (Source.ofString name text).lineOf (i + 1) = before ++ here ++ after)
    (plain : '\t' ∉ (before ++ here).map Located.value) :
    t.span = ⟨⟨i + 1, before.length + 1⟩,
      ⟨i + 1, before.length + t.value.spelling.length + 1⟩⟩ := by
  rw [List.map_append, List.mem_append, not_or] at plain
  rw [← h.spelling, List.length_map]
  have start : t.span.start = ⟨i + 1, before.length + 1⟩ := by
    obtain ⟨x, first, same⟩ := Option.map_eq_some_iff.1 h.start
    obtain ⟨more, rfl⟩ := List.head?_eq_some_iff.1 first
    rw [List.append_assoc, List.cons_append] at whole
    rw [← same, Source.start_of_lineOf there whole plain.1]
  have stop : t.span.stop = ⟨i + 1, before.length + here.length + 1⟩ := by
    obtain ⟨y, last, same⟩ := Option.map_eq_some_iff.1 h.stop
    obtain ⟨init, rfl⟩ := List.getLast?_eq_some_iff.1 last
    have place : y.span.start = ⟨i + 1, (before ++ init).length + 1⟩ := by
      have split : (Source.ofString name text).lineOf (i + 1) = before ++ init ++ y :: after := by
        rw [whole]
        simp only [List.append_assoc, List.singleton_append]
      apply Source.start_of_lineOf there split
      rw [List.map_append, List.mem_append] at plain ⊢
      exact fun tab => tab.elim plain.1 fun tab => plain.2 (.inl tab)
    have character : y ∈ (Source.ofString name text).lineOf (i + 1) := by
      rw [whole]
      simp
    have one := (Source.span_of_mem_characters (List.mem_of_mem_filter character)).2
    rw [← same, one, place, List.length_append, List.length_append, List.length_singleton]
    rfl
  rw [← start, ← stop]

/-! Excerpts. -/

/-- Only line ends are trimmed. -/
theorem prefix_trimLineEnd {front line : List Char} {c : Char} (shown : front ++ [c] <+: line)
    (kept : ¬(c = '\r' ∨ c = '\n')) :
    front ++ [c] <+: (trimLineEnd (String.ofList line)).toList := by
  obtain ⟨rest, rfl⟩ := shown
  rw [trimLineEnd, String.toList_ofList, String.toList_ofList, List.reverse_append,
    List.dropWhile_append, List.reverse_append, List.reverse_singleton, List.singleton_append,
    List.dropWhile_cons_of_neg (by simpa using kept)]
  split
  · rw [List.reverse_cons, List.reverse_reverse]
  · rw [List.reverse_append, List.reverse_cons, List.reverse_reverse]
    exact List.prefix_append _ _

theorem Located.Stretch.prefix_line {name text : String} {i : Nat} {line : List Char}
    {t : Located Token} {before here after : List (Located Char)} (h : t.Stretch here)
    (there : (Source.ofString name text).lines[i]? = some (some line))
    (whole : (Source.ofString name text).lineOf (i + 1) = before ++ here ++ after)
    {rest : List Char} (munches : Munches t.value t.value.spelling rest) :
    before.map Located.value ++ t.value.spelling <+:
      (trimLineEnd (String.ofList line)).toList := by
  have carries := Source.carries_lineItems ⟨i + 1, 1⟩ line
  rw [← Source.map_item_lineOf there] at carries
  have values := carries.map_value
  rw [whole, List.map_append, List.map_append, h.spelling] at values
  obtain ⟨init, c, last⟩ := List.eq_nil_or_concat'
    t.value.spelling |>.resolve_left munches.ne_nil
  have member : c ∈ t.value.spelling := by
    rw [last]
    exact List.mem_concat_self
  have kept : ¬(c = '\r' ∨ c = '\n') := by
    rintro (rfl | rfl)
    · exact munches.blank_not_mem (.inr rfl) member
    · exact munches.lineFeed_not_mem member
  rw [last, ← List.append_assoc] at values ⊢
  apply prefix_trimLineEnd _ kept
  have shown : before.map Located.value ++ init ++ [c] <+: line ++ ['\n'] := ⟨_, values⟩
  rcases List.prefix_concat_iff.1 shown with full | short
  · obtain ⟨-, same⟩ := List.append_inj' full rfl
    exact absurd (.inr (List.cons.inj same).1) kept
  · exact short

/-- One column is told by itself, more by the first and the last. -/
theorem Span.render_eq (name : String) (n column : Nat) {width : Nat} (some : 0 < width) :
    (Span.mk ⟨n, column + 1⟩ ⟨n, column + width + 1⟩).render name =
      if width = 1 then name ++ ":" ++ n.repr ++ ":" ++ (column + 1).repr
      else name ++ ":[" ++ n.repr ++ ":" ++ (column + 1).repr ++ "-" ++ n.repr ++ ":" ++
        (column + width).repr ++ "]" := by
  have one : (Position.mk n (column + width + 1) = (Position.mk n (column + 1)).advance) ↔
      width = 1 := by
    simp only [Position.advance, Position.mk.injEq, true_and]
    omega
  have last : max (column + width + 1 - 1) 1 = column + width := by omega
  simp only [render, one, Position.render, Position.back, last, String.append_assoc]

/-- The rows of an excerpt for a word in one line. -/
theorem Problem.exists_rows (p : Problem) {n : Nat} {before word : List Char} (some : word ≠ [])
    (span : p.span = ⟨⟨n, before.length + 1⟩, ⟨n, before.length + word.length + 1⟩⟩)
    (shown : before ++ word <+: (trimLineEnd (p.view.lineText n)).toList) :
    ∃ row marks, Underlines row marks ((n.repr ++ " | ").toList ++ before) word ∧
      p.excerpt = String.join ([" --> " ++ p.span.render p.view.source.name,
        repeated n.repr.length ' ' ++ " |", row, marks].map (· ++ "\n")) := by
  have wide : 0 < word.length := List.length_pos_iff.2 some
  have marked : p.marked = (before.length + 1, before.length + word.length) := by
    have first : max (before.length + 1) 1 = before.length + 1 := by omega
    have last : max (before.length + word.length + 1 - 1) (before.length + 1) =
        before.length + word.length := by omega
    simp only [Problem.marked, span, first, last, if_true]
  let margin := (repeated n.repr.length ' ' ++ " | ").toList ++ List.replicate before.length ' '
  refine ⟨n.repr ++ " | " ++ trimLineEnd (p.view.lineText n),
    String.ofList (margin ++ List.replicate word.length '^'), underlines_of_length ?_ ?_ ?_, ?_⟩
  · simp only [String.toList_append, List.append_assoc, List.prefix_append_right_inj]
    exact shown
  · simp only [margin, repeated, String.toList_append, String.toList_ofList, List.length_append,
      List.length_replicate, String.length_toList]
  · simp [margin, repeated]
  · have marks : String.ofList (margin ++ List.replicate word.length '^') =
        repeated n.repr.length ' ' ++ " | " ++ repeated before.length ' ' ++
          repeated word.length '^' := by
      rw [String.ofList_append, String.ofList_append, String.ofList_toList]
      rfl
    have blanks : before.length + 1 - 1 = before.length := rfl
    have carets : before.length + word.length - (before.length + 1) + 1 = word.length := by omega
    have edge : " |\n" = " |" ++ "\n" := rfl
    unfold excerpt
    rw [marks, marked]
    simp only [span, blanks, carets, edge, List.map_cons, List.map_nil, String.join_cons,
      String.join_nil, String.append_assoc, String.append_empty]

theorem Report.render_single (p : Problem) :
    (Report.single p).render =
      "error: " ++ p.message ++ "\n" ++ p.excerpt ++ "\n" ++ "Build failed with 1 error\n" := by
  have rows : (Report.single p).render = String.join ["error" ++ ": " ++ p.message ++ "\n" ++
      p.excerpt ++ "\n"] ++ "Build failed with " ++ Nat.repr 1 ++ " error\n" := rfl
  have opening : "error" ++ ": " = "error: " := rfl
  have ending : "Build failed with " ++ (Nat.repr 1 ++ " error\n") = "Build failed with 1 error\n" :=
    rfl
  rw [rows, opening, String.join_cons, String.join_nil, String.append_empty, ← ending]
  simp only [String.append_assoc]

/-! Reports. -/

/-- A token is written in one line, in the place that it is given. If there is no tab in the line up
to its end, a report for its place shows this line behind the line number, and below it has a caret
under each character of the token and nowhere else. The place is told as one column, or as the first
and the last. -/
theorem Source.mark_under_token {name text : String} {t : Located Token}
    (member : .ok t ∈ (ofString name text).lexemes) :
    let s := ofString name text
    let number := t.line.repr
    ∃ before here after, s.lineOf t.line = before ++ here ++ after ∧ t.Stretch here ∧
      ('\t' ∉ (before ++ here).map Located.value →
        let first := (before.length + 1).repr
        let last := (before.length + t.value.spelling.length).repr
        ∀ message taken, t.line ≤ taken → ∃ row marks,
          Underlines row marks ((number ++ " | ").toList ++ before.map Located.value)
            t.value.spelling ∧
          (Report.single ⟨message, ⟨s, taken⟩, t.span⟩).render = String.join (["error: " ++ message,
            " --> " ++ (if t.value.spelling.length = 1 then name ++ ":" ++ number ++ ":" ++ first
              else name ++ ":[" ++ number ++ ":" ++ first ++ "-" ++ number ++ ":" ++ last ++ "]"),
            repeated number.length ' ' ++ " |", row, marks, "", "Build failed with 1 error"].map
              (· ++ "\n"))) := by
  intro s number
  obtain ⟨i, line, before, here, after, place, there, whole, stretch⟩ := exists_stretch member
  refine ⟨before, here, after, whole, stretch, ?_⟩
  intro plain first last message taken read
  obtain ⟨rest, munches⟩ :=
    (segments_of_carries (carries_ofString name text) (ended_readable text.toList) .origin).munches
      member
  have wide : 0 < t.value.spelling.length := List.length_pos_iff.2 munches.ne_nil
  rw [place] at whole read
  have span := stretch.span_eq there whole plain
  have shown := stretch.prefix_line there whole munches
  have kept : s.lineText taken (i + 1) = String.ofList line := lineText_ofString there read
  have counted : (before.map Located.value).length = before.length := List.length_map _
  rw [← kept] at shown
  obtain ⟨row, marks, underlines, excerpt⟩ :=
    Problem.exists_rows ⟨message, ⟨s, taken⟩, t.span⟩ munches.ne_nil (counted.symm ▸ span) shown
  refine ⟨row, marks, ?_, ?_⟩
  · rw [← place] at underlines
    exact underlines
  · have told := Span.render_eq s.name (i + 1) before.length wide
    rw [← span, ← place] at told
    have bottom : "Build failed with 1 error\n" = "Build failed with 1 error" ++ "\n" := rfl
    rw [Report.render_single, excerpt, bottom, told, ← place]
    simp only [List.map_cons, List.map_nil, String.join_cons, String.join_nil, String.append_assoc,
      String.append_empty, String.empty_append]
    rfl

/-- A name in the tenth line, behind a letter that is not of ASCII. -/
def remarkedText : String := "\n\n\n\n\n\n\n\n\n/* \u00e9 */ beta = 0;"

theorem mark_remarkedText :
    let s := Source.ofString "s" remarkedText
    let t : Located Token := ⟨.ident "beta", ⟨⟨10, 9⟩, ⟨10, 13⟩⟩⟩
    .ok t ∈ s.lexemes ∧ ∃ before here after row marks, s.lineOf 10 = before ++ here ++ after ∧
      here.map Located.value = ['b', 'e', 't', 'a'] ∧
      Underlines row marks ("10 | ".toList ++ before.map Located.value) ['b', 'e', 't', 'a'] ∧
      (Report.single ⟨"why", ⟨s, 10⟩, t.span⟩).render = String.join (["error: why",
        " --> " ++ ("s" ++ ":[" ++ "10" ++ ":" ++ (before.length + 1).repr ++ "-" ++ "10" ++ ":" ++
          (before.length + 4).repr ++ "]"),
        "   |", row, marks, "", "Build failed with 1 error"].map (· ++ "\n")) := by
  intro s t
  have lexemes : s.lexemes = [.ok t, .ok ⟨.assignment .assign, .of ⟨10, 14⟩⟩,
      .ok ⟨.integer 0 "0", .of ⟨10, 16⟩⟩, .ok ⟨.char ';', .of ⟨10, 17⟩⟩] := by cbv
  have member : .ok t ∈ s.lexemes := by
    rw [lexemes]
    exact List.mem_cons_self
  have noTab : '\t' ∉ (s.lineOf 10).map Located.value := by
    have values : (s.lineOf 10).map Located.value = "/* \u00e9 */ beta = 0;\n".toList := by cbv
    rw [values]
    decide
  obtain ⟨before, here, after, whole, stretch, marked⟩ := Source.mark_under_token member
  rw [show s.lineOf 10 = _ from whole, List.map_append, List.mem_append, not_or] at noTab
  obtain ⟨row, marks, underlines, shown⟩ := marked noTab.1 "why" 10 (Nat.le_refl 10)
  have number : t.line.repr = "10" := by decide
  have spelled : t.value.spelling = ['b', 'e', 't', 'a'] := by decide
  rw [number, spelled] at underlines
  refine ⟨member, before, here, after, row, marks, whole, stretch.spelling, underlines, ?_⟩
  rw [shown, spelled, number]
  rfl

example : (Report.single ⟨"why", ⟨Source.ofString "s" remarkedText, 10⟩, ⟨10, 9⟩, ⟨10, 13⟩⟩).render =
    "error: why\n --> s:[10:9-10:12]\n   |\n10 | /* \u00e9 */ beta = 0;\n" ++
      "   |         ^^^^\n\nBuild failed with 1 error\n" := by decide +kernel

end RelayLogic
