import RelayLogic.Proofs.Announcement
import RelayLogic.Proofs.TokenPlaces
import RelayLogic.Report

/-! The line that is quoted for a place. Texts are kept one behind the other, those of unreadable
lines left out, and are looked up by the number of the line. So the quoted line is the right one
as long as all the lines before it could be read; behind a line that could not, it is one further
down, or nothing. -/
namespace RelayLogic

/-- A line that is the encoding of characters. -/
def Legible (line : List UInt8) : Prop := ∃ cs, line = encoded cs

/-- `InLine lines i part`: this is a part of what is read of line `i`, counted from zero. -/
def InLine (lines : List (List UInt8)) (i : Nat) (part : List Glance) : Prop :=
  ∃ cs glances, lines[i]? = some (encoded cs) ∧ Placed ⟨i + 1, 1⟩ cs glances ∧ part <:+: glances

/-- What is shown in the place of line `i`, counted from zero. -/
structure Quotes (lines : List (List UInt8)) (i : Nat) (shown : String) : Prop where
  right : (∀ line ∈ lines.take i, Legible line) → lines[i]? = some (encoded shown.toList)
  wrong : (∃ line ∈ lines.take i, ¬Legible line) →
    shown = "" ∨ ∃ j, i < j ∧ lines[j]? = some (encoded shown.toList)

/-- `Reads s r seen`: reading a source from its start, and handing back what was read, leads to this
reader. The characters read on the way are `seen`. -/
inductive Reads (s : Source) : Reader → List (Located Char) → Prop
  | start : Reads s (.ofSource s) []
  | char {r rest : Reader} {seen : List (Located Char)} {c : Located Char} : Reads s r seen →
      r.read = (.char c, rest) → Reads s rest (c :: seen)
  | unreadable {r rest : Reader} {seen : List (Located Char)} : Reads s r seen →
      r.read = (.unreadable, rest) → Reads s rest seen
  | handBack {r : Reader} {seen : List (Located Char)} {c : Located Char} : Reads s r seen →
      c ∈ seen → Reads s (r.handBack c) seen

/-- An excerpt has four rows. The third one shows a line behind its number. -/
def Problem.Displays (p : Problem) (number : Nat) (line : String) : Prop :=
  ∃ place margin marks, p.excerpt = String.join ([place, margin ++ " |",
    number.repr ++ " | " ++ line, margin ++ " | " ++ marks].map (· ++ "\n"))

/-! Lists with gaps. -/

section

variable {α : Type} {l : List (Option α)} {i : Nat} {x : α}

theorem getElem?_reduceOption (there : l[i]? = some (some x)) (full : ∀ o ∈ l.take i, o.isSome) :
    l.reduceOption[i]? = some x := by
  obtain ⟨inside, same⟩ := List.getElem?_eq_some_iff.1 there
  have length : (l.take i).reduceOption.length = i := by
    rw [List.reduceOption_length_eq_iff.2 full, List.length_take, Nat.min_eq_left inside.le]
  have cut : l = l.take i ++ some x :: l.drop (i + 1) := by
    rw [← same, List.getElem_cons_drop, List.take_append_drop]
  rw [cut, List.reduceOption_append, List.reduceOption_cons_of_some,
    List.getElem?_append_right length.le, length, Nat.sub_self]
  rfl

/-- Leaving gaps out only moves elements towards the front. -/
theorem exists_of_getElem?_reduceOption (found : l.reduceOption[i]? = some x) :
    ∃ j, i ≤ j ∧ l[j]? = some (some x) := by
  induction l generalizing i with
  | nil => cases found
  | cons o l ih =>
      cases o with
      | none =>
          obtain ⟨j, behind, there⟩ := ih found
          exact ⟨j + 1, Nat.le_succ_of_le behind, there⟩
      | some y =>
          cases i with
          | zero => exact ⟨0, Nat.le_refl 0, congrArg some found⟩
          | succ i =>
              obtain ⟨j, behind, there⟩ := ih found
              exact ⟨j + 1, Nat.succ_le_succ behind, there⟩

/-- Behind a gap, elements do move. -/
theorem exists_lt_of_getElem?_reduceOption (gap : none ∈ l.take i)
    (found : l.reduceOption[i]? = some x) : ∃ j, i < j ∧ l[j]? = some (some x) := by
  induction l generalizing i with
  | nil => cases found
  | cons o l ih =>
      cases i with
      | zero => cases gap
      | succ i =>
          cases o with
          | none =>
              obtain ⟨j, behind, there⟩ := exists_of_getElem?_reduceOption (l := l) found
              exact ⟨j + 1, Nat.lt_succ_of_le behind, there⟩
          | some y =>
              have later : none ∈ l.take i := by simpa using gap
              obtain ⟨j, behind, there⟩ := ih later found
              exact ⟨j + 1, Nat.succ_lt_succ behind, there⟩

/-- What has no stop in it, but perhaps at its end, ends with the stop at the latest or begins
behind it. -/
theorem infix_or_infix_of_not_mem_dropLast {part front back : List α} {stop : α}
    (inside : part <:+: front ++ stop :: back) (single : stop ∉ part.dropLast) :
    part <:+: front ++ [stop] ∨ part <:+: back := by
  obtain ⟨before, after, same⟩ := inside
  rw [List.append_assoc, List.append_cons front stop back] at same
  rcases List.append_eq_append_iff.1 same with ⟨here, line, rest⟩ | ⟨here, -, rest⟩
  · -- The part does not begin behind the stop, so it may end there, or go across.
    rcases List.append_eq_append_iff.1 rest with ⟨more, rfl, -⟩ | ⟨more, rfl, rfl⟩
    · left
      rw [line, ← List.append_assoc]
      exact List.infix_append before part more
    · have ends : here <:+ front ++ [stop] := ⟨before, line.symm⟩
      rcases List.suffix_concat_iff.1 ends with rfl | ⟨here, rfl, -⟩
      · exact .inr (List.prefix_append more after).isInfix
      · cases more with
        | nil =>
            rw [List.append_nil]
            exact .inl ends.isInfix
        | cons item more =>
            rw [List.dropLast_append_of_ne_nil (List.cons_ne_nil item more)] at single
            simp at single
  · right
    rw [rest, ← List.append_assoc]
    exact List.infix_append here part after

end

/-! Lines. -/

theorem Carries.dropLast {items : List Item} {cs : List Char} (h : Carries items cs) :
    Carries items.dropLast cs.dropLast := by
  induction h with
  | nil => exact .nil
  | cons h ih =>
      cases h with
      | nil => exact .nil
      | cons h => exact .cons ih

theorem Carries.mem_of_mem {items : List Item} {cs : List Char} (h : Carries items cs) {c : Char}
    {p : Position} (member : .char c p ∈ items) : c ∈ cs := by
  induction h with
  | nil => cases member
  | cons _ ih =>
      rcases List.mem_cons.1 member with same | later
      · cases same
        exact List.mem_cons_self
      · exact List.mem_cons_of_mem _ (ih later)

namespace Source

/-- Characters one after the other, none but the last of them a line feed, are of one line. -/
theorem exists_line_of_infix {number : Nat} {lines : List (Option (List Char))} {part : List Item}
    {cs : List Char} (fresh : ∀ line, some line ∈ lines → '\n' ∉ line) (carries : Carries part cs)
    (nonempty : cs ≠ []) (single : '\n' ∉ cs.dropLast) (inside : part <:+: itemsFrom number lines) :
    ∃ i line, lines[i]? = some (some line) ∧ part <:+: lineItems ⟨number + i, 1⟩ line := by
  induction lines generalizing number with
  | nil =>
      cases List.infix_nil.1 inside
      cases carries
      exact absurd rfl nonempty
  | cons line lines ih =>
      have later (behind : part <:+: itemsFrom (number + 1) lines) :
          ∃ i text, (line :: lines)[i]? = some (some text) ∧
            part <:+: lineItems ⟨number + i, 1⟩ text := by
        obtain ⟨i, text, there, here⟩ := ih (fun text member => fresh text (.tail _ member)) behind
        rw [Nat.add_right_comm] at here
        exact ⟨i + 1, text, there, here⟩
      cases line with
      | none =>
          rcases List.infix_cons_iff.1 inside with here | behind
          · cases carries with
            | nil => exact absurd rfl nonempty
            | cons => cases (List.cons_prefix_cons.1 here).1
          · exact later behind
      | some line =>
          obtain ⟨front, q, same, -⟩ :=
            exists_lineItems_eq_concat ⟨number, 1⟩ (fresh line List.mem_cons_self)
          rw [itemsFrom, same, ← List.append_cons] at inside
          -- The end of this line is not in the part, unless it is the last of it.
          have single' : .char '\n' q ∉ part.dropLast := fun member =>
            single (carries.dropLast.mem_of_mem member)
          rcases infix_or_infix_of_not_mem_dropLast inside single' with here | behind
          · rw [← same] at here
            exact ⟨0, line, rfl, here⟩
          · exact later behind

theorem isSome_decodeLine_iff {line : List UInt8} :
    (decodeLine line).isSome = true ↔ Legible line :=
  Option.isSome_iff_exists.trans (exists_congr fun _ => decodeLine_eq_some_iff)

theorem getElem?_map_decodeLine {lines : List (List UInt8)} {i : Nat} {cs : List Char} :
    (lines.map decodeLine)[i]? = some (some cs) ↔ lines[i]? = some (encoded cs) := by
  rw [List.getElem?_map, Option.map_eq_some_iff]
  constructor
  · rintro ⟨line, there, read⟩
    rwa [← decodeLine_eq_some_iff.1 read]
  · intro there
    exact ⟨encoded cs, there, decodeLine_encoded cs⟩

/-- Such characters are read of one line of the bytes, and all stand in it. -/
theorem inLine_of_infix (name : String) (bytes : List UInt8) {part : List Item} {cs : List Char}
    (carries : Carries part cs) (nonempty : cs ≠ []) (single : '\n' ∉ cs.dropLast)
    (inside : part <:+: (ofBytes name bytes).items) :
    ∃ i, InLine (cutLines [] bytes) i (part.map Item.glance) ∧
      ∀ item ∈ part, item.place.line = i + 1 := by
  obtain ⟨i, text, there, here⟩ := exists_line_of_infix
    (fun line member => lineFeed_not_mem_lines name bytes member) carries nonempty single inside
  rw [Nat.add_comm] at here
  refine ⟨i, ⟨text, _, getElem?_map_decodeLine.1 there, placed_lineItems (Nat.le_refl 1) text,
    here.map _⟩, ?_⟩
  intro item member
  exact (within_of_mem_lineItems (Nat.le_refl 1) (here.subset member)).line

theorem lineText_succ (s : Source) (taken i : Nat) :
    s.lineText taken (i + 1) = String.ofList ((s.lines.take taken).reduceOption.getD i []) :=
  if_neg (Nat.succ_ne_zero i)

/-- What is kept in the place of a line that was read. -/
theorem quotes_kept {lines : List (List UInt8)} {i taken : Nat} {cs : List Char}
    (there : lines[i]? = some (encoded cs)) (read : i < taken) :
    Quotes lines i
      (String.ofList (((lines.map decodeLine).take taken).reduceOption.getD i [])) := by
  have front : ((lines.map decodeLine).take taken).take i = (lines.take i).map decodeLine := by
    rw [List.take_take, Nat.min_eq_left read.le, List.map_take]
  rw [List.getD_eq_getElem?_getD]
  constructor
  · intro legible
    have full : ∀ o ∈ ((lines.map decodeLine).take taken).take i, o.isSome := by
      rw [front]
      exact List.forall_mem_map.2 fun line member => isSome_decodeLine_iff.2 (legible line member)
    have here : ((lines.map decodeLine).take taken)[i]? = some (some cs) := by
      rw [List.getElem?_take_of_lt read, getElem?_map_decodeLine, there]
    rw [getElem?_reduceOption here full, Option.getD_some, String.toList_ofList, there]
  · rintro ⟨line, before, illegible⟩
    have gap : none ∈ ((lines.map decodeLine).take taken).take i := by
      rw [front, List.mem_map]
      exact ⟨line, before, Option.not_isSome_iff_eq_none.1 (mt isSome_decodeLine_iff.1 illegible)⟩
    cases found : ((lines.map decodeLine).take taken).reduceOption[i]? with
    | none => exact .inl rfl
    | some text =>
        obtain ⟨j, further, later⟩ := exists_lt_of_getElem?_reduceOption gap found
        rw [List.getElem?_take, Option.ite_none_right_eq_some] at later
        rw [Option.getD_some, String.toList_ofList]
        exact .inr ⟨j, further, getElem?_map_decodeLine.1 later.2⟩

theorem quotes_lineText (name : String) (bytes : List UInt8) {i taken : Nat} {part : List Glance}
    (line : InLine (cutLines [] bytes) i part) (read : i < taken) :
    Quotes (cutLines [] bytes) i ((ofBytes name bytes).lineText taken (i + 1)) := by
  obtain ⟨cs, -, there, -⟩ := line
  rw [lineText_succ]
  exact quotes_kept there read

end Source

/-! Readers. -/

theorem Item.line_le_behind (item : Item) : item.place.line ≤ item.behind.line := by
  cases item with
  | unreadable number => exact Nat.le_succ number
  | char c p =>
      change p.line ≤ (p.behind c).line
      by_cases ended : c = '\n'
      · subst ended
        exact Nat.le_succ p.line
      · rw [p.line_behind_of_ne ended]

/-- Lines come one after the other. -/
theorem Source.pairwise_items (name : String) (bytes : List UInt8) :
    (ofBytes name bytes).items.Pairwise fun a b => a.place.line ≤ b.place.line := by
  have chain : (ofBytes name bytes).items.IsChain fun a b => a.place.line ≤ b.place.line := by
    refine (chain_items name bytes).imp fun a b next => ?_
    rw [next]
    exact a.line_le_behind
  rw [← List.isChain_map (R := (· ≤ ·)) fun item : Item => item.place.line,
    List.isChain_iff_pairwise, List.pairwise_map] at chain
  exact chain

/-- What a reader of a source keeps: the lines that it has taken reach to every character it has
read, and do not go beyond what is ahead of it. -/
structure Reader.Tracks (s : Source) (r : Reader) (seen : List (Located Char)) : Prop where
  source : r.source = s
  behind : r.ahead <:+ s.items
  ahead : ∀ item ∈ r.ahead, r.taken ≤ item.place.line
  read : ∀ c ∈ seen, c ∈ s.characters ∧ c.line ≤ r.taken
  returned : ∀ c ∈ r.returned, c ∈ seen

namespace Reader.Tracks

variable {name : String} {bytes : List UInt8} {r rest : Reader} {seen : List (Located Char)}
  {c : Located Char}

theorem start (s : Source) : (ofSource s).Tracks s [] :=
  ⟨rfl, List.suffix_rfl, fun _ _ => Nat.zero_le _, nofun, nofun⟩

/-- With the next item its line is taken, which is none before those of all that was read. -/
theorem take {item : Item} {ahead : List Item} (h : r.Tracks (.ofBytes name bytes) seen)
    (next : r.ahead = item :: ahead) :
    item ∈ (Source.ofBytes name bytes).items ∧ ahead <:+ (Source.ofBytes name bytes).items ∧
      (∀ later ∈ ahead, item.place.line ≤ later.place.line) ∧
      ∀ c ∈ seen, c ∈ (Source.ofBytes name bytes).characters ∧ c.line ≤ item.place.line := by
  have behind := h.behind
  rw [next] at behind
  have sorted := (Source.pairwise_items name bytes).sublist behind.sublist
  have taken : r.taken ≤ item.place.line := h.ahead item (next ▸ List.mem_cons_self)
  refine ⟨behind.subset List.mem_cons_self, (List.suffix_cons item ahead).trans behind, ?_, ?_⟩
  · intro later member
    exact List.rel_of_pairwise_cons sorted member
  · intro c before
    exact ⟨(h.read c before).1, (h.read c before).2.trans taken⟩

theorem char (h : r.Tracks (.ofBytes name bytes) seen) (step : r.read = (.char c, rest)) :
    rest.Tracks (.ofBytes name bytes) (c :: seen) := by
  unfold Reader.read at step
  split at step
  · rename_i d returned found
    cases step
    have again : c ∈ seen := h.returned c (found ▸ List.mem_cons_self)
    refine ⟨h.source, h.behind, h.ahead, List.forall_mem_cons.2 ⟨h.read c again, h.read⟩, ?_⟩
    intro d member
    exact List.mem_cons_of_mem c (h.returned d (found ▸ List.mem_cons_of_mem c member))
  split at step
  · cases step
  · cases step
  · rename_i d p ahead found
    cases step
    obtain ⟨member, behind, further, before⟩ := h.take found
    refine ⟨h.source, behind, further, List.forall_mem_cons.2 ⟨⟨?_, Nat.le_refl _⟩, before⟩, ?_⟩
    · exact List.mem_filterMap.2 ⟨_, member, rfl⟩
    · intro d again
      exact List.mem_cons_of_mem _ (h.returned d again)

theorem unreadable (h : r.Tracks (.ofBytes name bytes) seen)
    (step : r.read = (.unreadable, rest)) : rest.Tracks (.ofBytes name bytes) seen := by
  unfold Reader.read at step
  split at step
  · cases step
  split at step
  · cases step
  · rename_i number ahead found
    cases step
    obtain ⟨-, behind, further, before⟩ := h.take found
    exact ⟨h.source, behind, further, before, h.returned⟩
  · cases step

theorem handBack (h : r.Tracks (.ofBytes name bytes) seen) (again : c ∈ seen) :
    (r.handBack c).Tracks (.ofBytes name bytes) seen :=
  ⟨h.source, h.behind, h.ahead, h.read, List.forall_mem_cons.2 ⟨again, h.returned⟩⟩

end Reader.Tracks

theorem Reads.tracks {name : String} {bytes : List UInt8} {r : Reader} {seen : List (Located Char)}
    (h : Reads (.ofBytes name bytes) r seen) : r.Tracks (.ofBytes name bytes) seen := by
  induction h with
  | start => exact .start _
  | char _ step ih => exact ih.char step
  | unreadable _ step ih => exact ih.unreadable step
  | handBack _ again ih => exact ih.handBack again

/-! Excerpts. -/

theorem Problem.displays_excerpt (p : Problem) :
    p.Displays p.span.start.line (trimLineEnd (p.view.lineText p.span.start.line)) := by
  refine ⟨" --> " ++ p.span.render p.view.source.name, repeated p.span.start.line.repr.length ' ',
    repeated (p.marked.1 - 1) ' ' ++ repeated (p.marked.2 - p.marked.1 + 1) '^', ?_⟩
  have edge : " |\n" = " |" ++ "\n" := rfl
  unfold excerpt
  simp only [edge, List.map_cons, List.map_nil, String.join_cons, String.join_nil,
    String.append_assoc, String.append_empty]

/-! Whole sources. -/

/-- For a character that was read, its own line is looked up. -/
theorem Reads.quotes {name : String} {bytes : List UInt8} {r : Reader} {seen : List (Located Char)}
    {c : Located Char} (reads : Reads (.ofBytes name bytes) r seen) (member : c ∈ seen) :
    ∃ i, c.line = i + 1 ∧ InLine (Source.cutLines [] bytes) i [.char c] ∧
      Quotes (Source.cutLines [] bytes) i (r.lineText c.line) := by
  obtain ⟨character, taken⟩ := reads.tracks.read c member
  obtain ⟨item, span⟩ := Source.span_of_mem_characters character
  have carries : Carries [c.item] [c.value] := .cons .nil
  have inside : [c.item] <:+: (Source.ofBytes name bytes).items :=
    (List.singleton_infix_iff _ _).2 item
  obtain ⟨i, line, places⟩ := Source.inLine_of_infix name bytes carries
    (List.cons_ne_nil c.value []) List.not_mem_nil inside
  have number : c.line = i + 1 := places c.item List.mem_cons_self
  rw [List.map_singleton, Located.glance_item span] at line
  rw [number] at taken
  refine ⟨i, number, line, ?_⟩
  rw [number, Reader.lineText, reads.tracks.source]
  exact Source.quotes_lineText name bytes line taken

namespace Source

/-- A token stands in one line, and it is the number of this line that an excerpt shows. -/
theorem displays_of_mem_lexemes {name : String} {bytes : List UInt8} {t : Located Token}
    (member : .ok t ∈ (ofBytes name bytes).lexemes) :
    ∃ i part, t.line = i + 1 ∧ t.WrittenAs part ∧
      InLine (cutLines [] bytes) i (part.map Item.glance) ∧
      ∀ message taken, t.line ≤ taken → ∃ shown, Quotes (cutLines [] bytes) i shown ∧
        Problem.Displays ⟨message, ⟨ofBytes name bytes, taken⟩, t.span⟩ t.line
          (trimLineEnd shown) := by
  obtain ⟨part, inside, written⟩ := Cursor.stands_of_mem_lexemes member
  obtain ⟨c, first⟩ := written.covers.first
  have nonempty : t.value.spelling ≠ [] := by
    intro none
    have carries := written.carries
    rw [none] at carries
    cases carries
    cases first
  obtain ⟨i, line, places⟩ := inLine_of_infix name bytes written.carries nonempty
    (fun last => written.single (List.mem_of_mem_dropLast last)) inside
  have number : t.line = i + 1 := places _ (List.mem_of_head? first)
  refine ⟨i, part, number, written, line, ?_⟩
  intro message taken read
  rw [number] at read
  refine ⟨(ofBytes name bytes).lineText taken (i + 1), quotes_lineText name bytes line read, ?_⟩
  rw [← number]
  exact Problem.displays_excerpt ⟨message, ⟨ofBytes name bytes, taken⟩, t.span⟩

/-- Whatever is read of bytes, the text that is kept in the place of a character's line is that
line if all lines before it can be read. If one of them cannot, it is a line further down, or
nothing. Every token stands in one line, and an excerpt for the token shows the text that is kept in
the place of that line. -/
theorem quoted_line (name : String) (bytes : List UInt8) :
    let s := ofBytes name bytes
    ∃ lines, Lines bytes lines ∧
      (∀ r seen, Reads s r seen → ∀ c ∈ seen, ∃ i, c.line = i + 1 ∧ InLine lines i [.char c] ∧
        Quotes lines i (r.lineText c.line)) ∧
      ∀ t, .ok t ∈ s.lexemes → ∃ i part, t.line = i + 1 ∧ t.WrittenAs part ∧
        InLine lines i (part.map Item.glance) ∧
        ∀ message taken, t.line ≤ taken → ∃ shown, Quotes lines i shown ∧
          Problem.Displays ⟨message, ⟨s, taken⟩, t.span⟩ t.line (trimLineEnd shown) := by
  intro s
  refine ⟨cutLines [] bytes, lines_cutLines List.not_mem_nil bytes, ?_, ?_⟩
  · intro r seen reads c member
    exact reads.quotes member
  · intro t member
    exact displays_of_mem_lexemes member

end Source

/-- Behind a line that cannot be read, the line of a character is not found in its place. -/
theorem quoted_brokenText :
    let s := Source.ofBytes "broken" [0xFF, 0x0A, 0x61]
    let r := (Reader.ofSource s).read.2
    r.read.1 = .char ⟨'a', .of ⟨2, 1⟩⟩ ∧ s.lines = [none, some ['a']] ∧
      r.read.2.lineText 2 = "" := by
  cbv
  exact ⟨rfl, rfl, trivial⟩

end RelayLogic
