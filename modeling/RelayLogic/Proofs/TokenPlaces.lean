import RelayLogic.Proofs.Lexing
import RelayLogic.Proofs.Segmentation

/-! Where tokens stand. Every token of every source is written in the items of the source one after
the other, and its span reaches from the first to the last of them. Lines that cannot be read may
stand anywhere between the tokens. -/
namespace RelayLogic

/-- The characters that a token is written with. -/
def Token.spelling : Token → List Char
  | ident name => name.toList
  | integer _ digits => digits.toList
  | char c => [c]
  | assignment a => a.sign.toList

/-- `WrittenAs t part`: these items are the characters of the token, within one line, and the token
is placed at them. -/
structure Located.WrittenAs (t : Located Token) (part : List Item) : Prop where
  carries : Carries part t.value.spelling
  single : '\n' ∉ t.value.spelling
  covers : t.span.Covers part

/-- A token that is written somewhere in some items. -/
def Located.Stands (t : Located Token) (items : List Item) : Prop :=
  ∃ part, part <:+: items ∧ t.WrittenAs part

/-- A scan that goes no further than to the end of some items, and finds no token but one that
stands in them, up to where the scan goes on. -/
structure Scan.Cuts (items : List Item) (s : Scan) : Prop where
  rest : s.rest.items <:+ items
  found : ∀ t, s.found = some (.ok t) → ∃ part, part ++ s.rest.items <:+ items ∧ t.WrittenAs part

namespace Scan.Cuts

variable {items : List Item} {s : Scan}

theorem cons (h : s.Cuts items) (item : Item) : s.Cuts (item :: items) := by
  refine ⟨h.rest.trans (List.suffix_cons item items), ?_⟩
  intro t found
  obtain ⟨part, inside, written⟩ := h.found t found
  exact ⟨part, inside.trans (List.suffix_cons item items), written⟩

theorem finished (here : Position) (items : List Item) : (Scan.finished here).Cuts items :=
  ⟨List.nil_suffix, nofun⟩

theorem unreadable (here : Position) {rest : List Item} (h : rest <:+ items) :
    (Scan.unreadable here rest).Cuts items :=
  ⟨h, nofun⟩

theorem token {t : Token} {span : Span} {part : List Item}
    (written : Located.WrittenAs ⟨t, span⟩ part) (rest : List Item) :
    (Scan.token t span rest).Cuts (part ++ rest) := by
  refine ⟨List.suffix_append part rest, ?_⟩
  rintro _ ⟨⟩
  exact ⟨part, List.suffix_rfl, written⟩

theorem settled {t : Token} {span : Span} {part : List Item}
    (written : Located.WrittenAs ⟨t, span⟩ part) (rest : List Item) :
    (Scan.settled t span rest).Cuts (part ++ rest) := by
  unfold Scan.settled
  split
  · refine .unreadable _ ?_
    exact (List.suffix_cons _ _).trans (List.suffix_append _ _)
  · exact .token written _

end Scan.Cuts

/-! Tokens. -/

theorem Located.WrittenAs.one {c : Char} (black : c ≠ '\n') (p : Position) :
    Located.WrittenAs ⟨.char c, .of p⟩ [.char c p] :=
  ⟨.cons .nil, fun inside => black.symm (List.mem_singleton.1 inside), .one c p⟩

theorem Assignment.lineFeed_not_mem_sign (a : Assignment) : '\n' ∉ a.sign.toList := by
  cases a <;> decide

/-- What a run takes are characters one after the other, and it stops behind the last one. -/
theorem Run.exists_part_take (kind : Char → Bool) (c : Char) (p : Position) (items : List Item) :
    ∃ part, items = part ++ (take kind p.advance items).rest ∧
      Carries part (take kind p.advance items).chars ∧
      ∃ d q, (Item.char c p :: part).getLast? = some (.char d q) ∧
        (take kind p.advance items).stop = q.advance := by
  induction items generalizing c p with
  | nil => exact ⟨[], rfl, .nil, c, p, rfl, rfl⟩
  | cons item items ih =>
      cases item with
      | unreadable line => exact ⟨[], rfl, .nil, c, p, rfl, rfl⟩
      | char d q =>
          rw [take]
          split
          · obtain ⟨part, same, carries, e, r, last, stop⟩ := ih d q
            refine ⟨.char d q :: part, congrArg _ same, .cons carries, e, r, ?_, stop⟩
            rwa [List.getLast?_cons_cons]
          · exact ⟨[], rfl, .nil, c, p, rfl, rfl⟩

theorem Run.not_mem_take {kind : Char → Bool} {c : Char} (other : kind c = false) (stop : Position)
    (items : List Item) : c ∉ (take kind stop items).chars := by
  intro member
  have taken := List.all_eq_true.1 (all_take kind stop items) c member
  rw [other] at taken
  cases taken

/-- A token that is a character and a run of further ones. -/
theorem Scan.Cuts.run {kind : Char → Bool} {c : Char} {p : Position} {items : List Item} {t : Token}
    (lineFeed : kind '\n' = false) (black : c ≠ '\n')
    (spelling : t.spelling = c :: (Run.take kind p.advance items).chars) :
    (Scan.settled t ⟨p, (Run.take kind p.advance items).stop⟩
      (Run.take kind p.advance items).rest).Cuts (.char c p :: items) := by
  obtain ⟨part, same, carries, last⟩ := Run.exists_part_take kind c p items
  have written : Located.WrittenAs ⟨t, ⟨p, (Run.take kind p.advance items).stop⟩⟩
      (.char c p :: part) := by
    refine ⟨?_, ?_, ⟨c, rfl⟩, last⟩
    · change Carries _ t.spelling
      rw [spelling]
      exact .cons carries
    · change '\n' ∉ t.spelling
      rw [spelling]
      exact List.not_mem_cons_of_ne_of_not_mem black.symm (Run.not_mem_take lineFeed _ _)
  have cuts := Scan.Cuts.settled written (Run.take kind p.advance items).rest
  rwa [List.cons_append, ← same] at cuts

theorem cuts_scanWord {c : Char} (black : c ≠ '\n') (p : Position) (rest : List Item) :
    (scanWord c p rest).Cuts (.char c p :: rest) := by
  unfold scanWord
  split
  · rename_i assign
    subst assign
    have written : Located.WrittenAs ⟨.assignment .assign, .of p⟩ [.char '=' p] :=
      ⟨.cons .nil, Assignment.lineFeed_not_mem_sign _, .one '=' p⟩
    exact .token written rest
  split
  · rename_i change
    split
    · rename_i q rest
      have covers : Span.Covers ⟨p, q.advance⟩ [.char c p, .char '=' q] :=
        ⟨⟨c, rfl⟩, '=', q, rfl, rfl⟩
      rw [Bool.or_eq_true, decide_eq_true_eq, decide_eq_true_eq] at change
      rcases change with rfl | rfl
      · have written : Located.WrittenAs ⟨.assignment .set, ⟨p, q.advance⟩⟩ _ :=
          ⟨.cons (.cons .nil), Assignment.lineFeed_not_mem_sign _, covers⟩
        exact .token written rest
      · have written : Located.WrittenAs ⟨.assignment .reset, ⟨p, q.advance⟩⟩ _ :=
          ⟨.cons (.cons .nil), Assignment.lineFeed_not_mem_sign _, covers⟩
        exact .token written rest
    · exact .settled (.one black p) rest
  split
  · exact .run (by decide) black String.toList_ofList
  split
  · exact .run (by decide) black String.toList_ofList
  · exact .token (.one black p) rest

/-! Scans. What is passed before a token only makes the items longer. -/

mutual

theorem cuts_scan (here : Position) : ∀ items, (scan here items).Cuts items
  | [] => by
    unfold scan
    exact .finished here []
  | .unreadable line :: rest => by
    unfold scan
    exact .unreadable here (List.suffix_cons _ rest)
  | .char c p :: rest => by
    unfold scan
    split
    · exact (cuts_scan _ rest).cons _
    · rename_i black
      split
      · rename_i slash
        subst slash
        exact cuts_scanSlash p rest
      · refine cuts_scanWord ?_ p rest
        rintro rfl
        exact black (by decide)

theorem cuts_scanSlash (start : Position) :
    ∀ items, (scanSlash start items).Cuts (.char '/' start :: items)
  | [] => by
    unfold scanSlash
    exact .token (.one (by decide) start) []
  | .unreadable line :: rest => by
    unfold scanSlash
    exact .cons (.unreadable _ (List.suffix_cons _ rest)) _
  | .char c p :: rest => by
    unfold scanSlash
    split
    · exact ((cuts_scanLine _ rest).cons _).cons _
    split
    · exact ((cuts_scanBlock _ _ _ rest).cons _).cons _
    · exact .token (.one (by decide) start) (.char c p :: rest)

theorem cuts_scanLine (here : Position) : ∀ items, (scanLine here items).Cuts items
  | [] => by
    unfold scanLine
    exact .finished here []
  | .unreadable line :: rest => by
    unfold scanLine
    exact .unreadable here (List.suffix_cons _ rest)
  | .char c p :: rest => by
    unfold scanLine
    split
    · exact (cuts_scan _ rest).cons _
    · exact (cuts_scanLine _ rest).cons _

theorem cuts_scanBlock (start : Position) (star : Bool) (here : Position) :
    ∀ items, (scanBlock start star here items).Cuts items
  | [] => by
    unfold scanBlock
    exact ⟨List.nil_suffix, nofun⟩
  | .unreadable line :: rest => by
    unfold scanBlock
    exact .unreadable here (List.suffix_cons _ rest)
  | .char c p :: rest => by
    unfold scanBlock
    split
    · exact (cuts_scan _ rest).cons _
    · exact (cuts_scanBlock _ _ _ rest).cons _

end

/-- Every token stands in the items that are scanned. -/
theorem Cursor.stands_of_mem_lexemes {c : Cursor} {t : Located Token}
    (member : .ok t ∈ c.lexemes) : t.Stands c.items := by
  fun_induction Cursor.lexemes c with
  | case1 => cases member
  | case2 c lexeme rest found ih =>
      have cuts : Scan.Cuts c.items ⟨some lexeme, rest⟩ := found ▸ cuts_scan c.here c.items
      rcases List.mem_cons.1 member with rfl | later
      · obtain ⟨part, inside, written⟩ := cuts.found t rfl
        exact ⟨part, (List.prefix_append part rest.items).isInfix.trans inside.isInfix, written⟩
      · obtain ⟨part, inside, written⟩ := ih later
        exact ⟨part, inside.trans cuts.rest.isInfix, written⟩

end RelayLogic
