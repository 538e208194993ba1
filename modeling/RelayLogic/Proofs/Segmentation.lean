import RelayLogic.Proofs.Numerals
import RelayLogic.Proofs.SourceText

/-! How a text is cut. Every character of it belongs to one token or to one separator, and the
scanner finds the tokens in order, each at its place. A token takes all the characters that it can,
so what is behind it never goes on with it. -/
namespace RelayLogic

/-- Whether characters go on with none of a kind. -/
def Stops (kind : Char → Bool) (rest : List Char) : Prop := ∀ c ∈ rest.head?, kind c = false

/-- `Munches t front rest`: the token takes the characters `front`, and none of `rest` behind
them. -/
inductive Munches : Token → List Char → List Char → Prop
  | assign (rest : List Char) : Munches (.assignment .assign) ['='] rest
  | set (rest : List Char) : Munches (.assignment .set) ['+', '='] rest
  | reset (rest : List Char) : Munches (.assignment .reset) ['-', '='] rest
  | sign {c : Char} {rest : List Char} : c = '+' ∨ c = '-' → Stops (· = '=') rest →
      Munches (.char c) [c] rest
  | slash {rest : List Char} : Stops (fun c => c = '/' || c = '*') rest →
      Munches (.char '/') ['/'] rest
  | integer {c : Char} {digits rest : List Char} : c.isDigit = true →
      digits.all Char.isDigit = true → Stops Char.isDigit rest →
      Munches (.integer (decimalValue (c :: digits)) (String.ofList (c :: digits))) (c :: digits)
        rest
  | ident {c : Char} {word rest : List Char} : isWordStart c = true →
      word.all isWordChar = true → Stops isWordChar rest →
      Munches (.ident (String.ofList (c :: word))) (c :: word) rest
  | other {c : Char} (rest : List Char) : isBlank c = false → c ∉ ['/', '=', '+', '-'] →
      c.isDigit = false → isWordStart c = false → Munches (.char c) [c] rest

/-- What may stand between tokens: a blank, a comment up to the end of its line, or a comment up to
the first `*/` behind its opening. -/
inductive Separator : List Char → Prop
  | blank {c : Char} : isBlank c = true → Separator [c]
  | line {body : List Char} : '\n' ∉ body → Separator ('/' :: '/' :: (body ++ ['\n']))
  | block {body : List Char} : ¬['*', '/'] <:+: body →
      Separator ('/' :: '*' :: (body ++ ['*', '/']))

/-- Whether a span reaches from the first of some items to behind the last one. -/
structure Span.Covers (span : Span) (items : List Item) : Prop where
  first : ∃ c, items.head? = some (.char c span.start)
  last : ∃ c p, items.getLast? = some (.char c p) ∧ span.stop = p.advance

/-- `Segments items lexemes`: the items are separators and the characters of tokens, and the lexemes
are these tokens in order, each with the span of its characters. Only a comment that is never closed
ends them with an error, which stands at its opening slash. -/
inductive Segments : List Item → List Lexeme → Prop
  | finished : Segments [] []
  | separator {front rest : List Item} {cs : List Char} {lexemes : List Lexeme} :
      Carries front cs → Separator cs → Segments rest lexemes → Segments (front ++ rest) lexemes
  | token {front rest : List Item} {cs cs' : List Char} {t : Located Token}
      {lexemes : List Lexeme} : Carries front cs → Carries rest cs' → Munches t.value cs cs' →
      t.span.Covers front → Segments rest lexemes → Segments (front ++ rest) (.ok t :: lexemes)
  | unclosed {place place' : Position} {rest : List Item} {cs : List Char} :
      Carries rest cs → ¬['*', '/'] <:+: cs →
      Segments (.char '/' place :: .char '*' place' :: rest)
        [.error ⟨.unterminatedComment, .of place⟩]

/-! Comments. -/

/-- Whether characters end with a line feed, if there are any. -/
def Ended (cs : List Char) : Prop := ∀ c ∈ cs.getLast?, c = '\n'

theorem Ended.of_append {cs cs' : List Char} (h : Ended (cs ++ cs')) : Ended cs' := by
  intro c last
  refine h c ?_
  rw [Option.mem_def] at last ⊢
  rw [List.getLast?_append, last]
  rfl

theorem Ended.of_cons {c : Char} {cs : List Char} (h : Ended (c :: cs)) : Ended cs :=
  @Ended.of_append [c] cs h

theorem Ended.mem_of_ne {c : Char} {cs : List Char} (h : Ended (c :: cs)) (other : c ≠ '\n') :
    '\n' ∈ cs := by
  cases cs with
  | nil => exact absurd (h c rfl) other
  | cons d cs =>
      have last := List.getLast?_eq_some_getLast (List.cons_ne_nil d cs)
      rw [← h _ last]
      exact List.getLast_mem _

theorem Ended.cons {c : Char} {cs : List Char} (h : Ended cs) (some : cs ≠ []) :
    Ended (c :: cs) := by
  obtain ⟨d, rest, rfl⟩ := List.exists_cons_of_ne_nil some
  exact h

theorem readable_ne_nil (c : Char) (cs : List Char) : readable (c :: cs) ≠ [] := by
  induction cs generalizing c with
  | nil =>
      rw [readable]
      split <;> exact List.cons_ne_nil _ _
  | cons d rest ih =>
      rw [readable]
      split
      · exact ih d
      · exact List.cons_ne_nil _ _

theorem ended_readable (cs : List Char) : Ended (readable cs) := by
  fun_induction readable cs with
  | case1 => exact nofun
  | case2 | case3 =>
    intro d last
    exact (Option.some.inj last).symm
  | case4 _ _ _ _ ih => exact ih
  | case5 _ d rest _ ih => exact ih.cons (readable_ne_nil d rest)

/-- A comment that ends with its line is passed up to there. -/
theorem scanLine_of_carries {items : List Item} {cs : List Char} (carries : Carries items cs)
    (inside : '\n' ∈ cs) (here : Position) :
    ∃ body front rest cs' here', items = front ++ rest ∧ cs = (body ++ ['\n']) ++ cs' ∧
      Carries front (body ++ ['\n']) ∧ Carries rest cs' ∧ '\n' ∉ body ∧
      scanLine here items = scan here' rest := by
  induction carries generalizing here with
  | nil => cases inside
  | @cons c p items cs carries ih =>
      by_cases ended : c = '\n'
      · subst ended
        refine ⟨[], [.char '\n' p], items, cs, p.newline, rfl, rfl, .cons .nil, carries,
          List.not_mem_nil, ?_⟩
        exact (scanLine.eq_def _ _).trans (if_pos rfl)
      · have later := (List.mem_cons.1 inside).resolve_left (Ne.symm ended)
        obtain ⟨body, front, rest, cs', here', rfl, rfl, characters, left, none, same⟩ :=
          ih later p.advance
        refine ⟨c :: body, .char c p :: front, rest, cs', here', rfl, rfl, .cons characters, left,
          ?_, ?_⟩
        · exact List.not_mem_cons_of_ne_of_not_mem (Ne.symm ended) none
        · exact (scanLine.eq_def _ _).trans ((if_neg ended).trans same)

/-- A further character closes a comment just if it is a slash behind a star. -/
theorem closes_append_singleton {read : List Char} {c : Char} :
    ['*', '/'] <:+: read ++ [c] ↔ (['*'] <:+ read ∧ c = '/') ∨ ['*', '/'] <:+: read := by
  rw [List.infix_concat_iff, List.suffix_concat_iff]
  refine or_congr_left ?_
  constructor
  · rintro (impossible | ⟨front, same, behind⟩)
    · cases impossible
    · obtain ⟨rfl, last⟩ := List.append_inj' (show ['*'] ++ ['/'] = front ++ [c] from same) rfl
      exact ⟨behind, (List.cons.inj last).1.symm⟩
  · rintro ⟨behind, rfl⟩
    exact .inr ⟨['*'], rfl, behind⟩

/-- A comment between `/*` and `*/` is passed up to the first `*/`, and is an error if there is
none. `read` is what was read of it before. -/
theorem scanBlock_of_carries (start : Position) {items : List Item} {cs : List Char}
    (carries : Carries items cs) {read : List Char} {star : Bool}
    (unclosed : ¬['*', '/'] <:+: read) (starred : star = true ↔ ['*'] <:+ read)
    (here : Position) :
    (∃ body front rest inside cs' here', items = front ++ rest ∧ cs = inside ++ cs' ∧
        Carries front inside ∧ Carries rest cs' ∧ read ++ inside = body ++ ['*', '/'] ∧
        ¬['*', '/'] <:+: body ∧ scanBlock start star here items = scan here' rest) ∨
      (¬['*', '/'] <:+: read ++ cs ∧ ∃ here', scanBlock start star here items =
        ⟨some (.error ⟨.unterminatedComment, .of start⟩), ⟨here', []⟩⟩) := by
  induction carries generalizing read star here with
  | nil => exact .inr ⟨by rwa [List.append_nil], here, by rw [scanBlock]⟩
  | @cons c p items cs carries ih =>
      by_cases closing : star = true ∧ c = '/'
      · obtain ⟨on, rfl⟩ := closing
        obtain ⟨body, rfl⟩ := starred.1 on
        refine .inl ⟨body, [.char '/' p], items, ['/'], cs, p.advance, rfl, rfl, .cons .nil,
          carries, List.append_assoc _ _ _, fun early => unclosed ?_, ?_⟩
        · exact early.trans (List.infix_append' [] body ['*'])
        · exact (scanBlock.eq_def _ _ _ _).trans (if_pos (by simp [on]))
      · have unclosed' : ¬['*', '/'] <:+: read ++ [c] := by
          rw [closes_append_singleton, ← starred]
          exact fun h => h.elim closing unclosed
        have starred' : decide (c = '*') = true ↔ ['*'] <:+ read ++ [c] := by
          rw [decide_eq_true_iff, List.suffix_concat_iff]
          constructor
          · rintro rfl
            exact .inr ⟨[], rfl, List.nil_suffix⟩
          · rintro (impossible | ⟨front, same, -⟩)
            · cases impossible
            · obtain ⟨-, last⟩ := List.append_inj' (show [] ++ ['*'] = front ++ [c] from same) rfl
              exact (List.cons.inj last).1.symm
        have step : scanBlock start star here (.char c p :: items) =
            scanBlock start (c = '*') (p.after c) items :=
          (scanBlock.eq_def _ _ _ _).trans (if_neg (by simpa using closing))
        rw [step]
        rcases ih unclosed' starred' (p.after c) with
          ⟨body, front, rest, inside, cs', here', rfl, rfl, characters, left, split, first, same⟩ |
          ⟨never, here', same⟩
        · refine .inl ⟨body, .char c p :: front, rest, c :: inside, cs', here', rfl, rfl,
            .cons characters, left, ?_, first, same⟩
          rw [← split, List.append_assoc]
          rfl
        · rw [List.append_assoc] at never
          exact .inr ⟨never, here', same⟩

/-! Tokens. -/

/-- A scan that takes a token at the front of some items with these characters. -/
inductive Scan.Takes : List Item → List Char → Scan → Prop
  | intro {front rest : List Item} {cs cs' : List Char} {t : Token} {span : Span} :
      Carries front cs → Carries rest cs' → Munches t cs cs' → span.Covers front →
      Takes (front ++ rest) (cs ++ cs') (.token t span rest)

theorem Scan.settled_of_carries {items : List Item} {cs : List Char} (h : Carries items cs)
    (t : Token) (span : Span) : Scan.settled t span items = .token t span items := by
  cases h <;> rfl

theorem Span.Covers.one (c : Char) (p : Position) : (Span.of p).Covers [.char c p] :=
  ⟨⟨c, rfl⟩, c, p, rfl, rfl⟩

/-- A run behind a character takes the characters of its kind, and all of them. -/
theorem Run.carries_take {items : List Item} {cs : List Char} (h : Carries items cs)
    (kind : Char → Bool) (c : Char) (p : Position) :
    ∃ front rest, items = front ++ (take kind p.advance items).rest ∧
      cs = (take kind p.advance items).chars ++ rest ∧
      Carries front (take kind p.advance items).chars ∧
      Carries (take kind p.advance items).rest rest ∧
      (take kind p.advance items).chars.all kind = true ∧ Stops kind rest ∧
      ∃ d q, (Item.char c p :: front).getLast? = some (.char d q) ∧
        (take kind p.advance items).stop = q.advance := by
  induction h generalizing c p with
  | nil => exact ⟨[], [], rfl, rfl, .nil, .nil, rfl, by simp [Stops], c, p, rfl, rfl⟩
  | @cons d q items cs carries ih =>
      rw [take]
      split
      · rename_i taken
        obtain ⟨front, rest, same, chars, here, left, all, stops, e, r, last, stop⟩ := ih d q
        refine ⟨.char d q :: front, rest, congrArg _ same, congrArg _ chars, .cons here, left,
          ?_, stops, e, r, ?_, stop⟩
        · rw [List.all_cons, taken, all]
          rfl
        · rw [List.getLast?_cons_cons, last]
      · rename_i refused
        refine ⟨[], d :: cs, rfl, rfl, .nil, .cons carries, rfl, ?_, c, p, rfl, rfl⟩
        intro e first
        obtain rfl := Option.some.inj first
        exact Bool.eq_false_iff.2 refused

theorem scanWord_takes {c : Char} (black : isBlank c = false) (noSlash : c ≠ '/') (p : Position)
    {items : List Item} {cs : List Char} (h : Carries items cs) :
    (scanWord c p items).Takes (.char c p :: items) (c :: cs) := by
  have one : Carries [.char c p] [c] := .cons .nil
  unfold scanWord
  split
  · rename_i assign
    subst assign
    exact .intro one h (.assign cs) (.one _ p)
  rename_i noAssign
  split
  · rename_i change
    rw [Bool.or_eq_true, decide_eq_true_eq, decide_eq_true_eq] at change
    split
    · rename_i q rest
      obtain _ | @⟨_, _, _, cs, h⟩ := h
      have two : Carries [.char c p, .char '=' q] [c, '='] := .cons (.cons .nil)
      have covers : Span.Covers ⟨p, q.advance⟩ [.char c p, .char '=' q] :=
        ⟨⟨c, rfl⟩, '=', q, rfl, rfl⟩
      rcases change with rfl | rfl
      · exact .intro two h (.set cs) covers
      · exact .intro two h (.reset cs) covers
    · rename_i alone
      rw [Scan.settled_of_carries h]
      refine .intro one h (.sign change ?_) (.one c p)
      cases h with
      | nil => simp [Stops]
      | cons h =>
          intro d first
          obtain rfl := Option.some.inj first
          rw [decide_eq_false_iff_not]
          rintro rfl
          exact alone _ _ rfl
  rename_i noSign
  split
  · rename_i digit
    obtain ⟨front, rest, same, rfl, here, left, all, stops, last⟩ :=
      Run.carries_take h Char.isDigit c p
    have covers : Span.Covers ⟨p, (Run.take Char.isDigit p.advance items).stop⟩
        (.char c p :: front) := ⟨⟨c, rfl⟩, last⟩
    dsimp only
    rw [Scan.settled_of_carries left]
    have takes := Scan.Takes.intro (.cons here) left (.integer digit all stops) covers
    rwa [List.cons_append, ← same] at takes
  rename_i noDigit
  split
  · rename_i start
    obtain ⟨front, rest, same, rfl, here, left, all, stops, last⟩ :=
      Run.carries_take h isWordChar c p
    have covers : Span.Covers ⟨p, (Run.take isWordChar p.advance items).stop⟩
        (.char c p :: front) := ⟨⟨c, rfl⟩, last⟩
    dsimp only
    rw [Scan.settled_of_carries left]
    have takes := Scan.Takes.intro (.cons here) left (.ident start all stops) covers
    rwa [List.cons_append, ← same] at takes
  · rename_i noStart
    rw [Bool.or_eq_true, decide_eq_true_eq, decide_eq_true_eq, not_or] at noSign
    refine .intro one h (.other cs black ?_ (Bool.eq_false_iff.2 noDigit)
      (Bool.eq_false_iff.2 noStart)) (.one c p)
    simp [noSlash, noAssign, noSign]

/-! Whole texts. -/

theorem Cursor.lexemes_eq (c : Cursor) :
    c.lexemes = match c.scan with
      | ⟨none, _⟩ => []
      | ⟨some lexeme, rest⟩ => lexeme :: rest.lexemes := by
  rw [lexemes]
  split <;> simp [*]

theorem Cursor.lexemes_congr {c d : Cursor} (same : c.scan = d.scan) : c.lexemes = d.lexemes := by
  rw [lexemes_eq, same, ← lexemes_eq]

theorem Cursor.lexemes_nil (here : Position) : lexemes ⟨here, []⟩ = [] := by
  rw [lexemes_eq, scan, RelayLogic.scan]
  rfl

theorem Cursor.lexemes_of_token {c : Cursor} {t : Token} {span : Span} {rest : List Item}
    (found : c.scan = .token t span rest) :
    c.lexemes = .ok ⟨t, span⟩ :: lexemes ⟨span.stop, rest⟩ := by
  rw [lexemes_eq, found]
  rfl

theorem Scan.Takes.segments {c : Cursor} {items : List Item} {cs : List Char}
    (takes : c.scan.Takes items cs) (ended : Ended cs)
    (behind : ∀ {rest : List Item} {cs' : List Char}, rest.length < items.length →
      Carries rest cs' → Ended cs' → ∀ here, Segments rest (Cursor.lexemes ⟨here, rest⟩)) :
    Segments items c.lexemes := by
  generalize found : c.scan = s at takes
  cases takes with
  | @intro front rest cs cs' t span here left munches covers =>
      rw [Cursor.lexemes_of_token found]
      have less : rest.length < (front ++ rest).length := by
        obtain ⟨c, first⟩ := covers.first
        cases front with
        | nil => cases first
        | cons item front =>
            rw [List.length_append, List.length_cons]
            omega
      have later := behind less left ended.of_append span.stop
      exact .token (t := ⟨t, span⟩) here left munches covers later

/-- Behind a slash a comment begins, or the slash is a token. -/
theorem segments_slash {c : Cursor} {p : Position} {items : List Item} {cs : List Char}
    (carries : Carries items cs) (ended : Ended ('/' :: cs)) (opened : c.scan = scanSlash p items)
    (behind : ∀ {rest : List Item} {cs' : List Char}, rest.length < items.length + 1 →
      Carries rest cs' → Ended cs' → ∀ here, Segments rest (Cursor.lexemes ⟨here, rest⟩)) :
    Segments (.char '/' p :: items) c.lexemes := by
  have alone : Stops (fun c => c = '/' || c = '*') cs →
      scanSlash p items = .token (.char '/') (.of p) items →
      Segments (.char '/' p :: items) c.lexemes := by
    intro stops same
    have takes := Scan.Takes.intro (.cons .nil) carries (.slash stops) (.one '/' p)
    rw [← same, ← opened] at takes
    exact takes.segments ended behind
  cases carries with
  | nil => exact alone (by simp [Stops]) (by rw [scanSlash])
  | @cons d q items cs carries =>
      by_cases line : d = '/'
      · subst line
        obtain ⟨body, front, rest, cs', here', rfl, rfl, characters, left, single, same⟩ :=
          scanLine_of_carries carries (ended.of_cons.mem_of_ne (by decide)) q.advance
        have passed : c.scan = Cursor.scan ⟨here', rest⟩ :=
          opened.trans ((scanSlash.eq_def _ _).trans ((if_pos rfl).trans same))
        rw [Cursor.lexemes_congr passed]
        have later := behind (by simp; omega) left ended.of_cons.of_cons.of_append here'
        exact .separator (.cons (.cons characters)) (.line single) later
      by_cases block : d = '*'
      · subst block
        have inside : c.scan = scanBlock p false q.advance items :=
          opened.trans ((scanSlash.eq_def _ _).trans ((if_neg line).trans (if_pos rfl)))
        have unread : ¬['*', '/'] <:+: ([] : List Char) := by simp
        have unstarred : false = true ↔ ['*'] <:+ ([] : List Char) := by simp
        rcases scanBlock_of_carries p carries unread unstarred q.advance with
          ⟨body, front, rest, inner, cs', here', rfl, rfl, characters, left, rfl, first, same⟩ |
          ⟨never, here', same⟩
        · have passed : c.scan = Cursor.scan ⟨here', rest⟩ := inside.trans same
          rw [Cursor.lexemes_congr passed]
          have later := behind (by simp; omega) left ended.of_cons.of_cons.of_append here'
          exact .separator (.cons (.cons characters)) (.block first) later
        · have failed : c.lexemes = [.error ⟨.unterminatedComment, .of p⟩] := by
            rw [Cursor.lexemes_eq, inside, same]
            exact congrArg _ (Cursor.lexemes_nil here')
          rw [failed]
          exact .unclosed carries never
      · refine alone ?_ ((scanSlash.eq_def _ _).trans ((if_neg line).trans (if_neg block)))
        intro e first
        obtain rfl := Option.some.inj first
        simp [line, block]

/-- Characters whose last line is ended are cut into separators and tokens. -/
theorem segments_of_carries {items : List Item} {cs : List Char} (carries : Carries items cs)
    (ended : Ended cs) (here : Position) : Segments items (Cursor.lexemes ⟨here, items⟩) := by
  cases carries with
  | nil =>
      rw [Cursor.lexemes_nil]
      exact .finished
  | @cons c p items cs carries =>
      by_cases blank : isBlank c = true
      · have passed : Cursor.scan ⟨here, .char c p :: items⟩ = Cursor.scan ⟨p.after c, items⟩ :=
          (scan.eq_def _ _).trans (if_pos blank)
        rw [Cursor.lexemes_congr passed]
        exact .separator (.cons .nil) (.blank blank)
          (segments_of_carries carries ended.of_cons _)
      by_cases slash : c = '/'
      · subst slash
        have opened : Cursor.scan ⟨here, .char '/' p :: items⟩ = scanSlash p items :=
          (scan.eq_def _ _).trans ((if_neg blank).trans (if_pos rfl))
        exact segments_slash carries ended opened fun less carries ended here =>
          segments_of_carries carries ended here
      · have word : Cursor.scan ⟨here, .char c p :: items⟩ = scanWord c p items :=
          (scan.eq_def _ _).trans ((if_neg blank).trans (if_neg slash))
        have takes := scanWord_takes (Bool.eq_false_iff.2 blank) slash p carries
        rw [← word] at takes
        exact takes.segments ended fun less carries ended here =>
          segments_of_carries carries ended here
termination_by items.length

/-- A text is cut into separators and tokens. Its characters are those that are read, and a number
token has the number it stands for, but that it wraps. -/
theorem Source.segments_ofString (name text : String) :
    Carries (ofString name text).items (readable text.toList) ∧
      Segments (ofString name text).items (ofString name text).lexemes ∧
      ∀ value digits span, .ok ⟨.integer value digits, span⟩ ∈ (ofString name text).lexemes →
        value.toNat = numeral digits.toList % 2 ^ 64 := by
  have carries := carries_ofString name text
  have segments := segments_of_carries carries (ended_readable text.toList) .origin
  exact ⟨carries, segments, fun value digits span member => Cursor.honest_lexemes _ member⟩

end RelayLogic
