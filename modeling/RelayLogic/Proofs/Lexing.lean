import Mathlib
import RelayLogic.Proofs.Reading
import RelayLogic.Proofs.Segmentation

/-! How characters make up tokens. What stands between tokens is skipped, blank by blank and comment
by comment, and a token takes all the characters that it can. The scanner finds the tokens of a text
just where the text is made up so. -/
namespace RelayLogic

/-- Where a scan stands: between tokens, in a comment that ends with its line, or in a comment that
ends with the first `*/`. `star` tells whether the character before was a star. -/
inductive Region where
  | text
  | line
  | block (star : Bool)

/-- `Skips region cs rest`: from a region on, no token is found up to the characters `rest`. -/
inductive Skips : Region → List Char → List Char → Prop
  | stop (cs : List Char) : Skips .text cs cs
  | blank {c : Char} {cs rest : List Char} : isBlank c = true → Skips .text cs rest →
      Skips .text (c :: cs) rest
  | line {cs rest : List Char} : Skips .line cs rest → Skips .text ('/' :: '/' :: cs) rest
  | lineChar {c : Char} {cs rest : List Char} : c ≠ '\n' → Skips .line cs rest →
      Skips .line (c :: cs) rest
  | lineEnd {cs rest : List Char} : Skips .text cs rest → Skips .line ('\n' :: cs) rest
  | lineOut : Skips .line [] []
  | block {cs rest : List Char} : Skips (.block false) cs rest → Skips .text ('/' :: '*' :: cs) rest
  | blockChar {star : Bool} {c : Char} {cs rest : List Char} : ¬(star = true ∧ c = '/') →
      Skips (.block (c = '*')) cs rest → Skips (.block star) (c :: cs) rest
  | blockEnd {cs rest : List Char} : Skips .text cs rest → Skips (.block true) ('/' :: cs) rest

/-- The tokens that characters make up. -/
inductive Lexes : List Char → List Token → Prop
  | finished {cs : List Char} : Skips .text cs [] → Lexes cs []
  | token {cs front rest : List Char} {t : Token} {ts : List Token} :
      Skips .text cs (front ++ rest) → Munches t front rest → Lexes rest ts → Lexes cs (t :: ts)

/-! What segments make up. -/

theorem Skips.trans {region : Region} {cs between rest : List Char} (h : Skips region cs between)
    (h' : Skips .text between rest) : Skips region cs rest := by
  induction h with
  | stop => exact h'
  | blank blank _ ih => exact .blank blank (ih h')
  | line _ ih => exact .line (ih h')
  | lineChar other _ ih => exact .lineChar other (ih h')
  | lineEnd _ ih => exact .lineEnd (ih h')
  | lineOut =>
      cases h'
      exact .lineOut
  | block _ ih => exact .block (ih h')
  | blockChar other _ ih => exact .blockChar other (ih h')
  | blockEnd _ ih => exact .blockEnd (ih h')

theorem Lexes.after_skip {cs between : List Char} {words : List Token}
    (skips : Skips .text cs between) (h : Lexes between words) : Lexes cs words := by
  cases h with
  | finished skips' => exact .finished (skips.trans skips')
  | token skips' munches behind => exact .token (skips.trans skips') munches behind

theorem Skips.line_body {body : List Char} (single : '\n' ∉ body) (rest : List Char) :
    Skips .line (body ++ '\n' :: rest) rest := by
  induction body with
  | nil => exact .lineEnd (.stop rest)
  | cons c body ih =>
      have other := (List.ne_of_not_mem_cons single).symm
      exact .lineChar other (ih (List.not_mem_of_not_mem_cons single))

theorem Skips.block_body {body : List Char} {star : Bool}
    (apart : star = true → body.head? ≠ some '/') (first : ¬['*', '/'] <:+: body)
    (rest : List Char) : Skips (.block star) (body ++ '*' :: '/' :: rest) rest := by
  induction body generalizing star with
  | nil => exact .blockChar (fun both => absurd both.2 (by decide)) (.blockEnd (.stop rest))
  | cons c body ih =>
      rw [List.infix_cons_iff, not_or] at first
      refine .blockChar ?_ (ih ?_ first.2)
      · rintro ⟨on, rfl⟩
        exact apart on rfl
      · intro star next
        obtain rfl := of_decide_eq_true star
        obtain ⟨body, rfl⟩ := List.head?_eq_some_iff.1 next
        exact first.1 ⟨body, rfl⟩

theorem Separator.skips {front : List Char} (h : Separator front) (rest : List Char) :
    Skips .text (front ++ rest) rest := by
  cases h with
  | blank blank => exact .blank blank (.stop rest)
  | @line body single =>
      have passed := Skips.line (Skips.line_body single rest)
      simpa using passed
  | @block body first =>
      have inside : Skips (.block false) (body ++ '*' :: '/' :: rest) rest :=
        Skips.block_body (by simp) first rest
      have passed := Skips.block inside
      simpa using passed

theorem Carries.of_append {front rest : List Item} {cs all : List Char} (here : Carries front cs)
    (h : Carries (front ++ rest) all) : ∃ cs', all = cs ++ cs' ∧ Carries rest cs' := by
  induction here generalizing all with
  | nil => exact ⟨all, rfl, h⟩
  | cons _ ih =>
      cases h with
      | cons h =>
          obtain ⟨cs', rfl, left⟩ := ih h
          exact ⟨cs', rfl, left⟩

theorem Carries.unique {items : List Item} {cs cs' : List Char} (h : Carries items cs)
    (h' : Carries items cs') : cs = cs' := by
  rw [← List.append_nil items] at h'
  obtain ⟨_, rfl, nothing⟩ := h.of_append h'
  cases nothing
  exact (List.append_nil cs).symm

/-- Characters that are cut without an error make up the tokens. -/
theorem Segments.lexes {items : List Item} {lexemes : List Lexeme} (h : Segments items lexemes)
    {ts : Tokens} (scanned : lexemes = ts.map .ok) {cs : List Char} (carries : Carries items cs) :
    Lexes cs (ts.map Located.value) := by
  induction h generalizing ts cs with
  | finished =>
      obtain rfl := List.map_eq_nil_iff.1 scanned.symm
      cases carries
      exact .finished (.stop [])
  | separator here separator _ ih =>
      obtain ⟨rest, rfl, left⟩ := here.of_append carries
      exact (ih scanned left).after_skip (separator.skips rest)
  | token here left munches _ _ ih =>
      obtain ⟨rest, rfl, left'⟩ := here.of_append carries
      obtain rfl := left.unique left'
      obtain ⟨t, ts, rfl, same, behind⟩ := List.map_eq_cons_iff.1 scanned.symm
      cases same
      exact .token (.stop _) munches (ih behind.symm left)
  | unclosed =>
      obtain ⟨t, ts, rfl, same, -⟩ := List.map_eq_cons_iff.1 scanned.symm
      cases same

/-- The scan that goes on from a region. -/
def Region.scan (start here : Position) : Region → List Item → Scan
  | text => RelayLogic.scan here
  | line => scanLine here
  | block star => scanBlock start star here

/-- What may be skipped is skipped. -/
theorem Skips.scan {region : Region} {cs rest : List Char} (h : Skips region cs rest)
    (start here : Position) {items : List Item} (carries : Carries items cs) :
    ∃ here' items', region.scan start here items = RelayLogic.scan here' items' ∧
      Carries items' rest := by
  induction h generalizing start here items with
  | stop cs => exact ⟨here, items, rfl, carries⟩
  | @blank c _ _ blank _ ih =>
      obtain _ | @⟨_, p, items, _, carries⟩ := carries
      obtain ⟨here', items', same, left⟩ := ih start (p.after c) carries
      refine ⟨here', items', ?_, left⟩
      rw [← same]
      exact (RelayLogic.scan.eq_def _ _).trans (if_pos blank)
  | line _ ih =>
      obtain _ | @⟨_, p, _, _, _ | @⟨_, q, items, _, carries⟩⟩ := carries
      obtain ⟨here', items', same, left⟩ := ih start q.advance carries
      refine ⟨here', items', ?_, left⟩
      rw [← same, Region.scan, RelayLogic.scan, if_neg (by decide), if_pos rfl, scanSlash,
        if_pos rfl]
      rfl
  | lineChar inside _ ih =>
      obtain _ | @⟨_, p, items, _, carries⟩ := carries
      obtain ⟨here', items', same, left⟩ := ih start p.advance carries
      refine ⟨here', items', ?_, left⟩
      rw [← same]
      exact (scanLine.eq_def _ _).trans (if_neg inside)
  | lineEnd _ ih =>
      obtain _ | @⟨_, p, items, _, carries⟩ := carries
      obtain ⟨here', items', same, left⟩ := ih start p.newline carries
      refine ⟨here', items', ?_, left⟩
      rw [← same]
      exact (scanLine.eq_def _ _).trans (if_pos rfl)
  | lineOut =>
      cases carries
      exact ⟨here, [], by rw [Region.scan, scanLine, RelayLogic.scan], .nil⟩
  | block _ ih =>
      obtain _ | @⟨_, p, _, _, _ | @⟨_, q, items, _, carries⟩⟩ := carries
      obtain ⟨here', items', same, left⟩ := ih p q.advance carries
      refine ⟨here', items', ?_, left⟩
      rw [← same, Region.scan, RelayLogic.scan, if_neg (by decide), if_pos rfl, scanSlash,
        if_neg (by decide), if_pos rfl]
      rfl
  | @blockChar star c _ _ inside _ ih =>
      obtain _ | @⟨_, p, items, _, carries⟩ := carries
      obtain ⟨here', items', same, left⟩ := ih start (p.after c) carries
      refine ⟨here', items', ?_, left⟩
      rw [← same]
      exact (scanBlock.eq_def _ _ _ _).trans (if_neg (by simpa using inside))
  | blockEnd _ ih =>
      obtain _ | @⟨_, p, items, _, carries⟩ := carries
      obtain ⟨here', items', same, left⟩ := ih start p.advance carries
      refine ⟨here', items', ?_, left⟩
      rw [← same]
      exact (scanBlock.eq_def _ _ _ _).trans (if_pos rfl)

theorem Run.take_of_carries {kind : Char → Bool} {word rest : List Char}
    (all : word.all kind = true) (stops : Stops kind rest) (stop : Position) {items : List Item}
    (h : Carries items (word ++ rest)) :
    (Run.take kind stop items).chars = word ∧ Carries (Run.take kind stop items).rest rest := by
  induction word generalizing stop items with
  | nil =>
      cases h with
      | nil => exact ⟨rfl, .nil⟩
      | cons h =>
          have refused := stops _ rfl
          rw [Run.take, refused]
          exact ⟨rfl, .cons h⟩
  | cons c word ih =>
      obtain _ | @⟨_, p, items, _, h⟩ := h
      rw [List.all_cons, Bool.and_eq_true] at all
      obtain ⟨chars, left⟩ := ih all.2 p.advance h
      rw [Run.take, if_pos all.1]
      exact ⟨congrArg (c :: ·) chars, left⟩

theorem scan_word {c : Char} (black : isBlank c = false) (noSlash : c ≠ '/') (here p : Position)
    (items : List Item) : scan here (.char c p :: items) = scanWord c p items := by
  rw [scan, if_neg (Bool.eq_false_iff.1 black), if_neg noSlash]

/-- The visible characters of ASCII are no blanks. -/
theorem isBlank_of_visible {c : Char} (low : 0x21 ≤ c.toNat) (high : c.toNat ≤ 0x7E) :
    isBlank c = false := by
  simp only [isBlank, blankRanges, List.any_cons, List.any_nil, Bool.or_false, Bool.or_eq_false_iff,
    Bool.and_eq_false_iff, decide_eq_false_iff_not]
  omega

theorem toNat_of_isDigit {c : Char} (h : c.isDigit = true) : 48 ≤ c.toNat ∧ c.toNat ≤ 57 := by
  simp only [Char.isDigit, Bool.and_eq_true, decide_eq_true_eq, ge_iff_le, UInt32.le_iff_toNat_le]
    at h
  exact h

theorem toNat_of_isWordStart {c : Char} (h : isWordStart c = true) :
    65 ≤ c.toNat ∧ c.toNat ≤ 122 := by
  simp only [isWordStart, Char.isAlpha, Char.isUpper, Char.isLower, Bool.or_eq_true,
    Bool.and_eq_true, decide_eq_true_eq, ge_iff_le, UInt32.le_iff_toNat_le] at h
  change ((65 ≤ c.toNat ∧ c.toNat ≤ 90) ∨ (97 ≤ c.toNat ∧ c.toNat ≤ 122)) ∨ c = '_' at h
  rcases h with (upper | lower) | rfl
  · omega
  · omega
  · decide

theorem isDigit_of_isWordStart {c : Char} (h : isWordStart c = true) : c.isDigit = false := by
  rw [Bool.eq_false_iff]
  intro digit
  have := toNat_of_isDigit digit
  have := toNat_of_isWordStart h
  omega

theorem ne_of_toNat {c d : Char} (h : c.toNat ≠ d.toNat) : c ≠ d := fun same => h (by rw [same])

/-- The first characters of numbers and names are neither blanks nor signs. -/
theorem apart_of_toNat {c : Char} (low : 48 ≤ c.toNat) (high : c.toNat ≤ 122)
    (noEqual : c.toNat ≠ 61) :
    isBlank c = false ∧ c ≠ '/' ∧ c ≠ '=' ∧ ¬(c = '+' || c = '-') = true := by
  refine ⟨isBlank_of_visible (by omega) (by omega), ne_of_toNat ?_, ne_of_toNat ?_, ?_⟩
  · change c.toNat ≠ 47
    omega
  · exact noEqual
  · have noPlus : c ≠ '+' := ne_of_toNat (show c.toNat ≠ 43 by omega)
    have noMinus : c ≠ '-' := ne_of_toNat (show c.toNat ≠ 45 by omega)
    simp [noPlus, noMinus]

/-- A token is found where it stands, and takes just its characters. -/
theorem Munches.scan {t : Token} {front rest : List Char} (h : Munches t front rest)
    (here : Position) {items : List Item} (carries : Carries items (front ++ rest)) :
    ∃ span items', RelayLogic.scan here items = .token t span items' ∧ Carries items' rest := by
  cases h with
  | assign =>
      obtain _ | @⟨_, p, items, _, carries⟩ := carries
      rw [scan_word (by decide) (by decide)]
      exact ⟨.of p, items, rfl, carries⟩
  | set | reset =>
      obtain _ | @⟨_, p, _, _, _ | @⟨_, q, items, _, carries⟩⟩ := carries
      rw [scan_word (by decide) (by decide)]
      exact ⟨⟨p, q.advance⟩, items, rfl, carries⟩
  | @sign c rest change stops =>
      obtain _ | @⟨_, p, items, _, carries⟩ := carries
      have alone : ∀ q rest, items ≠ .char '=' q :: rest := by
        rintro q rest rfl
        cases carries
        simpa using stops _ rfl
      have apart : isBlank c = false ∧ c ≠ '/' ∧ c ≠ '=' ∧ (c = '+' || c = '-') = true := by
        rcases change with rfl | rfl <;> decide
      obtain ⟨black, noSlash, noAssign, sign⟩ := apart
      rw [scan_word black noSlash, scanWord, if_neg noAssign, if_pos sign,
        Scan.settled_of_carries carries]
      · exact ⟨.of p, items, rfl, carries⟩
      · exact alone
  | slash stops =>
      obtain _ | @⟨_, p, items, _, carries⟩ := carries
      refine ⟨.of p, items, ?_, carries⟩
      rw [RelayLogic.scan, if_neg (by decide), if_pos rfl]
      cases carries with
      | nil => rfl
      | cons carries =>
          have refused := stops _ rfl
          rw [Bool.or_eq_false_iff, decide_eq_false_iff_not, decide_eq_false_iff_not] at refused
          rw [scanSlash, if_neg refused.1, if_neg refused.2]
  | @integer c digits rest digit all stops =>
      obtain _ | @⟨_, p, items, _, carries⟩ := carries
      obtain ⟨low, high⟩ := toNat_of_isDigit digit
      obtain ⟨black, noSlash, noAssign, noSign⟩ := apart_of_toNat low (by omega) (by omega)
      obtain ⟨chars, left⟩ := Run.take_of_carries all stops p.advance carries
      rw [scan_word black noSlash, scanWord.eq_def, if_neg noAssign, if_neg noSign, if_pos digit]
      dsimp only
      rw [Scan.settled_of_carries left, chars]
      exact ⟨_, _, rfl, left⟩
  | @ident c word rest start all stops =>
      obtain _ | @⟨_, p, items, _, carries⟩ := carries
      obtain ⟨low, high⟩ := toNat_of_isWordStart start
      obtain ⟨black, noSlash, noAssign, noSign⟩ := apart_of_toNat (by omega) high (by omega)
      have noDigit := Bool.eq_false_iff.1 (isDigit_of_isWordStart start)
      obtain ⟨chars, left⟩ := Run.take_of_carries all stops p.advance carries
      rw [scan_word black noSlash, scanWord.eq_def, if_neg noAssign, if_neg noSign, if_neg noDigit,
        if_pos start]
      dsimp only
      rw [Scan.settled_of_carries left, chars]
      exact ⟨_, _, rfl, left⟩
  | @other c rest black noSign noDigit noStart =>
      obtain _ | @⟨_, p, items, _, carries⟩ := carries
      simp only [List.mem_cons, List.not_mem_nil, or_false, not_or] at noSign
      obtain ⟨noSlash, noAssign, noPlus, noMinus⟩ := noSign
      rw [scan_word black noSlash, scanWord.eq_def, if_neg noAssign,
        if_neg (by simp [noPlus, noMinus]),
        if_neg (Bool.eq_false_iff.1 noDigit), if_neg (Bool.eq_false_iff.1 noStart)]
      exact ⟨.of p, items, rfl, carries⟩

/-! All scans of a text. -/

/-- The tokens that characters make up are scanned. -/
theorem Lexes.lexemes {cs : List Char} {words : List Token} (h : Lexes cs words) {c : Cursor}
    (carries : Carries c.items cs) :
    ∃ ts : Tokens, c.lexemes = ts.map .ok ∧ ts.map Located.value = words := by
  induction h generalizing c with
  | finished skips =>
      obtain ⟨here, items, same, left⟩ := skips.scan c.here c.here carries
      cases left
      refine ⟨[], ?_, rfl⟩
      have finished : c.scan = .finished here := same.trans (by rw [scan])
      rw [Cursor.lexemes_eq, finished]
      rfl
  | token skips munches _ ih =>
      obtain ⟨here, items, same, left⟩ := skips.scan c.here c.here carries
      obtain ⟨span, items', found, behind⟩ := munches.scan here left
      obtain ⟨ts, scanned, words⟩ := ih (c := ⟨span.stop, items'⟩) behind
      have taken : c.scan = .token _ span items' := same.trans found
      refine ⟨⟨_, span⟩ :: ts, ?_, congrArg (_ :: ·) words⟩
      rw [Cursor.lexemes_eq, taken]
      exact congrArg (_ :: ·) scanned

/-- A tape ends without an error just if all lexemes are tokens, which are then on it. -/
theorem Tape.ending_ofLexemes {last : Span} {lexemes : List Lexeme} :
    (∃ last', (ofLexemes last lexemes).ending = .finished last') ↔
      lexemes = (ofLexemes last lexemes).tokens.map .ok := by
  induction lexemes generalizing last with
  | nil => simp [ofLexemes]
  | cons lexeme lexemes ih =>
      cases lexeme with
      | error e => simp [ofLexemes]
      | ok t => simp [ofLexemes, ih]

theorem Tape.tokens_ofLexemes (last : Span) (ts : Tokens) :
    (ofLexemes last (ts.map .ok)).tokens = ts := by
  induction ts generalizing last with
  | nil => rfl
  | cons t ts ih => exact congrArg (t :: ·) (ih t.span)

/-- A text is read to its end, as these words, just if its characters make them up. -/
theorem Source.hasWords_ofString {name text : String} {words : List Token} :
    (ofString name text).HasWords words ↔ Lexes (readable text.toList) words := by
  have carries := carries_ofString name text
  rw [HasWords, tape, Tape.ending_ofLexemes]
  constructor
  · rintro ⟨rfl, scanned⟩
    have segments := segments_of_carries carries (ended_readable text.toList) .origin
    exact segments.lexes scanned carries
  · intro h
    obtain ⟨ts, scanned, rfl⟩ := h.lexemes (c := cursor _) carries
    rw [lexemes, scanned, Tape.tokens_ofLexemes]
    exact ⟨rfl, rfl⟩

/-- The names that can be written: a letter or an underscore, and letters, digits and underscores
behind it. -/
def WordShaped (name : String) : Prop :=
  ∃ c word, name.toList = c :: word ∧ isWordStart c = true ∧ word.all isWordChar = true

theorem Lexes.wordShaped {cs : List Char} {words : List Token} (h : Lexes cs words) {name : String}
    (member : .ident name ∈ words) : WordShaped name := by
  induction h with
  | finished => cases member
  | token _ munches _ ih =>
      rcases List.mem_cons.1 member with rfl | later
      · cases munches with
        | ident start all => exact ⟨_, _, String.toList_ofList, start, all⟩
      · exact ih later

/-- A name token has the shape of a name. -/
def Token.Shaped : Token → Prop
  | .ident name => WordShaped name
  | _ => True

theorem Run.all_take (kind : Char → Bool) (stop : Position) (items : List Item) :
    (take kind stop items).chars.all kind = true := by
  induction items generalizing stop with
  | nil => rfl
  | cons item items ih =>
      cases item with
      | unreadable place => rfl
      | char c p =>
          rw [take]
          split
          · rename_i taken
            rw [List.all_cons, taken, ih]
            rfl
          · rfl

theorem shaped_scanWord (c : Char) (p : Position) (rest : List Item) :
    (scanWord c p rest).Gives Token.Shaped := by
  unfold scanWord
  split
  · exact .token (by trivial) _ _
  split
  · split
    · exact .token (by trivial) _ _
    · exact .settled (by trivial) _ _
  split
  · exact .settled (by trivial) _ _
  split
  · rename_i start
    exact .settled ⟨c, _, String.toList_ofList, start, Run.all_take _ _ _⟩ _ _
  · exact .token (by trivial) _ _

/-- The names in every source have the shape of names. -/
theorem Source.shaped_tokens (s : Source) : ∀ t ∈ s.tape.tokens.map Located.value, t.Shaped :=
  s.gives_tokens ⟨by trivial, shaped_scanWord⟩

end RelayLogic
