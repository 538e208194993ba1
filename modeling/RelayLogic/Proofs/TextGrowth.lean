import RelayLogic.Proofs.Lexing

/-! Texts that are put behind others. Unless a comment is open that ends with its line, the words of
what follows come behind those of the text. -/
namespace RelayLogic

/-- What is open at a character of a text: no comment, a comment that ends with its line, or a
comment that ends with the first `*/`. `slash` and `star` tell of the character before. -/
inductive Opening where
  | text (slash : Bool)
  | line
  | block (star : Bool)
deriving DecidableEq

namespace Opening

def step : Opening → Char → Opening
  | text slash, c =>
    if slash && c = '/' then line else if slash && c = '*' then block false else text (c = '/')
  | line, c => if c = '\n' then text false else line
  | block star, c => if star && c = '/' then text false else block (c = '*')

/-- What is open behind some characters. -/
def after (o : Opening) (cs : List Char) : Opening := cs.foldl step o

theorem after_cons (o : Opening) (c : Char) (cs : List Char) :
    o.after (c :: cs) = (o.step c).after cs := rfl

theorem after_cons_of_step {o o' : Opening} {c : Char} (h : o.step c = o') (cs : List Char) :
    o.after (c :: cs) = o'.after cs := by rw [after_cons, h]

theorem after_append (o : Opening) (cs cs' : List Char) :
    o.after (cs ++ cs') = (o.after cs).after cs' := List.foldl_append

/-- A return before the end of a line opens and closes nothing. -/
theorem step_return (o : Opening) : (o.step '\r').step '\n' = o.step '\n' := by
  rcases o with (_ | _) | _ | (_ | _) <;> rfl

theorem step_text_of_ne {c : Char} (h : c ≠ '/') : (text false).step c = text false :=
  congrArg text (decide_eq_false h)

/-- A slash that starts no comment may as well be missing. -/
theorem step_slash {c : Char} (noSlash : c ≠ '/') (noStar : c ≠ '*') :
    (text true).step c = (text false).step c := by
  simp [step, noSlash, noStar]

theorem after_of_not_mem {cs : List Char} (h : '/' ∉ cs) :
    (text false).after cs = text false := by
  induction cs with
  | nil => rfl
  | cons c cs ih =>
      rw [List.mem_cons, not_or] at h
      rw [after_cons_of_step (step_text_of_ne (Ne.symm h.1))]
      exact ih h.2

end Opening

/-- Whether a comment that ends with its line is open at the end of a text. -/
def endsInComment (text : String) : Bool := (Opening.text false).after text.toList = .line

def Region.opening : Region → Opening
  | text => .text false
  | line => .line
  | block star => .block star

/-- What a text leaves open when it is read alone: nothing, or the line feed that ends its last
line. -/
def Closing (tail : List Char) : Prop := tail = [] ∨ tail = ['\n']

/-- What is put behind a text comes behind its characters, but in the place of the line feed that
would end its last line. -/
theorem readable_append {cs more : List Char} (present : more ≠ [])
    (starts : ∀ c ∈ more.head?, c ≠ '\n') :
    ∃ body tail, Closing tail ∧ (∀ o : Opening, o.after body = o.after cs) ∧
      readable cs = body ++ tail ∧ readable (cs ++ more) = body ++ readable more := by
  induction cs with
  | nil => exact ⟨[], [], .inl rfl, fun _ => rfl, rfl, rfl⟩
  | cons c cs ih =>
      cases cs with
      | nil =>
          obtain ⟨d, rest, rfl⟩ := List.exists_cons_of_ne_nil present
          have kept : ¬(c = '\r' ∧ d = '\n') := fun both => starts d rfl both.2
          have behind : readable ([c] ++ d :: rest) = [c] ++ readable (d :: rest) := if_neg kept
          by_cases ended : c = '\n'
          · obtain rfl := ended
            exact ⟨['\n'], [], .inl rfl, fun _ => rfl, rfl, behind⟩
          · exact ⟨[c], ['\n'], .inr rfl, fun _ => rfl, if_neg ended, behind⟩
      | cons d cs =>
          obtain ⟨body, tail, closing, same, alone, behind⟩ := ih
          by_cases dropped : c = '\r' ∧ d = '\n'
          · obtain ⟨rfl, rfl⟩ := dropped
            refine ⟨body, tail, closing, fun o => ?_, ?_, ?_⟩
            · rw [same, Opening.after_cons, Opening.after_cons, Opening.after_cons,
                Opening.step_return]
            · rw [readable, if_pos ⟨rfl, rfl⟩, alone]
            · rw [List.cons_append, List.cons_append, readable, if_pos ⟨rfl, rfl⟩]
              exact behind
          · refine ⟨c :: body, tail, closing, fun o => same (o.step c), ?_, ?_⟩
            · rw [readable, if_neg dropped, alone]
              rfl
            · rw [List.cons_append, List.cons_append, readable, if_neg dropped]
              exact congrArg (c :: ·) behind

variable {body tail more : List Char}

theorem Closing.of_cons {c : Char} {cs : List Char} (closing : Closing tail) (h : c :: cs = tail) :
    c = '\n' ∧ cs = [] := by
  rcases closing with rfl | rfl
  · cases h
  · exact List.cons.inj h

/-- A comment that ends with `*/` is not over where the text ends before. -/
theorem not_skips_block_nil {star : Bool} {rest : List Char} : ¬Skips (.block star) [] rest := by
  intro h
  cases h

theorem cut_of_ne {c : Char} {cs : List Char} (closing : Closing tail) (other : c ≠ '\n')
    (same : c :: cs = body ++ tail) : ∃ body', body = c :: body' ∧ cs = body' ++ tail := by
  cases body with
  | nil => exact absurd (closing.of_cons same).1 other
  | cons d body =>
      obtain ⟨rfl, behind⟩ := List.cons.inj same
      exact ⟨body, rfl, behind⟩

/-- What is skipped stays skipped when more is put in the place of the tail. -/
theorem Skips.extend {region : Region} {cs rest : List Char} (h : Skips region cs rest)
    (closing : Closing tail) (more : List Char) (same : cs = body ++ tail)
    (clear : region.opening.after body ≠ .line) :
    ∃ next, Skips region (body ++ more) next ∧
      (rest = [] ∧ next = more ∨
        ∃ body', (Opening.text false).after body' ≠ .line ∧ rest = body' ++ tail ∧
          next = body' ++ more) := by
  -- `clear` goes along with the region: it tells what is open behind the body from there on.
  induction h generalizing body with
  | stop cs => exact ⟨_, .stop _, .inr ⟨body, clear, same, rfl⟩⟩
  | @blank c _ _ blank skips ih =>
      cases body with
      | nil =>
          obtain ⟨-, rfl⟩ := closing.of_cons same
          cases skips
          exact ⟨more, .stop _, .inl ⟨rfl, rfl⟩⟩
      | cons d body =>
          obtain ⟨rfl, behind⟩ := List.cons.inj same
          have noSlash : c ≠ '/' := by
            rintro rfl
            cases blank
          have still := Opening.after_cons_of_step (Opening.step_text_of_ne noSlash) body
          obtain ⟨next, skips, reached⟩ := ih behind fun opened => clear (still.trans opened)
          exact ⟨next, .blank blank skips, reached⟩
  | line _ ih =>
      obtain ⟨_, rfl, next⟩ := cut_of_ne closing (by decide) same
      obtain ⟨body, rfl, behind⟩ := cut_of_ne closing (by decide) next
      obtain ⟨next, skips, reached⟩ := ih behind clear
      exact ⟨next, .line skips, reached⟩
  | @lineChar c _ _ other _ ih =>
      cases body with
      | nil => exact absurd rfl clear
      | cons d body =>
          obtain ⟨rfl, behind⟩ := List.cons.inj same
          have still := Opening.after_cons_of_step (o := .line) (if_neg other) body
          obtain ⟨next, skips, reached⟩ := ih behind fun opened => clear (still.trans opened)
          exact ⟨next, .lineChar other skips, reached⟩
  | lineEnd _ ih =>
      cases body with
      | nil => exact absurd rfl clear
      | cons d body =>
          obtain ⟨rfl, behind⟩ := List.cons.inj same
          obtain ⟨next, skips, reached⟩ := ih behind clear
          exact ⟨next, .lineEnd skips, reached⟩
  | lineOut =>
      obtain ⟨rfl, -⟩ := List.append_eq_nil_iff.1 same.symm
      exact absurd rfl clear
  | block _ ih =>
      obtain ⟨_, rfl, next⟩ := cut_of_ne closing (by decide) same
      obtain ⟨body, rfl, behind⟩ := cut_of_ne closing (by decide) next
      obtain ⟨next, skips, reached⟩ := ih behind clear
      exact ⟨next, .block skips, reached⟩
  | @blockChar star c _ _ other skips ih =>
      cases body with
      | nil =>
          obtain ⟨-, rfl⟩ := closing.of_cons same
          exact absurd skips not_skips_block_nil
      | cons d body =>
          obtain ⟨rfl, behind⟩ := List.cons.inj same
          have still := Opening.after_cons_of_step (o := .block star)
            (if_neg (by simpa using other)) body
          obtain ⟨next, skips, reached⟩ := ih behind fun opened => clear (still.trans opened)
          exact ⟨next, .blockChar other skips, reached⟩
  | blockEnd _ ih =>
      obtain ⟨body, rfl, behind⟩ := cut_of_ne closing (by decide) same
      obtain ⟨next, skips, reached⟩ := ih behind clear
      exact ⟨next, .blockEnd skips, reached⟩

theorem isWordChar_of_isWordStart {c : Char} (h : isWordStart c = true) : isWordChar c = true := by
  simp only [isWordStart, isWordChar, Char.isAlphanum, Bool.or_eq_true] at h ⊢
  exact h.imp_left .inl

namespace Munches

variable {t : Token} {front rest : List Char}

/-- Only the first character behind a token decides where it ends. -/
theorem of_head? (h : Munches t front rest) {rest' : List Char} (same : rest'.head? = rest.head?) :
    Munches t front rest' := by
  cases h with
  | assign => exact .assign _
  | set => exact .set _
  | reset => exact .reset _
  | sign change stops => exact .sign change (by rwa [Stops, same])
  | slash stops => exact .slash (by rwa [Stops, same])
  | integer digit all stops => exact .integer digit all (by rwa [Stops, same])
  | ident start all stops => exact .ident start all (by rwa [Stops, same])
  | other _ black noSign noDigit noStart => exact .other _ black noSign noDigit noStart

/-- A semicolon ends at once. -/
theorem semicolon (h : Munches (.char ';') front rest) (rest' : List Char) :
    Munches (.char ';') front rest' := by
  cases h with
  | sign change => simp at change
  | other _ black noSign noDigit noStart => exact .other _ black noSign noDigit noStart

theorem ne_nil (h : Munches t front rest) : front ≠ [] := by
  cases h <;> exact List.cons_ne_nil _ _

/-- A character that is in no number, word or assignment is in no token but itself. -/
theorem not_mem {d : Char} (h : Munches t front rest) (noDigit : d.isDigit = false)
    (noWord : isWordChar d = false) (noSign : d ∉ ['=', '+', '-']) (alone : t ≠ .char d) :
    d ∉ front := by
  intro inside
  cases h with
  | assign | set | reset => grind
  | sign | slash | other =>
      exact alone (List.mem_singleton.1 inside ▸ rfl)
  | integer digit all =>
      rcases List.mem_cons.1 inside with rfl | inside
      · rw [digit] at noDigit
        cases noDigit
      · rw [List.all_eq_true.1 all d inside] at noDigit
        cases noDigit
  | ident start all =>
      rcases List.mem_cons.1 inside with rfl | inside
      · rw [isWordChar_of_isWordStart start] at noWord
        cases noWord
      · rw [List.all_eq_true.1 all d inside] at noWord
        cases noWord

/-- No token goes beyond its line. -/
theorem lineFeed_not_mem (h : Munches t front rest) : '\n' ∉ front := by
  refine h.not_mem (by decide) (by decide) (by decide) ?_
  rintro rfl
  cases h with
  | sign change => simp at change
  | other _ black => cases black

/-- A token opens no comment, not even with what is behind it. -/
theorem after_front (h : Munches t front rest) :
    ∃ slash, (Opening.text false).after front = .text slash ∧
      (slash = true → Stops (fun c => c = '/' || c = '*') rest) := by
  by_cases sign : t = .char '/'
  · subst sign
    cases h with
    | sign change => simp at change
    | slash stops => exact ⟨true, rfl, fun _ => stops⟩
    | other _ _ noSign => exact absurd List.mem_cons_self noSign
  · have noSlash := h.not_mem (d := '/') (by decide) (by decide) (by decide) sign
    exact ⟨false, Opening.after_of_not_mem noSlash, nofun⟩

theorem clear (h : Munches t front rest) {between tail : List Char} (same : rest = between ++ tail)
    (clear : (Opening.text false).after (front ++ between) ≠ .line) :
    (Opening.text false).after between ≠ .line := by
  cases between with
  | nil => nofun
  | cons d between =>
      obtain ⟨slash, opened, stops⟩ := h.after_front
      rw [Opening.after_append, opened, Opening.after_cons] at clear
      cases slash with
      | false => exact clear
      | true =>
          have apart : d ≠ '/' ∧ d ≠ '*' := by simpa using stops rfl d (same ▸ rfl)
          rwa [Opening.step_slash apart.1 apart.2] at clear

end Munches

/-- No token ends in the tail. -/
theorem Munches.apart (closing : Closing tail) {t : Token} {front rest : List Char}
    (h : Munches t front rest) (same : front ++ rest = body ++ tail) :
    ∃ between, body = front ++ between ∧ rest = between ++ tail := by
  rcases List.append_eq_append_iff.1 same with inside | ⟨beyond, rfl, split⟩
  · exact inside
  · cases beyond with
    | nil => exact ⟨[], by simp, split.symm⟩
    | cons c beyond =>
        have reached : c :: (beyond ++ rest) = tail := split.symm
        obtain ⟨rfl, -⟩ := closing.of_cons reached
        exact absurd (List.mem_append_right _ List.mem_cons_self) h.lineFeed_not_mem

theorem Lexes.eq_nil_of_closing (closing : Closing tail) {words : List Token}
    (h : Lexes tail words) : words = [] := by
  cases h with
  | finished => rfl
  | token skips munches _ =>
      obtain ⟨next, skips, ⟨nothing, -⟩ | ⟨body, -, same, left⟩⟩ :=
        skips.extend closing [] (List.nil_append tail).symm nofun
      · exact absurd (List.append_eq_nil_iff.1 nothing).1 munches.ne_nil
      · cases skips
        obtain ⟨rfl, -⟩ := List.append_eq_nil_iff.1 left.symm
        obtain ⟨between, nothing, -⟩ := munches.apart closing same
        exact absurd (List.append_eq_nil_iff.1 nothing.symm).1 munches.ne_nil

/-- The words of a text that ends with a semicolon, and behind it blanks and comments, stay the same
where more follows. -/
theorem Lexes.append {cs : List Char} {words : List Token} (h : Lexes cs words)
    (closing : Closing tail) (same : cs = body ++ tail)
    (clear : (Opening.text false).after body ≠ .line)
    (last : ∀ t ∈ words.getLast?, t = .char ';') {words' : List Token} (h' : Lexes more words') :
    Lexes (body ++ more) (words ++ words') := by
  induction h generalizing body with
  | finished skips =>
      obtain ⟨next, skips, ⟨-, rfl⟩ | ⟨body', -, nothing, rfl⟩⟩ :=
        skips.extend closing more same clear
      · exact h'.after_skip skips
      · obtain ⟨rfl, -⟩ := List.append_eq_nil_iff.1 nothing.symm
        exact h'.after_skip skips
  | @token cs front rest t words skips munches behind ih =>
      obtain ⟨next, passed, ⟨nothing, -⟩ | ⟨body', clear', same', rfl⟩⟩ :=
        skips.extend closing more same clear
      · exact absurd (List.append_eq_nil_iff.1 nothing).1 munches.ne_nil
      · obtain ⟨between, rfl, rfl⟩ := munches.apart closing same'
        have last' : ∀ u ∈ words.getLast?, u = .char ';' := by
          intro u final
          refine last u ?_
          rw [Option.mem_def] at final ⊢
          rw [List.getLast?_cons, final]
          rfl
        have munches' : Munches t front (between ++ more) := by
          cases between with
          | nil =>
              -- The last token might go on with what is put behind it, were it no semicolon.
              obtain rfl := behind.eq_nil_of_closing closing
              obtain rfl := last t rfl
              exact munches.semicolon _
          | cons c between => exact munches.of_head? rfl
        rw [List.append_assoc] at passed
        exact .token passed munches' (ih rfl (munches.clear rfl clear') last')

/-- Where a text ends with a semicolon and without an open comment, the words of what is put behind
it come behind its own. -/
theorem Source.hasWords_append {name name' text more : String} {words words' : List Token}
    (said : (ofString name text).HasWords words) (clear : endsInComment text = false)
    (last : ∀ t ∈ words.getLast?, t = .char ';') (present : more.toList ≠ [])
    (starts : ∀ c ∈ more.toList.head?, c ≠ '\n') (lexes : Lexes (readable more.toList) words') :
    (ofString name' (text ++ more)).HasWords (words ++ words') := by
  obtain ⟨body, tail, closing, opened, alone, behind⟩ := readable_append present starts
  rw [hasWords_ofString, String.toList_append, behind]
  rw [endsInComment, ← opened, decide_eq_false_iff_not] at clear
  exact (hasWords_ofString.1 said).append closing alone clear last lexes

end RelayLogic
