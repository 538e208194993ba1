import Mathlib
import RelayLogic.Proofs.ListingGrammar

/-! The two places of an inversion. A line whose inversion stands before its argument may be
written with the inversion before its mnemonic. Where the line follows another line, or begins the
text, the listing stays the same. Behind a section the reader takes the inversion for the start of
a further section. -/
namespace RelayLogic

/-- Whether a statement is a section. -/
def opensSection : List Token → Bool
  | .ident name :: _ => (sectionOf? name).isSome
  | _ => false

/-- `Hoists anywhere follows words words'`: of the statements that the words are, some lines have
their inversion moved in front of the mnemonic. `follows` tells whether the first statement follows
a line or begins the text, and a line may be changed there, or `anywhere`. -/
inductive Hoists (anywhere : Bool) : Bool → List Token → List Token → Prop
  | done {follows : Bool} : Hoists anywhere follows [] []
  | keep {follows : Bool} {statement rest rest' : List Token} : .char ';' ∉ statement →
      Hoists anywhere (!opensSection statement) rest rest' →
      Hoists anywhere follows (statement ++ .char ';' :: rest) (statement ++ .char ';' :: rest')
  | move {follows : Bool} {name argument : String} {rest rest' : List Token} :
      anywhere = true ∨ follows = true → Hoists anywhere true rest rest' →
      Hoists anywhere follows
        (.ident name :: .char '!' :: .ident argument :: .char ';' :: rest)
        (.char '!' :: .ident name :: .ident argument :: .char ';' :: rest')

/-- What becomes of the first statement. -/
theorem Hoists.first {anywhere follows : Bool} {statement rest words : List Token}
    (single : .char ';' ∉ statement)
    (h : Hoists anywhere follows (statement ++ .char ';' :: rest) words) :
    (∃ rest', words = statement ++ .char ';' :: rest' ∧
        Hoists anywhere (!opensSection statement) rest rest') ∨
      ∃ name argument rest', statement = [.ident name, .char '!', .ident argument] ∧
        words = .char '!' :: .ident name :: .ident argument :: .char ';' :: rest' ∧
        (anywhere = true ∨ follows = true) ∧ Hoists anywhere true rest rest' := by
  generalize cut : statement ++ .char ';' :: rest = all at h
  cases h with
  | done => simp at cut
  | keep single' more =>
      obtain ⟨rfl, rfl⟩ := cut_unique single single' cut
      exact .inl ⟨_, rfl, more⟩
  | @move _ name argument rest' rest'' place more =>
      have single' : .char ';' ∉ [Token.ident name, .char '!', .ident argument] := by simp
      obtain ⟨rfl, rfl⟩ := cut_unique single single' cut
      exact .inr ⟨name, argument, rest'', rfl, rfl, place, more⟩

theorem Written.single {symbols : SymbolTable} {m : Mnemonic} {leading : Bool} {words : List Token}
    {line : Line} (h : Written symbols m leading words line) :
    ∃ front, words = front ++ [.char ';'] ∧ .char ';' ∉ front := by
  cases h with
  | alone => exact ⟨[], rfl, List.not_mem_nil⟩
  | argument => exact ⟨[_], rfl, by simp⟩
  | inverted => exact ⟨[_, _], rfl, by simp⟩

/-- Sections stay as they are, and a line that follows them may not be changed. -/
theorem Sections.hoists {symbols symbols' : SymbolTable} {heading rest words : List Token}
    (h : Sections symbols heading symbols') {anywhere follows : Bool}
    (hoists : Hoists anywhere follows (heading ++ rest) words) :
    ∃ rest', words = heading ++ rest' ∧ Hoists anywhere (follows && heading.isEmpty) rest rest' := by
  induction h generalizing follows words with
  | nil =>
      refine ⟨words, rfl, ?_⟩
      rw [List.isEmpty_nil, Bool.and_true]
      exact hoists
  | @cons _ _ _ name category entries others word written _ ih =>
      obtain ⟨front, rfl, single⟩ := written.single
      have opened : .ident name :: .char ':' :: (front ++ [.char ';'] ++ others) ++ rest =
          (.ident name :: .char ':' :: front) ++ .char ';' :: (others ++ rest) := by simp
      rw [opened] at hoists
      rcases hoists.first (by simp [single]) with ⟨words', rfl, more⟩ | ⟨_, _, _, inverted, -⟩
      · rw [opensSection, word] at more
        obtain ⟨rest', rfl, hoists'⟩ := ih more
        refine ⟨rest', by simp, ?_⟩
        rw [List.isEmpty_cons, Bool.and_false]
        exact hoists'
      · cases inverted

/-- The words of a listing stay words of it when lines that follow another line, or begin the
text, have their inversion moved in front of the mnemonic. -/
theorem Lists.hoists {symbols : SymbolTable} {words : List Token} {l : Listing}
    (h : Lists symbols words l) {follows : Bool} {words' : List Token}
    (hoists : Hoists false follows words words') : Lists symbols words' l := by
  induction h generalizing follows words' with
  | @finished symbols symbols' words sections =>
      rw [← List.append_nil words] at hoists
      obtain ⟨rest', rfl, nothing⟩ := sections.hoists hoists
      generalize ended : ([] : List Token) = rest at nothing
      cases nothing with
      | done =>
          rw [List.append_nil]
          exact .finished sections
      | keep => simp at ended
      | move => cases ended
  | @line symbols between heading words rest name m line l sections mnemonic written _ ih =>
      obtain ⟨rest', rfl, hoists'⟩ := sections.hoists hoists
      obtain ⟨front, rfl, single⟩ := written.single
      rw [List.append_assoc] at hoists'
      have single' : .char ';' ∉ .ident name :: front := by simp [single]
      rcases hoists'.first single' with
        ⟨rest', rfl, more⟩ | ⟨_, argument, rest', inverted, rfl, place, more⟩
      · have kept := Lists.line sections mnemonic written (ih more)
        rwa [List.append_assoc] at kept
      · -- The line may be changed only if there is no section before it.
        obtain ⟨-, alone⟩ := Bool.and_eq_true_iff.1 (place.resolve_left Bool.false_ne_true)
        obtain rfl := List.isEmpty_iff.1 alone
        cases inverted
        cases sections
        cases written with
        | inverted takes => exact .leading mnemonic (.argument takes) (ih more)
  | @leading symbols words rest name m line l mnemonic written _ ih =>
      obtain ⟨front, rfl, single⟩ := written.single
      rw [List.append_assoc] at hoists
      have single' : .char ';' ∉ .char '!' :: .ident name :: front := by simp [single]
      rcases hoists.first single' with
        ⟨rest', rfl, more⟩ | ⟨_, _, _, inverted, -⟩
      · have kept := Lists.leading mnemonic written (ih more)
        rwa [List.append_assoc] at kept
      · cases inverted

/-- Moving inversions in front of the mnemonics of lines that follow another line, or begin the
text, changes neither the variables nor the lines that are read. -/
theorem Source.listing_hoists {s s' : Source} {words words' : List Token} {l : Listing}
    (said : s.HasWords words) (said' : s'.HasWords words') (hoists : Hoists false true words words')
    (read : s.listing = .ok l) : s'.listing = .ok l := by
  obtain ⟨_, ⟨rfl, -⟩, lists⟩ := Source.listing_eq_ok.1 read
  obtain ⟨rfl, -⟩ := said
  exact Source.listing_eq_ok.2 ⟨words', said', lists.hoists hoists⟩

/-- The words of two sections and two inverted lines, each line with its own order of words. -/
def wordsOf (first second : List Token) : List Token :=
  [.ident "inputs", .char ':', .ident "a", .assignment .assign, .integer 0 "0"] ++ .char ';' ::
    ([.ident "flags", .char ':', .ident "f", .assignment .assign, .integer 0 "0"] ++ .char ';' ::
      (first ++ .char ';' :: (second ++ [.char ';'])))

def trailingText : Source := .ofString "trailing" "inputs: a=0; flags: f=0; read !a; write !f;"

def trailingWords : List Token :=
  wordsOf [.ident "read", .char '!', .ident "a"] [.ident "write", .char '!', .ident "f"]

def trailingListing : Listing :=
  let a := Variable.plain "a" .input 0
  let f := Variable.plain "f" .flag 0
  ⟨⟨[a, f], by decide⟩, [⟨.read, some a, true⟩, ⟨.write, some f, true⟩]⟩

set_option maxRecDepth 4000 in
theorem hasWords_trailingText : trailingText.HasWords trailingWords :=
  ⟨by cbv, ⟨⟨1, 43⟩, ⟨1, 44⟩⟩, by cbv⟩

set_option maxRecDepth 4000 in
theorem listing_trailingText : trailingText.listing = .ok trailingListing := by cbv

/-- The second line has its inversion moved. -/
def movedText : Source := .ofString "moved" "inputs: a=0; flags: f=0; read !a; !write f;"

def movedWords : List Token :=
  wordsOf [.ident "read", .char '!', .ident "a"] [.char '!', .ident "write", .ident "f"]

set_option maxRecDepth 4000 in
theorem hasWords_movedText : movedText.HasWords movedWords :=
  ⟨by cbv, ⟨⟨1, 43⟩, ⟨1, 44⟩⟩, by cbv⟩

theorem hoists_movedWords : Hoists false true trailingWords movedWords :=
  .keep (by decide) (.keep (by decide) (.keep (by decide) (.move (by decide) .done)))

theorem listing_movedText :
    trailingText.HasWords trailingWords ∧ movedText.HasWords movedWords ∧
      Hoists false true trailingWords movedWords ∧ trailingText.listing = .ok trailingListing ∧
      movedText.listing = .ok trailingListing :=
  ⟨hasWords_trailingText, hasWords_movedText, hoists_movedWords, listing_trailingText,
    Source.listing_hoists hasWords_trailingText hasWords_movedText hoists_movedWords
      listing_trailingText⟩

/-- The first line, which follows a section, has its inversion moved. -/
def refusedText : Source := .ofString "refused" "inputs: a=0; flags: f=0; !read a; write !f;"

def refusedWords : List Token :=
  wordsOf [.char '!', .ident "read", .ident "a"] [.ident "write", .char '!', .ident "f"]

set_option maxRecDepth 4000 in
theorem hasWords_refusedText : refusedText.HasWords refusedWords :=
  ⟨by cbv, ⟨⟨1, 43⟩, ⟨1, 44⟩⟩, by cbv⟩

set_option maxRecDepth 4000 in
/-- A line that follows a section may not be changed. -/
theorem listing_refusedText :
    trailingText.HasWords trailingWords ∧ refusedText.HasWords refusedWords ∧
      Hoists true true trailingWords refusedWords ∧ trailingText.listing = .ok trailingListing ∧
      refusedText.listing =
        .error ⟨.unexpectedToken .statement (.char '!'), ⟨⟨1, 26⟩, ⟨1, 27⟩⟩⟩ := by
  refine ⟨hasWords_trailingText, hasWords_refusedText, ?_, listing_trailingText, by cbv⟩
  exact .keep (by decide) (.keep (by decide) (.move (by decide) (.keep (by decide) .done)))

end RelayLogic
