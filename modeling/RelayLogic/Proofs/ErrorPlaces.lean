import Mathlib.Data.Prod.Lex
import RelayLogic.Proofs.Blame
import RelayLogic.Proofs.Lines
import RelayLogic.Proofs.Numerals
import RelayLogic.Proofs.TokenPlaces

/-! Where errors are reported. Tokens start at places of their own, so the place of an error tells
one token: the one that is wrong, or the last one of the text where something is missing. -/
namespace RelayLogic

/-! Tokens have places of their own. -/

/-- The order in which places are read. -/
def Position.key (p : Position) : Nat ×ₗ Nat := toLex (p.line, p.column)

theorem Item.key_lt_behind (item : Item) : item.place.key < item.behind.key := by
  cases item with
  | unreadable number => exact Prod.Lex.toLex_lt_toLex.2 (.inl (Nat.lt_succ_self number))
  | char c p =>
      change p.key < (p.behind c).key
      unfold Position.behind
      split
      · exact Prod.Lex.toLex_lt_toLex.2 (.inl (Nat.lt_succ_self p.line))
      split
      · refine Prod.Lex.toLex_lt_toLex.2 (.inr ⟨rfl, ?_⟩)
        simp only [Position.tab, Position.tabWidth]
        omega
      · exact Prod.Lex.toLex_lt_toLex.2 (.inr ⟨rfl, Nat.lt_succ_self p.column⟩)

theorem Source.pairwise_key (name : String) (bytes : List UInt8) :
    (ofBytes name bytes).items.Pairwise fun a b => a.place.key < b.place.key := by
  have chain : (ofBytes name bytes).items.IsChain fun a b => a.place.key < b.place.key := by
    refine (chain_items name bytes).imp fun a b next => ?_
    rw [next]
    exact a.key_lt_behind
  rw [← List.isChain_map (R := (· < ·)) fun item : Item => item.place.key,
    List.isChain_iff_pairwise, List.pairwise_map] at chain
  exact chain

theorem Located.WrittenAs.start_mem {t : Located Token} {part : List Item}
    (h : t.WrittenAs part) : ∃ item ∈ part, item.place = t.span.start := by
  obtain ⟨c, first⟩ := h.covers.first
  exact ⟨_, List.mem_of_head? first, rfl⟩

/-- No two tokens start at one place. -/
theorem Cursor.eq_of_mem_lexemes {c : Cursor}
    (ordered : c.items.Pairwise fun a b => a.place.key < b.place.key) {t u : Located Token}
    (member : .ok t ∈ c.lexemes) (member' : .ok u ∈ c.lexemes)
    (same : t.span.start = u.span.start) : t = u := by
  fun_induction Cursor.lexemes c with
  | case1 => cases member
  | case2 c lexeme rest found ih =>
      have cuts : Scan.Cuts c.items ⟨some lexeme, rest⟩ := found ▸ cuts_scan c.here c.items
      -- What is found stands before all that is found later.
      have before (x y : Located Token) (here : lexeme = .ok x) (later : .ok y ∈ rest.lexemes) :
          x.span.start.key < y.span.start.key := by
        obtain ⟨part, inside, written⟩ := cuts.found x (congrArg some here)
        obtain ⟨part', inside', written'⟩ := Cursor.stands_of_mem_lexemes later
        obtain ⟨item, first, start⟩ := written.start_mem
        obtain ⟨item', first', start'⟩ := written'.start_mem
        rw [← start, ← start']
        exact (List.pairwise_append.1 (ordered.sublist inside.sublist)).2.2 item first item'
          (inside'.subset first')
      rcases List.mem_cons.1 member with here | later
      · rcases List.mem_cons.1 member' with here' | later'
        · exact Except.ok.inj (here.trans here'.symm)
        · have less := before t u here.symm later'
          rw [same] at less
          exact absurd less (lt_irrefl _)
      · rcases List.mem_cons.1 member' with here' | later'
        · have less := before u t here'.symm later
          rw [same] at less
          exact absurd less (lt_irrefl _)
        · exact ih (ordered.sublist cuts.rest.sublist) later later'

/-! Whole texts. -/

/-- A tape that ends without an error ends at its last token. -/
theorem Tape.getLast?_lexemes {last last' : Span} {lexemes : List Lexeme}
    (h : (ofLexemes last lexemes).ending = .finished last') (some : lexemes ≠ []) :
    ∃ t, lexemes.getLast? = .some (.ok t) ∧ t.span = last' := by
  fun_induction ofLexemes last lexemes with
  | case1 => exact absurd rfl some
  | case2 => cases h
  | case3 last t rest tape ih =>
      cases rest with
      | nil =>
          cases h
          exact ⟨t, rfl, rfl⟩
      | cons lexeme rest =>
          rw [List.getLast?_cons_cons]
          exact ih h (List.cons_ne_nil lexeme rest)

theorem Source.blames_of_error {s : Source} {e : Located ParseError}
    (failed : s.program = .error e ∨ s.listing = .error e) :
    Blames s.tape.tokens s.tape.ending e := by
  rcases failed with failed | failed
  · have ends : Ends _ (Blames s.tape.tokens s.tape.ending) s.program :=
      ends_readProgram .empty (List.Subset.refl s.tape.tokens)
    exact ends.of_error failed
  · have ends : Ends _ (Blames s.tape.tokens s.tape.ending) s.listing :=
      ends_readListing .empty (List.Subset.refl s.tape.tokens)
    exact ends.of_error failed

/-- A text without tokens is a program and a listing. -/
theorem Source.lexemes_ne_nil {s : Source} {e : Located ParseError}
    (failed : s.program = .error e ∨ s.listing = .error e) : s.lexemes ≠ [] := by
  intro empty
  have tape : s.tape = ⟨[], .finished (.of .origin)⟩ := by
    rw [Source.tape, empty]
    rfl
  rcases failed with failed | failed
  · rw [Source.program, tape, Tape.program, readProgram, readHeading] at failed
    cases failed
  · rw [Source.listing, tape, Tape.listing, readListing, readHeading] at failed
    · cases failed
    · intro t rest first
      cases first

/-- Where a program or a listing cannot be read though its tokens can, the error is reported at one
token of the text and no other. It concerns this token, or something is missing at the end of the
text, and the token is the last one. -/
theorem Source.error_at_token {name : String} {bytes : List UInt8} {e : Located ParseError}
    (failed : (ofBytes name bytes).program = .error e ∨ (ofBytes name bytes).listing = .error e)
    (lexed : ∀ wrong, e.value ≠ .lexical wrong) :
    let lexemes := (ofBytes name bytes).lexemes
    ∃ t, .ok t ∈ lexemes ∧ t.span = e.span ∧ (∀ u, .ok u ∈ lexemes → u.span = e.span → u = t) ∧
      (e.value.Concerns t.value ∨
        ∃ expected, e.value = .unexpectedEnd expected ∧ lexemes.getLast? = some (.ok t)) := by
  intro lexemes
  suffices found : ∃ t, .ok t ∈ lexemes ∧ t.span = e.span ∧ (e.value.Concerns t.value ∨
      ∃ expected, e.value = .unexpectedEnd expected ∧ lexemes.getLast? = some (.ok t)) by
    obtain ⟨t, member, place, concerns⟩ := found
    refine ⟨t, member, place, ?_, concerns⟩
    intro u member' place'
    have same : u.span.start = t.span.start := by rw [place', place]
    exact Cursor.eq_of_mem_lexemes (pairwise_key name bytes) member' member same
  cases blames_of_error failed with
  | token member concerns => exact ⟨_, Tape.mem_of_mem_tokens member, rfl, .inl concerns⟩
  | missing expected =>
      cases ending : (ofBytes name bytes).tape.ending with
      | finished last =>
          obtain ⟨t, there, place⟩ := Tape.getLast?_lexemes ending (lexemes_ne_nil failed)
          exact ⟨t, List.mem_of_getLast? there, place, .inr ⟨expected, rfl, there⟩⟩
      | failed wrong =>
          rw [ending] at lexed
          exact absurd rfl (lexed wrong.value)

/-- A program that uses a variable it does not declare. -/
def undeclaredText : List UInt8 :=
  utf8Bytes "inputs: a = 0;\noutputs: o = 1;\no = a & (b | a); // b"

/-- A listing whose last line does not end. -/
def openText : List UInt8 := utf8Bytes "inputs: a = 0;\nor a; and !a // and no more"

theorem error_undeclaredText_openText :
    (Source.ofBytes "text" undeclaredText).program =
        .error ⟨.semantic (.unknownVariable "b"), .of ⟨3, 10⟩⟩ ∧
      (Source.ofBytes "text" openText).listing = .error ⟨.unexpectedEnd .lineEnd, .of ⟨2, 12⟩⟩ ∧
      (∃ t, .ok t ∈ (Source.ofBytes "text" undeclaredText).lexemes ∧ t.span = .of ⟨3, 10⟩ ∧
        t.value = .ident "b") ∧
      ∃ t, (Source.ofBytes "text" openText).lexemes.getLast? = some (.ok t) ∧
        t.span = .of ⟨2, 12⟩ := by
  have program : (Source.ofBytes "text" undeclaredText).program =
      .error ⟨.semantic (.unknownVariable "b"), .of ⟨3, 10⟩⟩ := by cbv
  have listing : (Source.ofBytes "text" openText).listing =
      .error ⟨.unexpectedEnd .lineEnd, .of ⟨2, 12⟩⟩ := by cbv
  have unknown (wrong : LexError) :
      ParseError.semantic (.unknownVariable "b") ≠ .lexical wrong := by
    intro same
    cases same
  have missing (wrong : LexError) : ParseError.unexpectedEnd .lineEnd ≠ .lexical wrong := by
    intro same
    cases same
  refine ⟨program, listing, ?_, ?_⟩
  · obtain ⟨t, member, place, -, concerns | ⟨_, other, -⟩⟩ :=
      Source.error_at_token (.inl program) unknown
    · exact ⟨t, member, place, concerns⟩
    · cases other
  · obtain ⟨t, member, place, -, concerns | ⟨_, -, last⟩⟩ :=
      Source.error_at_token (.inr listing) missing
    · cases concerns
    · exact ⟨t, last, place⟩

end RelayLogic
