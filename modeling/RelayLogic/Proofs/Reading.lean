import RelayLogic.Grammar.Equations

/-! When readers succeed. Each of them is told by the tokens that it takes and the tokens that it
leaves, so what follows need not look at how it reads. -/
namespace RelayLogic

theorem bind_eq_ok {ε α β : Type} {x : Except ε α} {f : α → Except ε β} {b : β} :
    x >>= f = .ok b ↔ ∃ a, x = .ok a ∧ f a = .ok b := by
  cases x <;> simp [bind, Except.bind]

theorem SymbolTable.lookup_eq_ok {t : SymbolTable} {name : String} {v : Variable} :
    t.lookup name = .ok v ↔ t.find? name = some v := by
  unfold lookup
  cases t.find? name <;> simp

theorem SymbolTable.declare_eq_ok {t u : SymbolTable} {v : Variable} :
    t.declare v = .ok u ↔ v.name ∉ t.names ∧ u.declared = t.declared ++ [v] := by
  unfold declare
  split
  · rename_i taken
    simp [contains_iff.1 taken]
  · rename_i free
    rw [← contains_iff, and_iff_right free, Except.ok.injEq]
    constructor
    · rintro rfl
      rfl
    · intro same
      rcases u with ⟨declared, distinct⟩
      cases same
      rfl

/-- The words at the front of some tokens, and the tokens that follow them. -/
def Spells (ts : Tokens) (words : List Token) (rest : Tokens) : Prop :=
  ∃ front : Tokens, ts = front ++ rest ∧ front.map Located.value = words

namespace Spells

variable {ts between rest : Tokens} {t : Located Token} {first second : List Token}

theorem nil (ts : Tokens) : Spells ts [] ts := ⟨[], rfl, rfl⟩

theorem cons {word : Token} (here : t.value = word) (h : Spells ts first rest) :
    Spells (t :: ts) (word :: first) rest := by
  obtain ⟨front, rfl, words⟩ := h
  exact ⟨t :: front, rfl, by rw [List.map_cons, here, words]⟩

theorem append (h : Spells ts first between) (h' : Spells between second rest) :
    Spells ts (first ++ second) rest := by
  obtain ⟨front, rfl, words⟩ := h
  obtain ⟨back, rfl, words'⟩ := h'
  exact ⟨front ++ back, (List.append_assoc _ _ _).symm, by rw [List.map_append, words, words']⟩

theorem of_nil (h : Spells ts [] rest) : ts = rest := by
  obtain ⟨front, rfl, words⟩ := h
  rw [List.map_eq_nil_iff.1 words, List.nil_append]

theorem of_cons {word : Token} (h : Spells ts (word :: first) rest) :
    ∃ t tail, ts = t :: tail ∧ t.value = word ∧ Spells tail first rest := by
  obtain ⟨_ | ⟨t, front⟩, rfl, words⟩ := h
  · cases words
  · obtain ⟨here, words⟩ := List.cons.inj words
    exact ⟨t, front ++ rest, rfl, here, front, rfl, words⟩

theorem of_append (h : Spells ts (first ++ second) rest) :
    ∃ between, Spells ts first between ∧ Spells between second rest := by
  obtain ⟨front, rfl, words⟩ := h
  obtain ⟨a, b, rfl, rfl, rfl⟩ := List.map_eq_append_iff.1 words
  exact ⟨b ++ rest, ⟨a, List.append_assoc _ _ _, rfl⟩, b, rfl, rfl⟩

theorem uncons {word : Token} (h : Spells ts (word :: first) rest) :
    ∃ tail, Spells ts [word] tail ∧ Spells tail first rest :=
  (show Spells ts ([word] ++ first) rest from h).of_append

theorem singleton_iff {word : Token} :
    Spells ts [word] rest ↔ ∃ t, ts = t :: rest ∧ t.value = word := by
  constructor
  · intro h
    obtain ⟨t, tail, rfl, here, nothing⟩ := h.of_cons
    exact ⟨t, by rw [nothing.of_nil], here⟩
  · rintro ⟨t, rfl, here⟩
    exact .cons here (.nil rest)

theorem head (h : ts = t :: rest) : Spells ts [t.value] rest := singleton_iff.2 ⟨t, h, rfl⟩

theorem shorter {word : Token} (h : Spells ts (word :: first) rest) :
    rest.length < ts.length := by
  obtain ⟨front, rfl, words⟩ := h
  have counted : front.length = first.length + 1 := by
    rw [← List.length_map Located.value, words, List.length_cons]
  rw [List.length_append, counted]
  omega

theorem map_eq (h : Spells ts first rest) :
    ts.map Located.value = first ++ rest.map Located.value := by
  obtain ⟨front, rfl, rfl⟩ := h
  exact List.map_append

end Spells

/-- A list is cut at the first place of an entry in one way. -/
theorem cut_unique {α : Type} {a : α} {front front' back back' : List α} (h : a ∉ front)
    (h' : a ∉ front') (same : front ++ a :: back = front' ++ a :: back') :
    front = front' ∧ back = back' := by
  induction front generalizing front' with
  | nil =>
      cases front' with
      | nil => exact ⟨rfl, (List.cons.inj same).2⟩
      | cons b front' => exact absurd (List.cons.inj same).1 (List.ne_of_not_mem_cons h')
  | cons b front ih =>
      cases front' with
      | nil => exact absurd (List.cons.inj same).1.symm (List.ne_of_not_mem_cons h)
      | cons b' front' =>
          obtain ⟨rfl, behind⟩ := List.cons.inj same
          obtain ⟨rfl, rfl⟩ := ih (List.not_mem_of_not_mem_cons h)
            (List.not_mem_of_not_mem_cons h') behind
          exact ⟨rfl, rfl⟩

/-- Whether a text can be read to its end and these are its words. -/
def Source.HasWords (s : Source) (words : List Token) : Prop :=
  s.tape.tokens.map Located.value = words ∧ ∃ last, s.tape.ending = .finished last

section

variable {ending : Ending} {expected : Expected} {ts : Tokens}

theorem readToken_eq_ok {r : Read (Located Token) ts} :
    readToken ending expected ts = .ok r ↔ ts = r.value :: r.rest := by
  rcases r with ⟨t, rest, shorter⟩
  cases ts with
  | nil => simp [readToken]
  | cons u tail => simp [readToken]

theorem readChar_eq_ok {c : Char} {r : Read Unit ts} :
    readChar ending c expected ts = .ok r ↔ Spells ts [.char c] r.rest := by
  rcases r with ⟨⟨⟩, rest, shorter⟩
  simp only [readChar, bind_eq_ok, Spells.singleton_iff]
  constructor
  · rintro ⟨t, taken, h⟩
    split at h
    · rename_i here
      cases h
      exact ⟨t.value, readToken_eq_ok.1 taken, here⟩
    · cases h
  · rintro ⟨t, rfl, here⟩
    exact ⟨⟨t, rest, shorter⟩, rfl, if_pos here⟩

theorem readName_eq_ok {r : Read (Located String) ts} :
    readName ending ts = .ok r ↔ ts = ⟨.ident r.value.value, r.value.span⟩ :: r.rest := by
  rcases r with ⟨⟨name, span⟩, rest, shorter⟩
  simp only [readName, bind_eq_ok]
  constructor
  · rintro ⟨t, taken, h⟩
    split at h
    · rename_i here
      cases h
      rw [← here]
      exact readToken_eq_ok.1 taken
    · cases h
  · rintro rfl
    exact ⟨⟨⟨.ident name, span⟩, rest, shorter⟩, rfl, rfl⟩

theorem readInteger_eq_ok {r : Read (Located UInt64) ts} :
    readInteger ending expected ts = .ok r ↔
      ∃ digits, ts = ⟨.integer r.value.value digits, r.value.span⟩ :: r.rest := by
  rcases r with ⟨⟨value, span⟩, rest, shorter⟩
  simp only [readInteger, bind_eq_ok]
  constructor
  · rintro ⟨t, taken, h⟩
    split at h
    · rename_i digits here
      cases h
      refine ⟨digits, ?_⟩
      rw [← here]
      exact readToken_eq_ok.1 taken
    · cases h
  · rintro ⟨digits, rfl⟩
    exact ⟨⟨⟨.integer value digits, span⟩, rest, shorter⟩, rfl, rfl⟩

end

end RelayLogic
