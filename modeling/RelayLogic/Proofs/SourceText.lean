import RelayLogic.Text.Source

/-! The characters of a source. A text is cut into lines by its bytes, and each line is decoded by
itself. What comes out are the characters of the text, but that each line ends with one line feed,
whatever its end was in the text. -/
namespace RelayLogic

/-- The items are these characters, each with some place. -/
inductive Carries : List Item → List Char → Prop
  | nil : Carries [] []
  | cons {c : Char} {place : Position} {items : List Item} {cs : List Char} :
      Carries items cs → Carries (.char c place :: items) (c :: cs)

theorem Carries.append {items items' : List Item} {cs cs' : List Char} (h : Carries items cs)
    (h' : Carries items' cs') : Carries (items ++ items') (cs ++ cs') := by
  induction h with
  | nil => exact h'
  | cons _ ih => exact .cons ih

/-- The characters of a text as they are read. A carriage return before a line feed is dropped, and
a last line without an end is given one. -/
def readable : List Char → List Char
  | [] => []
  | [c] => if c = '\n' then ['\n'] else [c, '\n']
  | c :: d :: rest =>
    if c = '\r' ∧ d = '\n' then readable (d :: rest) else c :: readable (d :: rest)

/-- Drops a carriage return from the end of a line. -/
def dropLastReturn (line : List Char) : List Char :=
  if line.getLast? = some '\r' then line.dropLast else line

theorem dropLastReturn_cons_cons (c d : Char) (line : List Char) :
    dropLastReturn (c :: d :: line) = c :: dropLastReturn (d :: line) := by
  unfold dropLastReturn
  rw [List.getLast?_cons_cons, List.dropLast_cons_cons]
  split <;> rfl

theorem readable_lineFeed (rest : List Char) : readable ('\n' :: rest) = '\n' :: readable rest := by
  cases rest with
  | nil => rfl
  | cons d rest => rw [readable, if_neg (by simp)]

theorem readable_line {line : List Char} (h : '\n' ∉ line) (rest : List Char) :
    readable (line ++ '\n' :: rest) = dropLastReturn line ++ '\n' :: readable rest := by
  induction line with
  | nil => exact readable_lineFeed rest
  | cons c line ih =>
      cases line with
      | nil =>
          rw [List.singleton_append, readable, readable_lineFeed, dropLastReturn]
          by_cases dropped : c = '\r' <;> simp [dropped]
      | cons d line =>
          have kept : ¬(c = '\r' ∧ d = '\n') := fun both => h (by simp [both.2])
          rw [List.cons_append, List.cons_append, readable, if_neg kept, dropLastReturn_cons_cons,
            List.cons_append, ← ih (List.not_mem_of_not_mem_cons h)]
          rfl

theorem readable_last {line : List Char} (h : '\n' ∉ line) (some : line ≠ []) :
    readable line = line ++ ['\n'] := by
  induction line with
  | nil => exact absurd rfl some
  | cons c line ih =>
      cases line with
      | nil => exact if_neg (List.ne_of_not_mem_cons h).symm
      | cons d line =>
          have kept : ¬(c = '\r' ∧ d = '\n') := fun both => h (by simp [both.2])
          rw [readable, if_neg kept, ih (List.not_mem_of_not_mem_cons h) (List.cons_ne_nil d line)]
          rfl

/-- The bytes of characters. -/
def encoded (cs : List Char) : List UInt8 := cs.flatMap String.utf8EncodeChar

namespace Source

theorem carries_lineItems (p : Position) (line : List Char) :
    Carries (lineItems p line) (line ++ ['\n']) := by
  induction line generalizing p with
  | nil => exact .cons .nil
  | cons c rest ih => exact .cons (ih _)

theorem decodeLine_encoded (line : List Char) : decodeLine (encoded line) = some line := by
  have bytes : ByteArray.mk (encoded line).toArray = line.utf8Encode :=
    congrArg ByteArray.mk List.data_toByteArray.symm
  rw [decodeLine, bytes, List.utf8Decode?_utf8Encode]
  rfl

theorem utf8Bytes_eq_encoded (text : String) : utf8Bytes text = encoded text.toList := by
  have bytes : text.toUTF8 = (encoded text.toList).toByteArray := String.utf8Encode_toList.symm
  rw [utf8Bytes, bytes, List.toList_data_toByteArray]

/-- A byte below 128 is alone the character of its number. -/
theorem toNat_of_mem_utf8EncodeChar {c : Char} {b : UInt8} (h : b ∈ String.utf8EncodeChar c)
    (low : b.toNat < 128) : c.toNat = b.toNat := by
  have high : ∀ {n : Nat}, 128 ≤ n → n < 256 → b = UInt8.ofNat n → False := by
    rintro n big small rfl
    rw [UInt8.toNat_ofNat', Nat.mod_eq_of_lt small] at low
    omega
  simp only [String.utf8EncodeChar] at h
  split at h
  · rename_i ascii
    rw [List.mem_singleton.1 h, UInt8.toNat_ofNat', Nat.mod_eq_of_lt (by omega)]
    rfl
  · -- Every byte of a longer form has its highest bit set.
    exfalso
    split at h
    · simp only [List.mem_cons, List.not_mem_nil, or_false] at h
      rcases h with h | h <;> exact high (by omega) (by omega) h
    split at h
    · simp only [List.mem_cons, List.not_mem_nil, or_false] at h
      rcases h with h | h | h <;> exact high (by omega) (by omega) h
    · simp only [List.mem_cons, List.not_mem_nil, or_false] at h
      rcases h with h | h | h | h <;> exact high (by omega) (by omega) h

theorem not_mem_utf8EncodeChar {c d : Char} (h : c ≠ d) (ascii : d.toNat < 128) :
    UInt8.ofNat d.toNat ∉ String.utf8EncodeChar c := by
  intro inside
  have number : (UInt8.ofNat d.toNat).toNat = d.toNat := by
    rw [UInt8.toNat_ofNat', Nat.mod_eq_of_lt (by omega)]
  have same := toNat_of_mem_utf8EncodeChar inside (by omega)
  exact h (Char.toNat_inj.1 (same.trans number))

theorem encoded_append (cs cs' : List Char) : encoded (cs ++ cs') = encoded cs ++ encoded cs' :=
  List.flatMap_append

theorem dropReturn_encoded (line : List Char) :
    (dropReturn (encoded line).reverse).reverse = encoded (dropLastReturn line) := by
  rcases List.eq_nil_or_concat line with rfl | ⟨front, c, rfl⟩
  · rfl
  · have last : encoded [c] = String.utf8EncodeChar c := by simp [encoded]
    rw [List.concat_eq_append, dropLastReturn, List.getLast?_concat, List.dropLast_concat,
      encoded_append, last, List.reverse_append]
    by_cases dropped : c = '\r'
    · subst dropped
      exact List.reverse_reverse _
    · have other : carriageReturn ∉ (String.utf8EncodeChar c).reverse := by
        rw [List.mem_reverse]
        exact not_mem_utf8EncodeChar dropped (by decide)
      rw [if_neg (by simpa using dropped), encoded_append, last]
      cases bytes : (String.utf8EncodeChar c).reverse with
      | nil => exact absurd (List.reverse_eq_nil_iff.1 bytes) String.utf8EncodeChar_ne_nil
      | cons b rest =>
          rw [bytes] at other
          rw [List.cons_append, dropReturn, if_neg (List.ne_of_not_mem_cons other).symm,
            ← List.cons_append, ← bytes, ← List.reverse_append, List.reverse_reverse]

theorem cutLines_append {bytes : List UInt8} (h : lineFeed ∉ bytes) (current rest : List UInt8) :
    cutLines current (bytes ++ rest) = cutLines (bytes.reverse ++ current) rest := by
  induction bytes generalizing current with
  | nil => rfl
  | cons b bytes ih =>
      rw [List.cons_append, cutLines, if_neg (List.ne_of_not_mem_cons h).symm,
        ih (List.not_mem_of_not_mem_cons h), List.reverse_cons, List.append_assoc]
      rfl

/-- Where the open line holds so many characters, cutting goes on as if they were still there. -/
theorem carries_cutLines (cs : List Char) {line : List Char} (h : '\n' ∉ line) (number : Nat) :
    Carries (itemsFrom number ((cutLines (encoded line).reverse (encoded cs)).map decodeLine))
      (readable (line ++ cs)) := by
  induction cs generalizing line number with
  | nil =>
      rw [List.append_nil]
      cases line with
      | nil => exact .nil
      | cons c line =>
          have some : ¬(encoded (c :: line)).reverse.isEmpty = true := by
            rw [List.isEmpty_iff, List.reverse_eq_nil_iff]
            exact List.append_ne_nil_of_left_ne_nil String.utf8EncodeChar_ne_nil _
          have cut : cutLines (encoded (c :: line)).reverse (encoded []) = [encoded (c :: line)] := by
            rw [encoded.eq_def [], List.flatMap_nil, cutLines, if_neg some, List.reverse_reverse]
          rw [readable_last h (List.cons_ne_nil c line), cut, List.map_singleton,
            decodeLine_encoded, itemsFrom, itemsFrom, List.append_nil]
          exact carries_lineItems _ (c :: line)
  | cons c cs ih =>
      by_cases ended : c = '\n'
      · subst ended
        have cut : encoded ('\n' :: cs) = lineFeed :: encoded cs := rfl
        rw [readable_line h, cut, cutLines, if_pos rfl, dropReturn_encoded, List.map_cons,
          decodeLine_encoded, itemsFrom]
        have here := carries_lineItems ⟨number, 1⟩ (dropLastReturn line)
        have fresh : '\n' ∉ ([] : List Char) := List.not_mem_nil
        have there := ih fresh (number + 1)
        have all := here.append there
        rwa [List.append_assoc] at all
      · have bytes : encoded (c :: cs) = String.utf8EncodeChar c ++ encoded cs := rfl
        have longer : (String.utf8EncodeChar c).reverse ++ (encoded line).reverse =
            (encoded (line ++ [c])).reverse := by
          simp [encoded]
        have inside : '\n' ∉ line ++ [c] := by simpa [eq_comm, ended] using h
        rw [bytes, cutLines_append (not_mem_utf8EncodeChar ended (by decide)), longer,
          List.append_cons line c cs]
        exact ih inside number

/-- The items of a text are its characters, its lines ended alike. -/
theorem carries_ofString (name text : String) :
    Carries (ofString name text).items (readable text.toList) := by
  rw [items, ofString, ofBytes, utf8Bytes_eq_encoded]
  exact carries_cutLines text.toList List.not_mem_nil 1

end Source

end RelayLogic
