/-! Bytes read as UTF-8 by a reader who cannot refuse them. What is well-formed is read as it
stands, and each longest part that could still have become a character, or else a single byte,
is shown by one replacement character. -/
namespace RelayLogic

/-- What the first byte of a character announces: how many bytes follow, the range of the first
of them, and the bits of the code point that the byte holds itself. -/
structure Lead where
  following : Nat
  low : Nat
  high : Nat
  bits : Nat

/-- The first bytes of characters. The ranges leave out overlong forms, surrogates, and what lies
beyond the last code point. -/
def Lead.ofByte? (b : Nat) : Option Lead :=
  if b < 0x80 then some ⟨0, 0x80, 0xBF, b⟩
  else if b < 0xC2 then none
  else if b < 0xE0 then some ⟨1, 0x80, 0xBF, b - 0xC0⟩
  else if b < 0xF0 then
    some ⟨2, if b = 0xE0 then 0xA0 else 0x80, if b = 0xED then 0x9F else 0xBF, b - 0xE0⟩
  else if b < 0xF5 then
    some ⟨3, if b = 0xF0 then 0x90 else 0x80, if b = 0xF4 then 0x8F else 0xBF, b - 0xF0⟩
  else none

/-- The six low bits of each of so many continuation bytes, or of fewer if one does not fit. Only
the first may have a range of its own. -/
def continuation : Nat → Nat → Nat → List UInt8 → List Nat
  | following + 1, low, high, b :: rest =>
    if low ≤ b.toNat ∧ b.toNat ≤ high then
      (b.toNat - 0x80) :: continuation following 0x80 0xBF rest
    else []
  | _, _, _, _ => []

/-- The stand-in for what is no character. -/
def replacement : Char := '\uFFFD'

/-- Reads bytes, the ill-formed ones as replacement characters. -/
def decodeLenient : List UInt8 → List Char
  | [] => []
  | b :: rest =>
    match Lead.ofByte? b.toNat with
    | none => replacement :: decodeLenient rest
    | some lead =>
      let tail := continuation lead.following lead.low lead.high rest
      let c :=
        if tail.length = lead.following then
          Char.ofNat (tail.foldl (fun code bits => code * 64 + bits) lead.bits)
        else replacement
      c :: decodeLenient (rest.drop tail.length)
termination_by bytes => bytes.length
decreasing_by
  · simp
  · simp only [List.length_drop, List.length_cons]
    omega

/-- The text of bytes, ill-formed or not. -/
def lenientText (bytes : List UInt8) : String := String.ofList (decodeLenient bytes)

def utf8Bytes (text : String) : List UInt8 := text.toUTF8.data.toList

end RelayLogic
