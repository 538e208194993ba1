import RelayLogic.Text.Position

/-! The words of the language. Blanks and comments stand between them and are no tokens. -/
namespace RelayLogic

/-- How an equation changes its variable: it overwrites it, turns it on, or turns it off. -/
inductive Assignment where
  | assign
  | set
  | reset
deriving DecidableEq, Repr

def Assignment.sign : Assignment → String
  | assign => "="
  | set => "+="
  | reset => "-="

/-- A number keeps the digits it was written with; its value is a 64-bit word and wraps. -/
inductive Token where
  | ident (name : String)
  | integer (value : UInt64) (digits : String)
  | char (c : Char)
  | assignment (a : Assignment)
deriving DecidableEq, Repr

def Token.render : Token → String
  | ident name => "identifier `" ++ name ++ "`"
  | integer _ digits => "literal `" ++ digits ++ "`"
  | char c => "`" ++ String.singleton c ++ "`"
  | assignment a => "`" ++ a.sign ++ "`"

inductive LexError where
  | unreadable
  | unterminatedComment
deriving DecidableEq, Repr

def LexError.message : LexError → String
  | unreadable => "I/O error"
  | unterminatedComment => "EOF in comment, missing `*/`"

/-- Characters with which a name begins. Letters are those of ASCII. -/
def isWordStart (c : Char) : Bool := c.isAlpha || c = '_'

def isWordChar (c : Char) : Bool := c.isAlphanum || c = '_'

/-- Whether two words are the same but for the case of their ASCII letters. -/
def sameWord (a b : String) : Bool := a.toList.map Char.toLower = b.toList.map Char.toLower

/-- The value of decimal digits, modulo `2 ^ 64`. -/
def decimalValue (digits : List Char) : UInt64 :=
  digits.foldl (fun value c => value * 10 + UInt64.ofNat (c.toNat - '0'.toNat)) 0

end RelayLogic
