import RelayLogic.Symbol.Category
import RelayLogic.Token

/-! The mnemonics of the listing language. -/
namespace RelayLogic

inductive Mnemonic where
  | read
  | write
  | set
  | reset
  | and
  | or
  | not
deriving DecidableEq, Repr

namespace Mnemonic

def all : List Mnemonic := [read, write, set, reset, and, or, not]

def name : Mnemonic → String
  | read => "read"
  | write => "write"
  | set => "set"
  | reset => "reset"
  | and => "and"
  | or => "or"
  | not => "not"

/-- The mnemonic that a word stands for, in any letter case. -/
def ofName? (word : String) : Option Mnemonic := all.find? fun m => sameWord m.name word

/-- Only the logical mnemonics may stand alone. -/
def requiresArgument : Mnemonic → Bool
  | read | write | set | reset => true
  | and | or | not => false

/-- The categories of variables that a mnemonic takes. Inputs are never changed, and a monoflop
is started or stopped but not overwritten. -/
def allowed : Mnemonic → CategorySet
  | write => .ofList [.output, .flag]
  | set | reset => .ofList [.output, .monoflop, .flag]
  | read | and | or | not => .full

end Mnemonic

end RelayLogic
