import RelayLogic.Symbol.Table

/-! Listings of mnemonics, the second language of the controller. A listing is a flat sequence
of lines, each of which acts on the top of a stack. -/
namespace RelayLogic

structure Line where
  mnemonic : Mnemonic
  argument : Option Variable
  inverted : Bool
deriving DecidableEq

structure Listing where
  symbols : SymbolTable
  lines : List Line

def Listing.cons (line : Line) (l : Listing) : Listing := { l with lines := line :: l.lines }

end RelayLogic
