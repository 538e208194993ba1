import RelayLogic.Listing.Mnemonic

/-! Misuse of names: what may go wrong when a variable is declared, defined or used. -/
namespace RelayLogic

/-- Why a line of a listing cannot take the argument it has, or lacks. -/
inductive ArgumentError where
  | invertedTwice
  | notAllowed (category : Category) (name : String)
  | missing
  | nothingToInvert
deriving DecidableEq, Repr

def ArgumentError.message : ArgumentError → String
  | invertedTwice => "inversion given twice"
  | notAllowed category name => category.name ++ " `" ++ name ++ "` not allowed"
  | missing => "missing argument"
  | nothingToInvert => "inversion without argument"

inductive SemanticError where
  | duplicateVariable (name : String)
  | unknownVariable (name : String)
  | duplicateEquation (name : String)
  | missingEquation (name : String)
  | timeOverflow (name : String)
  | indexOverflow (name : String)
  | invalidArgument (m : Mnemonic) (reason : ArgumentError)
  | cyclicDependency (name : String)
  | nestingTooDeep (name : String)
deriving DecidableEq, Repr

def SemanticError.message : SemanticError → String
  | duplicateVariable name => "Variable `" ++ name ++ "` already declared"
  | unknownVariable name => "Variable `" ++ name ++ "` does not exist"
  | duplicateEquation name => "Two equations are assigned to variable `" ++ name ++ "`"
  | missingEquation name => "Variable `" ++ name ++ "` has no equation"
  | timeOverflow name => "Time value overflow for `" ++ name ++ "`, max is 131070 s"
  | indexOverflow name => "Index of `" ++ name ++ "` is out of range"
  | invalidArgument m reason =>
    "Invalid argument for instruction `" ++ m.name ++ "`: " ++ reason.message
  | cyclicDependency name => "Equation of `" ++ name ++ "` depends on itself"
  | nestingTooDeep name => "Dependencies of `" ++ name ++ "` are nested too deeply"

end RelayLogic
