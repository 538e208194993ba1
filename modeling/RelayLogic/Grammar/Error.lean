import RelayLogic.SemanticError

/-! What may be wrong with the text of a program or a listing. -/
namespace RelayLogic

/-- What a reader looks for at some place of the text. Where the text goes on with something
else, a few of them are worded differently from where it ends. -/
inductive Expected where
  | statement
  | sectionColon
  | identifier
  | declarationSign
  | signAfterName
  | duration
  | timeUnit
  | durationEnd
  | index
  | listEnd
  | separatorInList
  | assignment
  | assignmentAfterName
  | operand
  | operatorOrEnd
  | operator
  | groupEnd
  | equationEnd
  | argumentOrEnd
  | argument
  | lineEnd
deriving DecidableEq, Repr

def Expected.name : Expected → String
  | statement => "section or statement"
  | sectionColon => "`:` after section name"
  | identifier => "identifier"
  | declarationSign => "`=`"
  | signAfterName => "`=` after variable name"
  | duration => "duration"
  | timeUnit => "time unit"
  | durationEnd => "`)` after duration"
  | index => "variable index"
  | listEnd => "`,` or `;`"
  | separatorInList => "`,` or `;` in variable list"
  | assignment => "`=`, `+=` or `-=`"
  | assignmentAfterName => "`=`, `+=` or `-=` after variable"
  | operand => "identifier, `!` or `(`"
  | operatorOrEnd => "operator, `;` or `)`"
  | operator => "operator"
  | groupEnd => "closing `)`"
  | equationEnd => "`;` after expression"
  | argumentOrEnd => "argument or `;`"
  | argument => "argument"
  | lineEnd => "`;` after instruction"

inductive ParseError where
  | lexical (e : LexError)
  | semantic (e : SemanticError)
  | unexpectedToken (expected : Expected) (found : Token)
  | unexpectedEnd (expected : Expected)
  | undefinedOperator (c : Char)
  | unknownTimeUnit (found : Token)
  | durationNotAllowed
  | undefinedInstruction (name : String)
  | nestingTooDeep
deriving DecidableEq, Repr

def ParseError.message : ParseError → String
  | lexical e => e.message
  | semantic e => e.message
  | unexpectedToken expected found =>
    "Expected " ++ expected.name ++ ", found " ++ found.render ++ " instead"
  | unexpectedEnd expected => "Expected " ++ expected.name ++ ", none was found instead"
  | undefinedOperator c => "Syntax error, undefined operator `" ++ String.singleton c ++ "`"
  | unknownTimeUnit found =>
    "Missing time unit (s, min, h), found " ++ found.render ++ " instead"
  | durationNotAllowed => "Only monoflops may declare a duration"
  | undefinedInstruction name => "Undefined instruction `" ++ name ++ "`"
  | nestingTooDeep => "Expression is nested too deeply, maximum depth is 64"

end RelayLogic
