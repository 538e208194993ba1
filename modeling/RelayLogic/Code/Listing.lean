import RelayLogic.Code.Emission
import RelayLogic.Listing

/-! The operations of a listing, line by line. -/
namespace RelayLogic

def Mnemonic.access : Mnemonic → Access
  | read | and | or | not => .read
  | write => .write
  | set => .set
  | reset => .reset

/-- The operation that a mnemonic ends with, if it is a logical one. -/
def Mnemonic.joint? : Mnemonic → Option Instruction
  | and => some .and
  | or => some .or
  | not => some .not
  | read | write | set | reset => none

/-- The operations that access the argument of a line. A value read is inverted after it is read,
and a value stored before. -/
def Line.argumentCode (line : Line) : Emission :=
  let inversion := Emission.logicIf line.inverted .not
  match line.argument, line.mnemonic.access with
  | some v, .read => (Emission.access .read v).andThen inversion
  | some v, store => inversion.andThen (.access store v)
  | none, _ => if line.mnemonic.joint?.isNone then .fail (.missingArgument line.mnemonic) else .done

def Line.code (line : Line) : Emission :=
  line.argumentCode.andThen <|
    match line.mnemonic.joint? with
    | some i => .one (.logic i)
    | none => .done

def Listing.code (l : Listing) : Except CodeError (List Operation) :=
  (Emission.concat (l.lines.map Line.code)).toExcept

end RelayLogic
