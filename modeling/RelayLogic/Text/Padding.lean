/-! Texts filled up to a width. A text that is wide enough is left as it is. -/
namespace RelayLogic

def repeated (count : Nat) (c : Char) : String := String.ofList (List.replicate count c)

/-- Fills up on the right, so that the text stands on the left. -/
def padRight (width : Nat) (text : String) : String :=
  String.ofList (text.toList.rightpad width ' ')

/-- Fills up on the left, so that the text stands on the right. -/
def padLeft (width : Nat) (text : String) : String :=
  String.ofList (text.toList.leftpad width ' ')

end RelayLogic
