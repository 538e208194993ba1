import RelayLogic.Symbol.Category

/-! Variables, the named bits of a controller. -/
namespace RelayLogic

/-- A named bit of the controller. Its index is its place within its category, and its time is
the duration of a monoflop in units of two seconds. -/
structure Variable where
  name : String
  category : Category
  index : Nat
  time : Nat
deriving DecidableEq, Repr

namespace Variable

/-- The duration of a monoflop that is declared without one: a minute. -/
def defaultTime : Nat := 30

def plain (name : String) (category : Category) (index : Nat) : Variable :=
  ⟨name, category, index, if category = .monoflop then defaultTime else 0⟩

def withTime (v : Variable) (time : Nat) : Variable := { v with time }

end Variable

end RelayLogic
