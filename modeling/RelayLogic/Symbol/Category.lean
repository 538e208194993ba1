/-! The four kinds of bits that a controller exposes. -/
namespace RelayLogic

inductive Category where
  | input
  | output
  | monoflop
  | flag
deriving DecidableEq, Repr

namespace Category

def all : List Category := [input, output, monoflop, flag]

def name : Category → String
  | input => "input"
  | output => "output"
  | monoflop => "monoflop"
  | flag => "flag"

/-- The weight of a category in the bits of a set. -/
def bit : Category → Nat
  | input => 1
  | output => 2
  | monoflop => 4
  | flag => 8

theorem mem_all (c : Category) : c ∈ all := by cases c <;> decide

end Category

/-- A set of categories, as the ones it allows. -/
structure CategorySet where
  allows : Category → Bool

namespace CategorySet

def empty : CategorySet := ⟨fun _ => false⟩

def full : CategorySet := ⟨fun _ => true⟩

def single (c : Category) : CategorySet := ⟨fun d => d = c⟩

def union (s t : CategorySet) : CategorySet := ⟨fun c => s.allows c || t.allows c⟩

def ofList (cs : List Category) : CategorySet := cs.foldl (fun s c => s.union (single c)) empty

/-- One bit for each category allowed. -/
def bits (s : CategorySet) : Nat :=
  (Category.all.filter s.allows).foldl (fun bits c => bits + c.bit) 0

end CategorySet

end RelayLogic
