import RelayLogic.Equation.Expression
import RelayLogic.Operation
import RelayLogic.SemanticError

/-! Operations as they are given out one after another. What was given out before a failure
stays. -/
namespace RelayLogic

inductive CodeError where
  | unsupported (access : Access) (category : Category) (name : String)
  | emptyTerm (id : Nat)
  | malformed (id : Nat)
  | missingArgument (m : Mnemonic)
  | nestingTooDeep
  | semantic (e : SemanticError)
deriving DecidableEq, Repr

def CodeError.message : CodeError → String
  | unsupported access category name =>
    "Access `" ++ access.name ++ "` has no encoding for " ++ category.name ++ " `" ++ name ++ "`"
  | emptyTerm id => "Expression #" ++ id.repr ++ " contains an empty term"
  | malformed id => "Expression #" ++ id.repr ++ " is malformed"
  | missingArgument m => "Instruction `" ++ m.name ++ "` requires an argument"
  | nestingTooDeep => "Expression is nested too deeply, maximum depth is 256"
  | semantic e => e.message

/-- The operations given out, and the failure that ended it, if any. -/
structure Emission where
  operations : List Operation
  failure : Option CodeError

namespace Emission

def done : Emission := ⟨[], none⟩

def fail (e : CodeError) : Emission := ⟨[], some e⟩

def one (op : Operation) : Emission := ⟨[op], none⟩

/-- One emission after another. Nothing follows a failure. -/
def andThen (first second : Emission) : Emission :=
  match first.failure with
  | some _ => first
  | none => ⟨first.operations ++ second.operations, second.failure⟩

def logicIf (wanted : Bool) (i : Instruction) : Emission :=
  if wanted then one (.logic i) else done

def access (a : Access) (v : Variable) : Emission :=
  match Instruction.ofAccess? a v.category with
  | some i => one ⟨i, v.index⟩
  | none => fail (.unsupported a v.category v.name)

def concat : List Emission → Emission
  | [] => done
  | first :: rest => first.andThen (concat rest)

def toExcept (e : Emission) : Except CodeError (List Operation) :=
  match e.failure with
  | some failure => .error failure
  | none => .ok e.operations

@[simp] theorem andThen_done (e : Emission) : e.andThen done = e := by
  rcases e with ⟨ops, _ | failure⟩ <;> simp [andThen, done]

@[simp] theorem done_andThen (e : Emission) : done.andThen e = e := by
  simp [andThen, done]

theorem andThen_assoc (a b c : Emission) :
    (a.andThen b).andThen c = a.andThen (b.andThen c) := by
  rcases a with ⟨_, _ | _⟩ <;> rcases b with ⟨_, _ | _⟩ <;> simp [andThen]

theorem concat_append (es es' : List Emission) :
    concat (es ++ es') = (concat es).andThen (concat es') := by
  induction es with
  | nil => rw [List.nil_append, concat, done_andThen]
  | cons e rest ih => rw [List.cons_append, concat, concat, ih, andThen_assoc]

end Emission

end RelayLogic
