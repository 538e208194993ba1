import RelayLogic.Operation

/-! The binary image of operations. An operation takes one byte or two. The high half of the
first selects the group, and the low half holds the index if it is below fifteen; a low half of
fifteen says that a second byte holds what the index has beyond fifteen. Logical operations
share one group and are told apart by the low half. -/
namespace RelayLogic

/-- The first index that needs a second byte. -/
def extendedArgument : Nat := 15

def maxArgument : Nat := extendedArgument + 255

/-- The group that logical operations share. -/
def logicGroup : Nat := 12

inductive EncodeError where
  | argumentOutOfRange (i : Instruction) (argument : Nat)
  | sinkFull
deriving DecidableEq, Repr

def EncodeError.message : EncodeError → String
  | argumentOutOfRange i argument =>
    "Argument " ++ argument.repr ++ " of `" ++ i.name ++ "` is out of range, maximum is 270"
  | sinkFull => "I/O error"

inductive DecodeError where
  | unknownGroup (group offset : Nat)
  | unknownLogic (code offset : Nat)
  | truncated (offset : Nat)
deriving DecidableEq, Repr

/-- A number in lower-case hexadecimal digits, marked as such. -/
def hexMarked (n : Nat) : String := "0x" ++ String.ofList (Nat.toDigits 16 n)

def DecodeError.message : DecodeError → String
  | unknownGroup group offset =>
    "Unknown instruction group " ++ hexMarked group ++ " at offset " ++ offset.repr
  | unknownLogic code offset =>
    "Unknown logic operation " ++ hexMarked code ++ " at offset " ++ offset.repr
  | truncated offset => "Missing extension byte at offset " ++ offset.repr

namespace Instruction

/-- The group of an access, or the code of a logical instruction within theirs. -/
def code : Instruction → Nat
  | readOutput => 0
  | readFlag => 1
  | readTimer => 2
  | readInput => 3
  | writeOutput => 4
  | writeFlag => 5
  | setOutput => 6
  | setFlag => 7
  | setTimer => 8
  | resetOutput => 9
  | resetFlag => 10
  | resetTimer => 11
  | not => 0
  | and => 1
  | or => 2

/-- The accesses in the order of their groups. -/
def groups : List Instruction :=
  [readOutput, readFlag, readTimer, readInput, writeOutput, writeFlag, setOutput, setFlag,
    setTimer, resetOutput, resetFlag, resetTimer]

/-- The logical instructions in the order of their codes. -/
def logicCodes : List Instruction := [not, and, or]

end Instruction

def packByte (high low : Nat) : UInt8 := UInt8.ofNat (high * 16 + low)

def Operation.encode (op : Operation) : Except EncodeError (List UInt8) :=
  match op.instruction.access? with
  | none => .ok [packByte logicGroup op.instruction.code]
  | some _ =>
    if op.argument < extendedArgument then .ok [packByte op.instruction.code op.argument]
    else if op.argument ≤ maxArgument then
      .ok [packByte op.instruction.code extendedArgument,
        UInt8.ofNat (op.argument - extendedArgument)]
    else .error (.argumentOutOfRange op.instruction op.argument)

def encode : List Operation → Except EncodeError (List UInt8)
  | [] => .ok []
  | op :: rest => do
    let bytes ← op.encode
    let rest ← encode rest
    return bytes ++ rest

/-- A place that takes bytes, up to a number of them if it has a limit. -/
structure Sink where
  limit : Option Nat
  bytes : Array UInt8

namespace Sink

def empty (limit : Option Nat) : Sink := ⟨limit, #[]⟩

/-- How many of so many bytes a sink still takes. -/
def room (s : Sink) (count : Nat) : Nat :=
  match s.limit with
  | none => count
  | some limit => min count (limit - s.bytes.size)

/-- Writes bytes. A sink without room for all of them takes as many as it can and fails. -/
def write (s : Sink) (bytes : List UInt8) : Except EncodeError Unit × Sink :=
  let room := s.room bytes.length
  (if room < bytes.length then .error .sinkFull else .ok (),
    { s with bytes := s.bytes ++ bytes.take room })

end Sink

/-- Writes the image of operations one by one, and counts the bytes after those already
counted. What was written before a failure stays. -/
def emitFrom (written : Nat) : List Operation → Sink → Except EncodeError Nat × Sink
  | [], sink => (.ok written, sink)
  | op :: rest, sink =>
    match op.encode with
    | .error e => (.error e, sink)
    | .ok bytes =>
      match sink.write bytes with
      | (.error e, sink) => (.error e, sink)
      | (.ok (), sink) => emitFrom (written + bytes.length) rest sink

/-- Writes the image of operations and counts its bytes. -/
def emit (ops : List Operation) (sink : Sink) : Except EncodeError Nat × Sink :=
  emitFrom 0 ops sink

/-- The operations of the bytes from an offset on. -/
def decodeFrom (offset : Nat) : List UInt8 → Except DecodeError (List Operation)
  | [] => .ok []
  | byte :: rest =>
    let group := byte.toNat / 16
    let low := byte.toNat % 16
    if group = logicGroup then
      match Instruction.logicCodes[low]? with
      | none => .error (.unknownLogic low offset)
      | some i => do
        let ops ← decodeFrom (offset + 1) rest
        return .logic i :: ops
    else
      match Instruction.groups[group]? with
      | none => .error (.unknownGroup group offset)
      | some i =>
        if low = extendedArgument then
          match rest with
          | [] => .error (.truncated (offset + 1))
          | extension :: rest => do
            let ops ← decodeFrom (offset + 2) rest
            return ⟨i, extendedArgument + extension.toNat⟩ :: ops
        else do
          let ops ← decodeFrom (offset + 1) rest
          return ⟨i, low⟩ :: ops

def decode (bytes : List UInt8) : Except DecodeError (List Operation) := decodeFrom 0 bytes

end RelayLogic
