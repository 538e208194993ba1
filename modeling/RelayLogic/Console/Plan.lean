import RelayLogic.Code.Listing
import RelayLogic.Console.Options
import RelayLogic.Grammar.Equations
import RelayLogic.Grammar.Listing
import RelayLogic.Image
import RelayLogic.Report
import RelayLogic.TruthTable

/-! What the compiler does for a command line, once its source is known: what it prints, where it
puts the operations, and how it ends. -/
namespace RelayLogic

/-- The end of a run that went wrong: what failed, and the causes of it, each the cause of the
one before. -/
structure Failure where
  context : String
  causes : List String
deriving DecidableEq, Repr

namespace Failure

def plain (context : String) : Failure := ⟨context, []⟩

def because (f : Failure) (cause : String) : Failure := { f with causes := f.causes ++ [cause] }

/-- The column before which the number of a cause ends. -/
def numberWidth : Nat := 5

def causeLines : List String → List String
  | [] => []
  | [cause] => ["", "Caused by:", "    " ++ cause]
  | causes =>
    ["", "Caused by:"] ++
      causes.zipIdx.map fun (cause, n) => padLeft numberWidth n.repr ++ ": " ++ cause

def render (f : Failure) : String :=
  String.join ((("Error: " ++ f.context) :: causeLines f.causes).map (· ++ "\n"))

end Failure

/-- Where the operations go, and the failure that follows, if any. A file is made even if nothing
can be written to it; `refusal` is the failure if what is to be written finds no room. -/
inductive Delivery where
  | nowhere (failure : Failure)
  | print (text : String) (failure : Option Failure)
  | save (path : String) (bytes : List UInt8) (failure : Option Failure) (refusal : Failure)

/-- What is printed before the operations are delivered, and their delivery. -/
structure Plan where
  printed : String
  reported : String
  delivery : Delivery

/-- A byte in two hexadecimal digits. -/
def hexByte (b : UInt8) : String :=
  String.ofList [Nat.digitChar (b.toNat / 16), Nat.digitChar (b.toNat % 16)]

def hexColumns : Nat := 16

/-- Cuts bytes into rows. Only the last row may be shorter than the others. -/
def hexRows (bytes : List UInt8) : List (List UInt8) :=
  if bytes.isEmpty then []
  else bytes.take hexColumns :: hexRows (bytes.drop hexColumns)
termination_by bytes.length
decreasing_by
  rename_i h
  have := List.length_pos_iff.2 (by simpa using h : bytes ≠ [])
  simp only [List.length_drop, hexColumns]
  omega

def unlines (lines : List String) : String := String.join (lines.map (· ++ "\n"))

def hexText (bytes : List UInt8) : String :=
  unlines ((hexRows bytes).map fun row => " ".intercalate (row.map hexByte))

def opsText (ops : List Operation) : String := unlines (ops.map Operation.render)

/-- The failure to write a format, of which the cause is not yet known. -/
def Format.refusal (path : String) : Format → Failure
  | .ops => .plain "Failed to write listing"
  | .hex => .plain "Failed to write hex dump"
  | .bin => (Failure.plain ("Failed to emit to file: " ++ path)).because EncodeError.sinkFull.message

/-- A text format: the text, and the failure after it. -/
def Format.text (format : Format) (ops : List Operation) : String × Option Failure :=
  match format with
  | .hex =>
    match encode ops with
    | .ok bytes => (hexText bytes, none)
    | .error e => ("", some ((Failure.plain "Failed to encode program").because e.message))
  | _ => (opsText ops, none)

/-- Where operations go. A binary image goes to a file or nowhere. -/
def Options.deliver (o : Options) (ops : List Operation) : Delivery :=
  match o.format, o.output with
  | .bin, none => .nowhere (.plain "Refusing to write binary image to stdout")
  | .bin, some path =>
    match emit ops (.empty none) with
    | (.ok _, sink) => .save path sink.bytes.toList none (Format.bin.refusal path)
    | (.error e, sink) =>
      .save path sink.bytes.toList
        (some ((Failure.plain ("Failed to emit to file: " ++ path)).because e.message))
        (Format.bin.refusal path)
  | format, none => .print (format.text ops).1 (format.text ops).2
  | format, some path =>
    .save path (utf8Bytes (format.text ops).1) (format.text ops).2 (format.refusal path)

/-- The report of an error in a source. All lines up to the one it is found on have been read. -/
def ParseError.report (source : Source) (e : Located ParseError) : Report :=
  .single ⟨e.value.message, ⟨source, e.line⟩, e.span⟩

namespace Plan

def stop (printed : String) (f : Failure) : Plan := ⟨printed, "", .nowhere f⟩

def refuse (source : Source) (e : Located ParseError) (context : String) : Plan :=
  ⟨"", (ParseError.report source e).render, .nowhere (.plain (context ++ source.name))⟩

/-- Delivers the operations, or stops with the reason why there are none. -/
def finish (o : Options) (printed : String) : Except CodeError (List Operation) → Plan
  | .error e => stop printed (.plain e.message)
  | .ok ops => ⟨printed, "", o.deliver ops⟩

def resolved (p : Program) : Option String → Except Failure String
  | none => .ok ""
  | some name =>
    match (p.resolve name p.ledger).1 with
    | .error e => .error (.plain e.message)
    | .ok e => .ok (name ++ " " ++ e.assignment.sign ++ " " ++ e.render true ++ "\n")

def table (p : Program) : Option String → String × Option Failure
  | none => ("", none)
  | some name =>
    let t := p.truthTable name
    (unlines t.lines, t.failure.map fun e => .plain e.message)

/-- The plan for a source of equations. -/
def ofProgram (o : Options) (p : Program) : Plan :=
  match resolved p o.resolve with
  | .error f => stop "" f
  | .ok line =>
    match table p o.truth with
    | (rows, some f) => stop (line ++ rows) f
    | (rows, none) => finish o (line ++ rows) p.code

end Plan

/-- The most that verbosity may be raised. -/
def maxVerbosity : Nat := 4

/-- The verbosity from which on log lines are reported. They are no part of what a plan reports. -/
def logVerbosity : Nat := 3

def Options.failure? (o : Options) : Option Failure :=
  if o.verbosity > maxVerbosity then some (.plain "Verbosity is limited to -vvvv") else none

def Options.plan (o : Options) (source : Source) : Plan :=
  if o.listing then
    match source.listing with
    | .error e => .refuse source e "Failed to parse AWL listing: "
    | .ok l => .finish o "" l.code
  else
    match source.program with
    | .error e => .refuse source e "Failed to parse equations: "
    | .ok p => .ofProgram o p

end RelayLogic
