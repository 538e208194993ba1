import RelayLogic.Console.Outcome

/-! The command line of the compiler. It does in the file system what `Invocation.perform` does
to a workspace. -/
namespace RelayLogic.Console

/-- The system's numbers for what the standard library has no wording of its own for. -/
def pathErrorOf? (code : UInt32) : Option PathError :=
  if code = 2 then some .missing
  else if code = 6 then some .unattached
  else if code = 13 then some .forbidden
  else if code = 20 then some .throughFile
  else if code = 21 then some .directory
  else if code = 36 then some .tooLong
  else none

def causeOf : IO.Error → String
  | .noFileOrDirectory _ _ _ => PathError.missing.message
  | .inappropriateType _ code _ | .invalidArgument _ code _ | .resourceExhausted _ code _ =>
    match pathErrorOf? code with
    | some e => e.message
    | none => noSpace
  | .permissionDenied _ _ _ => PathError.forbidden.message
  | e => toString e

def isDirectoryError : IO.Error → Bool
  | .inappropriateType _ code _ => pathErrorOf? code = some .directory
  | _ => false

def report (f : Failure) : IO UInt32 := do
  IO.eprint f.render
  return 1

def finish : Option Failure → IO UInt32
  | none => return 0
  | some f => report f

def loadSource (o : Options) : IO (Except String Source) := do
  if o.input = "-" then
    let bytes ← (← IO.getStdin).readBinToEnd
    return .ok (.ofBytes "-" bytes.toList)
  try
    let bytes ← IO.FS.readBinFile o.input
    return .ok (.ofBytes o.input bytes.toList)
  catch e =>
    if isDirectoryError e then return .ok (.unreadable o.input) else return .error (causeOf e)

/-- Writes bytes to a path. A failure to open it and a failure to write are told apart. -/
def save (path : String) (bytes : List UInt8) (failure : Option Failure) (refusal : Failure) :
    IO UInt32 := do
  let handle ← try
      pure (Except.ok (← IO.FS.Handle.mk path .write))
    catch e => pure (Except.error (causeOf e))
  match handle with
  | .error cause => report (.opening "writing" path cause)
  | .ok handle =>
    let cause ← try
        handle.write bytes.toByteArray
        handle.flush
        pure none
      catch e => pure (some (causeOf e))
    match cause with
    | none => finish failure
    | some cause => report (refusal.because cause)

def carryOut (p : Plan) : IO UInt32 := do
  IO.print p.printed
  IO.eprint p.reported
  match p.delivery with
  | .nowhere f => report f
  | .print text failure => do
    IO.print text
    finish failure
  | .save path bytes failure refusal => save path bytes failure refusal

def runCommand (o : Options) : IO UInt32 :=
  match o.failure? with
  | some f => report f
  | none => do
    match ← loadSource o with
    | .error cause => report (.opening "reading" o.input cause)
    | .ok source => carryOut (o.plan source)

end RelayLogic.Console

def main (args : List String) : IO UInt32 :=
  match RelayLogic.Invocation.ofWords args with
  | .help => do
    IO.print RelayLogic.usageText
    return 0
  | .version => do
    IO.print RelayLogic.versionText
    return 0
  | .rejected => do
    IO.eprint RelayLogic.usageText
    return 2
  | .accepted o => RelayLogic.Console.runCommand o
