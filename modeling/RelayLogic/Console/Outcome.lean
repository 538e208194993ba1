import RelayLogic.Console.Files
import RelayLogic.Console.Plan

/-! What a command line does to the files it can reach, and what it leaves behind. -/
namespace RelayLogic

/-- How a run ends, what it prints, and what it reports. From `logVerbosity` on, log lines stand among
what is reported; they are left out here. -/
structure Outcome where
  status : Nat
  printed : String
  reported : String
deriving DecidableEq, Repr

namespace Outcome

def finish (printed reported : String) : Option Failure → Outcome
  | none => ⟨0, printed, reported⟩
  | some f => ⟨1, printed, reported ++ f.render⟩

end Outcome

def versionText : String := "PLC compiler 1.0.0\n"

def usageText : String :=
  unlines
    ["USAGE: [OPTIONS] <INPUT>",
      "  -v, --verbose           Increase log verbosity (up to -vvvv)",
      "      --awl               Parse the input as an AWL listing instead of equations",
      "  -e, --emit <FORMAT>     Output format: ops, hex or bin",
      "      --resolve <NAME>    Print the dependency-resolved equation of a signal",
      "      --truth <NAME>      Print the truth table of a signal",
      "  -o <FILE>               Output file ('-' or absent for stdout)",
      "  -h, --help              Print this text",
      "  -V, --version           Print the version"]

def Failure.opening (purpose path cause : String) : Failure :=
  ⟨"Failed to open for " ++ purpose ++ ": " ++ path, [cause]⟩

/-- The end of a plan that writes bytes to a special file. -/
def Plan.writeTo (p : Plan) (bytes : List UInt8) (failure : Option Failure) (refusal : Failure) :
    Device → Outcome
  | .null | .zero | .input | .terminal => .finish p.printed p.reported failure
  | .full =>
    .finish p.printed p.reported (if bytes.isEmpty then failure else some (refusal.because noSpace))
  | .output => .finish (p.printed ++ lenientText bytes) p.reported failure
  | .errors => .finish p.printed (p.reported ++ lenientText bytes) failure

def Plan.carryOut (p : Plan) (w : Workspace) : Outcome × Workspace :=
  match p.delivery with
  | .nowhere f => (.finish p.printed p.reported (some f), w)
  | .print text failure => (.finish (p.printed ++ text) p.reported failure, w)
  | .save path bytes failure refusal =>
    match w.target path with
    | .error e => (.finish p.printed p.reported (some (.opening "writing" path e.message)), w)
    | .ok place =>
      match w.entry? place with
      | some (.device d) => (p.writeTo bytes failure refusal d, w)
      | _ => (.finish p.printed p.reported failure, w.put place bytes)

/-- The source that options name, where the standard input gives bytes. A lone dash is the
standard input. -/
def Options.source (o : Options) (input : List UInt8) (w : Workspace) : Except PathError Source :=
  if o.input = "-" then .ok (.ofBytes "-" input) else w.openSource input o.input

def Options.perform (o : Options) (input : List UInt8) (w : Workspace) : Outcome × Workspace :=
  match o.failure? with
  | some f => (.finish "" "" (some f), w)
  | none =>
    match o.source input w with
    | .error e => (.finish "" "" (some (.opening "reading" o.input e.message)), w)
    | .ok source => (o.plan source).carryOut w

def Invocation.perform (input : List UInt8) (w : Workspace) : Invocation → Outcome × Workspace
  | .help => (⟨0, usageText, ""⟩, w)
  | .version => (⟨0, versionText, ""⟩, w)
  | .rejected => (⟨2, "", usageText⟩, w)
  | .accepted o => o.perform input w

end RelayLogic
