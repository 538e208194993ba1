/-! The command line. Options may stand anywhere, short ones may be bundled, and a value follows
its option or is attached to it. -/
namespace RelayLogic

inductive Format where
  | ops
  | hex
  | bin
deriving DecidableEq, Repr

def Format.ofName? (name : String) : Option Format :=
  if name = "ops" then some .ops
  else if name = "hex" then some .hex
  else if name = "bin" then some .bin
  else none

structure Options where
  verbosity : Nat
  listing : Bool
  format : Format
  resolve : Option String
  truth : Option String
  output : Option String
  input : String
deriving DecidableEq, Repr

/-- Options without a value. Help and version end the reading of a command line. -/
inductive Switch where
  | verbose
  | listing
  | help
  | version
deriving DecidableEq, Repr

/-- Options with a value. -/
inductive Setting where
  | format
  | resolve
  | truth
  | output
deriving DecidableEq, Repr

inductive Flag where
  | switch (s : Switch)
  | setting (s : Setting)
deriving DecidableEq, Repr

def Flag.ofShort? : Char → Option Flag
  | 'v' => some (.switch .verbose)
  | 'h' => some (.switch .help)
  | 'V' => some (.switch .version)
  | 'e' => some (.setting .format)
  | 'o' => some (.setting .output)
  | _ => none

def Flag.ofLong? (name : String) : Option Flag :=
  if name = "verbose" then some (.switch .verbose)
  else if name = "awl" then some (.switch .listing)
  else if name = "help" then some (.switch .help)
  else if name = "version" then some (.switch .version)
  else if name = "emit" then some (.setting .format)
  else if name = "resolve" then some (.setting .resolve)
  else if name = "truth" then some (.setting .truth)
  else none

/-- What has been read of a command line: how often each switch stood there, the values of the
settings, absent where one lacked its value, the input, and the setting that waits for a value. -/
structure Reckoning where
  verbose : Nat
  listing : Nat
  settings : List (Setting × Option String)
  input : Option String
  pending : Option Setting

/-- How the reading of a command line ends. -/
inductive Invocation where
  | help
  | version
  | rejected
  | accepted (o : Options)
deriving DecidableEq, Repr

namespace Reckoning

def start : Reckoning := ⟨0, 0, [], none, none⟩

def settle (r : Reckoning) : Reckoning :=
  match r.pending with
  | none => r
  | some s => { r with settings := (s, none) :: r.settings, pending := none }

def give (r : Reckoning) (s : Setting) (value : String) : Reckoning :=
  { r with settings := (s, some value) :: r.settings }

/-- Turns a switch, which may end the reading. -/
def turn (r : Reckoning) : Switch → Except Invocation Reckoning
  | .verbose => .ok { r with verbose := r.verbose + 1 }
  | .listing => .ok { r with listing := r.listing + 1 }
  | .help => .error .help
  | .version => .error .version

/-- Reads the letters of a bundle of short options. The rest of a bundle after a setting is its
value, with or without an equals sign before it. -/
def bundle (r : Reckoning) : List Char → Except Invocation Reckoning
  | [] => .ok r
  | c :: rest =>
    match Flag.ofShort? c with
    | none => .error .rejected
    | some (.switch s) => do
      let r ← r.settle.turn s
      r.bundle rest
    | some (.setting s) =>
      match rest with
      | [] => .ok { r.settle with pending := some s }
      | '=' :: value => .ok (r.settle.give s (String.ofList value))
      | value => .ok (r.settle.give s (String.ofList value))

/-- Reads a long option, with what stands after its equals sign. -/
def long (r : Reckoning) (name : String) (value : Option String) : Except Invocation Reckoning :=
  match Flag.ofLong? name, value with
  | none, _ => .error .rejected
  | some (.switch _), some _ => .error .rejected
  | some (.switch s), none => r.settle.turn s
  | some (.setting s), none => .ok { r.settle with pending := some s }
  | some (.setting s), some value => .ok (r.settle.give s value)

/-- Reads a word that is no option: the value of a setting that waits for one, or the input. -/
def plain (r : Reckoning) (word : String) : Except Invocation Reckoning :=
  match r.pending, r.input with
  | some s, _ => .ok ({ r with pending := none }.give s word)
  | none, none => .ok { r with input := some word }
  | none, some _ => .error .rejected

/-- Reads a word after a lone `--`, which is never an option or a value. -/
def operand (r : Reckoning) (word : String) : Except Invocation Reckoning :=
  r.settle.plain word

/-- Splits a long option at its first equals sign. -/
def splitLong (cs : List Char) : String × Option String :=
  (String.ofList (cs.takeWhile (· ≠ '=')),
    match cs.dropWhile (· ≠ '=') with
    | [] => none
    | _ :: value => some (String.ofList value))

/-- Reads the words of a command line. A lone dash is no option. -/
def words (r : Reckoning) (literal : Bool) : List String → Except Invocation Reckoning
  | [] => .ok r.settle
  | word :: rest =>
    if literal then do
      let r ← r.operand word
      r.words true rest
    else
      match word.toList with
      | ['-', '-'] => r.settle.words true rest
      | '-' :: '-' :: cs => do
        let (name, value) := splitLong cs
        let r ← r.long name value
        r.words false rest
      | '-' :: c :: cs => do
        let r ← r.bundle (c :: cs)
        r.words false rest
      | _ => do
        let r ← r.plain word
        r.words false rest

def values (r : Reckoning) (s : Setting) : List (Option String) :=
  (r.settings.filter (·.1 = s)).map Prod.snd

def value (r : Reckoning) (s : Setting) : Except Invocation (Option String) :=
  match r.values s with
  | [] => .ok none
  | [some value] => .ok (some value)
  | _ => .error .rejected

/-- The options that a command line asks for. A listing has no equations to resolve. -/
def options (r : Reckoning) : Except Invocation Options := do
  let format ← r.value .format
  let resolve ← r.value .resolve
  let truth ← r.value .truth
  let output ← r.value .output
  if r.listing > 1 || r.listing = 1 && (resolve.isSome || truth.isSome) then throw .rejected
  match r.input, Format.ofName? (format.getD "ops") with
  | some input, some format =>
    return ⟨r.verbose, r.listing = 1, format, resolve, truth, output.filter (· ≠ "-"), input⟩
  | _, _ => throw .rejected

end Reckoning

def Invocation.ofWords (words : List String) : Invocation :=
  match Reckoning.start.words false words with
  | .error i => i
  | .ok r =>
    match r.options with
    | .error i => i
    | .ok o => accepted o

end RelayLogic
