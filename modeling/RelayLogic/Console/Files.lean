import RelayLogic.Text.Source

/-! The files that a command can reach. Directories make up a tree, and a path leads through it
from the root or from the working directory. Special files hold nothing of their own. -/
namespace RelayLogic

inductive PathError where
  | missing
  | unattached
  | forbidden
  | throughFile
  | directory
  | tooLong
deriving DecidableEq, Repr

def PathError.message : PathError → String
  | missing => "No such file or directory (os error 2)"
  | unattached => "No such device or address (os error 6)"
  | forbidden => "Permission denied (os error 13)"
  | throughFile => "Not a directory (os error 20)"
  | directory => "Is a directory (os error 21)"
  | tooLong => "File name too long (os error 36)"

/-- Special files: one that is empty, two that never end, of which the second takes nothing, the
streams of the command itself, and a terminal, which the command has not got. -/
inductive Device where
  | null
  | zero
  | full
  | input
  | output
  | errors
  | terminal
deriving DecidableEq, Repr

def noSpace : String := "No space left on device (os error 28)"

/-- What a directory does about a name that it does not hold: it takes a new file, it has names
of its own making and knows no other, or it guards those it has. -/
inductive Custom where
  | takes
  | knows
  | guards
deriving DecidableEq, Repr

/-- A place in the tree: the names that lead to it from the root, the last one first. -/
abbrev Place := List String

inductive Entry where
  | directory (c : Custom)
  | file (bytes : List UInt8)
  | device (d : Device)

def workingDirectory : Place := ["work", "tmp"]

def ordinaryDirectories : List Place :=
  [[], ["tmp"], workingDirectory, ["dev"], ["shm", "dev"], ["etc"], ["home"], ["root"], ["run"],
    ["boot"], ["media"], ["mnt"], ["opt"], ["srv"], ["usr"], ["bin", "usr"], ["sbin", "usr"],
    ["lib", "usr"], ["lib64", "usr"], ["share", "usr"], ["local", "usr"], ["var"], ["tmp", "var"],
    ["log", "var"], ["lib", "var"], ["cache", "var"]]

/-- The directories that the system makes up. -/
def systemDirectories : List (Place × Custom) :=
  [(["proc"], .knows), (["self", "proc"], .knows), (["fd", "self", "proc"], .knows),
    (["sys", "proc"], .knows), (["sys"], .guards), (["kernel", "sys"], .guards),
    (["pts", "dev"], .guards)]

def devices : List (Place × Device) :=
  [(["null", "dev"], .null), (["zero", "dev"], .zero), (["random", "dev"], .zero),
    (["urandom", "dev"], .zero), (["full", "dev"], .full), (["tty", "dev"], .terminal),
    (["0", "fd", "self", "proc"], .input), (["1", "fd", "self", "proc"], .output),
    (["2", "fd", "self", "proc"], .errors)]

def links : List (Place × Place) :=
  [(["fd", "dev"], ["fd", "self", "proc"]), (["stdin", "dev"], ["0", "fd", "self", "proc"]),
    (["stdout", "dev"], ["1", "fd", "self", "proc"]),
    (["stderr", "dev"], ["2", "fd", "self", "proc"]), (["cwd", "self", "proc"], workingDirectory),
    (["root", "self", "proc"], []), (["bin"], ["bin", "usr"]), (["sbin"], ["sbin", "usr"]),
    (["lib"], ["lib", "usr"]), (["lib64"], ["lib64", "usr"]), (["run", "var"], ["run"])]

/-- The place that is reached at a place. -/
def Place.resolved (place : Place) : Place :=
  match links.find? (·.1 = place) with
  | some link => link.2
  | none => place

/-- How a text names a place: from where, by which names, and whether it ends with a slash, as
only the path of a directory may. -/
structure Path where
  start : Place
  names : List String
  closed : Bool
deriving DecidableEq, Repr

def maxNameSize : Nat := 255
def maxPathSize : Nat := 4095

/-- The path that a text spells. Several slashes count as one. -/
def Path.ofText (text : String) : Except PathError Path :=
  let parts := text.splitOn "/"
  if text.isEmpty then .error .missing
  else if text.utf8ByteSize > maxPathSize then .error .tooLong
  else
    .ok
      ⟨if parts.head? = some "" then [] else workingDirectory, parts.filter (· ≠ ""),
        parts.getLast? = some ""⟩

/-- The files there are, beside those of the system, with their contents. -/
structure Workspace where
  files : List (Place × List UInt8)

namespace Workspace

/-- The custom of a place that is a directory: one of the system, or one in which a file lies. -/
def custom? (w : Workspace) (place : Place) : Option Custom :=
  match systemDirectories.find? (·.1 = place) with
  | some d => some d.2
  | none =>
    if ordinaryDirectories.contains place ||
        w.files.any fun f => f.1 ≠ place && place.isSuffixOf f.1 then
      some .takes
    else none

def entry? (w : Workspace) (place : Place) : Option Entry :=
  match w.files.find? (·.1 = place), devices.find? (·.1 = place) with
  | some f, _ => some (.file f.2)
  | none, some d => some (.device d.2)
  | none, none => (w.custom? place).map .directory

/-- One step of a path, which only a directory allows. A directory that makes up its names does
not mind how long one is that it does not know. -/
def enter (w : Workspace) (place : Place) (name : String) : Except PathError Place :=
  match w.entry? place with
  | none => .error .missing
  | some (.directory c) =>
    if name = "." then .ok place
    else if name = ".." then .ok place.tail
    else if c = .takes ∧ name.utf8ByteSize > maxNameSize then .error .tooLong
    else .ok (Place.resolved (name :: place))
  | some _ => .error .throughFile

/-- The place that names lead to. Nothing needs to stand there. -/
def follow (w : Workspace) (start : Place) (names : List String) : Except PathError Place :=
  names.foldlM w.enter start

/-- What stands at a path that is to be opened. -/
def find (w : Workspace) (path : String) : Except PathError Entry := do
  let path ← Path.ofText path
  let place ← w.follow path.start (path.names ++ if path.closed then ["."] else [])
  match w.entry? place with
  | some (.device .terminal) => throw .unattached
  | some entry => return entry
  | none => throw .missing

/-- The place of a path that is to be written. A path that ends with a slash is refused once the
directory before its last name has been found. Where nothing stands yet, it is for the directory
to decide. -/
def target (w : Workspace) (path : String) : Except PathError Place := do
  let path ← Path.ofText path
  if path.closed then
    let _ ← w.follow path.start (path.names.dropLast ++ ["."])
    throw .directory
  let place ← w.follow path.start path.names
  match w.entry? place, w.custom? place.tail with
  | some (.directory _), _ => throw .directory
  | some (.device .terminal), _ => throw .unattached
  | some _, _ => return place
  | none, some .takes => return place
  | none, some .guards => throw .forbidden
  | none, _ => throw .missing

def put (w : Workspace) (place : Place) (bytes : List UInt8) : Workspace :=
  ⟨(place, bytes) :: w.files.filter (·.1 ≠ place)⟩

/-- The workspace that holds files of given paths. One that cannot be placed is left out. -/
def ofFiles (files : List (String × List UInt8)) : Workspace :=
  files.foldl
    (fun w (path, bytes) =>
      match Path.ofText path with
      | .ok path => w.put (path.names.reverse ++ path.start) bytes
      | .error _ => w)
    ⟨[]⟩

/-- The bytes that can be read at a path, of what has any. -/
def contents? (w : Workspace) (path : String) : Option (List UInt8) :=
  match w.find path with
  | .ok (.file bytes) => some bytes
  | .ok (.device .null) => some []
  | _ => none

/-- The source behind a path, where the standard input has given bytes. What has no end, and a
directory, opens but cannot be read. -/
def openSource (w : Workspace) (input : List UInt8) (path : String) : Except PathError Source := do
  match ← w.find path with
  | .file bytes => return .ofBytes path bytes
  | .device .null => return .ofBytes path []
  | .device .input => return .ofBytes path input
  | .directory _ | .device _ => return .unreadable path

end Workspace

end RelayLogic
