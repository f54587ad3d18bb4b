import MarkupBinding.Command.Path

/-!
# Directories

The current directory of a command, as far as the command can see it: files and directories by the
names on the way to them. Of what lies above it no more is known than that there are directories.
-/

namespace MarkupBinding.Command

/-- A file with its bytes, or a directory. -/
inductive Entry where
  | file (bytes : List UInt8)
  | directory
deriving DecidableEq, Repr

/-- Why a path leads to no file. -/
inductive PathFault where
  | notFound
  | notDirectory
  | isDirectory
  /-- A name, or the path as a whole, has more bytes than are allowed. -/
  | nameTooLong
deriving DecidableEq, Repr

namespace PathFault

/-- The number of a fault. -/
def number : PathFault → Nat
  | notFound => 2
  | notDirectory => 20
  | isDirectory => 21
  | nameTooLong => 36

/-- The words for a fault. -/
def reason : PathFault → String
  | notFound => "No such file or directory"
  | notDirectory => "Not a directory"
  | isDirectory => "Is a directory"
  | nameTooLong => "File name too long"

end PathFault

/-- The entries of the current directory and of those inside it. -/
structure Directory where
  entries : List (List Text × Entry) := []
deriving Repr

/-- A place that a path can lead to. -/
inductive Location where
  /-- The names on the way from the current directory, the last one first. -/
  | inside (names : List Text)
  /-- So many levels above the current directory. -/
  | above (levels : Nat)
  /-- The root. -/
  | top
deriving DecidableEq, Repr

namespace Directory

/-- What is at a location inside. The directories on the way to an entry need no entry. -/
def entry? (d : Directory) (names : List Text) : Option Entry :=
  let way := names.reverse
  match d.entries.lookup way with
  | some entry => some entry
  | none =>
    if way = [] || d.entries.any (fun (names, _) => way.isPrefixOf names) then some .directory
    else none

/-- What is at a location. -/
def at? (d : Directory) : Location → Option Entry
  | .inside names => d.entry? names
  | .above _ | .top => some .directory

/-- How many bytes a name may have. -/
def nameLimit : Nat := 255

/-- How many bytes a path may have. -/
def pathLimit : Nat := 4095

/-- How many bytes a text has in UTF-8. -/
def byteCount (text : Text) : Nat := (String.ofList text).utf8ByteSize

/-- One name further. Only a directory leads on. -/
def descend (d : Directory) (location : Location) (name : Text) : Except PathFault Location :=
  match d.at? location with
  | none => .error .notFound
  | some (.file _) => .error .notDirectory
  | some .directory =>
    if nameLimit < byteCount name then .error .nameTooLong
    else if name = ['.', '.'] then
      match location with
      | .inside [] => .ok (.above 1)
      | .inside (_ :: names) => .ok (.inside names)
      | .above levels => .ok (.above (levels + 1))
      | .top => .ok .top
    else
      match location with
      | .inside names => .ok (.inside (name :: names))
      | .above _ | .top => .error .notFound

/-- Where a path leads to. The last name need not be there. -/
def locate (d : Directory) (path : Path) : Except PathFault Location :=
  if pathLimit < byteCount path.toText then .error .nameTooLong
  else path.names.foldlM d.descend (if path.root = [] then .inside [] else .top)

/-- The bytes of the file at a path. -/
def read (d : Directory) (path : Path) : Except PathFault (List UInt8) := do
  match d.at? (← d.locate path) with
  | none => .error .notFound
  | some .directory => .error .isDirectory
  | some (.file bytes) => .ok bytes

/-- Where a file at a path is written: the names on the way to it. -/
def target (d : Directory) (path : Path) : Except PathFault (List Text) := do
  match ← d.locate path with
  | .inside names =>
    match d.entry? names with
    | some .directory => .error .isDirectory
    | _ => .ok names.reverse
  | .above _ | .top => .error .isDirectory

end Directory
end MarkupBinding.Command
