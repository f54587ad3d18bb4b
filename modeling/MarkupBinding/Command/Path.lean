import MarkupBinding.Text.Basic

/-!
# Paths

A path is a list of names under a root or under the current directory. Empty names and single dots
say nothing and are left out; double dots stay, for what they lead to depends on the directories.
-/

namespace MarkupBinding.Command

/-- A path to a file or a directory. -/
structure Path where
  /-- What the path starts from: nothing, or the sign of a root. -/
  root : Text
  names : List Text
deriving DecidableEq, Repr

namespace Path

/-- The pieces of a text between slashes. -/
def pieces : Text → List Text
  | [] => [[]]
  | c :: text =>
    match pieces text with
    | [] => [[c]]
    | piece :: rest => if c = '/' then [] :: piece :: rest else (c :: piece) :: rest

/-- The root that a written path starts from. Two slashes are a root of their own. -/
def rootOf : Text → Text
  | '/' :: '/' :: '/' :: _ => ['/']
  | '/' :: '/' :: _ => ['/', '/']
  | '/' :: _ => ['/']
  | _ => []

/-- The path that a text stands for. -/
def ofText (text : Text) : Path where
  root := rootOf text
  names := (pieces text).filter fun piece => piece ≠ [] && piece ≠ ['.']

/-- A path as text. -/
def toText (path : Path) : Text :=
  if path.root = [] && path.names = [] then ['.']
  else path.root ++ ['/'].intercalate path.names

/-- Whether a path holds the null character, which no file's name can hold. -/
def hasNull (path : Path) : Bool := path.names.any (·.contains '\x00')

end Path
end MarkupBinding.Command
