import MarkupBinding.Text.Basic

/-!
# Named entries

Values under names, in the order in which the names came. The attributes of a tag are such entries,
and so are the options of a transform. There are two ways of adding one: while a tag is read the
first occurrence of a name wins, and an edit changes the value in its place.
-/

namespace MarkupBinding

/-- Names and their values, in order. -/
abbrev Entries (α : Type) := List (Text × α)

/-- The attributes of a tag with their raw values, in written order. -/
abbrev Attributes := Entries Text

namespace Entries

variable {α : Type}

/-- The value of a name. -/
def get? (entries : Entries α) (name : Text) : Option α := entries.lookup name

/-- The names in order. -/
def names (entries : Entries α) : List Text := entries.map (·.1)

/-- Adds an entry unless its name is there already. -/
def insertNew (entries : Entries α) (name : Text) (value : α) : Entries α :=
  if entries.any (·.1 == name) then entries else entries ++ [(name, value)]

/-- Gives a name a new value, in place if the name is there and last if it is not. -/
def set (entries : Entries α) (name : Text) (value : α) : Entries α :=
  match entries with
  | [] => [(name, value)]
  | entry :: entries =>
    if entry.1 = name then (name, value) :: entries else entry :: set entries name value

/-- The entries that arise from setting each pair in turn. -/
def ofPairs (pairs : List (Text × α)) : Entries α :=
  pairs.foldl (fun entries (name, value) => set entries name value) []

end Entries
end MarkupBinding
