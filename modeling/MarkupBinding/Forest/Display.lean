import MarkupBinding.Forest.Graft
import MarkupBinding.Tree.Markup
import MarkupBinding.Text.Quoted

/-!
# Forests and nodes as text

A forest is written as the markup of its trees. In messages a node is shown by its kind and the
beginning of what it holds.
-/

namespace MarkupBinding

/-- The name by which a node of character data is shown. -/
def DataKind.displayName : DataKind → String
  | .text => "Text"
  | .comment => "Comment"
  | .cdata => "CData"
  | .directive => "Directive"

/-- How many characters of a node's data are shown. -/
def shownLength : Nat := 30

/-- A node in a message. -/
def Content.display : Content → Text
  | .data kind content =>
    kind.displayName.toList ++ '(' :: Text.quoted (content.take shownLength) ++ [')']
  | .element name _ children =>
    "Element(<".toList ++ name ++ ">, children=".toList ++ Text.ofNat children.length ++ [')']
  | .bare label => "Node(".toList ++ Text.quoted label ++ [')']

namespace Forest

/-- The message for a forest that has no markup. -/
def ViewError.message : ViewError → Text
  | .bare label => "Cannot serialize node of type ".toList ++ Text.quoted label
  | .dangling => "Cannot serialize a node that lies below itself".toList

/-- A node in a message. -/
def display (f : Forest) (id : NodeId) : Text :=
  match f.content? id with
  | some content => content.display
  | none => []

/-- The markup of some nodes. -/
def markupOf (f : Forest) (xhtml : Bool) (ids : List NodeId) : Except ViewError Text := do
  let trees ← f.treesAt ids
  pure (Tree.markupAll xhtml trees)

/-- The markup of a forest. -/
def markup (f : Forest) (xhtml : Bool) : Except ViewError Text := f.markupOf xhtml f.roots

end Forest
end MarkupBinding
