import MarkupBinding.Element
import MarkupBinding.Token.Basic

/-!
# Markup trees

A document is a list of trees. Elements hold their children; the four kinds of character data are
leaves.
-/

namespace MarkupBinding

/-- A node of a document together with all that lies below it. -/
inductive Tree where
  | element (name : Text) (attrs : Attributes) (children : List Tree)
  | data (kind : DataKind) (content : Text)
deriving Repr

/-- What can be wrong with the name of an element. -/
inductive NameError where
  | empty
deriving DecidableEq, Repr

/-- The message for a refused name. -/
def NameError.message : NameError → String
  | .empty => "Empty name passed to Element constructor"

namespace Tree

/-- A piece of plain text. -/
abbrev text (content : Text) : Tree := .data .text content

end Tree
end MarkupBinding
