import MarkupBinding.Entries
import MarkupBinding.Text.Quoted

/-!
# Tokens

The units that markup is cut into: tags, runs of character data of four kinds, and the end of the
input. Names and data are kept as written.
-/

namespace MarkupBinding

/-- The kinds of character data. -/
inductive DataKind where
  /-- Plain text. -/
  | text
  /-- The inside of a comment. -/
  | comment
  /-- A marked section, with the signs around it but without the angle brackets. -/
  | cdata
  /-- A declaration or processing instruction, with its leading sign. -/
  | directive
deriving DecidableEq, Repr

/-- A unit of markup. -/
inductive Token where
  | startTag (name : Text) (attrs : Attributes)
  | endTag (name : Text) (attrs : Attributes)
  | data (kind : DataKind) (content : Text)
  | endOfInput
deriving DecidableEq, Repr

namespace Token

/-- A tag on one line: what it is, its name, and its attributes with quoted values. -/
def displayTag (label name : Text) (attrs : Attributes) : Text :=
  let shown := attrs.map fun (key, value) => key ++ '=' :: Text.quoted value
  ['<'] ++ label ++ [':'] ++ name ++ [' '] ++ [' '].intercalate shown ++ ['>']

/-- How a tag is shown in messages; other tokens are not shown. -/
def display? : Token → Option Text
  | startTag name attrs => some (displayTag "start".toList name attrs)
  | endTag name attrs => some (displayTag "end".toList name attrs)
  | _ => none

end Token
end MarkupBinding
