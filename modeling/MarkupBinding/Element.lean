import MarkupBinding.Text.Lowercase

/-!
# Element names

What the name of an element says about its content and its end. All tables hold lower-case names;
a name is looked up in lower case, except where an empty element is written out.
-/

namespace MarkupBinding.Element

/-- Elements that never have content: a start tag of one closes it at once. -/
def voidNames : List Text :=
  ["area", "base", "basefont", "br", "col", "command", "embed", "frame", "hr", "img", "input",
    "isindex", "keygen", "link", "meta", "param", "source", "track", "wbr"].map String.toList

/-- Elements that are written without an end tag when they are empty. -/
def unclosedNames : List Text :=
  voidNames ++
    ["circle", "ellipse", "line", "path", "polygone", "polyline", "rect", "stop", "use"].map
      String.toList

/-- Elements whose content is text up to their own end tag. -/
def rawTextNames : List Text := ["script", "style"].map String.toList

/-- For each element with an optional end tag, the start tags that close it. -/
def impliedEnds : List (Text × List Text) :=
  [("p", ["p", "h1", "h2", "h3", "h4", "h5", "h6"]),
    ("li", ["li"]),
    ("dt", ["dt", "dd"]),
    ("dd", ["dt", "dd"]),
    ("tr", ["tr"]),
    ("td", ["tr", "td", "th"]),
    ("th", ["tr", "td", "th"]),
    ("option", ["option", "optgroup"]),
    ("optgroup", ["optgroup"]),
    ("head", ["body"])].map fun (name, starts) => (name.toList, starts.map String.toList)

/-- Whether a name in lower case is that of a void element. -/
def isVoid (lowered : Text) : Bool := voidNames.contains lowered

/-- Whether the content of an element of this name is raw text. -/
def isRawText (name : Text) : Bool := rawTextNames.contains name.lowercase

/-- Whether a start tag ends an open element; both names are in lower case. -/
def startEnds (opened started : Text) : Bool :=
  ((impliedEnds.lookup opened).getD []).contains started

/-- The three kinds of elements. Only plain tags have attributes that are searched for inserts. -/
inductive Kind where
  | tag
  | script
  | style
deriving DecidableEq, Repr

/-- All kinds. -/
def Kind.all : List Kind := [tag, script, style]

/-- The word for a kind. -/
def Kind.label : Kind → String
  | tag => "tag"
  | script => "script"
  | style => "style"

/-- The kind that belongs to a name. -/
def Kind.ofName (name : Text) : Kind :=
  let lowered := name.lowercase
  if lowered = "script".toList then .script
  else if lowered = "style".toList then .style
  else .tag

end MarkupBinding.Element
