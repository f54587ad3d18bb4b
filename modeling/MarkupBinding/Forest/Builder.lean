import MarkupBinding.Forest.Basic
import MarkupBinding.Tree.Builder

/-!
# Building a linked forest from tokens

The builder of trees again, on a linked forest: a node is put into the table and linked where it
stands as soon as its token comes, and the open elements are names of nodes. Closing an element only
forgets its name, since it stands in its place from the start.

A token is taken in step by step, so one that is refused leaves behind what was done before the
refusal.
-/

namespace MarkupBinding

/-- A linked forest that is being built. -/
structure LinkedBuilder where
  /-- Whether blanks in text are collapsed. -/
  collapses : Bool := false
  forest : Forest := {}
  /-- The open elements, the innermost one first. -/
  opened : List NodeId := []
deriving DecidableEq, Repr

namespace LinkedBuilder

/-- The list that the children of the innermost of some open elements stand in. -/
def placeIn : List NodeId → Place
  | [] => .roots
  | id :: _ => .childrenOf id

/-- Where the next node will go. -/
def place (b : LinkedBuilder) : Place := placeIn b.opened

/-- The name of an element in lower case. -/
def lowered (b : LinkedBuilder) (id : NodeId) : Text :=
  match b.forest.content? id with
  | some (.element name _ _) => name.lowercase
  | _ => []

/-- Adds a node; its place in the table is returned. -/
def insert (b : LinkedBuilder) (content : Content) : NodeId × LinkedBuilder :=
  let (id, forest) := b.forest.allocate { content }
  (id, { b with forest := forest.link b.place id b.opened.head? })

/-- Closes the open elements whose end is implied by a start tag of this name in lower case. -/
def closeImplied (b : LinkedBuilder) (started : Text) : LinkedBuilder :=
  { b with opened := b.opened.dropWhile fun id => Element.startEnds (b.lowered id) started }

/-- The text as it is kept. -/
def kept (b : LinkedBuilder) (content : Text) : Text :=
  if b.collapses then content.collapse else content

/-- Adds text. It is merged with text that stands right before it. -/
def insertText (b : LinkedBuilder) (content : Text) : LinkedBuilder :=
  match (b.forest.list b.place).getLast? with
  | none => (b.insert (.data .text (b.kept content))).2
  | some last =>
    match b.forest.text? last with
    | none => (b.insert (.data .text (b.kept content))).2
    | some before => { b with forest := b.forest.setData last (b.kept (before ++ content)) }

/-- Opens an element, or only adds it if it is void. Ends are implied before the name is looked at. -/
def startTag (b : LinkedBuilder) (name : Text) (attrs : Attributes) :
    LinkedBuilder × Except NameError Unit :=
  let started := name.lowercase
  let b := b.closeImplied started
  match Node.element name attrs with
  | .error error => (b, .error error)
  | .ok node =>
    let (id, b) := b.insert node.content
    (if Element.isVoid started then b else { b with opened := id :: b.opened }, .ok ())

/-- Closes the innermost open element of this name and all elements inside it. The end tag of a line
break is read as a line break, and a stray end of a paragraph as an empty paragraph. -/
def endTag (b : LinkedBuilder) (name : Text) : LinkedBuilder :=
  let ended := name.lowercase
  if Element.isVoid ended then
    if ended = "br".toList then (b.insert (.element name [] [])).2 else b
  else
    match b.opened.findIdx? fun id => b.lowered id = ended with
    | some i => { b with opened := b.opened.drop (i + 1) }
    | none => if ended = "p".toList then (b.insert (.element name [] [])).2 else b

/-- Takes in a token. Only a start tag without a name is refused. -/
def accept (b : LinkedBuilder) : Token → LinkedBuilder × Except NameError Unit
  | .startTag name attrs => b.startTag name attrs
  | .endTag name _ => (b.endTag name, .ok ())
  | .data .text content => (b.insertText content, .ok ())
  | .data kind content => ((b.insert (.data kind content)).2, .ok ())
  | .endOfInput => ({ b with opened := [] }, .ok ())

/-- Takes in tokens one after another, those that are refused as far as they are taken. -/
def acceptAll (b : LinkedBuilder) (tokens : List Token) : LinkedBuilder :=
  tokens.foldl (fun b token => (b.accept token).1) b

end LinkedBuilder
end MarkupBinding
