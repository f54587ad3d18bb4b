import MarkupBinding.Text.Blank
import MarkupBinding.Token.Scanner
import MarkupBinding.Tree.Basic

/-!
# Building trees from tokens

A builder holds the finished trees and the chain of open elements. Elements nest as they are
written: there are no content models, void elements are closed at once, end tags that match no open
element are dropped, and a few end tags are implied by the start tags that follow.

An open element is kept apart from the children of the element around it until it is closed, so the
chain of open elements is always the last tree, its last child, and so on.
-/

namespace MarkupBinding

/-- An open element and the children it has so far, the last one first. -/
structure Frame where
  name : Text
  attrs : Attributes
  children : List Tree := []
deriving Repr

/-- The tree of a closed element. -/
def Frame.tree (frame : Frame) : Tree := .element frame.name frame.attrs frame.children.reverse

/-- A document that is being built. -/
structure Builder where
  /-- Whether blanks in text are collapsed. -/
  collapses : Bool := false
  /-- The finished trees, the last one first. -/
  roots : List Tree := []
  /-- The open elements, the innermost one first. -/
  opened : List Frame := []
deriving Repr

namespace Builder

/-- The nodes that stand where the next node will go, the last one first. -/
def siblings (b : Builder) : List Tree :=
  match b.opened with
  | [] => b.roots
  | frame :: _ => frame.children

/-- Replaces the nodes where the next node will go. -/
def withSiblings (b : Builder) (siblings : List Tree) : Builder :=
  match b.opened with
  | [] => { b with roots := siblings }
  | frame :: opened => { b with opened := { frame with children := siblings } :: opened }

/-- Adds a finished node. -/
def insert (b : Builder) (tree : Tree) : Builder := b.withSiblings (tree :: b.siblings)

/-- Closes the innermost open element, which becomes a child of the element around it. -/
def close (b : Builder) : Builder :=
  match b.opened with
  | [] => b
  | frame :: opened => insert { b with opened } frame.tree

/-- Closes open elements, innermost first. -/
def closeMany : Nat → Builder → Builder
  | 0, b => b
  | n + 1, b => closeMany n b.close

/-- Closes all open elements. -/
def closeAll (b : Builder) : Builder := closeMany b.opened.length b

/-- Closes the open elements whose end is implied by a start tag of this name in lower case. -/
def closeImplied (b : Builder) (lowered : Text) : Builder :=
  let implied := b.opened.takeWhile fun frame => Element.startEnds frame.name.lowercase lowered
  closeMany implied.length b

/-- The text as it is kept. -/
def kept (b : Builder) (content : Text) : Text :=
  if b.collapses then content.collapse else content

/-- Adds text. It is merged with text that stands right before it. -/
def insertText (b : Builder) (content : Text) : Builder :=
  match b.siblings with
  | .data .text last :: before => b.withSiblings (.text (b.kept (last ++ content)) :: before)
  | _ => b.insert (.text (b.kept content))

/-- Opens an element, or adds it at once if it is void. -/
def startTag (b : Builder) (name : Text) (attrs : Attributes) : Except NameError Builder :=
  let lowered := name.lowercase
  -- Ends are implied before the name is looked at; an empty name implies none.
  let b := b.closeImplied lowered
  if name = [] then .error .empty
  else if Element.isVoid lowered then .ok (b.insert (.element name attrs []))
  else .ok { b with opened := { name, attrs } :: b.opened }

/-- Closes the innermost open element of this name and all elements inside it. The end tag of a line
break is read as a line break, and a stray end of a paragraph as an empty paragraph. -/
def endTag (b : Builder) (name : Text) : Builder :=
  let lowered := name.lowercase
  if Element.isVoid lowered then
    if lowered = "br".toList then b.insert (.element name [] []) else b
  else
    match b.opened.findIdx? fun frame => frame.name.lowercase = lowered with
    | some i => closeMany (i + 1) b
    | none => if lowered = "p".toList then b.insert (.element name [] []) else b

/-- Takes in a token. Only a start tag without a name is refused. -/
def accept (b : Builder) : Token → Except NameError Builder
  | .startTag name attrs => b.startTag name attrs
  | .endTag name _ => .ok (b.endTag name)
  | .data .text content => .ok (b.insertText content)
  | .data kind content => .ok (b.insert (.data kind content))
  | .endOfInput => .ok b.closeAll

/-- Takes in a token; a refused one leaves the builder as it was. -/
def absorb (b : Builder) (token : Token) : Builder :=
  match b.accept token with
  | .ok next => next
  | .error _ => b

/-- Takes in tokens one after another. -/
def absorbAll (b : Builder) (tokens : List Token) : Builder := tokens.foldl absorb b

/-- The trees, once all open elements are closed. -/
def trees (b : Builder) : List Tree := b.closeAll.roots.reverse

end Builder

/-- The trees of a text. `collapses` says whether blanks are collapsed, `sections` whether marked
sections are recognized. -/
def Tree.parse (text : Text) (collapses : Bool := false) (sections : Bool := false) : List Tree :=
  (Builder.absorbAll { collapses } (Scanner.tokens text sections)).trees

end MarkupBinding
