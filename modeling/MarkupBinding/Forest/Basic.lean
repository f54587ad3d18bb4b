import MarkupBinding.Tree.Basic

/-!
# Linked forests

A document that can be edited in place: every node knows its parent and its two neighbours, and the
nodes are kept in one table and named by their positions in it. The child lists decide what the
document is; the links are a second account of the same thing, kept up by the edits.

A child list belongs to a place: the root list, or the children of a node. The edits are the two
that the links are made for, adding a node at the end of a list and replacing one node by others.
-/

namespace MarkupBinding

/-- The name of a node: its position in the table. -/
abbrev NodeId := Nat

/-- The nodes around a node. -/
structure Links where
  parent : Option NodeId := none
  previous : Option NodeId := none
  next : Option NodeId := none
deriving DecidableEq, Repr

/-- What a node is. -/
inductive Content where
  | element (name : Text) (attrs : Attributes) (children : List NodeId)
  | data (kind : DataKind) (content : Text)
  /-- A node of a kind of its own, which has neither data nor children. -/
  | bare (label : Text)
deriving DecidableEq, Repr

/-- A node and its links. -/
structure Node where
  content : Content
  links : Links := {}
deriving DecidableEq, Repr

/-- A node without children and links for an element of the given name. -/
def Node.element (name : Text) (attrs : Attributes := []) : Except NameError Node :=
  if name = [] then .error .empty else .ok { content := .element name attrs [] }

/-- A list of nodes that belong together. -/
inductive Place where
  | roots
  | childrenOf (node : NodeId)
deriving DecidableEq, Repr

/-- A table of nodes and the list of those at the top. -/
structure Forest where
  nodes : Array Node := #[]
  roots : List NodeId := []
deriving DecidableEq, Repr

/-- A place does not hold as many nodes as an edit needs. -/
inductive PlaceError where
  | outOfRange
deriving DecidableEq, Repr

/-- The message for an edit beyond the end of a list. -/
def PlaceError.message : PlaceError → String
  | .outOfRange => "list index out of range"

namespace Forest

/-! ## Looking -/

/-- The links of a node; a name that is not in the table has none. -/
def links (f : Forest) (id : NodeId) : Links := (f.nodes[id]?.map (·.links)).getD {}

/-- What a node is, if it is in the table. -/
def content? (f : Forest) (id : NodeId) : Option Content := f.nodes[id]?.map (·.content)

/-- The children of a node; only elements have any. -/
def children (f : Forest) (id : NodeId) : List NodeId :=
  match f.content? id with
  | some (.element _ _ children) => children
  | _ => []

/-- The nodes at a place. -/
def list (f : Forest) : Place → List NodeId
  | .roots => f.roots
  | .childrenOf id => f.children id

/-- Whether a node is an element. A bare node is one if its label is that of a kind of elements. -/
def isElement (f : Forest) (id : NodeId) : Bool :=
  match f.content? id with
  | some (.element ..) => true
  | some (.bare label) => Element.Kind.all.any fun kind => kind.label.toList = label
  | _ => false

/-- The plain text that a node holds, if it is text. -/
def text? (f : Forest) (id : NodeId) : Option Text :=
  match f.content? id with
  | some (.data .text content) => some content
  | _ => none

/-! ## Changing single nodes -/

/-- Changes one node. -/
def modify (f : Forest) (id : NodeId) (change : Node → Node) : Forest :=
  { f with nodes := f.nodes.modify id change }

/-- Changes the links of one node. -/
def modifyLinks (f : Forest) (id : NodeId) (change : Links → Links) : Forest :=
  f.modify id fun node => { node with links := change node.links }

/-- Changes the links of a node that may be absent. -/
def modifyLinks? (f : Forest) (id? : Option NodeId) (change : Links → Links) : Forest :=
  match id? with
  | some id => f.modifyLinks id change
  | none => f

/-- Replaces the list at a place. -/
def setList (f : Forest) (place : Place) (list : List NodeId) : Forest :=
  match place with
  | .roots => { f with roots := list }
  | .childrenOf id => f.modify id fun node =>
    match node.content with
    | .element name attrs _ => { node with content := .element name attrs list }
    | _ => node

/-- Replaces the data of a node that holds data. -/
def setData (f : Forest) (id : NodeId) (content : Text) : Forest :=
  f.modify id fun node =>
    match node.content with
    | .data kind _ => { node with content := .data kind content }
    | _ => node

/-- Gives an attribute of an element a new value. -/
def setAttribute (f : Forest) (id : NodeId) (name value : Text) : Forest :=
  f.modify id fun node =>
    match node.content with
    | .element tag attrs children =>
      { node with content := .element tag (attrs.set name value) children }
    | _ => node

/-- Puts a new node into the table. It is at no place yet. -/
def allocate (f : Forest) (node : Node) : NodeId × Forest :=
  (f.nodes.size, { f with nodes := f.nodes.push node })

/-! ## Edits -/

/-- Adds a node at the end of a list and links it. -/
def link (f : Forest) (place : Place) (id : NodeId) (parent : Option NodeId) : Forest :=
  let last := (f.list place).getLast?
  let f := f.modifyLinks? last fun links => { links with next := some id }
  let f := f.modifyLinks id fun _ => { parent, previous := last, next := none }
  f.setList place (f.list place ++ [id])

/-- Adds a node at the end of the children of another. -/
def appendChild (f : Forest) (parent child : NodeId) : Forest :=
  f.link (.childrenOf parent) child (some parent)

/-- Links nodes one after another behind `previous`; the last node linked is returned. -/
def chain (f : Forest) (parent previous : Option NodeId) : List NodeId → Forest × Option NodeId
  | [] => (f, previous)
  | id :: ids =>
    let f := f.modifyLinks id fun links => { links with parent, previous }
    let f := f.modifyLinks? previous fun links => { links with next := some id }
    f.chain parent (some id) ids

/-- Links new nodes with each other and with what is around an old one. The links of the old node
stay as they are. -/
def relink (f : Forest) (old : NodeId) (new : List NodeId) : Forest :=
  let { parent, previous, next } := f.links old
  let (f, last) := f.chain parent previous new
  let f := f.modifyLinks? last fun links => { links with next }
  f.modifyLinks? next fun links => { links with previous := last }

/-- Takes all links from a node. -/
def unlink (f : Forest) (id : NodeId) : Forest := f.modifyLinks id fun _ => {}

/-- Replaces the node at a position by others. They take over its parent and its neighbours, and the
replaced node is left without links. -/
def replace (f : Forest) (place : Place) (index : Nat) (new : List NodeId) :
    Except PlaceError Forest :=
  let list := f.list place
  match list[index]? with
  | none => .error .outOfRange
  | some old =>
    let f := (f.relink old new).setList place (list.take index ++ new ++ list.drop (index + 1))
    -- The links of the replaced node go last, even if it is one of the new nodes.
    .ok (f.unlink old)

/-- Cuts a list off before a position. The links stay as they are. -/
def truncate (f : Forest) (place : Place) (index : Nat) : Forest :=
  f.setList place ((f.list place).take index)

end Forest
end MarkupBinding
