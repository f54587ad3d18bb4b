import MarkupBinding.Expression
import MarkupBinding.Forest.Walk
import MarkupBinding.Insert.Binding
import MarkupBinding.Log
import MarkupBinding.Options.Basic
import MarkupBinding.Text.Blank

/-!
# Writing bindings

Binding inserts in attribute values and in text become declarations in the binding attribute of an
element, and template inserts where they stood. The declaration of an attribute goes to its own
element. A text has no attributes; its declaration goes to its anchor, the nearest node before,
around or after it, together with a word that says where the text is found from there.
-/

namespace MarkupBinding

/-- Which part of the document a declaration is about, seen from the element that holds it. -/
inductive Handler where
  /-- The attribute `value`. -/
  | value
  /-- Any other attribute. -/
  | attr (name : Text)
  /-- The only child. -/
  | onlyText
  /-- The first of several children. -/
  | firstText
  /-- The next neighbour. -/
  | nextText
  /-- The previous neighbour, at the top of the document. -/
  | previousText
deriving DecidableEq, Repr

namespace Handler

/-- The handler of an attribute. -/
def ofAttribute (name : Text) : Handler :=
  if name = "value".toList then .value else .attr name

/-- The handler of a text with the given links. -/
def ofLinks (links : Links) : Handler :=
  if links.previous.isSome then .nextText
  else if links.parent.isSome then
    if links.next.isSome then .firstText else .onlyText
  else .previousText

/-- A handler as it is written. -/
def markup : Handler → Text
  | value => "value".toList
  | attr name => "attr(".toList ++ name ++ [')']
  | onlyText => "text".toList
  | firstText => "text(first)".toList
  | nextText => "text(next)".toList
  | previousText => "text(prev)".toList

/-- A declaration. -/
def declaration (handler : Handler) (expression : Text) : Text :=
  handler.markup ++ ':' :: expression

end Handler

namespace Forest

/-- The node that a text is declared at: the one before it, else its parent, else the one after. -/
def anchor? (f : Forest) (id : NodeId) : Option NodeId :=
  let links := f.links id
  links.previous <|> links.parent <|> links.next

end Forest

/-- Why a text cannot be declared. -/
inductive AnchorError where
  | missing (node : Content)
  | notElement (node anchor : Content)
deriving DecidableEq, Repr

/-- The message for a text that cannot be declared. -/
def AnchorError.message : AnchorError → Text
  | .missing node => "No anchor element for text binding ".toList ++ node.display
  | .notElement node anchor =>
    "Text binding ".toList ++ node.display ++ " would anchor on non-element ".toList ++
      anchor.display

/-- What a pass needs to know to write bindings. -/
structure Binder where
  /-- The attribute that receives the declarations. -/
  target : Text
  /-- The attributes that are not searched. -/
  skipped : List Text
  template : Delimiters
  binding : Delimiters
  root : Text
deriving Repr

namespace Binder

/-- The binder for some options. Skipped entries that cannot be looked up are refused here. -/
def ofOptions (options : Options) : Except Options.Error Binder := do
  let skipped ← options.skippedNames
  pure { target := options.target, skipped, template := options.template,
         binding := options.binding, root := options.root }

/-- The two forms of a text, if it holds binding inserts. -/
def synthesis? (b : Binder) (text : Text) : Option Synthesis :=
  let parts := BindingInsert.split b.binding text
  if parts.length = 1 then none else some (Synthesis.ofParts b.template b.root parts)

/-- The value of the binding attribute with one more declaration. -/
def extend (old : Option Text) (declaration : Text) : Text :=
  let old := Text.trim (old.getD [])
  if old = [] then declaration else old ++ ',' :: declaration

/-- Adds a declaration to an element. -/
def declare (b : Binder) (id : NodeId) (declaration : Text) (s : Editing Log) : Editing Log :=
  match s.forest.content? id with
  | some (.element name attrs _) =>
    let value := extend (attrs.get? b.target) declaration
    { forest := s.forest.setAttribute id b.target value
      notes := s.notes ++ [.declared name b.target value] }
  | _ => s

/-- The value of an element's attribute. -/
def attributeValue? (f : Forest) (id : NodeId) (name : Text) : Option Text :=
  match f.content? id with
  | some (.element _ attrs _) => attrs.get? name
  | _ => none

/-- Binds one attribute of an element, if it holds binding inserts. -/
def bindAttribute (b : Binder) (id : NodeId) (s : Editing Log) (name : Text) :
    Editing Log × Bool :=
  if b.skipped.contains name then (s, false)
  else
    match (attributeValue? s.forest id name).bind b.synthesis? with
    | none => (s, false)
    | some synthesis =>
      let declaration := (Handler.ofAttribute name).declaration synthesis.expression
      let s := b.declare id declaration s
      ({ s with forest := s.forest.setAttribute id name synthesis.content }, true)

/-- Binds the attributes that an element has at first, in order; returns how many were bound. -/
def bindAttributes (b : Binder) (id : NodeId) (s : Editing Log) : Editing Log × Nat :=
  let names :=
    match s.forest.content? id with
    | some (.element _ attrs _) => attrs.names
    | _ => []
  names.foldl (fun (s, count) name =>
    let (s, bound) := b.bindAttribute id s name
    (s, if bound then count + 1 else count)) (s, 0)

/-- Binds a node of character data; returns whether it held binding inserts. -/
def bindText (b : Binder) (id : NodeId) (s : Editing Log) :
    Editing Log × Except AnchorError Bool :=
  match s.forest.content? id with
  | some (.data kind content) =>
    match b.synthesis? content with
    | none => (s, .ok false)
    | some synthesis =>
      let node := Content.data kind content
      match s.forest.anchor? id with
      | none => (s, .error (.missing node))
      | some anchor =>
        match s.forest.content? anchor with
        | some (.element ..) =>
          let handler := Handler.ofLinks (s.forest.links id)
          let s := b.declare anchor (handler.declaration synthesis.expression) s
          ({ s with forest := s.forest.setData id synthesis.content }, .ok true)
        | some other => (s, .error (.notElement node other))
        | none => (s, .error (.missing node))
  | _ => (s, .ok false)

/-- Binds the attributes of plain tags and the content of texts. -/
def visitor (b : Binder) : Visitor AnchorError Log := fun visit s =>
  match s.forest.content? visit.node with
  | some (.element name _ _) =>
    if Element.Kind.ofName name = .tag then ((b.bindAttributes visit.node s).1, none) else (s, none)
  | some (.data .text _) =>
    match b.bindText visit.node s with
    | (s, .ok _) => (s, none)
    | (s, .error error) => (s, some error)
  | _ => (s, none)

/-- Enough steps for a walk that changes no list: each path from the root list takes at most two,
and a path is known by the entries on it. -/
def walkSteps (f : Forest) : Nat := Nat.pow 2 (f.entryCount + 1) + 2

/-- Writes the bindings of a whole forest. -/
def bind (b : Binder) (s : Editing Log) : Editing Log × Ending AnchorError :=
  Forest.walk b.visitor (walkSteps s.forest) s

end Binder
end MarkupBinding
