import MarkupBinding.Isolation

/-!
# The binding transform

A document goes through five passes: its template inserts are protected and the result is parsed;
bindings are isolated; a document of one bare text is wrapped; bindings are written; and the
document is written as markup again, with its template inserts in their places.
-/

namespace MarkupBinding

/-- Why a transform fails. -/
inductive TransformError where
  | options (error : Options.Error)
  | anchor (error : AnchorError)
  | view (error : Forest.ViewError)
deriving Repr

/-- The message for a transform that fails. -/
def TransformError.message : TransformError → Text
  | .options error => error.message
  | .anchor error => error.message
  | .view error => error.message

namespace Options

/-- Protects the template inserts of a document. -/
def protect (options : Options) (html : Text) : Text × Protection :=
  Protection.protect { delimiters := options.template } html

/-- Parses protected markup into a forest. -/
def parse (options : Options) (markup : Text) : Forest :=
  Forest.ofTrees (Tree.parse markup options.collapses)

/-- Whether a forest is one bare text, which has no element to be declared at. -/
def isBareText (f : Forest) : Bool :=
  match f.roots with
  | [id] => (f.text? id).isSome
  | _ => false

/-- The forest that bindings are written to, and the log of making it. -/
def prepare (options : Options) (markup : Text) (protection : Protection) : Editing Log :=
  let notes := if protection.isActive then [.insertsProtected protection.inserts.length] else []
  let (s, _) :=
    Isolation.isolate options protection markup.length { forest := options.parse markup, notes }
  if isBareText s.forest && (BindingInsert.find? options.binding markup).isSome then
    { forest := options.parse (Isolation.wrap markup)
      notes := s.notes ++ [.documentWrapped Isolation.wrapperName] }
  else s

/-- The outcome of a transform: its log, and the new markup or what went wrong. -/
structure Outcome where
  log : Log
  result : Except TransformError Text

/-- Rewrites the binding inserts of a document as declarations. -/
def transform (options : Options) (html : Text) : Outcome :=
  let (markup, protection) := options.protect html
  let s := options.prepare markup protection
  match Binder.ofOptions options with
  | .error error => ⟨s.notes, .error (.options error)⟩
  | .ok binder =>
    match binder.bind s with
    | (s, .stopped error) => ⟨s.notes, .error (.anchor error)⟩
    | (s, _) =>
      match s.forest.markup options.xhtml with
      | .ok markup => ⟨s.notes, .ok (protection.restore markup)⟩
      | .error error => ⟨s.notes, .error (.view error)⟩

end Options
end MarkupBinding
