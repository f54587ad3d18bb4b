import MarkupBinding.Binder
import MarkupBinding.Placeholder.Protection
import MarkupBinding.Tree.Builder

/-!
# Isolating bindings

Before bindings are written each text that will be declared has to have an element to be declared
at, and may not hold a template insert beside its binding. A text that mixes the two is split: its
first binding insert is wrapped in an element and the whole is parsed again. A text that would be
declared at a comment or a directive is wrapped as it is.
-/

namespace MarkupBinding.Isolation

/-- The element that text is wrapped in. -/
def wrapperName : Text := "span".toList

/-- Markup inside the wrapper element. -/
def wrap (markup : Text) : Text := startTagMarkup wrapperName [] ++ '>' :: markup ++
  endTagMarkup wrapperName

/-- Replaces the visited node. -/
def replaceVisited (f : Forest) (visit : Visit) (new : List NodeId) : Forest :=
  match f.replace visit.place visit.index new with
  | .ok f => f
  | .error _ => f

/-- Splits the visited text around its first binding insert. -/
def split (options : Options) (found : Text.Found BindingInsert) (visit : Visit)
    (s : Editing Log) : Editing Log :=
  let insert := found.hit.markup options.binding
  let fragment := found.before ++ wrap insert ++ found.after
  let (ids, f) := s.forest.graft (Tree.parse fragment options.collapses)
  { forest := replaceVisited f visit ids, notes := s.notes ++ [.textSplit insert] }

/-- Wraps the visited text because of the node that it would be declared at. -/
def wrapVisited (neighbour : Content) (visit : Visit) (s : Editing Log) : Editing Log :=
  let (wrapper, f) := s.forest.allocate { content := .element wrapperName [] [] }
  { forest := (replaceVisited f visit [wrapper]).appendChild wrapper visit.node
    notes := s.notes ++ [.textWrapped neighbour wrapperName] }

/-- Isolates the bindings of a text; other nodes stay as they are. -/
def visitor (options : Options) (protection : Protection) : Visitor Empty Log := fun visit s =>
  match s.forest.text? visit.node with
  | none => (s, none)
  | some content =>
    match BindingInsert.find? options.binding content with
    | none => (s, none)
    | some found =>
      -- A text that is one insert and nothing else has no template insert beside it.
      let alone := found.before.isEmpty && found.after.isEmpty
      if protection.containsPlaceholder content && !alone then
        (split options found visit s, none)
      else
        match (s.forest.anchor? visit.node).bind s.forest.content? with
        -- A text without neighbours or parent is left to the check for bare documents.
        | none | some (.element ..) => (s, none)
        | some neighbour => (wrapVisited neighbour visit s, none)

/-- Enough steps to isolate the bindings of a document of the given length. A split takes away a
character, or a letter of the name of a raw text element for which its tags may come back as text,
so there are at most fourteen splits for each character, each of a text not longer than that. -/
def steps (length : Nat) : Nat :=
  let splits := 14 * length + 16
  splits * splits * splits

/-- Isolates the bindings of a forest that was parsed from a text of the given length. -/
def isolate (options : Options) (protection : Protection) (length : Nat) (s : Editing Log) :
    Editing Log × Ending Empty :=
  Forest.walk (visitor options protection) (steps length) s

end MarkupBinding.Isolation
