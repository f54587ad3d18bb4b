import MarkupBinding.Forest.Basic
import MarkupBinding.Forest.Display

/-!
# The log of a transform

What a transform did to a document, step by step.
-/

namespace MarkupBinding

/-- A step of a transform. -/
inductive Note where
  /-- Template inserts were swapped for placeholders. -/
  | insertsProtected (count : Nat)
  /-- A text was split around a binding insert. -/
  | textSplit (insert : Text)
  /-- A text was wrapped because of the node that it would have been declared at. -/
  | textWrapped (neighbour : Content) (wrapper : Text)
  /-- A document of one text was wrapped. -/
  | documentWrapped (wrapper : Text)
  /-- A declaration was written; the whole value of the attribute is kept. -/
  | declared (element target value : Text)
deriving DecidableEq, Repr

/-- The steps of a transform in order. -/
abbrev Log := List Note

namespace Note

/-- The part of the program that a step belongs to. -/
def channel : Note → String
  | insertsProtected _ => "htmlbind.protect"
  | textSplit _ | textWrapped _ _ | documentWrapped _ => "htmlbind.transform"
  | declared _ _ _ => "htmlbind.binder"

/-- What is said of a step. -/
def message : Note → Text
  | insertsProtected count => "Protected ".toList ++ Text.ofNat count ++ " template inserts".toList
  | textSplit insert => "Splitting text node around ".toList ++ Text.quoted insert
  | textWrapped neighbour wrapper =>
    "Wrapping text next to ".toList ++ neighbour.display ++ " in <".toList ++ wrapper ++ ['>']
  | documentWrapped wrapper => "Wrapping bare text in <".toList ++ wrapper ++ ['>']
  | declared element target value =>
    '<' :: element ++ "> ".toList ++ target ++ '=' :: Text.quoted value

/-- A line of the log. -/
def line (note : Note) : Text := note.channel.toList ++ ": ".toList ++ note.message ++ ['\n']

end Note
end MarkupBinding
