import MarkupBinding.Text.Basic

/-!
# Line ends

Text that is read from outside ends its lines with a line feed, a carriage return, or both; inside,
every line ends with a line feed.
-/

namespace MarkupBinding.Text

/-- Unifies line ends; `after` says whether a carriage return stands right before the text. -/
def unifyLinesAfter (after : Bool) : Text → Text
  | [] => []
  | c :: text =>
    if c = '\r' then '\n' :: unifyLinesAfter true text
    else if c = '\n' && after then unifyLinesAfter false text
    else c :: unifyLinesAfter false text

/-- Writes every line end as a line feed. -/
def unifyLines (text : Text) : Text := unifyLinesAfter false text

end MarkupBinding.Text
