import MarkupBinding.Text.Basic
import MarkupBinding.Text.Ranges

/-!
# Blank characters

The white space of the Unicode standard together with the four information separators. Text is
trimmed and collapsed by this class; the narrower white space inside tags is a matter of tokens.
-/

namespace MarkupBinding.Text

/-- White space: characters that separate words or lines. -/
def blankRanges : Ranges :=
  [
    (9, 13), (28, 32), (133, 133), (160, 160), (5760, 5760), (8192, 8202), (8232, 8233), (8239,
    8239), (8287, 8287), (12288, 12288)
  ]

/-- White space of any script. -/
def isBlank (c : Char) : Bool := blankRanges.contains c.toNat

/-- The text without the blanks at its two ends. -/
def trim (text : Text) : Text :=
  ((text.dropWhile isBlank).reverse.dropWhile isBlank).reverse

/-- Collapses blanks; `after` says whether a blank stands right before the text. -/
def collapseAfter (after : Bool) : Text → Text
  | [] => []
  | c :: text =>
    if isBlank c then
      if after then collapseAfter true text else ' ' :: collapseAfter true text
    else c :: collapseAfter false text

/-- Writes each maximal run of blanks as one space. -/
def collapse (text : Text) : Text := collapseAfter false text

end MarkupBinding.Text
