import MarkupBinding.Text.Basic
import MarkupBinding.Text.Printable

/-!
# Quotations

A text in quotation marks on one line of printable characters, for messages. Single marks are the
rule; double ones are taken when the text holds a single mark and no double one, so that a mark has
to be escaped only when both occur.
-/

namespace MarkupBinding.Text

/-- The single quotation mark. -/
def singleMark : Char := '\x27'

/-- The double quotation mark. -/
def doubleMark : Char := '"'

/-- The last `width` hexadecimal digits of a number, in lower case. -/
def hexDigits : Nat → Nat → Text
  | 0, _ => []
  | width + 1, n => hexDigits width (n / 16) ++ [Nat.digitChar (n % 16)]

/-- A character by its number: two, four or eight hexadecimal digits, whichever is enough. -/
def numericEscape (c : Char) : Text :=
  let n := c.toNat
  if n < 0x100 then ['\\', 'x'] ++ hexDigits 2 n
  else if n < 0x10000 then ['\\', 'u'] ++ hexDigits 4 n
  else ['\\', 'U'] ++ hexDigits 8 n

/-- A character inside a quotation with the given marks. -/
def quotedChar (mark c : Char) : Text :=
  if c = '\\' || c = mark then ['\\', c]
  else if c = '\n' then ['\\', 'n']
  else if c = '\r' then ['\\', 'r']
  else if c = '\t' then ['\\', 't']
  else if isPrintable c then [c]
  else numericEscape c

/-- The marks that a text is quoted with. -/
def quotationMark (text : Text) : Char :=
  if text.contains singleMark && !text.contains doubleMark then doubleMark else singleMark

/-- The text in quotation marks. -/
def quoted (text : Text) : Text :=
  let mark := quotationMark text
  mark :: text.flatMap (quotedChar mark) ++ [mark]

end MarkupBinding.Text
