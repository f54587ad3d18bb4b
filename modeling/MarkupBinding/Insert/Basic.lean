import MarkupBinding.Text.Recognizer

/-!
# Inserts

Markup carries two sorts of inserts, each between a pair of delimiters: template inserts, which
belong to a later rendering step, and binding inserts, which hold expressions. This file has what
they share, and the source of the regular expressions that describe them.
-/

namespace MarkupBinding

/-- What stands before and after an insert. -/
structure Delimiters where
  opening : Text
  closing : Text
deriving DecidableEq, Repr

namespace Delimiters

/-- A text between the delimiters. -/
def wrap (d : Delimiters) (text : Text) : Text := d.opening ++ text ++ d.closing

end Delimiters

namespace Pattern

/-- The characters that an insert's delimiters have to escape in a regular expression. -/
def delimiterSpecials : Text := "?+|$()\x7b\x7d[]^.-\\/*".toList

/-- The characters that any literal text has to escape in a regular expression, layout included. -/
def literalSpecials : Text := "()[]\x7b\x7d?*+-|^$\\.&~# \t\n\r\x0b\x0c".toList

/-- Puts a backslash before each special character. -/
def escape (specials text : Text) : Text :=
  text.flatMap fun c => if specials.contains c then ['\\', c] else [c]

/-- A delimiter as a regular expression. -/
def ofDelimiter (text : Text) : Text := escape delimiterSpecials text

/-- A binding insert as a regular expression, with the expression as its group. -/
def ofBinding (d : Delimiters) : Text :=
  ofDelimiter d.opening ++ "\\s*(\\S.*?)\\s*".toList ++ ofDelimiter d.closing

/-- A placeholder with the given stem as a regular expression. -/
def ofPlaceholder (stem : Text) : Text := escape literalSpecials stem ++ "\\d+_".toList

end Pattern
end MarkupBinding
