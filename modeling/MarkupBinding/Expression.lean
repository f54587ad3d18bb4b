import MarkupBinding.Insert.Basic
import MarkupBinding.Text.Quoted

/-!
# Binding expressions

Text that mixes literal parts and expressions is rewritten twice: as one expression that joins its
parts, and as the same text with every expression turned into a template insert. The expression is
a sum of terms. Empty literal parts are left out, with one exception: the part between the first two
expressions is kept as an empty text where there are more than three parts, so that two expressions
at the front are joined as texts and never added as numbers.
-/

namespace MarkupBinding

/-- A term of a sum. -/
inductive Term where
  /-- Literal text. -/
  | literal (text : Text)
  /-- An expression, to be read from the root of the data. -/
  | path (expression : Text)
deriving DecidableEq, Repr

namespace Term

/-- A character inside a literal term. -/
def escapeChar (c : Char) : Text :=
  if c = '\\' then ['\\', '\\']
  else if c = Text.singleMark then ['\\', Text.singleMark]
  else if c = '\r' then ['\\', 'r']
  else if c = '\n' then ['\\', 'n']
  else [c]

/-- A text as a literal term. -/
def quoteLiteral (text : Text) : Text :=
  Text.singleMark :: text.flatMap escapeChar ++ [Text.singleMark]

/-- A term as it is written. -/
def markup (root : Text) : Term → Text
  | literal text => quoteLiteral text
  | path expression => root ++ '.' :: expression

/-- The terms of the parts from the given index on, of as many parts as `count`. Parts with an odd
index are expressions. -/
def ofPartsFrom (count : Nat) : Nat → List Text → List Term
  | _, [] => []
  | index, part :: parts =>
    let rest := ofPartsFrom count (index + 1) parts
    if index % 2 = 1 then path part :: rest
    else if part ≠ [] then literal part :: rest
    else if index = 2 ∧ 3 < count then literal [] :: rest
    else rest

/-- The terms of some parts. -/
def ofParts (parts : List Text) : List Term := ofPartsFrom parts.length 0 parts

/-- The sum of some terms. -/
def sum (root : Text) (terms : List Term) : Text := ['+'].intercalate (terms.map (markup root))

end Term

/-- The two forms of a text that holds binding inserts. -/
structure Synthesis where
  /-- The expression, fit to stand between double marks. -/
  expression : Text
  /-- The text with template inserts in place of binding inserts. -/
  content : Text
deriving DecidableEq, Repr

namespace Synthesis

/-- Rewrites double marks so that the text can stand between double marks. -/
def protectMarks (text : Text) : Text := text.replaceChar Text.doubleMark "&quot;".toList

/-- The parts from the given index on with their expressions as template inserts. -/
def contentFrom (template : Delimiters) : Nat → List Text → Text
  | _, [] => []
  | index, part :: parts =>
    (if index % 2 = 1 then template.wrap part else part) ++ contentFrom template (index + 1) parts

/-- The two forms of the text that has the given parts. -/
def ofParts (template : Delimiters) (root : Text) (parts : List Text) : Synthesis where
  expression := protectMarks (Term.sum root (Term.ofParts parts))
  content := contentFrom template 0 parts

end Synthesis
end MarkupBinding
