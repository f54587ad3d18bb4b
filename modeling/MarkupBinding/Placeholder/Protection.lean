import MarkupBinding.Entries
import MarkupBinding.Insert.Template
import MarkupBinding.Placeholder.Basic

/-!
# Protecting template inserts

Template inserts have to come through a transform character by character. Before markup is parsed
they are swapped for placeholders, which are ordinary text to the parser, and they are swapped back
when the markup is written. The numbers count up, and a number is passed over when its placeholder
already stands in the text, so literal text that only looks like a placeholder stays what it is.
-/

namespace MarkupBinding

/-- The inserts protected so far and the placeholders that stand for them. -/
structure Protection where
  delimiters : Delimiters
  /-- What every placeholder begins with. -/
  stem : Text := "htmlbind_".toList
  /-- The number of the last placeholder. -/
  counter : Nat := 0
  /-- Placeholders with their inserts, in the order in which they were made. -/
  inserts : Entries Text := []
deriving Repr

namespace Protection

/-- Gives each insert the placeholder with the next free number; returns the last number too. -/
def assign (stem : Text) (taken : List Text) : Nat → List (Text × Text) →
    Nat × List (Text × Text × Text)
  | counter, [] => (counter, [])
  | counter, (before, insert) :: pieces =>
    -- Of one more number than there are taken placeholders, at least one is free.
    let n := Placeholder.firstFree stem taken taken.length (counter + 1)
    let (last, assigned) := assign stem taken n pieces
    (last, (before, Placeholder.token stem n, insert) :: assigned)

/-- Swaps the template inserts of a text for placeholders. -/
def protect (p : Protection) (text : Text) : Text × Protection :=
  let cut := TemplateInsert.cut p.delimiters text
  let taken := Placeholder.occurrences p.stem text
  let (counter, assigned) := assign p.stem taken p.counter cut.pieces
  let inserts := p.inserts ++ assigned.map fun (_, token, insert) => (token, insert)
  (assigned.flatMap (fun (before, token, _) => before ++ token) ++ cut.tail,
    { p with counter, inserts })

/-- The placeholders of a text, from left to right without overlap. -/
def placeholders (p : Protection) (text : Text) : Text.Interleaved Text :=
  (Placeholder.recognizer p.stem).cut text

/-- Whether anything has been protected. -/
def isActive (p : Protection) : Bool := !p.inserts.isEmpty

/-- The regular expression for placeholders, once there are any. -/
def pattern? (p : Protection) : Option Text :=
  if p.isActive then some (Pattern.ofPlaceholder p.stem) else none

/-- Whether a text holds a placeholder that stands for an insert. -/
def containsPlaceholder (p : Protection) (text : Text) : Bool :=
  p.isActive && (p.placeholders text).hits.any fun token => (p.inserts.get? token).isSome

/-- Swaps placeholders back. What only looks like one stays as it is. -/
def restore (p : Protection) (text : Text) : Text :=
  if p.isActive then
    (p.placeholders text).render fun token => (p.inserts.get? token).getD token
  else text

end Protection
end MarkupBinding
