import MarkupBinding.Text.Digit
import MarkupBinding.Text.Recognizer

/-!
# Placeholders

A placeholder is a stem, a number and a low line. The low line keeps a placeholder that is followed
by digits from reading as another one. In text a placeholder is known by its shape: the stem, as
many decimal digits of any script as there are, at least one, and the low line.
-/

namespace MarkupBinding.Placeholder

open Text (isDecimal)

/-- The placeholder with a number. -/
def token (stem : Text) (n : Nat) : Text := stem ++ Text.ofNat n ++ ['_']

/-- Reads a placeholder at the front of a text. -/
def read? (stem text : Text) : Option (Text × Text) :=
  match stem.isPrefixOf? text with
  | none => none
  | some inside =>
    let digits := inside.takeWhile isDecimal
    match inside.dropWhile isDecimal with
    | '_' :: rest => if digits = [] then none else some (stem ++ digits ++ ['_'], rest)
    | _ => none

/-- A placeholder that is read stands at the front of the text and ends in a low line. -/
theorem eq_append_of_read? {stem text found rest : Text}
    (h : read? stem text = some (found, rest)) : text = found ++ rest ∧ found ≠ [] := by
  unfold read? at h
  split at h
  · cases h
  · next inside hstem =>
    simp only at h
    split at h
    · next rest' hdrop =>
      split at h
      · cases h
      · cases h
        refine ⟨?_, by simp⟩
        have hinside : inside.takeWhile isDecimal ++ '_' :: rest = inside := by
          rw [← hdrop, List.takeWhile_append_dropWhile]
        rw [Text.isPrefixOf?_eq_some_iff.1 hstem]
        generalize inside.takeWhile isDecimal = digits at hinside
        simp [← hinside]
    · cases h

/-- A placeholder is followed by a shorter text. -/
theorem length_lt_of_read? {stem text found rest : Text}
    (h : read? stem text = some (found, rest)) : rest.length < text.length := by
  obtain ⟨htext, hne⟩ := eq_append_of_read? h
  have hpos := List.length_pos_iff.2 hne
  rw [htext, List.length_append]
  omega

/-- Recognizes placeholders. -/
def recognizer (stem : Text) : Text.Recognizer Text where
  read := read? stem
  shorter := length_lt_of_read?

/-- The placeholders of a text, overlapping ones included. -/
def occurrences (stem : Text) : Text → List Text
  | [] => []
  | c :: text =>
    match read? stem (c :: text) with
    | some (found, _) => found :: occurrences stem text
    | none => occurrences stem text

/-- The first number from `n` on whose placeholder is not taken, or the number behind as many as
`tries` that are. -/
def firstFree (stem : Text) (taken : List Text) : Nat → Nat → Nat
  | 0, n => n
  | tries + 1, n => if taken.contains (token stem n) then firstFree stem taken tries (n + 1) else n

end MarkupBinding.Placeholder
