import MarkupBinding.Text.Basic

/-!
# Recognizers

A recognizer reads one thing at the front of a text. From it follow the search for the first place
where it succeeds, and the cut of a whole text into the things it finds, from left to right without
overlap, and the literal text around them.

* `Recognizer.find?_after_length_lt`: a search leaves a shorter text behind what it finds, so the
  cut ends.
-/

namespace MarkupBinding.Text

/-- Reads something at the front of a text and returns it with the text behind it. Something is
always longer than nothing. -/
structure Recognizer (α : Type) where
  read : Text → Option (α × Text)
  shorter : ∀ {text found rest}, read text = some (found, rest) → rest.length < text.length

/-- The first thing found in a text, and the text on its two sides. -/
structure Found (α : Type) where
  before : Text
  hit : α
  after : Text

/-- A text cut at the things found in it: each with the literal text before it, and what is left. -/
structure Interleaved (α : Type) where
  pieces : List (Text × α)
  tail : Text

namespace Interleaved

variable {α : Type}

/-- The things found, from left to right. -/
def hits (cut : Interleaved α) : List α := cut.pieces.map (·.2)

/-- Puts the text together again, each thing written as `write` says. -/
def render (write : α → Text) (cut : Interleaved α) : Text :=
  cut.pieces.flatMap (fun (before, hit) => before ++ write hit) ++ cut.tail

/-- Literal text and the written things in turn. Both ends are literal, and may be empty. -/
def parts (write : α → Text) (cut : Interleaved α) : List Text :=
  cut.pieces.flatMap (fun (before, hit) => [before, write hit]) ++ [cut.tail]

end Interleaved

namespace Recognizer

variable {α : Type}

/-- The first place at which the recognizer succeeds. -/
def find? (r : Recognizer α) (text : Text) : Option (Found α) :=
  match r.read text with
  | some (hit, after) => some ⟨[], hit, after⟩
  | none =>
    match text with
    | [] => none
    | c :: text => (r.find? text).map fun found => { found with before := c :: found.before }

/-- A search leaves a shorter text behind what it finds. -/
theorem find?_after_length_lt {r : Recognizer α} {text : Text} {found : Found α}
    (h : r.find? text = some found) : found.after.length < text.length := by
  induction text generalizing found with
  | nil =>
    unfold find? at h
    split at h
    · next hread => cases h; exact r.shorter hread
    · cases h
  | cons c text ih =>
    unfold find? at h
    split at h
    · next hread => cases h; exact r.shorter hread
    · obtain ⟨found', hfound, rfl⟩ := Option.map_eq_some_iff.1 h
      exact Nat.lt_succ_of_lt (@ih found' hfound)

/-- Cuts a text at all the things in it. -/
def cut (r : Recognizer α) (text : Text) : Interleaved α :=
  match _h : r.find? text with
  | none => ⟨[], text⟩
  | some found =>
    let rest := r.cut found.after
    ⟨(found.before, found.hit) :: rest.pieces, rest.tail⟩
termination_by text.length
decreasing_by exact find?_after_length_lt _h

end Recognizer
end MarkupBinding.Text
