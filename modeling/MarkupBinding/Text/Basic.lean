/-!
# Text

Documents, names and attribute values are lists of characters. This file fixes the type, the cut of
a text at a mark, and the replacement of single characters by runs.
-/

namespace MarkupBinding

/-- A run of characters. -/
abbrev Text := List Char

namespace Text

/-- The parts of a text before and after the first occurrence of `mark`; `none` if it has none. -/
def cut? (mark text : Text) : Option (Text × Text) :=
  match mark.isPrefixOf? text with
  | some rest => some ([], rest)
  | none =>
    match text with
    | [] => none
    | c :: text => (cut? mark text).map fun (before, after) => (c :: before, after)

theorem isPrefixOf?_eq_some_iff {mark text rest : Text} :
    mark.isPrefixOf? text = some rest ↔ text = mark ++ rest := by
  induction mark generalizing text with
  | nil =>
    show some text = some rest ↔ text = rest
    exact Option.some_inj
  | cons m mark ih =>
    cases text with
    | nil =>
      show none = some rest ↔ [] = m :: (mark ++ rest)
      simp
    | cons c text =>
      show (if m == c then mark.isPrefixOf? text else none) = some rest ↔
        c :: text = m :: (mark ++ rest)
      by_cases h : m = c
      · simp [h, ih]
      · simp [h, Ne.symm h]

/-- The parts and the mark make up the text. -/
theorem eq_append_of_cut? {mark text before after : Text}
    (h : cut? mark text = some (before, after)) : text = before ++ mark ++ after := by
  induction text generalizing before with
  | nil =>
    unfold cut? at h
    split at h
    · next rest hrest =>
      cases h
      exact isPrefixOf?_eq_some_iff.1 hrest
    · cases h
  | cons c text ih =>
    unfold cut? at h
    split at h
    · next rest hrest =>
      cases h
      exact isPrefixOf?_eq_some_iff.1 hrest
    · obtain ⟨⟨before', after'⟩, hcut, heq⟩ := Option.map_eq_some_iff.1 h
      cases heq
      rw [ih hcut]
      rfl

/-- Rewrites each `old` as the run `new`. -/
def replaceChar (text : Text) (old : Char) (new : Text) : Text :=
  text.flatMap fun c => if c = old then new else [c]

/-- The decimal digits of a number. -/
def ofNat (n : Nat) : Text := (toString n).toList

end Text
end MarkupBinding
