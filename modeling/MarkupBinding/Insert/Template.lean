import MarkupBinding.Insert.Basic

/-!
# Template inserts

A template insert reaches from an opening delimiter to the first closing delimiter behind it,
whatever stands between the two, line breaks included. Either delimiter may be empty. Where both
are, there is an empty insert at every position, and every character is an insert by itself.
-/

namespace MarkupBinding.TemplateInsert

/-- Reads a template insert at the front of a text. The empty pair of delimiters reads nothing. -/
def read? (d : Delimiters) (text : Text) : Option (Text × Text) :=
  if d.opening = [] ∧ d.closing = [] then none
  else
    match d.opening.isPrefixOf? text with
    | none => none
    | some inside => (Text.cut? d.closing inside).map fun (body, rest) => (d.wrap body, rest)

theorem eq_append_of_read? {d : Delimiters} {text insert rest : Text}
    (h : read? d text = some (insert, rest)) : text = insert ++ rest := by
  unfold read? at h
  split at h
  · cases h
  · split at h
    · cases h
    · next inside hopen =>
      obtain ⟨⟨body, rest'⟩, hcut, heq⟩ := Option.map_eq_some_iff.1 h
      cases heq
      rw [Text.isPrefixOf?_eq_some_iff.1 hopen, Text.eq_append_of_cut? hcut]
      simp [Delimiters.wrap, List.append_assoc]

theorem ne_nil_of_read? {d : Delimiters} {text insert rest : Text}
    (h : read? d text = some (insert, rest)) : insert ≠ [] := by
  unfold read? at h
  split at h
  · cases h
  · next hne =>
    split at h
    · cases h
    · obtain ⟨⟨body, rest'⟩, _, heq⟩ := Option.map_eq_some_iff.1 h
      cases heq
      intro hnil
      simp only [Delimiters.wrap, List.append_eq_nil_iff] at hnil
      exact hne ⟨hnil.1.1, hnil.2⟩

/-- An insert is followed by a shorter text. -/
theorem length_lt_of_read? {d : Delimiters} {text insert rest : Text}
    (h : read? d text = some (insert, rest)) : rest.length < text.length := by
  have hpos := List.length_pos_iff.2 (ne_nil_of_read? h)
  rw [eq_append_of_read? h, List.length_append]
  omega

/-- Recognizes template inserts that are not empty. -/
def recognizer (d : Delimiters) : Text.Recognizer Text where
  read := read? d
  shorter := length_lt_of_read?

/-- The inserts of the empty pair of delimiters. -/
def everywhere : Text → List (Text × Text)
  | [] => [([], [])]
  | c :: text => ([], []) :: ([], [c]) :: everywhere text

/-- Cuts a text at its template inserts. -/
def cut (d : Delimiters) (text : Text) : Text.Interleaved Text :=
  if d.opening = [] ∧ d.closing = [] then ⟨everywhere text, []⟩ else (recognizer d).cut text

end MarkupBinding.TemplateInsert
