import MarkupBinding.Insert.Binding
import MarkupBinding.Proofs.Text.Cut

/-!
# Searching for inserts

A search finds the first place at which the recognizer succeeds. What stands before that place, the
insert as it was written and what stands behind it are the searched text again.

* `eq_append_of_find?`: a text is its first binding insert with what is around it.
* `one_lt_length_split`: a text with a binding insert falls into parts.
-/

namespace MarkupBinding

namespace BindingInsert

variable {d : Delimiters} {text : Text} {found : Text.Found BindingInsert}

theorem eq_append_of_find? (h : find? d text = some found) :
    text = found.before ++ (found.hit.markup d ++ found.after) := by
  obtain ⟨inside, htext, hread⟩ := Text.Recognizer.read_of_find? h
  rw [htext, eq_append_of_read? hread]

/-- An insert holds at least the first character of its expression. -/
theorem markup_ne_nil_of_find? (h : find? d text = some found) : found.hit.markup d ≠ [] := by
  obtain ⟨inside, _, hread⟩ := Text.Recognizer.read_of_find? h
  have hne := expression_ne_nil_of_read? hread
  intro hnil
  simp only [markup, Delimiters.wrap, List.append_eq_nil_iff] at hnil
  exact hne hnil.1.2.1.2

/-- In a text that lacks a character of the opening delimiter there is no insert. -/
theorem find?_eq_none_of_notMem {c : Char} (hc : c ∈ d.opening) (h : c ∉ text) :
    find? d text = none := by
  cases hfound : find? d text with
  | none => rfl
  | some found =>
    refine absurd ?_ h
    rw [eq_append_of_find? hfound, markup, Delimiters.wrap]
    simp [hc]

/-- A text without binding inserts is one part. -/
theorem split_of_find?_eq_none (h : find? d text = none) : split d text = [text] := by
  unfold split
  rw [Text.Recognizer.cut_of_find?_eq_none h]
  rfl

/-- A binding insert cuts a text into three parts at least. -/
theorem one_lt_length_split (h : find? d text = some found) : 1 < (split d text).length := by
  unfold split
  rw [Text.Recognizer.cut_of_find? h]
  simp [Text.Interleaved.parts]

end BindingInsert
end MarkupBinding
