import Mathlib
import MarkupBinding.Element
import MarkupBinding.Proofs.Text.Lowercase
import MarkupBinding.Text.Blank

/-!
# The weight of text

A measure of text for which the tags of the wrapper element weigh next to nothing. Their characters
count one and all others fourteen, one more than both tags together. So whatever brings text down by
a character that is in neither tag makes up for a pair of them.

* `weight_collapse_le`: collapsed blanks do not add weight.
* `fourteen_le_weight_of_isRawText`: the name of a raw text element has a heavy character.
-/

namespace MarkupBinding.Text

/-- The characters of the wrapper's two tags. -/
def lightLetters : Text := "</span>".toList

/-- The weight of a character. -/
def letterWeight (c : Char) : Nat := if c ∈ lightLetters then 1 else 14

/-- The weight of a text. -/
def weight (text : Text) : Nat := (text.map letterWeight).sum

theorem letterWeight_bracket : letterWeight '<' = 1 := by decide

theorem letterWeight_slash : letterWeight '/' = 1 := by decide

theorem one_le_letterWeight (c : Char) : 1 ≤ letterWeight c := by
  unfold letterWeight
  split <;> omega

theorem letterWeight_le (c : Char) : letterWeight c ≤ 14 := by
  unfold letterWeight
  split <;> omega

@[simp] theorem weight_nil : weight [] = 0 := rfl

@[simp] theorem weight_cons (c : Char) (text : Text) :
    weight (c :: text) = letterWeight c + weight text :=
  rfl

@[simp] theorem weight_append (first second : Text) :
    weight (first ++ second) = weight first + weight second := by
  unfold weight
  rw [List.map_append, List.sum_append]

theorem length_le_weight (text : Text) : text.length ≤ weight text := by
  induction text with
  | nil => exact Nat.le_refl 0
  | cons c text ih =>
    have hc := one_le_letterWeight c
    rw [List.length_cons, weight_cons]
    omega

theorem weight_le (text : Text) : weight text ≤ 14 * text.length := by
  induction text with
  | nil => exact Nat.le_refl 0
  | cons c text ih =>
    have hc := letterWeight_le c
    rw [List.length_cons, weight_cons]
    omega

/-- Only the empty text weighs nothing. -/
theorem weight_pos {text : Text} (h : text ≠ []) : 0 < weight text :=
  Nat.lt_of_lt_of_le (List.length_pos_iff.2 h) (length_le_weight text)

theorem weight_le_of_suffix {first second : Text} (h : first <:+ second) :
    weight first ≤ weight second := by
  obtain ⟨front, rfl⟩ := h
  rw [weight_append]
  omega

theorem weight_collapseAfter_le (text : Text) :
    ∀ after : Bool, weight (collapseAfter after text) ≤ weight text := by
  induction text with
  | nil => exact fun _ => Nat.le_refl 0
  | cons c text ih =>
    intro after
    rw [collapseAfter, weight_cons]
    split
    · next hblank =>
      -- A blank is as heavy as a character can be, a space included.
      have hheavy : letterWeight c = 14 := by
        unfold letterWeight
        refine if_neg fun hlight => ?_
        have hnone : lightLetters.any isBlank = false := by decide
        rw [List.any_eq_false] at hnone
        exact hnone c hlight hblank
      have hspace := letterWeight_le ' '
      have hrest := ih true
      split
      · omega
      · rw [weight_cons]
        omega
    · have hrest := ih false
      rw [weight_cons]
      omega

/-- Collapsed blanks do not add weight. -/
theorem weight_collapse_le (text : Text) : weight text.collapse ≤ weight text :=
  weight_collapseAfter_le text false

/-- A text with a heavy character is at least as heavy. -/
theorem fourteen_le_weight {text : Text} (h : ∃ c ∈ text, c ∉ lightLetters) :
    14 ≤ weight text := by
  obtain ⟨c, hc, hheavy⟩ := h
  obtain ⟨before, after, rfl⟩ := List.append_of_mem hc
  rw [weight_append, weight_cons, letterWeight, if_neg hheavy]
  omega

/-- The characters of the wrapper's tags do not spell the name of a raw text element. -/
theorem fourteen_le_weight_of_isRawText {name : Text} (h : Element.isRawText name = true) :
    14 ≤ weight name := by
  refine fourteen_le_weight ?_
  refine Decidable.byContradiction fun hlight => ?_
  have hall : ∀ c ∈ name, c ∈ lightLetters :=
    fun c hc => Decidable.byContradiction fun hheavy => hlight ⟨c, hc, hheavy⟩
  -- All of them are their own small letters, so the name is one of the table as it stands.
  have hsmall : lightLetters.all (fun c => decide (IsSmall c)) = true := by decide
  have hraw : name.lowercase ∈ Element.rawTextNames := List.contains_iff_mem.1 h
  rw [lowercase_eq_self fun c hc => of_decide_eq_true (List.all_eq_true.1 hsmall c (hall c hc))]
    at hraw
  have hnone : Element.rawTextNames.all (fun raw => raw.any (· ∉ lightLetters)) = true := by decide
  obtain ⟨c, hc, hheavy⟩ := List.any_eq_true.1 (List.all_eq_true.1 hnone name hraw)
  exact of_decide_eq_true hheavy (hall c hc)

end MarkupBinding.Text
