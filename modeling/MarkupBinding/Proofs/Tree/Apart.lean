import MarkupBinding.Proofs.Tree.Neighbours

/-!
# Texts apart

A builder merges text with the text before it, so no text in the trees that it builds stands right
behind another, on no level.

* `chained_absorbAll`: whatever tokens a builder takes in, the texts it holds stay apart.
* `apart_parse`: so the texts of a parsed document are apart.
-/

namespace MarkupBinding

namespace Tree

/-- Neighbours that are not both text. -/
def AreApart (before after : Tree) : Prop := ¬ (before.isText = true ∧ after.isText = true)

instance (before after : Tree) : Decidable (AreApart before after) :=
  inferInstanceAs (Decidable (¬ _))

/-- No text stands right behind another. -/
def TextsApart (trees : List Tree) : Prop := trees.IsChain AreApart

instance (trees : List Tree) : Decidable (TextsApart trees) :=
  inferInstanceAs (Decidable (List.IsChain _ _))

theorem ofTexts_areApart : OfTexts AreApart where
  other := by
    rintro before after hafter ⟨_, htext⟩
    rw [hafter] at htext
    cases htext
  text h := h

end Tree

namespace Builder

variable {b : Builder}

theorem chained_insertText (h : b.Chained Tree.AreApart) (content : Text) :
    (b.insertText content).Chained Tree.AreApart := by
  refine h.insertText Tree.ofTexts_areApart content ?_
  rintro last _ hlast _ ⟨htext, _⟩
  rw [hlast] at htext
  cases htext

theorem chained_absorb (h : b.Chained Tree.AreApart) (token : Token) :
    (b.absorb token).Chained Tree.AreApart := by
  by_cases htext : ∃ content, token = .data .text content
  · obtain ⟨content, rfl⟩ := htext
    exact chained_insertText h content
  · exact h.absorb_of_not_text Tree.ofTexts_areApart fun content heq => htext ⟨content, heq⟩

/-- Whatever a builder takes in, its texts stay apart. -/
theorem chained_absorbAll (h : b.Chained Tree.AreApart) (tokens : List Token) :
    (b.absorbAll tokens).Chained Tree.AreApart := by
  induction tokens generalizing b with
  | nil => exact h
  | cons token tokens ih => exact ih (chained_absorb h token)

end Builder

/-- The texts of a parsed document are apart. -/
theorem Tree.apart_parse (text : Text) (collapses sections : Bool) :
    Tree.Chained Tree.AreApart (Tree.parse text collapses sections) :=
  (Builder.chained_absorbAll (Builder.Chained.empty Tree.AreApart collapses) _).trees
    Tree.ofTexts_areApart

end MarkupBinding
