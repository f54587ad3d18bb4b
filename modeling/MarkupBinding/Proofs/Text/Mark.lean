import Mathlib.Data.List.Infix
import MarkupBinding.Text.Basic

/-!
# Cutting a text at a mark

A text is cut at the first place where a mark stands in it.

* `exists_cut?`: a mark that stands in a text is found.
* `cut?_of_cut?`: what stands behind the mark does not matter.
* `not_infix_of_cut?`: the mark does not stand before the cut.
-/

namespace MarkupBinding.Text

variable {mark text before after : Text}

theorem cut?_cons_of_not_front {c : Char} (h : ¬ mark <+: c :: text) :
    cut? mark (c :: text) = (cut? mark text).map fun (before, after) => (c :: before, after) := by
  rw [cut?]
  split
  · next hstarts => exact absurd ⟨_, (isPrefixOf?_eq_some_iff.1 hstarts).symm⟩ h
  · rfl

/-- A mark that stands in a text is found. -/
theorem exists_cut? (h : mark <:+: text) : ∃ before after, cut? mark text = some (before, after) := by
  induction text with
  | nil =>
    obtain rfl := List.infix_nil.1 h
    exact ⟨[], [], rfl⟩
  | cons c text ih =>
    by_cases hstarts : mark <+: c :: text
    · obtain ⟨rest, hrest⟩ := hstarts
      refine ⟨[], rest, ?_⟩
      rw [cut?, isPrefixOf?_eq_some_iff.2 hrest.symm]
    · obtain ⟨before, after, hcut⟩ := ih ((List.infix_cons_iff.1 h).resolve_left hstarts)
      exact ⟨c :: before, after, by rw [cut?_cons_of_not_front hstarts, hcut]; rfl⟩

/-- What stands behind the first mark does not matter for the cut. -/
theorem cut?_of_cut? (h : cut? mark (before ++ mark ++ after) = some (before, after))
    (after' : Text) : cut? mark (before ++ mark ++ after') = some (before, after') := by
  have hhere : ∀ rest, cut? mark (mark ++ rest) = some ([], rest) := by
    intro rest
    rw [cut?.eq_def, isPrefixOf?_eq_some_iff.2 rfl]
  induction before with
  | nil => exact hhere after'
  | cons c before ih =>
    have hnot : ¬ mark <+: c :: (before ++ mark ++ after) := by
      rintro ⟨rest, hrest⟩
      have hcut := hhere rest
      rw [hrest] at hcut
      exact absurd (h.symm.trans hcut) (by simp)
    have hnot' : ¬ mark <+: c :: (before ++ mark ++ after') := by
      intro hstarts
      -- The mark would end before what stands behind the cut.
      have hfront : mark <+: c :: (before ++ mark) :=
        List.prefix_of_prefix_length_le hstarts ⟨after', by simp⟩ (by simp; omega)
      exact hnot (hfront.trans ⟨after, by simp⟩)
    have hlater := cut?_cons_of_not_front hnot
    rw [← List.cons_append, ← List.cons_append, h] at hlater
    obtain ⟨⟨before', rest'⟩, hcut, heq⟩ := Option.map_eq_some_iff.1 hlater.symm
    obtain ⟨hbefore, hafter⟩ := Prod.mk.inj heq
    obtain rfl := (List.cons.inj hbefore).2
    obtain rfl : rest' = after := hafter
    have hcut' := cut?_cons_of_not_front hnot'
    rw [ih hcut] at hcut'
    exact hcut'

/-- The mark does not stand before the place where the text is cut. -/
theorem not_infix_of_cut? (hmark : mark ≠ []) (h : cut? mark text = some (before, after)) :
    ¬ mark <:+: before := by
  intro hin
  obtain ⟨before', after', hcut⟩ := exists_cut? hin
  have hbefore := eq_append_of_cut? hcut
  rw [hbefore] at hcut
  have hearlier := cut?_of_cut? hcut (after' ++ mark ++ after)
  have htext : text = before' ++ mark ++ (after' ++ mark ++ after) := by
    rw [eq_append_of_cut? h, hbefore]
    simp only [List.append_assoc]
  rw [← htext, h] at hearlier
  have hsame : before = before' := congrArg Prod.fst (Option.some.inj hearlier)
  have hlength := congrArg List.length hbefore
  rw [← hsame, List.length_append, List.length_append] at hlength
  have hpos := List.length_pos_iff.2 hmark
  omega

/-- No mark is found only where none stands. -/
theorem not_infix_of_cut?_eq_none (h : cut? mark text = none) : ¬ mark <:+: text := by
  intro hin
  obtain ⟨before, after, hcut⟩ := exists_cut? hin
  rw [h] at hcut
  cases hcut

end MarkupBinding.Text
