import Mathlib.Data.List.DropRight
import Mathlib.Data.List.TakeWhile
import MarkupBinding.Text.Blank

/-!
# Trimmed texts

A text that neither begins nor ends with a blank is what trimming leaves of it. Texts that are
trimmed stay so when they are joined.

* `trim_eq_nil_or_trimmed`: what trimming leaves.
* `Trimmed.trim_eq`: a trimmed text stays as it is.
* `Trimmed.intercalate`: trimmed texts with something between them.
-/

namespace MarkupBinding.Text

variable {text other : Text}

/-- The last character is there and is no blank. -/
def EndsSolid (text : Text) : Prop := ∃ c ∈ text.getLast?, isBlank c = false

/-- Neither end is blank, and there are ends. -/
structure Trimmed (text : Text) : Prop where
  starts : ∃ c ∈ text.head?, isBlank c = false
  ends : text.EndsSolid

theorem EndsSolid.ne_nil (h : text.EndsSolid) : text ≠ [] := by
  rintro rfl
  obtain ⟨_, hlast, _⟩ := h
  cases hlast

theorem EndsSolid.append (h : text.EndsSolid) (front : Text) : (front ++ text).EndsSolid := by
  obtain ⟨c, hlast, hsolid⟩ := h
  exact ⟨c, by rw [List.getLast?_append, Option.mem_def.1 hlast]; rfl, hsolid⟩

theorem EndsSolid.cons (h : text.EndsSolid) (c : Char) : EndsSolid (c :: text) := h.append [c]

theorem endsSolid_singleton {c : Char} (h : isBlank c = false) : EndsSolid [c] := ⟨c, rfl, h⟩

theorem Trimmed.ne_nil (h : text.Trimmed) : text ≠ [] := h.ends.ne_nil

/-- Whatever stands between two texts, their outer ends are the ends. -/
theorem Trimmed.append (h : text.Trimmed) (hother : other.EndsSolid) :
    Trimmed (text ++ other) := by
  obtain ⟨c, hhead, hsolid⟩ := h.starts
  exact ⟨⟨c, by rw [List.head?_append, Option.mem_def.1 hhead]; rfl, hsolid⟩, hother.append text⟩

/-- Trimming takes characters away and adds none. -/
theorem trim_subset (text : Text) : trim text ⊆ text := by
  intro c hc
  have hback := (List.dropWhile_sublist isBlank).subset (List.mem_reverse.1 hc)
  exact (List.dropWhile_sublist isBlank).subset (List.mem_reverse.1 hback)

/-- A trimmed text stays as it is. -/
theorem Trimmed.trim_eq (h : text.Trimmed) : trim text = text := by
  obtain ⟨c, hhead, hfirst⟩ := h.starts
  obtain ⟨d, hlast, hend⟩ := h.ends
  obtain ⟨rest, rfl⟩ := List.head?_eq_some_iff.1 hhead
  have hfront : (c :: rest).dropWhile isBlank = c :: rest :=
    List.dropWhile_cons_of_neg (by simp [hfirst])
  obtain ⟨front, hsplit⟩ := List.getLast?_eq_some_iff.1 hlast
  unfold trim
  rw [hfront, hsplit, List.reverse_append]
  show (List.dropWhile isBlank (d :: front.reverse)).reverse = _
  rw [List.dropWhile_cons_of_neg (by simp [hend])]
  simp

/-- Trimming leaves nothing, or a text without blanks at its ends. -/
theorem trim_eq_nil_or_trimmed (text : Text) : trim text = [] ∨ (trim text).Trimmed := by
  have hsame : trim text = (text.dropWhile isBlank).rdropWhile isBlank := rfl
  rw [hsame]
  by_cases hnil : (text.dropWhile isBlank).rdropWhile isBlank = []
  · exact .inl hnil
  · refine .inr ⟨?_, _, List.getLast?_eq_some_getLast hnil, ?_⟩
    · -- What is cut off at the end leaves the first character alone.
      obtain ⟨behind, hstarts⟩ := List.rdropWhile_prefix isBlank (text.dropWhile isBlank)
      have hfirst := List.head?_dropWhile_not isBlank text
      obtain ⟨c, rest, hcons⟩ := List.exists_cons_of_ne_nil hnil
      rw [← hstarts, hcons] at hfirst
      rw [hcons]
      exact ⟨c, rfl, hfirst⟩
    · exact Bool.eq_false_iff.2 (List.rdropWhile_last_not isBlank _ hnil)

/-- A list of texts ends as the last of them does. -/
theorem endsSolid_intercalate {between : Text} {texts : List Text} (hne : texts ≠ [])
    (h : ∀ text ∈ texts, text.EndsSolid) : EndsSolid (between.intercalate texts) := by
  induction texts with
  | nil => exact absurd rfl hne
  | cons first others ih =>
    cases others with
    | nil =>
      rw [List.intercalate_singleton]
      exact h first List.mem_cons_self
    | cons second others =>
      rw [List.intercalate_cons_cons]
      exact (ih (List.cons_ne_nil _ _) fun text htext => h text (List.mem_cons_of_mem _ htext)).append _

/-- A character that is in no text and not between them is not in the whole. -/
theorem notMem_intercalate {c : Char} {between : Text} {texts : List Text} (hbetween : c ∉ between)
    (h : ∀ text ∈ texts, c ∉ text) : c ∉ between.intercalate texts := by
  induction texts with
  | nil => exact List.not_mem_nil
  | cons first others ih =>
    obtain ⟨hfirst, hothers⟩ := List.forall_mem_cons.1 h
    cases others with
    | nil =>
      rw [List.intercalate_singleton]
      exact hfirst
    | cons second others =>
      rw [List.intercalate_cons_cons]
      simp [hfirst, hbetween, ih hothers]

/-- A character of one of the texts is in the whole. -/
theorem mem_intercalate {c : Char} {between text : Text} {texts : List Text} (htext : text ∈ texts)
    (h : c ∈ text) : c ∈ between.intercalate texts := by
  induction texts with
  | nil => cases htext
  | cons first others ih =>
    cases others with
    | nil =>
      rw [List.intercalate_singleton, ← List.mem_singleton.1 htext]
      exact h
    | cons second others =>
      rw [List.intercalate_cons_cons]
      rcases List.mem_cons.1 htext with rfl | htext
      · simp [h]
      · simp [ih htext]

/-- Trimmed texts with something between them. -/
theorem trimmed_intercalate {between : Text} {texts : List Text} (hne : texts ≠ [])
    (h : ∀ text ∈ texts, text.Trimmed) : Trimmed (between.intercalate texts) := by
  obtain ⟨first, others, rfl⟩ := List.exists_cons_of_ne_nil hne
  cases others with
  | nil =>
    rw [List.intercalate_singleton]
    exact h first List.mem_cons_self
  | cons second others =>
    rw [List.intercalate_cons_cons, List.append_assoc]
    refine (h first List.mem_cons_self).append (.append (endsSolid_intercalate ?_ ?_) between)
    · exact List.cons_ne_nil _ _
    · exact fun text htext => (h text (List.mem_cons_of_mem _ htext)).ends

/-- One more text at the end. -/
theorem intercalate_concat {between last : Text} {texts : List Text} (hne : texts ≠ []) :
    between.intercalate (texts ++ [last]) = between.intercalate texts ++ between ++ last := by
  induction texts with
  | nil => exact absurd rfl hne
  | cons first others ih =>
    cases others with
    | nil => simp
    | cons second others =>
      have hlater := ih (List.cons_ne_nil _ _)
      rw [List.cons_append, List.cons_append, List.intercalate_cons_cons, ← List.cons_append, hlater,
        List.intercalate_cons_cons]
      simp

end MarkupBinding.Text
