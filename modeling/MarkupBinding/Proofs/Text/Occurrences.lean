import MarkupBinding.Proofs.Placeholder.Restore

/-!
# Places at which a word stands

A word stands in two texts together at least as often as in each of them by itself. It stands there more
often only if it lies across the seam between them, and no word does that where the seam is at a
character that the word does not have.

* `timesIn_add_le`: two texts by themselves.
* `timesIn_append_le`: two texts together.
* `timesIn_separated_le`: two texts with a character between them.
-/

namespace MarkupBinding.Text

/-- A word begins on one side of a seam and ends on the other. -/
def Crosses (word left right : Text) : Prop :=
  ∃ i < word.length, 0 < i ∧ word.take i <:+ left ∧ word.drop i <+: right

instance (word left right : Text) : Decidable (Crosses word left right) :=
  inferInstanceAs (Decidable (∃ i < word.length, 0 < i ∧ word.take i <:+ left ∧ word.drop i <+: right))

variable {word left right : Text} {c : Char}

/-- No word without a character lies across a seam right behind it. -/
theorem not_crosses_of_left (h : c ∉ word) : ¬ Crosses word (left ++ [c]) right := by
  rintro ⟨i, hi, hpos, hleft, _⟩
  have hne : word.take i ≠ [] := by
    intro hnil
    have hlength := congrArg List.length hnil
    rw [List.length_take, List.length_nil] at hlength
    omega
  have hlast : (word.take i).getLast hne = c := by
    obtain ⟨front, hfront⟩ := hleft
    have hsame := congrArg List.getLast? hfront
    rw [List.getLast?_append_of_ne_nil _ hne, List.getLast?_eq_some_getLast hne,
      List.getLast?_concat] at hsame
    exact Option.some.inj hsame
  exact h (List.take_subset i word (hlast ▸ List.getLast_mem hne))

/-- Nor right before it. -/
theorem not_crosses_of_right (h : c ∉ word) : ¬ Crosses word left (c :: right) := by
  rintro ⟨i, hi, hpos, _, hright⟩
  cases hdrop : word.drop i with
  | nil =>
    have hlength := congrArg List.length hdrop
    rw [List.length_drop, List.length_nil] at hlength
    omega
  | cons first rest =>
    rw [hdrop] at hright
    obtain ⟨rfl, _⟩ := List.cons_prefix_cons.1 hright
    exact h (List.drop_subset i word (hdrop ▸ List.mem_cons_self))

/-- Nothing lies across the end of a text. -/
theorem not_crosses_nil : ¬ Crosses word left [] := by
  rintro ⟨i, hi, _, _, hright⟩
  have hlength := congrArg List.length (List.prefix_nil.1 hright)
  rw [List.length_drop, List.length_nil] at hlength
  omega

/-- A word that lies across a seam does so whatever stands before it. -/
theorem Crosses.cons (h : Crosses word left right) (c : Char) : Crosses word (c :: left) right := by
  obtain ⟨i, hi, hpos, hleft, hright⟩ := h
  exact ⟨i, hi, hpos, hleft.trans (List.suffix_cons c left), hright⟩

/-- A word at the front of two texts is at the front of the first or lies across the seam. -/
theorem prefix_or_crosses (hleft : left ≠ []) (h : word <+: left ++ right) :
    word <+: left ∨ Crosses word left right := by
  obtain ⟨behind, heq⟩ := h
  rcases List.append_eq_append_iff.1 heq with ⟨more, hmore, _⟩ | ⟨more, hmore, hbehind⟩
  · exact .inl ⟨more, hmore.symm⟩
  · by_cases hnil : more = []
    · refine .inl ⟨[], ?_⟩
      rw [hmore, hnil, List.append_nil, List.append_nil]
    · refine .inr ⟨left.length, ?_, List.length_pos_iff.2 hleft, ?_, ?_⟩
      · have hpos := List.length_pos_iff.2 hnil
        rw [hmore, List.length_append]
        omega
      · rw [hmore, List.take_left]
      · rw [hmore, List.drop_left]
        exact ⟨behind, hbehind.symm⟩

section

variable (hword : word ≠ [])
include hword

theorem timesIn_nil : timesIn word [] = 0 :=
  Placeholder.timesIn_eq_zero fun h => hword (List.infix_nil.1 h)

/-- In two texts together a word stands at least as often as in each of them by itself. -/
theorem timesIn_add_le (left right : Text) :
    timesIn word left + timesIn word right ≤ timesIn word (left ++ right) := by
  induction left with
  | nil => rw [timesIn_nil hword, Nat.zero_add, List.nil_append]
  | cons c left ih =>
    rw [List.cons_append, Placeholder.timesIn_cons, Placeholder.timesIn_cons]
    by_cases hfront : word.isPrefixOf (c :: left) = true
    · have hboth : word.isPrefixOf (c :: (left ++ right)) = true := by
        rw [List.isPrefixOf_iff_prefix] at hfront ⊢
        exact hfront.trans (List.prefix_append (c :: left) right)
      rw [if_pos hfront, if_pos hboth]
      omega
    · rw [if_neg hfront]
      omega

/-- It does not stand there more often if it does not lie across the seam. -/
theorem timesIn_append_le (h : ¬ Crosses word left right) :
    timesIn word (left ++ right) ≤ timesIn word left + timesIn word right := by
  induction left with
  | nil => rw [timesIn_nil hword, Nat.zero_add, List.nil_append]
  | cons c left ih =>
    have ih := ih fun hcrosses => h (hcrosses.cons c)
    rw [List.cons_append, Placeholder.timesIn_cons, Placeholder.timesIn_cons]
    by_cases hboth : word.isPrefixOf (c :: (left ++ right)) = true
    · have hfront : word.isPrefixOf (c :: left) = true := by
        rw [List.isPrefixOf_iff_prefix] at hboth ⊢
        exact (prefix_or_crosses (List.cons_ne_nil c left) hboth).resolve_right h
      rw [if_pos hfront, if_pos hboth]
      omega
    · rw [if_neg hboth]
      omega

theorem timesIn_cons_of_notMem (hc : c ∉ word) (text : Text) :
    timesIn word (c :: text) = timesIn word text := by
  have hnot : ¬ word.isPrefixOf (c :: text) = true := by
    rw [List.isPrefixOf_iff_prefix]
    obtain ⟨first, rest, rfl⟩ := List.exists_cons_of_ne_nil hword
    intro hfront
    exact hc ((List.cons_prefix_cons.1 hfront).1 ▸ List.mem_cons_self)
  rw [Placeholder.timesIn_cons, if_neg hnot, Nat.add_zero]

/-- With a character between them that the word does not have, two texts are apart. -/
theorem timesIn_separated_le (hc : c ∉ word) (left right : Text) :
    timesIn word (left ++ c :: right) ≤ timesIn word left + timesIn word right := by
  have happend := timesIn_append_le hword (@not_crosses_of_right word left right c hc)
  rwa [timesIn_cons_of_notMem hword hc] at happend

/-- Signs that the word does not have count for nothing before a text. -/
theorem timesIn_append_of_notMem {front : Text} (hfront : ∀ c ∈ front, c ∉ word) (text : Text) :
    timesIn word (front ++ text) = timesIn word text := by
  induction front with
  | nil => rfl
  | cons c front ih =>
    obtain ⟨hc, hfront⟩ := List.forall_mem_cons.1 hfront
    rw [List.cons_append, timesIn_cons_of_notMem hword hc, ih hfront]

/-- Nor do they behind it. -/
theorem timesIn_append_le_of_notMem {back : Text} (hback : ∀ c ∈ back, c ∉ word) (text : Text) :
    timesIn word (text ++ back) ≤ timesIn word text := by
  cases back with
  | nil => rw [List.append_nil]
  | cons c back =>
    obtain ⟨hc, hback⟩ := List.forall_mem_cons.1 hback
    have hnone := timesIn_append_of_notMem hword hback []
    have hsplit := timesIn_separated_le hword hc text back
    rw [List.append_nil, timesIn_nil hword] at hnone
    omega

/-- With such signs between them two texts are apart. -/
theorem timesIn_apart_le {signs : Text} (hne : signs ≠ []) (hsigns : ∀ c ∈ signs, c ∉ word)
    (left right : Text) :
    timesIn word (left ++ signs ++ right) ≤ timesIn word left + timesIn word right := by
  obtain ⟨c, signs, rfl⟩ := List.exists_cons_of_ne_nil hne
  obtain ⟨hc, hsigns⟩ := List.forall_mem_cons.1 hsigns
  have hseparated := timesIn_separated_le hword hc left (signs ++ right)
  rw [timesIn_append_of_notMem hword hsigns] at hseparated
  rw [List.append_assoc, List.cons_append]
  exact hseparated

theorem timesIn_self_pos : 0 < timesIn word word := by
  obtain ⟨c, rest, rfl⟩ := List.exists_cons_of_ne_nil hword
  have hself : (c :: rest).isPrefixOf (c :: rest) = true := List.isPrefixOf_iff_prefix.2 List.prefix_rfl
  rw [Placeholder.timesIn_cons, if_pos hself]
  exact Nat.succ_pos _

/-- In a part of a text a word stands at most as often as in the text. -/
theorem timesIn_le_of_within (h : left <:+: right) : timesIn word left ≤ timesIn word right := by
  obtain ⟨front, back, rfl⟩ := h
  have hfront := timesIn_add_le hword (front ++ left) back
  have hback := timesIn_add_le hword front left
  omega

end

end MarkupBinding.Text
