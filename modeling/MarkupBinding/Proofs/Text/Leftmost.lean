import MarkupBinding.Proofs.Text.Cut

/-!
# Cuts are leftmost

A search stops at the first place where something is read, so at no place of the literal text in a cut
is anything read, whatever follows it there.

* `read_of_pieces`: what stands at a piece of a cut, and what is read before it.
* `read_eq_none_of_tail`: nothing is read in what is left behind the last piece.
-/

namespace MarkupBinding.Text.Recognizer

variable {α : Type} {r : Recognizer α} {text : Text}

/-- Nothing is read at a place before the one that is found. -/
theorem read_eq_none_of_find? {found : Found α} {inside : Text} (h : r.find? text = some found)
    (htext : text = found.before ++ inside) {front back : Text} (hbefore : found.before = front ++ back)
    (hback : back ≠ []) : r.read (back ++ inside) = none := by
  induction text generalizing found front with
  | nil =>
    have hnil : found.before = [] := (List.append_eq_nil_iff.1 htext.symm).1
    rw [hbefore, List.append_eq_nil_iff] at hnil
    exact absurd hnil.2 hback
  | cons c text ih =>
    unfold find? at h
    split at h
    · cases h
      exact absurd (List.append_eq_nil_iff.1 hbefore.symm).2 hback
    · next hread =>
      obtain ⟨later, hlater, rfl⟩ := Option.map_eq_some_iff.1 h
      have htail : text = later.before ++ inside := (List.cons.inj htext).2
      cases front with
      | nil =>
        rwa [← List.nil_append back, ← hbefore, List.cons_append, ← htail]
      | cons d front => exact ih hlater htail (List.cons.inj hbefore).2

/-- Where nothing is found, nothing is read at any place. -/
theorem read_eq_none_of_find?_eq_none (h : r.find? text = none) {part : Text} (hpart : part <:+ text) :
    r.read part = none := by
  induction text with
  | nil => rw [List.suffix_nil.1 hpart, read_nil]
  | cons c text ih =>
    unfold find? at h
    split at h
    · cases h
    · next hread =>
      rcases List.suffix_cons_iff.1 hpart with rfl | hpart
      · exact hread
      · exact ih (Option.map_eq_none_iff.1 h) hpart

/-- At a piece of a cut stands what was read there, with the rest of the text behind it, and at no
place of the literal text before it is anything read. -/
theorem read_of_pieces {write : α → Text} (h : r.Verbatim write) {first last : List (Text × α)}
    {before : Text} {hit : α} (hpieces : (r.cut text).pieces = first ++ (before, hit) :: last) :
    let rest := Interleaved.render write ⟨last, (r.cut text).tail⟩
    r.read (write hit ++ rest) = some (hit, rest) ∧
      ∀ front back, before = front ++ back → back ≠ [] →
        r.read (back ++ (write hit ++ rest)) = none := by
  induction first generalizing text with
  | nil =>
    cases hfind : r.find? text with
    | none =>
      rw [cut_of_find?_eq_none hfind] at hpieces
      cases hpieces
    | some found =>
      rw [cut_of_find? hfind] at hpieces ⊢
      obtain ⟨hpiece, rfl⟩ := List.cons.inj hpieces
      obtain ⟨rfl, rfl⟩ := Prod.mk.inj hpiece
      obtain ⟨inside, htext, hread⟩ := read_of_find? hfind
      have hrest := render_cut h found.after
      simp only at hrest ⊢
      rw [hrest, ← h hread]
      exact ⟨hread, fun front back hbefore => read_eq_none_of_find? hfind htext hbefore⟩
  | cons piece first ih =>
    cases hfind : r.find? text with
    | none =>
      rw [cut_of_find?_eq_none hfind] at hpieces
      cases hpieces
    | some found =>
      rw [cut_of_find? hfind] at hpieces ⊢
      exact ih (List.cons.inj hpieces).2

/-- Nothing is read in what is left behind the last piece. -/
theorem read_eq_none_of_tail {part : Text} (hpart : part <:+ (r.cut text).tail) :
    r.read part = none := by
  induction hn : text.length using Nat.strongRecOn generalizing text with
  | _ n ih =>
    cases hfind : r.find? text with
    | none =>
      rw [cut_of_find?_eq_none hfind] at hpart
      exact read_eq_none_of_find?_eq_none hfind hpart
    | some found =>
      rw [cut_of_find? hfind] at hpart
      exact ih _ (hn ▸ find?_after_length_lt hfind) hpart rfl

end MarkupBinding.Text.Recognizer
