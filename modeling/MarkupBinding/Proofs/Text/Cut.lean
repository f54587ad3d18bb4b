import Mathlib.Data.List.Basic
import MarkupBinding.Text.Recognizer

/-!
# Cutting a text at what is found in it

A cut is defined by searches, and each search by readings from one character to the next. Here a cut
is followed one reading at a time, so that what is known of a reading can be carried to the cut.

* `read_of_find?`: what is found was read where it stands.
* `cut_of_read`, `cut_cons`: the cut of a text from what is read at its front.
* `render_cut`: written as they were read, the pieces make up the text.
* `render_cut_append`: a cut is written in parts, where no reading goes across the border.
-/

namespace MarkupBinding.Text

variable {α : Type}

namespace Interleaved

/-- The cut with more literal text before it. -/
def behind (text : Text) (cut : Interleaved α) : Interleaved α :=
  match cut.pieces with
  | [] => ⟨[], text ++ cut.tail⟩
  | (before, hit) :: pieces => ⟨(text ++ before, hit) :: pieces, cut.tail⟩

@[simp] theorem render_behind (write : α → Text) (text : Text) (cut : Interleaved α) :
    (cut.behind text).render write = text ++ cut.render write := by
  obtain ⟨pieces, tail⟩ := cut
  cases pieces <;> simp [behind, render]

@[simp] theorem hits_behind (text : Text) (cut : Interleaved α) :
    (cut.behind text).hits = cut.hits := by
  obtain ⟨pieces, tail⟩ := cut
  cases pieces <;> rfl

end Interleaved

namespace Recognizer

variable {r : Recognizer α} {text : Text}

/-- What is found was read where it stands. -/
theorem read_of_find? {found : Found α} (h : r.find? text = some found) :
    ∃ inside, text = found.before ++ inside ∧ r.read inside = some (found.hit, found.after) := by
  induction text generalizing found with
  | nil =>
    unfold find? at h
    split at h
    · next hread =>
      cases h
      exact ⟨[], rfl, hread⟩
    · cases h
  | cons c text ih =>
    unfold find? at h
    split at h
    · next hread =>
      cases h
      exact ⟨c :: text, rfl, hread⟩
    · obtain ⟨found', hfound, rfl⟩ := Option.map_eq_some_iff.1 h
      obtain ⟨inside, rfl, hread⟩ := ih hfound
      exact ⟨inside, rfl, hread⟩

theorem cut_of_find?_eq_none (h : r.find? text = none) : r.cut text = ⟨[], text⟩ := by
  unfold cut
  split
  · rfl
  · next hfound =>
    rw [h] at hfound
    cases hfound

theorem cut_of_find? {found : Found α} (h : r.find? text = some found) :
    r.cut text =
      ⟨(found.before, found.hit) :: (r.cut found.after).pieces, (r.cut found.after).tail⟩ := by
  rw [cut]
  split
  · next hnone =>
    rw [h] at hnone
    cases hnone
  · next hfound =>
    rw [h] at hfound
    cases hfound
    rfl

/-! ## One reading at a time -/

/-- Nothing is shorter than the empty text, so nothing is read in it. -/
theorem read_nil : r.read [] = none := by
  cases h : r.read [] with
  | none => rfl
  | some result => exact absurd (r.shorter h) (Nat.not_lt_zero _)

theorem cut_nil : r.cut [] = ⟨[], []⟩ := by
  refine cut_of_find?_eq_none ?_
  unfold find?
  rw [read_nil]

theorem cut_of_read {hit : α} {rest : Text} (h : r.read text = some (hit, rest)) :
    r.cut text = ⟨([], hit) :: (r.cut rest).pieces, (r.cut rest).tail⟩ := by
  have hfound : r.find? text = some ⟨[], hit, rest⟩ := by
    unfold find?
    rw [h]
  exact cut_of_find? hfound

/-- A character at which nothing is read is literal text. -/
theorem cut_cons {c : Char} (h : r.read (c :: text) = none) :
    r.cut (c :: text) = (r.cut text).behind [c] := by
  have hfind : r.find? (c :: text) =
      (r.find? text).map fun found => { found with before := c :: found.before } := by
    rw [find?, h]
  cases hfound : r.find? text with
  | none =>
    rw [hfound, Option.map_none] at hfind
    rw [cut_of_find?_eq_none hfind, cut_of_find?_eq_none hfound]
    rfl
  | some found =>
    rw [hfound, Option.map_some] at hfind
    rw [cut_of_find? hfind, cut_of_find? hfound]
    rfl

/-- What holds behind a reading, and behind a character at which nothing is read, holds before
them. -/
theorem cut_induction {motive : Text → Prop} (nil : motive [])
    (found : ∀ {text hit rest}, r.read text = some (hit, rest) → motive rest → motive text)
    (literal : ∀ {c text}, r.read (c :: text) = none → motive text → motive (c :: text))
    (text : Text) : motive text := by
  obtain ⟨n, hn⟩ : ∃ n, text.length = n := ⟨_, rfl⟩
  induction n using Nat.strongRecOn generalizing text with
  | _ n ih =>
    cases hread : r.read text with
    | some result => exact found hread (ih _ (hn ▸ r.shorter hread) _ rfl)
    | none =>
      cases text with
      | nil => exact nil
      | cons c text => exact literal hread (ih _ (hn ▸ Nat.lt_succ_self _) _ rfl)

/-- What is found in a text was read somewhere in it. -/
theorem exists_read_of_mem_hits {hit : α} (h : hit ∈ (r.cut text).hits) :
    ∃ inside rest, r.read inside = some (hit, rest) := by
  induction text using cut_induction (r := r) with
  | nil =>
    rw [cut_nil] at h
    cases h
  | @found text first rest hread ih =>
    rw [cut_of_read hread] at h
    rcases List.mem_cons.1 h with rfl | h
    · exact ⟨text, rest, hread⟩
    · exact ih h
  | @literal c text hread ih =>
    rw [cut_cons hread, Interleaved.hits_behind] at h
    exact ih h

/-! ## Writing a cut -/

/-- Things are written as they were read. -/
def Verbatim (r : Recognizer α) (write : α → Text) : Prop :=
  ∀ {text hit rest}, r.read text = some (hit, rest) → text = write hit ++ rest

/-- Then the pieces make up the text. -/
theorem render_cut {write : α → Text} (h : r.Verbatim write) (text : Text) :
    (r.cut text).render write = text := by
  induction text using cut_induction (r := r) with
  | nil =>
    rw [cut_nil]
    rfl
  | @found text hit rest hread ih =>
    rw [cut_of_read hread, h hread]
    nth_rewrite 3 [← ih]
    simp [Interleaved.render]
  | @literal c text hread ih =>
    rw [cut_cons hread, Interleaved.render_behind, ih]
    rfl

/-- They also do if only the things in the text are written so. -/
theorem render_cut_of_hits {write write' : α → Text} (h : r.Verbatim write)
    (hsame : ∀ hit ∈ (r.cut text).hits, write' hit = write hit) :
    (r.cut text).render write' = text := by
  have heq : (r.cut text).render write' = (r.cut text).render write := by
    unfold Interleaved.render
    congr 1
    refine List.flatMap_congr fun piece hpiece => ?_
    simp only [hsame piece.2 (List.mem_map_of_mem hpiece)]
  rw [heq, render_cut h]

/-- A thing in a text stands in it as it is written. -/
theorem infix_of_mem_hits {write : α → Text} (h : r.Verbatim write) {hit : α}
    (hmem : hit ∈ (r.cut text).hits) : write hit <:+: text := by
  obtain ⟨piece, hpiece, rfl⟩ := List.mem_map.1 hmem
  obtain ⟨front, behind, hpieces⟩ := List.append_of_mem hpiece
  have hrender := render_cut h text
  unfold Interleaved.render at hrender
  rw [hpieces, List.flatMap_append, List.flatMap_cons] at hrender
  rw [← hrender]
  exact ⟨front.flatMap (fun piece => piece.1 ++ write piece.2) ++ piece.1,
    behind.flatMap (fun piece => piece.1 ++ write piece.2) ++ (r.cut text).tail, by simp⟩

/-! ## Borders -/

/-- No reading that begins before a text goes into it. -/
def Stops (r : Recognizer α) (border : Text) : Prop :=
  ∀ text, text ≠ [] →
    r.read (text ++ border) = (r.read text).map fun (hit, rest) => (hit, rest ++ border)

variable {border : Text}

/-- A cut is written in two parts if no reading goes across the border between them. -/
theorem render_cut_append (h : r.Stops border) (write : α → Text) (text : Text) :
    (r.cut (text ++ border)).render write =
      (r.cut text).render write ++ (r.cut border).render write := by
  induction text using cut_induction (r := r) with
  | nil =>
    rw [cut_nil]
    rfl
  | @found text hit rest hread ih =>
    have hne : text ≠ [] := by
      rintro rfl
      rw [read_nil] at hread
      cases hread
    have hborder := h text hne
    rw [hread, Option.map_some] at hborder
    rw [cut_of_read hborder, cut_of_read hread]
    unfold Interleaved.render at ih ⊢
    simp only [List.flatMap_cons, List.append_assoc] at ih ⊢
    rw [ih]
  | @literal c text hread ih =>
    have hborder : r.read (c :: (text ++ border)) = none := by
      have hstops := h (c :: text) (List.cons_ne_nil _ _)
      rwa [hread, Option.map_none] at hstops
    rw [List.cons_append, cut_cons hborder, cut_cons hread, Interleaved.render_behind,
      Interleaved.render_behind, ih, List.append_assoc]

end Recognizer
end MarkupBinding.Text
