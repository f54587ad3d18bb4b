import MarkupBinding.Insert.Binding

/-!
# Binding inserts as a regular expression

The regular expression for binding inserts is written out of the delimiters. Here such an expression
is read again: a sign that means something in a regular expression means itself behind a backslash,
and a character that is no such sign means itself anyway. So whatever the delimiters are, what is read
is the one delimiter, the insert between its blanks, and the other delimiter.

* `parts?_ofBinding`: what the regular expression is read as.
* `matches_ofBinding_iff`: the texts that it matches.
-/

namespace MarkupBinding

open Text (isBlank)

/-- An insert as it can be written: blanks on either side of an expression that does not begin with a
blank and stays on its line. -/
structure BindingInsert.Formed (insert : BindingInsert) : Prop where
  lead : ∀ c ∈ insert.lead, isBlank c = true
  starts : ∃ c ∈ insert.expression.head?, isBlank c = false
  line : '\n' ∉ insert.expression
  trail : ∀ c ∈ insert.trail, isBlank c = true

namespace Pattern

/-- A part of a regular expression. -/
inductive Part where
  /-- A character that means itself. -/
  | literal (c : Char)
  /-- Blanks, any number of them: `\s*`. -/
  | blanks
  /-- The group: a character that is no blank, and any others on its line: `(\S.*?)`. -/
  | group
deriving DecidableEq, Repr

/-- The signs that mean something else than themselves. -/
def signs : Text := ".^$*+?\x7b\x7d[]\\|()".toList

/-- Reads a regular expression. Behind a backslash a letter or digit is no literal character. -/
def parts? : Text → Option (List Part)
  | [] => some []
  | '\\' :: 's' :: '*' :: source => (parts? source).map (.blanks :: ·)
  | '(' :: '\\' :: 'S' :: '.' :: '*' :: '?' :: ')' :: source => (parts? source).map (.group :: ·)
  | '\\' :: c :: source => if c.isAlphanum then none else (parts? source).map (.literal c :: ·)
  | c :: source => if c ∈ signs then none else (parts? source).map (.literal c :: ·)

/-- The texts that the parts match one after another, with what the group holds. -/
inductive Fits : List Part → Text → Text → Prop
  | nil : Fits [] [] []
  | literal {parts : List Part} {group text : Text} (c : Char) (h : Fits parts group text) :
      Fits (.literal c :: parts) group (c :: text)
  | blanks {parts : List Part} {group text : Text} (run : Text) (blank : ∀ c ∈ run, isBlank c = true)
      (h : Fits parts group text) : Fits (.blanks :: parts) group (run ++ text)
  | group {parts : List Part} {text : Text} (first : Char) (more : Text)
      (solid : isBlank first = false) (line : '\n' ∉ more) (h : Fits parts [] text) :
      Fits (.group :: parts) (first :: more) (first :: more ++ text)

/-- A text that a regular expression matches as a whole, with what its group holds. -/
def Matches (source group text : Text) : Prop :=
  ∃ parts, parts? source = some parts ∧ Fits parts group text

/-! ## Reading -/

theorem parts?_blanks (source : Text) :
    parts? ("\\s*".toList ++ source) = (parts? source).map (.blanks :: ·) := rfl

theorem parts?_group (source : Text) :
    parts? ("(\\S.*?)".toList ++ source) = (parts? source).map (.group :: ·) := rfl

/-- An escaped character means itself. -/
theorem parts?_escaped {c : Char} (h : c.isAlphanum = false) (source : Text) :
    parts? ('\\' :: c :: source) = (parts? source).map (.literal c :: ·) := by
  rw [parts?.eq_def]
  split
  · next heq => cases heq
  · next heq =>
    obtain ⟨rfl, -⟩ := List.cons.inj (List.cons.inj heq).2
    exact absurd h (by decide)
  · next heq => exact absurd (List.cons.inj heq).1 (by decide)
  · next heq =>
    obtain ⟨rfl, rfl⟩ := List.cons.inj (List.cons.inj heq).2
    rw [if_neg (by simp [h])]
  · next hnot heq =>
    obtain ⟨rfl, rfl⟩ := List.cons.inj heq
    exact absurd rfl (hnot _ _ rfl)

/-- A character that is no sign means itself. -/
theorem parts?_plain {c : Char} (h : c ∉ signs) (source : Text) :
    parts? (c :: source) = (parts? source).map (.literal c :: ·) := by
  rw [parts?.eq_def]
  split
  · next heq => cases heq
  · next heq => exact absurd ((List.cons.inj heq).1 ▸ h) (by decide)
  · next heq => exact absurd ((List.cons.inj heq).1 ▸ h) (by decide)
  · next heq => exact absurd ((List.cons.inj heq).1 ▸ h) (by decide)
  · next heq =>
    obtain ⟨rfl, rfl⟩ := List.cons.inj heq
    rw [if_neg h]

/-- A delimiter is read as its characters, whatever they are. -/
theorem parts?_ofDelimiter (text source : Text) :
    parts? (ofDelimiter text ++ source) = (parts? source).map (text.map .literal ++ ·) := by
  have hall : delimiterSpecials.all (fun c => !c.isAlphanum) = true ∧
      signs.all (fun c => delimiterSpecials.contains c) = true := by decide
  have hspecial : ∀ c ∈ delimiterSpecials, c.isAlphanum = false := fun c hc => by
    simpa using List.all_eq_true.1 hall.1 c hc
  have hsigns : ∀ c ∈ signs, c ∈ delimiterSpecials := fun c hc =>
    List.contains_iff_mem.1 (List.all_eq_true.1 hall.2 c hc)
  induction text with
  | nil =>
    show parts? source = (parts? source).map id
    rw [Option.map_id, id]
  | cons c text ih =>
    have hcons : (parts? (ofDelimiter text ++ source)).map (.literal c :: ·) =
        (parts? source).map ((c :: text).map .literal ++ ·) := by
      rw [ih, Option.map_map]
      rfl
    rw [← hcons]
    show parts? ((if delimiterSpecials.contains c then ['\\', c] else [c]) ++
      ofDelimiter text ++ source) = _
    by_cases hc : c ∈ delimiterSpecials
    · rw [if_pos (List.contains_iff_mem.2 hc)]
      exact parts?_escaped (hspecial c hc) _
    · rw [if_neg (mt List.contains_iff_mem.1 hc)]
      exact parts?_plain (mt (hsigns c) hc) _

/-- The regular expression for binding inserts, whatever the delimiters are. -/
theorem parts?_ofBinding (d : Delimiters) :
    parts? (ofBinding d) =
      some (d.opening.map .literal ++ .blanks :: .group :: .blanks :: d.closing.map .literal) := by
  have hsource : ofBinding d = ofDelimiter d.opening ++ ("\\s*".toList ++ ("(\\S.*?)".toList ++
      ("\\s*".toList ++ (ofDelimiter d.closing ++ [])))) := by
    simp [ofBinding]
  rw [hsource, parts?_ofDelimiter, parts?_blanks, parts?_group, parts?_blanks, parts?_ofDelimiter]
  simp [parts?]

/-! ## Matching -/

/-- Literal characters match themselves. -/
theorem fits_literal_iff {parts : List Part} {group text : Text} (word : Text) :
    Fits (word.map .literal ++ parts) group text ↔
      ∃ rest, text = word ++ rest ∧ Fits parts group rest := by
  induction word generalizing text with
  | nil => exact ⟨fun h => ⟨text, rfl, h⟩, fun ⟨_, heq, h⟩ => heq ▸ h⟩
  | cons c word ih =>
    constructor
    · intro h
      cases h with
      | literal _ h =>
        obtain ⟨rest, rfl, hrest⟩ := ih.1 h
        exact ⟨rest, rfl, hrest⟩
    · rintro ⟨rest, rfl, hrest⟩
      exact .literal c (ih.2 ⟨rest, rfl, hrest⟩)

/-- The texts that the regular expression matches are the inserts as they can be written, and its group
holds their expressions. -/
theorem matches_ofBinding_iff {d : Delimiters} {group text : Text} :
    Matches (ofBinding d) group text ↔
      ∃ insert : BindingInsert, insert.Formed ∧ insert.expression = group ∧
        text = insert.markup d := by
  unfold Matches
  rw [parts?_ofBinding]
  constructor
  · rintro ⟨parts, heq, hparts⟩
    obtain rfl := Option.some.inj heq
    obtain ⟨inside, rfl, hinside⟩ := (fits_literal_iff d.opening).1 hparts
    cases hinside with
    | blanks lead hlead hgroup =>
      cases hgroup with
      | group first more hsolid hline hblanks =>
        cases hblanks with
        | blanks trail htrail hclosing =>
          rw [← List.append_nil (d.closing.map Part.literal)] at hclosing
          obtain ⟨rest, rfl, hrest⟩ := (fits_literal_iff d.closing).1 hclosing
          cases hrest
          refine ⟨⟨lead, first :: more, trail⟩, ⟨hlead, ⟨first, rfl, hsolid⟩, ?_, htrail⟩, rfl, ?_⟩
          · intro hmem
            rcases List.mem_cons.1 hmem with rfl | hmem
            · exact absurd hsolid (by decide)
            · exact hline hmem
          · simp [BindingInsert.markup, Delimiters.wrap]
  · rintro ⟨⟨lead, expression, trail⟩, h, rfl, rfl⟩
    obtain ⟨first, hfirst, hsolid⟩ := h.starts
    obtain ⟨more, rfl⟩ := List.head?_eq_some_iff.1 hfirst
    have hclosing : Fits (d.closing.map .literal) [] d.closing := by
      have hfits := (fits_literal_iff d.closing).2 ⟨[], (List.append_nil _).symm, .nil⟩
      rwa [List.append_nil] at hfits
    have hline : '\n' ∉ more := fun hmem => h.line (List.mem_cons_of_mem _ hmem)
    refine ⟨_, rfl, (fits_literal_iff d.opening).2 ⟨lead ++ (first :: more ++ (trail ++ d.closing)),
      by simp [BindingInsert.markup, Delimiters.wrap], ?_⟩⟩
    exact .blanks lead h.lead (.group first more hsolid hline (.blanks trail h.trail hclosing))

end Pattern
end MarkupBinding
