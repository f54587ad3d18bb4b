import MarkupBinding.Insert.Basic
import MarkupBinding.Text.Blank

/-!
# Binding inserts

A binding insert is an expression between delimiters, with blanks on either side of it. The
expression begins with a character that is no blank, stays on one line and is as short as possible;
the blanks before it are as many as there are, and those behind it as many as leave room for the
closing delimiter. Its first character may be anything else, even the closing delimiter.
-/

namespace MarkupBinding

/-- A binding insert: its expression and the blanks around it. -/
structure BindingInsert where
  lead : Text
  expression : Text
  trail : Text
deriving DecidableEq, Repr

namespace BindingInsert

open Text (isBlank)

/-- The insert as it was written. -/
def markup (d : Delimiters) (insert : BindingInsert) : Text :=
  d.wrap (insert.lead ++ insert.expression ++ insert.trail)

/-- Reads blanks and the closing delimiter. Of several ways the one with most blanks is taken. -/
def readClosing? (closing : Text) (text : Text) : Option (Text × Text) :=
  match text with
  | [] => (closing.isPrefixOf? []).map fun rest => ([], rest)
  | c :: more =>
    if isBlank c then
      match readClosing? closing more with
      | some (trail, rest) => some (c :: trail, rest)
      | none => (closing.isPrefixOf? (c :: more)).map fun rest => ([], rest)
    else (closing.isPrefixOf? (c :: more)).map fun rest => ([], rest)

/-- Reads the rest of an expression, the blanks behind it and the closing delimiter. -/
def readTail? (closing : Text) (text : Text) : Option (Text × Text × Text) :=
  match readClosing? closing text with
  | some (trail, rest) => some ([], trail, rest)
  | none =>
    match text with
    | [] => none
    | c :: text =>
      if c = '\n' then none
      else (readTail? closing text).map fun (tail, trail, rest) => (c :: tail, trail, rest)

/-- Reads a binding insert at the front of a text. -/
def read? (d : Delimiters) (text : Text) : Option (BindingInsert × Text) :=
  match d.opening.isPrefixOf? text with
  | none => none
  | some inside =>
    match inside.dropWhile isBlank with
    | [] => none
    | c :: text =>
      (readTail? d.closing text).map fun (tail, trail, rest) =>
        (⟨inside.takeWhile isBlank, c :: tail, trail⟩, rest)

theorem eq_append_of_map_isPrefixOf? {closing text trail rest : Text}
    (h : (closing.isPrefixOf? text).map (fun rest => (([] : Text), rest)) = some (trail, rest)) :
    text = trail ++ closing ++ rest := by
  obtain ⟨rest', hp, heq⟩ := Option.map_eq_some_iff.1 h
  cases heq
  exact Text.isPrefixOf?_eq_some_iff.1 hp

theorem eq_append_of_readClosing? {closing text trail rest : Text}
    (h : readClosing? closing text = some (trail, rest)) : text = trail ++ closing ++ rest := by
  induction text generalizing trail with
  | nil => exact eq_append_of_map_isPrefixOf? h
  | cons c more ih =>
    unfold readClosing? at h
    split at h
    · split at h
      · next hmore => cases h; rw [ih hmore]; rfl
      · exact eq_append_of_map_isPrefixOf? h
    · exact eq_append_of_map_isPrefixOf? h

theorem eq_append_of_readTail? {closing text tail trail rest : Text}
    (h : readTail? closing text = some (tail, trail, rest)) :
    text = tail ++ trail ++ closing ++ rest := by
  induction text generalizing tail with
  | nil =>
    unfold readTail? at h
    split at h
    · next hc => cases h; exact eq_append_of_readClosing? hc
    · cases h
  | cons c text ih =>
    unfold readTail? at h
    split at h
    · next hc => cases h; exact eq_append_of_readClosing? hc
    · simp only at h
      split at h
      · cases h
      · obtain ⟨⟨tail', trail', rest'⟩, ht, heq⟩ := Option.map_eq_some_iff.1 h
        cases heq
        rw [ih ht]
        rfl

/-- An insert that is read stands at the front of the text as it was written. -/
theorem eq_append_of_read? {d : Delimiters} {text rest : Text} {insert : BindingInsert}
    (h : read? d text = some (insert, rest)) : text = insert.markup d ++ rest := by
  unfold read? at h
  split at h
  · cases h
  · next inside hopen =>
    split at h
    · cases h
    · next c after hdrop =>
      obtain ⟨⟨tail, trail, rest'⟩, ht, heq⟩ := Option.map_eq_some_iff.1 h
      cases heq
      have hinside : inside.takeWhile isBlank ++ c :: after = inside := by
        rw [← hdrop, List.takeWhile_append_dropWhile]
      rw [eq_append_of_readTail? ht] at hinside
      rw [Text.isPrefixOf?_eq_some_iff.1 hopen]
      generalize inside.takeWhile isBlank = lead at hinside
      simp [markup, Delimiters.wrap, ← hinside]

theorem expression_ne_nil_of_read? {d : Delimiters} {text rest : Text} {insert : BindingInsert}
    (h : read? d text = some (insert, rest)) : insert.expression ≠ [] := by
  unfold read? at h
  split at h
  · cases h
  · split at h
    · cases h
    · obtain ⟨_, _, heq⟩ := Option.map_eq_some_iff.1 h
      cases heq
      exact List.cons_ne_nil _ _

/-- An insert is followed by a shorter text. -/
theorem length_lt_of_read? {d : Delimiters} {text rest : Text} {insert : BindingInsert}
    (h : read? d text = some (insert, rest)) : rest.length < text.length := by
  have hpos := List.length_pos_iff.2 (expression_ne_nil_of_read? h)
  rw [eq_append_of_read? h]
  simp only [markup, Delimiters.wrap, List.length_append]
  omega

/-- Recognizes binding inserts. -/
def recognizer (d : Delimiters) : Text.Recognizer BindingInsert where
  read := read? d
  shorter := length_lt_of_read?

/-- The first binding insert of a text. -/
def find? (d : Delimiters) (text : Text) : Option (Text.Found BindingInsert) :=
  (recognizer d).find? text

/-- Literal text and expressions in turn, beginning and ending with literal text. A text without
binding inserts is one part. -/
def split (d : Delimiters) (text : Text) : List Text :=
  ((recognizer d).cut text).parts (·.expression)

end BindingInsert
end MarkupBinding
