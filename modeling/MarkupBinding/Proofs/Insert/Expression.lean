import MarkupBinding.Expression
import MarkupBinding.Proofs.Insert.Search
import MarkupBinding.Proofs.Text.Trim

/-!
# The ends of expressions and their characters

The expression of a binding insert begins with a character that is no blank, and it is as short as
the closing delimiter lets it be; since blanks may stand before that delimiter, none is left at the
end of the expression. A sum of terms ends with an expression or with a mark. It holds the characters
of its parts and few others, and once it is fit to stand between double marks no double mark.

* `endsSolid_of_read?`: the expression of an insert does not end with a blank.
* `Synthesis.endsSolid_expression`: neither does the expression for a text that holds inserts.
* `Synthesis.notMem_expression`: the characters of such an expression.
* `Synthesis.doubleMark_notMem_protectMarks`: it holds no double mark.
-/

namespace MarkupBinding

open Text (EndsSolid)

namespace BindingInsert

/-- An expression that ends at once is followed by the closing delimiter. -/
theorem readClosing?_of_readTail? {closing text trail rest : Text}
    (h : readTail? closing text = some ([], trail, rest)) :
    readClosing? closing text = some (trail, rest) := by
  unfold readTail? at h
  split at h
  · next hclosing =>
    cases h
    exact hclosing
  · split at h
    · cases h
    · split at h
      · cases h
      · obtain ⟨_, _, heq⟩ := Option.map_eq_some_iff.1 h
        cases heq

/-- A blank may stand before the closing delimiter. -/
theorem readClosing?_cons {closing text trail rest : Text} {c : Char} (hblank : Text.isBlank c = true)
    (h : readClosing? closing text = some (trail, rest)) :
    readClosing? closing (c :: text) = some (c :: trail, rest) := by
  rw [readClosing?, if_pos hblank, h]

/-- The rest of an expression is empty or does not end with a blank: the blank would have been read
as one of those before the closing delimiter. -/
theorem endsSolid_of_readTail? {closing text tail trail rest : Text}
    (h : readTail? closing text = some (tail, trail, rest)) : tail = [] ∨ tail.EndsSolid := by
  induction text generalizing tail with
  | nil =>
    unfold readTail? at h
    split at h
    · cases h
      exact .inl rfl
    · cases h
  | cons c text ih =>
    unfold readTail? at h
    split at h
    · cases h
      exact .inl rfl
    · next hclosing =>
      simp only at h
      split at h
      · cases h
      · obtain ⟨⟨tail', trail', rest'⟩, htail, heq⟩ := Option.map_eq_some_iff.1 h
        cases heq
        rcases ih htail with rfl | hsolid
        · refine .inr (Text.endsSolid_singleton ?_)
          -- The closing delimiter follows, so `c` would be a blank before it.
          by_contra hblank
          rw [Bool.not_eq_false] at hblank
          rw [readClosing?_cons hblank (readClosing?_of_readTail? htail)] at hclosing
          cases hclosing
        · exact .inr (hsolid.cons c)

/-- The expression of an insert does not end with a blank. -/
theorem endsSolid_of_read? {d : Delimiters} {text rest : Text} {insert : BindingInsert}
    (h : read? d text = some (insert, rest)) : insert.expression.EndsSolid := by
  unfold read? at h
  split at h
  · cases h
  · next inside _ =>
    split at h
    · cases h
    · next c after hdrop =>
      obtain ⟨⟨tail, trail, rest'⟩, htail, heq⟩ := Option.map_eq_some_iff.1 h
      cases heq
      rcases endsSolid_of_readTail? htail with rfl | hsolid
      · have hfirst := List.head?_dropWhile_not Text.isBlank inside
        rw [hdrop] at hfirst
        exact Text.endsSolid_singleton hfirst
      · exact hsolid.cons c

theorem endsSolid_of_mem_hits {d : Delimiters} {text : Text} {insert : BindingInsert}
    (h : insert ∈ ((recognizer d).cut text).hits) : insert.expression.EndsSolid := by
  obtain ⟨inside, rest, hread⟩ := Text.Recognizer.exists_read_of_mem_hits h
  exact endsSolid_of_read? hread

end BindingInsert

namespace Term

variable {α : Type} {write : α → Text} {cut : Text.Interleaved α}

/-- The terms of a cut text are literals and the things that were found. -/
theorem mem_ofPartsFrom {count index : Nat} {term : Term} (heven : index % 2 = 0)
    (h : term ∈ ofPartsFrom count index (cut.parts write)) :
    (∃ text, term = literal text) ∨ ∃ hit ∈ cut.hits, term = path (write hit) := by
  obtain ⟨pieces, tail⟩ := cut
  induction pieces generalizing index with
  | nil =>
    refine .inl ?_
    simp only [Text.Interleaved.parts, List.flatMap_nil, List.nil_append, ofPartsFrom] at h
    have hnot : ¬ index % 2 = 1 := by omega
    rw [if_neg hnot] at h
    split at h
    · exact ⟨tail, List.mem_singleton.1 h⟩
    · split at h
      · exact ⟨[], List.mem_singleton.1 h⟩
      · cases h
  | cons piece pieces ih =>
    obtain ⟨before, hit⟩ := piece
    have hlater : term ∈ ofPartsFrom count (index + 1 + 1)
          (Text.Interleaved.parts write ⟨pieces, tail⟩) →
        (∃ text, term = literal text) ∨
          ∃ found ∈ Text.Interleaved.hits ⟨(before, hit) :: pieces, tail⟩, term = path (write found) := by
      intro hmem
      rcases ih (by omega) hmem with hliteral | ⟨found, hfound, heq⟩
      · exact .inl hliteral
      · exact .inr ⟨found, List.mem_cons_of_mem _ hfound, heq⟩
    have hrest : term ∈ path (write hit) ::
          ofPartsFrom count (index + 1 + 1) (Text.Interleaved.parts write ⟨pieces, tail⟩) →
        (∃ text, term = literal text) ∨
          ∃ found ∈ Text.Interleaved.hits ⟨(before, hit) :: pieces, tail⟩, term = path (write found) := by
      intro hmem
      rcases List.mem_cons.1 hmem with rfl | hmem
      · exact .inr ⟨hit, List.mem_cons_self, rfl⟩
      · exact hlater hmem
    have hnot : ¬ index % 2 = 1 := by omega
    have hodd : (index + 1) % 2 = 1 := by omega
    change term ∈ ofPartsFrom count index
      (before :: write hit :: Text.Interleaved.parts write ⟨pieces, tail⟩) at h
    simp only [ofPartsFrom, if_neg hnot, if_pos hodd] at h
    split at h
    · rcases List.mem_cons.1 h with rfl | h
      · exact .inl ⟨before, rfl⟩
      · exact hrest h
    · split at h
      · rcases List.mem_cons.1 h with rfl | h
        · exact .inl ⟨[], rfl⟩
        · exact hrest h
      · exact hrest h

/-- A text with something found in it has terms. -/
theorem ofParts_ne_nil (h : cut.pieces ≠ []) : ofParts (cut.parts write) ≠ [] := by
  obtain ⟨pieces, tail⟩ := cut
  obtain ⟨⟨before, hit⟩, others, rfl⟩ := List.exists_cons_of_ne_nil h
  unfold ofParts
  show ofPartsFrom _ 0 (before :: write hit :: Text.Interleaved.parts write ⟨others, tail⟩) ≠ []
  simp only [ofPartsFrom]
  split
  · exact List.cons_ne_nil _ _
  · split
    · exact List.cons_ne_nil _ _
    · split <;> exact List.cons_ne_nil _ _

theorem endsSolid_markup_literal (root text : Text) : (markup root (literal text)).EndsSolid :=
  (Text.endsSolid_singleton rfl).append (Text.singleMark :: text.flatMap escapeChar)

end Term

namespace Synthesis

/-- Marks are rewritten as texts that do not end with a blank. -/
theorem endsSolid_protectMarks {text : Text} (h : text.EndsSolid) :
    (protectMarks text).EndsSolid := by
  obtain ⟨c, hlast, hsolid⟩ := h
  obtain ⟨front, rfl⟩ := List.getLast?_eq_some_iff.1 hlast
  unfold protectMarks Text.replaceChar
  rw [List.flatMap_append]
  refine EndsSolid.append ?_ _
  rw [List.flatMap_singleton]
  split
  · exact ⟨';', rfl, rfl⟩
  · exact Text.endsSolid_singleton hsolid

/-- The expression for a text that holds binding inserts does not end with a blank. -/
theorem endsSolid_expression {d template : Delimiters} {root text : Text}
    (h : 1 < (BindingInsert.split d text).length) :
    (ofParts template root (BindingInsert.split d text)).expression.EndsSolid := by
  unfold BindingInsert.split at h ⊢
  refine endsSolid_protectMarks ?_
  have hpieces : ((BindingInsert.recognizer d).cut text).pieces ≠ [] := by
    intro hnil
    simp [Text.Interleaved.parts, hnil] at h
  refine Text.endsSolid_intercalate ?_ ?_
  · intro hnil
    exact Term.ofParts_ne_nil hpieces (List.map_eq_nil_iff.1 hnil)
  · intro written hwritten
    obtain ⟨term, hterm, rfl⟩ := List.mem_map.1 hwritten
    rcases Term.mem_ofPartsFrom rfl hterm with ⟨literal, rfl⟩ | ⟨hit, hhit, rfl⟩
    · exact Term.endsSolid_markup_literal root literal
    · exact ((BindingInsert.endsSolid_of_mem_hits hhit).cons '.').append root

end Synthesis

/-! ## Characters -/

namespace Term

variable {root : Text} {parts : List Text} {c : Char}

/-- The characters that a sum has of its own. -/
def signs : Text := ['\\', Text.singleMark, 'r', 'n', '.', '+']

theorem notMem_quoteLiteral {text : Text} (hc : c ∉ signs) (h : c ∉ text) :
    c ∉ quoteLiteral text := by
  simp only [signs, List.mem_cons, List.not_mem_nil, or_false, not_or] at hc
  have hescaped : c ∉ text.flatMap escapeChar := by
    intro hmem
    obtain ⟨d, hd, hmem⟩ := List.mem_flatMap.1 hmem
    have hne : c ≠ d := fun heq => h (heq ▸ hd)
    unfold escapeChar at hmem
    repeat' split at hmem
    all_goals simp [hne, hc] at hmem
  simpa [quoteLiteral, hc] using hescaped

theorem notMem_markup (hc : c ∉ signs) (hroot : c ∉ root) (h : ∀ part ∈ parts, c ∉ part)
    (count index : Nat) : ∀ term ∈ ofPartsFrom count index parts, c ∉ term.markup root := by
  induction parts generalizing index with
  | nil => exact fun term hmem => nomatch hmem
  | cons part parts ih =>
    obtain ⟨hpart, hparts⟩ := List.forall_mem_cons.1 h
    have hrest := ih hparts (index + 1)
    have hdot : c ≠ '.' := fun heq => hc (by simp [signs, heq])
    rw [ofPartsFrom]
    split
    · refine List.forall_mem_cons.2 ⟨?_, hrest⟩
      simpa [markup] using ⟨hroot, hdot, hpart⟩
    · split
      · exact List.forall_mem_cons.2 ⟨notMem_quoteLiteral hc hpart, hrest⟩
      · split
        · exact List.forall_mem_cons.2 ⟨notMem_quoteLiteral hc List.not_mem_nil, hrest⟩
        · exact hrest

/-- A sum holds what the parts of the text hold. -/
theorem notMem_sum (hc : c ∉ signs) (hroot : c ∉ root) (h : ∀ part ∈ parts, c ∉ part) :
    c ∉ sum root (ofParts parts) := by
  have hplus : c ∉ ['+'] := fun hmem => hc (by simp [signs, List.mem_singleton.1 hmem])
  refine Text.notMem_intercalate hplus fun written hwritten => ?_
  obtain ⟨term, hterm, rfl⟩ := List.mem_map.1 hwritten
  exact notMem_markup hc hroot h _ _ term hterm

end Term

namespace Synthesis

variable {text root : Text} {parts : List Text} {c : Char}

/-- Double marks are rewritten without double marks. -/
theorem doubleMark_notMem_protectMarks (text : Text) : Text.doubleMark ∉ protectMarks text := by
  unfold protectMarks Text.replaceChar
  intro hmem
  obtain ⟨d, _, hmem⟩ := List.mem_flatMap.1 hmem
  split at hmem
  · exact absurd hmem (by decide)
  · next hne => exact hne (List.mem_singleton.1 hmem).symm

/-- Nothing else is rewritten. -/
theorem protectMarks_eq_self (h : Text.doubleMark ∉ text) : protectMarks text = text := by
  unfold protectMarks Text.replaceChar
  induction text with
  | nil => rfl
  | cons d text ih =>
    rw [List.mem_cons, not_or] at h
    rw [List.flatMap_cons, if_neg (Ne.symm h.1), ih h.2, List.singleton_append]

/-- An expression holds what the parts of the text hold. -/
theorem notMem_expression (hc : c ∉ Term.signs) (hentity : c ∉ "&quot;".toList) (hroot : c ∉ root)
    (h : ∀ part ∈ parts, c ∉ part) (template : Delimiters) :
    c ∉ (ofParts template root parts).expression := by
  have hsum := Term.notMem_sum hc hroot h
  show c ∉ protectMarks _
  unfold protectMarks Text.replaceChar
  intro hmem
  obtain ⟨d, hd, hmem⟩ := List.mem_flatMap.1 hmem
  have hne : c ≠ d := fun heq => hsum (heq ▸ hd)
  split at hmem
  · exact hentity hmem
  · exact hne (List.mem_singleton.1 hmem)

end Synthesis
end MarkupBinding
