import MarkupBinding.Proofs.Expression.Reading

/-!
# What a binding expression means

The expression for a text with binding inserts is evaluated from left to right: two numbers are
added, and everything else is joined as text. What is left of the empty literals is just enough to
make it the text that is shown. A sum of two terms or more has a literal among its first two, so the
total is a text from the second term on, and two expressions side by side are never added.

* `meaning?_eq`: a term comes to what it is meant to, read as it is written.
* `evaluate_of_joinsTexts`: a sum in which nothing is added is the text of its terms in a row.
* `joinsTexts_ofParts`: the sum for a text with inserts is one.
* `evaluate_ofParts`: it comes to the rewritten text with the values in place of the inserts.
-/

namespace MarkupBinding

namespace Term

/-- What a term comes to: numbers can be added, everything else is joined as text. -/
inductive Meaning (N : Type) where
  | number (n : N)
  | text (content : Text)
deriving DecidableEq

variable {N : Type} [Add N] (write : N → Text) (valuation : Text → Meaning N) (root : Text)

/-- A meaning as text, given how numbers are written. -/
def Meaning.form : Meaning N → Text
  | number n => write n
  | text content => content

/-- Two numbers are added, everything else is joined as text. -/
def Meaning.plus : Meaning N → Meaning N → Meaning N
  | number m, number n => number (m + n)
  | first, second => text (first.form write ++ second.form write)

/-- The total of some meanings, from left to right. There is none if there are no meanings. -/
def Meaning.total : List (Meaning N) → Option (Meaning N)
  | [] => none
  | first :: others => some (others.foldl (Meaning.plus write) first)

/-- What a term comes to as it is written: a literal to the text that is read in it, and an expression
to what its path from the root does. A literal that cannot be read, or has more behind it, comes to
nothing. -/
def meaning? (term : Term) : Option (Meaning N) :=
  match term with
  | literal _ =>
    match readLiteral? (term.markup root) with
    | some (quoted, []) => some (.text quoted)
    | _ => none
  | path _ => some (valuation (term.markup root))

/-- What some terms come to as they are written. -/
def evaluate (terms : List Term) : Option (Meaning N) :=
  (terms.mapM (meaning? valuation root)).bind (Meaning.total write)

/-- What a term is meant to come to. -/
def meaning : Term → Meaning N
  | literal content => .text content
  | path expression => valuation (root ++ '.' :: expression)

/-- The terms in a row, each as text. -/
def forms (terms : List Term) : Text :=
  terms.flatMap fun term => (term.meaning valuation root).form write

/-! ## Sums that are texts -/

/-- Whether a term is literal text. -/
def isLiteral : Term → Bool
  | literal _ => true
  | path _ => false

/-- A sum in which nothing is added: it has one term, or a literal among the first two. -/
def JoinsTexts : List Term → Prop
  | [] => False
  | [_] => True
  | first :: second :: _ => first.isLiteral || second.isLiteral

variable {write valuation root}

omit [Add N] in
/-- A term comes to what it is meant to: what is read in a literal is its text. -/
theorem meaning?_eq (term : Term) :
    term.meaning? valuation root = some (term.meaning valuation root) := by
  cases term with
  | literal content =>
    have hread := readLiteral?_quoteLiteral content []
    rw [List.append_nil] at hread
    simp only [meaning?, markup]
    rw [hread]
    rfl
  | path expression => rfl

theorem evaluate_eq (terms : List Term) :
    evaluate write valuation root terms =
      Meaning.total write (terms.map (meaning valuation root)) := by
  have hmeaning : terms.mapM (meaning? valuation root) =
      some (terms.map (meaning valuation root)) := by
    rw [funext meaning?_eq]
    exact List.mapM_pure
  rw [evaluate, hmeaning, Option.bind_some]

/-- To a text everything is joined as text. -/
theorem foldl_plus_text (meanings : List (Meaning N)) (content : Text) :
    meanings.foldl (Meaning.plus write) (.text content) =
      .text (content ++ meanings.flatMap (Meaning.form write)) := by
  induction meanings generalizing content with
  | nil => simp
  | cons meaning meanings ih =>
    have hplus : (Meaning.text content).plus write meaning =
        .text (content ++ meaning.form write) := by
      cases meaning <;> rfl
    rw [List.foldl_cons, hplus, ih, List.flatMap_cons, List.append_assoc]

/-- A literal makes a text of what stands beside it. -/
theorem plus_of_isLiteral {first second : Term} (h : (first.isLiteral || second.isLiteral) = true) :
    (first.meaning valuation root).plus write (second.meaning valuation root) =
      .text ((first.meaning valuation root).form write ++
        (second.meaning valuation root).form write) := by
  cases first with
  | literal content => rfl
  | path expression =>
    cases second with
    | literal content => cases (path expression).meaning valuation root <;> rfl
    | path other => cases h

/-- A sum in which nothing is added comes to its terms in a row. -/
theorem evaluate_of_joinsTexts {terms : List Term} (h : JoinsTexts terms) :
    ∃ total, evaluate write valuation root terms = some total ∧
      total.form write = forms write valuation root terms := by
  rw [evaluate_eq]
  match terms with
  | [] => exact h.elim
  | [term] => exact ⟨_, rfl, by simp [forms]⟩
  | first :: second :: terms =>
    refine ⟨_, rfl, ?_⟩
    rw [List.map_cons, List.foldl_cons, plus_of_isLiteral h, foldl_plus_text]
    simp [forms, Meaning.form, List.flatMap_map]

/-! ## The sum for a text with inserts -/

/-- Nothing is added in the sum for a text that has an expression. -/
theorem joinsTexts_ofParts {parts : List Text} (h : 1 < parts.length) :
    JoinsTexts (ofParts parts) := by
  obtain ⟨before, expression, parts, rfl⟩ : ∃ before expression rest,
      parts = before :: expression :: rest := by
    match parts with
    | before :: expression :: rest => exact ⟨before, expression, rest, rfl⟩
  unfold ofParts
  generalize hcount : (before :: expression :: parts).length = count
  by_cases hbefore : before = []
  · cases parts with
    | nil => simp [ofPartsFrom, hbefore, JoinsTexts]
    | cons after parts =>
      by_cases hafter : after = []
      · -- The empty literal behind the first expression is kept if another expression follows.
        cases parts with
        | nil =>
          obtain rfl : count = 3 := hcount.symm
          simp [ofPartsFrom, hbefore, hafter, JoinsTexts]
        | cons second parts =>
          have hmore : 3 < count := by
            rw [← hcount]
            simp
          simp [ofPartsFrom, hbefore, hafter, hmore, JoinsTexts, isLiteral]
      · simp [ofPartsFrom, hbefore, hafter, JoinsTexts, isLiteral]
  · simp [ofPartsFrom, hbefore, JoinsTexts, isLiteral]

end Term

namespace Synthesis

open Term (Meaning evaluate forms)

/-- The parts from the given index on, each expression written in some way. -/
def pieces (write : Text → Text) : Nat → List Text → List Text
  | _, [] => []
  | index, part :: parts =>
    (if index % 2 = 1 then write part else part) :: pieces write (index + 1) parts

/-- The content that replaces a text has template inserts in place of its expressions. -/
theorem contentFrom_eq_pieces (template : Delimiters) (index : Nat) (parts : List Text) :
    contentFrom template index parts = (pieces template.wrap index parts).flatten := by
  induction parts generalizing index with
  | nil => rfl
  | cons part parts ih => rw [contentFrom, pieces, List.flatten_cons, ih]

variable {N : Type}

/-- The terms in a row are the parts with the values in place of the expressions: the literals that
are left out are empty. -/
theorem forms_ofPartsFrom (write : N → Text) (valuation : Text → Meaning N) (root : Text)
    (count index : Nat) (parts : List Text) :
    forms write valuation root (Term.ofPartsFrom count index parts) =
      (pieces (fun expression => (valuation (root ++ '.' :: expression)).form write) index
        parts).flatten := by
  induction parts generalizing index with
  | nil => rfl
  | cons part parts ih =>
    rw [Term.ofPartsFrom, pieces, List.flatten_cons, ← ih]
    by_cases hindex : index % 2 = 1
    · rw [if_pos hindex, if_pos hindex]
      rfl
    · rw [if_neg hindex, if_neg hindex]
      by_cases hpart : part = []
      · rw [if_neg (not_not_intro hpart), hpart]
        split <;> rfl
      · rw [if_pos hpart]
        rfl

/-- **The expression means the rewritten text.** The expression for a text with expressions is written
as terms with plus signs between them. Its terms, as they are written, have a total, and as text the
total is the content that replaces the text, with the value of each expression in place of its
template insert. -/
theorem evaluate_ofParts [Add N] (write : N → Text) (valuation : Text → Meaning N)
    (template : Delimiters) (root : Text) {parts : List Text} (h : 1 < parts.length) :
    (ofParts template root parts).expression =
        protectMarks (['+'].intercalate ((Term.ofParts parts).map (Term.markup root))) ∧
      (ofParts template root parts).content = (pieces template.wrap 0 parts).flatten ∧
      ∃ total, evaluate write valuation root (Term.ofParts parts) = some total ∧
        total.form write = (pieces (fun expression =>
          (valuation (root ++ '.' :: expression)).form write) 0 parts).flatten := by
  obtain ⟨total, htotal, hform⟩ := @Term.evaluate_of_joinsTexts N _ write valuation root _
    (Term.joinsTexts_ofParts h)
  have hpieces := forms_ofPartsFrom write valuation root parts.length 0 parts
  exact ⟨rfl, contentFrom_eq_pieces template 0 parts, total, htotal, hform.trans hpieces⟩

/-- The parts of a text in which two expressions stand side by side, and a third behind marks. -/
def threeExpressions : List Text := ["".toList, "a".toList, "".toList, "b".toList,
  "it's \"".toList, "c".toList, "".toList]

/-- Three numbers. -/
def threeNumbers (path : Text) : Meaning Nat :=
  .number (if path = "this.a".toList then 1 else if path = "this.b".toList then 20 else 300)

/-- The numbers side by side are not added, although the literals around them are empty, and the marks
come out as they were. -/
theorem evaluate_ofParts_threeNumbers :
    1 < threeExpressions.length ∧
      (ofParts ⟨"<%".toList, "%>".toList⟩ "this".toList threeExpressions).expression =
        "this.a+''+this.b+'it\\'s &quot;'+this.c".toList ∧
      (ofParts ⟨"<%".toList, "%>".toList⟩ "this".toList threeExpressions).content =
        "<%a%><%b%>it's \"<%c%>".toList ∧
      ∃ total, evaluate Text.ofNat threeNumbers "this".toList (Term.ofParts threeExpressions) =
        some total ∧ total.form Text.ofNat = "120it's \"300".toList := by
  have hlength : 1 < threeExpressions.length := by decide
  obtain ⟨hexpression, hcontent, total, htotal, hform⟩ := evaluate_ofParts Text.ofNat threeNumbers
    ⟨"<%".toList, "%>".toList⟩ "this".toList hlength
  exact ⟨hlength, hexpression.trans (by decide +kernel), hcontent.trans (by decide), total, htotal,
    hform.trans (by decide +kernel)⟩

end Synthesis
end MarkupBinding
