import MarkupBinding.Proofs.Token.Occurrences
import MarkupBinding.Proofs.Tree.NormalForm

/-!
# Words in written documents

Trees are written with signs of markup between their parts, so a word that has none of these signs
stands in their markup only where it stands in a name, a value or data. The name of an element is
written twice if it has an end tag. And as all of this was cut out of a text, a word stands in what is
written of the text at most as often as in the text itself, the names of elements apart, unless it lies
across the seam of two texts that the parser puts together.

* `Tree.seams`: where the parser puts texts together.
* `times_markupAll_le`: words in the markup of trees.
* `times_reprint_le`: words in a text that is parsed and written.
-/

namespace MarkupBinding

open Text (timesIn Crosses)

/-- How often a word stands in the name of an element. -/
def Content.nameTimes (word : Text) : Content → Nat
  | .element name _ _ => timesIn word name
  | _ => 0

theorem Content.nameTimes_le (word : Text) (label : Content) :
    label.nameTimes word ≤ label.times word := by
  cases label with
  | element name attrs children => exact Nat.le_add_right _ _
  | data kind content => exact Nat.zero_le _
  | bare token => exact Nat.le_refl 0

namespace Tree

/-- The signs that parsing and writing add to names, values and data. -/
def signs : Text := Scanner.signs ++ " =\"-".toList

/-- The texts that a parser puts together because it drops the end tag between them, each with what
it is put behind. -/
def seams (text : Text) (sections : Bool := false) : List (Text × Text) :=
  Scanner.Config.seams sections ⟨.data, [], text⟩ ++ Builder.seams {} (Scanner.tokens text sections)

mutual

/-- The names of the elements in a tree. -/
def elementNames : Tree → List Text
  | .data _ _ => []
  | .element name _ children => name :: elementNamesAll children

def elementNamesAll : List Tree → List Text
  | [] => []
  | tree :: trees => elementNames tree ++ elementNamesAll trees

end

/-! ## Sums over names -/

section

variable {value other : Content → Nat}

mutual

theorem sum_le_sum (h : ∀ label, value label ≤ other label) :
    ∀ tree : Tree, tree.sum value ≤ tree.sum other
  | .data _ _ => h _
  | .element _ _ children => Nat.add_le_add (h _) (sumAll_le_sumAll h children)

theorem sumAll_le_sumAll (h : ∀ label, value label ≤ other label) :
    ∀ trees : List Tree, sumAll value trees ≤ sumAll other trees
  | [] => Nat.le_refl 0
  | tree :: trees => Nat.add_le_add (sum_le_sum h tree) (sumAll_le_sumAll h trees)

end

end

variable {word : Text}

mutual

theorem sum_nameTimes_eq_zero : ∀ {tree : Tree}, (∀ name ∈ tree.elementNames, ¬ word <:+: name) →
    tree.sum (Content.nameTimes word) = 0
  | .data _ _, _ => rfl
  | .element name attrs children, h => by
    rw [elementNames, List.forall_mem_cons] at h
    rw [sum, sumAll_nameTimes_eq_zero h.2]
    exact Placeholder.timesIn_eq_zero h.1

/-- A word that is in no name of an element. -/
theorem sumAll_nameTimes_eq_zero : ∀ {trees : List Tree},
    (∀ name ∈ elementNamesAll trees, ¬ word <:+: name) → sumAll (Content.nameTimes word) trees = 0
  | [], _ => rfl
  | tree :: trees, h => by
    rw [elementNamesAll, List.forall_mem_append] at h
    rw [sumAll, sum_nameTimes_eq_zero h.1, sumAll_nameTimes_eq_zero h.2]

end

/-! ## Markup -/

/-- The markup of a node that is no text ends with a bracket. -/
theorem markup_eq_concat_bracket (xhtml : Bool) {tree : Tree} (h : tree.isText = false) :
    ∃ front, tree.markup xhtml = front ++ ['>'] := by
  cases tree with
  | data kind content =>
    cases kind with
    | text => cases h
    | comment => exact ⟨"<!--".toList ++ content ++ "--".toList, by simp [markup, DataKind.markup]⟩
    | cdata => exact ⟨_, rfl⟩
    | directive => exact ⟨_, rfl⟩
  | element name attrs children =>
    obtain ⟨closing, hclosing, hmarkup⟩ := markup_element xhtml name attrs children
    rw [hmarkup]
    cases hu : isUnclosed name children with
    | false =>
      exact ⟨startTagMarkup name attrs ++ closing ++ (markupAll xhtml children ++ ['<', '/'] ++ name),
        by simp [endTagMarkup]⟩
    | true =>
      have hnil : children = [] := by
        simp only [isUnclosed, Bool.and_eq_true, List.isEmpty_iff] at hu
        exact hu.1
      rw [hnil, markupAll]
      rcases hclosing with rfl | rfl
      · exact ⟨startTagMarkup name attrs, by simp⟩
      · exact ⟨startTagMarkup name attrs ++ " /".toList, by simp⟩

section

variable (hword : word ≠ []) (hsigns : Text.Holds (· ∉ word) signs)
include hword hsigns

/-- The name and the attributes of a start tag. -/
theorem times_startTag_le (name : Text) (attrs : Attributes) :
    timesIn word (startTagMarkup name attrs) ≤
      Content.times word (.element name attrs []) := by
  have hwritten : ∀ (attrs : Attributes) (front : Text),
      timesIn word (front ++ attrs.flatMap fun attr =>
        ' ' :: attr.1 ++ ['=', '"'] ++ attr.2 ++ ['"']) ≤
          timesIn word front + Attributes.times word attrs := by
    intro attrs
    induction attrs with
    | nil =>
      intro front
      rw [List.flatMap_nil, List.append_nil]
      exact Nat.le_add_right _ _
    | cons attr attrs ih =>
      intro front
      obtain ⟨key, value⟩ := attr
      have hrest := ih (front ++ (' ' :: key ++ ['=', '"'] ++ value ++ ['"']))
      have hspace := Text.timesIn_apart_le hword (List.cons_ne_nil ' ' [])
        (hsigns.sub (by decide)) front key
      have hsign := Text.timesIn_apart_le hword (List.cons_ne_nil '=' ['"'])
        (hsigns.sub (by decide)) (front ++ [' '] ++ key) value
      have hmark := Text.timesIn_append_le_of_notMem hword
        (hsigns.sub (by decide : ['"'] ⊆ signs)) (front ++ [' '] ++ key ++ ['=', '"'] ++ value)
      have hsame : front ++ (' ' :: key ++ ['=', '"'] ++ value ++ ['"']) =
          front ++ [' '] ++ key ++ ['=', '"'] ++ value ++ ['"'] := by simp
      rw [hsame] at hrest
      rw [List.flatMap_cons, ← List.append_assoc]
      show timesIn word (front ++ (' ' :: key ++ ['=', '"'] ++ value ++ ['"']) ++ _) ≤ _
      rw [hsame]
      have htimes : Attributes.times word ((key, value) :: attrs) =
          timesIn word key + timesIn word value + Attributes.times word attrs := rfl
      omega
  rw [startTagMarkup, List.cons_append,
    Text.timesIn_cons_of_notMem hword (hsigns '<' (by decide))]
  exact hwritten attrs name

theorem times_data_le (kind : DataKind) (content : Text) :
    timesIn word (kind.markup content) ≤ timesIn word content := by
  have hboth : ∀ {front back : Text}, front ⊆ signs → back ⊆ signs →
      timesIn word (front ++ content ++ back) ≤ timesIn word content := by
    intro front back hfront hback
    refine Nat.le_trans (Text.timesIn_append_le_of_notMem hword (hsigns.sub hback) _) ?_
    rw [Text.timesIn_append_of_notMem hword (hsigns.sub hfront)]
  cases kind with
  | text => exact Nat.le_refl _
  | comment => exact hboth (by decide) (by decide)
  | cdata => exact @hboth ['<'] ['>'] (by decide) (by decide)
  | directive => exact @hboth ['<'] ['>'] (by decide) (by decide)

mutual

theorem times_markup_le : ∀ {tree : Tree}, ChainedBelow AreApart tree → ∀ xhtml : Bool,
    timesIn word (tree.markup xhtml) ≤
      tree.sum (Content.times word) + tree.sum (Content.nameTimes word)
  | .data kind content, _, xhtml => by
    exact Nat.le_add_right_of_le (times_data_le hword hsigns kind content)
  | .element name attrs children, h, xhtml => by
    obtain ⟨closing, hclosing, hmarkup⟩ := markup_element xhtml name attrs children
    have hchildren := times_markupAll_le h.1 h.2 xhtml
    have hstart := times_startTag_le hword hsigns name attrs
    have hend : timesIn word (markupAll xhtml children ++
        if isUnclosed name children then [] else endTagMarkup name) ≤
          timesIn word (markupAll xhtml children) + timesIn word name := by
      split
      · rw [List.append_nil]
        exact Nat.le_add_right _ _
      · have hapart := Text.timesIn_apart_le hword (List.cons_ne_nil '<' ['/'])
          (hsigns.sub (by decide)) (markupAll xhtml children) (name ++ ['>'])
        have hname := Text.timesIn_append_le_of_notMem hword
          (hsigns.sub (by decide : ['>'] ⊆ signs)) name
        rw [endTagMarkup, List.append_assoc ['<', '/'], ← List.append_assoc]
        omega
    have hsignsOf : closing ≠ [] ∧ closing ⊆ signs := by
      rcases hclosing with rfl | rfl <;> decide
    have hparts := Text.timesIn_apart_le hword hsignsOf.1 (hsigns.sub hsignsOf.2)
      (startTagMarkup name attrs)
      (markupAll xhtml children ++ if isUnclosed name children then [] else endTagMarkup name)
    rw [hmarkup, sum, sum]
    have hlabel : Content.nameTimes word (.element name attrs []) = timesIn word name := rfl
    omega

/-- Words in the markup of trees. -/
theorem times_markupAll_le : ∀ {trees : List Tree}, TextsApart trees →
    AllChainedBelow AreApart trees → ∀ xhtml : Bool,
      timesIn word (markupAll xhtml trees) ≤
        sumAll (Content.times word) trees + sumAll (Content.nameTimes word) trees
  | [], _, _, _ => by
    rw [markupAll, Text.timesIn_nil hword]
    exact Nat.zero_le _
  | tree :: trees, hapart, hbelow, xhtml => by
    obtain ⟨hnext, hrest⟩ := List.isChain_cons.1 hapart
    have htree := times_markup_le hbelow.1 xhtml
    have htrees := times_markupAll_le hrest hbelow.2 xhtml
    have hseam : ¬ Crosses word (tree.markup xhtml) (markupAll xhtml trees) := by
      cases htext : tree.isText with
      | false =>
        obtain ⟨front, hfront⟩ := markup_eq_concat_bracket xhtml htext
        rw [hfront]
        exact Text.not_crosses_of_left (hsigns '>' (by decide))
      | true =>
        cases trees with
        | nil => exact Text.not_crosses_nil
        | cons next trees =>
          have hother : next.isText = false :=
            Bool.eq_false_iff.2 fun hnexttext => hnext next rfl ⟨htext, hnexttext⟩
          obtain ⟨rest, hrest⟩ := markup_eq_bracket xhtml hother
          rw [markupAll, hrest]
          exact Text.not_crosses_of_right (hsigns '<' (by decide))
    have hboth := Text.timesIn_append_le hword hseam
    rw [markupAll, sumAll, sumAll]
    omega

end

/-! ## Parsed texts -/

variable {text : Text} {xhtml sections : Bool}
  (hseams : ∀ seam ∈ seams text sections, ¬ Crosses word seam.1 seam.2)
include hseams

/-- The nodes of a text have a word at most as often as the text. -/
theorem times_parse_le :
    sumAll (Content.times word) (parse text false sections) ≤ timesIn word text := by
  obtain ⟨hscanned, hbuilt⟩ := List.forall_mem_append.1 hseams
  have hcollapses : Builder.Collapses (Content.times word) { collapses := false } := nofun
  have hmerges : ∀ seam ∈ Builder.seams {} (Scanner.tokens text sections),
      Builder.Merges (Content.times word) seam :=
    fun seam hseam => Text.timesIn_append_le hword (hbuilt seam hseam)
  have htokens := Scanner.timesAll_tokens_le hword (hsigns.sub (List.subset_append_left _ _)) hscanned
  exact Nat.le_trans (sumAll_parse_le hcollapses hmerges) htokens

/-- **Words in written texts.** A text that is parsed and written has a word at most as often as
before, and once more for each time the name of an element has it. -/
theorem times_reprint_le :
    timesIn word (reprint xhtml sections text) ≤
      timesIn word text + sumAll (Content.nameTimes word) (parse text false sections) := by
  obtain ⟨hapart, hbelow⟩ := apart_parse text false sections
  have hwritten := times_markupAll_le hword hsigns hapart hbelow xhtml
  have hparsed := times_parse_le hword hsigns hseams
  rw [reprint]
  omega

end

end Tree
end MarkupBinding
