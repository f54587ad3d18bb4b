import MarkupBinding.Proofs.Token.Shape
import MarkupBinding.Proofs.Tree.Labels
import MarkupBinding.Proofs.Tree.Nested

/-!
# Written markup as a normal form

Markup that was parsed and written again need not stay the same when that is done once more, for names,
values and data are written as they are held. It does if no piece of it can be taken for something
else. The shape of the tokens and the nesting of the elements see to the rest: what is parsed has names
that are names, no empty text, no two texts side by side, and no element inside of one that it ends.

A script that was cut off by a look-alike of its end tag may hold elements. What is written between its
tags is read as one text the second time, so the trees are compared in that form (`rawForm`), in which
they have the same markup.

* `Settled`: nodes of which no piece can be taken for something else.
* `written_rawForm`: parsed nodes that are settled are read back from their markup.
* `reprint_reprint`: so their markup stays the same.
-/

namespace MarkupBinding

/-! ## What is parsed -/

/-- What a node of a parsed document is. -/
def Content.Formed (sections : Bool) : Content → Prop
  | .element name attrs _ =>
    Scanner.IsTagName name ∧ Scanner.NamesFormed attrs ∧ attrs.names.Nodup
  | .data .text content => content ≠ []
  | .data .comment _ => True
  | .data .cdata content => sections = true ∧ Scanner.Config.IsContent .cdata content
  | .data .directive content => Scanner.Config.IsContent .directive content
  | .bare _ => True

theorem Text.collapse_ne_nil {text : Text} (h : text ≠ []) : text.collapse ≠ [] := by
  obtain ⟨c, text, rfl⟩ := List.exists_cons_of_ne_nil h
  unfold Text.collapse Text.collapseAfter
  split <;> simp

/-- The nodes of a parsed document are what tokens are. -/
theorem Tree.formed_parse (text : Text) (collapses sections : Bool) :
    Tree.LabelledAll (Content.Formed sections) (Tree.parse text collapses sections) := by
  refine Tree.labelled_parse (.of_collapse (fun first second hfirst _ => ?_)
    (fun content hcontent => Text.collapse_ne_nil hcontent) collapses) fun token htoken => ?_
  · exact fun h => hfirst (List.append_eq_nil_iff.1 h).1
  have hformed := Scanner.formed_tokens text sections token htoken
  cases token with
  | startTag name attrs => exact ⟨hformed.1, hformed.2.names, hformed.2.distinct⟩
  | endTag name attrs => exact ⟨hformed.1, List.forall_mem_nil _, List.nodup_nil⟩
  | data kind content =>
    cases kind with
    | comment => trivial
    | _ => exact hformed
  | endOfInput => trivial

namespace Tree

/-! ## Raw text in one piece -/

mutual

/-- A tree in which all that is written between the tags of a raw text element is one text. -/
def rawForm (xhtml : Bool) : Tree → Tree
  | .data kind content => .data kind content
  | .element name attrs children =>
    .element name attrs
      (if Element.isRawText name then someText (markupAll xhtml children)
        else rawFormAll xhtml children)

def rawFormAll (xhtml : Bool) : List Tree → List Tree
  | [] => []
  | tree :: trees => rawForm xhtml tree :: rawFormAll xhtml trees

end

theorem rawFormAll_eq_map (xhtml : Bool) (trees : List Tree) :
    rawFormAll xhtml trees = trees.map (rawForm xhtml) := by
  induction trees with
  | nil => rfl
  | cons tree trees ih => rw [rawFormAll, List.map_cons, ih]

@[simp] theorem isText_rawForm (xhtml : Bool) (tree : Tree) :
    (rawForm xhtml tree).isText = tree.isText := by
  cases tree <;> rfl

@[simp] theorem loweredName_rawForm (xhtml : Bool) (tree : Tree) :
    (rawForm xhtml tree).loweredName = tree.loweredName := by
  cases tree <;> rfl

/-- The markup of an element that gets an end tag. -/
theorem markup_of_isUnclosed_eq_false {name : Text} {children : List Tree}
    (h : isUnclosed name children = false) (xhtml : Bool) (attrs : Attributes) :
    markup xhtml (.element name attrs children) =
      startTagMarkup name attrs ++ '>' :: (markupAll xhtml children ++ endTagMarkup name) := by
  cases children with
  | cons child children => simp [markup, markupAll]
  | nil =>
    have hname : Element.unclosedNames.contains name = false := by simpa [isUnclosed] using h
    simp only [markup, markupAll, emptyClosing, hname]
    simp

mutual

/-- In one piece or not, the markup is the same. -/
theorem markup_rawForm (xhtml : Bool) :
    ∀ tree : Tree, markup xhtml (rawForm xhtml tree) = markup xhtml tree
  | .data kind content => rfl
  | .element name attrs children => by
    rw [rawForm]
    by_cases hraw : Element.isRawText name = true
    · rw [if_pos hraw, markup_of_isUnclosed_eq_false (isUnclosed_of_isRawText hraw _),
        markup_of_isUnclosed_eq_false (isUnclosed_of_isRawText hraw _), markupAll_someText]
    · rw [if_neg hraw]
      cases children with
      | nil => rfl
      | cons child children =>
        rw [markup_of_isUnclosed_eq_false rfl, markup_of_isUnclosed_eq_false rfl,
          markupAll_rawFormAll xhtml (child :: children)]

theorem markupAll_rawFormAll (xhtml : Bool) :
    ∀ trees : List Tree, markupAll xhtml (rawFormAll xhtml trees) = markupAll xhtml trees
  | [] => rfl
  | tree :: trees => by
    rw [rawFormAll, markupAll, markupAll, markup_rawForm xhtml tree, markupAll_rawFormAll xhtml trees]

end

/-! ## Settled nodes -/

mutual

/-- No piece of the markup can be taken for something else: text opens no markup, a comment does not
close itself, attribute values hold no double mark, a line break is spelled in small letters, other
elements that are written without an end tag when they are empty are void, and what is written inside
of a script or a style element holds no end tag of it. -/
def Settled (xhtml : Bool) : Tree → Prop
  | .data .text content => Scanner.IsPlain content
  | .data .comment content => ¬ "-->".toList <:+: content
  | .data _ _ => True
  | .element name attrs children =>
    (∀ attr ∈ attrs, Text.doubleMark ∉ attr.2) ∧
      (name.lowercase = "br".toList → name = "br".toList) ∧
      (children = [] → name ∈ Element.unclosedNames → Element.isVoid name.lowercase = true) ∧
      if Element.isRawText name then
        Scanner.Config.IsRawContent name (markupAll xhtml children)
      else SettledAll xhtml children

def SettledAll (xhtml : Bool) : List Tree → Prop
  | [] => True
  | tree :: trees => Settled xhtml tree ∧ SettledAll xhtml trees

end

mutual

def decideSettled (xhtml : Bool) : (tree : Tree) → Decidable (Settled xhtml tree)
  | .data .text content => inferInstanceAs (Decidable (Scanner.IsPlain content))
  | .data .comment content => inferInstanceAs (Decidable (¬ "-->".toList <:+: content))
  | .data .cdata _ | .data .directive _ => .isTrue trivial
  | .element name attrs children =>
    have : Decidable (children = []) := decidable_of_iff _ List.isEmpty_iff
    have := decideSettledAll xhtml children
    inferInstanceAs (Decidable ((∀ attr ∈ attrs, Text.doubleMark ∉ attr.2) ∧ _ ∧ _ ∧ if Element.isRawText name then
      Scanner.Config.IsRawContent name (markupAll xhtml children) else SettledAll xhtml children))

def decideSettledAll (xhtml : Bool) : (trees : List Tree) → Decidable (SettledAll xhtml trees)
  | [] => .isTrue trivial
  | tree :: trees =>
    have := decideSettled xhtml tree
    have := decideSettledAll xhtml trees
    inferInstanceAs (Decidable (Settled xhtml tree ∧ SettledAll xhtml trees))

end

instance (xhtml : Bool) (trees : List Tree) : Decidable (SettledAll xhtml trees) :=
  decideSettledAll xhtml trees

theorem textsApart_rawFormAll {xhtml : Bool} {trees : List Tree} (h : TextsApart trees) :
    TextsApart (rawFormAll xhtml trees) := by
  rw [rawFormAll_eq_map, TextsApart, List.isChain_map]
  refine h.imp fun before after hapart => ?_
  rw [AreApart, isText_rawForm, isText_rawForm]
  exact hapart

mutual

/-- Parsed nodes that are settled are read back from their markup. -/
theorem written_rawForm {sections xhtml : Bool} : ∀ {tree : Tree},
    Labelled (Content.Formed sections) tree → Nested tree → ChainedBelow AreApart tree →
    Settled xhtml tree → Written sections (rawForm xhtml tree)
  | .data kind content, hformed, _, _, hsettled => by
    rw [rawForm, Written]
    cases kind with
    | text => exact ⟨hformed, hsettled⟩
    | comment => exact hsettled
    | cdata => exact hformed
    | directive => exact hformed
  | .element name attrs children, hformed, hnested, hapart, hsettled => by
    obtain ⟨⟨hname, hnames, hdistinct⟩, hformed⟩ := hformed
    obtain ⟨hempty, hends, hnested⟩ := hnested
    obtain ⟨hapart, hbelow⟩ := hapart
    rw [Settled] at hsettled
    obtain ⟨hvalues, hbreak, hclosed, hinside⟩ := hsettled
    have hattrs : Scanner.AreAttributes attrs :=
      ⟨hdistinct, fun attr hattr => ⟨hnames attr hattr, hvalues attr hattr⟩⟩
    rw [rawForm, Written]
    by_cases hraw : Element.isRawText name = true
    · have hnotVoid : Element.isVoid name.lowercase = false := by
        have hnone : ∀ raw ∈ Element.rawTextNames, Element.isVoid raw = false := by decide
        exact hnone _ (List.contains_iff_mem.1 hraw)
      rw [if_pos hraw] at hinside
      rw [if_pos hraw, if_pos hraw]
      refine ⟨hname, hattrs, ⟨fun hvoid => ?_, fun _ hunclosed => ?_⟩, ?_⟩
      · rw [hnotVoid] at hvoid
        cases hvoid
      · have hclosing := isUnclosed_of_isRawText hraw []
        rw [isUnclosed, List.contains_iff_mem.2 hunclosed] at hclosing
        cases hclosing
      · unfold someText
        split
        · exact .inl rfl
        · next hne => exact .inr ⟨_, rfl, hne, hinside⟩
    · rw [if_neg hraw] at hinside
      rw [if_neg hraw, if_neg hraw]
      refine ⟨hname, hattrs, ⟨fun hvoid => ⟨?_, hbreak⟩, fun hnone hunclosed => ?_⟩,
        writtenAll_rawFormAll hformed hnested hbelow hinside, textsApart_rawFormAll hapart, ?_⟩
      · rw [hempty hvoid, rawFormAll]
      · rw [rawFormAll_eq_map, List.map_eq_nil_iff] at hnone
        exact hclosed hnone hunclosed
      · intro child hchild
        rw [rawFormAll_eq_map] at hchild
        obtain ⟨before, hbefore, rfl⟩ := List.mem_map.1 hchild
        rw [loweredName_rawForm]
        exact hends before hbefore

theorem writtenAll_rawFormAll {sections xhtml : Bool} : ∀ {trees : List Tree},
    LabelledAll (Content.Formed sections) trees → NestedAll trees →
    AllChainedBelow AreApart trees → SettledAll xhtml trees →
    WrittenAll sections (rawFormAll xhtml trees)
  | [], _, _, _, _ => trivial
  | tree :: trees, hformed, hnested, hapart, hsettled => by
    rw [SettledAll] at hsettled
    exact ⟨written_rawForm hformed.1 hnested.1 hapart.1 hsettled.1,
      writtenAll_rawFormAll hformed.2 hnested.2 hapart.2 hsettled.2⟩

end

/-- A text parsed and written again. -/
def reprint (xhtml sections : Bool) (text : Text) : Text :=
  markupAll xhtml (parse text false sections)

/-- Settled markup stays the same when it is parsed and written once more. -/
theorem reprint_reprint {xhtml sections : Bool} {text : Text}
    (h : SettledAll xhtml (parse text false sections)) :
    reprint xhtml sections (reprint xhtml sections text) = reprint xhtml sections text := by
  obtain ⟨hapart, hbelow⟩ := apart_parse text false sections
  have hwritten : WrittenAll sections (rawFormAll xhtml (parse text false sections)) :=
    writtenAll_rawFormAll (formed_parse text false sections) (nested_parse text false sections)
      hbelow h
  have hread := @parse_markupAll_of_written sections false _ hwritten
    (textsApart_rawFormAll hapart) (fun h => by cases h) xhtml
  rw [markupAll_rawFormAll] at hread
  rw [reprint, reprint, hread, markupAll_rawFormAll]

/-- A page that is not written as it stands: elements that are never closed, an attribute without
marks, and a script that goes on behind a look-alike of its end tag. -/
def loosePage : Text :=
  "<P CLASS=a>1 < 2<br>x<p><IMG src=b><!--c--><script>a<b</ſcript>d<i>e</i></script>".toList

theorem reprint_loosePage : SettledAll true (parse loosePage) ∧
    reprint true false (reprint true false loosePage) = reprint true false loosePage := by
  have hsettled : SettledAll true (parse loosePage) := by decide +kernel
  exact ⟨hsettled, reprint_reprint hsettled⟩

/-- A value that holds a double mark is written with the mark, which ends the value the second
time. -/
def markedValue : Text := "<a b='\"'>".toList

theorem reprint_markedValue_changes :
    reprint false false (reprint false false markedValue) ≠ reprint false false markedValue ∧
      reprint true false (reprint true false markedValue) ≠ reprint true false markedValue := by
  decide +kernel

end Tree
end MarkupBinding
