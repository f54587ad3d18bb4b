import MarkupBinding.Proofs.Text.Lowercase
import MarkupBinding.Proofs.Token.Reading
import MarkupBinding.Proofs.Tree.Weight

/-!
# Reading written trees

Markup is written without escapes, so a tree is read back from its markup only if no piece of it can
be taken for something else, and if the builder nests the elements as they stand. Text may hold angle
brackets that open no markup; the one right before the next tag does not, for a bracket opens none.

* `Written`: a tree that is read back, with or without marked sections being recognized.
* `run_markupAll`: the scanner turns the markup of such trees into their tokens.
* `absorbAll_tokensAll`: the builder turns the tokens into the trees.
* `parse_markupAll_of_written`: both together.
-/

namespace MarkupBinding

namespace Tree

/-- The name of a node in lower case; only elements have one. -/
def loweredName : Tree → Text
  | .element name _ _ => name.lowercase
  | .data _ _ => []

/-- The tags of an element are read as what they are. Void elements have no children, and the end
tag of a line break, which only another spelling of its name gets, would be read as one more. Other
elements that are written without an end tag when they are empty would stay open. -/
def ClosesAsWritten (name : Text) (children : List Tree) : Prop :=
  (Element.isVoid name.lowercase = true →
    children = [] ∧ (name.lowercase = "br".toList → name = "br".toList)) ∧
  (children = [] → name ∈ Element.unclosedNames → Element.isVoid name.lowercase = true)

/-- At most one text, which does not hold the end tag of the element around it. -/
def HoldsRawText (name : Text) (children : List Tree) : Prop :=
  children = [] ∨ ∃ content, children = [.text content] ∧ content ≠ [] ∧
    Scanner.Config.IsRawContent name content

/-- Character data that are read back as one node of their kind. -/
def IsKept (sections : Bool) : DataKind → Text → Prop
  | .text, content => content ≠ [] ∧ Scanner.IsPlain content
  | .cdata, content => sections = true ∧ Scanner.Config.IsContent .cdata content
  | kind, content => Scanner.Config.IsContent kind content

section

variable (sections : Bool)

mutual

/-- A tree that is read back from its own markup. -/
def Written : Tree → Prop
  | .data kind content => IsKept sections kind content
  | .element name attrs children =>
    Scanner.IsTagName name ∧ Scanner.AreAttributes attrs ∧ ClosesAsWritten name children ∧
      if Element.isRawText name then HoldsRawText name children
      else WrittenAll children ∧ TextsApart children ∧
        ∀ child ∈ children, Element.startEnds name.lowercase child.loweredName = false

/-- Trees that are read back from their own markup, each by itself. -/
def WrittenAll : List Tree → Prop
  | [] => True
  | tree :: trees => Written tree ∧ WrittenAll trees

end

end

theorem writtenAll_append {sections : Bool} {first second : List Tree} :
    WrittenAll sections (first ++ second) ↔
      WrittenAll sections first ∧ WrittenAll sections second := by
  induction first with
  | nil => simp [WrittenAll]
  | cons tree first ih => simp [WrittenAll, ih, and_assoc]

/-- Text as the only node, or no node if it is empty. -/
def someText (content : Text) : List Tree := if content = [] then [] else [.text content]

theorem markupAll_someText (xhtml : Bool) (content : Text) :
    markupAll xhtml (someText content) = content := by
  unfold someText
  split
  · next h => rw [h, markupAll]
  · rw [markupAll, markupAll, markup, List.append_nil, DataKind.markup]

theorem markupAll_append (xhtml : Bool) (first second : List Tree) :
    markupAll xhtml (first ++ second) = markupAll xhtml first ++ markupAll xhtml second := by
  induction first with
  | nil => rfl
  | cons tree first ih => rw [List.cons_append, markupAll, markupAll, ih, List.append_assoc]

/-- Whether an element is written without an end tag. -/
def isUnclosed (name : Text) (children : List Tree) : Bool :=
  children.isEmpty && Element.unclosedNames.contains name

mutual

/-- The tokens of a tree. -/
def tokens : Tree → List Token
  | .data kind content => [.data kind content]
  | .element name attrs children =>
    .startTag name attrs :: tokensAll children ++
      if isUnclosed name children then [] else [.endTag name []]

/-- The tokens of trees one after another. -/
def tokensAll : List Tree → List Token
  | [] => []
  | tree :: trees => tokens tree ++ tokensAll trees

end

/-! ## From markup to tokens -/

/-- The markup of an element is its start tag, its children and its end tag if it gets one. -/
theorem markup_element (xhtml : Bool) (name : Text) (attrs : Attributes) (children : List Tree) :
    ∃ closing, Scanner.Config.IsClosing closing ∧
      markup xhtml (.element name attrs children) =
        startTagMarkup name attrs ++ closing ++ (markupAll xhtml children ++
          if isUnclosed name children then [] else endTagMarkup name) := by
  cases children with
  | cons child children =>
    refine ⟨['>'], .inl rfl, ?_⟩
    simp [markup, markupAll, isUnclosed]
  | nil =>
    by_cases hname : Element.unclosedNames.contains name = true
    · cases xhtml with
      | false =>
        refine ⟨['>'], .inl rfl, ?_⟩
        simp only [markup, markupAll, emptyClosing, isUnclosed, hname]
        simp
      | true =>
        refine ⟨" />".toList, .inr rfl, ?_⟩
        simp only [markup, markupAll, emptyClosing, isUnclosed, hname]
        simp
    · refine ⟨['>'], .inl rfl, ?_⟩
      simp only [markup, markupAll, emptyClosing, isUnclosed, hname]
      simp

/-- The name of a raw text element has no angle bracket in it. -/
theorem bracket_notMem_of_isRawText {name : Text} (h : Element.isRawText name = true) :
    '<' ∉ name := by
  intro hmem
  have hlower := Text.mem_lowercase (by decide : Text.IsSmall '<') hmem
  have hraw : name.lowercase ∈ Element.rawTextNames := List.contains_iff_mem.1 h
  have hnone : ∀ raw ∈ Element.rawTextNames, '<' ∉ raw := by decide
  exact hnone _ hraw hlower

/-- Raw text elements are written with an end tag, empty or not. -/
theorem isUnclosed_of_isRawText {name : Text} (h : Element.isRawText name = true)
    (children : List Tree) : isUnclosed name children = false := by
  have hnone : ∀ unclosed ∈ Element.unclosedNames, Element.isRawText unclosed = false := by decide
  refine Bool.eq_false_iff.2 fun hunclosed => ?_
  simp only [isUnclosed, Bool.and_eq_true] at hunclosed
  rw [hnone _ (List.contains_iff_mem.1 hunclosed.2)] at h
  cases h

open Scanner.Config in
/-- The start tag, the raw text and the end tag of a raw text element. -/
theorem run_rawElement {name : Text} {attrs : Attributes} {children : List Tree}
    (hname : Scanner.IsTagName name) (hattrs : Scanner.AreAttributes attrs)
    (hraw : Element.isRawText name = true) (hchildren : HoldsRawText name children)
    (sections xhtml : Bool) (pending rest : Text) :
    run sections ⟨.data, pending, markup xhtml (.element name attrs children) ++ rest⟩ =
      Scanner.flush pending ++ tokens (.element name attrs children) ++
        run sections ⟨.data, [], rest⟩ := by
  obtain ⟨closing, hclosing, hmarkup⟩ := markup_element xhtml name attrs children
  have hend := isUnclosed_of_isRawText hraw children
  have hmode : modeAfter ⟨.opening, name, attrs⟩ = .rawText name := by simp [modeAfter, hraw]
  have hbracket := bracket_notMem_of_isRawText hraw
  rw [hmarkup, hend, if_neg Bool.false_ne_true, List.append_assoc,
    run_startTag hname hattrs hclosing, hmode, tokens, hend, if_neg Bool.false_ne_true]
  rcases hchildren with rfl | ⟨content, rfl, hne, hcontent⟩
  · have hread := @run_rawText sections name [] hname hbracket (fun before after h => by simp at h) rest
    rw [markupAll, hread]
    simp [Scanner.flush, tokensAll]
  · have hread := @run_rawText sections name content hname hbracket hcontent rest
    rw [markupAll, markupAll, markup, List.append_nil, DataKind.markup, hread]
    simp [Scanner.flush, tokensAll, tokens, hne]

/-- The markup of a node that is no text begins with a bracket. -/
theorem markup_eq_bracket (xhtml : Bool) {tree : Tree} (h : tree.isText = false) :
    ∃ rest, tree.markup xhtml = '<' :: rest := by
  cases tree with
  | element name attrs children =>
    obtain ⟨closing, _, hmarkup⟩ := markup_element xhtml name attrs children
    rw [hmarkup]
    exact ⟨_, rfl⟩
  | data kind content =>
    cases kind with
    | text => cases h
    | comment => exact ⟨_, rfl⟩
    | cdata => exact ⟨_, rfl⟩
    | directive => exact ⟨_, rfl⟩

open Scanner.Config in
/-- Character data other than text are one token. -/
theorem run_kept {sections : Bool} {kind : DataKind} {content : Text} (hkind : kind ≠ .text)
    (h : IsKept sections kind content) (pending rest : Text) :
    run sections ⟨.data, pending, kind.markup content ++ rest⟩ =
      Scanner.flush pending ++ .data kind content :: run sections ⟨.data, [], rest⟩ := by
  cases kind with
  | text => exact absurd rfl hkind
  | comment => exact run_comment h pending rest
  | cdata =>
    obtain ⟨rfl, hcontent⟩ := h
    exact run_data hkind hcontent pending rest
  | directive => exact run_directive h pending rest

open Scanner.Config in
mutual

/-- The markup of a node that is no text is read as its tokens. -/
theorem run_markup {sections : Bool} : ∀ {tree : Tree}, Written sections tree →
    tree.isText = false → ∀ (xhtml : Bool) (pending rest : Text),
      run sections ⟨.data, pending, tree.markup xhtml ++ rest⟩ =
        Scanner.flush pending ++ tree.tokens ++ run sections ⟨.data, [], rest⟩
  | .data kind content, h, htext, xhtml, pending, rest => by
    have hkind : kind ≠ .text := by
      rintro rfl
      cases htext
    rw [Written] at h
    rw [markup, run_kept hkind h, tokens, List.append_assoc]
    rfl
  | .element name attrs children, h, _, xhtml, pending, rest => by
    rw [Written] at h
    obtain ⟨hname, hattrs, hclose, hcontent⟩ := h
    by_cases hraw : Element.isRawText name = true
    · rw [if_pos hraw] at hcontent
      exact run_rawElement hname hattrs hraw hcontent sections xhtml pending rest
    · rw [if_neg hraw] at hcontent
      obtain ⟨hchildren, hapart, _⟩ := hcontent
      obtain ⟨closing, hclosing, hmarkup⟩ := markup_element xhtml name attrs children
      have hmode : modeAfter ⟨.opening, name, attrs⟩ = .data := by simp [modeAfter, hraw]
      rw [hmarkup, List.append_assoc, run_startTag hname hattrs hclosing, hmode, tokens,
        List.append_assoc]
      cases hu : isUnclosed name children with
      | true =>
        have hnil : children = [] := by
          simp only [isUnclosed, Bool.and_eq_true, List.isEmpty_iff] at hu
          exact hu.1
        subst hnil
        simp [markupAll, tokensAll]
      | false =>
        obtain ⟨read, waiting, hrun, hread⟩ := run_markupAll hchildren hapart xhtml []
          (endTagMarkup name ++ rest) (fun c hc => by cases hc; decide) (fun h => absurd rfl h)
        rw [if_neg Bool.false_ne_true, if_neg Bool.false_ne_true, List.append_assoc, hrun,
          run_endTag hname, ← List.append_assoc read, hread]
        simp [Scanner.flush]

/-- The markup of trees is read as their tokens. The last text may still wait to be given out. -/
theorem run_markupAll {sections : Bool} : ∀ {trees : List Tree}, WrittenAll sections trees →
    TextsApart trees → ∀ (xhtml : Bool) (pending rest : Text),
      (∀ c ∈ rest.head?, Scanner.opensMarkup c = false) →
      (pending ≠ [] → ∀ tree ∈ trees.head?, tree.isText = false) →
      ∃ (read : List Token) (waiting : Text),
        run sections ⟨.data, pending, markupAll xhtml trees ++ rest⟩ =
          read ++ run sections ⟨.data, waiting, rest⟩ ∧
        read ++ Scanner.flush waiting = Scanner.flush pending ++ tokensAll trees
  | [], _, _, xhtml, pending, rest, _, _ => by
    refine ⟨[], pending, rfl, ?_⟩
    rw [tokensAll, List.append_nil]
    rfl
  | tree :: trees, h, hapart, xhtml, pending, rest, hfollows, hpending => by
    rw [WrittenAll] at h
    obtain ⟨htree, htrees⟩ := h
    obtain ⟨hnext, hrest⟩ := List.isChain_cons.1 hapart
    rw [markupAll, tokensAll, List.append_assoc]
    cases htext : tree.isText with
    | false =>
      rw [run_markup htree htext xhtml pending]
      obtain ⟨read, waiting, hrun, hread⟩ :=
        run_markupAll htrees hrest xhtml [] rest hfollows (fun h => absurd rfl h)
      refine ⟨Scanner.flush pending ++ tree.tokens ++ read, waiting, ?_, ?_⟩
      · rw [hrun, List.append_assoc, List.append_assoc, List.append_assoc]
      · rw [List.append_assoc, hread, List.append_assoc]
        rfl
    | true =>
      -- Nothing waits before a text, and the node behind it is none, so the text waits alone.
      match tree, htext with
      | .data .text content, _ =>
        have hwaits : pending = [] := by
          by_contra hne
          have hnot := hpending hne _ rfl
          cases hnot
        subst hwaits
        have hothers : ∀ next ∈ trees.head?, next.isText = false := by
          intro next hmem
          exact Bool.eq_false_iff.2 fun hnexttext => hnext next hmem ⟨rfl, hnexttext⟩
        have hbracket : ∀ c ∈ (markupAll xhtml trees ++ rest).head?,
            Scanner.opensMarkup c = false := by
          cases trees with
          | nil => exact hfollows
          | cons next trees =>
            obtain ⟨inside, hinside⟩ := markup_eq_bracket xhtml (hothers next rfl)
            rw [markupAll, hinside]
            intro c hc
            cases hc
            decide
        rw [Written] at htree
        rw [markup, DataKind.markup, run_plain htree.2 hbracket, List.nil_append]
        obtain ⟨read, waiting, hrun, hread⟩ :=
          run_markupAll htrees hrest xhtml content rest hfollows fun _ => hothers
        refine ⟨read, waiting, hrun, ?_⟩
        rw [hread]
        simp [Scanner.flush, tokens, htree.1]

end

/-- The markup of trees is scanned as their tokens and the end of the input. -/
theorem tokens_markupAll {sections : Bool} {trees : List Tree} (h : WrittenAll sections trees)
    (hapart : TextsApart trees) (xhtml : Bool) :
    Scanner.tokens (markupAll xhtml trees) sections = tokensAll trees ++ [.endOfInput] := by
  obtain ⟨read, waiting, hrun, hread⟩ := run_markupAll h hapart xhtml [] []
    (fun c hc => by cases hc) (fun h => absurd rfl h)
  rw [List.append_nil] at hrun
  rw [Scanner.tokens, hrun, Scanner.Config.run_data_nil, ← List.append_assoc, hread]
  rfl

end Tree

/-! ## From tokens to trees -/

namespace Builder

/-- The name of the innermost open element in lower case. -/
def innermost (b : Builder) : Option Text := b.opened.head?.map (·.name.lowercase)

@[simp] theorem innermost_withSiblings (b : Builder) (trees : List Tree) :
    (b.withSiblings trees).innermost = b.innermost := by
  obtain ⟨collapses, roots, opened⟩ := b
  cases opened <;> rfl

/-- A start tag of this name implies no end. -/
def EndsNone (b : Builder) (lowered : Text) : Prop :=
  ∀ name ∈ b.innermost, Element.startEnds name lowered = false

theorem closeImplied_eq_self {b : Builder} {lowered : Text} (h : b.EndsNone lowered) :
    b.closeImplied lowered = b := by
  obtain ⟨collapses, roots, opened⟩ := b
  cases opened with
  | nil => rfl
  | cons frame opened =>
    have hframe : Element.startEnds frame.name.lowercase lowered = false := h _ rfl
    rw [closeImplied, List.takeWhile_cons_of_neg (by simp [hframe])]
    rfl

/-- The end tag of the innermost open element closes it. -/
theorem endTag_innermost {name : Text} {attrs : Attributes} {children : List Tree} (b : Builder)
    (hvoid : Element.isVoid name.lowercase = false) :
    endTag { b with opened := ⟨name, attrs, children⟩ :: b.opened } name =
      b.insert (.element name attrs children.reverse) := by
  simp only [endTag, hvoid, List.findIdx?_cons, decide_true]
  rfl

/-- The tokens of an element add it, if those of its children add them to it. -/
theorem absorbAll_element {name : Text} {attrs : Attributes} {children : List Tree} {b : Builder}
    (hname : Scanner.IsTagName name) (hclose : Tree.ClosesAsWritten name children)
    (hends : b.EndsNone name.lowercase)
    (hchildren : ∀ inner : Builder, inner.siblings = [] → inner.innermost = some name.lowercase →
      inner.collapses = b.collapses →
      inner.absorbAll (Tree.tokensAll children) = inner.withSiblings children.reverse) :
    b.absorbAll (Tree.tokens (.element name attrs children)) =
      b.insert (.element name attrs children) := by
  have hstart : b.accept (.startTag name attrs) =
      if Element.isVoid name.lowercase then .ok (b.insert (.element name attrs []))
      else .ok { b with opened := { name, attrs } :: b.opened } := by
    rw [accept, startTag, closeImplied_eq_self hends, if_neg hname.ne_nil]
  rw [Tree.tokens, List.cons_append, absorbAll_cons, absorb, hstart]
  cases hvoid : Element.isVoid name.lowercase with
  | true =>
    obtain ⟨rfl, hbreak⟩ := hclose.1 hvoid
    -- An end tag of a void element is dropped; a line break spelled so has none.
    cases hu : Tree.isUnclosed name [] with
    | true => rfl
    | false =>
      have hnot : ¬ name.lowercase = "br".toList := by
        intro hlower
        rw [hbreak hlower] at hu
        revert hu
        decide
      rw [if_pos rfl, if_neg Bool.false_ne_true, Tree.tokensAll, List.nil_append, absorbAll_cons]
      show (b.insert (.element name attrs [])).endTag name = _
      rw [endTag, hvoid, if_pos rfl, if_neg hnot]
  | false =>
    have hu : Tree.isUnclosed name children = false := by
      cases hu : Tree.isUnclosed name children with
      | false => rfl
      | true =>
        simp only [Tree.isUnclosed, Bool.and_eq_true, List.isEmpty_iff] at hu
        rw [hclose.2 hu.1 (List.contains_iff_mem.1 hu.2)] at hvoid
        cases hvoid
    rw [if_neg Bool.false_ne_true, hu, if_neg Bool.false_ne_true, absorbAll_append]
    show absorb (absorbAll { b with opened := { name, attrs } :: b.opened }
      (Tree.tokensAll children)) (.endTag name []) = _
    rw [hchildren { b with opened := { name, attrs } :: b.opened } rfl rfl rfl]
    show endTag { b with opened := ⟨name, attrs, children.reverse⟩ :: b.opened } name = _
    rw [endTag_innermost b hvoid, List.reverse_reverse]

mutual

/-- The tokens of a tree add it, unless it is text right behind text. Where blanks are collapsed they
have to be so in the tree. -/
theorem absorbAll_tokens {sections : Bool} : ∀ {tree : Tree}, tree.Written sections →
    ∀ {b : Builder}, (b.collapses = true → tree.AllTexts fun content => content.collapse = content) →
    b.EndsNone tree.loweredName →
    (∀ last ∈ b.siblings.head?, ¬ (last.isText = true ∧ tree.isText = true)) →
    b.absorbAll tree.tokens = b.insert tree
  | .data kind content, _, b, hblanks, _, hlast => by
    rw [Tree.tokens]
    show b.absorb (.data kind content) = _
    cases kind with
    | text =>
      have hkept : b.kept content = content := by
        unfold kept
        split
        · next hcollapses => exact hblanks hcollapses
        · rfl
      show b.insertText content = _
      rw [insertText]
      split
      · next last before hs =>
        rw [hs] at hlast
        exact absurd ⟨rfl, rfl⟩ (hlast (.text last) rfl)
      · rw [hkept]
    | comment => rfl
    | cdata => rfl
    | directive => rfl
  | .element name attrs children, h, b, hblanks, hends, _ => by
    rw [Tree.Written] at h
    obtain ⟨hname, _, hclose, hcontent⟩ := h
    refine absorbAll_element hname hclose hends ?_
    intro inner hsiblings hinner hsame
    rw [← hsame] at hblanks
    by_cases hraw : Element.isRawText name = true
    · rw [if_pos hraw] at hcontent
      rcases hcontent with rfl | ⟨content, rfl, _⟩
      · have hsame := withSiblings_siblings inner
        rw [hsiblings] at hsame
        exact hsame.symm
      · have hkept : inner.kept content = content := by
          unfold kept
          split
          · next hcollapses => exact (hblanks hcollapses).1
          · rfl
        show inner.insertText content = _
        rw [insertText, hsiblings]
        show inner.insert (.text (inner.kept content)) = _
        rw [hkept, insert, hsiblings]
        rfl
    · rw [if_neg hraw] at hcontent
      obtain ⟨hchildren, hapart, hnone⟩ := hcontent
      rw [absorbAll_tokensAll hchildren hapart hblanks ?_ ?_, hsiblings, List.append_nil]
      · intro child hchild lowered hlowered
        rw [hinner] at hlowered
        cases hlowered
        exact hnone child hchild
      · rw [hsiblings]
        intro last hmem
        cases hmem

/-- The tokens of trees add them one after another. -/
theorem absorbAll_tokensAll {sections : Bool} : ∀ {trees : List Tree},
    Tree.WrittenAll sections trees → Tree.TextsApart trees → ∀ {b : Builder},
    (b.collapses = true → Tree.AllTextsAll (fun content => content.collapse = content) trees) →
    (∀ tree ∈ trees, b.EndsNone tree.loweredName) →
    (∀ last ∈ b.siblings.head?, ∀ tree ∈ trees.head?,
      ¬ (last.isText = true ∧ tree.isText = true)) →
    b.absorbAll (Tree.tokensAll trees) = b.withSiblings (trees.reverse ++ b.siblings)
  | [], _, _, b, _, _, _ => by
    rw [List.reverse_nil, List.nil_append, withSiblings_siblings]
    rfl
  | tree :: trees, h, hapart, b, hblanks, hends, hlast => by
    rw [Tree.WrittenAll] at h
    obtain ⟨hnext, hrest⟩ := List.isChain_cons.1 hapart
    rw [Tree.tokensAll, absorbAll_append,
      absorbAll_tokens h.1 (fun hcollapses => (hblanks hcollapses).1)
        (hends tree List.mem_cons_self) (fun last hmem => hlast last hmem tree rfl),
      insert, absorbAll_tokensAll h.2 hrest ?_ ?_ ?_]
    · simp
    · rw [collapses_withSiblings]
      exact fun hcollapses => (hblanks hcollapses).2
    · intro next hmem name hname
      rw [innermost_withSiblings] at hname
      exact hends next (List.mem_cons_of_mem tree hmem) name hname
    · intro last hmem next hhead
      rw [siblings_withSiblings] at hmem
      cases hmem
      exact hnext next hhead

end

end Builder

/-- Written trees without adjacent texts are read back from their markup. Where blanks are collapsed
they have to be so in the trees. -/
theorem Tree.parse_markupAll_of_written {sections collapses : Bool} {trees : List Tree}
    (h : Tree.WrittenAll sections trees) (hapart : Tree.TextsApart trees)
    (hblanks : collapses = true → Tree.AllTextsAll (fun content => content.collapse = content) trees)
    (xhtml : Bool) :
    Tree.parse (Tree.markupAll xhtml trees) collapses sections = trees := by
  have hbuilt : Builder.absorbAll { collapses } (Tree.tokensAll trees) =
      Builder.withSiblings { collapses } trees.reverse := by
    have hread := Builder.absorbAll_tokensAll h hapart (b := { collapses }) hblanks
      (fun _ _ name hname => by cases hname) (fun last hmem => by cases hmem)
    rw [hread]
    simp [Builder.siblings]
  rw [Tree.parse, Tree.tokens_markupAll h hapart xhtml, Builder.absorbAll_append, hbuilt]
  show trees.reverse.reverse = trees
  exact List.reverse_reverse trees

end MarkupBinding
