import MarkupBinding.Proofs.Forest.Planting
import MarkupBinding.Proofs.Token.Sourced
import MarkupBinding.Proofs.Tree.Absorbed

/-!
# What the nodes of a parsed document are

A builder writes into its trees what is in the tokens and nothing else: each element has the name and
the attributes of a tag, and each text is put together from texts. So what holds of the tokens of a
document, and is kept when texts are merged and their blanks collapsed, holds of its nodes.

* `Builder.Labelled.absorbAll`: what a builder makes of tokens.
* `labelled_parse`: so what is parsed is what its tokens are.
* `holds_parse`: the nodes of a parsed document hold characters of the text.
* `sourced_parse`: its texts and attribute values hold no others.
-/

namespace MarkupBinding

/-- What a token says of the nodes that come from it. Text may become part of a longer one, so more
or less may be asked of it before. -/
def Token.Labels (T : Text → Prop) (Q : Content → Prop) : Token → Prop
  | .startTag name attrs => Q (.element name attrs [])
  | .endTag name _ => Q (.element name [] [])
  | .data .text content => T content
  | .data kind content => Q (.data kind content)
  | .endOfInput => True

namespace Builder

/-- All nodes that a builder holds are of some sort. -/
structure Labelled (Q : Content → Prop) (b : Builder) : Prop where
  roots : Tree.LabelledAll Q b.roots
  opened : ∀ frame ∈ b.opened,
    Q (.element frame.name frame.attrs []) ∧ Tree.LabelledAll Q frame.children

/-- Texts are of some sort when they are added, and when more is merged with them. -/
structure KeepsTexts (collapses : Bool) (T : Text → Prop) (Q : Content → Prop) : Prop where
  added : ∀ content, T content → Q (.data .text (kept { collapses } content))
  merged : ∀ last content, Q (.data .text last) → T content →
    Q (.data .text (kept { collapses } (last ++ content)))

/-- Texts of some sort that stay so when they are merged and when their blanks are collapsed. -/
theorem KeepsTexts.of_collapse {Q : Content → Prop}
    (merged : ∀ first second, Q (.data .text first) → Q (.data .text second) →
      Q (.data .text (first ++ second)))
    (collapsed : ∀ content : Text, Q (.data .text content) → Q (.data .text content.collapse))
    (collapses : Bool) : KeepsTexts collapses (fun content => Q (.data .text content)) Q := by
  have hkept : ∀ content, Q (.data .text content) →
      Q (.data .text (kept { collapses } content)) := by
    intro content hcontent
    unfold kept
    split
    · exact collapsed content hcontent
    · exact hcontent
  exact ⟨hkept, fun last content hlast hcontent => hkept _ (merged last content hlast hcontent)⟩

namespace Labelled

variable {T : Text → Prop} {Q : Content → Prop} {b : Builder}

theorem empty (Q : Content → Prop) (collapses : Bool) : Labelled Q { collapses } :=
  ⟨trivial, List.forall_mem_nil _⟩

theorem siblings (h : b.Labelled Q) : Tree.LabelledAll Q b.siblings := by
  obtain ⟨collapses, roots, opened⟩ := b
  cases opened with
  | nil => exact h.roots
  | cons frame opened => exact (h.opened frame List.mem_cons_self).2

theorem withSiblings (h : b.Labelled Q) {trees : List Tree} (htrees : Tree.LabelledAll Q trees) :
    (b.withSiblings trees).Labelled Q := by
  obtain ⟨collapses, roots, opened⟩ := b
  cases opened with
  | nil => exact ⟨htrees, h.opened⟩
  | cons frame opened =>
    obtain ⟨⟨hframe, _⟩, hothers⟩ := List.forall_mem_cons.1 h.opened
    exact ⟨h.roots, List.forall_mem_cons.2 ⟨⟨hframe, htrees⟩, hothers⟩⟩

theorem insert (h : b.Labelled Q) {tree : Tree} (htree : tree.Labelled Q) :
    (b.insert tree).Labelled Q :=
  h.withSiblings ⟨htree, h.siblings⟩

theorem close (h : b.Labelled Q) : b.close.Labelled Q := by
  obtain ⟨collapses, roots, opened⟩ := b
  cases opened with
  | nil => exact h
  | cons frame opened =>
    obtain ⟨⟨hframe, hchildren⟩, hothers⟩ := List.forall_mem_cons.1 h.opened
    have houter : Labelled Q { collapses, roots, opened } := ⟨h.roots, hothers⟩
    exact houter.insert ⟨hframe, Tree.labelledAll_reverse.2 hchildren⟩

theorem closeMany (n : Nat) (h : b.Labelled Q) : (Builder.closeMany n b).Labelled Q :=
  closeMany_induction (fun _ h => h.close) n h

theorem insertText (hQ : KeepsTexts b.collapses T Q) (h : b.Labelled Q) {content : Text}
    (hcontent : T content) : (b.insertText content).Labelled Q := by
  have hsiblings := h.siblings
  unfold Builder.insertText
  split
  · next last before hs =>
    rw [hs] at hsiblings
    exact h.withSiblings ⟨hQ.merged last content hsiblings.1 hcontent, hsiblings.2⟩
  · exact h.insert (hQ.added content hcontent)

theorem absorb (hQ : KeepsTexts b.collapses T Q) (h : b.Labelled Q) {token : Token}
    (htoken : token.Labels T Q) : (b.absorb token).Labelled Q := by
  have habsorbed := b.absorbed token
  generalize b.absorb token = next at habsorbed
  cases habsorbed with
  | refused => exact h
  | opened n _ =>
    have hclosed := h.closeMany n
    exact ⟨hclosed.roots, List.forall_mem_cons.2 ⟨⟨htoken, trivial⟩, hclosed.opened⟩⟩
  | void n _ => exact (h.closeMany n).insert ⟨htoken, trivial⟩
  | closed n => exact h.closeMany n
  | stray => exact h.insert ⟨htoken, trivial⟩
  | text => exact h.insertText hQ htoken
  | @data kind content hkind =>
    cases kind with
    | text => exact absurd rfl hkind
    | _ => exact h.insert htoken
  | finished => exact h.closeMany _

/-- What a builder makes of tokens. -/
theorem absorbAll (hQ : KeepsTexts b.collapses T Q) (tokens : List Token) (h : b.Labelled Q)
    (htokens : ∀ token ∈ tokens, token.Labels T Q) : (b.absorbAll tokens).Labelled Q := by
  induction tokens generalizing b with
  | nil => exact h
  | cons token tokens ih =>
    obtain ⟨htoken, htokens⟩ := List.forall_mem_cons.1 htokens
    exact ih ((collapses_absorb b token).symm ▸ hQ) (h.absorb hQ htoken) htokens

end Labelled

end Builder

/-- The nodes of a parsed document, from its tokens. -/
theorem Tree.labelled_parse {T : Text → Prop} {Q : Content → Prop} {collapses sections : Bool}
    (hQ : Builder.KeepsTexts collapses T Q) {text : Text}
    (htokens : ∀ token ∈ Scanner.tokens text sections, token.Labels T Q) :
    Tree.LabelledAll Q (Tree.parse text collapses sections) := by
  have hbuilt := (Builder.Labelled.empty Q collapses).absorbAll hQ _ htokens
  exact Tree.labelledAll_reverse.2 (hbuilt.closeMany _).roots

/-! ## Characters -/

variable {P : Char → Prop}

/-- The characters of a node are of some sort, and its attributes have distinct names. -/
def Content.Holds (P : Char → Prop) : Content → Prop
  | .element name attrs _ => name.Holds P ∧ Scanner.AttributesHold P attrs
  | .data _ content => content.Holds P
  | .bare _ => True

theorem Text.Holds.collapse {text : Text} (h : text.Holds P) (hspace : P ' ') :
    Text.Holds P text.collapse := by
  have hall : ∀ after, Text.Holds P (Text.collapseAfter after text) := by
    induction text with
    | nil => exact fun _ => .nil
    | cons c text ih =>
      obtain ⟨hc, htext⟩ := List.forall_mem_cons.1 h
      intro after
      unfold Text.collapseAfter
      split
      · split
        · exact ih htext true
        · exact .cons hspace (ih htext true)
      · exact .cons hc (ih htext false)
  exact hall false

/-- The nodes of a parsed document hold characters of the text, spaces and signs. -/
theorem Tree.holds_parse (hsigns : Text.Holds P Scanner.signs) (hspace : P ' ') {text : Text}
    (h : text.Holds P) (collapses sections : Bool) :
    Tree.LabelledAll (Content.Holds P) (Tree.parse text collapses sections) := by
  refine Tree.labelled_parse (.of_collapse (fun _ _ => Text.Holds.append)
    (fun _ hcontent => Text.Holds.collapse hcontent hspace) collapses) fun token htoken => ?_
  have hholds := Scanner.holds_tokens hsigns h sections token htoken
  cases token with
  | startTag name attrs => exact hholds
  | endTag name attrs => exact ⟨hholds.1, .nil⟩
  | data kind content => cases kind <;> exact hholds
  | endOfInput => trivial

/-- The texts and the attribute values of a node hold characters of some sort. -/
def Content.Sourced (P : Char → Prop) : Content → Prop
  | .element _ attrs _ => ∀ attr ∈ attrs, attr.2.Holds P
  | .data .text content => content.Holds P
  | _ => True

/-- The texts and the attribute values of a parsed document hold characters of the text and spaces. -/
theorem Tree.sourced_parse (hspace : P ' ') {text : Text} (h : text.Holds P)
    (collapses sections : Bool) :
    Tree.LabelledAll (Content.Sourced P) (Tree.parse text collapses sections) := by
  refine Tree.labelled_parse (.of_collapse (fun _ _ => Text.Holds.append)
    (fun _ hcontent => Text.Holds.collapse hcontent hspace) collapses) fun token htoken => ?_
  have hsourced := Scanner.sourced_tokens h sections token htoken
  cases token with
  | startTag name attrs => exact hsourced
  | endTag name attrs => exact List.forall_mem_nil _
  | data kind content => cases kind <;> exact hsourced
  | endOfInput => trivial

end MarkupBinding
