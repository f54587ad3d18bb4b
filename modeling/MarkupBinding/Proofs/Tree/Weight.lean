import MarkupBinding.Proofs.Token.Weight
import MarkupBinding.Proofs.Tree.Apart
import MarkupBinding.Proofs.Tree.Sum

/-!
# What a builder makes of the weight of text

A builder merges text only with text and never makes it heavier. So sums over the nodes of the trees
that it builds are bounded by sums over the tokens, and so is every single text, once nothing before
it can grow any more.

* `totalAll_parse_le`: a sum over the nodes of a parsed text.
* `Light`: no text can grow beyond a limit.
* `allTexts_trees`: no text does.
-/

namespace MarkupBinding

/-- The value of a node if only texts are told apart. -/
def Content.weigh (text : Text → Nat) (other : Nat) : Content → Nat
  | .data .text content => text content
  | _ => other

namespace Tree

variable (text : Text → Nat) (other : Nat) (P : Text → Prop)

mutual

/-- A sum over the nodes of a tree; all nodes but texts count the same. -/
def total : Tree → Nat
  | .data .text content => text content
  | .data _ _ => other
  | .element _ _ children => other + totalAll children

def totalAll : List Tree → Nat
  | [] => 0
  | tree :: trees => total tree + totalAll trees

end

mutual

/-- All texts of a tree have a property. -/
def AllTexts : Tree → Prop
  | .data .text content => P content
  | .data _ _ => True
  | .element _ _ children => AllTextsAll children

def AllTextsAll : List Tree → Prop
  | [] => True
  | tree :: trees => AllTexts tree ∧ AllTextsAll trees

end

/-- The characters of a text. Other nodes have none of their own. -/
def ownText : Tree → Text
  | .data .text content => content
  | _ => []

variable {text other P}

theorem ownText_of_isText {tree : Tree} (h : tree.isText = false) : tree.ownText = [] := by
  cases tree with
  | element name attrs children => rfl
  | data kind content => cases kind <;> first | rfl | cases h

theorem weight_ownText_le {limit : Nat} {tree : Tree} (h : AllTexts (Text.weight · ≤ limit) tree) :
    tree.ownText.weight ≤ limit := by
  cases tree with
  | element name attrs children => exact Nat.zero_le limit
  | data kind content => cases kind <;> first | exact h | exact Nat.zero_le limit

mutual

theorem total_eq_sum : ∀ tree : Tree, total text other tree = tree.sum (Content.weigh text other)
  | .data kind content => by cases kind <;> rfl
  | .element name attrs children => by
    rw [total, sum, totalAll_eq_sumAll children]
    rfl

/-- Such a sum is a sum over all nodes. -/
theorem totalAll_eq_sumAll :
    ∀ trees : List Tree, totalAll text other trees = sumAll (Content.weigh text other) trees
  | [] => rfl
  | tree :: trees => by rw [totalAll, sumAll, total_eq_sum tree, totalAll_eq_sumAll trees]

end

theorem allTextsAll_iff {trees : List Tree} :
    AllTextsAll P trees ↔ ∀ tree ∈ trees, AllTexts P tree := by
  induction trees with
  | nil => simp [AllTextsAll]
  | cons tree trees ih => simp [AllTextsAll, ih]

theorem allTextsAll_reverse {trees : List Tree} :
    AllTextsAll P trees.reverse ↔ AllTextsAll P trees := by
  rw [allTextsAll_iff, allTextsAll_iff]
  simp only [List.mem_reverse]

end Tree

namespace Builder

variable {b : Builder}

/-! ## No text grows beyond a limit -/

/-- The text that a text would be merged with. -/
def openText (b : Builder) : Text := (b.siblings.head?.map Tree.ownText).getD []

/-- No text of a builder is heavier than `limit`, and the one that can still grow leaves room
for `n`. -/
structure Light (limit n : Nat) (b : Builder) : Prop where
  roots : Tree.AllTextsAll (Text.weight · ≤ limit) b.roots
  opened : ∀ frame ∈ b.opened, Tree.AllTextsAll (Text.weight · ≤ limit) frame.children
  room : b.openText.weight + n ≤ limit

namespace Light

variable {limit n : Nat}

theorem empty (collapses : Bool) (h : n ≤ limit) : Light limit n { collapses } := by
  refine ⟨trivial, fun _ hframe => absurd hframe List.not_mem_nil, ?_⟩
  show 0 + n ≤ limit
  omega

theorem mono {m : Nat} (h : b.Light limit m) (hle : n ≤ m) : b.Light limit n :=
  ⟨h.roots, h.opened, Nat.le_trans (Nat.add_le_add_left hle _) h.room⟩

theorem siblings (h : b.Light limit n) :
    Tree.AllTextsAll (Text.weight · ≤ limit) b.siblings := by
  obtain ⟨collapses, roots, opened⟩ := b
  cases opened with
  | nil => exact h.roots
  | cons frame opened => exact h.opened frame List.mem_cons_self

theorem withSiblings {m : Nat} (h : b.Light limit m) {tree : Tree} {trees : List Tree}
    (htexts : Tree.AllTextsAll (Text.weight · ≤ limit) (tree :: trees))
    (hroom : tree.ownText.weight + n ≤ limit) : (b.withSiblings (tree :: trees)).Light limit n := by
  have hopen : (b.withSiblings (tree :: trees)).openText.weight + n ≤ limit := by
    unfold openText
    rw [siblings_withSiblings]
    exact hroom
  obtain ⟨collapses, roots, opened⟩ := b
  cases opened with
  | nil => exact ⟨htexts, h.opened, hopen⟩
  | cons frame opened =>
    refine ⟨h.roots, ?_, hopen⟩
    intro other hother
    rcases List.mem_cons.1 hother with rfl | hother
    · exact htexts
    · exact h.opened other (List.mem_cons_of_mem frame hother)

/-- Behind a node other than text no text can grow. -/
theorem insert {m : Nat} (h : b.Light limit m) (hn : n ≤ limit) {tree : Tree}
    (htexts : Tree.AllTexts (Text.weight · ≤ limit) tree) (hkind : tree.isText = false) :
    (b.insert tree).Light limit n := by
  refine h.withSiblings ⟨htexts, h.siblings⟩ ?_
  rw [Tree.ownText_of_isText hkind, Text.weight_nil, Nat.zero_add]
  exact hn

theorem le_limit (h : b.Light limit n) : n ≤ limit :=
  Nat.le_trans (Nat.le_add_left n _) h.room

/-- Behind a closed element no text can grow. -/
theorem close_of_opened {m : Nat} (h : b.Light limit m) (hn : n ≤ limit) (hopened : b.opened ≠ []) :
    b.close.Light limit n := by
  obtain ⟨collapses, roots, opened⟩ := b
  cases opened with
  | nil => exact absurd rfl hopened
  | cons frame opened =>
    have houter : Light limit 0 { collapses, roots, opened } := by
      refine ⟨h.roots, fun other hother => h.opened other (List.mem_cons_of_mem frame hother), ?_⟩
      have hsiblings : Tree.AllTextsAll (Text.weight · ≤ limit)
          (Builder.siblings { collapses, roots, opened }) := by
        cases opened with
        | nil => exact h.roots
        | cons next opened => exact h.opened next (List.mem_cons_of_mem frame List.mem_cons_self)
      unfold openText
      cases hs : Builder.siblings { collapses, roots, opened } with
      | nil => exact Nat.zero_le limit
      | cons last before =>
        rw [hs] at hsiblings
        exact Tree.weight_ownText_le hsiblings.1
    refine houter.insert hn ?_ rfl
    show Tree.AllTextsAll _ frame.children.reverse
    exact Tree.allTextsAll_reverse.2 (h.opened frame List.mem_cons_self)

theorem close (h : b.Light limit n) : b.close.Light limit n := by
  by_cases hopened : b.opened = []
  · have hsame : b.close = b := by
      unfold Builder.close
      rw [hopened]
    rw [hsame]
    exact h
  · exact h.close_of_opened h.le_limit hopened

theorem closeMany (count : Nat) (h : b.Light limit n) : (Builder.closeMany count b).Light limit n :=
  closeMany_induction (fun _ h => h.close) count h

theorem insertText {content : Text} (h : b.Light limit (content.weight + n)) :
    (b.insertText content).Light limit n := by
  have hkept : ∀ content, (b.kept content).weight ≤ content.weight := by
    intro content
    unfold kept
    split
    · exact Text.weight_collapse_le content
    · exact Nat.le_refl _
  have hroom := h.room
  have hsiblings := h.siblings
  unfold openText at hroom
  unfold Builder.insertText
  split
  · next last before hs =>
    have hmerged := hkept (last ++ content)
    rw [hs] at hroom hsiblings
    rw [Text.weight_append] at hmerged
    have hlast : last.weight + (content.weight + n) ≤ limit := hroom
    have hsum : Text.weight (b.kept (last ++ content)) + n ≤ limit := by omega
    exact h.withSiblings ⟨Nat.le_trans (Nat.le_add_right _ n) hsum, hsiblings.2⟩ hsum
  · have hcontent := hkept content
    have hsum : Text.weight (b.kept content) + n ≤ limit := by omega
    exact h.withSiblings ⟨Nat.le_trans (Nat.le_add_right _ n) hsum, hsiblings⟩ hsum

/-- An open element has no text yet. -/
theorem openElement {m : Nat} (h : b.Light limit m) (hn : n ≤ limit) (name : Text)
    (attrs : Attributes) :
    Light limit n { b with opened := { name, attrs } :: b.opened } := by
  refine ⟨h.roots, ?_, ?_⟩
  · intro frame hframe
    rcases List.mem_cons.1 hframe with rfl | hframe
    · trivial
    · exact h.opened frame hframe
  · show 0 + n ≤ limit
    omega

/-- Behind a start tag no text can grow. -/
theorem startTag {m : Nat} (h : b.Light limit m) (hn : n ≤ limit) {name : Text} (hname : name ≠ [])
    (attrs : Attributes) : (b.absorb (.startTag name attrs)).Light limit n := by
  have habsorbed := b.absorbed (.startTag name attrs)
  generalize b.absorb (.startTag name attrs) = next at habsorbed
  cases habsorbed with
  | refused => exact absurd rfl hname
  | opened count _ => exact (h.closeMany count).openElement hn name attrs
  | void count _ => exact (h.closeMany count).insert hn trivial rfl

/-- Behind an end tag that closes an element no text can grow. -/
theorem endTag_of_opened {m : Nat} (h : b.Light limit m) (hn : n ≤ limit) {name : Text}
    (hvoid : Element.isVoid name.lowercase = false) {frame : Frame} (hframe : frame ∈ b.opened)
    (hname : frame.name.lowercase = name.lowercase) : (b.endTag name).Light limit n := by
  have hopened : b.opened ≠ [] := List.ne_nil_of_mem hframe
  unfold Builder.endTag
  simp only
  rw [hvoid, if_neg Bool.false_ne_true]
  split
  · exact (h.close_of_opened hn hopened).closeMany _
  · next hnone =>
    have hmiss := List.findIdx?_eq_none_iff.1 hnone frame hframe
    rw [decide_eq_false_iff_not] at hmiss
    exact absurd hname hmiss

theorem absorb {token : Token} (h : b.Light limit (token.textWeight + n)) :
    (b.absorb token).Light limit n := by
  have hn : n ≤ limit := Nat.le_trans (Nat.le_add_left n _) h.le_limit
  have hroom : b.Light limit n := h.mono (Nat.le_add_left n _)
  have habsorbed := b.absorbed token
  generalize b.absorb token = next at habsorbed
  cases habsorbed with
  | refused => exact hroom
  | opened count hname => exact (hroom.closeMany count).openElement hn _ _
  | void count hname => exact (hroom.closeMany count).insert hn trivial rfl
  | closed count => exact hroom.closeMany count
  | stray => exact hroom.insert hn trivial rfl
  | text => exact h.insertText
  | @data kind content hkind =>
    cases kind with
    | text => exact absurd rfl hkind
    | _ => exact hroom.insert hn trivial rfl
  | finished => exact hroom.closeMany _

theorem absorbAll (tokens : List Token) : ∀ {b : Builder},
    b.Light limit (Token.textWeightAll tokens + n) → (b.absorbAll tokens).Light limit n := by
  induction tokens with
  | nil => exact fun h => h.mono (Nat.le_add_left n _)
  | cons token tokens ih =>
    intro b h
    rw [Token.textWeightAll_cons, Nat.add_assoc] at h
    rw [absorbAll_cons]
    exact ih h.absorb

end Light

/-- No text of the trees is heavier than the limit. -/
theorem allTexts_trees {limit n : Nat} (h : b.Light limit n) :
    Tree.AllTextsAll (Text.weight · ≤ limit) b.trees :=
  Tree.allTextsAll_reverse.2 (h.closeMany _).roots

end Builder

/-- A sum over the nodes of a parsed text is bounded by one over its tokens. -/
theorem Tree.totalAll_parse_le {text : Text → Nat} {other : Nat}
    (hadd : ∀ first second, text (first ++ second) ≤ text first + text second)
    (hcollapse : ∀ content : Text, text content.collapse ≤ text content)
    (markup : Text) (collapses sections : Bool) :
    Tree.totalAll text other (Tree.parse markup collapses sections) ≤
      ((Scanner.tokens markup sections).map (Builder.share (Content.weigh text other))).sum := by
  rw [Tree.totalAll_eq_sumAll]
  exact Tree.sumAll_parse_le (fun _ => hcollapse) fun seam _ => hadd seam.1 seam.2

end MarkupBinding
