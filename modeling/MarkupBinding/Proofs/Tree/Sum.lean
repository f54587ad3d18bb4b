import Mathlib
import MarkupBinding.Forest.Basic
import MarkupBinding.Proofs.Tree.Absorbed

/-!
# Sums over the nodes of a document

A builder adds at most one node for each token. It merges text only with text, and elements that it
closes keep what they are. So a sum over the nodes that it holds grows with each token by what the token
may add at most, as long as a text that is merged is worth no more than its two parts.

* `Builder.seam?`: the two parts of a text that is merged.
* `sum_absorbAll_le`: a sum over the nodes of a builder that takes in tokens.
* `sumAll_parse_le`: a sum over the nodes of a parsed text.
-/

namespace MarkupBinding

namespace Tree

section

variable (value : Content → Nat)

mutual

/-- A sum over the nodes of a tree; the children of an element are left out of its value. -/
def sum : Tree → Nat
  | .data kind content => value (.data kind content)
  | .element name attrs children => value (.element name attrs []) + sumAll children

def sumAll : List Tree → Nat
  | [] => 0
  | tree :: trees => sum tree + sumAll trees

end

end

variable {value : Content → Nat}

theorem sumAll_append (first second : List Tree) :
    sumAll value (first ++ second) = sumAll value first + sumAll value second := by
  induction first with
  | nil => exact (Nat.zero_add _).symm
  | cons tree first ih => rw [List.cons_append, sumAll, sumAll, ih, Nat.add_assoc]

@[simp] theorem sumAll_reverse (trees : List Tree) :
    sumAll value trees.reverse = sumAll value trees := by
  induction trees with
  | nil => rfl
  | cons tree trees ih =>
    rw [List.reverse_cons, sumAll_append, ih, sumAll, sumAll, sumAll]
    omega

end Tree

namespace Builder

variable (value : Content → Nat)

/-- The sum over all nodes that a builder holds. -/
def sum (b : Builder) : Nat :=
  Tree.sumAll value b.roots +
    (b.opened.map fun frame =>
      value (.element frame.name frame.attrs []) + Tree.sumAll value frame.children).sum

/-- What a token may add to such a sum. -/
def share : Token → Nat
  | .startTag name attrs => value (.element name attrs [])
  | .endTag name _ => value (.element name [] [])
  | .data kind content => value (.data kind content)
  | .endOfInput => 0

/-- The text that a token would be merged with, and its own. -/
def seam? (b : Builder) : Token → Option (Text × Text)
  | .data .text content =>
    match b.siblings with
    | .data .text last :: _ => some (last, content)
    | _ => none
  | _ => none

/-- The texts that are merged while a builder takes in tokens, each with what it is merged with. -/
def seams (b : Builder) : List Token → List (Text × Text)
  | [] => []
  | token :: tokens => (b.seam? token).toList ++ seams (b.absorb token) tokens

/-- Text is worth no more when it is collapsed, where it is. -/
def Collapses (b : Builder) : Prop :=
  b.collapses = true →
    ∀ content : Text, value (.data .text content.collapse) ≤ value (.data .text content)

/-- Where two texts are merged they are worth no more together than apart. -/
def Merges (seam : Text × Text) : Prop :=
  value (.data .text (seam.1 ++ seam.2)) ≤ value (.data .text seam.1) + value (.data .text seam.2)

variable {value}

theorem sum_withSiblings (b : Builder) (trees : List Tree) :
    (b.withSiblings trees).sum value + Tree.sumAll value b.siblings =
      b.sum value + Tree.sumAll value trees := by
  obtain ⟨collapses, roots, opened⟩ := b
  cases opened with
  | nil =>
    simp only [withSiblings, siblings, sum, List.map_nil, List.sum_nil]
    omega
  | cons frame opened =>
    simp only [withSiblings, siblings, sum, List.map_cons, List.sum_cons]
    omega

@[simp] theorem sum_insert (b : Builder) (tree : Tree) :
    (b.insert tree).sum value = b.sum value + tree.sum value := by
  have hsum := @sum_withSiblings value b (tree :: b.siblings)
  rw [Tree.sumAll] at hsum
  rw [insert]
  omega

@[simp] theorem sum_close (b : Builder) : b.close.sum value = b.sum value := by
  obtain ⟨collapses, roots, opened⟩ := b
  cases opened with
  | nil => rfl
  | cons frame opened =>
    rw [close, sum_insert, Frame.tree, Tree.sum, Tree.sumAll_reverse]
    simp only [sum, List.map_cons, List.sum_cons]
    omega

@[simp] theorem sum_closeMany (n : Nat) :
    ∀ b : Builder, (closeMany n b).sum value = b.sum value := by
  induction n with
  | zero => exact fun _ => rfl
  | succ n ih => exact fun b => by rw [closeMany, ih, sum_close]

@[simp] theorem sum_open (b : Builder) (name : Text) (attrs : Attributes) :
    sum value { b with opened := { name, attrs } :: b.opened } =
      b.sum value + value (.element name attrs []) := by
  simp only [sum, List.map_cons, List.sum_cons, Tree.sumAll]
  omega

theorem sum_insertText_le {b : Builder} (hcollapses : b.Collapses value) {content : Text}
    (hmerges : ∀ seam ∈ b.seam? (.data .text content), Merges value seam) :
    (b.insertText content).sum value ≤ b.sum value + value (.data .text content) := by
  have hkept : ∀ content, value (.data .text (b.kept content)) ≤ value (.data .text content) := by
    intro content
    unfold kept
    split
    · next hb => exact hcollapses hb content
    · exact Nat.le_refl _
  unfold insertText
  split
  · next last before hs =>
    have hsum := @sum_withSiblings value b (.text (b.kept (last ++ content)) :: before)
    have hboth : value (.data .text (last ++ content)) ≤
        value (.data .text last) + value (.data .text content) :=
      hmerges (last, content) (by simp [seam?, hs])
    have hmerged := Nat.le_trans (hkept (last ++ content)) hboth
    rw [hs, Tree.sumAll, Tree.sumAll, Tree.sum, Tree.sum] at hsum
    omega
  · rw [sum_insert, Tree.sum]
    exact Nat.add_le_add_left (hkept content) _

theorem sum_absorb_le {b : Builder} (hcollapses : b.Collapses value) {token : Token}
    (hmerges : ∀ seam ∈ b.seam? token, Merges value seam) :
    (b.absorb token).sum value ≤ b.sum value + share value token := by
  have habsorbed := b.absorbed token
  generalize b.absorb token = next at habsorbed
  cases habsorbed with
  | refused => exact Nat.le_add_right _ _
  | opened n hname =>
    rw [sum_open, sum_closeMany]
    exact Nat.le_refl _
  | void n hname =>
    rw [sum_insert, sum_closeMany]
    exact Nat.le_refl _
  | closed n =>
    rw [sum_closeMany]
    exact Nat.le_add_right _ _
  | stray =>
    rw [sum_insert]
    exact Nat.le_refl _
  | text => exact sum_insertText_le hcollapses hmerges
  | data hkind =>
    rw [sum_insert]
    exact Nat.le_refl _
  | finished => exact Nat.le_of_eq (sum_closeMany _ b)

theorem sum_absorbAll_le {tokens : List Token} :
    ∀ {b : Builder}, b.Collapses value → (∀ seam ∈ b.seams tokens, Merges value seam) →
      (b.absorbAll tokens).sum value ≤ b.sum value + (tokens.map (share value)).sum := by
  induction tokens with
  | nil => exact fun _ _ => Nat.le_refl _
  | cons token tokens ih =>
    intro b hcollapses hmerges
    rw [seams, List.forall_mem_append] at hmerges
    have htoken := sum_absorb_le hcollapses fun seam hseam =>
      hmerges.1 seam (Option.mem_toList.2 hseam)
    have hnext : (b.absorb token).Collapses value := by
      unfold Collapses
      rwa [collapses_absorb]
    have hrest := ih hnext hmerges.2
    rw [List.map_cons, List.sum_cons, absorbAll_cons]
    omega

theorem sumAll_trees (b : Builder) : Tree.sumAll value b.trees = b.sum value := by
  have hclosed := @sum_closeMany value b.opened.length b
  have hopened := opened_closeAll b
  unfold closeAll at hopened
  rw [sum, hopened] at hclosed
  rw [trees, Tree.sumAll_reverse]
  exact hclosed

end Builder

/-- A sum over the nodes of a parsed text is bounded by one over its tokens. -/
theorem Tree.sumAll_parse_le {value : Content → Nat} {markup : Text} {collapses sections : Bool}
    (hcollapses : Builder.Collapses value { collapses })
    (hmerges : ∀ seam ∈ Builder.seams { collapses } (Scanner.tokens markup sections),
      Builder.Merges value seam) :
    Tree.sumAll value (Tree.parse markup collapses sections) ≤
      ((Scanner.tokens markup sections).map (Builder.share value)).sum := by
  have hbuilt := Builder.sum_absorbAll_le hcollapses hmerges
  have hempty : Builder.sum value { collapses } = 0 := rfl
  rw [hempty, Nat.zero_add] at hbuilt
  rw [Tree.parse, Builder.sumAll_trees]
  exact hbuilt

end MarkupBinding
