import Mathlib.Data.List.Chain
import MarkupBinding.Proofs.Tree.Absorbed

/-!
# Neighbours in the trees of a builder

A relation between neighbouring nodes that asks something of texts only holds on all levels of the
trees that a builder makes, as long as it holds where text is added. Elements are opened, closed and
added wherever a token says.

* `Chained`: neighbours are related on all levels.
* `Builder.Chained.absorb_of_not_text`: a token that is no text keeps it so.
-/

namespace MarkupBinding

namespace Tree

/-- Whether a node is text. -/
def isText : Tree → Bool
  | .data .text _ => true
  | _ => false

/-- Whether a node is an element. -/
def isElement : Tree → Bool
  | .element .. => true
  | .data .. => false

/-- A relation between neighbours that asks something of texts only, whatever they hold. -/
structure OfTexts (R : Tree → Tree → Prop) : Prop where
  other : ∀ {before after : Tree}, after.isText = false → R before after
  text : ∀ {before : Tree} {content content' : Text},
    R before (.text content) → R before (.text content')

variable (R : Tree → Tree → Prop)

mutual

/-- Neighbours below a node are related. -/
def ChainedBelow : Tree → Prop
  | .data _ _ => True
  | .element _ _ children => children.IsChain R ∧ AllChainedBelow children

def AllChainedBelow : List Tree → Prop
  | [] => True
  | tree :: trees => ChainedBelow tree ∧ AllChainedBelow trees

end

/-- Neighbours in some trees are related, on every level. -/
def Chained (trees : List Tree) : Prop := trees.IsChain R ∧ AllChainedBelow R trees

/-- The same of trees that are listed the last one first. -/
def ChainedBack (trees : List Tree) : Prop :=
  (trees.IsChain fun after before => R before after) ∧ AllChainedBelow R trees

variable {R}

theorem allChainedBelow_iff {trees : List Tree} :
    AllChainedBelow R trees ↔ ∀ tree ∈ trees, ChainedBelow R tree := by
  induction trees with
  | nil => simp [AllChainedBelow]
  | cons tree trees ih => simp [AllChainedBelow, ih]

theorem chained_reverse {trees : List Tree} : Chained R trees.reverse ↔ ChainedBack R trees := by
  unfold Chained ChainedBack
  rw [List.isChain_reverse, allChainedBelow_iff, allChainedBelow_iff]
  simp only [List.mem_reverse]

/-- A related node may be added. -/
theorem ChainedBack.cons {tree : Tree} {trees : List Tree} (h : ChainedBack R trees)
    (htree : ChainedBelow R tree) (hnext : ∀ before ∈ trees.head?, R before tree) :
    ChainedBack R (tree :: trees) :=
  ⟨List.isChain_cons.2 ⟨hnext, h.1⟩, htree, h.2⟩

end Tree

namespace Builder

/-! ## Neighbours stay related -/

/-- Neighbours that a builder holds are related. -/
structure Chained (R : Tree → Tree → Prop) (b : Builder) : Prop where
  roots : Tree.ChainedBack R b.roots
  opened : ∀ frame ∈ b.opened, Tree.ChainedBack R frame.children

namespace Chained

variable {R : Tree → Tree → Prop} {b : Builder}

theorem empty (R : Tree → Tree → Prop) (collapses : Bool) : Chained R { collapses } :=
  ⟨⟨.nil, trivial⟩, fun _ h => absurd h List.not_mem_nil⟩

theorem siblings (h : b.Chained R) : Tree.ChainedBack R b.siblings := by
  obtain ⟨collapses, roots, opened⟩ := b
  cases opened with
  | nil => exact h.roots
  | cons frame opened => exact h.opened frame List.mem_cons_self

theorem withSiblings (h : b.Chained R) {trees : List Tree} (htrees : Tree.ChainedBack R trees) :
    (b.withSiblings trees).Chained R := by
  obtain ⟨collapses, roots, opened⟩ := b
  cases opened with
  | nil => exact ⟨htrees, h.opened⟩
  | cons frame opened =>
    refine ⟨h.roots, ?_⟩
    intro other hother
    rcases List.mem_cons.1 hother with rfl | hother
    · exact htrees
    · exact h.opened other (List.mem_cons_of_mem frame hother)

/-- Text that is merged has the same neighbour as the text that it takes the place of. -/
theorem insertText (hR : Tree.OfTexts R) (h : b.Chained R) (content : Text)
    (hlast : ∀ last ∈ b.siblings.head?, last.isText = false → ∀ content, R last (.text content)) :
    (b.insertText content).Chained R := by
  unfold Builder.insertText
  split
  · next last before hs =>
    have hsiblings := h.siblings
    rw [hs] at hsiblings
    obtain ⟨hnext, hbefore⟩ := List.isChain_cons.1 hsiblings.1
    exact h.withSiblings
      ⟨List.isChain_cons.2 ⟨fun next hmem => hR.text (hnext next hmem), hbefore⟩, trivial,
        hsiblings.2.2⟩
  · next hs =>
    refine h.withSiblings (h.siblings.cons trivial fun last hmem => hlast last hmem ?_ _)
    cases last with
    | element => rfl
    | data kind last =>
      cases kind with
      | text =>
        obtain ⟨before, heq⟩ := List.head?_eq_some_iff.1 hmem
        exact absurd heq (hs last before)
      | comment => rfl
      | cdata => rfl
      | directive => rfl

variable (hR : Tree.OfTexts R)

include hR

/-- A node other than text may be added anywhere. -/
theorem insert (h : b.Chained R) {tree : Tree} (htree : tree.ChainedBelow R)
    (hkind : tree.isText = false) : (b.insert tree).Chained R :=
  h.withSiblings (h.siblings.cons htree fun _ _ => hR.other hkind)

theorem close (h : b.Chained R) : b.close.Chained R := by
  obtain ⟨collapses, roots, opened⟩ := b
  cases opened with
  | nil => exact h
  | cons frame opened =>
    have houter : Chained R { collapses, roots, opened } :=
      ⟨h.roots, fun other hother => h.opened other (List.mem_cons_of_mem frame hother)⟩
    have htree : frame.tree.ChainedBelow R :=
      Tree.chained_reverse.2 (h.opened frame List.mem_cons_self)
    exact houter.insert hR htree rfl

theorem closeMany (n : Nat) (h : b.Chained R) : (Builder.closeMany n b).Chained R :=
  closeMany_induction (fun _ h => close hR h) n h

/-- A token that is no text keeps neighbours related. -/
theorem absorb_of_not_text (h : b.Chained R) {token : Token}
    (htoken : ∀ content, token ≠ .data .text content) : (b.absorb token).Chained R := by
  have habsorbed := b.absorbed token
  generalize b.absorb token = next at habsorbed
  cases habsorbed with
  | refused => exact h
  | opened n hname =>
    have hclosed := h.closeMany hR n
    refine ⟨hclosed.roots, ?_⟩
    intro frame hframe
    rcases List.mem_cons.1 hframe with rfl | hframe
    · exact ⟨.nil, trivial⟩
    · exact hclosed.opened frame hframe
  | void n hname => exact (h.closeMany hR n).insert hR ⟨.nil, trivial⟩ rfl
  | closed n => exact h.closeMany hR n
  | stray => exact h.insert hR ⟨.nil, trivial⟩ rfl
  | text => exact absurd rfl (htoken _)
  | @data kind content hkind =>
    refine h.insert hR trivial ?_
    cases kind with
    | text => exact absurd rfl hkind
    | _ => rfl
  | finished => exact h.closeMany hR _

theorem trees (h : b.Chained R) : Tree.Chained R b.trees :=
  Tree.chained_reverse.2 (h.closeMany hR _).roots

end Chained
end Builder
end MarkupBinding
