import MarkupBinding.Forest.Builder
import MarkupBinding.Proofs.Forest.Frame
import MarkupBinding.Proofs.Text.Collapsed
import MarkupBinding.Proofs.Tree.Absorbed

/-!
# Collapsing blanks before or after parsing

A builder that collapses blanks does so each time text comes, also in text that was collapsed before
and is continued. Behind every token it is the builder that keeps all blanks, with its texts collapsed.
So are the trees that come out, and so is a linked forest, whose links stay as they are.

* `Builder.absorb_collapsed`, `LinkedBuilder.accept_collapsed`: a token on both sides.
* `Tree.parse_collapsed`: the trees of a text.
-/

namespace MarkupBinding

/-! ## Trees and builders with collapsed texts -/

namespace Tree

mutual

/-- A tree whose texts are collapsed. -/
def collapsed : Tree → Tree
  | .element name attrs children => .element name attrs (collapsedAll children)
  | .data .text content => .data .text content.collapse
  | .data kind content => .data kind content

/-- Trees whose texts are collapsed. -/
def collapsedAll : List Tree → List Tree
  | [] => []
  | tree :: trees => collapsed tree :: collapsedAll trees

end

theorem collapsedAll_eq_map (trees : List Tree) : collapsedAll trees = trees.map collapsed := by
  induction trees with
  | nil => rfl
  | cons tree trees ih => rw [collapsedAll, ih, List.map_cons]

end Tree

/-- An open element whose texts are collapsed. -/
def Frame.collapsed (frame : Frame) : Frame :=
  { frame with children := frame.children.map Tree.collapsed }

theorem Frame.tree_collapsed (frame : Frame) : frame.collapsed.tree = frame.tree.collapsed := by
  obtain ⟨name, attrs, children⟩ := frame
  rw [Frame.tree, Frame.tree, Tree.collapsed, Tree.collapsedAll_eq_map, List.map_reverse]
  rfl

namespace Builder

/-- The builder that collapses blanks, with the trees of a builder whose texts are collapsed. -/
def collapsed (b : Builder) : Builder where
  collapses := true
  roots := b.roots.map Tree.collapsed
  opened := b.opened.map Frame.collapsed

variable (b : Builder)

theorem siblings_collapsed : b.collapsed.siblings = b.siblings.map Tree.collapsed := by
  obtain ⟨collapses, roots, opened⟩ := b
  cases opened <;> rfl

theorem withSiblings_collapsed (trees : List Tree) :
    b.collapsed.withSiblings (trees.map Tree.collapsed) = (b.withSiblings trees).collapsed := by
  obtain ⟨collapses, roots, opened⟩ := b
  cases opened <;> rfl

theorem insert_collapsed (tree : Tree) :
    b.collapsed.insert tree.collapsed = (b.insert tree).collapsed := by
  rw [insert, siblings_collapsed, ← List.map_cons, withSiblings_collapsed, insert]

theorem close_collapsed : b.collapsed.close = b.close.collapsed := by
  obtain ⟨collapses, roots, opened⟩ := b
  cases opened with
  | nil => rfl
  | cons frame opened =>
    show insert (collapsed ⟨collapses, roots, opened⟩) frame.collapsed.tree = _
    rw [Frame.tree_collapsed, insert_collapsed]
    rfl

theorem closeMany_collapsed (n : Nat) : closeMany n b.collapsed = (closeMany n b).collapsed := by
  induction n generalizing b with
  | zero => rfl
  | succ n ih => rw [closeMany, close_collapsed, ih, closeMany]

theorem closeAll_collapsed : b.collapsed.closeAll = b.closeAll.collapsed := by
  rw [closeAll, closeAll, ← closeMany_collapsed, collapsed, List.length_map]

theorem closeImplied_collapsed (lowered : Text) :
    b.collapsed.closeImplied lowered = (b.closeImplied lowered).collapsed := by
  unfold closeImplied
  simp only
  rw [← closeMany_collapsed, show b.collapsed.opened = b.opened.map Frame.collapsed from rfl,
    List.takeWhile_map, List.length_map]
  rfl

theorem trees_collapsed : b.collapsed.trees = Tree.collapsedAll b.trees := by
  rw [trees, closeAll_collapsed, trees, Tree.collapsedAll_eq_map, List.map_reverse]
  rfl

theorem startTag_collapsed (name : Text) (attrs : Attributes) :
    b.collapsed.startTag name attrs = (b.startTag name attrs).map collapsed := by
  unfold startTag
  simp only
  rw [closeImplied_collapsed]
  generalize b.closeImplied name.lowercase = b'
  by_cases hname : name = []
  · simp only [if_pos hname, Except.map]
  · simp only [if_neg hname]
    by_cases hvoid : Element.isVoid name.lowercase = true
    · simp only [if_pos hvoid, Except.map]
      exact congrArg Except.ok (b'.insert_collapsed (.element name attrs []))
    · simp only [if_neg hvoid, Except.map]
      rfl

theorem endTag_collapsed (name : Text) : b.collapsed.endTag name = (b.endTag name).collapsed := by
  have hinsert := b.insert_collapsed (.element name [] [])
  have hopened : b.collapsed.opened.findIdx? (fun frame => frame.name.lowercase = name.lowercase) =
      b.opened.findIdx? fun frame => frame.name.lowercase = name.lowercase := List.findIdx?_map ..
  unfold endTag
  simp only [hopened]
  split
  · split
    · exact hinsert
    · rfl
  · split
    · exact closeMany_collapsed ..
    · split
      · exact hinsert
      · rfl

variable {b}

/-- Text that was collapsed is continued, and collapsed again. -/
theorem insertText_collapsed (h : b.collapses = false) (content : Text) :
    b.collapsed.insertText content = (b.insertText content).collapsed := by
  have hkept : ∀ content, b.kept content = content := fun content => by
    unfold kept
    rw [if_neg (Bool.eq_false_iff.1 h)]
  have hinsert := b.insert_collapsed (.text content)
  have hsiblings := b.siblings_collapsed
  have hwith := b.withSiblings_collapsed
  unfold insertText
  rw [hsiblings]
  cases b.siblings with
  | nil => rwa [hkept]
  | cons last before =>
    cases last with
    | element name attrs children => rwa [hkept]
    | data kind last =>
      cases kind with
      | text =>
        show b.collapsed.withSiblings (.text (last.collapse ++ content).collapse :: _) = _
        rw [Text.collapse_collapse_append, ← hwith, hkept]
        rfl
      | comment | cdata | directive => rwa [hkept]

/-- A token on both sides. -/
theorem absorb_collapsed (h : b.collapses = false) (token : Token) :
    b.collapsed.absorb token = (b.absorb token).collapsed := by
  cases token with
  | startTag name attrs =>
    unfold absorb accept
    simp only
    rw [startTag_collapsed]
    cases b.startTag name attrs <;> rfl
  | endTag name attrs => exact b.endTag_collapsed name
  | data kind content =>
    cases kind with
    | text => exact insertText_collapsed h content
    | comment => exact b.insert_collapsed (.data .comment content)
    | cdata => exact b.insert_collapsed (.data .cdata content)
    | directive => exact b.insert_collapsed (.data .directive content)
  | endOfInput => exact b.closeAll_collapsed

theorem absorbAll_collapsed (h : b.collapses = false) (tokens : List Token) :
    b.collapsed.absorbAll tokens = (b.absorbAll tokens).collapsed := by
  induction tokens generalizing b with
  | nil => rfl
  | cons token tokens ih =>
    rw [absorbAll_cons, absorb_collapsed h, ih ((b.collapses_absorb token).trans h), absorbAll_cons]

/-- Text that is continued piece by piece is collapsed as a whole. -/
theorem siblings_foldl_insertText (h : b.collapses = true) {first : Text} {before : List Tree}
    (hsiblings : b.siblings = .text first.collapse :: before) (pieces : List Text) :
    (pieces.foldl insertText b).siblings = .text (first ++ pieces.flatten).collapse :: before := by
  induction pieces generalizing b first with
  | nil => rw [List.foldl_nil, hsiblings, List.flatten_nil, List.append_nil]
  | cons piece pieces ih =>
    have hnext : b.insertText piece =
        b.withSiblings (.text (first ++ piece).collapse :: before) := by
      unfold insertText
      rw [hsiblings]
      show b.withSiblings (.text (b.kept (first.collapse ++ piece)) :: before) = _
      rw [kept, if_pos h, Text.collapse_collapse_append]
    rw [List.foldl_cons, hnext, ih (collapses_withSiblings .. |>.trans h) (siblings_withSiblings ..),
      List.flatten_cons, List.append_assoc]

end Builder

/-! ## Linked forests with collapsed texts -/

/-- What a node is, with its text collapsed. -/
def Content.collapsed : Content → Content
  | .data .text content => .data .text content.collapse
  | content => content

/-- A node whose text is collapsed. -/
def Node.collapsed (node : Node) : Node := { node with content := node.content.collapsed }

namespace Forest

/-- A forest whose texts are collapsed. The nodes keep their places and their links. -/
def collapsed (f : Forest) : Forest := { f with nodes := f.nodes.map Node.collapsed }

variable (f : Forest)

theorem content?_collapsed (id : NodeId) :
    f.collapsed.content? id = (f.content? id).map Content.collapsed := by
  unfold content? collapsed
  rw [Array.getElem?_map, Option.map_map, Option.map_map]
  rfl

theorem list_collapsed (place : Place) : f.collapsed.list place = f.list place := by
  cases place with
  | roots => rfl
  | childrenOf id =>
    unfold list children
    simp only
    rw [content?_collapsed]
    cases f.content? id with
    | none => rfl
    | some content =>
      cases content with
      | element name attrs children => rfl
      | data kind content => cases kind <;> rfl
      | bare label => rfl

theorem text?_collapsed (id : NodeId) : f.collapsed.text? id = (f.text? id).map Text.collapse := by
  unfold text?
  rw [content?_collapsed]
  cases f.content? id with
  | none => rfl
  | some content =>
    cases content with
    | element name attrs children => rfl
    | data kind content => cases kind <;> rfl
    | bare label => rfl

/-- A change of one node on both sides. -/
theorem modify_collapsed {change change' : Node → Node}
    (h : ∀ node, change' node.collapsed = (change node).collapsed) (id : NodeId) :
    f.collapsed.modify id change' = (f.modify id change).collapsed := by
  unfold modify collapsed
  simp only [mk.injEq, and_true]
  refine Array.ext_getElem? fun other => ?_
  rw [Array.getElem?_modify, Array.getElem?_map, Array.getElem?_map, Array.getElem?_modify]
  split
  · rw [Option.map_map, Option.map_map]
    exact congrArg (Option.map · _) (funext h)
  · rfl

theorem modifyLinks_collapsed (id : NodeId) (change : Links → Links) :
    f.collapsed.modifyLinks id change = (f.modifyLinks id change).collapsed := by
  have hchange : ∀ node : Node, { node.collapsed with links := change node.collapsed.links } =
      Node.collapsed { node with links := change node.links } := fun _ => rfl
  exact f.modify_collapsed hchange id

theorem modifyLinks?_collapsed (id? : Option NodeId) (change : Links → Links) :
    f.collapsed.modifyLinks? id? change = (f.modifyLinks? id? change).collapsed := by
  cases id? with
  | none => rfl
  | some id => exact f.modifyLinks_collapsed id change

theorem setList_collapsed (place : Place) (ids : List NodeId) :
    f.collapsed.setList place ids = (f.setList place ids).collapsed := by
  cases place with
  | roots => rfl
  | childrenOf id =>
    refine f.modify_collapsed (fun node => ?_) id
    obtain ⟨content, links⟩ := node
    cases content with
    | element name attrs children => rfl
    | data kind content => cases kind <;> rfl
    | bare label => rfl

theorem link_collapsed (place : Place) (id : NodeId) (parent : Option NodeId) :
    f.collapsed.link place id parent = (f.link place id parent).collapsed := by
  unfold link
  simp only
  rw [list_collapsed, modifyLinks?_collapsed, modifyLinks_collapsed, list_collapsed,
    setList_collapsed]

/-- Text that is set is collapsed on the one side. -/
theorem setData_collapsed {id : NodeId} {before : Text} (h : f.text? id = some before)
    (content : Text) :
    f.collapsed.setData id content.collapse = (f.setData id content).collapsed := by
  have hcontent := content?_of_text? h
  unfold setData modify collapsed
  simp only [mk.injEq, and_true]
  refine Array.ext_getElem? fun other => ?_
  rw [Array.getElem?_modify, Array.getElem?_map, Array.getElem?_map, Array.getElem?_modify]
  split
  · next heq =>
    -- The node holds text.
    obtain ⟨⟨_, links⟩, hnode, rfl⟩ := Option.map_eq_some_iff.1 hcontent
    rw [← heq, hnode]
    rfl
  · rfl

theorem allocate_collapsed (node : Node) :
    f.collapsed.allocate node.collapsed = ((f.allocate node).1, (f.allocate node).2.collapsed) := by
  unfold allocate collapsed
  simp only [Array.size_map, Array.map_push]

end Forest

namespace LinkedBuilder

/-- The builder that collapses blanks, with the forest of a builder whose texts are collapsed. -/
def collapsed (l : LinkedBuilder) : LinkedBuilder where
  collapses := true
  forest := l.forest.collapsed
  opened := l.opened

theorem collapsed_empty : collapsed { collapses := false } = { collapses := true } := by
  simp [collapsed, Forest.collapsed]

variable (l : LinkedBuilder)

theorem lowered_collapsed (id : NodeId) : l.collapsed.lowered id = l.lowered id := by
  unfold lowered
  rw [show l.collapsed.forest = l.forest.collapsed from rfl, Forest.content?_collapsed]
  cases l.forest.content? id with
  | none => rfl
  | some content =>
    cases content with
    | element name attrs children => rfl
    | data kind content => cases kind <;> rfl
    | bare label => rfl

theorem insert_collapsed (content : Content) :
    l.collapsed.insert content.collapsed = ((l.insert content).1, (l.insert content).2.collapsed) := by
  unfold insert
  simp only
  rw [show l.collapsed.forest.allocate ⟨content.collapsed, {}⟩ = _ from
    l.forest.allocate_collapsed ⟨content, {}⟩]
  simp only
  rw [Forest.link_collapsed]
  rfl

theorem closeImplied_collapsed (started : Text) :
    l.collapsed.closeImplied started = (l.closeImplied started).collapsed := by
  unfold closeImplied
  simp only [lowered_collapsed]
  rfl

theorem startTag_collapsed (name : Text) (attrs : Attributes) :
    (l.collapsed.startTag name attrs).1 = (l.startTag name attrs).1.collapsed := by
  unfold startTag Node.element
  simp only
  rw [closeImplied_collapsed]
  generalize l.closeImplied name.lowercase = l'
  split
  · rfl
  · next node hnode =>
    have hcontent : node.content.collapsed = node.content := by
      split at hnode <;> cases hnode
      rfl
    have hinsert := l'.insert_collapsed node.content
    rw [hcontent] at hinsert
    rw [hinsert]
    split <;> rfl

theorem endTag_collapsed (name : Text) : l.collapsed.endTag name = (l.endTag name).collapsed := by
  have hinsert := congrArg Prod.snd (l.insert_collapsed (.element name [] []))
  unfold endTag
  simp only [lowered_collapsed]
  rw [show l.collapsed.opened = l.opened from rfl]
  split
  · split
    · exact hinsert
    · rfl
  · split
    · rfl
    · split
      · exact hinsert
      · rfl

variable {l}

/-- Text that was collapsed is continued, and collapsed again. -/
theorem insertText_collapsed (h : l.collapses = false) (content : Text) :
    l.collapsed.insertText content = (l.insertText content).collapsed := by
  have hkept : ∀ content, l.kept content = content := fun content => by
    unfold kept
    rw [if_neg (Bool.eq_false_iff.1 h)]
  have hinsert := congrArg Prod.snd (l.insert_collapsed (.data .text content))
  have hlist : l.collapsed.forest.list l.collapsed.place = l.forest.list l.place :=
    l.forest.list_collapsed l.place
  unfold insertText
  rw [hlist]
  split
  · rwa [hkept]
  · next last hlast =>
    rw [show l.collapsed.forest = l.forest.collapsed from rfl, Forest.text?_collapsed]
    cases htext : l.forest.text? last with
    | none => rwa [hkept]
    | some before =>
      show LinkedBuilder.mk true (l.forest.collapsed.setData last (before.collapse ++ content).collapse)
        l.opened = _
      rw [Text.collapse_collapse_append, l.forest.setData_collapsed htext]
      simp only [hkept]
      rfl

/-- A token on both sides. -/
theorem accept_collapsed (h : l.collapses = false) (token : Token) :
    (l.collapsed.accept token).1 = (l.accept token).1.collapsed := by
  cases token with
  | startTag name attrs => exact l.startTag_collapsed name attrs
  | endTag name attrs => exact l.endTag_collapsed name
  | data kind content =>
    cases kind with
    | text => exact insertText_collapsed h content
    | comment => exact congrArg Prod.snd (l.insert_collapsed (.data .comment content))
    | cdata => exact congrArg Prod.snd (l.insert_collapsed (.data .cdata content))
    | directive => exact congrArg Prod.snd (l.insert_collapsed (.data .directive content))
  | endOfInput => rfl

/-- No token changes whether blanks are collapsed. -/
theorem collapses_accept (l : LinkedBuilder) (token : Token) :
    (l.accept token).1.collapses = l.collapses := by
  cases token with
  | startTag name attrs =>
    show (l.startTag name attrs).1.collapses = l.collapses
    unfold startTag
    simp only
    split
    · rfl
    · split <;> rfl
  | endTag name attrs =>
    show (l.endTag name).collapses = l.collapses
    unfold endTag
    simp only
    split
    · split <;> rfl
    · split
      · rfl
      · split <;> rfl
  | data kind content =>
    cases kind with
    | text =>
      show (l.insertText content).collapses = l.collapses
      unfold insertText
      split
      · rfl
      · split <;> rfl
    | comment | cdata | directive => rfl
  | endOfInput => rfl

theorem acceptAll_collapsed (h : l.collapses = false) (tokens : List Token) :
    l.collapsed.acceptAll tokens = (l.acceptAll tokens).collapsed := by
  induction tokens generalizing l with
  | nil => rfl
  | cons token tokens ih =>
    show acceptAll (l.collapsed.accept token).1 tokens = (acceptAll (l.accept token).1 tokens).collapsed
    rw [accept_collapsed h, ih ((l.collapses_accept token).trans h)]

end LinkedBuilder

/-- **Collapsing commutes with parsing.** A text that is parsed with blanks collapsed has the trees that
it has otherwise, with each text in them collapsed, and the linked forest is the same but for the
texts. Collapsing writes each maximal run of blanks as one space and leaves all else. A text that
comes in several pieces is collapsed behind each of them, and comes out as if it had been collapsed
once, as a whole. -/
theorem Tree.parse_collapsed (text : Text) (sections : Bool) :
    Tree.parse text true sections = Tree.collapsedAll (Tree.parse text false sections) ∧
      (LinkedBuilder.acceptAll { collapses := true } (Scanner.tokens text sections)).forest =
        (LinkedBuilder.acceptAll { collapses := false }
          (Scanner.tokens text sections)).forest.collapsed ∧
      (∀ content : Text, content.collapse =
        content.runs.flatMap fun run => if run.all Text.isBlank then [' '] else run) ∧
      ∀ (b : Builder) (first : Text) (pieces : List Text), b.collapses = true →
        (∀ content, b.siblings.head? ≠ some (.text content)) →
          ((first :: pieces).foldl Builder.insertText b).siblings =
            .text (first ++ pieces.flatten).collapse :: b.siblings := by
  refine ⟨?_, ?_, Text.collapse_eq_flatMap_runs, fun b first pieces hcollapses hfresh => ?_⟩
  · unfold parse
    rw [show ({ collapses := true } : Builder) = Builder.collapsed { collapses := false } from rfl,
      Builder.absorbAll_collapsed rfl, Builder.trees_collapsed]
  · rw [← LinkedBuilder.collapsed_empty, LinkedBuilder.acceptAll_collapsed rfl]
    rfl
  · have hfirst : b.insertText first = b.insert (.text first.collapse) := by
      unfold Builder.insertText Builder.kept
      rw [if_pos hcollapses]
      cases hsiblings : b.siblings with
      | nil => rfl
      | cons last before =>
        rw [hsiblings] at hfresh
        split
        · next content _ heq => exact absurd (congrArg List.head? heq) (hfresh content)
        · rfl
    rw [List.foldl_cons, hfirst]
    exact Builder.siblings_foldl_insertText (Builder.collapses_withSiblings .. |>.trans hcollapses)
      (Builder.siblings_withSiblings ..) pieces

end MarkupBinding
