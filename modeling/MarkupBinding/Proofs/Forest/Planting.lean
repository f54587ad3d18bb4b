import MarkupBinding.Proofs.Forest.Outline

/-!
# Planted trees

Trees that are laid out in a table follow an outline whose nodes are numbered in document order, and
the same trees are read off it again.

* `names_outlineAll`: the numbering has neither gaps nor repetitions.
* `stands_layoutAll`: a table that holds a layout nests and links its nodes as the trees say.
* `Tree.Labelled`, `label?_of_graft`: the new nodes are those of the trees.
* `follows_ofTrees`: the forest of some trees follows their outline.
-/

namespace MarkupBinding

open Outline

namespace Tree

section

variable (Q : Content → Prop)

mutual

/-- All nodes of a tree are of some sort; the children of an element are left out. -/
def Labelled : Tree → Prop
  | .element name attrs children => Q (.element name attrs []) ∧ LabelledAll children
  | .data kind content => Q (.data kind content)

def LabelledAll : List Tree → Prop
  | [] => True
  | tree :: trees => Labelled tree ∧ LabelledAll trees

end

variable {Q}

theorem labelledAll_iff {trees : List Tree} :
    LabelledAll Q trees ↔ ∀ tree ∈ trees, Labelled Q tree := by
  induction trees with
  | nil => simp [LabelledAll]
  | cons tree trees ih => simp [LabelledAll, ih]

theorem labelledAll_reverse {trees : List Tree} :
    LabelledAll Q trees.reverse ↔ LabelledAll Q trees := by
  simp only [labelledAll_iff, List.mem_reverse]

end

mutual

theorem labelled_ne_bare : ∀ tree : Tree, Labelled (fun content => ∀ label, content ≠ .bare label) tree
  | .data _ _ => fun _ => Content.noConfusion
  | .element _ _ children => ⟨fun _ => Content.noConfusion, labelledAll_ne_bare children⟩

/-- Trees have elements and character data only. -/
theorem labelledAll_ne_bare :
    ∀ trees : List Tree, LabelledAll (fun content => ∀ label, content ≠ .bare label) trees
  | [] => trivial
  | tree :: trees => ⟨labelled_ne_bare tree, labelledAll_ne_bare trees⟩

end

mutual

/-- The outline of a tree that is laid out from `start`. -/
def outline (start : NodeId) : Tree → Outline
  | .data _ _ => .node start []
  | .element _ _ children => .node start (outlineAll (start + 1) children)

/-- The outlines of trees that are laid out one after another. -/
def outlineAll (start : NodeId) : List Tree → List Outline
  | [] => []
  | tree :: trees => outline start tree :: outlineAll (start + size tree) trees

end

@[simp] theorem name_outline (start : NodeId) (tree : Tree) : (outline start tree).name = start := by
  cases tree <;> rfl

theorem ids_outlineAll (trees : List Tree) :
    ∀ start, ids (outlineAll start trees) = idsFrom start trees := by
  induction trees with
  | nil => intro _; rfl
  | cons tree trees ih =>
    intro start
    rw [outlineAll, idsFrom, ← ih, ids, List.map_cons, name_outline]
    rfl

mutual

theorem names_outline : ∀ (tree : Tree) (start : NodeId),
    (outline start tree).names = List.range' start (size tree)
  | .data _ _, start => rfl
  | .element _ _ children, start => by
    rw [outline, names, names_outlineAll children, size, List.range'_succ]

/-- The nodes are numbered in document order. -/
theorem names_outlineAll : ∀ (trees : List Tree) (start : NodeId),
    namesAll (outlineAll start trees) = List.range' start (sizeAll trees)
  | [], start => rfl
  | tree :: trees, start => by
    rw [outlineAll, namesAll, names_outline tree, names_outlineAll trees, sizeAll,
      List.range'_append_1]

end

mutual

theorem length_layout : ∀ (tree : Tree) (start : NodeId) (links : Links),
    (layout start links tree).length = size tree
  | .data _ _, _, _ => rfl
  | .element _ _ children, start, links => by
    rw [layout, List.length_cons, length_layoutAll children, size]

/-- A layout has one entry for each node. -/
theorem length_layoutAll : ∀ (trees : List Tree) (start : NodeId) (parent previous : Option NodeId),
    (layoutAll start parent previous trees).length = sizeAll trees
  | [], _, _, _ => rfl
  | tree :: trees, start, parent, previous => by
    rw [layoutAll, List.length_append, length_layout tree, length_layoutAll trees, sizeAll]

end

end Tree

namespace Forest

variable {f g : Forest}

/-- The table of a forest holds some nodes one after another. -/
def Holds (f : Forest) (start : NodeId) (nodes : List Node) : Prop :=
  ∀ k node, nodes[k]? = some node → f.nodes[start + k]? = some node

theorem Holds.head {start : NodeId} {node : Node} {nodes : List Node}
    (h : f.Holds start (node :: nodes)) : f.nodes[start]? = some node :=
  h 0 node rfl

theorem Holds.tail {start : NodeId} {node : Node} {nodes : List Node}
    (h : f.Holds start (node :: nodes)) : f.Holds (start + 1) nodes := by
  intro k other hk
  rw [Nat.add_right_comm]
  exact h (k + 1) other hk

theorem Holds.left {start : NodeId} {xs ys : List Node} (h : f.Holds start (xs ++ ys)) :
    f.Holds start xs := by
  intro k node hk
  refine h k node ?_
  rw [List.getElem?_append_left (List.getElem?_eq_some_iff.1 hk).1]
  exact hk

theorem Holds.right {start : NodeId} {xs ys : List Node} (h : f.Holds start (xs ++ ys)) :
    f.Holds (start + xs.length) ys := by
  intro k node hk
  rw [Nat.add_assoc]
  refine h (xs.length + k) node ?_
  rw [List.getElem?_append_right (Nat.le_add_right _ _), Nat.add_sub_cancel_left]
  exact hk

mutual

/-- A tree that is laid out is read off again; the rows below it stand. -/
theorem stands_layout : ∀ (tree : Tree) (start : NodeId) (links : Links),
    f.Holds start (tree.layout start links) →
      f.links start = links ∧ f.treeOf (tree.outline start) = tree ∧
        ∀ row ∈ (tree.outline start).rows, f.Stands row
  | .data kind content, start, links, h => by
    have hnode := h.head
    refine ⟨?_, ?_, ?_⟩
    · unfold Forest.links
      rw [hnode]
      rfl
    · rw [Tree.outline, treeOf]
      unfold label? content?
      rw [hnode]
      rfl
    · intro row hrow
      rw [Tree.outline, rows, rowsAll, List.mem_singleton] at hrow
      subst hrow
      refine ⟨?_, trivial⟩
      unfold list children content?
      simp only
      rw [hnode]
      rfl
  | .element name attrs children, start, links, h => by
    rw [Tree.layout] at h
    have hnode := h.head
    obtain ⟨hlinked, htrees, hrows⟩ := stands_layoutAll children (start + 1) (some start) none h.tail
    refine ⟨?_, ?_, ?_⟩
    · unfold Forest.links
      rw [hnode]
      rfl
    · rw [Tree.outline, treeOf, htrees]
      unfold label? content?
      rw [hnode]
      rfl
    · intro row hrow
      rw [Tree.outline, rows, List.mem_cons] at hrow
      rcases hrow with rfl | hrow
      · refine ⟨?_, hlinked⟩
        unfold list Forest.children content?
        simp only
        rw [hnode, Tree.ids_outlineAll]
        rfl
      · exact hrows row hrow

/-- Trees that are laid out one after another are linked with each other, and read off again. -/
theorem stands_layoutAll : ∀ (trees : List Tree) (start : NodeId) (parent previous : Option NodeId),
    f.Holds start (Tree.layoutAll start parent previous trees) →
      f.Linked parent previous (ids (Tree.outlineAll start trees)) none ∧
        f.treesOf (Tree.outlineAll start trees) = trees ∧
        ∀ row ∈ rowsAll (Tree.outlineAll start trees), f.Stands row
  | [], _, _, _, _ => ⟨trivial, rfl, fun _ hrow => absurd hrow List.not_mem_nil⟩
  | tree :: trees, start, parent, previous, h => by
    rw [Tree.layoutAll] at h
    have hright := h.right
    rw [Tree.length_layout] at hright
    obtain ⟨hlinks, htree, hrows⟩ := stands_layout tree start _ h.left
    obtain ⟨hlinked, htrees, hrest⟩ :=
      stands_layoutAll trees (start + tree.size) parent (some start) hright
    rw [Tree.outlineAll]
    refine ⟨⟨?_, ?_⟩, ?_, ?_⟩
    · rw [Tree.name_outline, hlinks]
      cases trees with
      | nil => rfl
      | cons next trees =>
        show _ = Links.mk parent previous (some (Tree.outline (start + tree.size) next).name)
        rw [Tree.name_outline]
        rfl
    · rw [Tree.name_outline]
      exact hlinked
    · rw [treesOf, htree, htrees]
    · intro row hrow
      rw [rowsAll, List.mem_append] at hrow
      rcases hrow with hrow | hrow
      · exact hrows row hrow
      · exact hrest row hrow

end

/-- The table of a forest holds what was put behind it. -/
theorem holds_append (f : Forest) (nodes : List Node) :
    Holds { f with nodes := f.nodes ++ nodes.toArray } f.nodes.size nodes := by
  intro k node hk
  show (f.nodes ++ nodes.toArray)[f.nodes.size + k]? = some node
  rw [Array.getElem?_append_right (Nat.le_add_right _ _), Nat.add_sub_cancel_left,
    List.getElem?_toArray]
  exact hk

/-- Trees that were grafted are linked with each other and follow their outline. -/
theorem graft_spec (f : Forest) (trees : List Tree) :
    let outlines := Tree.outlineAll f.nodes.size trees
    (f.graft trees).1 = ids outlines ∧
      Extends f (f.graft trees).2 ∧
      (f.graft trees).2.Linked none none (ids outlines) none ∧
      (f.graft trees).2.treesOf outlines = trees ∧
      (∀ row ∈ rowsAll outlines, (f.graft trees).2.Stands row) ∧
      (namesAll outlines).Nodup ∧
      ∀ id ∈ namesAll outlines, f.nodes.size ≤ id ∧ id < (f.graft trees).2.nodes.size := by
  intro outlines
  obtain ⟨hlinked, htrees, hrows⟩ :=
    stands_layoutAll trees f.nodes.size none none (holds_append f _)
  have hnames : namesAll outlines = List.range' f.nodes.size (Tree.sizeAll trees) :=
    Tree.names_outlineAll trees _
  refine ⟨(Tree.ids_outlineAll trees _).symm, Extends.of_append f _, hlinked, htrees, hrows, ?_, ?_⟩
  · rw [hnames]
    exact List.nodup_range'
  · intro id hid
    rw [hnames, List.mem_range'_1] at hid
    refine ⟨hid.1, ?_⟩
    have hsize : (Tree.layoutAll f.nodes.size none none trees).toArray.size = Tree.sizeAll trees := by
      rw [List.size_toArray, Tree.length_layoutAll]
    show id < (f.nodes ++ (Tree.layoutAll f.nodes.size none none trees).toArray).size
    rw [Array.size_append, hsize]
    exact hid.2

/-! ## What the new nodes are -/

section

variable {Q : Content → Prop}

mutual

theorem label_layout : ∀ (tree : Tree) (start : NodeId) (links : Links), tree.Labelled Q →
    ∀ entry ∈ tree.layout start links, Q entry.content.label
  | .data kind content, start, links, h, entry, hnode => by
    rw [Tree.layout, List.mem_singleton] at hnode
    rw [hnode]
    exact h
  | .element name attrs children, start, links, h, entry, hnode => by
    rw [Tree.layout, List.mem_cons] at hnode
    rcases hnode with rfl | hnode
    · exact h.1
    · exact label_layoutAll children _ _ _ h.2 entry hnode

/-- A layout has the nodes of the trees. -/
theorem label_layoutAll : ∀ (trees : List Tree) (start : NodeId) (parent previous : Option NodeId),
    Tree.LabelledAll Q trees →
      ∀ entry ∈ Tree.layoutAll start parent previous trees, Q entry.content.label
  | [], _, _, _, _, entry, hnode => absurd hnode List.not_mem_nil
  | tree :: trees, start, parent, previous, h, entry, hnode => by
    rw [Tree.layoutAll, List.mem_append] at hnode
    rcases hnode with hnode | hnode
    · exact label_layout tree _ _ h.1 entry hnode
    · exact label_layoutAll trees _ _ _ h.2 entry hnode

end

/-- A node was in the table before, or is one of the nodes of the trees. -/
theorem label?_of_graft {f : Forest} {trees : List Tree} (htrees : Tree.LabelledAll Q trees)
    {id : NodeId} {label : Content} (h : (f.graft trees).2.label? id = some label) :
    f.label? id = some label ∨ Q label := by
  let nodes := Tree.layoutAll f.nodes.size none none trees
  have h : label? { f with nodes := f.nodes ++ nodes.toArray } id = some label := h
  by_cases hid : id < f.nodes.size
  · exact .inl (((Extends.of_append f nodes.toArray).label hid).symm.trans h)
  · obtain ⟨content, hcontent, rfl⟩ := Option.map_eq_some_iff.1 h
    obtain ⟨entry, hentry, rfl⟩ := Option.map_eq_some_iff.1 hcontent
    have hbehind : (f.nodes ++ nodes.toArray)[id]? = some entry := hentry
    rw [Array.getElem?_append_right (Nat.le_of_not_lt hid), List.getElem?_toArray] at hbehind
    exact .inr (label_layoutAll trees _ _ _ htrees entry (List.mem_of_getElem? hbehind))

/-- All nodes in the table of a forest are of some sort. -/
def Every (Q : Content → Prop) (f : Forest) : Prop := ∀ id label, f.label? id = some label → Q label

theorem every_graft {f : Forest} {trees : List Tree} (h : f.Every Q)
    (htrees : Tree.LabelledAll Q trees) : (f.graft trees).2.Every Q :=
  fun id label hlabel => (label?_of_graft htrees hlabel).elim (h id label) fun hQ => hQ

theorem every_ofTrees {trees : List Tree} (htrees : Tree.LabelledAll Q trees) :
    (ofTrees trees).Every Q := by
  have hempty : Every Q {} := fun id label hlabel => by cases hlabel
  exact every_graft hempty htrees

mutual

theorem labelled_treeOf {f : Forest} (hblank : Q (.data .text [])) : ∀ outline : Outline,
    (∀ id ∈ outline.names, ∀ label, f.label? id = some label → Q label) →
      (f.treeOf outline).Labelled Q
  | .node id children, h => by
    rw [names] at h
    have hself := h id List.mem_cons_self
    rw [treeOf]
    split
    · next hlabel =>
      have hbelow := labelledAll_treesOf hblank children
        fun id hid => h id (List.mem_cons_of_mem _ hid)
      obtain rfl := eq_nil_of_label? hlabel
      exact ⟨hself _ hlabel, hbelow⟩
    · next hlabel => exact hself _ hlabel
    · exact hblank

/-- The trees that are read off a forest have its nodes. -/
theorem labelledAll_treesOf {f : Forest} (hblank : Q (.data .text [])) : ∀ outlines : List Outline,
    (∀ id ∈ namesAll outlines, ∀ label, f.label? id = some label → Q label) →
      Tree.LabelledAll Q (f.treesOf outlines)
  | [], _ => trivial
  | outline :: outlines, h => by
    rw [namesAll] at h
    exact ⟨labelled_treeOf hblank outline fun id hid => h id (List.mem_append_left _ hid),
      labelledAll_treesOf hblank outlines fun id hid => h id (List.mem_append_right _ hid)⟩

end

end

theorem label?_of_graft_bare {f : Forest} {trees : List Tree} {id : NodeId} {label : Text}
    (h : (f.graft trees).2.label? id = some (.bare label)) : f.label? id = some (.bare label) :=
  (label?_of_graft (Tree.labelledAll_ne_bare trees) h).resolve_right fun hne => hne label rfl

/-- An element without children is planted as one new node. -/
theorem graft_element (f : Forest) (name : Text) (attrs : Attributes) :
    f.graft [.element name attrs []] =
      ([f.nodes.size], (f.allocate { content := .element name attrs [] }).2) := by
  have hlayout : f.nodes ++ (Tree.layoutAll f.nodes.size none none [.element name attrs []]).toArray =
      f.nodes.push { content := .element name attrs [] } := Array.push_eq_append.symm
  unfold graft allocate
  simp only
  rw [hlayout]
  rfl

/-- The forest of some trees follows their outline. -/
theorem follows_ofTrees (trees : List Tree) :
    (ofTrees trees).Follows (Tree.outlineAll 0 trees) := by
  obtain ⟨hids, _, hlinked, _, hrows, hnodup, hnames⟩ := graft_spec {} trees
  refine ⟨?_, hnodup, fun id hid => (hnames id hid).2⟩
  intro row hrow
  rcases List.mem_cons.1 hrow with rfl | hrow
  · exact ⟨hids, hlinked.congr fun _ _ => rfl⟩
  · obtain ⟨owner, _, hplace⟩ := exists_owner_of_mem_rowsAll hrow
    refine (hrows row hrow).congr ?_ fun _ _ => rfl
    rw [hplace]
    rfl

/-- The trees are read off it again. -/
theorem treesOf_ofTrees (trees : List Tree) :
    (ofTrees trees).treesOf (Tree.outlineAll 0 trees) = trees := by
  obtain ⟨_, _, _, htrees, _⟩ := graft_spec {} trees
  have hsame : (ofTrees trees).treesOf (Tree.outlineAll 0 trees) =
      (graft {} trees).2.treesOf (Tree.outlineAll 0 trees) :=
    treesOf_congr _ fun _ _ => rfl
  exact hsame.trans htrees

end Forest
end MarkupBinding
