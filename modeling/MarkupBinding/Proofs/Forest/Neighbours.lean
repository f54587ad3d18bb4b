import MarkupBinding.Binder
import MarkupBinding.Proofs.Forest.Outline
import MarkupBinding.Proofs.Tree.Apart

/-!
# Neighbours in the rows of a forest

What holds of neighbours in the trees of a forest holds of the nodes that stand side by side in it.
And the node that a text would be declared at is read off the row in which the text stands.

* `isChain_rowsAll`: a relation of trees on all levels is one of the nodes in every row.
* `Follows.textsApart`: texts that are apart in the trees are apart in the forest.
* `Stands.anchor?_eq`: where a node would be declared.
-/

namespace MarkupBinding.Forest

open Outline

variable {f g : Forest} {R : Tree → Tree → Prop} {S : NodeId → NodeId → Prop}

/-- The tree of a node that holds text. -/
theorem treeOf_eq_text {outline : Outline} {content : Text}
    (h : f.text? outline.name = some content) : f.treeOf outline = .text content := by
  obtain ⟨id, children⟩ := outline
  have hlabel : f.label? id = some (.data .text content) := label?_of_text? h
  rw [treeOf, hlabel]

/-- A node that holds text is a text in its tree. -/
theorem isText_treeOf {outline : Outline} (h : (f.text? outline.name).isSome = true) :
    (f.treeOf outline).isText = true := by
  obtain ⟨content, htext⟩ := Option.isSome_iff_exists.1 h
  rw [treeOf_eq_text htext]
  rfl

/-- An element in a tree is one in the forest. -/
theorem hasPlace_of_isElement {outline : Outline} (h : (f.treeOf outline).isElement = true) :
    f.HasPlace (.childrenOf outline.name) := by
  obtain ⟨id, children⟩ := outline
  rw [treeOf] at h
  split at h
  · next tag attrs below hlabel =>
    obtain ⟨content, hcontent, hlabel'⟩ := Option.map_eq_some_iff.1 hlabel
    cases content with
    | element tag' attrs' children' => exact hasPlace_of_content? hcontent
    | data kind data => cases hlabel'
    | bare label => cases hlabel'
  · cases h
  · cases h

theorem isChain_ids (hRS : ∀ before after : Outline, R (f.treeOf before) (f.treeOf after) →
    S before.name after.name) {outlines : List Outline} (h : (f.treesOf outlines).IsChain R) :
    (ids outlines).IsChain S := by
  rw [treesOf_eq_map, List.isChain_map] at h
  exact (List.isChain_map name).2 (h.imp hRS)

mutual

theorem isChain_rows (hRS : ∀ before after : Outline, R (f.treeOf before) (f.treeOf after) →
    S before.name after.name) : ∀ (outline : Outline), (∀ row ∈ outline.rows, f.Stands row) →
      (f.treeOf outline).ChainedBelow R → ∀ row ∈ outline.rows, row.ids.IsChain S
  | .node id children, hstands, hchained, row, hrow => by
    rw [rows, List.mem_cons] at hrow
    have hlist : f.children id = ids children :=
      (hstands ⟨.childrenOf id, ids children⟩ (by rw [rows]; exact List.mem_cons_self)).list
    cases children with
    | nil =>
      rcases hrow with rfl | hrow
      · exact .nil
      · exact absurd hrow List.not_mem_nil
    | cons child children =>
      -- A node with children is an element, and its children are related.
      obtain ⟨tag, attrs, hlabel⟩ : f.HasPlace (.childrenOf id) := by
        refine hasPlace_of_mem (?_ : child.name ∈ f.list (.childrenOf id))
        show child.name ∈ f.children id
        rw [hlist]
        exact List.mem_cons_self
      rw [treeOf, hlabel] at hchained
      rcases hrow with rfl | hrow
      · exact isChain_ids hRS hchained.1
      · refine isChain_rowsAll hRS (child :: children) ?_ hchained.2 row hrow
        intro other hother
        exact hstands other (by rw [rows]; exact List.mem_cons_of_mem _ hother)

/-- A relation of trees on all levels is one of the nodes in every row. -/
theorem isChain_rowsAll (hRS : ∀ before after : Outline, R (f.treeOf before) (f.treeOf after) →
    S before.name after.name) : ∀ (outlines : List Outline),
      (∀ row ∈ rowsAll outlines, f.Stands row) → Tree.AllChainedBelow R (f.treesOf outlines) →
        ∀ row ∈ rowsAll outlines, row.ids.IsChain S
  | [], _, _, row, hrow => absurd hrow List.not_mem_nil
  | outline :: outlines, hstands, hchained, row, hrow => by
    rw [rowsAll] at hrow hstands
    rw [treesOf] at hchained
    rcases List.mem_append.1 hrow with hrow | hrow
    · exact isChain_rows hRS outline
        (fun other hother => hstands other (List.mem_append_left _ hother)) hchained.1 row hrow
    · exact isChain_rowsAll hRS outlines
        (fun other hother => hstands other (List.mem_append_right _ hother)) hchained.2 row hrow

end

/-! ## Texts apart -/

/-- No text stands right behind another. -/
def TextsApart (f : Forest) (ids : List NodeId) : Prop :=
  ids.IsChain fun before after => ¬ ((f.text? before).isSome = true ∧ (f.text? after).isSome = true)

theorem TextsApart.congr {ids : List NodeId} (h : f.TextsApart ids)
    (hlabel : ∀ id ∈ ids, g.label? id = f.label? id) : g.TextsApart ids := by
  refine List.IsChain.imp_of_mem_imp ?_ h
  intro before after hbefore hafter hnot
  rwa [text?_eq_of_label? (hlabel before hbefore), text?_eq_of_label? (hlabel after hafter)]

/-- Nodes whose trees are not both text are not. -/
theorem textsApart_of_areApart {before after : Outline}
    (h : Tree.AreApart (f.treeOf before) (f.treeOf after)) :
    ¬ ((f.text? before.name).isSome = true ∧ (f.text? after.name).isSome = true) :=
  fun ⟨hbefore, hafter⟩ => h ⟨isText_treeOf hbefore, isText_treeOf hafter⟩

/-- Texts that are apart in the trees of a forest are apart in each row. -/
theorem Follows.textsApart {outlines : List Outline} (h : f.Follows outlines)
    (hapart : Tree.Chained Tree.AreApart (f.treesOf outlines)) {row : Row}
    (hrow : row ∈ documentRows outlines) : f.TextsApart row.ids := by
  rcases List.mem_cons.1 hrow with rfl | hrow
  · exact isChain_ids (fun _ _ => textsApart_of_areApart) hapart.1
  · exact isChain_rowsAll (fun _ _ => textsApart_of_areApart) _ (fun _ => h.of_mem_rowsAll)
      hapart.2 row hrow

/-! ## Where a text would be declared -/

theorem Stands.links_eq_of_append {row : Row} (h : f.Stands row) {before after : List NodeId}
    {id : NodeId} (hrow : row.ids = before ++ id :: after) :
    f.links id = ⟨row.place.owner, before.getLast?, after.head?⟩ := by
  have hlinked := h.linked
  rw [hrow] at hlinked
  rw [hlinked.links_eq, Option.or_none, Option.or_none]

/-- The links of a node are decided by the row in which it stands. -/
theorem Stands.links_eq {row : Row} (hf : f.Stands row) (hg : g.Stands row) {id : NodeId}
    (hid : id ∈ row.ids) : g.links id = f.links id := by
  obtain ⟨before, after, hrow⟩ := List.append_of_mem hid
  rw [hf.links_eq_of_append hrow, hg.links_eq_of_append hrow]

/-- A node would be declared at the one before it, else at the one around it, else at the one
behind it. -/
theorem Stands.anchor?_eq {row : Row} (h : f.Stands row) {before after : List NodeId} {id : NodeId}
    (hrow : row.ids = before ++ id :: after) :
    f.anchor? id = (before.getLast? <|> row.place.owner <|> after.head?) := by
  unfold anchor?
  rw [h.links_eq_of_append hrow]

/-- A node that would be declared nowhere is alone in the document. -/
theorem Follows.roots_eq_of_anchor?_eq_none {outlines : List Outline} (h : f.Follows outlines)
    {row : Row} (hrow : row ∈ documentRows outlines) {id : NodeId} (hid : id ∈ row.ids)
    (hnone : f.anchor? id = none) : f.roots = [id] := by
  have hstands := h.stands row hrow
  obtain ⟨before, after, hsplit⟩ := List.append_of_mem hid
  rw [hstands.anchor?_eq hsplit] at hnone
  have hbefore : before = [] := by
    cases hlast : before.getLast? with
    | none => exact List.getLast?_eq_none_iff.1 hlast
    | some last =>
      rw [hlast] at hnone
      cases hnone
  subst hbefore
  obtain ⟨place, ids⟩ := row
  cases place with
  | childrenOf owner => cases hnone
  | roots =>
    have hafter : after = [] := List.head?_eq_none_iff.1 hnone
    subst hafter
    exact hstands.list.trans hsplit

end MarkupBinding.Forest
