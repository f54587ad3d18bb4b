import MarkupBinding.Forest.Graft

/-!
# What an edit leaves alone

A forest is looked at in three ways: the links of a node, what a node is apart from its children,
and the list at a place. Each edit changes one of them at few nodes, and this file says for each
basic edit what the other looks give.

* `SameContent`: a change of links leaves contents and lists alone.
* `label?_setList`, `links_setList`, `list_setList_of_ne`: a change of a list leaves the rest alone.
* `Extends`: new nodes leave the old ones alone.
-/

namespace MarkupBinding

/-- What a node is, its children left out. -/
def Content.label : Content → Content
  | .element name attrs _ => .element name attrs []
  | content => content

/-- The node whose children are listed at a place. -/
def Place.owner : Place → Option NodeId
  | .roots => none
  | .childrenOf id => some id

namespace Forest

variable {f g : Forest}

/-- What a node is, its children left out. -/
def label? (f : Forest) (id : NodeId) : Option Content := (f.content? id).map Content.label

/-- A place whose list can be set. -/
def HasPlace (f : Forest) : Place → Prop
  | .roots => True
  | .childrenOf id => ∃ name attrs, f.label? id = some (.element name attrs [])

/-- A node is in the table if it is anything. -/
theorem lt_size_of_label? {id : NodeId} {label : Content} (h : f.label? id = some label) :
    id < f.nodes.size := by
  rcases Nat.lt_or_ge id f.nodes.size with hlt | hge
  · exact hlt
  · unfold label? content? at h
    rw [Array.getElem?_eq_none hge] at h
    cases h

theorem label?_eq_none {id : NodeId} (h : f.nodes.size ≤ id) : f.label? id = none := by
  unfold label? content?
  rw [Array.getElem?_eq_none h]
  rfl

theorem exists_label? {id : NodeId} (h : id < f.nodes.size) : ∃ label, f.label? id = some label := by
  unfold label? content?
  rw [Array.getElem?_eq_getElem h]
  exact ⟨_, rfl⟩

theorem label?_of_content? {id : NodeId} {content : Content} (h : f.content? id = some content) :
    f.label? id = some content.label := congrArg (Option.map Content.label) h

theorem text?_of_content? {id : NodeId} {content : Text}
    (h : f.content? id = some (.data .text content)) : f.text? id = some content := by
  unfold text?
  rw [h]

theorem content?_of_text? {id : NodeId} {content : Text} (h : f.text? id = some content) :
    f.content? id = some (.data .text content) := by
  unfold text? at h
  split at h
  · next hcontent =>
    cases h
    exact hcontent
  · cases h

theorem label?_of_text? {id : NodeId} {content : Text} (h : f.text? id = some content) :
    f.label? id = some (.data .text content) := label?_of_content? (content?_of_text? h)

/-- So is the text that a node holds. -/
theorem text?_eq_of_label? {id : NodeId} (h : g.label? id = f.label? id) :
    g.text? id = f.text? id := by
  unfold label? at h
  unfold text?
  cases hf : f.content? id with
  | none => rw [hf, Option.map_none, Option.map_eq_none_iff] at h; rw [h]
  | some content =>
    rw [hf, Option.map_some] at h
    obtain ⟨other, hg, hlabel⟩ := Option.map_eq_some_iff.1 h
    rw [hg]
    cases content <;> cases other <;> cases hlabel <;> rfl

/-- The label of an element has no children. -/
theorem eq_nil_of_label? {id : NodeId} {name : Text} {attrs : Attributes} {children : List NodeId}
    (h : f.label? id = some (.element name attrs children)) : children = [] := by
  obtain ⟨content, _, heq⟩ := Option.map_eq_some_iff.1 h
  cases content <;> cases heq
  rfl

/-- A node with the label of an element is that element. -/
theorem content?_of_label? {id : NodeId} {name : Text} {attrs : Attributes}
    (h : f.label? id = some (.element name attrs [])) :
    ∃ children, f.content? id = some (.element name attrs children) := by
  obtain ⟨content, hcontent, heq⟩ := Option.map_eq_some_iff.1 h
  cases content with
  | element tag attrs' children =>
    cases heq
    exact ⟨children, hcontent⟩
  | data => cases heq
  | bare => cases heq

/-- A node whose children can be set is an element. -/
theorem content?_of_hasPlace {id : NodeId} (h : f.HasPlace (.childrenOf id)) :
    ∃ name attrs children, f.content? id = some (.element name attrs children) := by
  obtain ⟨name, attrs, hlabel⟩ := h
  exact ⟨name, attrs, content?_of_label? hlabel⟩

theorem hasPlace_of_content? {id : NodeId} {tag : Text} {attrs : Attributes}
    {children : List NodeId} (h : f.content? id = some (.element tag attrs children)) :
    f.HasPlace (.childrenOf id) := ⟨tag, attrs, label?_of_content? h⟩

/-- An element is no text. -/
theorem text?_eq_none_of_hasPlace {id : NodeId} (h : f.HasPlace (.childrenOf id)) :
    f.text? id = none := by
  obtain ⟨name, attrs, children, hcontent⟩ := content?_of_hasPlace h
  unfold text?
  rw [hcontent]

/-- A text has no children. -/
theorem children_eq_nil_of_text? {id : NodeId} {content : Text} (h : f.text? id = some content) :
    f.children id = [] := by
  unfold text? at h
  unfold children
  split at h
  · next hcontent => rw [hcontent]
  · cases h

/-- A node with children is an element. -/
theorem hasPlace_of_mem {place : Place} {id : NodeId} (h : id ∈ f.list place) :
    f.HasPlace place := by
  cases place with
  | roots => trivial
  | childrenOf owner =>
    unfold list children at h
    simp only at h
    split at h
    · next hcontent => exact hasPlace_of_content? hcontent
    · exact absurd h List.not_mem_nil

/-! ## Single nodes -/

theorem getElem?_modify (f : Forest) (id : NodeId) (change : Node → Node) (other : NodeId) :
    (f.modify id change).nodes[other]? =
      if id = other then f.nodes[other]?.map change else f.nodes[other]? := by
  unfold modify
  exact Array.getElem?_modify

theorem size_modify (f : Forest) (id : NodeId) (change : Node → Node) :
    (f.modify id change).nodes.size = f.nodes.size :=
  Array.size_modify

theorem links_modifyLinks_self {id : NodeId} (h : id < f.nodes.size) (change : Links → Links) :
    (f.modifyLinks id change).links id = change (f.links id) := by
  unfold links modifyLinks
  rw [getElem?_modify, if_pos rfl, Array.getElem?_eq_getElem h]
  rfl

theorem links_modifyLinks_of_ne {id other : NodeId} (h : other ≠ id) (change : Links → Links) :
    (f.modifyLinks id change).links other = f.links other := by
  unfold links modifyLinks
  rw [getElem?_modify, if_neg (Ne.symm h)]

/-! ## Changes of links -/

/-- Two forests that differ in links only. -/
structure SameContent (f g : Forest) : Prop where
  size : g.nodes.size = f.nodes.size
  roots : g.roots = f.roots
  content : ∀ id, g.content? id = f.content? id

namespace SameContent

theorem refl (f : Forest) : SameContent f f := ⟨rfl, rfl, fun _ => rfl⟩

theorem trans {h : Forest} (hfg : SameContent f g) (hgh : SameContent g h) : SameContent f h :=
  ⟨hgh.size.trans hfg.size, hgh.roots.trans hfg.roots,
    fun id => (hgh.content id).trans (hfg.content id)⟩

theorem modifyLinks (f : Forest) (id : NodeId) (change : Links → Links) :
    SameContent f (f.modifyLinks id change) := by
  refine ⟨size_modify .., rfl, fun other => ?_⟩
  unfold content? Forest.modifyLinks
  rw [getElem?_modify]
  split
  · rw [Option.map_map]
    rfl
  · rfl

theorem modifyLinks? (f : Forest) (id? : Option NodeId) (change : Links → Links) :
    SameContent f (f.modifyLinks? id? change) := by
  cases id? with
  | none => exact refl f
  | some id => exact modifyLinks f id change

theorem label (h : SameContent f g) (id : NodeId) : g.label? id = f.label? id := by
  unfold label?
  rw [h.content]

theorem list (h : SameContent f g) (place : Place) : g.list place = f.list place := by
  cases place with
  | roots => exact h.roots
  | childrenOf id =>
    unfold Forest.list children
    simp only [h.content]

end SameContent

/-- Links that belong to nobody cannot be changed. -/
theorem links_modifyLinks?_of_ne {id? : Option NodeId} {other : NodeId} (h : id? ≠ some other)
    (change : Links → Links) : (f.modifyLinks? id? change).links other = f.links other := by
  cases id? with
  | none => rfl
  | some id =>
    have hne : other ≠ id := fun heq => h (congrArg some heq.symm)
    exact links_modifyLinks_of_ne hne change

/-! ## Changes of lists -/

theorem size_setList (f : Forest) (place : Place) (ids : List NodeId) :
    (f.setList place ids).nodes.size = f.nodes.size := by
  cases place with
  | roots => rfl
  | childrenOf id => exact size_modify ..

/-- The node at an entry of the table after its list of children was set. -/
theorem getElem?_setList (f : Forest) (place : Place) (ids : List NodeId) (other : NodeId) :
    (f.setList place ids).nodes[other]? =
      if place = .childrenOf other then f.nodes[other]?.map fun node =>
        match node.content with
        | .element name attrs _ => { node with content := .element name attrs ids }
        | _ => node
      else f.nodes[other]? := by
  cases place with
  | roots => rfl
  | childrenOf id =>
    unfold setList
    rw [getElem?_modify]
    by_cases h : id = other
    · have hplace : Place.childrenOf id = .childrenOf other := congrArg _ h
      exact (if_pos h).trans (if_pos hplace).symm
    · rw [if_neg h, if_neg (by simpa using h)]

theorem links_setList (f : Forest) (place : Place) (ids : List NodeId) (other : NodeId) :
    (f.setList place ids).links other = f.links other := by
  unfold links
  rw [getElem?_setList]
  split
  · rw [Option.map_map]
    congr 1
    cases f.nodes[other]? with
    | none => rfl
    | some node =>
      show some _ = some node.links
      simp only [Function.comp]
      split <;> rfl
  · rfl

theorem label?_setList (f : Forest) (place : Place) (ids : List NodeId) (other : NodeId) :
    (f.setList place ids).label? other = f.label? other := by
  unfold label? content?
  rw [getElem?_setList]
  split
  · cases f.nodes[other]? with
    | none => rfl
    | some node =>
      simp only [Option.map_some]
      split
      · next hcontent => rw [hcontent]; rfl
      · rfl
  · rfl

theorem list_setList_self {place : Place} (h : f.HasPlace place) (ids : List NodeId) :
    (f.setList place ids).list place = ids := by
  cases place with
  | roots => rfl
  | childrenOf id =>
    obtain ⟨name, attrs, hlabel⟩ := h
    unfold list children content?
    simp only
    rw [getElem?_setList, if_pos rfl]
    unfold label? content? at hlabel
    cases hnode : f.nodes[id]? with
    | none => rw [hnode] at hlabel; cases hlabel
    | some node =>
      obtain ⟨content, links⟩ := node
      rw [hnode] at hlabel
      cases content with
      | element => rfl
      | data => cases hlabel
      | bare => cases hlabel

theorem list_setList_of_ne {place other : Place} (h : other ≠ place) (ids : List NodeId) :
    (f.setList place ids).list other = f.list other := by
  cases other with
  | roots =>
    cases place with
    | roots => exact absurd rfl h
    | childrenOf id => rfl
  | childrenOf id =>
    unfold list children content?
    simp only
    rw [getElem?_setList, if_neg (Ne.symm h)]

/-! ## New nodes -/

/-- A forest with more nodes in its table, none of them at a place of the old one. -/
structure Extends (f g : Forest) : Prop where
  size : f.nodes.size ≤ g.nodes.size
  roots : g.roots = f.roots
  node : ∀ id < f.nodes.size, g.nodes[id]? = f.nodes[id]?

namespace Extends

theorem of_append (f : Forest) (nodes : Array Node) :
    Extends f { f with nodes := f.nodes ++ nodes } := by
  refine ⟨?_, rfl, fun id h => ?_⟩
  · rw [Array.size_append]
    omega
  · exact Array.getElem?_append_left h

theorem allocate (f : Forest) (node : Node) : Extends f (f.allocate node).2 := by
  refine ⟨?_, rfl, fun id h => ?_⟩
  · show f.nodes.size ≤ (f.nodes.push node).size
    rw [Array.size_push]
    omega
  · show (f.nodes.push node)[id]? = f.nodes[id]?
    rw [Array.getElem?_push, if_neg (by omega)]

theorem links (h : Extends f g) {id : NodeId} (hid : id < f.nodes.size) :
    g.links id = f.links id := by
  unfold Forest.links
  rw [h.node id hid]

theorem label (h : Extends f g) {id : NodeId} (hid : id < f.nodes.size) :
    g.label? id = f.label? id := by
  unfold label? content?
  rw [h.node id hid]

theorem children (h : Extends f g) {id : NodeId} (hid : id < f.nodes.size) :
    g.children id = f.children id := by
  unfold Forest.children content?
  rw [h.node id hid]

end Extends

end Forest
end MarkupBinding
