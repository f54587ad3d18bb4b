import MarkupBinding.Proofs.Forest.Outline

/-!
# Edits that leave the shape of a forest alone

Data and attribute values change in their node only. How the nodes nest, how they are linked, and
which of them are elements stays.

* `SameShape`: two forests that differ in data and attributes only.
* `Follows.shape`: the forest still follows its outline.
-/

namespace MarkupBinding.Forest

open Outline

variable {f g : Forest}

/-- No node of a forest is of a kind of its own. -/
def Bareless (f : Forest) : Prop := ∀ id label, f.label? id ≠ some (.bare label)

/-- Two forests that differ in data and attributes only. -/
structure SameShape (f g : Forest) : Prop where
  size : g.nodes.size = f.nodes.size
  roots : g.roots = f.roots
  links : ∀ id, g.links id = f.links id
  children : ∀ id, g.children id = f.children id
  element : ∀ id, f.HasPlace (.childrenOf id) → g.HasPlace (.childrenOf id)
  bareless : f.Bareless → g.Bareless

namespace SameShape

theorem refl (f : Forest) : SameShape f f :=
  ⟨rfl, rfl, fun _ => rfl, fun _ => rfl, fun _ h => h, fun h => h⟩

theorem trans {h : Forest} (hfg : SameShape f g) (hgh : SameShape g h) : SameShape f h :=
  ⟨hgh.size.trans hfg.size, hgh.roots.trans hfg.roots,
    fun id => (hgh.links id).trans (hfg.links id),
    fun id => (hgh.children id).trans (hfg.children id),
    fun id hid => hgh.element id (hfg.element id hid), fun hf => hgh.bareless (hfg.bareless hf)⟩

/-- The kind of a node and its children stay. -/
def KeepsKind (content content' : Content) : Prop :=
  match content with
  | .element name _ children => ∃ attrs, content' = .element name attrs children
  | .data kind _ => ∃ text, content' = .data kind text
  | .bare label => content' = .bare label

theorem KeepsKind.refl (content : Content) : KeepsKind content content := by
  cases content with
  | element name attrs children => exact ⟨attrs, rfl⟩
  | data kind text => exact ⟨text, rfl⟩
  | bare label => rfl

/-- Two forests with the same links whose nodes differ in data and attributes only. -/
theorem of_keepsKind (hsize : g.nodes.size = f.nodes.size) (hroots : g.roots = f.roots)
    (hlinks : ∀ id, g.links id = f.links id)
    (hcontent : ∀ id, Option.Rel KeepsKind (f.content? id) (g.content? id)) : SameShape f g := by
  refine ⟨hsize, hroots, hlinks, fun id => ?_, fun id hplace => ?_, fun hbare id label => ?_⟩
  · have hkept := hcontent id
    unfold Forest.children
    generalize f.content? id = before at hkept ⊢
    generalize g.content? id = after at hkept ⊢
    cases hkept with
    | none => rfl
    | @some content content' hkept =>
      cases content with
      | element name attrs children | data kind text =>
        obtain ⟨_, rfl⟩ := hkept
        rfl
      | bare label =>
        obtain rfl := hkept
        rfl
  · obtain ⟨name, attrs, children, helement⟩ := content?_of_hasPlace hplace
    have hkept := hcontent id
    rw [helement] at hkept
    generalize hafter : g.content? id = after at hkept
    cases hkept with
    | some hkept =>
      obtain ⟨attrs', rfl⟩ := hkept
      exact hasPlace_of_content? hafter
  · have hkept := hcontent id
    have hnot := hbare id label
    unfold label? at hnot ⊢
    generalize f.content? id = before at hkept hnot
    generalize g.content? id = after at hkept ⊢
    cases hkept with
    | none => exact hnot
    | @some content content' hkept =>
      cases content with
      | element name attrs children | data kind text =>
        obtain ⟨_, rfl⟩ := hkept
        exact nofun
      | bare label =>
        obtain rfl := hkept
        exact hnot

theorem modify (f : Forest) (id : NodeId) (change : Node → Node)
    (hlinks : ∀ entry, (change entry).links = entry.links)
    (hkind : ∀ entry, KeepsKind entry.content (change entry).content) :
    SameShape f (f.modify id change) := by
  refine of_keepsKind (size_modify ..) rfl (fun other => ?_) fun other => ?_
  · unfold Forest.links
    rw [getElem?_modify]
    split
    · cases f.nodes[other]? with
      | none => rfl
      | some entry => exact hlinks entry
    · rfl
  · unfold content?
    rw [getElem?_modify]
    cases f.nodes[other]? with
    | none => split <;> exact .none
    | some entry =>
      split
      · exact .some (hkind entry)
      · exact .some (.refl entry.content)

theorem setData (f : Forest) (id : NodeId) (content : Text) : SameShape f (f.setData id content) := by
  refine modify f id _ ?_ ?_
  · intro entry
    split <;> rfl
  · intro entry
    split
    · next kind text hcontent =>
      rw [hcontent]
      exact ⟨content, rfl⟩
    · exact .refl entry.content

theorem setAttribute (f : Forest) (id : NodeId) (name value : Text) :
    SameShape f (f.setAttribute id name value) := by
  refine modify f id _ ?_ ?_
  · intro entry
    split <;> rfl
  · intro entry
    split
    · next tag attrs children hcontent =>
      rw [hcontent]
      exact ⟨_, rfl⟩
    · exact .refl entry.content

end SameShape

/-- A forest follows its outline as long as its shape stays. -/
theorem Follows.shape {outlines : List Outline} (h : f.Follows outlines) (hshape : SameShape f g) :
    g.Follows outlines :=
  h.congr (Nat.le_of_eq hshape.size.symm) hshape.roots (fun id _ => hshape.children id)
    fun id _ => hshape.links id

/-! ## Where the texts change -/

theorem label?_setData_of_ne {id other : NodeId} (h : id ≠ other) (content : Text) :
    (f.setData id content).label? other = f.label? other := by
  unfold label? content? setData
  rw [getElem?_modify, if_neg h]

theorem text?_setData_of_ne {id other : NodeId} (h : id ≠ other) (content : Text) :
    (f.setData id content).text? other = f.text? other :=
  text?_eq_of_label? (label?_setData_of_ne h content)

/-- Text is replaced by text. -/
theorem text?_setData_self {id : NodeId} {before : Text} (h : f.text? id = some before)
    (content : Text) : (f.setData id content).text? id = some content := by
  obtain ⟨entry, hentry, hcontent⟩ := Option.map_eq_some_iff.1 (content?_of_text? h)
  unfold text? content? setData
  rw [getElem?_modify, if_pos rfl, hentry]
  simp only [Option.map_some, hcontent]

/-- Attributes are no part of a text. -/
theorem text?_setAttribute (f : Forest) (id : NodeId) (name value : Text) (other : NodeId) :
    (f.setAttribute id name value).text? other = f.text? other := by
  unfold text? content? setAttribute
  rw [getElem?_modify]
  by_cases hid : id = other
  · rw [if_pos hid]
    cases f.nodes[other]? with
    | none => rfl
    | some entry =>
      obtain ⟨content, links⟩ := entry
      cases content <;> rfl
  · rw [if_neg hid]

end MarkupBinding.Forest
