import Mathlib.Data.List.Nodup
import Mathlib.Data.List.Perm.Subperm
import MarkupBinding.Proofs.Forest.Outline

/-!
# Unfolding a well-linked forest

In a well-linked forest a node stands in one place, so there is one way down to it from the roots.
No node is passed twice on the way, and no way is longer than the table; an outline that is unfolded
to that depth is complete.

* `Path.unique`: there is one way to a place.
* `wellLinked_iff`: the forests that are well linked are those that follow an outline.
-/

namespace MarkupBinding

namespace Outline

theorem namesAll_map (unfold : NodeId → Outline) (ids : List NodeId) :
    namesAll (ids.map unfold) = ids.flatMap fun id => (unfold id).names := by
  induction ids with
  | nil => rfl
  | cons id ids ih => rw [List.map_cons, namesAll, ih, List.flatMap_cons]

theorem mem_rowsAll_map {unfold : NodeId → Outline} {ids : List NodeId} {row : Row}
    (h : row ∈ rowsAll (ids.map unfold)) : ∃ id ∈ ids, row ∈ (unfold id).rows := by
  induction ids with
  | nil => cases h
  | cons id ids ih =>
    rw [List.map_cons, rowsAll] at h
    rcases List.mem_append.1 h with h | h
    · exact ⟨id, List.mem_cons_self, h⟩
    · obtain ⟨other, hother, hrow⟩ := ih h
      exact ⟨other, List.mem_cons_of_mem id hother, hrow⟩

end Outline

namespace Forest

open Outline

variable {f : Forest} {place : Place} {path : List NodeId} {id : NodeId}

/-- Nodes are linked if each is linked to those beside it. -/
theorem linked_of_links {parent previous : Option NodeId} {ids : List NodeId}
    (h : ∀ before id after, ids = before ++ id :: after →
      f.links id = ⟨parent, before.getLast?.or previous, after.head?⟩) :
    f.Linked parent previous ids none := by
  induction ids generalizing previous with
  | nil => trivial
  | cons id ids ih =>
    refine ⟨by simpa using h [] id ids rfl, ih ?_⟩
    intro before other after heq
    rw [h (id :: before) other after (by rw [heq, List.cons_append]), List.getLast?_cons]
    cases before.getLast? <;> rfl

/-! ## Ways down from the roots -/

/-- The nodes on the way from the roots to a place, the innermost first. -/
inductive Path (f : Forest) : Place → List NodeId → Prop
  | roots : Path f .roots []
  | into {place : Place} {path : List NodeId} {id : NodeId} (h : Path f place path)
      (hid : id ∈ f.list place) : Path f (.childrenOf id) (id :: path)

namespace Path

theorem reached (h : f.Path place path) : f.Reached place := by
  induction h with
  | roots => exact .roots
  | into _ hid ih => exact .childrenOf ih hid

/-- The way to a place goes through the places of the nodes on it. -/
theorem behind {before after : List NodeId} (h : f.Path place (before ++ id :: after)) :
    f.Path (.childrenOf id) (id :: after) := by
  generalize hpath : before ++ id :: after = path at h
  induction h generalizing before with
  | roots => simp at hpath
  | @into place path other h hid ih =>
    cases before with
    | nil =>
      cases hpath
      exact .into h hid
    | cons first before => exact ih (List.cons.inj hpath).2

variable (hlinked : f.WellLinked)
include hlinked

/-- There is one way to a place. -/
theorem unique {path' : List NodeId} (h : f.Path place path) (h' : f.Path place path') :
    path = path' := by
  induction h generalizing path' with
  | roots =>
    cases h'
    rfl
  | @into place path id h hid ih =>
    cases h' with
    | @into place' _ _ h' hid' =>
      obtain ⟨i, hi⟩ := List.mem_iff_getElem?.1 hid
      obtain ⟨j, hj⟩ := List.mem_iff_getElem?.1 hid'
      obtain ⟨rfl, _⟩ := hlinked.once h.reached h'.reached hi hj
      rw [ih h']

theorem nodup (h : f.Path place path) : path.Nodup := by
  induction h with
  | roots => exact List.nodup_nil
  | @into place path id h hid ih =>
    refine List.nodup_cons.2 ⟨fun hmem => ?_, ih⟩
    -- Otherwise there would be two ways to the children of the node.
    obtain ⟨before, after, rfl⟩ := List.append_of_mem hmem
    have hlength := congrArg List.length (unique hlinked (.into h hid) h.behind)
    simp only [List.length_cons, List.length_append] at hlength
    omega

theorem inTable (h : f.Path (.childrenOf id) path) : id < f.nodes.size := by
  cases h with
  | into h hid => exact hlinked.inTable h.reached hid

theorem length_le (h : f.Path place path) : path.length ≤ f.nodes.size := by
  have hsub : path ⊆ List.range f.nodes.size := by
    intro id hid
    obtain ⟨before, after, rfl⟩ := List.append_of_mem hid
    exact List.mem_range.2 (inTable hlinked h.behind)
  have hle := (List.subperm_of_subset (h.nodup hlinked) hsub).length_le
  rwa [List.length_range] at hle

end Path

theorem WellLinked.nodup_list (h : f.WellLinked) (hplace : f.Reached place) :
    (f.list place).Nodup := by
  rw [List.nodup_iff_getElem?_ne_getElem?]
  intro i j hij hj heq
  obtain ⟨id, hid⟩ : ∃ id, (f.list place)[j]? = some id := ⟨_, List.getElem?_eq_getElem hj⟩
  have hsame := (h.once hplace hplace (heq.trans hid) hid).2
  omega

/-! ## Unfolding -/

/-- The outline below a node, down to some depth. -/
def outlineAt (f : Forest) : Nat → NodeId → Outline
  | 0, id => .node id []
  | depth + 1, id => .node id ((f.children id).map (f.outlineAt depth))

@[simp] theorem name_outlineAt (depth : Nat) (id : NodeId) : (f.outlineAt depth id).name = id := by
  cases depth <;> rfl

theorem ids_map_outlineAt (depth : Nat) (list : List NodeId) :
    ids (list.map (f.outlineAt depth)) = list := by
  rw [ids, List.map_map]
  exact (List.map_congr_left fun id _ => name_outlineAt depth id).trans (List.map_id list)

/-- The way to a node that is unfolded goes on to the nodes below it. -/
theorem exists_path_of_mem_names {depth : Nat} {other : NodeId}
    (h : f.Path (.childrenOf id) path) (hother : other ∈ (f.outlineAt depth id).names) :
    ∃ front, f.Path (.childrenOf other) (front ++ path) := by
  induction depth generalizing id path with
  | zero =>
    rw [outlineAt, names, namesAll, List.mem_singleton] at hother
    subst hother
    exact ⟨[], h⟩
  | succ depth ih =>
    rw [outlineAt, names, namesAll_map] at hother
    rcases List.mem_cons.1 hother with rfl | hother
    · exact ⟨[], h⟩
    · obtain ⟨child, hchild, hmem⟩ := List.mem_flatMap.1 hother
      obtain ⟨front, hfront⟩ := ih (.into h hchild) hmem
      exact ⟨front ++ [child], by rwa [List.append_assoc]⟩

variable (hlinked : f.WellLinked)
include hlinked

/-- Nodes that stand side by side have different nodes below them. -/
theorem nodup_namesAll_outlineAt (depth : Nat) (h : f.Path place path) :
    (namesAll ((f.list place).map (f.outlineAt depth))).Nodup := by
  induction depth generalizing place path with
  | zero =>
    rw [namesAll_map]
    show ((f.list place).flatMap fun id => [id]).Nodup
    rw [List.flatMap_singleton']
    exact hlinked.nodup_list h.reached
  | succ depth ih =>
    rw [namesAll_map, List.nodup_flatMap]
    refine ⟨?_, ?_⟩
    · intro id hid
      have hbelow : f.Path (.childrenOf id) (id :: path) := .into h hid
      refine List.nodup_cons.2 ⟨fun hmem => ?_, ih hbelow⟩
      rw [namesAll_map] at hmem
      obtain ⟨child, hchild, hmem⟩ := List.mem_flatMap.1 hmem
      obtain ⟨front, hfront⟩ := exists_path_of_mem_names (.into hbelow hchild) hmem
      have hlength := congrArg List.length (hbelow.unique hlinked hfront)
      simp only [List.length_cons, List.length_append] at hlength
      omega
    · refine (hlinked.nodup_list h.reached).imp_of_mem ?_
      intro id other hid hother hne below hmem hmem'
      obtain ⟨front, hfront⟩ := exists_path_of_mem_names (.into h hid) hmem
      obtain ⟨front', hfront'⟩ := exists_path_of_mem_names (.into h hother) hmem'
      have heq := hfront.unique hlinked hfront'
      have hlength := congrArg List.length heq
      simp only [List.length_cons, List.length_append] at hlength
      obtain ⟨_, htail⟩ := List.append_inj heq (by omega)
      exact hne (List.cons.inj htail).1

/-- A node that is unfolded deep enough has the rows that stand below it. -/
theorem stands_outlineAt {depth : Nat} (h : f.Path (.childrenOf id) path)
    (hdepth : f.nodes.size < depth + path.length) :
    ∀ row ∈ (f.outlineAt depth id).rows, f.Stands row := by
  induction depth generalizing id path with
  | zero =>
    have hle := h.length_le hlinked
    omega
  | succ depth ih =>
    intro row hrow
    rw [outlineAt, rows, ids_map_outlineAt] at hrow
    rcases List.mem_cons.1 hrow with rfl | hrow
    · refine ⟨rfl, linked_of_links fun before other after heq => ?_⟩
      rw [hlinked.links h.reached heq, Option.or_none]
    · obtain ⟨child, hchild, hrow⟩ := mem_rowsAll_map hrow
      exact ih (.into h hchild) (by simp only [List.length_cons]; omega) row hrow

/-- A well-linked forest follows the outline that it unfolds to. -/
theorem follows_outlineAt :
    f.Follows (f.roots.map (f.outlineAt f.nodes.size)) := by
  have hroots : f.Path .roots [] := .roots
  refine ⟨?_, nodup_namesAll_outlineAt hlinked _ hroots, ?_⟩
  · intro row hrow
    rw [documentRows, ids_map_outlineAt] at hrow
    rcases List.mem_cons.1 hrow with rfl | hrow
    · refine ⟨rfl, linked_of_links fun before other after heq => ?_⟩
      rw [hlinked.links .roots heq, Option.or_none]
    · obtain ⟨root, hroot, hrow⟩ := mem_rowsAll_map hrow
      exact stands_outlineAt hlinked (.into hroots hroot) (by simp) row hrow
  · intro other hother
    rw [namesAll_map] at hother
    obtain ⟨root, hroot, hmem⟩ := List.mem_flatMap.1 hother
    obtain ⟨front, hpath⟩ := exists_path_of_mem_names (.into hroots hroot) hmem
    exact hpath.inTable hlinked

omit hlinked in
/-- The forests that are well linked are those that follow an outline. -/
theorem wellLinked_iff : f.WellLinked ↔ ∃ outlines, f.Follows outlines :=
  ⟨fun hlinked => ⟨_, follows_outlineAt hlinked⟩, fun ⟨_, hfollows⟩ => hfollows.wellLinked⟩

end Forest
end MarkupBinding
