import Mathlib.Data.List.Nodup
import Mathlib.Data.List.Pairwise
import MarkupBinding.Proofs.Forest.Linked

/-!
# Outlines

An outline says which nodes a forest has and how they nest, and nothing else. A forest follows an
outline if its lists are those of the outline and its links agree with them. Whatever is true of the
places that can be reached is read off the outline.

* `WellLinked`: lists and links tell the same story, and every node stands in one place.
* `Follows.wellLinked`: a forest that follows an outline is well linked.
* `Follows.congr`: following depends on the lists and links of the nodes of the outline only.
-/

namespace MarkupBinding

/-- A node and the nodes below it. -/
inductive Outline where
  | node (id : NodeId) (children : List Outline)

/-- The nodes that belong to one place. -/
structure Row where
  place : Place
  ids : List NodeId
deriving DecidableEq

namespace Outline

def name : Outline → NodeId
  | .node id _ => id

def children : Outline → List Outline
  | .node _ children => children

/-- The first level of some outlines. -/
def ids (outlines : List Outline) : List NodeId := outlines.map name

mutual

/-- All nodes of an outline, in document order. -/
def names : Outline → List NodeId
  | .node id children => id :: namesAll children

def namesAll : List Outline → List NodeId
  | [] => []
  | outline :: outlines => names outline ++ namesAll outlines

end

mutual

/-- The rows below the nodes of an outline, in document order. -/
def rows : Outline → List Row
  | .node id children => ⟨.childrenOf id, ids children⟩ :: rowsAll children

def rowsAll : List Outline → List Row
  | [] => []
  | outline :: outlines => rows outline ++ rowsAll outlines

end

/-- All rows of a document. -/
def documentRows (outlines : List Outline) : List Row := ⟨.roots, ids outlines⟩ :: rowsAll outlines

@[simp] theorem ids_append (xs ys : List Outline) : ids (xs ++ ys) = ids xs ++ ids ys :=
  List.map_append

theorem namesAll_append (xs ys : List Outline) :
    namesAll (xs ++ ys) = namesAll xs ++ namesAll ys := by
  induction xs with
  | nil => rfl
  | cons x xs ih => rw [List.cons_append, namesAll, ih, namesAll, List.append_assoc]

theorem rowsAll_append (xs ys : List Outline) : rowsAll (xs ++ ys) = rowsAll xs ++ rowsAll ys := by
  induction xs with
  | nil => rfl
  | cons x xs ih => rw [List.cons_append, rowsAll, ih, rowsAll, List.append_assoc]

mutual

/-- The rows belong to the nodes, in the same order. -/
theorem places_rows : ∀ outline : Outline,
    (rows outline).map Row.place = (names outline).map Place.childrenOf
  | .node id children => by
    rw [rows, names, List.map_cons, List.map_cons, places_rowsAll]

theorem places_rowsAll : ∀ outlines : List Outline,
    (rowsAll outlines).map Row.place = (namesAll outlines).map Place.childrenOf
  | [] => rfl
  | outline :: outlines => by
    rw [rowsAll, namesAll, List.map_append, List.map_append, places_rows, places_rowsAll]

end

mutual

/-- Below its root an outline has the nodes of its rows. -/
theorem perm_rows : ∀ outline : Outline,
    (outline.name :: (rows outline).flatMap fun row => row.ids).Perm (names outline)
  | .node id children => by
    rw [rows, names, List.flatMap_cons]
    exact (perm_rowsAll children).cons id

/-- Each node of some outlines stands in one row. -/
theorem perm_rowsAll : ∀ outlines : List Outline,
    (ids outlines ++ (rowsAll outlines).flatMap fun row => row.ids).Perm (namesAll outlines)
  | [] => .nil
  | outline :: outlines => by
    have hone := perm_rows outline
    have hall := perm_rowsAll outlines
    rw [rowsAll, namesAll, List.flatMap_append]
    refine List.Perm.trans ?_ (hone.append hall)
    show (outline.name :: (ids outlines ++ _)).Perm (outline.name :: (_ ++ (ids outlines ++ _)))
    refine List.Perm.cons _ ?_
    rw [← List.append_assoc, ← List.append_assoc]
    exact List.perm_append_comm.append_right _

end

theorem names_eq : ∀ outline : Outline, outline.names = outline.name :: namesAll outline.children
  | .node _ _ => rfl

theorem mem_namesAll_of_mem_ids {outlines : List Outline} {id : NodeId} (h : id ∈ ids outlines) :
    id ∈ namesAll outlines :=
  (perm_rowsAll outlines).subset (List.mem_append_left _ h)

theorem mem_namesAll_of_mem_row {outlines : List Outline} {row : Row} {id : NodeId}
    (hrow : row ∈ rowsAll outlines) (h : id ∈ row.ids) : id ∈ namesAll outlines :=
  (perm_rowsAll outlines).subset
    (List.mem_append_right _ (List.mem_flatMap.2 ⟨row, hrow, h⟩))

theorem mem_namesAll_of_mem_documentRow {outlines : List Outline} {row : Row} {id : NodeId}
    (hrow : row ∈ documentRows outlines) (h : id ∈ row.ids) : id ∈ namesAll outlines := by
  rcases List.mem_cons.1 hrow with rfl | hrow
  · exact mem_namesAll_of_mem_ids h
  · exact mem_namesAll_of_mem_row hrow h

/-- Each row but the first belongs to a node. -/
theorem exists_owner_of_mem_rowsAll {outlines : List Outline} {row : Row}
    (h : row ∈ rowsAll outlines) : ∃ id ∈ namesAll outlines, row.place = .childrenOf id := by
  have hmem : row.place ∈ (namesAll outlines).map Place.childrenOf := by
    rw [← places_rowsAll]
    exact List.mem_map_of_mem h
  obtain ⟨id, hid, heq⟩ := List.mem_map.1 hmem
  exact ⟨id, hid, heq.symm⟩

/-- The node that a row belongs to is in the outline. -/
theorem mem_namesAll_of_place {outlines : List Outline} {row : Row} {id : NodeId}
    (h : row ∈ documentRows outlines) (hplace : row.place = .childrenOf id) :
    id ∈ namesAll outlines := by
  rcases List.mem_cons.1 h with rfl | h
  · cases hplace
  · obtain ⟨owner, howner, heq⟩ := exists_owner_of_mem_rowsAll h
    rw [heq] at hplace
    cases hplace
    exact howner

/-- Each node stands in a row. -/
theorem exists_documentRow_of_mem {outlines : List Outline} {id : NodeId}
    (h : id ∈ namesAll outlines) : ∃ row ∈ documentRows outlines, id ∈ row.ids := by
  rcases List.mem_append.1 ((perm_rowsAll outlines).symm.subset h) with hid | hid
  · exact ⟨⟨.roots, ids outlines⟩, List.mem_cons_self, hid⟩
  · obtain ⟨row, hrow, hid⟩ := List.mem_flatMap.1 hid
    exact ⟨row, List.mem_cons_of_mem _ hrow, hid⟩

/-- Each node has a row of its own. -/
theorem exists_row_of_mem {outlines : List Outline} {id : NodeId} (h : id ∈ namesAll outlines) :
    ∃ row ∈ rowsAll outlines, row.place = .childrenOf id := by
  have hmem : Place.childrenOf id ∈ (rowsAll outlines).map Row.place := by
    rw [places_rowsAll]
    exact List.mem_map_of_mem h
  exact List.mem_map.1 hmem

/-- No place has two rows. -/
theorem nodup_places {outlines : List Outline} (h : (namesAll outlines).Nodup) :
    ((documentRows outlines).map Row.place).Nodup := by
  rw [documentRows, List.map_cons, places_rowsAll, List.nodup_cons]
  refine ⟨?_, h.map fun _ _ heq => Place.childrenOf.inj heq⟩
  intro hmem
  obtain ⟨id, _, heq⟩ := List.mem_map.1 hmem
  cases heq

end Outline

open Outline

namespace Forest

variable {f g : Forest}

/-! ## What can be reached -/

/-- The places that can be reached from the roots. -/
inductive Reached (f : Forest) : Place → Prop
  | roots : Reached f .roots
  | childrenOf {place : Place} {id : NodeId} (h : Reached f place) (hid : id ∈ f.list place) :
      Reached f (.childrenOf id)

/-- Lists and links tell the same story: each node that can be reached is in the table and stands in
one place only, its parent is the node that the place belongs to, and its neighbours are those in
the list. -/
structure WellLinked (f : Forest) : Prop where
  inTable : ∀ {place id}, f.Reached place → id ∈ f.list place → id < f.nodes.size
  once : ∀ {place place' : Place} {i j : Nat} {id : NodeId}, f.Reached place → f.Reached place' →
    (f.list place)[i]? = some id → (f.list place')[j]? = some id → place = place' ∧ i = j
  links : ∀ {place : Place} {before after : List NodeId} {id : NodeId}, f.Reached place →
    f.list place = before ++ id :: after →
    f.links id = ⟨place.owner, before.getLast?, after.head?⟩

/-! ## Following an outline -/

/-- A row is a list of the forest, and linked. -/
structure Stands (f : Forest) (row : Row) : Prop where
  list : f.list row.place = row.ids
  linked : f.Linked row.place.owner none (row.ids) none

/-- A forest that has the nodes of an outline and nests them as it says, whatever their links are. -/
structure Nests (f : Forest) (outlines : List Outline) : Prop where
  list : ∀ row ∈ documentRows outlines, f.list row.place = row.ids
  nodup : (namesAll outlines).Nodup
  inTable : ∀ id ∈ namesAll outlines, id < f.nodes.size

/-- A forest that has the nodes of an outline, and nests and links them as it says. -/
structure Follows (f : Forest) (outlines : List Outline) : Prop where
  stands : ∀ row ∈ documentRows outlines, f.Stands row
  nodup : (namesAll outlines).Nodup
  inTable : ∀ id ∈ namesAll outlines, id < f.nodes.size

instance decidableLinked (f : Forest) (parent : Option NodeId) :
    ∀ (previous : Option NodeId) (ids : List NodeId) (next : Option NodeId),
      Decidable (f.Linked parent previous ids next)
  | _, [], _ => inferInstanceAs (Decidable True)
  | _, id :: ids, next =>
    have := f.decidableLinked parent (some id) ids next
    inferInstanceAs (Decidable (_ ∧ _))

instance (f : Forest) (row : Row) : Decidable (f.Stands row) :=
  decidable_of_iff (f.list row.place = row.ids ∧ f.Linked row.place.owner none row.ids none)
    ⟨fun h => ⟨h.1, h.2⟩, fun h => ⟨h.list, h.linked⟩⟩

instance (f : Forest) (outlines : List Outline) : Decidable (f.Follows outlines) :=
  decidable_of_iff ((∀ row ∈ documentRows outlines, f.Stands row) ∧ (namesAll outlines).Nodup ∧
      ∀ id ∈ namesAll outlines, id < f.nodes.size)
    ⟨fun h => ⟨h.1, h.2.1, h.2.2⟩, fun h => ⟨h.stands, h.nodup, h.inTable⟩⟩

/-- A row stands as long as its list and the links of its nodes stay. -/
theorem Stands.congr {row : Row} (h : f.Stands row) (hlist : g.list row.place = f.list row.place)
    (hlinks : ∀ id ∈ row.ids, g.links id = f.links id) : g.Stands row :=
  ⟨hlist.trans h.list, h.linked.congr hlinks⟩

/-- New nodes in the table do not matter. -/
theorem Nests.extend {outlines : List Outline} (h : f.Nests outlines)
    (hg : Extends f g) : g.Nests outlines := by
  refine ⟨fun row hrow => ?_, h.nodup, fun id hid => Nat.lt_of_lt_of_le (h.inTable id hid) hg.size⟩
  rw [← h.list row hrow]
  rcases List.mem_cons.1 hrow with rfl | hrow
  · exact hg.roots
  · obtain ⟨owner, howner, hplace⟩ := exists_owner_of_mem_rowsAll hrow
    rw [hplace]
    exact hg.children (h.inTable owner howner)

namespace Follows

variable {outlines : List Outline}

theorem nests (h : f.Follows outlines) : f.Nests outlines :=
  ⟨fun row hrow => (h.stands row hrow).list, h.nodup, h.inTable⟩

theorem roots (h : f.Follows outlines) : f.roots = ids outlines :=
  (h.stands ⟨.roots, ids outlines⟩ List.mem_cons_self).list

theorem of_mem_rowsAll (h : f.Follows outlines) {row : Row} (hrow : row ∈ rowsAll outlines) :
    f.Stands row :=
  h.stands row (List.mem_cons_of_mem _ hrow)

/-- A forest follows an outline as long as the lists and links of its nodes stay. -/
theorem congr (h : f.Follows outlines) (hsize : f.nodes.size ≤ g.nodes.size)
    (hroots : g.roots = f.roots)
    (hchildren : ∀ id ∈ namesAll outlines, g.children id = f.children id)
    (hlinks : ∀ id ∈ namesAll outlines, g.links id = f.links id) : g.Follows outlines := by
  refine ⟨?_, h.nodup, fun id hid => Nat.lt_of_lt_of_le (h.inTable id hid) hsize⟩
  intro row hrow
  rcases List.mem_cons.1 hrow with rfl | hrow
  · exact (h.stands _ List.mem_cons_self).congr hroots
      fun id hid => hlinks id (mem_namesAll_of_mem_ids hid)
  · obtain ⟨owner, howner, hplace⟩ := exists_owner_of_mem_rowsAll hrow
    refine (h.of_mem_rowsAll hrow).congr ?_
      fun id hid => hlinks id (mem_namesAll_of_mem_row hrow hid)
    rw [hplace]
    exact hchildren owner howner

/-- New nodes in the table do not matter. -/
theorem extend (h : f.Follows outlines) (hg : Extends f g) : g.Follows outlines :=
  h.congr hg.size hg.roots (fun id hid => hg.children (h.inTable id hid))
    fun id hid => hg.links (h.inTable id hid)

/-- Every place that can be reached is a row of the outline. -/
theorem exists_row (h : f.Follows outlines) {place : Place} (hplace : f.Reached place) :
    ∃ row ∈ documentRows outlines, row.place = place := by
  induction hplace with
  | roots => exact ⟨⟨.roots, ids outlines⟩, List.mem_cons_self, rfl⟩
  | @childrenOf place id _ hid ih =>
    obtain ⟨row, hrow, rfl⟩ := ih
    rw [(h.stands row hrow).list] at hid
    obtain ⟨below, hbelow, hplace⟩ := exists_row_of_mem (mem_namesAll_of_mem_documentRow hrow hid)
    exact ⟨below, List.mem_cons_of_mem _ hbelow, hplace⟩

/-- Each node stands in one row of the outline. -/
theorem nodup_rows (h : f.Follows outlines) :
    ((documentRows outlines).flatMap fun row => row.ids).Nodup :=
  (perm_rowsAll outlines).nodup_iff.2 h.nodup

theorem nodup_row (h : f.Follows outlines) {row : Row} (hrow : row ∈ documentRows outlines) :
    (row.ids).Nodup :=
  (List.nodup_flatMap.1 h.nodup_rows).1 row hrow

/-- Two rows with a node in common are the same. -/
theorem row_unique (h : f.Follows outlines) {row row' : Row} {id : NodeId}
    (hrow : row ∈ documentRows outlines) (hrow' : row' ∈ documentRows outlines)
    (hid : id ∈ row.ids) (hid' : id ∈ row'.ids) : row = row' := by
  by_contra hne
  have hdisjoint := (List.nodup_flatMap.1 h.nodup_rows).2
  have hsymm : Std.Symm (Function.onFun List.Disjoint fun row : Row => row.ids) :=
    ⟨fun _ _ hab _ hb ha => hab ha hb⟩
  exact hdisjoint.forall hrow hrow' hne hid hid'

/-- A forest that follows an outline is well linked. -/
theorem wellLinked (h : f.Follows outlines) : f.WellLinked := by
  refine ⟨?_, ?_, ?_⟩
  · intro place id hplace hid
    obtain ⟨row, hrow, rfl⟩ := h.exists_row hplace
    rw [(h.stands row hrow).list] at hid
    exact h.inTable id (mem_namesAll_of_mem_documentRow hrow hid)
  · intro place place' i j id hplace hplace' hi hj
    obtain ⟨row, hrow, rfl⟩ := h.exists_row hplace
    obtain ⟨row', hrow', rfl⟩ := h.exists_row hplace'
    rw [(h.stands row hrow).list] at hi
    rw [(h.stands row' hrow').list] at hj
    have hsame := h.row_unique hrow hrow' (List.mem_of_getElem? hi) (List.mem_of_getElem? hj)
    subst hsame
    refine ⟨rfl, ?_⟩
    obtain ⟨hlt, _⟩ := List.getElem?_eq_some_iff.1 hi
    exact (List.getElem?_inj hlt (h.nodup_row hrow)).1 (hi.trans hj.symm)
  · intro place before after id hplace hlist
    obtain ⟨row, hrow, rfl⟩ := h.exists_row hplace
    have hlinked := (h.stands row hrow).linked
    rw [← (h.stands row hrow).list, hlist] at hlinked
    have hlinks := hlinked.links_eq
    rwa [Option.or_none, Option.or_none] at hlinks

end Follows

/-! ## The trees of an outline -/

mutual

/-- The tree of an outline in a forest. -/
def treeOf (f : Forest) : Outline → Tree
  | .node id children =>
    match f.label? id with
    | some (.element name attrs _) => .element name attrs (treesOf f children)
    | some (.data kind content) => .data kind content
    | _ => .data .text []

def treesOf (f : Forest) : List Outline → List Tree
  | [] => []
  | outline :: outlines => treeOf f outline :: treesOf f outlines

end

theorem treesOf_eq_map (f : Forest) (outlines : List Outline) :
    f.treesOf outlines = outlines.map f.treeOf := by
  induction outlines with
  | nil => rfl
  | cons outline outlines ih => rw [treesOf, ih, List.map_cons]

theorem treesOf_append (f : Forest) (first second : List Outline) :
    f.treesOf (first ++ second) = f.treesOf first ++ f.treesOf second := by
  rw [treesOf_eq_map, treesOf_eq_map, treesOf_eq_map, List.map_append]

mutual

theorem treeOf_congr : ∀ (outline : Outline), (∀ id ∈ outline.names, g.label? id = f.label? id) →
    g.treeOf outline = f.treeOf outline
  | .node id children, h => by
    rw [names] at h
    rw [treeOf, treeOf, h id List.mem_cons_self,
      treesOf_congr children fun other hother => h other (List.mem_cons_of_mem id hother)]

/-- Trees depend on the labels of their nodes only. -/
theorem treesOf_congr : ∀ (outlines : List Outline),
    (∀ id ∈ namesAll outlines, g.label? id = f.label? id) → g.treesOf outlines = f.treesOf outlines
  | [], _ => rfl
  | outline :: outlines, h => by
    rw [namesAll] at h
    rw [treesOf, treesOf, treeOf_congr outline fun id hid => h id (List.mem_append_left _ hid),
      treesOf_congr outlines fun id hid => h id (List.mem_append_right _ hid)]

end

end Forest
end MarkupBinding
