import Mathlib
import MarkupBinding.Forest.Display
import MarkupBinding.Proofs.Forest.Shape

/-!
# Reading trees off a forest

No way down from the roots is longer than the table, so the trees of a forest that follows an
outline are read off it, unless there is a node of a kind of its own.

* `trees_eq`: the trees of a forest are those of its outline.
* `markup_eq`: so it has markup.
-/

namespace MarkupBinding

/-- How many children a node lists. -/
def Content.entries : Content → Nat
  | .element _ _ children => children.length
  | _ => 0

namespace Forest

open Outline

variable {f : Forest}

mutual

/-- The tree below a node is read off if the node is not deeper than allowed. -/
theorem treeAt_eq (hbare : f.Bareless) : ∀ (outline : Outline) (depth : Nat),
    (∀ row ∈ outline.rows, f.list row.place = row.ids) →
      (∀ id ∈ outline.names, id < f.nodes.size) → outline.names.length ≤ depth →
        f.treeAt depth outline.name = .ok (f.treeOf outline)
  | .node id children, depth, hrows, hnames, hdepth => by
    rw [names, List.length_cons] at hdepth
    obtain ⟨depth, rfl⟩ : ∃ deeper, depth = deeper + 1 := ⟨depth - 1, by omega⟩
    rw [rows] at hrows
    rw [names] at hnames
    have hlist : f.children id = ids children := hrows _ List.mem_cons_self
    have hchildren := mapM_treeAt_eq hbare children depth
      (fun row hrow => hrows row (List.mem_cons_of_mem _ hrow))
      (fun other hother => hnames other (List.mem_cons_of_mem _ hother)) (by omega)
    obtain ⟨content, hcontent⟩ : ∃ content, f.content? id = some content := by
      unfold content?
      rw [Array.getElem?_eq_getElem (hnames id List.mem_cons_self)]
      exact ⟨_, rfl⟩
    show f.treeAt (depth + 1) id = _
    rw [treeAt, treeOf]
    unfold label?
    rw [hcontent]
    cases content with
    | bare label =>
      refine absurd ?_ (hbare id label)
      unfold label?
      rw [hcontent]
      rfl
    | data kind text => rfl
    | element name attrs list =>
      have hsame : list = ids children := by
        unfold Forest.children at hlist
        rw [hcontent] at hlist
        exact hlist
      show (list.mapM (f.treeAt depth) >>= fun trees => pure (Tree.element name attrs trees)) = _
      rw [hsame, hchildren]
      rfl

theorem mapM_treeAt_eq (hbare : f.Bareless) : ∀ (outlines : List Outline) (depth : Nat),
    (∀ row ∈ rowsAll outlines, f.list row.place = row.ids) →
      (∀ id ∈ namesAll outlines, id < f.nodes.size) → (namesAll outlines).length ≤ depth →
        (ids outlines).mapM (f.treeAt depth) = .ok (f.treesOf outlines)
  | [], _, _, _, _ => rfl
  | outline :: outlines, depth, hrows, hnames, hdepth => by
    rw [namesAll, List.length_append] at hdepth
    rw [rowsAll] at hrows
    rw [namesAll] at hnames
    have hfirst := treeAt_eq hbare outline depth
      (fun row hrow => hrows row (List.mem_append_left _ hrow))
      (fun other hother => hnames other (List.mem_append_left _ hother)) (by omega)
    have hrest := mapM_treeAt_eq hbare outlines depth
      (fun row hrow => hrows row (List.mem_append_right _ hrow))
      (fun other hother => hnames other (List.mem_append_right _ hother)) (by omega)
    rw [ids, List.map_cons, List.mapM_cons, hfirst]
    show ((ids outlines).mapM (f.treeAt depth) >>= fun trees => pure (_ :: trees)) = _
    rw [hrest]
    rfl

end

/-- An outline has no more nodes than the table. -/
theorem Follows.length_names_le {outlines : List Outline} (h : f.Follows outlines) :
    (namesAll outlines).length ≤ f.nodes.size := by
  have hsub : namesAll outlines ⊆ List.range f.nodes.size :=
    fun id hid => List.mem_range.2 (h.inTable id hid)
  have hle := (List.subperm_of_subset h.nodup hsub).length_le
  rwa [List.length_range] at hle

/-- The trees of a forest are those of its outline. -/
theorem trees_eq {outlines : List Outline} (h : f.Follows outlines) (hbare : f.Bareless) :
    f.trees = .ok (f.treesOf outlines) := by
  unfold trees treesAt
  rw [h.roots]
  refine mapM_treeAt_eq hbare outlines _ (fun row hrow => (h.of_mem_rowsAll hrow).list) h.inTable ?_
  exact Nat.le_succ_of_le h.length_names_le

/-- A forest that follows an outline has the markup of its trees. -/
theorem markup_eq {outlines : List Outline} (h : f.Follows outlines) (hbare : f.Bareless)
    (xhtml : Bool) : f.markup xhtml = .ok (Tree.markupAll xhtml (f.treesOf outlines)) := by
  have htrees : f.treesAt f.roots = .ok (f.treesOf outlines) := trees_eq h hbare
  unfold markup markupOf
  rw [htrees]
  rfl

/-! ## Entries -/

/-- A count that goes up by a share for each element of a list. -/
theorem foldl_share {α : Type} {step : Nat → α → Nat} {share : α → Nat}
    (hstep : ∀ count a, step count a = count + share a) (as : List α) (count : Nat) :
    as.foldl step count = count + (as.map share).sum := by
  induction as generalizing count with
  | nil => rfl
  | cons a as ih =>
    rw [List.foldl_cons, ih, hstep, List.map_cons, List.sum_cons]
    omega

theorem length_children_eq {id : NodeId} (hid : id < f.nodes.size) :
    (f.children id).length = f.nodes[id].content.entries := by
  unfold children content?
  rw [Array.getElem?_eq_getElem hid, Option.map_some]
  cases f.nodes[id].content <;> rfl

/-- The entries are those of the root list and of the child lists of all nodes in the table. -/
theorem entryCount_eq (f : Forest) :
    f.entryCount =
      f.roots.length + ((List.range f.nodes.size).map fun id => (f.children id).length).sum := by
  unfold entryCount
  rw [← Array.foldl_toList]
  refine (@foldl_share _ _ (fun node => node.content.entries) ?_ _ _).trans ?_
  · intro count node
    cases node.content <;> rfl
  · congr 2
    refine List.ext_getElem (by simp) ?_
    intro id hid _
    have hsize : id < f.nodes.size := by simpa using hid
    simp only [List.getElem_map, Array.getElem_toList, List.getElem_range]
    exact (length_children_eq hsize).symm

/-- An outline has no more nodes than there are entries. -/
theorem Follows.length_names_le_entryCount {outlines : List Outline} (h : f.Follows outlines) :
    (namesAll outlines).length ≤ f.entryCount := by
  have hrows : ((rowsAll outlines).flatMap fun row => row.ids).length =
      ((namesAll outlines).map fun id => (f.children id).length).sum := by
    have hplaces := congrArg (List.map fun place => (f.list place).length) (places_rowsAll outlines)
    rw [List.map_map, List.map_map] at hplaces
    rw [List.length_flatMap]
    refine congrArg List.sum (Eq.trans (List.map_congr_left ?_) hplaces)
    intro row hrow
    show row.ids.length = (f.list row.place).length
    rw [(h.of_mem_rowsAll hrow).list]
  have hsub : List.Subperm (namesAll outlines) (List.range f.nodes.size) :=
    List.subperm_of_subset h.nodup fun id hid => List.mem_range.2 (h.inTable id hid)
  obtain ⟨part, hperm, hpart⟩ := hsub
  have hsum := (hpart.map fun id => (f.children id).length).sum_le_sum fun _ _ => Nat.zero_le _
  have heq := (hperm.map fun id => (f.children id).length).sum_eq
  have hlength := (perm_rowsAll outlines).length_eq
  rw [List.length_append, hrows] at hlength
  have hroots : f.roots.length = (ids outlines).length := by rw [h.roots]
  rw [entryCount_eq]
  omega

end Forest
end MarkupBinding
