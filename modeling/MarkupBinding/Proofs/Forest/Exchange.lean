import Mathlib.Logic.Relation
import MarkupBinding.Proofs.Forest.Trail
import MarkupBinding.Proofs.Forest.Unfolding

/-!
# One node exchanged for others

The nodes that come in for another may have any links, for they get all of them anew. What counts is
what stands below them: each subtree must be well linked, and outside of the document. The links of a
few nodes change then, and the forest stays well linked just if the new nodes stand in different
subtrees.

* `InSubtree`: the nodes at or below a node.
* `not_inDocument_of_inSubtree`, `inSubtree_or_of_common`: subtrees outside of a document do not meet
  it, and meet each other only if one of them is part of the other.
* `follows_alone`: the outline of a subtree.
* `graft_exchangeable`: the trees of a fragment may come in.
* `replace_exchanges`: what replacing a node changes, and what it leaves alone.
-/

namespace MarkupBinding

open Outline

namespace Outline

variable {outline : Outline} {outlines : List Outline}

theorem mem_rowsAll_of_mem (h : outline ∈ outlines) {row : Row} (hrow : row ∈ rowsAll [outline]) :
    row ∈ rowsAll outlines := by
  obtain ⟨before, after, rfl⟩ := List.append_of_mem h
  rw [rowsAll, rowsAll, List.append_nil] at hrow
  rw [rowsAll_append, rowsAll]
  exact List.mem_append_right _ (List.mem_append_left _ hrow)

theorem mem_namesAll_of_mem (h : outline ∈ outlines) {id : NodeId} (hid : id ∈ namesAll [outline]) :
    id ∈ namesAll outlines := by
  obtain ⟨before, after, rfl⟩ := List.append_of_mem h
  rw [namesAll, namesAll, List.append_nil] at hid
  rw [namesAll_append, namesAll]
  exact List.mem_append_right _ (List.mem_append_left _ hid)

end Outline

namespace Forest

variable {f g : Forest} {place : Place} {top top' id other : NodeId}

/-! ## Subtrees -/

/-- The second node is the first one or stands below it. -/
def InSubtree (f : Forest) : NodeId → NodeId → Prop :=
  Relation.ReflTransGen fun parent child => child ∈ f.children parent

/-- A forest whose only root is a node, without the links that the node has. -/
def alone (f : Forest) (id : NodeId) : Forest := { f with roots := [id] }.unlink id

theorem sameContent_alone (f : Forest) (id : NodeId) :
    SameContent { f with roots := [id] } (f.alone id) := by
  unfold alone unlink
  exact SameContent.modifyLinks ..

theorem children_alone (f : Forest) (top id : NodeId) : (f.alone top).children id = f.children id :=
  (f.sameContent_alone top).list (.childrenOf id)

theorem roots_alone (f : Forest) (id : NodeId) : (f.alone id).roots = [id] := rfl

theorem size_alone (f : Forest) (id : NodeId) : (f.alone id).nodes.size = f.nodes.size :=
  (f.sameContent_alone id).size

theorem links_alone (h : id ≠ top) : (f.alone top).links id = f.links id :=
  links_modifyLinks_of_ne h _

theorem links_alone_self (h : id < f.nodes.size) : (f.alone id).links id = {} := by
  have htable : id < ({ f with roots := [id] } : Forest).nodes.size := h
  unfold alone unlink
  exact links_modifyLinks_self htable _

/-- What can be reached from a node alone is its subtree. -/
theorem reached_alone_iff : (f.alone top).Reached (.childrenOf id) ↔ f.InSubtree top id := by
  constructor
  · intro h
    have hany : ∀ {place}, (f.alone top).Reached place → ∀ id ∈ (f.alone top).list place,
        f.InSubtree top id := by
      intro place h
      induction h with
      | roots =>
        intro id hid
        rw [List.mem_singleton.1 hid]
        exact .refl
      | childrenOf _ hparent ih =>
        intro id hid
        exact (ih _ hparent).tail (by rwa [← children_alone])
    cases h with
    | childrenOf h hid => exact hany h id hid
  · intro h
    induction h with
    | refl => exact .childrenOf .roots List.mem_cons_self
    | tail _ hchild ih =>
      refine .childrenOf ih ?_
      show _ ∈ (f.alone top).children _
      rwa [children_alone]

section Alone

variable (htop : (f.alone top).WellLinked)
include htop

/-- A node below another knows its parent. -/
theorem parent_of_inSubtree (h : f.InSubtree top other) (hid : id ∈ f.children other) :
    id ≠ top ∧ (f.links id).parent = some other := by
  have hreached := reached_alone_iff.2 h
  have hmem : id ∈ (f.alone top).list (.childrenOf other) := by
    show id ∈ (f.alone top).children other
    rwa [children_alone]
  have hne : id ≠ top := by
    rintro rfl
    obtain ⟨i, hi⟩ := List.mem_iff_getElem?.1 hmem
    cases (htop.once .roots hreached (i := 0) rfl hi).1
  refine ⟨hne, ?_⟩
  obtain ⟨before, after, hlist⟩ := List.append_of_mem hmem
  rw [← links_alone hne, htop.links hreached hlist]
  rfl

/-- The subtree of a node outside of the document is outside of it. -/
theorem not_inDocument_of_inSubtree (hf : f.WellLinked) (hout : ¬ f.InDocument top)
    (h : f.InSubtree top id) : ¬ f.InDocument id := by
  induction h with
  | refl => exact hout
  | tail h hid ih =>
    rintro ⟨place, hplace, hmem⟩
    obtain ⟨-, hparent⟩ := parent_of_inSubtree htop h hid
    obtain ⟨before, after, hlist⟩ := List.append_of_mem hmem
    -- The parent of the node would be in the document.
    rw [hf.links hplace hlist] at hparent
    cases hplace with
    | roots => cases hparent
    | childrenOf hplace howner =>
      cases hparent
      exact ih ⟨_, hplace, howner⟩

/-- Two subtrees with a common node are parts of one another. -/
theorem inSubtree_or_of_common (htop' : (f.alone top').WellLinked) (h : f.InSubtree top id)
    (h' : f.InSubtree top' id) : f.InSubtree top top' ∨ f.InSubtree top' top := by
  induction h with
  | refl => exact .inr h'
  | tail h hid ih =>
    cases h' with
    | refl => exact .inl (h.tail hid)
    | tail h' hid' =>
      obtain ⟨-, hparent⟩ := parent_of_inSubtree htop h hid
      obtain ⟨-, hparent'⟩ := parent_of_inSubtree htop' h' hid'
      obtain rfl := Option.some_inj.1 (hparent.symm.trans hparent')
      exact ih h'

end Alone

/-! ## Outlines of subtrees -/

theorem outlineAt_congr (h : ∀ id, g.children id = f.children id) (depth : Nat) (id : NodeId) :
    g.outlineAt depth id = f.outlineAt depth id := by
  induction depth generalizing id with
  | zero => rfl
  | succ depth ih =>
    rw [outlineAt, outlineAt, h, List.map_congr_left fun child _ => ih child]

/-- A node alone follows its outline. -/
theorem follows_alone (htop : (f.alone top).WellLinked) :
    (f.alone top).Follows [f.outlineAt f.nodes.size top] := by
  have h := follows_outlineAt htop
  rwa [roots_alone, size_alone, List.map_singleton, outlineAt_congr (children_alone f top)] at h

/-- The nodes of the outline of a subtree. -/
theorem mem_namesAll_iff {outline : Outline} (h : (f.alone top).Follows [outline]) :
    id ∈ namesAll [outline] ↔ f.InSubtree top id := by
  rw [← h.inDocument_iff, ← reached_alone_iff]
  constructor
  · rintro ⟨place, hplace, hid⟩
    exact .childrenOf hplace hid
  · intro h
    cases h with
    | childrenOf hplace hid => exact ⟨_, hplace, hid⟩

theorem mem_names_outlineAt_iff (htop : (f.alone top).WellLinked) :
    id ∈ (f.outlineAt f.nodes.size top).names ↔ f.InSubtree top id := by
  rw [← mem_namesAll_iff (follows_alone htop), namesAll, namesAll, List.append_nil]

/-- Below a node the rows stand whatever its links are. -/
theorem stands_of_mem_rows (htop : (f.alone top).WellLinked) {row : Row}
    (hrow : row ∈ (f.outlineAt f.nodes.size top).rows) : f.Stands row := by
  have h := follows_alone htop
  have hrow : row ∈ rowsAll [f.outlineAt f.nodes.size top] := by
    rwa [rowsAll, rowsAll, List.append_nil]
  obtain ⟨owner, -, hplace⟩ := exists_owner_of_mem_rowsAll hrow
  refine (h.of_mem_rowsAll hrow).congr ?_ fun id hid => (links_alone ?_).symm
  · rw [hplace]
    exact (children_alone f top owner).symm
  · -- The node itself stands in another row.
    rintro rfl
    have hself : id ∈ ids [f.outlineAt f.nodes.size id] := by
      rw [ids, List.map_singleton, name_outlineAt]
      exact List.mem_cons_self
    have hsame := h.row_unique (List.mem_cons_of_mem _ hrow) List.mem_cons_self hid hself
    rw [hsame] at hplace
    cases hplace

/-- Nodes outside of the document, none in the subtree of another, are new with all that is below
them. -/
theorem fresh_outlineAt {outlines : List Outline} (hf : f.Follows outlines) {new : List NodeId}
    (hnodup : new.Nodup) (hnew : ∀ id ∈ new, ¬ f.InDocument id ∧ (f.alone id).WellLinked)
    (hapart : ∀ id ∈ new, ∀ other ∈ new, f.InSubtree id other → id = other) :
    f.Fresh outlines (new.map (f.outlineAt f.nodes.size)) := by
  have hmem : ∀ {id}, id ∈ namesAll (new.map (f.outlineAt f.nodes.size)) →
      ∃ top ∈ new, f.InSubtree top id := by
    intro id hid
    rw [namesAll_map] at hid
    obtain ⟨top, htop, hid⟩ := List.mem_flatMap.1 hid
    exact ⟨top, htop, (mem_names_outlineAt_iff (hnew top htop).2).1 hid⟩
  refine ⟨fun row hrow => ?_, ?_, fun id hid => ?_, fun id hid hold => ?_⟩
  · obtain ⟨top, htop, hrow⟩ := mem_rowsAll_map hrow
    exact stands_of_mem_rows (hnew top htop).2 hrow
  · rw [namesAll_map, List.nodup_flatMap]
    refine ⟨fun top htop => ?_, hnodup.imp_of_mem fun htop htop' hne id hid hid' => ?_⟩
    · have hnames := (follows_alone (hnew top htop).2).nodup
      rwa [namesAll, namesAll, List.append_nil] at hnames
    · obtain ⟨-, hlinked⟩ := hnew _ htop
      obtain ⟨-, hlinked'⟩ := hnew _ htop'
      rw [mem_names_outlineAt_iff hlinked] at hid
      rw [mem_names_outlineAt_iff hlinked'] at hid'
      rcases inSubtree_or_of_common hlinked hlinked' hid hid' with h | h
      · exact hne (hapart _ htop _ htop' h)
      · exact hne (hapart _ htop' _ htop h).symm
  · obtain ⟨top, htop, hid⟩ := hmem hid
    have hsize := (follows_alone (hnew top htop).2).inTable id
    rw [namesAll, namesAll, List.append_nil, mem_names_outlineAt_iff (hnew top htop).2,
      size_alone] at hsize
    exact hsize hid
  · obtain ⟨top, htop, hid⟩ := hmem hid
    obtain ⟨hout, hlinked⟩ := hnew top htop
    exact not_inDocument_of_inSubtree hlinked hf.wellLinked hout hid (hf.inDocument_iff.2 hold)

/-- So are new outlines: each of them is that of a subtree. -/
theorem Fresh.follows_alone {outlines new : List Outline} (h : f.Fresh outlines new)
    {outline : Outline} (hmem : outline ∈ new) : (f.alone outline.name).Follows [outline] := by
  have hnames : ∀ id ∈ namesAll [outline], id ∈ namesAll new := fun id =>
    mem_namesAll_of_mem hmem
  have hnodup : (namesAll [outline]).Nodup := by
    obtain ⟨before, after, rfl⟩ := List.append_of_mem hmem
    have hall := h.nodup
    rw [namesAll_append, namesAll] at hall
    rw [namesAll, namesAll, List.append_nil]
    exact (List.nodup_append.1 (List.nodup_append.1 hall).2.1).1
  have hself : outline.name ∈ namesAll [outline] := mem_namesAll_of_mem_ids List.mem_cons_self
  refine ⟨fun row hrow => ?_, hnodup, fun id hid => ?_⟩
  · rcases List.mem_cons.1 hrow with rfl | hrow
    · exact ⟨rfl, links_alone_self (h.inTable _ (hnames _ hself)), trivial⟩
    · obtain ⟨owner, -, hplace⟩ := exists_owner_of_mem_rowsAll hrow
      refine (h.stands row (mem_rowsAll_of_mem hmem hrow)).congr ?_ fun id hid => links_alone ?_
      · rw [hplace]
        exact children_alone f outline.name owner
      · rintro rfl
        have hapart := (List.nodup_append.1 ((perm_rowsAll [outline]).nodup_iff.2 hnodup)).2.2
        exact hapart _ List.mem_cons_self _ (List.mem_flatMap.2 ⟨row, hrow, hid⟩) rfl
  · rw [size_alone]
    exact h.inTable id (hnames id hid)

/-- A parsed fragment can come in: its first nodes are outside of the document, and each has a subtree
of its own. -/
theorem graft_exchangeable (hf : f.WellLinked) (trees : List Tree) :
    (f.graft trees).2.WellLinked ∧ (f.graft trees).1.Nodup ∧
      (∀ id ∈ (f.graft trees).1,
        ¬ (f.graft trees).2.InDocument id ∧ ((f.graft trees).2.alone id).WellLinked) ∧
      ∀ id ∈ (f.graft trees).1, ∀ other ∈ (f.graft trees).1,
        (f.graft trees).2.InSubtree id other → id = other := by
  obtain ⟨outlines, hfollows⟩ := wellLinked_iff.1 hf
  obtain ⟨hids, hextends, -⟩ := graft_spec f trees
  have hfresh := fresh_graft hfollows.inTable trees
  generalize Tree.outlineAll f.nodes.size trees = new at hids hfresh
  generalize f.graft trees = grafted at hids hextends hfresh ⊢
  have hfollows := hfollows.extend hextends
  obtain ⟨hnodup, -, hapart⟩ := List.nodup_append.1 ((perm_rowsAll new).nodup_iff.2 hfresh.nodup)
  have hout : ∀ {id}, id ∈ ids new → ∃ outline ∈ new, outline.name = id := List.mem_map.1
  rw [hids]
  refine ⟨hfollows.wellLinked, hnodup, fun id hid => ?_, fun id hid other hother h => ?_⟩
  · obtain ⟨outline, hmem, rfl⟩ := hout hid
    refine ⟨fun hin => ?_, (hfresh.follows_alone hmem).wellLinked⟩
    exact hfresh.disjoint _ (mem_namesAll_of_mem_ids hid) (hfollows.inDocument_iff.1 hin)
  · obtain ⟨outline, hmem, rfl⟩ := hout hid
    rw [← mem_namesAll_iff (hfresh.follows_alone hmem)] at h
    rcases List.mem_append.1 ((perm_rowsAll [outline]).symm.subset h) with hself | hbelow
    · exact (List.mem_singleton.1 hself).symm
    · -- A node below the first level of the fragment does not stand on it as well.
      obtain ⟨row, hrow, hin⟩ := List.mem_flatMap.1 hbelow
      have hrow := mem_rowsAll_of_mem hmem hrow
      exact absurd rfl (hapart other hother other (List.mem_flatMap.2 ⟨row, hrow, hin⟩))

/-! ## An exchange -/

/-- What exchanging a node for others changes in a forest, and what it leaves alone: one list, the links
of the node, of the new ones, and of the neighbours of the node. -/
structure Exchanged (f g : Forest) (place : Place) (index : Nat) (old : NodeId)
    (new : List NodeId) : Prop where
  list : g.list place = (f.list place).take index ++ new ++ (f.list place).drop (index + 1)
  elsewhere : ∀ other, other ≠ place → g.list other = f.list other
  label : ∀ id, g.label? id = f.label? id
  parent : ∀ id ∈ new, (g.links id).parent = (f.links old).parent
  detached : g.links old = {}
  subtree : ∀ id, f.InSubtree old id →
    g.children id = f.children id ∧ (id ≠ old → g.links id = f.links id)
  links : ∀ id, id ≠ old → id ∉ new → (f.links old).previous ≠ some id →
    (f.links old).next ≠ some id → g.links id = f.links id

/-- A trail leads to each position in the document. -/
theorem WellLinked.exists_trail {index : Nat} {old : NodeId} (hf : f.WellLinked)
    (hplace : f.Reached place) (hold : (f.list place)[index]? = some old) :
    ∃ (t : Trail) (outline : Outline) (todo : List Outline), f.Follows (t.fill (outline :: todo)) ∧
      t.place = place ∧ outline.name = old ∧ (ids t.done).length = index := by
  obtain ⟨outlines, hfollows⟩ := wellLinked_iff.1 hf
  have hmem := hfollows.inDocument_iff.1 ⟨place, hplace, List.mem_of_getElem? hold⟩
  obtain ⟨t, outline, todo, rfl, rfl⟩ := Outline.exists_trail hmem
  have hhere : (f.list t.place)[(ids t.done).length]? = some outline.name := by
    rw [hfollows.list_eq, List.getElem?_append_right (Nat.le_refl _), Nat.sub_self]
    rfl
  obtain ⟨hsame, hlength⟩ := hf.once hfollows.reached hplace hhere hold
  exact ⟨t, outline, todo, hfollows, hsame, rfl, hlength⟩

/-- The rows of an outline are those of the subtree. -/
theorem Follows.mem_rows {t : Trail} {outline : Outline} {todo : List Outline}
    (h : f.Follows (t.fill (outline :: todo))) (hid : f.InSubtree outline.name id) :
    ⟨.childrenOf id, f.children id⟩ ∈ rowsAll [outline] := by
  have hrow : ∀ {id}, id ∈ namesAll [outline] →
      ⟨.childrenOf id, f.children id⟩ ∈ rowsAll [outline] := by
    intro id hid
    obtain ⟨⟨place, ids⟩, hrow, rfl⟩ := exists_row_of_mem hid
    have hbelow := h.stands_below (mem_rowsAll_of_mem List.mem_cons_self hrow)
    rwa [show f.children id = ids from hbelow.list]
  have hnames : id ∈ namesAll [outline] := by
    induction hid with
    | refl => exact mem_namesAll_of_mem_ids List.mem_cons_self
    | tail _ hchild ih => exact mem_namesAll_of_mem_row (hrow ih) hchild
  exact hrow hnames

/-- Of a list in which a node is replaced, only the neighbours of the node get other links. -/
theorem Replaced.links_of_apart {xs ys new : List NodeId} {old : NodeId}
    (hg : Replaced f g place xs old ys new) (hf : f.Linked place.owner none (xs ++ old :: ys) none)
    (hold : id ≠ old) (hnew : id ∉ new) (hprevious : xs.getLast? ≠ some id)
    (hnext : ys.head? ≠ some id) : g.links id = f.links id := by
  by_cases hxs : id ∈ xs
  · obtain ⟨before, after, rfl⟩ := List.append_of_mem hxs
    cases after with
    | nil => exact absurd List.getLast?_concat hprevious
    | cons behind after =>
      have hlinks := hf
      have hlinks' := hg.linked
      simp only [List.append_assoc, List.cons_append] at hlinks hlinks'
      rw [hlinks.links_eq, hlinks'.links_eq]
      rfl
  · by_cases hys : id ∈ ys
    · obtain ⟨before, after, rfl⟩ := List.append_of_mem hys
      rcases List.eq_nil_or_concat before with rfl | ⟨before, ahead, rfl⟩
      · exact absurd rfl hnext
      · have hlinks : f.Linked place.owner none (((xs ++ old :: before) ++ [ahead]) ++ id :: after)
            none := by
          simpa using hf
        have hlinks' : g.Linked place.owner none (((xs ++ new ++ before) ++ [ahead]) ++ id :: after)
            none := by
          simpa using hg.linked
        rw [hlinks.links_eq, hlinks'.links_eq, List.getLast?_concat, List.getLast?_concat]
    · refine hg.links id hnew fun hmem => ?_
      rcases List.mem_append.1 hmem with hmem | hmem
      · exact hxs hmem
      · exact (List.mem_cons.1 hmem).elim hold hys

/-- The visited node, replaced by nodes from outside of the document. -/
theorem Follows.exchanged {t : Trail} {outline : Outline} {todo : List Outline} {new : List NodeId}
    (h : f.Follows (t.fill (outline :: todo))) (hout : ∀ id ∈ new, ¬ f.InDocument id)
    (hg : Replaced f g t.place (ids t.done) outline.name (ids todo) new) :
    Exchanged f g t.place (ids t.done).length outline.name new := by
  have hlist : f.list t.place = ids t.done ++ outline.name :: ids todo := h.list_eq
  have hlinked : f.Linked t.place.owner none (ids t.done ++ outline.name :: ids todo) none :=
    (h.stands _ (t.row_mem (outline :: todo))).linked
  have hlinks : f.links outline.name = ⟨t.place.owner, (ids t.done).getLast?, (ids todo).head?⟩ := by
    have hlinks := hlinked.links_eq
    rwa [Option.or_none, Option.or_none] at hlinks
  refine ⟨?_, hg.elsewhere, hg.label, fun id hid => ?_, hg.detached, fun id hid => ?_,
    fun id hold hid hprevious hnext => ?_⟩
  · rw [hg.list, hlist, List.take_left, List.drop_append]
    simp
  · obtain ⟨before, after, rfl⟩ := List.append_of_mem hid
    have hnew : g.Linked t.place.owner none ((ids t.done ++ before) ++ id :: (after ++ ids todo))
        none := by
      simpa using hg.linked
    rw [hnew.links_eq, hlinks]
  · have hrows : ∀ row ∈ rowsAll [outline], row ∈ rowsAll (outline :: todo) ++ t.otherRows :=
      fun row hrow => List.mem_append_left _ (mem_rowsAll_of_mem List.mem_cons_self hrow)
    refine ⟨hg.elsewhere _ (h.place_ne (hrows _ (h.mem_rows hid))), fun hne => ?_⟩
    cases hid with
    | refl => exact absurd rfl hne
    | tail hparent hchild =>
      -- The node stands in a row below the old one, and so neither in the list nor outside.
      have hrow := hrows _ (h.mem_rows hparent)
      have hdocument := (t.perm_documentRows _).symm.subset (List.mem_cons_of_mem _ hrow)
      refine hg.links id (fun hmem => hout id hmem ?_) (h.not_mem_row hrow hchild)
      exact h.inDocument_iff.2 (mem_namesAll_of_mem_documentRow hdocument hchild)
  · rw [hlinks] at hprevious hnext
    exact hg.links_of_apart hlinked hold hid hprevious hnext

/-- A place can be reached without its own list. -/
theorem reached_of_elsewhere (h : ∀ other, other ≠ place → g.list other = f.list other)
    (hplace : f.Reached place) : g.Reached place := by
  have hany : ∀ {other}, f.Reached other → g.Reached other ∨ g.Reached place := by
    intro other hother
    induction hother with
    | roots => exact .inl .roots
    | @childrenOf other id _ hid ih =>
      rcases ih with hother | hdone
      · by_cases heq : other = place
        · exact .inr (heq ▸ hother)
        · exact .inl (.childrenOf hother (by rwa [h other heq]))
      · exact .inr hdone
  exact (hany hplace).elim id id

/-- Where nodes come in of which one stands in the subtree of another, that one stands in two places. -/
theorem eq_of_inSubtree_of_wellLinked {new : List NodeId} (hplace : f.Reached place)
    (hlist : ∀ id ∈ new, id ∈ g.list place)
    (helsewhere : ∀ other, other ≠ place → g.list other = f.list other) (hg : g.WellLinked)
    (htop : top ∈ new) (hid : id ∈ new) (hout : ∀ other, f.InSubtree top other → ¬ f.InDocument other)
    (h : f.InSubtree top id) : top = id := by
  have hne : ∀ other, f.InSubtree top other → .childrenOf other ≠ place := by
    rintro other hother rfl
    cases hplace with
    | childrenOf hplace hmem => exact hout other hother ⟨_, hplace, hmem⟩
  have hchildren : ∀ other, f.InSubtree top other → g.children other = f.children other :=
    fun other hother => helsewhere _ (hne other hother)
  have hreached : ∀ other, f.InSubtree top other → g.Reached (.childrenOf other) := by
    intro other hother
    induction hother with
    | refl => exact .childrenOf (reached_of_elsewhere helsewhere hplace) (hlist top htop)
    | tail hother hchild ih =>
      refine .childrenOf ih ?_
      show _ ∈ g.children _
      rwa [hchildren _ hother]
  cases h with
  | refl => rfl
  | @tail other _ hother hchild =>
    rw [← hchildren other hother] at hchild
    obtain ⟨i, hi⟩ := List.mem_iff_getElem?.1 hchild
    obtain ⟨j, hj⟩ := List.mem_iff_getElem?.1 (hlist id hid)
    have hsame := hg.once (hreached other hother) (reached_of_elsewhere helsewhere hplace) hi hj
    exact absurd hsame.1 (hne other hother)

/-- **A node exchanged for others.** In a well-linked forest, a node of a list is replaced by different
nodes from outside of the document, whose subtrees are well linked and whose own links do not matter.
The list has them in the place of the old node then, and they have its parent. The old node has no
links any more, and its subtree is as it was. So is every link of a node but the old one, the new ones
and the neighbours of the old one. The forest stays well linked just if no new node stands in the
subtree of another. Beyond the end of the list nothing is done. -/
theorem replace_exchanges (hf : f.WellLinked) (hplace : f.Reached place) {new : List NodeId}
    (hnodup : new.Nodup) (hnew : ∀ id ∈ new, ¬ f.InDocument id ∧ (f.alone id).WellLinked)
    (index : Nat) :
    (∀ old, (f.list place)[index]? = some old → ∃ g, f.replace place index new = .ok g ∧
      Exchanged f g place index old new ∧
        (g.WellLinked ↔ ∀ id ∈ new, ∀ other ∈ new, f.InSubtree id other → id = other)) ∧
    ((f.list place).length ≤ index → f.replace place index new = .error .outOfRange) := by
  refine ⟨fun old hold => ?_, fun hle => ?_⟩
  · obtain ⟨t, outline, todo, hfollows, rfl, rfl, rfl⟩ := hf.exists_trail hplace hold
    have hcan : f.CanReplace t.place (ids t.done) outline.name (ids todo) new := by
      refine hfollows.canReplace_of_notMem hnodup (fun id hid => ?_) fun id hid hmem =>
        (hnew id hid).1 (hfollows.inDocument_iff.2 hmem)
      rw [← size_alone f id]
      exact (hnew id hid).2.inTable .roots List.mem_cons_self
    obtain ⟨g, hreplace, hg⟩ := replace_spec hcan
    refine ⟨g, hreplace, hfollows.exchanged (fun id hid => (hnew id hid).1) hg, ?_, fun hapart => ?_⟩
    · intro hlinked id hid other hother hwithin
      refine eq_of_inSubtree_of_wellLinked hplace (fun id hid => ?_) hg.elsewhere hlinked hid hother
        (fun _ => not_inDocument_of_inSubtree (hnew id hid).2 hf (hnew id hid).1) hwithin
      rw [hg.list]
      exact List.mem_append_left _ (List.mem_append_right _ hid)
    · have hfresh := fresh_outlineAt hfollows hnodup hnew hapart
      rw [← ids_map_outlineAt f.nodes.size new] at hg
      exact (follows_replace hfollows hfresh hg).wellLinked
  · unfold replace
    simp only
    rw [List.getElem?_eq_none hle]

/-- Two trees take the place of a root. They were linked with each other before. -/
theorem replace_exchanges_fragment :
    ∃ g, ((ofTrees [.element ['p'] [] []]).graft
        [.element ['b'] [] [.text ['x']], .text ['y']]).2.replace .roots 0 [1, 3] = .ok g ∧
      g.list .roots = [1, 3] ∧ g.WellLinked := by
  have hroot : (ofTrees [.element ['p'] [] []]).WellLinked := (follows_ofTrees _).wellLinked
  obtain ⟨hlinked, hnodup, hnew, hapart⟩ :=
    graft_exchangeable hroot [.element ['b'] [] [.text ['x']], .text ['y']]
  obtain ⟨g, hg, hexchanged, hiff⟩ := (replace_exchanges hlinked .roots hnodup hnew 0).1 0 rfl
  exact ⟨g, hg, hexchanged.list, hiff.2 hapart⟩

/-- A document of one element and, apart from it, an element with a text in it. -/
def sampleFragment : Forest where
  nodes := #[⟨.element ['p'] [] [], {}⟩, ⟨.element ['b'] [] [2], {}⟩,
    ⟨.data .text ['x'], { parent := some 1 }⟩]
  roots := [0]

theorem follows_sampleFragment : sampleFragment.Follows [.node 0 []] := by decide

/-- If a text comes in beside the element that it stands in, the forest is not well linked. -/
theorem replace_nested :
    sampleFragment.WellLinked ∧ sampleFragment.Reached .roots ∧ [1, 2].Nodup ∧
      (∀ id ∈ [1, 2], ¬ sampleFragment.InDocument id ∧ (sampleFragment.alone id).WellLinked) ∧
        ∃ g, sampleFragment.replace .roots 0 [1, 2] = .ok g ∧ ¬ g.WellLinked := by
  have hout : ∀ id ∈ [1, 2], ¬ sampleFragment.InDocument id := fun id hid =>
    follows_sampleFragment.inDocument_iff.not.2 (by revert id hid; decide)
  have hlinked : (sampleFragment.alone 1).Follows [.node 1 [.node 2 []]] ∧
      (sampleFragment.alone 2).Follows [.node 2 []] := by decide
  refine ⟨follows_sampleFragment.wellLinked, .roots, by decide, ?_, _, rfl, fun h => ?_⟩
  · rintro id hid
    refine ⟨hout id hid, ?_⟩
    simp only [List.mem_cons, List.not_mem_nil, or_false] at hid
    rcases hid with rfl | rfl
    · exact hlinked.1.wellLinked
    · exact hlinked.2.wellLinked
  · -- The text stands in the root list and below the element.
    have hsame : Place.roots = .childrenOf 1 ∧ 1 = 0 :=
      h.once .roots (.childrenOf .roots List.mem_cons_self) rfl rfl
    cases hsame.1

end Forest
end MarkupBinding
