import MarkupBinding.Forest.Walk
import MarkupBinding.Proofs.Forest.Planting

/-!
# The trail of a walk

Where a walk stands in an outline is a trail: for each level from the top down to the visited node,
the nodes that are done and, outside of the node that is being entered, those that come later. The
stack of a walk is a function of the trail.

* `perm_documentRows`: what is still to be done changes one row, and the rows below itself.
* `follows_replace`: a replaced node leaves a forest that follows the changed outline.
* `follows_link`: so does a new node at the end of a list.
-/

namespace MarkupBinding

open Outline

/-- The way from the top of an outline to the list that is being walked. -/
inductive Trail where
  /-- In the root list, behind the nodes that are done. -/
  | top (done : List Outline)
  /-- Among the children of a node, which has others behind it in the list around it. -/
  | inside (outer : Trail) (owner : NodeId) (later : List Outline) (done : List Outline)

namespace Trail

/-- The list that is being walked. -/
def place : Trail → Place
  | .top _ => .roots
  | .inside _ owner _ _ => .childrenOf owner

/-- The nodes of the list that are done. -/
def done : Trail → List Outline
  | .top done => done
  | .inside _ _ _ done => done

/-- The whole outline, given what is still to be done in the list. -/
def fill : Trail → List Outline → List Outline
  | .top done, todo => done ++ todo
  | .inside outer owner later done, todo => outer.fill (.node owner (done ++ todo) :: later)

/-- The trail behind one more node. -/
def keep (outline : Outline) : Trail → Trail
  | .top done => .top (done ++ [outline])
  | .inside outer owner later done => .inside outer owner later (done ++ [outline])

/-- The positions that a walk comes back to; the one in the list itself is shifted. -/
def cursorsFrom (shift : Nat) : Trail → List Cursor
  | .top done => [⟨.roots, done.length + shift⟩]
  | .inside outer owner _ done => ⟨.childrenOf owner, done.length + shift⟩ :: outer.cursorsFrom 1

/-- The stack of a walk. -/
def cursors (t : Trail) : List Cursor := t.cursorsFrom 0

/-- The rows that do not change with what is still to be done. -/
def otherRows : Trail → List Row
  | .top done => rowsAll done
  | .inside outer owner later done =>
    rowsAll done ++ ⟨outer.place, ids outer.done ++ owner :: ids later⟩ ::
      (rowsAll later ++ outer.otherRows)

/-- The nodes that do not change with what is still to be done. -/
def otherNames : Trail → List NodeId
  | .top done => namesAll done
  | .inside outer owner later done =>
    owner :: (namesAll done ++ (namesAll later ++ outer.otherNames))

theorem fill_keep (t : Trail) (outline : Outline) (todo : List Outline) :
    (t.keep outline).fill todo = t.fill (outline :: todo) := by
  cases t <;> simp [keep, fill]

theorem cursors_keep (t : Trail) (outline : Outline) :
    (t.keep outline).cursors = t.cursorsFrom 1 := by
  cases t <;> simp [keep, cursors, cursorsFrom]

/-- The first cursor points at what is still to be done. -/
theorem cursors_eq (t : Trail) (shift : Nat) :
    t.cursorsFrom shift = ⟨t.place, t.done.length + shift⟩ :: t.cursors.tail := by
  cases t <;> rfl

/-- What is still to be done is one part of a row, and brings its own rows with it. -/
theorem perm_documentRows (t : Trail) (todo : List Outline) :
    (documentRows (t.fill todo)).Perm
      (⟨t.place, ids t.done ++ ids todo⟩ :: (rowsAll todo ++ t.otherRows)) := by
  induction t generalizing todo with
  | top done =>
    rw [fill, documentRows, ids_append, rowsAll_append]
    exact List.perm_append_comm.cons _
  | inside outer owner later done ih =>
    refine (ih _).trans ?_
    rw [rowsAll, rows, ids_append, rowsAll_append, List.perm_iff_count]
    intro row
    simp only [otherRows, place, Trail.done, ids, List.map_cons, name, List.count_cons,
      List.count_append]
    omega

/-- It also brings its own nodes with it. -/
theorem perm_namesAll (t : Trail) (todo : List Outline) :
    (namesAll (t.fill todo)).Perm (namesAll todo ++ t.otherNames) := by
  induction t generalizing todo with
  | top done =>
    rw [fill, namesAll_append]
    exact List.perm_append_comm
  | inside outer owner later done ih =>
    refine (ih _).trans ?_
    rw [namesAll, names, namesAll_append, List.perm_iff_count]
    intro id
    simp only [otherNames, List.count_cons, List.count_append]
    omega

/-- The nodes around the next one. -/
theorem perm_namesAll_cons (t : Trail) (outline : Outline) (todo : List Outline) :
    (namesAll (t.fill (outline :: todo))).Perm
      (outline.name :: (namesAll outline.children ++ (namesAll todo ++ t.otherNames))) := by
  refine (t.perm_namesAll _).trans (List.Perm.of_eq ?_)
  rw [namesAll, names_eq, List.cons_append, List.cons_append, List.append_assoc]

/-- One more node. -/
theorem perm_namesAll_leaf (t : Trail) (id : NodeId) :
    (namesAll (t.fill [.node id []])).Perm (id :: namesAll (t.fill [])) :=
  (t.perm_namesAll _).trans ((t.perm_namesAll []).symm.cons id)

/-! ### Document order -/

/-- The nodes that a walk has come to, in document order. -/
def visited : Trail → List NodeId
  | .top done => namesAll done
  | .inside outer owner _ done => outer.visited ++ owner :: namesAll done

/-- The nodes behind the list that is being walked, in document order. -/
def laterNames : Trail → List NodeId
  | .top _ => []
  | .inside outer _ later _ => namesAll later ++ outer.laterNames

/-- The nodes of an outline are those that a walk has come to, those that it still has to do in its
list, and those that come later. -/
theorem namesAll_fill (t : Trail) (todo : List Outline) :
    namesAll (t.fill todo) = t.visited ++ (namesAll todo ++ t.laterNames) := by
  induction t generalizing todo with
  | top done => rw [fill, namesAll_append, visited, laterNames, List.append_nil]
  | inside outer owner later done ih =>
    rw [fill, ih, namesAll, names, namesAll_append, visited, laterNames]
    simp

theorem visited_keep (t : Trail) (outline : Outline) :
    (t.keep outline).visited = t.visited ++ outline.names := by
  cases t <;> simp [keep, visited, namesAll_append, namesAll]

theorem mem_visited_of_mem_done {id : NodeId} (t : Trail) (h : id ∈ ids t.done) :
    id ∈ t.visited := by
  have hmem := mem_namesAll_of_mem_ids h
  cases t with
  | top done => exact hmem
  | inside outer owner later done =>
    exact List.mem_append_right _ (List.mem_cons_of_mem owner hmem)

/-- The row that is being walked. -/
theorem row_mem (t : Trail) (todo : List Outline) :
    ⟨t.place, ids t.done ++ ids todo⟩ ∈ documentRows (t.fill todo) :=
  (t.perm_documentRows todo).symm.subset List.mem_cons_self

/-- The other rows belong to other places. -/
theorem place_ne (t : Trail) {todo : List Outline} (h : (namesAll (t.fill todo)).Nodup) {row : Row}
    (hrow : row ∈ rowsAll todo ++ t.otherRows) : row.place ≠ t.place := by
  have hnodup := ((t.perm_documentRows todo).map Row.place).nodup_iff.1 (nodup_places h)
  rw [List.map_cons, List.nodup_cons] at hnodup
  intro heq
  exact hnodup.1 (List.mem_map.2 ⟨row, hrow, heq⟩)

/-- The next node is one of the document. -/
theorem name_mem (t : Trail) (outline : Outline) (todo : List Outline) :
    outline.name ∈ namesAll (t.fill (outline :: todo)) :=
  mem_namesAll_of_mem_documentRow (t.row_mem (outline :: todo))
    (List.mem_append_right _ List.mem_cons_self)

end Trail

/-! ### Where a node stands -/

namespace Outline

mutual

theorem exists_trail_of_mem_names {id : NodeId} : ∀ (outline : Outline) (t : Trail)
    (todo : List Outline), id ∈ outline.names →
      ∃ (t' : Trail) (found : Outline) (todo' : List Outline),
        t'.fill (found :: todo') = t.fill (outline :: todo) ∧ found.name = id
  | .node owner children, t, todo, h => by
    rw [names] at h
    rcases List.mem_cons.1 h with rfl | h
    · exact ⟨t, _, todo, rfl, rfl⟩
    · exact exists_trail_of_mem_namesAll children (.inside t owner todo []) h

/-- A trail leads to each node. -/
theorem exists_trail_of_mem_namesAll {id : NodeId} : ∀ (outlines : List Outline) (t : Trail),
    id ∈ namesAll outlines →
      ∃ (t' : Trail) (found : Outline) (todo' : List Outline),
        t'.fill (found :: todo') = t.fill outlines ∧ found.name = id
  | [], _, h => nomatch h
  | outline :: outlines, t, h => by
    rw [namesAll] at h
    rcases List.mem_append.1 h with h | h
    · exact exists_trail_of_mem_names outline t outlines h
    · obtain ⟨t', found, todo', hfill, hname⟩ :=
        exists_trail_of_mem_namesAll outlines (t.keep outline) h
      exact ⟨t', found, todo', hfill.trans (t.fill_keep outline outlines), hname⟩

end

theorem exists_trail {outlines : List Outline} {id : NodeId} (h : id ∈ namesAll outlines) :
    ∃ (t : Trail) (outline : Outline) (todo : List Outline),
      t.fill (outline :: todo) = outlines ∧ outline.name = id :=
  exists_trail_of_mem_namesAll outlines (.top []) h

end Outline

namespace Forest

variable {f g : Forest}

/-- The list that a walk stands in. -/
theorem Nests.list_eq {t : Trail} {todo : List Outline} (h : f.Nests (t.fill todo)) :
    f.list t.place = ids t.done ++ ids todo :=
  h.list _ (t.row_mem todo)

theorem Follows.list_eq {t : Trail} {todo : List Outline} (h : f.Follows (t.fill todo)) :
    f.list t.place = ids t.done ++ ids todo :=
  h.nests.list_eq

/-- The rows below the list that a walk stands in. -/
theorem Follows.stands_below {t : Trail} {todo : List Outline} (h : f.Follows (t.fill todo))
    {row : Row} (hrow : row ∈ rowsAll todo) : f.Stands row :=
  h.stands row ((t.perm_documentRows todo).symm.subset
    (List.mem_cons_of_mem _ (List.mem_append_left _ hrow)))

/-- A node that can be reached. -/
def InDocument (f : Forest) (id : NodeId) : Prop := ∃ place, f.Reached place ∧ id ∈ f.list place

/-- A trail leads to a place that can be reached. -/
theorem Follows.reached {t : Trail} {todo : List Outline} (h : f.Follows (t.fill todo)) :
    f.Reached t.place := by
  induction t generalizing todo with
  | top done => exact .roots
  | inside outer owner later done ih =>
    refine .childrenOf (ih h) ?_
    rw [Follows.list_eq (t := outer) h]
    exact List.mem_append_right _ List.mem_cons_self

/-- The nodes of an outline are those that can be reached. -/
theorem Follows.inDocument_iff {outlines : List Outline} (h : f.Follows outlines) {id : NodeId} :
    f.InDocument id ↔ id ∈ namesAll outlines := by
  constructor
  · rintro ⟨place, hplace, hid⟩
    obtain ⟨row, hrow, rfl⟩ := h.exists_row hplace
    rw [(h.stands row hrow).list] at hid
    exact mem_namesAll_of_mem_documentRow hrow hid
  · intro hid
    obtain ⟨t, outline, todo, rfl, rfl⟩ := exists_trail hid
    refine ⟨t.place, h.reached, ?_⟩
    rw [h.list_eq]
    exact List.mem_append_right _ List.mem_cons_self

/-! ## A replaced node -/

/-- The first node that is still to be done stands nowhere else. -/
theorem Nests.name_notMem {t : Trail} {outline : Outline} {todo : List Outline}
    (h : f.Nests (t.fill (outline :: todo))) :
    outline.name ∉ namesAll outline.children ++ (namesAll todo ++ t.otherNames) :=
  (List.nodup_cons.1 ((t.perm_namesAll_cons outline todo).nodup_iff.1 h.nodup)).1

theorem Follows.name_not_mem {t : Trail} {outline : Outline} {todo : List Outline}
    (h : f.Follows (t.fill (outline :: todo))) : outline.name ∉ ids todo := by
  intro hmem
  exact h.nests.name_notMem
    (List.mem_append_right _ (List.mem_append_left _ (mem_namesAll_of_mem_ids hmem)))

theorem Follows.place_ne {t : Trail} {todo : List Outline} (h : f.Follows (t.fill todo)) {row : Row}
    (hrow : row ∈ rowsAll todo ++ t.otherRows) : row.place ≠ t.place :=
  t.place_ne h.nodup hrow

/-- So they have other nodes. -/
theorem Follows.not_mem_row {t : Trail} {todo : List Outline} (h : f.Follows (t.fill todo))
    {row : Row} (hrow : row ∈ rowsAll todo ++ t.otherRows) {id : NodeId} (hid : id ∈ row.ids) :
    id ∉ ids t.done ++ ids todo := by
  intro hmem
  have hsame := h.row_unique
    ((t.perm_documentRows todo).symm.subset (List.mem_cons_of_mem _ hrow)) (t.row_mem todo) hid hmem
  exact h.place_ne hrow (congrArg Row.place hsame)

/-- A node that is replaced is not in the outline any more. -/
theorem Follows.not_mem_replaced {t : Trail} {id : NodeId} {todo new : List Outline}
    (h : f.Follows (t.fill (.node id [] :: todo))) (hnew : id ∉ namesAll new) :
    id ∉ namesAll (t.fill (new ++ todo)) := by
  intro hmem
  have hmem := (t.perm_namesAll _).subset hmem
  rw [namesAll_append, List.append_assoc] at hmem
  exact h.nests.name_notMem ((List.mem_append.1 hmem).resolve_left hnew)

/-- New nodes that stand in a forest apart from its outline. -/
structure Fresh (f : Forest) (outlines new : List Outline) : Prop where
  stands : ∀ row ∈ rowsAll new, f.Stands row
  nodup : (namesAll new).Nodup
  inTable : ∀ id ∈ namesAll new, id < f.nodes.size
  disjoint : ∀ id ∈ namesAll new, id ∉ namesAll outlines

/-- Grafted trees are new. -/
theorem fresh_graft {outlines : List Outline} (h : ∀ id ∈ namesAll outlines, id < f.nodes.size)
    (trees : List Tree) : (f.graft trees).2.Fresh outlines (Tree.outlineAll f.nodes.size trees) := by
  obtain ⟨_, _, _, _, hrows, hnodup, hnames⟩ := graft_spec f trees
  refine ⟨hrows, hnodup, fun id hid => (hnames id hid).2, fun id hid hmem => ?_⟩
  exact Nat.lt_irrefl _ (Nat.lt_of_lt_of_le (h id hmem) (hnames id hid).1)

/-- A list in which the next node was replaced by new ones. -/
theorem Nests.replaced {t : Trail} {outline : Outline} {todo new : List Outline}
    (h : f.Nests (t.fill (outline :: todo)))
    (hnew : f.Fresh (t.fill (outline :: todo)) new) (hsize : g.nodes.size = f.nodes.size)
    (hlist : g.list t.place = ids t.done ++ ids (new ++ todo))
    (helsewhere : ∀ place, place ≠ t.place → g.list place = f.list place) :
    g.Nests (t.fill (new ++ todo)) := by
  have hnames := t.perm_namesAll (new ++ todo)
  rw [namesAll_append, List.append_assoc] at hnames
  have hnodup := (t.perm_namesAll_cons outline todo).nodup_iff.1 h.nodup
  have hold : ∀ id ∈ namesAll todo ++ t.otherNames, id ∈ namesAll (t.fill (outline :: todo)) := by
    intro id hid
    exact (t.perm_namesAll_cons outline todo).symm.subset
      (List.mem_cons_of_mem _ (List.mem_append_right _ hid))
  have hnodup' : (namesAll (t.fill (new ++ todo))).Nodup := by
    refine hnames.nodup_iff.2 (List.nodup_append.2 ⟨hnew.nodup, ?_, ?_⟩)
    · exact (List.nodup_append.1 (List.nodup_cons.1 hnodup).2).2.1
    · rintro id hid _ hid' rfl
      exact hnew.disjoint id hid (hold id hid')
  refine ⟨fun row hrow => ?_, hnodup', fun id hid => ?_⟩
  · rcases List.mem_cons.1 ((t.perm_documentRows _).subset hrow) with rfl | hother
    · rw [hlist, ids_append]
    · rw [helsewhere _ (t.place_ne hnodup' hother)]
      rw [rowsAll_append, List.append_assoc, List.mem_append] at hother
      rcases hother with hother | hother
      · exact (hnew.stands row hother).list
      · refine h.list row ((t.perm_documentRows _).symm.subset (List.mem_cons_of_mem _ ?_))
        rw [rowsAll, List.append_assoc]
        exact List.mem_append_right _ hother
  · rw [hsize]
    rcases List.mem_append.1 (hnames.subset hid) with hid | hid
    · exact hnew.inTable id hid
    · exact h.inTable id (hold id hid)

/-- The visited node can be replaced by nodes outside of the outline. -/
theorem Follows.canReplace_of_notMem {t : Trail} {outline : Outline} {todo : List Outline}
    {new : List NodeId} (h : f.Follows (t.fill (outline :: todo))) (hnodup : new.Nodup)
    (htable : ∀ id ∈ new, id < f.nodes.size)
    (hout : ∀ id ∈ new, id ∉ namesAll (t.fill (outline :: todo))) :
    f.CanReplace t.place (ids t.done) outline.name (ids todo) new := by
  have hrow := t.row_mem (outline :: todo)
  have hstands := h.stands _ hrow
  refine ⟨hstands.list, hstands.linked, h.nodup_row hrow, fun id hid => ?_, hnodup, htable,
    fun id hid hmem => ?_⟩
  · exact h.inTable id (mem_namesAll_of_mem_documentRow hrow hid)
  · exact hout id hid (mem_namesAll_of_mem_documentRow hrow hmem)

/-- So it can be by new outlines. -/
theorem Follows.canReplace {t : Trail} {outline : Outline} {todo new : List Outline}
    (h : f.Follows (t.fill (outline :: todo)))
    (hnew : f.Fresh (t.fill (outline :: todo)) new) :
    f.CanReplace t.place (ids t.done) outline.name (ids todo) (ids new) :=
  h.canReplace_of_notMem (List.nodup_append.1 ((perm_rowsAll new).nodup_iff.2 hnew.nodup)).1
    (fun id hid => hnew.inTable id (mem_namesAll_of_mem_ids hid))
    fun id hid => hnew.disjoint id (mem_namesAll_of_mem_ids hid)

/-- A forest whose visited node was replaced follows the outline with the new nodes in its place. -/
theorem follows_replace {t : Trail} {outline : Outline} {todo new : List Outline}
    (h : f.Follows (t.fill (outline :: todo)))
    (hnew : f.Fresh (t.fill (outline :: todo)) new)
    (hg : Replaced f g t.place (ids t.done) outline.name (ids todo) (ids new)) :
    g.Follows (t.fill (new ++ todo)) := by
  have hold : ∀ row, row ∈ rowsAll todo ++ t.otherRows →
      row ∈ rowsAll (outline :: todo) ++ t.otherRows := by
    intro row hrow
    rw [rowsAll, List.append_assoc]
    exact List.mem_append_right _ hrow
  have hlist : g.list t.place = ids t.done ++ ids (new ++ todo) := by
    rw [hg.list, ids_append, List.append_assoc]
  have hnests := h.nests.replaced hnew hg.size hlist hg.elsewhere
  refine ⟨fun row hrow => ⟨hnests.list row hrow, ?_⟩, hnests.nodup, hnests.inTable⟩
  have hrow := (t.perm_documentRows _).subset hrow
  rw [List.mem_cons, rowsAll_append, List.append_assoc, List.mem_append] at hrow
  rcases hrow with rfl | hrow | hrow
  · rw [ids_append, ← List.append_assoc]
    exact hg.linked
  · -- A row of the new nodes. Its nodes were not in the list, and are not on its first level now.
    refine (hnew.stands row hrow).linked.congr fun id hid => hg.links id ?_ ?_
    · intro hmem
      have hnodup := (perm_rowsAll new).nodup_iff.2 hnew.nodup
      exact (List.nodup_append.1 hnodup).2.2 id hmem id (List.mem_flatMap.2 ⟨row, hrow, hid⟩) rfl
    · intro hmem
      exact hnew.disjoint id (mem_namesAll_of_mem_row hrow hid)
        (mem_namesAll_of_mem_documentRow (t.row_mem (outline :: todo)) hmem)
  · -- A row of the outline around them.
    have hrow' := hold row hrow
    have hmem := (t.perm_documentRows _).symm.subset (List.mem_cons_of_mem _ hrow')
    refine (h.stands row hmem).linked.congr fun id hid => hg.links id ?_ (h.not_mem_row hrow' hid)
    intro hnewid
    exact hnew.disjoint id (mem_namesAll_of_mem_ids hnewid)
      (mem_namesAll_of_mem_documentRow hmem hid)

/-! ## A new node at the end -/

/-- A forest in which a node from outside was linked at the end of a list follows the outline with the
node in that place. -/
theorem follows_link {t : Trail} {id : NodeId} (h : f.Follows (t.fill [])) (hplace : f.HasPlace t.place)
    (hnew : id ∉ namesAll (t.fill [])) (hsize : id < f.nodes.size) (hleaf : f.children id = []) :
    (f.link t.place id t.place.owner).Follows (t.fill [.node id []]) := by
  have hrow : ⟨t.place, ids t.done⟩ ∈ documentRows (t.fill []) := by
    have hmem := t.row_mem []
    rwa [show ids [] = [] from rfl, List.append_nil] at hmem
  have hdone : ∀ other ∈ ids t.done, other ∈ namesAll (t.fill []) :=
    fun other hother => mem_namesAll_of_mem_documentRow hrow hother
  have hg := link_spec hplace (h.stands _ hrow).list (h.stands _ hrow).linked (h.nodup_row hrow)
    (fun other hother => h.inTable other (hdone other hother)) hsize
    fun hmem => hnew (hdone id hmem)
  generalize f.link t.place id t.place.owner = g at hg
  have hnames := t.perm_namesAll_leaf id
  refine ⟨?_, hnames.nodup_iff.2 (List.nodup_cons.2 ⟨hnew, h.nodup⟩), ?_⟩
  · intro row hmem
    rcases List.mem_cons.1 ((t.perm_documentRows _).subset hmem) with rfl | hmem
    · exact ⟨hg.list, hg.linked⟩
    rcases List.mem_cons.1 hmem with rfl | hother
    · -- The new node has no children.
      refine ⟨(hg.elsewhere _ fun heq => ?_).trans hleaf, trivial⟩
      exact hnew (mem_namesAll_of_place hrow heq.symm)
    · have hold : row ∈ documentRows (t.fill []) :=
        (t.perm_documentRows []).symm.subset (List.mem_cons_of_mem _ hother)
      refine (h.stands row hold).congr (hg.elsewhere _ (h.place_ne hother)) fun other hid => ?_
      refine hg.links other fun hmem => ?_
      rcases List.mem_append.1 hmem with hmem | hmem
      · exact h.not_mem_row hother hid (List.mem_append_left _ hmem)
      · rw [List.mem_singleton.1 hmem] at hid
        exact hnew (mem_namesAll_of_mem_documentRow hold hid)
  · intro other hother
    rw [hg.size]
    rcases List.mem_cons.1 (hnames.subset hother) with rfl | hother
    · exact hsize
    · exact h.inTable other hother

/-- So does one in which a childless node got a node from outside as its only child. -/
theorem follows_adopt {t : Trail} {owner child : NodeId} {todo : List Outline}
    (h : f.Follows (t.fill (.node owner [] :: todo))) (hplace : f.HasPlace (.childrenOf owner))
    (hchild : child ∉ namesAll (t.fill (.node owner [] :: todo))) (hsize : child < f.nodes.size)
    (hleaf : f.children child = []) :
    (f.appendChild owner child).Follows (t.fill (.node owner [.node child []] :: todo)) :=
  @follows_link f (.inside t owner todo []) child h hplace hchild hsize hleaf

end Forest
end MarkupBinding
