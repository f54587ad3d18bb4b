import MarkupBinding.Proofs.Forest.Frame

/-!
# Linked lists of nodes

The nodes of a list are linked when each knows its parent and its two neighbours in the list. The
two edits keep linked lists linked and touch the links of no other node.

* `linked_append`: a linked list is linked in parts.
* `splice_spec`: new nodes between two old ones.
* `replace_spec`: one node replaced by others.
* `link_spec`: one node added at the end.
-/

namespace MarkupBinding
namespace Forest

variable {f g : Forest} {parent previous next : Option NodeId}

/-- Nodes that are linked one after another, between two others if there are any. -/
def Linked (f : Forest) (parent : Option NodeId) :
    Option NodeId → List NodeId → Option NodeId → Prop
  | _, [], _ => True
  | previous, id :: ids, next =>
    f.links id = ⟨parent, previous, ids.head?.or next⟩ ∧ Linked f parent (some id) ids next

/-- A linked list is linked in parts, each of which ends where the other begins. -/
theorem linked_append {xs ys : List NodeId} :
    f.Linked parent previous (xs ++ ys) next ↔
      f.Linked parent previous xs (ys.head?.or next) ∧
        f.Linked parent (xs.getLast?.or previous) ys next := by
  induction xs generalizing previous with
  | nil =>
    show f.Linked parent previous ys next ↔ True ∧ f.Linked parent (none.or previous) ys next
    rw [Option.none_or, true_and]
  | cons x xs ih =>
    have hhead : (xs ++ ys).head?.or next = xs.head?.or (ys.head?.or next) := by
      cases xs <;> simp
    have hlast : (x :: xs).getLast?.or previous = xs.getLast?.or (some x) := by
      rw [List.getLast?_cons]
      cases xs.getLast? <;> rfl
    rw [List.cons_append, Linked, Linked, ih, hhead, hlast, and_assoc]

/-- A node of a linked list is linked to the nodes beside it. -/
theorem Linked.links_eq {xs ys : List NodeId} {id : NodeId}
    (h : f.Linked parent previous (xs ++ id :: ys) next) :
    f.links id = ⟨parent, xs.getLast?.or previous, ys.head?.or next⟩ :=
  (linked_append.1 h).2.1

/-- Only the links of the nodes themselves matter. -/
theorem Linked.congr {ids : List NodeId} (h : f.Linked parent previous ids next)
    (hsame : ∀ id ∈ ids, g.links id = f.links id) : g.Linked parent previous ids next := by
  induction ids generalizing previous with
  | nil => trivial
  | cons id ids ih =>
    refine ⟨(hsame id List.mem_cons_self).trans h.1, ih h.2 ?_⟩
    intro other hother
    exact hsame other (List.mem_cons_of_mem id hother)

/-- The last node of a linked list may get another neighbour behind it. -/
theorem Linked.relast {xs : List NodeId} {last : NodeId} {next' : Option NodeId}
    (h : f.Linked parent previous (xs ++ [last]) next)
    (hsame : ∀ id ∈ xs, g.links id = f.links id)
    (hlast : g.links last = { f.links last with next := next' }) :
    g.Linked parent previous (xs ++ [last]) next' := by
  obtain ⟨hxs, hl⟩ := linked_append.1 h
  refine linked_append.2 ⟨hxs.congr hsame, ?_, trivial⟩
  rw [hlast, hl.1]
  rfl

/-- The first node of a linked list may get another neighbour before it. -/
theorem Linked.refirst {ys : List NodeId} {first : NodeId} {previous' : Option NodeId}
    (h : f.Linked parent previous (first :: ys) next)
    (hsame : ∀ id ∈ ys, g.links id = f.links id)
    (hfirst : g.links first = { f.links first with previous := previous' }) :
    g.Linked parent previous' (first :: ys) next := by
  refine ⟨?_, h.2.congr hsame⟩
  rw [hfirst, h.1]

/-! ## New nodes between old ones -/

/-- Links nodes with each other and with the nodes between which they come. -/
def splice (f : Forest) (parent previous next : Option NodeId) (new : List NodeId) : Forest :=
  let (f, last) := f.chain parent previous new
  let f := f.modifyLinks? last fun links => { links with next }
  f.modifyLinks? next fun links => { links with previous := last }

/-- What splicing does to the links of all nodes. -/
structure Spliced (f g : Forest) (parent previous next : Option NodeId) (new : List NodeId) :
    Prop where
  same : SameContent f g
  linked : g.Linked parent previous new next
  before : ∀ id, previous = some id → g.links id = { f.links id with next := new.head?.or next }
  behind : ∀ id, next = some id →
    g.links id = { f.links id with previous := new.getLast?.or previous }
  other : ∀ id, id ∉ new → previous ≠ some id → next ≠ some id → g.links id = f.links id

/-- The nodes that splicing is about are different, and all of them are in the table. -/
structure CanSplice (f : Forest) (previous next : Option NodeId) (new : List NodeId) : Prop where
  nodup : new.Nodup
  inTable : ∀ id ∈ new, id < f.nodes.size
  before : ∀ id, previous = some id → id < f.nodes.size ∧ id ∉ new
  behind : ∀ id, next = some id → id < f.nodes.size ∧ id ∉ new ∧ previous ≠ some id

theorem splice_nil (h : f.CanSplice previous next []) :
    Spliced f (f.splice parent previous next []) parent previous next [] := by
  have hsame := (SameContent.modifyLinks? f previous fun links => { links with next }).trans
    (SameContent.modifyLinks? _ next fun links => { links with previous := previous })
  unfold splice chain
  simp only
  refine ⟨hsame, trivial, ?_, ?_, ?_⟩
  · rintro id rfl
    have hne : next ≠ some id := fun heq => (h.behind id heq).2.2 rfl
    rw [links_modifyLinks?_of_ne hne]
    exact links_modifyLinks_self (h.before id rfl).1 _
  · rintro id rfl
    obtain ⟨hid, _, hne⟩ := h.behind id rfl
    show ((f.modifyLinks? previous _).modifyLinks id _).links id = _
    rw [links_modifyLinks_self (by rw [(SameContent.modifyLinks? ..).size]; exact hid),
      links_modifyLinks?_of_ne hne]
    rfl
  · intro id _ hprevious hnext
    rw [links_modifyLinks?_of_ne hnext, links_modifyLinks?_of_ne hprevious]

/-- Links a new node behind another. -/
def linkBehind (f : Forest) (parent previous : Option NodeId) (id : NodeId) : Forest :=
  (f.modifyLinks id fun links => { links with parent, previous }).modifyLinks? previous
    fun links => { links with next := some id }

/-- The first new node is linked, and is then the one before the others. -/
theorem splice_cons (f : Forest) (parent previous next : Option NodeId) (id : NodeId)
    (ids : List NodeId) :
    f.splice parent previous next (id :: ids) =
      (f.linkBehind parent previous id).splice parent (some id) next ids := rfl

section LinkBehind

variable {id : NodeId}

theorem sameContent_linkBehind (f : Forest) (parent previous : Option NodeId) (id : NodeId) :
    SameContent f (f.linkBehind parent previous id) :=
  (SameContent.modifyLinks ..).trans (SameContent.modifyLinks? ..)

theorem links_linkBehind_self (hid : id < f.nodes.size) (hne : previous ≠ some id) :
    (f.linkBehind parent previous id).links id = { f.links id with parent, previous } := by
  unfold linkBehind
  rw [links_modifyLinks?_of_ne hne]
  exact links_modifyLinks_self hid _

theorem links_linkBehind_previous {before : NodeId} (hbefore : before < f.nodes.size)
    (hne : before ≠ id) :
    (f.linkBehind parent (some before) id).links before =
      { f.links before with next := some id } := by
  show ((f.modifyLinks id _).modifyLinks before _).links before = _
  rw [links_modifyLinks_self (by rw [(SameContent.modifyLinks ..).size]; exact hbefore),
    links_modifyLinks_of_ne hne]

theorem links_linkBehind_of_ne {other : NodeId} (hother : other ≠ id)
    (hprevious : previous ≠ some other) :
    (f.linkBehind parent previous id).links other = f.links other := by
  unfold linkBehind
  rw [links_modifyLinks?_of_ne hprevious, links_modifyLinks_of_ne hother]

theorem CanSplice.tail {ids : List NodeId} (h : f.CanSplice previous next (id :: ids)) :
    (f.linkBehind parent previous id).CanSplice (some id) next ids := by
  obtain ⟨hid, hids⟩ := List.nodup_cons.1 h.nodup
  have hsize := (sameContent_linkBehind f parent previous id).size
  refine ⟨hids, ?_, ?_, ?_⟩
  · intro other hmem
    rw [hsize]
    exact h.inTable other (List.mem_cons_of_mem id hmem)
  · rintro other heq
    cases heq
    exact ⟨by rw [hsize]; exact h.inTable id List.mem_cons_self, hid⟩
  · intro other heq
    obtain ⟨hlt, hnot, _⟩ := h.behind other heq
    refine ⟨by rw [hsize]; exact hlt, fun hmem => hnot (List.mem_cons_of_mem id hmem), ?_⟩
    intro hsome
    cases hsome
    exact hnot List.mem_cons_self

end LinkBehind

/-- Splicing changes links only. -/
theorem sameContent_splice (f : Forest) (parent previous next : Option NodeId)
    (new : List NodeId) : SameContent f (f.splice parent previous next new) := by
  induction new generalizing f previous with
  | nil =>
    exact (SameContent.modifyLinks? f previous fun links => { links with next }).trans
      (SameContent.modifyLinks? _ next fun links => { links with previous := previous })
  | cons id ids ih => exact (sameContent_linkBehind ..).trans (ih ..)

theorem splice_spec {new : List NodeId} (h : f.CanSplice previous next new) :
    Spliced f (f.splice parent previous next new) parent previous next new := by
  -- Each node in turn is the one before the others.
  induction new generalizing f previous with
  | nil => exact splice_nil h
  | cons id ids ih =>
    have hrest := ih (@CanSplice.tail f parent previous next id ids h)
    have hne : previous ≠ some id := fun heq => (h.before id heq).2 List.mem_cons_self
    have hnext : next ≠ some id := fun heq => (h.behind id heq).2.1 List.mem_cons_self
    rw [splice_cons]
    refine ⟨(sameContent_linkBehind ..).trans hrest.same, ⟨?_, hrest.linked⟩, ?_, ?_, ?_⟩
    · rw [hrest.before id rfl, links_linkBehind_self (h.inTable id List.mem_cons_self) hne]
    · rintro p rfl
      have hp : p ≠ id := fun heq => hne (congrArg some heq)
      obtain ⟨hlt, hnot⟩ := h.before p rfl
      rw [hrest.other p (fun hmem => hnot (List.mem_cons_of_mem id hmem))
        (fun heq => hp (Option.some.inj heq).symm) (fun heq => (h.behind p heq).2.2 rfl),
        links_linkBehind_previous hlt hp]
      rfl
    · intro n hn
      obtain ⟨_, hnot, hprevious⟩ := h.behind n hn
      have hn' : n ≠ id := fun heq => hnext (hn.trans (congrArg some heq))
      have hlast : (id :: ids).getLast?.or previous = ids.getLast?.or (some id) := by
        rw [List.getLast?_cons]
        cases ids.getLast? <;> rfl
      rw [hrest.behind n hn, links_linkBehind_of_ne hn' hprevious, hlast]
    · intro other hmem hprevious hnext'
      obtain ⟨hne', hnot⟩ := List.ne_and_not_mem_of_not_mem_cons hmem
      rw [hrest.other other hnot (fun heq => hne' (Option.some.inj heq).symm) hnext',
        links_linkBehind_of_ne hne' hprevious]

/-! ## One node replaced by others -/

/-- A node of a linked list may be replaced by nodes that are not in the list. -/
structure CanReplace (f : Forest) (place : Place) (xs : List NodeId) (old : NodeId)
    (ys new : List NodeId) : Prop where
  list : f.list place = xs ++ old :: ys
  linked : f.Linked place.owner none (xs ++ old :: ys) none
  nodup : (xs ++ old :: ys).Nodup
  inTable : ∀ id ∈ xs ++ old :: ys, id < f.nodes.size
  newNodup : new.Nodup
  newInTable : ∀ id ∈ new, id < f.nodes.size
  disjoint : ∀ id ∈ new, id ∉ xs ++ old :: ys

/-- What replacing a node does to a forest. -/
structure Replaced (f g : Forest) (place : Place) (xs : List NodeId) (old : NodeId)
    (ys new : List NodeId) : Prop where
  size : g.nodes.size = f.nodes.size
  label : ∀ id, g.label? id = f.label? id
  list : g.list place = xs ++ new ++ ys
  elsewhere : ∀ other, other ≠ place → g.list other = f.list other
  linked : g.Linked place.owner none (xs ++ new ++ ys) none
  detached : g.links old = {}
  links : ∀ id, id ∉ new → id ∉ xs ++ old :: ys → g.links id = f.links id

theorem CanReplace.canSplice {place : Place} {xs ys new : List NodeId} {old : NodeId}
    (h : f.CanReplace place xs old ys new) : f.CanSplice xs.getLast? ys.head? new := by
  have hnot : ∀ id ∈ xs ++ old :: ys, id ∉ new := fun id hid hnew => h.disjoint id hnew hid
  have hxs : ∀ id ∈ xs, id ∈ xs ++ old :: ys := fun id hid => List.mem_append_left _ hid
  have hys : ∀ id ∈ ys, id ∈ xs ++ old :: ys :=
    fun id hid => List.mem_append_right _ (List.mem_cons_of_mem old hid)
  refine ⟨h.newNodup, h.newInTable, ?_, ?_⟩
  · intro id hid
    have hmem := hxs id (List.mem_of_getLast? hid)
    exact ⟨h.inTable id hmem, hnot id hmem⟩
  · intro id hid
    have hmem := List.mem_of_head? hid
    refine ⟨h.inTable id (hys id hmem), hnot id (hys id hmem), fun hlast => ?_⟩
    exact (List.nodup_append.1 h.nodup).2.2 id (List.mem_of_getLast? hlast) id
      (List.mem_cons_of_mem old hmem) rfl

/-- Splicing in place of a node leaves the list without it linked. -/
theorem CanReplace.linked_splice {place : Place} {xs ys new : List NodeId} {old : NodeId}
    (h : f.CanReplace place xs old ys new)
    (hg : Spliced f g place.owner xs.getLast? ys.head? new) :
    g.Linked place.owner none (xs ++ new ++ ys) none := by
  obtain ⟨hxs, hold⟩ := linked_append.1 h.linked
  have hys := hold.2
  obtain ⟨hxsnodup, holdnodup, hdisjoint⟩ := List.nodup_append.1 h.nodup
  have hysnodup := (List.nodup_cons.1 holdnodup).2
  have hkept : ∀ id ∈ xs ++ old :: ys, xs.getLast? ≠ some id → ys.head? ≠ some id →
      g.links id = f.links id :=
    fun id hid => hg.other id (fun hnew => h.disjoint id hnew hid)
  rw [List.append_assoc, linked_append, linked_append]
  refine ⟨?_, by simpa using hg.linked, ?_⟩
  · rcases List.eq_nil_or_concat xs with rfl | ⟨front, last, hfront⟩
    · trivial
    · rw [List.concat_eq_append] at hfront
      subst hfront
      have hfront : ∀ id ∈ front, g.links id = f.links id := by
        intro id hid
        have hmem : id ∈ front ++ [last] := List.mem_append_left _ hid
        refine hkept id (List.mem_append_left _ hmem) ?_ ?_
        · intro hlast
          rw [List.getLast?_concat, Option.some_inj] at hlast
          exact (List.nodup_append.1 hxsnodup).2.2 id hid last List.mem_cons_self hlast.symm
        · intro hhead
          exact hdisjoint id hmem id (List.mem_cons_of_mem old (List.mem_of_head? hhead)) rfl
      refine hxs.relast hfront ?_
      rw [hg.before last (by simp), List.head?_append]
      simp
  · cases ys with
    | nil => trivial
    | cons first ys =>
      refine hys.refirst ?_ ?_
      · intro id hid
        refine hkept id (by simp [hid]) ?_ ?_
        · intro hlast
          exact hdisjoint id (List.mem_of_getLast? hlast) id (by simp [hid]) rfl
        · intro hhead
          rw [List.head?_cons, Option.some_inj] at hhead
          exact (List.nodup_cons.1 hysnodup).1 (hhead ▸ hid)
      · rw [hg.behind first rfl]
        simp

/-- A node is the same in another list. -/
theorem label?_replace {place : Place} {index : Nat} {new : List NodeId}
    (h : f.replace place index new = .ok g) (id : NodeId) : g.label? id = f.label? id := by
  unfold replace at h
  simp only at h
  split at h
  · cases h
  · next old _ =>
    cases h
    rw [unlink, (SameContent.modifyLinks ..).label, label?_setList]
    exact (sameContent_splice f (f.links old).parent (f.links old).previous (f.links old).next
      new).label id

/-- Whatever the links are, one list changes. -/
theorem replace_lists {place : Place} {index : Nat} {old : NodeId}
    (hold : (f.list place)[index]? = some old) (new : List NodeId) :
    ∃ g, f.replace place index new = .ok g ∧ g.nodes.size = f.nodes.size ∧
      g.list place = (f.list place).take index ++ new ++ (f.list place).drop (index + 1) ∧
      ∀ other, other ≠ place → g.list other = f.list other := by
  have hsame : SameContent f (f.relink old new) :=
    sameContent_splice f (f.links old).parent (f.links old).previous (f.links old).next new
  have hmem : old ∈ (f.relink old new).list place := by
    rw [hsame.list]
    exact List.mem_of_getElem? hold
  refine ⟨((f.relink old new).setList place ((f.list place).take index ++ new ++
    (f.list place).drop (index + 1))).unlink old, ?_, ?_, ?_, fun other hother => ?_⟩
  · unfold replace
    simp only
    rw [hold]
  · rw [unlink, (SameContent.modifyLinks ..).size, size_setList, hsame.size]
  · rw [unlink, (SameContent.modifyLinks ..).list, list_setList_self (hasPlace_of_mem hmem)]
  · rw [unlink, (SameContent.modifyLinks ..).list, list_setList_of_ne hother, hsame.list]

/-- A node that is replaced has no links, and the links of the others come from the splice. -/
theorem links_replace {place : Place} {index : Nat} {old : NodeId} {new : List NodeId}
    (hold : (f.list place)[index]? = some old) (h : f.replace place index new = .ok g) :
    (∀ id, id ≠ old → g.links id = (f.relink old new).links id) ∧
      (old < f.nodes.size → g.links old = {}) := by
  have hsame : SameContent f (f.relink old new) :=
    sameContent_splice f (f.links old).parent (f.links old).previous (f.links old).next new
  unfold replace at h
  simp only [hold] at h
  obtain rfl := Except.ok.inj h
  refine ⟨fun id hne => ?_, fun htable => ?_⟩
  · rw [unlink, links_modifyLinks_of_ne hne, links_setList]
  · rw [unlink, links_modifyLinks_self (by rw [size_setList, hsame.size]; exact htable)]

theorem CanReplace.spliced {place : Place} {xs ys new : List NodeId} {old : NodeId}
    (h : f.CanReplace place xs old ys new) :
    Spliced f (f.relink old new) place.owner xs.getLast? ys.head? new := by
  have hold : f.links old = ⟨place.owner, xs.getLast?, ys.head?⟩ := by
    have hlinks := h.linked.links_eq
    rwa [Option.or_none, Option.or_none] at hlinks
  unfold relink
  rw [hold]
  exact splice_spec h.canSplice

/-- A node of a linked list is replaced as it should be, and nothing else happens. -/
theorem replace_spec {place : Place} {xs ys new : List NodeId} {old : NodeId}
    (h : f.CanReplace place xs old ys new) :
    ∃ g, f.replace place xs.length new = .ok g ∧ Replaced f g place xs old ys new := by
  have hmem : old ∈ xs ++ old :: ys := by simp
  have hindex : (f.list place)[xs.length]? = some old := by
    rw [h.list, List.getElem?_append_right (Nat.le_refl _), Nat.sub_self]
    rfl
  obtain ⟨g, hreplace, hsize, hlist, helsewhere⟩ := replace_lists hindex new
  obtain ⟨hlinks, hdetached⟩ := links_replace hindex hreplace
  refine ⟨g, hreplace, hsize, label?_replace hreplace, ?_, helsewhere, ?_,
    hdetached (h.inTable old hmem), ?_⟩
  · rw [hlist, h.list, List.take_left, List.drop_append]
    simp
  · refine (h.linked_splice h.spliced).congr ?_
    intro id hid
    refine hlinks id ?_
    rintro rfl
    have hnodup := List.nodup_append.1 h.nodup
    rw [List.mem_append, List.mem_append] at hid
    rcases hid with (hid | hid) | hid
    · exact hnodup.2.2 id hid id List.mem_cons_self rfl
    · exact h.disjoint id hid hmem
    · exact (List.nodup_cons.1 hnodup.2.1).1 hid
  · intro id hnew hid
    rw [hlinks id (fun heq => hid (heq ▸ hmem))]
    refine h.spliced.other id hnew ?_ ?_
    · intro hlast
      exact hid (List.mem_append_left _ (List.mem_of_getLast? hlast))
    · intro hhead
      exact hid (by simp [List.mem_of_head? hhead])

/-! ## One node at the end -/

/-- What adding a node at the end of a list does to a forest. -/
structure Appended (f g : Forest) (place : Place) (before : List NodeId) (id : NodeId) : Prop where
  size : g.nodes.size = f.nodes.size
  label : ∀ other, g.label? other = f.label? other
  list : g.list place = before ++ [id]
  elsewhere : ∀ other, other ≠ place → g.list other = f.list other
  linked : g.Linked place.owner none (before ++ [id]) none
  links : ∀ other, other ∉ before ++ [id] → g.links other = f.links other

theorem label?_link (f : Forest) (place : Place) (id : NodeId) (parent : Option NodeId)
    (other : NodeId) : (f.link place id parent).label? other = f.label? other := by
  unfold link
  simp only
  rw [label?_setList, (SameContent.modifyLinks ..).label, (SameContent.modifyLinks? ..).label]

theorem size_link (f : Forest) (place : Place) (id : NodeId) (parent : Option NodeId) :
    (f.link place id parent).nodes.size = f.nodes.size := by
  unfold link
  simp only
  rw [size_setList, (SameContent.modifyLinks ..).size, (SameContent.modifyLinks? ..).size]

/-- The added node gets its links, and the last one before it a neighbour. -/
theorem links_link (f : Forest) (place : Place) (id : NodeId) (parent : Option NodeId) :
    (∀ other, other ≠ id → (f.link place id parent).links other =
      (f.modifyLinks? (f.list place).getLast? fun links => { links with next := some id }).links
        other) ∧
      (id < f.nodes.size →
        (f.link place id parent).links id = ⟨parent, (f.list place).getLast?, none⟩) := by
  unfold link
  simp only
  refine ⟨fun other hne => ?_, fun htable => ?_⟩
  · rw [links_setList, links_modifyLinks_of_ne hne]
  · rw [links_setList, links_modifyLinks_self]
    rw [(SameContent.modifyLinks? ..).size]
    exact htable

/-- Whatever the links are, one list gets longer. -/
theorem link_lists {place : Place} (hplace : f.HasPlace place) (id : NodeId)
    (parent : Option NodeId) : (f.link place id parent).list place = f.list place ++ [id] ∧
      ∀ other, other ≠ place → (f.link place id parent).list other = f.list other := by
  have hsame := (SameContent.modifyLinks? f (f.list place).getLast? fun links =>
    { links with next := some id }).trans
      (SameContent.modifyLinks _ id fun _ => ⟨parent, (f.list place).getLast?, none⟩)
  unfold link
  simp only
  refine ⟨?_, fun other hne => ?_⟩
  · rw [list_setList_self, hsame.list]
    cases place with
    | roots => trivial
    | childrenOf owner =>
      obtain ⟨name, attrs, hlabel⟩ := hplace
      exact ⟨name, attrs, (hsame.label owner).trans hlabel⟩
  · rw [list_setList_of_ne hne, hsame.list]

/-- A node that is new to a linked list is linked at its end. -/
theorem link_spec {place : Place} {before : List NodeId} {id : NodeId} (hplace : f.HasPlace place)
    (hlist : f.list place = before) (hlinked : f.Linked place.owner none before none)
    (hnodup : before.Nodup) (htable : ∀ other ∈ before, other < f.nodes.size)
    (hid : id < f.nodes.size) (hnew : id ∉ before) :
    Appended f (f.link place id place.owner) place before id := by
  obtain ⟨hhere, helsewhere⟩ := link_lists hplace id place.owner
  obtain ⟨hlinks, hself⟩ := links_link f place id place.owner
  rw [hlist] at hhere hlinks hself
  refine ⟨size_link .., label?_link f place id place.owner, hhere, helsewhere, ?_, ?_⟩
  · refine linked_append.2 ⟨?_, ?_, trivial⟩
    · rcases List.eq_nil_or_concat before with rfl | ⟨front, last, hfront⟩
      · trivial
      · rw [List.concat_eq_append] at hfront
        subst hfront
        have hne : last ≠ id := fun heq => hnew (heq ▸ List.mem_append_right _ List.mem_cons_self)
        refine hlinked.relast ?_ ?_
        · intro other hother
          have hother' : (front ++ [last]).getLast? ≠ some other := by
            rw [List.getLast?_concat]
            intro heq
            exact (List.nodup_append.1 hnodup).2.2 other hother last List.mem_cons_self
              (Option.some.inj heq).symm
          rw [hlinks other fun heq => hnew (heq ▸ List.mem_append_left _ hother),
            links_modifyLinks?_of_ne hother']
        · rw [hlinks last hne, List.getLast?_concat]
          exact links_modifyLinks_self (htable last (by simp)) _
    · rw [hself hid, Option.or_none]
      rfl
  · intro other hother
    rw [List.mem_append, List.mem_singleton, not_or] at hother
    rw [hlinks other hother.2,
      links_modifyLinks?_of_ne fun heq => hother.1 (List.mem_of_getLast? heq)]

end Forest
end MarkupBinding
