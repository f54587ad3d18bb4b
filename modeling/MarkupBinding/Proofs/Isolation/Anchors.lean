import MarkupBinding.Proofs.Isolation.Moves
import MarkupBinding.Proofs.Forest.Neighbours
import MarkupBinding.Transform

/-!
# Isolated texts stay isolated

Isolation edits the lists that it walks. Whatever it does, the forest stays well linked and its texts
stay apart; so the neighbour of a text that has been kept is no text, is never replaced, and the
node that the text would be declared at stays what it was.

* `Isolating`: the invariant of the walk.
* `isolating_split`, `isolating_wrapped`: one visit keeps it.
* `isolating_moves`: so does a walk of any length.
* `isolation_isolates`: what holds at every step of the pass, and what holds at its end.
-/

namespace MarkupBinding

open Outline

namespace Forest

variable {f g : Forest}

/-- The neighbours of a text are none, so others may be put in its place. -/
theorem TextsApart.replace {xs ys new : List NodeId} {old : NodeId}
    (h : f.TextsApart (xs ++ old :: ys)) (hold : (f.text? old).isSome = true)
    (hlabel : ∀ id ∈ xs ++ old :: ys, g.label? id = f.label? id) (hnew : g.TextsApart new) :
    g.TextsApart (xs ++ (new ++ ys)) := by
  have hg := h.congr hlabel
  have hxs : ∀ id ∈ xs.getLast?, (g.text? id).isSome = false := by
    intro id hid
    have hnot := (List.isChain_append.1 h).2.2 id hid old rfl
    rw [text?_eq_of_label? (hlabel id (List.mem_append_left _ (List.mem_of_getLast? hid)))]
    exact Bool.eq_false_iff.2 fun htext => hnot ⟨htext, hold⟩
  have hys : ∀ id ∈ ys.head?, (g.text? id).isSome = false := by
    intro id hid
    have hnot := (List.isChain_cons.1 (List.isChain_append.1 h).2.1).1 id hid
    have hmem : id ∈ xs ++ old :: ys :=
      List.mem_append_right _ (List.mem_cons_of_mem old (List.mem_of_head? hid))
    rw [text?_eq_of_label? (hlabel id hmem)]
    exact Bool.eq_false_iff.2 fun htext => hnot ⟨hold, htext⟩
  obtain ⟨hgxs, hgys, _⟩ := List.isChain_append.1 hg
  refine List.isChain_append.2 ⟨hgxs, List.isChain_append.2 ⟨hnew, hgys.tail, ?_⟩, ?_⟩
  · rintro _ _ id hid ⟨_, htext⟩
    rw [hys id hid] at htext
    cases htext
  · rintro id hid _ _ ⟨htext, _⟩
    rw [hxs id hid] at htext
    cases htext

end Forest

namespace Trail

/-- The nodes that a walk has kept so far. -/
def doneNames : Trail → List NodeId
  | .top done => namesAll done
  | .inside outer owner _ done => namesAll done ++ owner :: outer.doneNames

theorem mem_doneNames_keep {t : Trail} {outline : Outline} {id : NodeId}
    (h : id ∈ (t.keep outline).doneNames) : id ∈ t.doneNames ∨ id ∈ outline.names := by
  cases t with
  | top done =>
    rw [keep, doneNames, namesAll_append, namesAll, namesAll, List.append_nil] at h
    exact List.mem_append.1 h
  | inside outer owner later done =>
    rw [keep, doneNames, namesAll_append, namesAll, namesAll, List.append_nil] at h
    simp only [List.mem_append, doneNames] at h ⊢
    tauto

/-- They stand in the list that is being walked, or in a row that stays. -/
theorem mem_row_of_mem_doneNames {t : Trail} {id : NodeId} (h : id ∈ t.doneNames) :
    id ∈ ids t.done ∨ ∃ row ∈ t.otherRows, id ∈ row.ids := by
  have hall : ∀ outlines : List Outline, id ∈ namesAll outlines →
      id ∈ ids outlines ∨ ∃ row ∈ rowsAll outlines, id ∈ row.ids := by
    intro outlines hid
    obtain ⟨row, hrow, hid⟩ := exists_documentRow_of_mem hid
    rcases List.mem_cons.1 hrow with rfl | hrow
    · exact .inl hid
    · exact .inr ⟨row, hrow, hid⟩
  induction t with
  | top done => exact hall done h
  | inside outer owner later done ih =>
    rw [otherRows]
    rcases List.mem_append.1 h with h | h
    · rcases hall done h with hid | ⟨row, hrow, hid⟩
      · exact .inl hid
      · exact .inr ⟨row, List.mem_append_left _ hrow, hid⟩
    · refine .inr ?_
      rcases List.mem_cons.1 h with rfl | h
      · exact ⟨_, List.mem_append_right _ List.mem_cons_self, by simp⟩
      · rcases ih h with hid | ⟨row, hrow, hid⟩
        · exact ⟨_, List.mem_append_right _ List.mem_cons_self, List.mem_append_left _ hid⟩
        · exact ⟨row, by simp [hrow], hid⟩

end Trail

namespace Isolation

variable {options : Options} {protection : Protection} {f g : Forest} {s s' : Editing Log} {t : Trail}
  {outline : Outline} {todo todo' : List Outline} {old : NodeId} {a b : Stage}

/-- A forest in the middle of the walk: it follows an outline, no text stands right behind another,
and the nodes that were kept are isolated. -/
structure Isolating (options : Options) (protection : Protection) (f : Forest) (x : Focus) : Prop where
  follows : f.Follows x.whole
  apart : ∀ row ∈ documentRows x.whole, f.TextsApart row.ids
  kept : ∀ id ∈ x.trail.doneNames, Isolated options protection f id

/-- Isolation depends on what the nodes are, and on the links of the node. -/
theorem Isolated.congr {id : NodeId} (h : Isolated options protection f id)
    (hlabels : KeepsLabels f g) (hid : id < f.nodes.size) (hlinks : g.links id = f.links id) :
    Isolated options protection g id := by
  intro content found htext hfound
  rw [Forest.text?_eq_of_label? (hlabels id hid)] at htext
  obtain ⟨halone, hanchor⟩ := h content found htext hfound
  refine ⟨halone, ?_⟩
  intro anchor heq
  unfold Forest.anchor? at heq
  rw [hlinks] at heq
  obtain ⟨tag, attrs, hlabel⟩ := hanchor anchor heq
  exact ⟨tag, attrs, (hlabels anchor (Forest.lt_size_of_label? hlabel)).trans hlabel⟩

/-- A text that is replaced is the neighbour of none of the texts that were kept. -/
theorem isolated_of_replaced (h : Isolating options protection f ⟨t, outline :: todo⟩)
    (htext : (f.text? outline.name).isSome = true) (hlabels : KeepsLabels f g)
    (hg : g.Follows (t.fill todo')) :
    ∀ id ∈ t.doneNames, Isolated options protection g id := by
  intro id hid
  have hkept := h.kept id hid
  have hrow := t.row_mem (outline :: todo)
  rcases Trail.mem_row_of_mem_doneNames hid with hdone | ⟨row, hother, hmem⟩
  · obtain ⟨before, after, hsplit⟩ := List.append_of_mem hdone
    have hsize : id < f.nodes.size :=
      h.follows.inTable id (mem_namesAll_of_mem_documentRow hrow (List.mem_append_left _ hdone))
    have happly := h.apart _ hrow
    have hf := (h.follows.stands _ hrow).linked
    have hg := (hg.stands _ (t.row_mem todo')).linked
    rw [hsplit, List.append_assoc] at happly hf hg
    cases after with
    | nil =>
      -- The last node that was kept stands right before a text, so it is none.
      have hnot := (List.isChain_cons.1 (List.isChain_append.1 happly).2.1).1 outline.name rfl
      refine isolated_of_not_text ?_
      rw [Forest.text?_eq_of_label? (hlabels id hsize)]
      exact Option.not_isSome_iff_eq_none.1 fun hid => hnot ⟨hid, htext⟩
    | cons next after =>
      refine hkept.congr hlabels hsize ?_
      rw [List.cons_append] at hf hg
      rw [hf.links_eq, hg.links_eq]
      rfl
  · have hin : ∀ todo, row ∈ documentRows (t.fill todo) := fun todo =>
      (t.perm_documentRows todo).symm.subset
        (List.mem_cons_of_mem _ (List.mem_append_right _ hother))
    have hsize : id < f.nodes.size :=
      h.follows.inTable id (mem_namesAll_of_mem_documentRow (hin (outline :: todo)) hmem)
    exact hkept.congr hlabels hsize ((h.follows.stands row (hin _)).links_eq (hg.stands row (hin _)) hmem)

/-- The rows around a text that is replaced. -/
theorem apart_of_replaced (h : Isolating options protection f ⟨t, .node old [] :: todo⟩)
    (htext : (f.text? old).isSome = true) (hlabels : KeepsLabels f g) {new : List Outline}
    (hnew : g.TextsApart (ids new)) (hrows : ∀ row ∈ rowsAll new, g.TextsApart row.ids) :
    ∀ row ∈ documentRows (t.fill (new ++ todo)), g.TextsApart row.ids := by
  have hsame : ∀ row ∈ documentRows (t.fill (.node old [] :: todo)), ∀ id ∈ row.ids,
      g.label? id = f.label? id := by
    intro row hrow id hid
    exact hlabels id (h.follows.inTable id (mem_namesAll_of_mem_documentRow hrow hid))
  intro row hrow
  have hrow := (t.perm_documentRows _).subset hrow
  rw [rowsAll_append, List.append_assoc] at hrow
  rcases List.mem_cons.1 hrow with rfl | hrow
  · have hfocus := t.row_mem (.node old [] :: todo)
    rw [ids_append]
    exact (h.apart _ hfocus).replace htext (hsame _ hfocus) hnew
  · rcases List.mem_append.1 hrow with hrow | hrow
    · exact hrows row hrow
    · have hmem : row ∈ documentRows (t.fill (.node old [] :: todo)) := by
        refine (t.perm_documentRows _).symm.subset (List.mem_cons_of_mem _ ?_)
        rw [rowsAll, rows]
        exact List.mem_cons_of_mem _ hrow
      exact (h.apart row hmem).congr (hsame row hmem)

/-! ## One step of the walk -/

theorem isolating_split (h : Isolating options protection f ⟨t, .node old [] :: todo⟩)
    (htext : (f.text? old).isSome = true) (hlabels : KeepsLabels f g) {new : List Outline}
    (hg : g.Follows (t.fill (new ++ todo))) {content : Text} {collapses : Bool}
    (htrees : g.treesOf new = Tree.parse content collapses) :
    Isolating options protection g ⟨t, new ++ todo⟩ := by
  have hapart : Tree.Chained Tree.AreApart (g.treesOf new) := by
    rw [htrees]
    exact Tree.apart_parse content collapses false
  have hstands : ∀ row ∈ rowsAll new, g.Stands row := by
    intro row hrow
    refine hg.stands_below ?_
    rw [rowsAll_append]
    exact List.mem_append_left _ hrow
  refine ⟨hg, ?_, isolated_of_replaced h htext hlabels hg⟩
  exact apart_of_replaced h htext hlabels
    (Forest.isChain_ids (fun _ _ => Forest.textsApart_of_areApart) hapart.1)
    (Forest.isChain_rowsAll (fun _ _ => Forest.textsApart_of_areApart) new hstands hapart.2)

theorem isolating_wrapped (h : Isolating options protection f ⟨t, .node old [] :: todo⟩)
    (htext : (f.text? old).isSome = true) (hlabels : KeepsLabels f g) {wrapper : NodeId}
    (hg : g.Follows (t.fill (.node wrapper [.node old []] :: todo))) :
    Isolating options protection g ⟨t, .node wrapper [.node old []] :: todo⟩ := by
  refine ⟨hg, ?_, isolated_of_replaced h htext hlabels hg⟩
  refine @apart_of_replaced _ _ _ _ _ _ _ h htext hlabels [.node wrapper [.node old []]]
    (.singleton _) ?_
  intro row hrow
  have hrow : row = ⟨.childrenOf wrapper, [old]⟩ ∨
      row = ⟨.childrenOf old, []⟩ := by
    simpa [rowsAll, rows, ids, name] using hrow
  rcases hrow with rfl | rfl
  · exact .singleton _
  · exact .nil

/-- A node that is kept counts as done as soon as the walk enters it. -/
theorem isolating_enter (h : Isolating options protection f ⟨t, outline :: todo⟩)
    (hkept : Isolated options protection f outline.name) :
    Isolating options protection f (Focus.enter t outline todo) := by
  have hwhole := Focus.whole_enter t outline todo
  refine ⟨by rw [hwhole]; exact h.follows, by rw [hwhole]; exact h.apart, ?_⟩
  intro id hid
  obtain ⟨owner, children⟩ := outline
  cases children with
  | nil =>
    rcases Trail.mem_doneNames_keep hid with hid | hid
    · exact h.kept id hid
    · rw [names, namesAll, List.mem_singleton] at hid
      rw [hid]
      exact hkept
  | cons child children =>
    rcases List.mem_cons.1 hid with rfl | hid
    · exact hkept
    · exact h.kept id hid

/-- At the end of a list all of its nodes are done. -/
theorem isolating_leave {outer : Trail} {owner : NodeId} {later done : List Outline}
    (h : Isolating options protection f ⟨.inside outer owner later done, []⟩) :
    Isolating options protection f ⟨outer.keep (.node owner done), later⟩ := by
  have hwhole := Focus.whole_leave outer owner later done
  refine ⟨by rw [hwhole]; exact h.follows, by rw [hwhole]; exact h.apart, ?_⟩
  · intro id hid
    refine h.kept id ?_
    rcases Trail.mem_doneNames_keep hid with hid | hid
    · exact List.mem_append_right _ (List.mem_cons_of_mem owner hid)
    · rw [names] at hid
      rcases List.mem_cons.1 hid with rfl | hid
      · exact List.mem_append_right _ List.mem_cons_self
      · exact List.mem_append_left _ hid

/-- Whatever the walk does, the invariant stays. -/
theorem isolating_moved (hmoved : Moved options protection a b)
    (h : Isolating options protection a.1.forest a.2) :
    Isolating options protection b.1.forest b.2 := by
  cases hmoved with
  | left => exact isolating_leave h
  | entered isolated => exact isolating_enter h isolated
  | split text first mixed labels bare gone follows trees =>
    exact isolating_split h (by rw [text]; rfl) labels follows trees
  | wrapped text inside labels bare gone follows element =>
    exact isolating_wrapped h (by rw [text]; rfl) labels follows

theorem isolating_moves (hmoves : Moves options protection a b)
    (h : Isolating options protection a.1.forest a.2) :
    Isolating options protection b.1.forest b.2 := by
  induction hmoves with
  | refl => exact h
  | tail _ hmoved ih => exact isolating_moved hmoved ih

/-! ## The whole walk -/

/-- A parsed document is where the walk begins. -/
theorem isolating_parse (options : Options) (protection : Protection) (markup : Text) :
    Isolating options protection (options.parse markup)
      ⟨.top [], Tree.outlineAll 0 (Tree.parse markup options.collapses)⟩ := by
  have hfollows := Forest.follows_ofTrees (Tree.parse markup options.collapses)
  have hapart := Tree.apart_parse markup options.collapses false
  rw [← Forest.treesOf_ofTrees (Tree.parse markup options.collapses)] at hapart
  exact ⟨hfollows, fun _ => hfollows.textsApart hapart, fun id hid => absurd hid List.not_mem_nil⟩

end Isolation

/-- The isolation pass of a transform, cut off after some steps. -/
def Options.isolation (options : Options) (html : Text) (notes : Log) (steps : Nat) :
    Editing Log × Ending Empty :=
  let (markup, protection) := options.protect html
  Forest.walk (Isolation.visitor options protection) steps { forest := options.parse markup, notes }

/-- **Isolation.** At every step of the isolation pass the forest is well linked and no text stands
right behind another. When the pass is over, each text with a binding insert holds no template
insert unless it is the one binding insert and nothing else, and it would be declared at an element
unless it is the whole document. -/
theorem Options.isolation_isolates (options : Options) (html : Text) (notes : Log) (steps : Nat) :
    let f := (options.isolation html notes steps).1.forest
    f.WellLinked ∧ (∀ place, f.Reached place → f.TextsApart (f.list place)) ∧
      ((options.isolation html notes steps).2 = .finished →
        ∀ place id content found, f.Reached place → id ∈ f.list place →
          f.text? id = some content → BindingInsert.find? options.binding content = some found →
            ((options.protect html).2.containsPlaceholder content = true →
              found.before = [] ∧ found.after = []) ∧
            ((∃ anchor name attrs children, f.anchor? id = some anchor ∧
                f.content? anchor = some (.element name attrs children)) ∨
              f.roots = [id])) := by
  intro f
  have hstart := Isolation.isolating_parse options (options.protect html).2 (options.protect html).1
  obtain ⟨⟨s, y⟩, hmoves, hstate, hend⟩ := @Isolation.walkOn_moves options (options.protect html).2
    steps (⟨_, notes⟩, ⟨.top [], _⟩) hstart.follows
  have hy : Isolation.Isolating options (options.protect html).2 f y := by
    have hkept := Isolation.isolating_moves hmoves hstart
    rwa [← hstate] at hkept
  refine ⟨hy.follows.wellLinked, ?_, ?_⟩
  · intro place hplace
    obtain ⟨row, hrow, rfl⟩ := hy.follows.exists_row hplace
    rw [(hy.follows.stands row hrow).list]
    exact hy.apart row hrow
  · intro hfinished place id content found hplace hid htext hfound
    obtain ⟨done, hdone⟩ := hend hfinished
    obtain rfl : y = ⟨.top done, []⟩ := hdone
    obtain ⟨row, hrow, rfl⟩ := hy.follows.exists_row hplace
    rw [(hy.follows.stands row hrow).list] at hid
    have hdone : id ∈ namesAll done := by
      have hall := mem_namesAll_of_mem_documentRow hrow hid
      rwa [Focus.whole, Trail.fill, List.append_nil] at hall
    obtain ⟨halone, hanchor⟩ := hy.kept id hdone content found htext hfound
    refine ⟨halone, ?_⟩
    cases heq : f.anchor? id with
    | none => exact .inr (hy.follows.roots_eq_of_anchor?_eq_none hrow hid heq)
    | some anchor =>
      obtain ⟨name, attrs, children, hcontent⟩ := Forest.content?_of_hasPlace (hanchor anchor heq)
      exact .inl ⟨anchor, name, attrs, children, rfl, hcontent⟩

end MarkupBinding
