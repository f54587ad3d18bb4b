import MarkupBinding.Forest.Builder
import MarkupBinding.Proofs.Forest.Neighbours
import MarkupBinding.Proofs.Forest.Shape
import MarkupBinding.Proofs.Forest.Trail
import MarkupBinding.Proofs.Tree.Nested

/-!
# A linked builder and a builder of trees

The two builders take in the same tokens. Where the one has frames, each with the children that it has
so far, the other has a trail: the last root, its last child, and so on, with nothing behind them. A
trail shows a builder of trees if that one has the trees of its nodes.

* `Trail.Shows`: the builder of trees that a trail shows.
* `Builds.insert`, `Builds.insertText`, `Builds.closeMany`: the edits on both sides.
* `Builds.accept`: a token on both sides.
* `exists_builds`: what both are behind some tokens.
-/

namespace MarkupBinding

open Outline

namespace Trail

variable {f g : Forest} {collapses : Bool} {t : Trail} {b : Builder}

/-- The elements on a trail, the innermost one first. -/
def owners : Trail → List NodeId
  | .top _ => []
  | .inside outer owner _ _ => owner :: outer.owners

@[simp] theorem owners_keep (t : Trail) (outline : Outline) : (t.keep outline).owners = t.owners := by
  cases t <;> rfl

/-- The next node goes into the innermost element. -/
@[simp] theorem placeIn_owners (t : Trail) : LinkedBuilder.placeIn t.owners = t.place := by
  cases t <;> rfl

/-- A trail on which nodes are done leads behind the last of them. -/
theorem exists_keep {before : List Outline} {last : Outline} (h : t.done = before ++ [last]) :
    ∃ s : Trail, t = s.keep last := by
  cases t with
  | top done =>
    obtain rfl : done = before ++ [last] := h
    exact ⟨.top before, rfl⟩
  | inside outer owner later done =>
    obtain rfl : done = before ++ [last] := h
    exact ⟨.inside outer owner later before, rfl⟩

/-- The builder of trees that a trail shows. Nothing stands behind its elements. -/
inductive Shows (f : Forest) (collapses : Bool) : Trail → Builder → Prop
  | top (done : List Outline) :
      Shows f collapses (.top done) ⟨collapses, (f.treesOf done).reverse, []⟩
  | inside {outer : Trail} {roots : List Tree} {opened : List Frame}
      (h : Shows f collapses outer ⟨collapses, roots, opened⟩) {owner : NodeId} {name : Text}
      {attrs : Attributes} (hlabel : f.label? owner = some (.element name attrs []))
      (done : List Outline) :
      Shows f collapses (.inside outer owner [] done)
        ⟨collapses, roots, ⟨name, attrs, (f.treesOf done).reverse⟩ :: opened⟩

namespace Shows

theorem collapses_eq (h : t.Shows f collapses b) : b.collapses = collapses := by
  cases h <;> rfl

/-- What a trail shows depends on the labels of the nodes on it. -/
theorem congr (h : t.Shows f collapses b)
    (hlabels : ∀ id ∈ t.visited, g.label? id = f.label? id) : t.Shows g collapses b := by
  induction h with
  | top done =>
    rw [← Forest.treesOf_congr done hlabels]
    exact .top done
  | @inside outer roots opened h owner name attrs hlabel done ih =>
    have howner : owner ∈ outer.visited ++ owner :: namesAll done :=
      List.mem_append_right _ List.mem_cons_self
    rw [← Forest.treesOf_congr done fun id hid =>
      hlabels id (List.mem_append_right _ (List.mem_cons_of_mem owner hid))]
    exact .inside (ih fun id hid => hlabels id (List.mem_append_left _ hid))
      ((hlabels owner howner).trans hlabel) done

/-- The trees that stand where the next node will go. -/
theorem siblings (h : t.Shows f collapses b) : b.siblings = (f.treesOf t.done).reverse := by
  cases h <;> rfl

/-- The last tree comes first. -/
theorem reverse_treesOf_concat (f : Forest) (done : List Outline) (outline : Outline) :
    (f.treesOf (done ++ [outline])).reverse = f.treeOf outline :: (f.treesOf done).reverse := by
  rw [Forest.treesOf_append, List.reverse_append]
  rfl

/-- One more node. -/
theorem insert (h : t.Shows f collapses b) (outline : Outline) :
    (t.keep outline).Shows f collapses (b.insert (f.treeOf outline)) := by
  cases h with
  | top done =>
    show Shows f collapses _ ⟨collapses, f.treeOf outline :: (f.treesOf done).reverse, []⟩
    rw [← reverse_treesOf_concat]
    exact .top _
  | @inside outer roots opened h owner name attrs hlabel done =>
    show Shows f collapses _
      ⟨collapses, roots, ⟨name, attrs, f.treeOf outline :: (f.treesOf done).reverse⟩ :: opened⟩
    rw [← reverse_treesOf_concat]
    exact .inside h hlabel _

/-- The last node was put there. -/
theorem exists_insert {outline : Outline} (h : (t.keep outline).Shows f collapses b) :
    ∃ b', t.Shows f collapses b' ∧ b = b'.insert (f.treeOf outline) := by
  cases t with
  | top done =>
    cases h with
    | top =>
      rw [reverse_treesOf_concat]
      exact ⟨_, .top done, rfl⟩
  | inside outer owner later done =>
    cases h with
    | inside h hlabel =>
      rw [reverse_treesOf_concat]
      exact ⟨_, .inside h hlabel done, rfl⟩

/-- The innermost element is closed where it stands. -/
theorem close {outer : Trail} {owner : NodeId} {later done : List Outline}
    (h : (Trail.inside outer owner later done).Shows f collapses b) :
    (outer.keep (.node owner done)).Shows f collapses b.close ∧
      (outer.keep (.node owner done)).fill [] = (Trail.inside outer owner later done).fill [] := by
  cases h with
  | @inside outer roots opened h owner name attrs hlabel done =>
    have htree : Frame.tree ⟨name, attrs, (f.treesOf done).reverse⟩ = f.treeOf (.node owner done) := by
      rw [Forest.treeOf, hlabel, Frame.tree, List.reverse_reverse]
    refine ⟨?_, ?_⟩
    · show Shows f collapses _ (Builder.insert ⟨collapses, roots, opened⟩ (Frame.tree _))
      rw [htree]
      exact h.insert _
    · rw [fill_keep, fill, List.append_nil]

/-- Elements are closed from the inside. -/
theorem closeMany (n : Nat) (h : t.Shows f collapses b) :
    ∃ t' : Trail, t'.Shows f collapses (Builder.closeMany n b) ∧ t'.fill [] = t.fill [] ∧
      t'.owners = t.owners.drop n := by
  induction n generalizing t b with
  | zero => exact ⟨t, h, rfl, rfl⟩
  | succ n ih =>
    cases t with
    | top done =>
      have hclose : b.close = b := by
        cases h
        rfl
      obtain ⟨t', ht', hfill, howners⟩ := ih h
      rw [Builder.closeMany, hclose]
      exact ⟨t', ht', hfill, by rw [howners, owners, List.drop_nil, List.drop_nil]⟩
    | inside outer owner later done =>
      obtain ⟨hclose, hsame⟩ := h.close
      obtain ⟨t', ht', hfill, howners⟩ := ih hclose
      exact ⟨t', ht', hfill.trans hsame, by rw [howners, owners_keep]; rfl⟩

/-- A new element is opened. -/
theorem opened (h : t.Shows f collapses b) {id : NodeId} {name : Text} {attrs : Attributes}
    (hlabel : f.label? id = some (.element name attrs [])) :
    (Trail.inside t id [] []).Shows f collapses
      { b with opened := ⟨name, attrs, []⟩ :: b.opened } := by
  obtain ⟨c, roots, opened⟩ := b
  obtain rfl : c = collapses := h.collapses_eq
  exact .inside h hlabel []

/-- Nodes can be put where the next one will go. -/
theorem hasPlace (h : t.Shows f collapses b) : f.HasPlace t.place := by
  cases h with
  | top => trivial
  | inside h hlabel => exact ⟨_, _, hlabel⟩

end Shows
end Trail

/-- A node without children, as it stands in a table and as a tree. -/
inductive Content.IsLeaf : Content → Tree → Prop
  | element (name : Text) (attrs : Attributes) :
      IsLeaf (.element name attrs []) (.element name attrs [])
  | data (kind : DataKind) (content : Text) : IsLeaf (.data kind content) (.data kind content)

theorem Content.IsLeaf.label_eq {content : Content} {tree : Tree} (h : content.IsLeaf tree) :
    content.label = content := by
  cases h <;> rfl

theorem Content.IsLeaf.children_eq_nil {content : Content} {tree : Tree} (h : content.IsLeaf tree)
    {f : Forest} {id : NodeId} (hcontent : f.content? id = some content) : f.children id = [] := by
  unfold Forest.children
  rw [hcontent]
  cases h <;> rfl

theorem Forest.HasPlace.extend {f g : Forest} {place : Place} (h : f.HasPlace place)
    (hextends : Extends f g) : g.HasPlace place := by
  cases place with
  | roots => trivial
  | childrenOf owner =>
    obtain ⟨name, attrs, hlabel⟩ := h
    exact ⟨name, attrs, (hextends.label (lt_size_of_label? hlabel)).trans hlabel⟩

/-- A node that was put into the table. -/
theorem Forest.content?_allocate (f : Forest) (content : Content) :
    (f.allocate { content }).2.content? f.nodes.size = some content := by
  show ((f.nodes.push { content })[f.nodes.size]?).map (·.content) = some content
  rw [Array.getElem?_push_size]
  rfl

theorem Forest.bareless_allocate {f : Forest} (h : f.Bareless) {content : Content} {tree : Tree}
    (hleaf : content.IsLeaf tree) : (f.allocate { content }).2.Bareless := by
  intro id label hlabel
  have hpush : (f.nodes.push { content })[id]? =
      if id = f.nodes.size then some { content } else f.nodes[id]? := Array.getElem?_push
  unfold label? content? allocate at hlabel
  simp only [hpush] at hlabel
  by_cases hid : id = f.nodes.size
  · rw [if_pos hid] at hlabel
    cases hleaf <;> cases hlabel
  · rw [if_neg hid] at hlabel
    exact h id label hlabel

/-- The tree of a node that holds no text. -/
theorem Forest.isText_treeOf_eq_false {f : Forest} (hbare : f.Bareless) {outline : Outline}
    (hid : outline.name < f.nodes.size) (h : f.text? outline.name = none) :
    (f.treeOf outline).isText = false := by
  obtain ⟨id, children⟩ := outline
  obtain ⟨content, hcontent⟩ : ∃ content, f.content? id = some content :=
    ⟨_, congrArg (Option.map _) (Array.getElem?_eq_getElem hid)⟩
  have hlabel := label?_of_content? hcontent
  unfold text? at h
  simp only [Outline.name, hcontent] at h
  rw [treeOf, hlabel]
  cases content with
  | element name attrs below => rfl
  | data kind content =>
    cases kind with
    | text => cases h
    | comment => rfl
    | cdata => rfl
    | directive => rfl
  | bare label => exact absurd hlabel (hbare id label)

namespace Builder

@[simp] theorem kept_insert (b : Builder) (tree : Tree) (content : Text) :
    (b.insert tree).kept content = b.kept content := by
  unfold kept insert
  rw [collapses_withSiblings]

/-- Text is merged with the text that was added before it. -/
theorem insertText_insert_text (b : Builder) (before content : Text) :
    (b.insert (.text before)).insertText content = b.insert (.text (b.kept (before ++ content))) := by
  have hsiblings : (b.insert (.text before)).siblings = .text before :: b.siblings :=
    siblings_withSiblings ..
  unfold insertText
  rw [hsiblings]
  simp only [kept_insert]
  exact withSiblings_withSiblings ..

/-- Text stands for itself behind anything else. -/
theorem insertText_of_not_text {b : Builder} (h : ∀ tree ∈ b.siblings.head?, tree.isText = false)
    (content : Text) : b.insertText content = b.insert (.text (b.kept content)) := by
  unfold insertText
  split
  · next last before hs =>
    rw [hs] at h
    cases h _ rfl
  · rfl

end Builder

namespace LinkedBuilder

variable {l : LinkedBuilder} {t : Trail} {b : Builder}

/-- A start tag without a name is refused, and it ends no element before that. -/
theorem startTag_nil (l : LinkedBuilder) (attrs : Attributes) :
    l.startTag [] attrs = (l, .error .empty) := by
  have hnone : l.closeImplied [] = l := by
    have hends : (fun id => Element.startEnds (l.lowered id) []) = fun _ => false :=
      funext fun id => Element.startEnds_eq_false (by decide) _
    unfold closeImplied
    rw [hends]
    cases l with
    | mk collapses forest opened => cases opened <;> rfl
  show (l.closeImplied [], _) = _
  rw [hnone]

/-! ## A node that is added -/

section Insert

variable {content : Content} {tree : Tree}

theorem size_insert (l : LinkedBuilder) (content : Content) :
    (l.insert content).2.forest.nodes.size = l.forest.nodes.size + 1 :=
  (Forest.size_link ..).trans (Array.size_push _)

theorem label?_insert_self (l : LinkedBuilder) (hleaf : content.IsLeaf tree) :
    (l.insert content).2.forest.label? (l.insert content).1 = some content := by
  have hlabel := Forest.label?_of_content? (Forest.content?_allocate l.forest content)
  rw [hleaf.label_eq] at hlabel
  exact (Forest.label?_link ..).trans hlabel

/-- The nodes that were there before stay what they were. -/
theorem label?_insert_of_lt (l : LinkedBuilder) (content : Content) {id : NodeId}
    (hid : id < l.forest.nodes.size) :
    (l.insert content).2.forest.label? id = l.forest.label? id :=
  (Forest.label?_link ..).trans ((Forest.Extends.allocate _ _).label hid)

theorem bareless_insert (h : l.forest.Bareless) (hleaf : content.IsLeaf tree) :
    (l.insert content).2.forest.Bareless := fun id label hbare =>
  Forest.bareless_allocate h hleaf id label ((Forest.label?_link ..).symm.trans hbare)

end Insert

/-! ## Two builders -/

/-- A linked builder that stands at the end of a trail, and the builder of trees that it shows. No
node is left out. -/
structure Builds (l : LinkedBuilder) (t : Trail) (b : Builder) : Prop where
  follows : l.forest.Follows (t.fill [])
  complete : ∀ id < l.forest.nodes.size, id ∈ namesAll (t.fill [])
  shows : t.Shows l.forest l.collapses b
  opened : l.opened = t.owners
  bareless : l.forest.Bareless

namespace Builds

theorem empty (collapses : Bool) : Builds { collapses } (.top []) { collapses } := by
  refine ⟨⟨?_, List.nodup_nil, List.forall_mem_nil _⟩, ?_, .top [], rfl, ?_⟩
  · intro row hrow
    obtain rfl := List.mem_singleton.1 hrow
    exact ⟨rfl, trivial⟩
  · exact fun id hid => absurd hid (Nat.not_lt_zero id)
  · intro id label h
    cases h

theorem place_eq (h : l.Builds t b) : l.place = t.place := by
  rw [place, h.opened, Trail.placeIn_owners]

theorem head?_opened (h : l.Builds t b) : l.opened.head? = t.place.owner := by
  rw [h.opened]
  cases t <;> rfl

/-- The nodes that stand where the next node will go. -/
theorem list_eq (h : l.Builds t b) : l.forest.list l.place = ids t.done := by
  rw [h.place_eq, h.follows.list_eq]
  exact List.append_nil _

/-- The names of the open elements. -/
theorem lowered_eq (h : l.Builds t b) :
    t.owners.map l.lowered = b.opened.map fun frame => frame.name.lowercase := by
  have hshows := h.shows
  clear h
  induction hshows with
  | top => rfl
  | @inside outer roots opened _ owner name attrs hlabel done ih =>
    obtain ⟨children, hcontent⟩ := Forest.content?_of_label? hlabel
    have hname : l.lowered owner = name.lowercase := by
      unfold lowered
      rw [hcontent]
    rw [Trail.owners, List.map_cons, List.map_cons, hname, ih]

/-- The nodes on the trail are in the table. -/
theorem inTable_visited (h : l.Builds t b) {id : NodeId} (hid : id ∈ t.visited) :
    id < l.forest.nodes.size := by
  refine h.follows.inTable id ?_
  rw [t.namesAll_fill]
  exact List.mem_append_left _ hid

/-! ## Nodes that are added -/

/-- A new node is linked where the trail leads to, once it is in the table. -/
theorem forest_insert (h : l.Builds t b) (content : Content) :
    (l.insert content).2.forest =
      (l.forest.allocate { content }).2.link t.place l.forest.nodes.size t.place.owner := by
  show (l.forest.allocate { content }).2.link l.place _ l.opened.head? = _
  rw [h.place_eq, h.head?_opened]

/-- A new node stands at the end of the list that the trail leads to. -/
theorem follows_insert (h : l.Builds t b) {content : Content} {tree : Tree}
    (hleaf : content.IsLeaf tree) :
    (l.insert content).2.forest.Follows (t.fill [.node (l.insert content).1 []]) := by
  have hextends : Forest.Extends l.forest (l.forest.allocate { content }).2 := .allocate _ _
  have hnode := Forest.content?_allocate l.forest content
  have hplace := h.shows.hasPlace.extend hextends
  have hnew : l.forest.nodes.size ∉ namesAll (t.fill []) := fun hmem =>
    Nat.lt_irrefl _ (h.follows.inTable _ hmem)
  rw [h.forest_insert]
  exact Forest.follows_link (h.follows.extend hextends) hplace hnew
    (Forest.lt_size_of_label? (Forest.label?_of_content? hnode)) (hleaf.children_eq_nil hnode)

/-- What a trail shows is still there behind a new node. -/
theorem shows_insert (h : l.Builds t b) (content : Content) :
    t.Shows (l.insert content).2.forest l.collapses b :=
  h.shows.congr fun _ hid => label?_insert_of_lt l content (h.inTable_visited hid)

/-- A new node is one more tree. -/
theorem insert (h : l.Builds t b) {content : Content} {tree : Tree} (hleaf : content.IsLeaf tree) :
    (l.insert content).2.Builds (t.keep (.node (l.insert content).1 [])) (b.insert tree) := by
  have htree : (l.insert content).2.forest.treeOf (.node (l.insert content).1 []) = tree := by
    rw [Forest.treeOf, label?_insert_self l hleaf]
    cases hleaf <;> rfl
  refine ⟨?_, ?_, ?_, h.opened.trans (t.owners_keep _).symm, bareless_insert h.bareless hleaf⟩
  · rw [t.fill_keep]
    exact h.follows_insert hleaf
  · intro id hid
    rw [size_insert] at hid
    rw [t.fill_keep]
    refine (t.perm_namesAll_leaf _).symm.subset (List.mem_cons.2 ?_)
    rcases Nat.lt_succ_iff_lt_or_eq.1 hid with hid | rfl
    · exact .inr (h.complete id hid)
    · exact .inl rfl
  · rw [← htree]
    exact (h.shows_insert content).insert _

theorem insert_leaf (h : l.Builds t b) {content : Content} {tree : Tree} (hleaf : content.IsLeaf tree) :
    ∃ t', (l.insert content).2.Builds t' (b.insert tree) := ⟨_, h.insert hleaf⟩

/-! ## Texts -/

theorem kept_eq (h : l.Builds t b) (content : Text) : b.kept content = l.kept content := by
  unfold Builder.kept kept
  rw [h.shows.collapses_eq]

/-- The last node was a text, and gets other text. -/
theorem setData {s : Trail} {last : Outline} {old : Text} (h : l.Builds (s.keep last) b)
    (htext : l.forest.text? last.name = some old) (content : Text) :
    ∃ b' : Builder, b = b'.insert (.text old) ∧
      Builds { l with forest := l.forest.setData last.name content } (s.keep last)
        (b'.insert (.text content)) := by
  have hshape := Forest.SameShape.setData l.forest last.name content
  have hself := Forest.text?_setData_self htext content
  have hnames : namesAll ((s.keep last).fill []) = s.visited ++ (last.names ++ s.laterNames) := by
    rw [s.fill_keep, s.namesAll_fill, namesAll, namesAll, List.append_nil]
  have hother : ∀ id ∈ s.visited,
      (l.forest.setData last.name content).label? id = l.forest.label? id := by
    -- The last node is not on the trail before it, since no node stands in two places.
    intro id hid
    refine Forest.label?_setData_of_ne ?_ content
    rintro rfl
    have hnodup := h.follows.nodup
    rw [hnames, names_eq] at hnodup
    exact (List.nodup_append.1 hnodup).2.2 _ hid _ List.mem_cons_self rfl
  obtain ⟨b', hb', rfl⟩ := h.shows.exists_insert
  refine ⟨b', by rw [Forest.treeOf_eq_text htext], h.follows.shape hshape, ?_, ?_, h.opened,
    hshape.bareless h.bareless⟩
  · intro id hid
    exact h.complete id (by rwa [hshape.size] at hid)
  · have hshows := (hb'.congr hother).insert last
    rwa [Forest.treeOf_eq_text hself] at hshows

/-- Text is merged with text, and stands for itself behind anything else. -/
theorem insertText (h : l.Builds t b) (content : Text) :
    ∃ t', (l.insertText content).Builds t' (b.insertText content) := by
  have halone : (∀ tree ∈ b.siblings.head?, tree.isText = false) →
      ∃ t', (l.insert (.data .text (l.kept content))).2.Builds t' (b.insertText content) := by
    intro hlast
    rw [Builder.insertText_of_not_text hlast, h.kept_eq]
    exact h.insert_leaf (.data .text _)
  unfold LinkedBuilder.insertText
  rw [h.list_eq]
  rcases List.eq_nil_or_concat t.done with hdone | ⟨before, last, hdone⟩
  · rw [hdone]
    refine halone ?_
    rw [h.shows.siblings, hdone]
    exact fun _ htree => nomatch htree
  rw [List.concat_eq_append] at hdone
  obtain ⟨s, rfl⟩ := Trail.exists_keep hdone
  have hlast : (ids (before ++ [last])).getLast? = some last.name := by
    rw [ids_append]
    exact List.getLast?_concat
  rw [hdone, hlast]
  cases htext : l.forest.text? last.name with
  | none =>
    simp only [htext]
    refine halone fun tree htree => ?_
    rw [h.shows.siblings, hdone, Trail.Shows.reverse_treesOf_concat] at htree
    cases htree
    refine Forest.isText_treeOf_eq_false h.bareless (h.inTable_visited ?_) htext
    rw [Trail.visited_keep, names_eq]
    exact List.mem_append_right _ List.mem_cons_self
  | some old =>
    simp only [htext]
    obtain ⟨b', rfl, hbuilds⟩ := h.setData htext (l.kept (old ++ content))
    have hkept : b'.kept (old ++ content) = l.kept (old ++ content) := by
      rw [← h.kept_eq]
      exact (Builder.kept_insert b' _ _).symm
    rw [Builder.insertText_insert_text, hkept]
    exact ⟨_, hbuilds⟩

/-! ## Elements that are closed and opened -/

/-- Closed elements stay where they stand. -/
theorem closeMany (h : l.Builds t b) (n : Nat) :
    ∃ t', Builds { l with opened := l.opened.drop n } t' (Builder.closeMany n b) := by
  obtain ⟨t', hshows, hfill, howners⟩ := h.shows.closeMany n
  refine ⟨t', ?_, ?_, hshows, ?_, h.bareless⟩
  · rw [hfill]
    exact h.follows
  · rw [hfill]
    exact h.complete
  · rw [howners, ← h.opened]

theorem closeImplied (h : l.Builds t b) (started : Text) :
    ∃ t', (l.closeImplied started).Builds t' (b.closeImplied started) := by
  have hlength : (l.opened.takeWhile fun id => Element.startEnds (l.lowered id) started).length =
      (b.opened.takeWhile fun frame => Element.startEnds frame.name.lowercase started).length := by
    have hnames := congrArg
      (fun names => (names.takeWhile fun name => Element.startEnds name started).length) h.lowered_eq
    simp only [List.takeWhile_map, List.length_map, ← h.opened] at hnames
    exact hnames
  unfold LinkedBuilder.closeImplied Builder.closeImplied
  simp only
  rw [← Builder.drop_length_takeWhile, hlength]
  exact h.closeMany _

theorem endTag (h : l.Builds t b) (name : Text) :
    ∃ t', (l.endTag name).Builds t' (b.endTag name) := by
  have hadded := h.insert_leaf (.element name [])
  have hfind : (l.opened.findIdx? fun id => l.lowered id = name.lowercase) =
      b.opened.findIdx? fun frame => frame.name.lowercase = name.lowercase := by
    have hnames := congrArg (List.findIdx? fun lowered => decide (lowered = name.lowercase))
      h.lowered_eq
    rw [List.findIdx?_map, List.findIdx?_map, ← h.opened] at hnames
    exact hnames
  unfold LinkedBuilder.endTag Builder.endTag
  simp only
  rw [hfind]
  by_cases hvoid : Element.isVoid name.lowercase = true
  · rw [if_pos hvoid, if_pos hvoid]
    split
    · exact hadded
    · exact ⟨t, h⟩
  rw [if_neg hvoid, if_neg hvoid]
  cases b.opened.findIdx? fun frame => frame.name.lowercase = name.lowercase with
  | some i => exact h.closeMany (i + 1)
  | none =>
    simp only
    split
    · exact hadded
    · exact ⟨t, h⟩

/-- An element is added where the next node goes. If it is not void, it is opened there. -/
theorem startTag (h : l.Builds t b) {name : Text} (hname : name ≠ []) (attrs : Attributes) :
    ∃ t' b', b.startTag name attrs = .ok b' ∧ (l.startTag name attrs).2 = .ok () ∧
      (l.startTag name attrs).1.Builds t' b' := by
  obtain ⟨s, hs⟩ := h.closeImplied name.lowercase
  have hadded := hs.insert (.element name attrs)
  unfold LinkedBuilder.startTag Builder.startTag Node.element
  simp only
  rw [if_neg hname, if_neg hname]
  simp only
  by_cases hvoid : Element.isVoid name.lowercase = true
  · rw [if_pos hvoid, if_pos hvoid]
    exact ⟨_, _, rfl, trivial, hadded⟩
  · rw [if_neg hvoid, if_neg hvoid]
    have hopened := (hs.shows_insert _).opened (label?_insert_self _ (.element name attrs))
    have hfollows := hadded.follows
    have hcomplete := hadded.complete
    rw [s.fill_keep] at hfollows hcomplete
    exact ⟨.inside s _ [] [], _, rfl, trivial, hfollows, hcomplete, hopened,
      congrArg (List.cons _) hs.opened, hadded.bareless⟩

/-! ## Tokens -/

/-- A token is taken in on both sides, or on none. -/
theorem accept (h : l.Builds t b) (token : Token) :
    (∃ t', (l.accept token).1.Builds t' (b.absorb token)) ∧
      (l.accept token).2 = (b.accept token).map fun _ => () := by
  cases token with
  | startTag name attrs =>
    by_cases hname : name = []
    · -- The handler of the tag runs up to the name, and has done nothing until then.
      subst hname
      have hrefused : l.accept (.startTag [] attrs) = (l, .error .empty) := startTag_nil l attrs
      rw [hrefused]
      exact ⟨⟨t, h⟩, rfl⟩
    · obtain ⟨t', b', hb', hok, hbuilds⟩ := h.startTag hname attrs
      have haccept : b.accept (.startTag name attrs) = .ok b' := hb'
      rw [Builder.absorb, haccept]
      exact ⟨⟨t', hbuilds⟩, hok⟩
  | endTag name attrs => exact ⟨h.endTag name, rfl⟩
  | data kind content =>
    cases kind with
    | text => exact ⟨h.insertText content, rfl⟩
    | comment => exact ⟨h.insert_leaf (.data .comment content), rfl⟩
    | cdata => exact ⟨h.insert_leaf (.data .cdata content), rfl⟩
    | directive => exact ⟨h.insert_leaf (.data .directive content), rfl⟩
  | endOfInput =>
    have hlength : b.opened.length = l.opened.length := by
      rw [h.opened, ← List.length_map l.lowered, h.lowered_eq, List.length_map]
    have hclosed := h.closeMany b.opened.length
    rw [hlength, List.drop_length, ← hlength] at hclosed
    exact ⟨hclosed, rfl⟩

/-- Both take in the same tokens. -/
theorem acceptAll (h : l.Builds t b) (tokens : List Token) :
    ∃ t', (l.acceptAll tokens).Builds t' (b.absorbAll tokens) := by
  induction tokens generalizing l t b with
  | nil => exact ⟨t, h⟩
  | cons token tokens ih =>
    obtain ⟨⟨t', ht'⟩, _⟩ := h.accept token
    exact ih ht'

end Builds

/-- What both are behind some tokens. -/
theorem exists_builds (collapses : Bool) (tokens : List Token) :
    ∃ t, (acceptAll { collapses } tokens).Builds t (Builder.absorbAll { collapses } tokens) :=
  (Builds.empty collapses).acceptAll tokens

end LinkedBuilder

end MarkupBinding
