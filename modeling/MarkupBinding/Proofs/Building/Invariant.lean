import MarkupBinding.Proofs.Building.Shown
import MarkupBinding.Proofs.Forest.Reading
import MarkupBinding.Proofs.Tree.Listing

/-!
# What a linked builder keeps true

A linked builder and a builder of trees take in the same tokens, so a forest that is being built is
well linked at any time and has the trees of the other. What holds of the frames and trees there is
read off the forest here, and no token is an exception: those behind the end of the input keep it as
well, and a refused one changes nothing.

* `OpenChain`: the open elements are the last root, its last child, and so on.
* `Sound`: the invariant.
* `sound_acceptAll`: it holds behind any tokens, and the two builders agree.
-/

namespace MarkupBinding

open Outline

namespace Forest

variable {f : Forest}

/-- Nodes that stand one inside the other, each the last one in its list. The innermost comes first,
and the outermost is a root. -/
def OpenChain (f : Forest) : List NodeId → Prop
  | [] => True
  | id :: outer =>
    (f.list (LinkedBuilder.placeIn outer)).getLast? = some id ∧ OpenChain f outer

/-- What trees hand down to the trees in them is handed down to every node. -/
theorem Follows.of_inherited {P : Tree → Prop}
    (hP : ∀ name attrs children, P (.element name attrs children) → ∀ child ∈ children, P child)
    {t : Trail} {outline : Outline} {todo : List Outline}
    (h : f.Follows (t.fill (outline :: todo)))
    (hall : ∀ tree ∈ f.treesOf (t.fill (outline :: todo)), P tree) : P (f.treeOf outline) := by
  induction t generalizing outline todo with
  | top done =>
    refine hall _ ?_
    rw [Trail.fill, treesOf_append]
    exact List.mem_append_right _ List.mem_cons_self
  | inside outer owner later done ih =>
    have howner := @ih (.node owner (done ++ outline :: todo)) later h hall
    -- The owner has children, so it is an element.
    obtain ⟨name, attrs, hlabel⟩ : f.HasPlace (.childrenOf owner) := by
      have hlist : f.list (.childrenOf owner) = ids done ++ ids (outline :: todo) :=
        Follows.list_eq (t := .inside outer owner later done) h
      have hmem : outline.name ∈ f.list (.childrenOf owner) := by
        rw [hlist]
        exact List.mem_append_right _ List.mem_cons_self
      exact hasPlace_of_mem hmem
    rw [treeOf, hlabel] at howner
    refine hP _ _ _ howner _ ?_
    rw [treesOf_append]
    exact List.mem_append_right _ List.mem_cons_self

end Forest

namespace Trail.Shows

variable {f : Forest} {collapses : Bool} {t : Trail} {b : Builder}

/-- The forest has the trees of the builder that a trail shows. -/
theorem treesOf_fill (h : t.Shows f collapses b) (todo : List Outline) :
    f.treesOf (t.fill todo) = b.filled (f.treesOf todo) := by
  induction h generalizing todo with
  | top done =>
    show f.treesOf (done ++ todo) = (f.treesOf done).reverse.reverse ++ f.treesOf todo
    rw [List.reverse_reverse, Forest.treesOf_append]
  | @inside outer roots opened h owner name attrs hlabel done ih =>
    have htree : f.treeOf (.node owner (done ++ todo)) =
        .element name attrs ((f.treesOf done).reverse.reverse ++ f.treesOf todo) := by
      rw [Forest.treeOf, hlabel, List.reverse_reverse, ← Forest.treesOf_append]
    show f.treesOf (outer.fill [.node owner (done ++ todo)]) = Builder.fill roots opened [_]
    rw [ih, ← htree]
    rfl

/-- The elements on a trail are last in their lists, since nothing stands behind them. -/
theorem openChain (h : t.Shows f collapses b) {todo : List Outline}
    (hfollows : f.Follows (t.fill todo)) : f.OpenChain t.owners := by
  induction h generalizing todo with
  | top done => trivial
  | @inside outer roots opened h owner name attrs hlabel done ih =>
    refine ⟨?_, ih hfollows⟩
    -- What is still to be done comes below the owner, so the owner ends the list around it.
    have hlist : f.list outer.place = ids outer.done ++ [owner] :=
      Forest.Follows.list_eq (t := outer) hfollows
    rw [placeIn_owners, hlist]
    exact List.getLast?_concat

/-- The elements on a trail are those that are open. -/
theorem exists_frame (h : t.Shows f collapses b) :
    ∀ id ∈ t.owners, ∃ frame ∈ b.opened, f.label? id = some (.element frame.name frame.attrs []) := by
  induction h with
  | top done => exact List.forall_mem_nil _
  | @inside outer roots opened h owner name attrs hlabel done ih =>
    refine List.forall_mem_cons.2 ⟨⟨_, List.mem_cons_self, hlabel⟩, fun id hid => ?_⟩
    obtain ⟨frame, hframe, howner⟩ := ih id hid
    exact ⟨frame, List.mem_cons_of_mem _ hframe, howner⟩

end Trail.Shows

namespace LinkedBuilder

variable {l : LinkedBuilder} {t : Trail} {b : Builder}

/-- What holds of a linked builder at any time. A node that is no element has the empty name, which
is neither void nor the name of an element with an optional end. -/
structure Sound (l : LinkedBuilder) : Prop where
  /-- Lists and links tell the same story, and every node stands in one place only. -/
  wellLinked : l.forest.WellLinked
  /-- Every node stands somewhere. -/
  inDocument : ∀ id < l.forest.nodes.size, l.forest.InDocument id
  openChain : l.forest.OpenChain l.opened
  textsApart : ∀ {place : Place}, l.forest.Reached place → l.forest.TextsApart (l.forest.list place)
  opened : ∀ id ∈ l.opened, l.forest.isElement id = true ∧ Element.isVoid (l.lowered id) = false
  void : ∀ id, Element.isVoid (l.lowered id) = true → l.forest.children id = []
  implied : ∀ id, ∀ child ∈ l.forest.children id,
    Element.startEnds (l.lowered id) (l.lowered child) = false

/-- A node has the name of its tree. -/
theorem lowered_eq_loweredName (l : LinkedBuilder) (outline : Outline) :
    l.lowered outline.name = (l.forest.treeOf outline).loweredName := by
  obtain ⟨id, children⟩ := outline
  unfold lowered
  rw [Forest.treeOf, Forest.label?, Outline.name]
  cases l.forest.content? id with
  | none => rfl
  | some content => cases content <;> rfl

namespace Builds

theorem treesOf_eq (h : l.Builds t b) : l.forest.treesOf (t.fill []) = b.trees := by
  rw [h.shows.treesOf_fill, ← b.filled_nil]
  rfl

/-- The elements of the forest are nested as those of the trees. -/
theorem nested (h : l.Builds t b) (hnested : b.Nested) (id : NodeId) :
    (Element.isVoid (l.lowered id) = true → l.forest.children id = []) ∧
      ∀ child ∈ l.forest.children id,
        Element.startEnds (l.lowered id) (l.lowered child) = false := by
  by_cases hid : id < l.forest.nodes.size
  · obtain ⟨s, ⟨owner, children⟩, todo, hfill, rfl⟩ := exists_trail (h.complete id hid)
    have hfollows := h.follows
    have htrees := Tree.nestedAll_iff.1 hnested.trees
    rw [← hfill] at hfollows
    rw [← h.treesOf_eq, ← hfill] at htrees
    have hlist : l.forest.children owner = ids children :=
      Forest.Follows.list_eq (t := .inside s owner todo []) hfollows
    show (Element.isVoid (l.lowered owner) = true → l.forest.children owner = []) ∧
      ∀ child ∈ l.forest.children owner,
        Element.startEnds (l.lowered owner) (l.lowered child) = false
    cases children with
    | nil =>
      rw [hlist]
      exact ⟨fun _ => rfl, List.forall_mem_nil _⟩
    | cons first children =>
      -- A node with children is an element.
      have hfirst : first.name ∈ l.forest.list (.childrenOf owner) := by
        show first.name ∈ l.forest.children owner
        rw [hlist]
        exact List.mem_cons_self
      obtain ⟨name, attrs, hlabel⟩ := Forest.hasPlace_of_mem hfirst
      have htree := hfollows.of_inherited (fun _ _ _ h => Tree.nestedAll_iff.1 h.2.2) htrees
      have hname := l.lowered_eq_loweredName (.node owner (first :: children))
      rw [Forest.treeOf, hlabel] at htree hname
      obtain ⟨hvoid, hends, _⟩ := htree
      rw [show l.lowered owner = name.lowercase from hname, hlist]
      refine ⟨fun h => (nomatch hvoid h), fun child hchild => ?_⟩
      obtain ⟨outline, houtline, rfl⟩ := List.mem_map.1 hchild
      rw [l.lowered_eq_loweredName]
      refine hends _ ?_
      rw [Forest.treesOf_eq_map]
      exact List.mem_map_of_mem houtline
  · have hlist : l.forest.children id = [] := by
      unfold Forest.children Forest.content?
      rw [Array.getElem?_eq_none (Nat.le_of_not_lt hid)]
      rfl
    rw [hlist]
    exact ⟨fun _ => rfl, List.forall_mem_nil _⟩

/-- What is true of the frames and trees on the one side is read off the forest on the other. -/
theorem sound (h : l.Builds t b) (hnested : b.Nested) (hapart : b.Chained Tree.AreApart) :
    l.Sound := by
  refine ⟨h.follows.wellLinked, ?_, ?_, ?_, ?_, ?_, ?_⟩
  · exact fun id hid => h.follows.inDocument_iff.2 (h.complete id hid)
  · rw [h.opened]
    exact h.shows.openChain h.follows
  · intro place hplace
    obtain ⟨row, hrow, rfl⟩ := h.follows.exists_row hplace
    rw [(h.follows.stands row hrow).list]
    refine h.follows.textsApart ?_ hrow
    rw [h.treesOf_eq]
    exact hapart.trees Tree.ofTexts_areApart
  · intro id hid
    rw [h.opened] at hid
    obtain ⟨frame, hframe, hlabel⟩ := h.shows.exists_frame id hid
    obtain ⟨children, hcontent⟩ := Forest.content?_of_label? hlabel
    unfold Forest.isElement lowered
    rw [hcontent]
    exact ⟨rfl, (hnested.opened frame hframe).1⟩
  · exact fun id => (h.nested hnested id).1
  · exact fun id => (h.nested hnested id).2

end Builds

/-- A token is taken in, or it is a start tag without a name and changes nothing. -/
theorem accept_cases (l : LinkedBuilder) (token : Token) :
    (l.accept token).2 = .ok () ∨
      (∃ attrs, token = .startTag [] attrs) ∧ l.accept token = (l, .error .empty) := by
  cases token with
  | startTag name attrs =>
    by_cases hname : name = []
    · subst hname
      exact .inr ⟨⟨attrs, rfl⟩, startTag_nil l attrs⟩
    · refine .inl ?_
      show (l.startTag name attrs).2 = .ok ()
      unfold startTag Node.element
      simp only
      rw [if_neg hname]
  | endTag name attrs => exact .inl rfl
  | data kind content => cases kind <;> exact .inl rfl
  | endOfInput => exact .inl rfl

/-- Whatever tokens a linked builder has taken in, or refused: its forest is well linked and has
every node, the open elements are the last root, its last child and so on, no text stands behind a
text, no void element is open or has children, and no element has a child whose start tag would have
ended it. A token that is refused leaves all of this as it was. The forest has the trees that the
builder of trees makes of the same tokens, the same elements are open there, and it refuses the same
tokens. -/
theorem sound_acceptAll (collapses : Bool) (tokens : List Token) :
    let l := acceptAll { collapses } tokens
    let b := Builder.absorbAll { collapses } tokens
    l.Sound ∧
      (∀ token, (l.accept token).2 = .ok () ∨
        (∃ attrs, token = .startTag [] attrs) ∧ l.accept token = (l, .error .empty)) ∧
      l.forest.trees = .ok b.trees ∧
      l.opened.map l.lowered = (b.opened.map fun frame => frame.name.lowercase) ∧
      ∀ token, (l.accept token).2 = (b.accept token).map fun _ => () := by
  obtain ⟨t, h⟩ := exists_builds collapses tokens
  have hnested := (Builder.Nested.empty collapses).absorbAll tokens
  have hapart :=
    Builder.chained_absorbAll (Builder.Chained.empty Tree.AreApart collapses) tokens
  refine ⟨h.sound hnested hapart, accept_cases _, ?_, ?_, fun token => (h.accept token).2⟩
  · rw [Forest.trees_eq h.follows h.bareless, h.treesOf_eq]
  · rw [← h.lowered_eq, h.opened]

end LinkedBuilder
end MarkupBinding
