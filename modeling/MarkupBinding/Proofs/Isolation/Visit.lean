import MarkupBinding.Isolation
import MarkupBinding.Proofs.Forest.Neighbours
import MarkupBinding.Proofs.Forest.Walk

/-!
# What isolation does at a node

A visit keeps the node, or splits its text and puts the parsed parts in its place, or wraps it. In
each case the forest follows an outline again, and the nodes that were there before are what they
were.

* `Isolated`: what the binder needs of a node.
* `Moved`: the steps of the walk.
* `visitor_spec`: a visit is one of them.
-/

namespace MarkupBinding.Isolation

open Outline

variable {options : Options} {protection : Protection}

/-- A text with a binding insert is isolated if it holds no template insert beside it, and if the
node that it would be declared at is an element. -/
def Isolated (options : Options) (protection : Protection) (f : Forest) (id : NodeId) : Prop :=
  ∀ content found, f.text? id = some content →
    BindingInsert.find? options.binding content = some found →
    (protection.containsPlaceholder content = true → found.before = [] ∧ found.after = []) ∧
      ∀ anchor, f.anchor? id = some anchor → f.HasPlace (.childrenOf anchor)

theorem isolated_of_not_text {f : Forest} {id : NodeId} (h : f.text? id = none) :
    Isolated options protection f id := by
  intro content found htext _
  rw [h] at htext
  cases htext

theorem isolated_iff {f : Forest} {id : NodeId} {content : Text} (h : f.text? id = some content) :
    Isolated options protection f id ↔
      ∀ found, BindingInsert.find? options.binding content = some found →
        (protection.containsPlaceholder content = true → found.before = [] ∧ found.after = []) ∧
          ∀ anchor, f.anchor? id = some anchor → f.HasPlace (.childrenOf anchor) := by
  constructor
  · exact fun hisolated found => hisolated content found h
  · intro hall content' found htext hfound
    rw [h] at htext
    cases htext
    exact hall found hfound

/-- A text around its first binding insert, which is wrapped. -/
def fragment (options : Options) (found : Text.Found BindingInsert) : Text :=
  found.before ++ wrap (found.hit.markup options.binding) ++ found.after

/-- The nodes of a forest are in another, and are the same. -/
def KeepsLabels (f g : Forest) : Prop := ∀ id < f.nodes.size, g.label? id = f.label? id

/-- No node of a kind of its own is new in a forest. -/
def AddsNoBare (f g : Forest) : Prop :=
  ∀ id label, g.label? id = some (.bare label) → f.label? id = some (.bare label)

/-- A forest under isolation, and where the walk stands in it. -/
abbrev Stage := Editing Log × Focus

/-- One step of the walk. It goes back to where a list belongs, goes on from a node that it keeps, or
finds other nodes in the place of a text. -/
inductive Moved (options : Options) (protection : Protection) : Stage → Stage → Prop
  | left {s : Editing Log} {outer : Trail} {owner : NodeId} {later done : List Outline} :
      Moved options protection (s, ⟨.inside outer owner later done, []⟩)
        (s, ⟨outer.keep (.node owner done), later⟩)
  | entered {s : Editing Log} {t : Trail} {outline : Outline} {todo : List Outline}
      (isolated : Isolated options protection s.forest outline.name) :
      Moved options protection (s, ⟨t, outline :: todo⟩) (s, Focus.enter t outline todo)
  | split {s s' : Editing Log} {t : Trail} {id : NodeId} {todo new : List Outline} {content : Text}
      {found : Text.Found BindingInsert} (text : s.forest.text? id = some content)
      (first : BindingInsert.find? options.binding content = some found)
      (mixed : ¬ (found.before = [] ∧ found.after = []))
      (labels : KeepsLabels s.forest s'.forest) (bare : AddsNoBare s.forest s'.forest)
      (gone : id ∉ namesAll new)
      (follows : s'.forest.Follows (t.fill (new ++ todo)))
      (trees : s'.forest.treesOf new = Tree.parse (fragment options found) options.collapses)
      (contains : protection.containsPlaceholder content = true) :
      Moved options protection (s, ⟨t, .node id [] :: todo⟩) (s', ⟨t, new ++ todo⟩)
  | wrapped {s s' : Editing Log} {t : Trail} {id wrapper : NodeId} {todo : List Outline}
      {content : Text} (text : s.forest.text? id = some content)
      (inside : t.place = .roots ∨ t.done ≠ [])
      (labels : KeepsLabels s.forest s'.forest) (bare : AddsNoBare s.forest s'.forest)
      (gone : id ≠ wrapper)
      (follows : s'.forest.Follows (t.fill (.node wrapper [.node id []] :: todo)))
      (element : s'.forest.label? wrapper = some (.element wrapperName [] [])) :
      Moved options protection (s, ⟨t, .node id [] :: todo⟩)
        (s', ⟨t, .node wrapper [.node id []] :: todo⟩)

section

variable {s : Editing Log} {t : Trail} {outline : Outline} {todo : List Outline}

/-- A text stands in the outline without anything below it. -/
theorem eq_leaf_of_text? (h : s.forest.Follows (t.fill (outline :: todo))) {content : Text}
    (htext : s.forest.text? outline.name = some content) : outline = .node outline.name [] := by
  have hchildren := h.children_eq
  rw [Forest.children_eq_nil_of_text? htext] at hchildren
  obtain ⟨id, children⟩ := outline
  cases children with
  | nil => rfl
  | cons child children => cases hchildren

/-- The node that the visited node would be declared at. -/
theorem anchor?_eq (h : s.forest.Follows (t.fill (outline :: todo))) :
    s.forest.anchor? outline.name =
      ((ids t.done).getLast? <|> t.place.owner <|> (ids todo).head?) :=
  (h.stands _ (t.row_mem (outline :: todo))).anchor?_eq rfl

/-- A text whose place is taken by grafted trees. -/
structure Grafted (f g : Forest) (t : Trail) (id : NodeId) (todo : List Outline)
    (trees : List Tree) : Prop where
  labels : KeepsLabels f g
  bare : AddsNoBare f g
  gone : id ∉ namesAll (Tree.outlineAll f.nodes.size trees)
  follows : g.Follows (t.fill (Tree.outlineAll f.nodes.size trees ++ todo))
  trees : g.treesOf (Tree.outlineAll f.nodes.size trees) = trees
  size : f.nodes.size ≤ g.nodes.size

theorem grafted_spec {f : Forest} {id : NodeId} (h : f.Follows (t.fill (.node id [] :: todo)))
    (trees : List Tree) :
    Grafted f (replaceVisited (f.graft trees).2 (Focus.visit t (.node id [])) (f.graft trees).1) t id
      todo trees := by
  obtain ⟨hids, hextends, _, htrees, _⟩ := Forest.graft_spec f trees
  have hbare : AddsNoBare f (f.graft trees).2 := fun _ _ => Forest.label?_of_graft_bare
  have hfresh := Forest.fresh_graft h.inTable trees
  generalize hnew : Tree.outlineAll f.nodes.size trees = new at hids htrees hfresh
  generalize f.graft trees = grafted at hids hextends htrees hfresh hbare ⊢
  have hfollows := h.extend hextends
  obtain ⟨g, hreplace, hreplaced⟩ := Forest.replace_spec (hfollows.canReplace hfresh)
  have hlength : (ids t.done).length = t.done.length := List.length_map name
  rw [hlength] at hreplace
  have hg : replaceVisited grafted.2 (Focus.visit t (.node id [])) grafted.1 = g := by
    unfold replaceVisited Focus.visit
    simp only
    rw [hids, hreplace]
  rw [hg]
  have hid : id ∈ namesAll (t.fill (.node id [] :: todo)) := t.name_mem (.node id []) todo
  refine ⟨?_, ?_, ?_, ?_, ?_, ?_⟩
  · intro other hother
    rw [hreplaced.label, hextends.label hother]
  · intro other label hother
    rw [hreplaced.label] at hother
    exact hbare other label hother
  · rw [hnew]
    exact fun hmem => hfresh.disjoint id hmem hid
  · rw [hnew]
    exact Forest.follows_replace hfollows hfresh hreplaced
  · rw [hnew]
    exact (Forest.treesOf_congr new fun other _ => hreplaced.label other).trans htrees
  · rw [hreplaced.size]
    exact hextends.size

theorem split_spec {id : NodeId} {content : Text}
    (h : s.forest.Follows (t.fill (.node id [] :: todo)))
    (htext : s.forest.text? id = some content) {found : Text.Found BindingInsert}
    (hfound : BindingInsert.find? options.binding content = some found)
    (hmixed : ¬ (found.before = [] ∧ found.after = []))
    (hcontains : protection.containsPlaceholder content = true) :
    ∃ x, Moved options protection (s, ⟨t, .node id [] :: todo⟩)
      (split options found (Focus.visit t (.node id [])) s, x) := by
  have hgrafted := grafted_spec h (Tree.parse (fragment options found) options.collapses)
  exact ⟨_, .split htext hfound hmixed hgrafted.labels hgrafted.bare hgrafted.gone hgrafted.follows
    hgrafted.trees hcontains⟩

theorem wrapped_spec {id : NodeId} {content : Text}
    (h : s.forest.Follows (t.fill (.node id [] :: todo)))
    (htext : s.forest.text? id = some content) (hinside : t.place = .roots ∨ t.done ≠ [])
    (neighbour : Content) :
    ∃ x, Moved options protection (s, ⟨t, .node id [] :: todo⟩)
      (wrapVisited neighbour (Focus.visit t (.node id [])) s, x) := by
  have hgrafted := grafted_spec h [.element wrapperName [] []]
  rw [Forest.graft_element] at hgrafted
  have hid : id ∈ namesAll (t.fill (.node id [] :: todo)) := t.name_mem (.node id []) todo
  have hsize := h.inTable id hid
  -- First the wrapper takes the place of the text, then the text becomes its child.
  have hwrap : (wrapVisited neighbour (Focus.visit t (.node id [])) s).forest =
      (replaceVisited (s.forest.allocate { content := .element wrapperName [] [] }).2
        (Focus.visit t (.node id [])) [s.forest.nodes.size]).appendChild s.forest.nodes.size id := rfl
  generalize replaceVisited (s.forest.allocate { content := .element wrapperName [] [] }).2
    (Focus.visit t (.node id [])) [s.forest.nodes.size] = g at hgrafted hwrap
  have hfollows : g.Follows (t.fill (.node s.forest.nodes.size [] :: todo)) := hgrafted.follows
  have htree : g.treeOf (.node s.forest.nodes.size []) = .element wrapperName [] [] :=
    (List.cons.inj hgrafted.trees).1
  have hlabel : g.label? s.forest.nodes.size = some (.element wrapperName [] []) := by
    obtain ⟨tag, attrs, hlabel⟩ := Forest.hasPlace_of_isElement
      (congrArg Tree.isElement htree : (g.treeOf (.node s.forest.nodes.size [])).isElement = true)
    have hlabel : g.label? s.forest.nodes.size = some (.element tag attrs []) := hlabel
    rw [Forest.treeOf, hlabel] at htree
    obtain ⟨rfl, rfl, _⟩ := Tree.element.inj htree
    exact hlabel
  have hplace : g.HasPlace (.childrenOf s.forest.nodes.size) := ⟨wrapperName, [], hlabel⟩
  have hgtext : g.text? id = some content :=
    (Forest.text?_eq_of_label? (hgrafted.labels id hsize)).trans htext
  have hgsize := Nat.lt_of_lt_of_le hsize hgrafted.size
  have hadopt := Forest.follows_adopt hfollows hplace (h.not_mem_replaced hgrafted.gone) hgsize
    (Forest.children_eq_nil_of_text? hgtext)
  have hadopted : ∀ other, (g.appendChild s.forest.nodes.size id).label? other = g.label? other :=
    Forest.label?_link g _ id _
  refine ⟨_, .wrapped htext hinside ?_ ?_ (Nat.ne_of_lt hsize) (hwrap ▸ hadopt) ?_⟩
  · intro other hother
    rw [hwrap, hadopted]
    exact hgrafted.labels other hother
  · intro other label hother
    rw [hwrap, hadopted] at hother
    exact hgrafted.bare other label hother
  · rw [hwrap, hadopted, hlabel]

/-- The node that the visited node would be declared at is in the table. -/
theorem anchor?_lt_size (h : s.forest.Follows (t.fill (outline :: todo))) {anchor : NodeId}
    (hanchor : s.forest.anchor? outline.name = some anchor) : anchor < s.forest.nodes.size := by
  have hrow := t.row_mem (outline :: todo)
  have hin : ∀ id ∈ ids t.done ++ ids (outline :: todo), id < s.forest.nodes.size :=
    fun id hid => h.inTable id (mem_namesAll_of_mem_documentRow hrow hid)
  rw [anchor?_eq h] at hanchor
  cases hlast : (ids t.done).getLast? with
  | some last =>
    rw [hlast] at hanchor
    have heq : last = anchor := Option.some.inj hanchor
    exact heq ▸ hin last (List.mem_append_left _ (List.mem_of_getLast? hlast))
  | none =>
    rw [hlast] at hanchor
    cases hplace : t.place with
    | childrenOf owner =>
      rw [hplace] at hanchor
      have heq : owner = anchor := Option.some.inj hanchor
      exact heq ▸ h.inTable owner (mem_namesAll_of_place hrow hplace)
    | roots =>
      rw [hplace] at hanchor
      have hmem : anchor ∈ ids todo := List.mem_of_head? hanchor
      exact hin anchor (List.mem_append_right _ (List.mem_cons_of_mem _ hmem))

theorem isSome_content?_of_anchor? (h : s.forest.Follows (t.fill (outline :: todo)))
    {anchor : NodeId} (hanchor : s.forest.anchor? outline.name = some anchor) :
    (s.forest.content? anchor).isSome = true := by
  unfold Forest.content?
  rw [Array.getElem?_eq_getElem (anchor?_lt_size h hanchor)]
  rfl

/-- The first child of an element would be declared at the element. -/
theorem hasPlace_anchor?_of_first (h : s.forest.Follows (t.fill (outline :: todo)))
    (hfirst : ¬ (t.place = .roots ∨ t.done ≠ [])) :
    ∃ owner, s.forest.anchor? outline.name = some owner ∧
      s.forest.HasPlace (.childrenOf owner) := by
  cases hplace : t.place with
  | roots => exact absurd (.inl hplace) hfirst
  | childrenOf owner =>
    have hdone : t.done = [] := by
      by_contra hne
      exact hfirst (.inr hne)
    refine ⟨owner, ?_, ?_⟩
    · rw [anchor?_eq h, hdone, hplace]
      rfl
    · have hmem : outline.name ∈ s.forest.list t.place := by
        rw [h.list_eq]
        exact List.mem_append_right _ List.mem_cons_self
      rw [hplace] at hmem
      exact Forest.hasPlace_of_mem hmem

/-- Only behind another node or at the top of the document the node is no element that a text would be
declared at. -/
theorem inside_of_not_element (h : s.forest.Follows (t.fill (outline :: todo))) {neighbour : Content}
    (hneighbour : (s.forest.anchor? outline.name).bind s.forest.content? = some neighbour)
    (helement : ∀ name attrs children, neighbour ≠ .element name attrs children) :
    t.place = .roots ∨ t.done ≠ [] := by
  by_contra hfirst
  obtain ⟨owner, howner, hplace⟩ := hasPlace_anchor?_of_first h hfirst
  obtain ⟨name, attrs, children, hcontent⟩ := Forest.content?_of_hasPlace hplace
  rw [howner, Option.bind_some, hcontent] at hneighbour
  exact helement name attrs children (Option.some.inj hneighbour).symm

/-- A visit is a step of the walk, and the visitor never gives up. -/
theorem visitor_spec (h : s.forest.Follows (t.fill (outline :: todo))) :
    ∃ s' x, visitor options protection (Focus.visit t outline) s = (s', none) ∧
      Moved options protection (s, ⟨t, outline :: todo⟩) (s', x) := by
  unfold visitor
  rw [show (Focus.visit t outline).node = outline.name from rfl]
  cases htext : s.forest.text? outline.name with
  | none => exact ⟨s, _, rfl, .entered (isolated_of_not_text htext)⟩
  | some content =>
    simp only
    cases hfound : BindingInsert.find? options.binding content with
    | none =>
      refine ⟨s, _, rfl, .entered ((isolated_iff htext).2 fun found heq => ?_)⟩
      rw [hfound] at heq
      cases heq
    | some found =>
      simp only
      obtain ⟨id, children⟩ := outline
      cases eq_leaf_of_text? h htext
      rw [show (Outline.node id []).name = id from rfl] at htext ⊢
      split
      · -- The text holds a template insert beside its binding insert.
        next hmixed =>
        have hsplit : ¬ (found.before = [] ∧ found.after = []) := by
          rintro ⟨hbefore, hafter⟩
          rw [hbefore, hafter] at hmixed
          simp at hmixed
        have hcontains : protection.containsPlaceholder content = true :=
          (Bool.and_eq_true_iff.1 hmixed).1
        obtain ⟨x, hmoved⟩ := split_spec h htext hfound hsplit hcontains
        exact ⟨_, x, rfl, hmoved⟩
      · next halone =>
        have hkept : (∀ anchor, s.forest.anchor? id = some anchor →
            s.forest.HasPlace (.childrenOf anchor)) → Isolated options protection s.forest id := by
          intro hanchor
          refine (isolated_iff htext).2 fun found' hfound' => ⟨fun hcontains => ?_, hanchor⟩
          rw [hfound] at hfound'
          cases hfound'
          rw [hcontains] at halone
          simpa using halone
        split
        · next hnone =>
          refine ⟨s, _, rfl, .entered (hkept fun anchor hanchor => ?_)⟩
          have hsome := isSome_content?_of_anchor? h hanchor
          rw [hanchor, Option.bind_some] at hnone
          rw [hnone] at hsome
          cases hsome
        · next helement =>
          refine ⟨s, _, rfl, .entered (hkept fun anchor hanchor => ?_)⟩
          rw [hanchor, Option.bind_some] at helement
          exact Forest.hasPlace_of_content? helement
        · next neighbour helement hneighbour =>
          have hinside := inside_of_not_element h hneighbour fun name attrs children heq =>
            helement name attrs children (by rw [heq])
          obtain ⟨x, hmoved⟩ := @wrapped_spec options protection _ _ _ _ _ h htext hinside neighbour
          exact ⟨_, x, rfl, hmoved⟩

end

end MarkupBinding.Isolation
