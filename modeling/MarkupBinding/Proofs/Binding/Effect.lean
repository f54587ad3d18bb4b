import MarkupBinding.Proofs.Binding.Declared
import MarkupBinding.Proofs.Binding.Located

/-!
# The effect of the binder

The declarations of an element are made by up to four nodes at different moments of the walk. What
they come to is said of each node by itself: `declarations` lists what an element receives, in the
order of its neighbourhood, and `boundContent` is what becomes of a node.

* `Bound`: the forest after the walk has come to some of the nodes.
* `bound_visitor`: one visit.
* `flatMap_declaredAt`: what the whole walk declares at an element.
* `bound_along`: the whole walk, to the end of the document or to a text that is not anchored.
* `exists_bound`: the whole walk, if all texts are anchored.
* `bind_effect`: the binder comes to the end, and every node is what it should be.
-/

namespace MarkupBinding

open Outline

/-- A list maps to what its only fruitful member maps to. -/
theorem flatMap_eq_of_only {α β : Type} {list : List α} {g : α → List β} {only : Option α}
    (hnodup : list.Nodup) (hmem : ∀ x ∈ only, x ∈ list) (honly : ∀ x ∈ list, g x ≠ [] → only = some x) :
    list.flatMap g = only.toList.flatMap g := by
  cases only with
  | none =>
    refine List.flatMap_eq_nil_iff.2 fun x hx => ?_
    by_contra hne
    cases honly x hx hne
  | some x =>
    obtain ⟨before, after, rfl⟩ := List.append_of_mem (hmem x rfl)
    have hrest : ∀ y ∈ before ++ x :: after, y ≠ x → g y = [] := by
      intro y hy hne
      by_contra hfruit
      exact hne (Option.some.inj (honly y hy hfruit)).symm
    have hfresh := (List.nodup_middle.1 hnodup)
    rw [List.nodup_cons, List.mem_append, not_or] at hfresh
    have hbefore : before.flatMap g = [] :=
      List.flatMap_eq_nil_iff.2 fun y hy => hrest y (List.mem_append_left _ hy) fun heq =>
        hfresh.1.1 (heq ▸ hy)
    have hafter : after.flatMap g = [] :=
      List.flatMap_eq_nil_iff.2 fun y hy =>
        hrest y (List.mem_append_right _ (List.mem_cons_of_mem x hy)) fun heq =>
          hfresh.1.2 (heq ▸ hy)
    simp [hbefore, hafter]

/-- A node that would be declared at an element. -/
def Forest.AnchoredAt (f : Forest) (id : NodeId) : Prop :=
  ∃ anchor name attrs children, f.anchor? id = some anchor ∧
    f.content? anchor = some (.element name attrs children)

namespace Binder

variable {b : Binder} {f : Forest} {s : Editing Log}

/-! ## What becomes of a node -/

/-- What a node declares with a handler, if it is a text. -/
def textDeclaration? (b : Binder) (f : Forest) (handler : Handler) (id : NodeId) : Option Text :=
  (f.text? id).bind (b.declaration? handler)

/-- What a node declares at itself. -/
def elementDeclarations (b : Binder) (f : Forest) (id : NodeId) : List Text :=
  match f.content? id with
  | some (.element name attrs _) =>
    if Element.Kind.ofName name = .tag then b.ownDeclarations attrs else []
  | _ => []

/-- The text in front of a node, if it is the first of the document. -/
def textBefore (f : Forest) (id : NodeId) : Option NodeId :=
  (f.links id).previous.filter fun before => f.roots.head? = some before

/-- The declarations that an element receives: from the first text of the document if it stands in
front of the element, from the attributes, from the first child and from the next neighbour. -/
def declarations (b : Binder) (f : Forest) (id : NodeId) : List Text :=
  ((textBefore f id).bind (b.textDeclaration? f .previousText)).toList ++
    (b.elementDeclarations f id ++
      (((f.children id).head?.bind (b.textDeclaration? f
          (if (f.children id).length = 1 then .onlyText else .firstText))).toList ++
        ((f.links id).next.bind (b.textDeclaration? f .nextText)).toList))

/-- What becomes of a node that is visited or not and has received some declarations. -/
def rewrite (b : Binder) (visited : Bool) (declarations : List Text) : Content → Content
  | .element name attrs children =>
    .element name (b.withDeclarations
      (if visited && Element.Kind.ofName name = .tag then b.boundAttributes attrs else attrs)
      declarations) children
  | .data .text content => .data .text (if visited then b.boundText content else content)
  | content => content

/-- What becomes of a node of a document. -/
def boundContent (b : Binder) (f : Forest) (id : NodeId) : Option Content :=
  (f.content? id).map (b.rewrite true (b.declarations f id))

/-- Only elements become elements. -/
theorem element_of_rewrite {visited : Bool} {declarations : List Text} {content : Content}
    {name : Text} {attrs : Attributes} {children : List NodeId}
    (h : b.rewrite visited declarations content = .element name attrs children) :
    ∃ name' attrs' children', content = .element name' attrs' children' := by
  match content with
  | .element name attrs children => exact ⟨name, attrs, children, rfl⟩
  | .data .text _ | .data .comment _ | .data .directive _ | .data .cdata _ | .bare _ => cases h

/-! ## One visit after another -/

/-- What a visit of a node declares at an element. -/
def declaredAt (b : Binder) (f : Forest) (element id : NodeId) : List Text :=
  if id = element then b.elementDeclarations f id
  else if f.anchor? id = some element then
    (b.textDeclaration? f (.ofLinks (f.links id)) id).toList
  else []

/-- A forest of which some nodes have been visited. -/
structure Bound (b : Binder) (f : Forest) (visited : List NodeId) (g : Forest) : Prop where
  shape : Forest.SameShape f g
  content : ∀ id, g.content? id =
    (f.content? id).map (b.rewrite (decide (id ∈ visited)) (visited.flatMap (b.declaredAt f id)))

/-- What a binder needs of a forest: the names of attributes are distinct, and each text that holds a
binding insert would be declared at an element. -/
structure Bindable (b : Binder) (f : Forest) : Prop where
  distinct : ∀ id, f.InDocument id → ∀ name attrs children,
    f.content? id = some (.element name attrs children) → attrs.names.Nodup
  anchored : ∀ id, f.InDocument id → ∀ content, f.text? id = some content →
    BindingInsert.find? b.binding content ≠ none → ∃ anchor name attrs children,
      f.anchor? id = some anchor ∧ f.content? anchor = some (.element name attrs children)

/-- A declaration comes from an attribute of the element, or from a text. -/
theorem eq_of_mem_declaredAt {element id : NodeId} {declaration : Text}
    (h : declaration ∈ b.declaredAt f element id) :
    (∃ name attrs children, f.content? id = some (.element name attrs children) ∧
      Element.Kind.ofName name = .tag ∧ declaration ∈ b.ownDeclarations attrs) ∨
    ∃ content, f.text? id = some content ∧
      b.declaration? (.ofLinks (f.links id)) content = some declaration := by
  unfold declaredAt at h
  split at h
  · unfold elementDeclarations at h
    split at h
    · next name attrs children hcontent =>
      split at h
      · next htag => exact .inl ⟨name, attrs, children, hcontent, htag, h⟩
      · cases h
    · cases h
  · split at h
    · exact .inr (Option.bind_eq_some_iff.1 (Option.mem_toList.1 h))
    · cases h

theorem trimmed_of_mem_declaredAt {element id : NodeId} {declaration : Text}
    (h : declaration ∈ b.declaredAt f element id) : declaration.Trimmed := by
  rcases eq_of_mem_declaredAt h with ⟨_, _, _, _, _, hown⟩ | ⟨_, _, hdeclaration⟩
  · exact trimmed_of_mem_ownDeclarations hown
  · exact trimmed_declaration? hdeclaration

/-- Nodes that are no texts declare nothing at other nodes. -/
theorem declaredAt_of_text?_eq_none {element id : NodeId} (hne : id ≠ element)
    (h : f.text? id = none) : b.declaredAt f element id = [] := by
  unfold declaredAt textDeclaration?
  rw [if_neg hne, h]
  split <;> rfl

/-- Texts declare nothing at themselves. -/
theorem elementDeclarations_of_text? {id : NodeId} {content : Text} (h : f.text? id = some content) :
    b.elementDeclarations f id = [] := by
  unfold elementDeclarations
  rw [Forest.content?_of_text? h]

/-- A text without a binding insert declares nothing. -/
theorem declaredAt_of_synthesis?_eq_none {id : NodeId} {content : Text} (element : NodeId)
    (htext : f.text? id = some content) (hnone : b.synthesis? content = none) :
    b.declaredAt f element id = [] := by
  unfold declaredAt textDeclaration? declaration?
  rw [elementDeclarations_of_text? htext, htext, Option.bind_some, hnone]
  simp

/-- A text that holds a binding insert declares its expression at its anchor and nowhere else. -/
theorem declaredAt_of_synthesis? {id anchor element : NodeId} {content : Text}
    {synthesis : Synthesis} (htext : f.text? id = some content)
    (hsynthesis : b.synthesis? content = some synthesis) (hanchor : f.anchor? id = some anchor)
    (hne : element ≠ id) : b.declaredAt f element id =
      if element = anchor then [(Handler.ofLinks (f.links id)).declaration synthesis.expression]
      else [] := by
  unfold declaredAt textDeclaration? declaration?
  rw [if_neg hne.symm, hanchor, htext, Option.bind_some, hsynthesis]
  by_cases heq : element = anchor
  · rw [if_pos heq, if_pos (congrArg some heq.symm)]
    rfl
  · rw [if_neg heq, if_neg fun hsome => heq (Option.some.inj hsome).symm]

namespace Bound

variable {g g' : Forest} {visited : List NodeId} {id : NodeId}

/-- The next visit changes the visited node and, maybe, one at which it is declared. -/
theorem visit (h : b.Bound f visited g) (hshape : Forest.SameShape g g')
    (hself : g'.content? id = (f.content? id).map
      (b.rewrite true (visited.flatMap (b.declaredAt f id) ++ b.declaredAt f id id)))
    (hother : ∀ other, other ≠ id → g'.content? other = (f.content? other).map
      (b.rewrite (decide (other ∈ visited))
        (visited.flatMap (b.declaredAt f other) ++ b.declaredAt f other id))) :
    b.Bound f (visited ++ [id]) g' := by
  refine ⟨h.shape.trans hshape, fun other => ?_⟩
  rw [List.flatMap_append, List.flatMap_singleton]
  by_cases heq : other = id
  · subst heq
    rw [hself, decide_eq_true (by simp)]
  · rw [hother other heq]
    congr 3
    simp [heq]

/-- The next visit may also leave everything as it is. -/
theorem pass (h : b.Bound f visited g) (hnew : id ∉ visited)
    (hself : ∀ declarations, (f.content? id).map (b.rewrite true declarations) =
      (f.content? id).map (b.rewrite false declarations))
    (hdeclared : ∀ other, b.declaredAt f other id = []) : b.Bound f (visited ++ [id]) g := by
  refine h.visit (.refl g) ?_ ?_
  · rw [hself, hdeclared, List.append_nil, h.content, decide_eq_false hnew]
  · intro other _
    rw [hdeclared, List.append_nil, h.content]

end Bound

/-- A visit of an element. -/
theorem bound_element (htarget : b.target ∈ b.skipped) {visited : List NodeId}
    (h : b.Bound f visited s.forest) {id : NodeId} (hnew : id ∉ visited) {name : Text}
    {attrs : Attributes} {children : List NodeId} (hdistinct : attrs.names.Nodup)
    (hcontent : f.content? id = some (.element name attrs children)) :
    b.Bound f (visited ++ [id])
      (if Element.Kind.ofName name = .tag then (b.bindAttributes id s).1 else s).forest := by
  have htext : f.text? id = none :=
    Forest.text?_eq_none_of_hasPlace (Forest.hasPlace_of_content? hcontent)
  have hdeclared : b.declaredAt f id id = b.elementDeclarations f id := if_pos rfl
  have hself := h.content id
  rw [decide_eq_false hnew, hcontent, Option.map_some] at hself
  split
  · next htag =>
    have hputs := puts_bindAttributes htarget hdistinct (fun declaration hmem => by
      obtain ⟨_, _, hmem⟩ := List.mem_flatMap.1 hmem
      exact trimmed_of_mem_declaredAt hmem) hself
    refine h.visit (declares_bindAttributes id s).shape ?_ ?_
    · rw [hputs.self, hcontent, hdeclared, elementDeclarations, hcontent]
      simp [rewrite, htag]
    · intro other hne
      rw [hputs other, if_neg hne, declaredAt_of_text?_eq_none (Ne.symm hne) htext, List.append_nil,
        h.content]
  · next htag =>
    refine h.pass hnew ?_ ?_
    · intro declarations
      rw [hcontent]
      simp [rewrite, htag]
    · intro other
      by_cases hne : id = other
      · subst hne
        rw [hdeclared, elementDeclarations, hcontent]
        simp [htag]
      · exact declaredAt_of_text?_eq_none hne htext

/-- A visit of a text that holds no binding insert or is declared at an element. -/
theorem bound_text {visited : List NodeId} (h : b.Bound f visited s.forest) {id : NodeId}
    (hnew : id ∉ visited) {content : Text} (htext : f.text? id = some content)
    (hanchored : BindingInsert.find? b.binding content ≠ none → f.AnchoredAt id) :
    ∃ s' bound, b.bindText id s = (s', .ok bound) ∧ b.Bound f (visited ++ [id]) s'.forest := by
  have hcontent := Forest.content?_of_text? htext
  have hself : s.forest.content? id = some (.data .text content) := by
    rw [h.content, hcontent, decide_eq_false hnew]
    rfl
  unfold bindText
  rw [hself]
  simp only
  cases hsynthesis : b.synthesis? content with
  | none =>
    refine ⟨s, false, rfl, h.pass hnew ?_ ?_⟩
    · intro declarations
      rw [hcontent]
      simp [rewrite, boundText, hsynthesis]
    · exact fun other => declaredAt_of_synthesis?_eq_none other htext hsynthesis
  | some synthesis =>
    have hfound : BindingInsert.find? b.binding content ≠ none := by
      intro hnone
      rw [synthesis?_eq_none_iff.2 hnone] at hsynthesis
      cases hsynthesis
    obtain ⟨anchor, name, attrs, children, hanchor, helement⟩ := hanchored hfound
    have hne : id ≠ anchor := by
      rintro rfl
      rw [hcontent] at helement
      cases helement
    have hat := h.content anchor
    rw [helement, Option.map_some] at hat
    rw [h.shape.anchor?, hanchor]
    simp only
    rw [hat]
    refine ⟨_, true, rfl, ?_⟩
    rw [h.shape.links]
    have hdeclares := declares_declare (b := b) anchor
      ((Handler.ofLinks (f.links id)).declaration synthesis.expression) s
    have hputs := puts_declare (b := b) hat
      ((Handler.ofLinks (f.links id)).declaration synthesis.expression)
    rw [set_withDeclarations fun declaration hmem => by
      obtain ⟨_, _, hmem⟩ := List.mem_flatMap.1 hmem
      exact trimmed_of_mem_declaredAt hmem] at hputs
    have hset := Forest.puts_setData (((hputs id).trans (if_neg hne)).trans hself) synthesis.content
    refine h.visit (hdeclares.shape.trans (.setData ..)) ?_ ?_
    · rw [hset.self, hcontent]
      simp [rewrite, boundText, hsynthesis]
    · intro other hother
      rw [hset other, if_neg hother, hputs other,
        declaredAt_of_synthesis? htext hsynthesis hanchor hother]
      split
      · next heq =>
        subst heq
        rw [helement]
        rfl
      · rw [List.append_nil, h.content]

/-- A node that is neither an element nor a text is not changed by a visit. -/
theorem bound_other {visited : List NodeId} {g : Forest} (h : b.Bound f visited g) {id : NodeId}
    (hnew : id ∉ visited)
    (helement : ∀ name attrs children, f.content? id ≠ some (.element name attrs children))
    (htext : f.text? id = none) : b.Bound f (visited ++ [id]) g := by
  refine h.pass hnew ?_ ?_
  · intro declarations
    match hcontent : f.content? id with
    | none => rfl
    | some (.bare label) => rfl
    | some (.data .text content) =>
      rw [Forest.text?, hcontent] at htext
      cases htext
    | some (.data .comment _) | some (.data .directive _) | some (.data .cdata _) => rfl
    | some (.element name attrs children) => exact absurd hcontent (helement name attrs children)
  · intro other
    by_cases hne : id = other
    · subst hne
      unfold declaredAt elementDeclarations
      rw [if_pos rfl]
      split
      · next hcontent => exact absurd hcontent (helement _ _ _)
      · rfl
    · exact declaredAt_of_text?_eq_none hne htext

/-- A visit of a node that can be bound. -/
theorem bound_visitor (htarget : b.target ∈ b.skipped) {visited : List NodeId}
    (h : b.Bound f visited s.forest) {visit : Visit} (hnew : visit.node ∉ visited)
    (hdistinct : ∀ name attrs children,
      f.content? visit.node = some (.element name attrs children) → attrs.names.Nodup)
    (hanchored : ∀ content, f.text? visit.node = some content →
      BindingInsert.find? b.binding content ≠ none → f.AnchoredAt visit.node) :
    ∃ s', b.visitor visit s = (s', none) ∧ b.Bound f (visited ++ [visit.node]) s'.forest := by
  have hcontent := h.content visit.node
  unfold visitor
  match hnode : f.content? visit.node with
  | some (.element name attrs children) =>
    have hnext := bound_element htarget h hnew (hdistinct _ _ _ hnode) hnode
    rw [hnode, Option.map_some] at hcontent
    rw [hcontent]
    simp only [rewrite]
    split
    · next htag =>
      rw [if_pos htag] at hnext
      exact ⟨_, rfl, hnext⟩
    · next htag =>
      rw [if_neg htag] at hnext
      exact ⟨_, rfl, hnext⟩
  | some (.data .text content) =>
    have htext := Forest.text?_of_content? hnode
    obtain ⟨s', bound, hbind, hnext⟩ := bound_text h hnew htext (hanchored content htext)
    rw [hnode, Option.map_some] at hcontent
    rw [hcontent]
    simp only [rewrite]
    rw [hbind]
    exact ⟨s', rfl, hnext⟩
  | none | some (.bare _) | some (.data .comment _) | some (.data .directive _)
  | some (.data .cdata _) =>
    rw [hnode] at hcontent
    rw [hcontent]
    refine ⟨s, rfl, bound_other h hnew ?_ ?_⟩
    · intro name attrs children heq
      rw [hnode] at heq
      cases heq
    · unfold Forest.text?
      rw [hnode]

/-- A visit of a text that holds a binding insert and is not declared at an element. -/
theorem stopped_visitor {visited : List NodeId} (h : b.Bound f visited s.forest) {visit : Visit}
    (hnew : visit.node ∉ visited) {content : Text} (htext : f.text? visit.node = some content)
    (hfound : BindingInsert.find? b.binding content ≠ none) (hanchor : ¬ f.AnchoredAt visit.node) :
    ∃ error, b.visitor visit s = (s, some error) := by
  have hself : s.forest.content? visit.node = some (.data .text content) := by
    rw [h.content, Forest.content?_of_text? htext, decide_eq_false hnew]
    rfl
  obtain ⟨synthesis, hsynthesis⟩ : ∃ synthesis, b.synthesis? content = some synthesis :=
    Option.ne_none_iff_exists'.1 fun hnone => hfound (synthesis?_eq_none_iff.1 hnone)
  have hstop : ∃ error, b.bindText visit.node s = (s, .error error) := by
    unfold bindText
    rw [hself]
    simp only
    rw [hsynthesis, h.shape.anchor?]
    simp only
    split
    · exact ⟨_, rfl⟩
    · next anchor hat =>
      split
      · next name attrs children helement =>
        -- It was an element before, too.
        rw [h.content] at helement
        obtain ⟨before, hbefore, hrewrite⟩ := Option.map_eq_some_iff.1 helement
        obtain ⟨_, _, _, rfl⟩ := element_of_rewrite hrewrite
        exact absurd ⟨anchor, _, _, _, hat, hbefore⟩ hanchor
      · exact ⟨_, rfl⟩
      · exact ⟨_, rfl⟩
  obtain ⟨error, hstop⟩ := hstop
  refine ⟨error, ?_⟩
  unfold visitor
  rw [hself]
  simp only
  rw [hstop]

/-! ## The declarations of an element -/

/-- In a part of the document at most one node is declared at an element. -/
theorem flatMap_declaredAt_of_only {element : NodeId} {list : List NodeId} {only : Option NodeId}
    {handler : Handler} (hnodup : list.Nodup) (hnot : element ∉ list)
    (hmem : ∀ id ∈ only, id ∈ list)
    (hanchor : ∀ id ∈ only, f.anchor? id = some element ∧ Handler.ofLinks (f.links id) = handler)
    (honly : ∀ id ∈ list, f.anchor? id = some element → only = some id) :
    list.flatMap (b.declaredAt f element) = (only.bind (b.textDeclaration? f handler)).toList := by
  have hne : ∀ id ∈ list, id ≠ element := fun id hid heq => hnot (heq ▸ hid)
  rw [flatMap_eq_of_only hnodup hmem]
  · cases only with
    | none => rfl
    | some id =>
      obtain ⟨hat, rfl⟩ := hanchor id rfl
      rw [Option.toList_some, List.flatMap_singleton, Option.bind_some]
      unfold declaredAt
      rw [if_neg (hne id (hmem id rfl)), if_pos hat]
  · intro id hid hfruit
    refine honly id hid ?_
    by_contra hnotAt
    refine hfruit ?_
    unfold declaredAt
    rw [if_neg (hne id hid), if_neg hnotAt]

section

variable {t : Trail} {outline : Outline} {todo : List Outline}
  (hf : f.Follows (t.fill (outline :: todo)))
include hf

theorem links_of_fill : f.links outline.name =
    ⟨t.place.owner, (ids t.done).getLast?, (ids todo).head?⟩ :=
  hf.wellLinked.links hf.reached hf.list_eq

/-- Who is declared at an element: its first child, its next neighbour, or the text before it. -/
theorem stands_beside_anchor {id : NodeId} (hin : f.InDocument id)
    (hanchor : f.anchor? id = some outline.name) :
    (ids outline.children).head? = some id ∨ (ids todo).head? = some id ∨
      textBefore f outline.name = some id := by
  obtain ⟨place, hplace, hid⟩ := hin
  have hlocates := Handler.locates_of_links hf.wellLinked hplace hid hanchor
  rw [← hf.children_eq]
  cases hhandler : Handler.ofLinks (f.links id) with
  | value | attr _ =>
    rw [hhandler] at hlocates
    exact hlocates.elim
  | onlyText =>
    rw [hhandler] at hlocates
    exact .inl (congrArg List.head? hlocates)
  | firstText =>
    rw [hhandler] at hlocates
    obtain ⟨next, others, heq⟩ := hlocates
    exact .inl (congrArg List.head? heq)
  | nextText =>
    rw [hhandler] at hlocates
    refine .inr (.inl ?_)
    rw [Handler.Locates, links_of_fill hf] at hlocates
    exact hlocates
  | previousText =>
    rw [hhandler] at hlocates
    refine .inr (.inr ?_)
    unfold textBefore
    rw [hlocates.1, Option.filter_some, if_pos (decide_eq_true hlocates.2.1)]

/-- The first child of a node is declared at it. -/
theorem anchor_of_head_children {id : NodeId} (h : (ids outline.children).head? = some id) :
    f.anchor? id = some outline.name ∧
      Handler.ofLinks (f.links id) =
        if (f.children outline.name).length = 1 then .onlyText else .firstText := by
  obtain ⟨others, hchildren⟩ := List.head?_eq_some_iff.1 h
  have hlist : f.list t.place = ids t.done ++ outline.name :: ids todo := hf.list_eq
  have hplace : f.Reached (.childrenOf outline.name) :=
    .childrenOf hf.reached (by rw [hlist]; simp)
  have heq : f.list (.childrenOf outline.name) = [] ++ id :: others :=
    hf.children_eq.trans hchildren
  have hlinks := hf.wellLinked.links hplace heq
  rw [hf.children_eq, hchildren]
  unfold Forest.anchor? Handler.ofLinks
  rw [hlinks]
  refine ⟨rfl, ?_⟩
  cases others <;> simp [Place.owner]

/-- The next neighbour of a node is declared at it. -/
theorem anchor_of_head_todo {id : NodeId} (h : (ids todo).head? = some id) :
    f.anchor? id = some outline.name ∧ Handler.ofLinks (f.links id) = .nextText := by
  obtain ⟨others, htodo⟩ := List.head?_eq_some_iff.1 h
  have heq : f.list t.place = (ids t.done ++ [outline.name]) ++ id :: others := by
    rw [hf.list_eq, ← htodo]
    simp [ids]
  have hlinks := hf.wellLinked.links hf.reached heq
  unfold Forest.anchor? Handler.ofLinks
  rw [hlinks]
  simp

/-- The text in front of a node is declared at it. -/
theorem anchor_of_textBefore {id : NodeId} (h : textBefore f outline.name = some id) :
    f.anchor? id = some outline.name ∧ Handler.ofLinks (f.links id) = .previousText ∧
      id ∈ ids t.done := by
  unfold textBefore at h
  rw [links_of_fill hf] at h
  obtain ⟨hlast, hhead⟩ := Option.filter_eq_some_iff.1 h
  have hhead := of_decide_eq_true hhead
  obtain ⟨front, hdone⟩ := List.getLast?_eq_some_iff.1 hlast
  obtain ⟨others, hroots⟩ := List.head?_eq_some_iff.1 hhead
  have hfirst : f.list .roots = [] ++ id :: others := hroots
  have hlist : f.list t.place = front ++ id :: (outline.name :: ids todo) := by
    rw [hf.list_eq, hdone]
    simp [ids]
  have hlinks := hf.wellLinked.links .roots hfirst
  have hnext := hf.wellLinked.links hf.reached hlist
  have hafter : (f.links id).next = some outline.name := by rw [hnext]; rfl
  rw [hlinks] at hafter
  unfold Forest.anchor? Handler.ofLinks
  rw [hlinks]
  exact ⟨hafter, rfl, by rw [hdone]; simp⟩

/-! ### The parts of the document around an element -/

omit hf in
theorem names_around : namesAll (t.fill (outline :: todo)) = t.visited ++ (outline.name ::
    (namesAll outline.children ++ (namesAll todo ++ t.laterNames))) := by
  rw [t.namesAll_fill, namesAll, outline.names_eq]
  simp

/-- What comes before a node, is in it, next to it and later have no node in common. -/
structure PartsApart (id : NodeId) (before inside next later : List NodeId) : Prop where
  nodupBefore : before.Nodup
  nodupInside : inside.Nodup
  nodupNext : next.Nodup
  notBefore : id ∉ before
  notInside : id ∉ inside
  notNext : id ∉ next
  notLater : id ∉ later
  insideBefore : inside.Disjoint before
  nextBefore : next.Disjoint before
  laterBefore : later.Disjoint before
  nextInside : next.Disjoint inside
  laterInside : later.Disjoint inside
  laterNext : later.Disjoint next

theorem partsApart : PartsApart outline.name t.visited (namesAll outline.children) (namesAll todo)
    t.laterNames := by
  have hnodup := hf.nodup
  rw [names_around] at hnodup
  simp only [List.nodup_append', List.nodup_cons, List.mem_append, not_or,
    List.disjoint_append_right, List.disjoint_cons_right] at hnodup
  obtain ⟨hbefore, ⟨⟨hnotInside, hnotNext, hnotLater⟩, hinside, ⟨hnext, -, hnextLater⟩,
    hinsideNext, hinsideLater⟩, hnotBefore, hbeforeInside, hbeforeNext, hbeforeLater⟩ := hnodup
  exact ⟨hbefore, hinside, hnext, hnotBefore, hnotInside, hnotNext, hnotLater, hbeforeInside.symm,
    hbeforeNext.symm, hbeforeLater.symm, hinsideNext.symm, hinsideLater.symm, hnextLater.symm⟩

/-- Where the nodes stand that are declared at an element. -/
theorem part_of_anchor {id : NodeId} (hid : id ∈ namesAll (t.fill (outline :: todo)))
    (hanchor : f.anchor? id = some outline.name) :
    (ids outline.children).head? = some id ∧ id ∈ namesAll outline.children ∨
      (ids todo).head? = some id ∧ id ∈ namesAll todo ∨
        textBefore f outline.name = some id ∧ id ∈ t.visited := by
  rcases stands_beside_anchor hf (hf.inDocument_iff.2 hid) hanchor with h | h | h
  · exact .inl ⟨h, mem_namesAll_of_mem_ids (List.mem_of_head? h)⟩
  · exact .inr (.inl ⟨h, mem_namesAll_of_mem_ids (List.mem_of_head? h)⟩)
  · exact .inr (.inr ⟨h, t.mem_visited_of_mem_done (anchor_of_textBefore hf h).2.2⟩)

theorem declared_before : t.visited.flatMap (b.declaredAt f outline.name) =
    ((textBefore f outline.name).bind (b.textDeclaration? f .previousText)).toList := by
  have hapart := partsApart hf
  refine flatMap_declaredAt_of_only hapart.nodupBefore hapart.notBefore ?_ ?_ ?_
  · exact fun x hx => t.mem_visited_of_mem_done (anchor_of_textBefore hf hx).2.2
  · exact fun x hx => ⟨(anchor_of_textBefore hf hx).1, (anchor_of_textBefore hf hx).2.1⟩
  · intro x hx hanchor
    have hid : x ∈ namesAll (t.fill (outline :: todo)) := by simp [names_around, hx]
    rcases part_of_anchor hf hid hanchor with ⟨_, h⟩ | ⟨_, h⟩ | ⟨h, _⟩
    · exact absurd hx (hapart.insideBefore h)
    · exact absurd hx (hapart.nextBefore h)
    · exact h

theorem declared_inside : (namesAll outline.children).flatMap (b.declaredAt f outline.name) =
    ((f.children outline.name).head?.bind (b.textDeclaration? f
      (if (f.children outline.name).length = 1 then .onlyText else .firstText))).toList := by
  have hapart := partsApart hf
  refine flatMap_declaredAt_of_only hapart.nodupInside hapart.notInside ?_ ?_ ?_
  · intro x hx
    rw [hf.children_eq] at hx
    exact mem_namesAll_of_mem_ids (List.mem_of_head? hx)
  · intro x hx
    refine anchor_of_head_children hf ?_
    rw [← hf.children_eq]
    exact hx
  · intro x hx hanchor
    have hid : x ∈ namesAll (t.fill (outline :: todo)) := by simp [names_around, hx]
    rcases part_of_anchor hf hid hanchor with ⟨h, _⟩ | ⟨_, h⟩ | ⟨_, h⟩
    · exact (congrArg List.head? hf.children_eq).trans h
    · exact absurd hx (hapart.nextInside h)
    · exact absurd h (hapart.insideBefore hx)

theorem declared_next : (namesAll todo).flatMap (b.declaredAt f outline.name) =
    ((f.links outline.name).next.bind (b.textDeclaration? f .nextText)).toList := by
  have hapart := partsApart hf
  rw [links_of_fill hf]
  refine flatMap_declaredAt_of_only hapart.nodupNext hapart.notNext ?_ ?_ ?_
  · exact fun x hx => mem_namesAll_of_mem_ids (List.mem_of_head? hx)
  · exact fun x hx => anchor_of_head_todo hf hx
  · intro x hx hanchor
    have hid : x ∈ namesAll (t.fill (outline :: todo)) := by simp [names_around, hx]
    rcases part_of_anchor hf hid hanchor with ⟨_, h⟩ | ⟨h, _⟩ | ⟨_, h⟩
    · exact absurd h (hapart.nextInside hx)
    · exact h
    · exact absurd h (hapart.nextBefore hx)

/-- What stands further on is declared elsewhere. -/
theorem declared_later : t.laterNames.flatMap (b.declaredAt f outline.name) = [] := by
  have hapart := partsApart hf
  refine List.flatMap_eq_nil_iff.2 fun x hx => ?_
  have hid : x ∈ namesAll (t.fill (outline :: todo)) := by simp [names_around, hx]
  have hne : x ≠ outline.name := fun heq => hapart.notLater (heq ▸ hx)
  have hnot : f.anchor? x ≠ some outline.name := by
    intro hanchor
    rcases part_of_anchor hf hid hanchor with ⟨_, h⟩ | ⟨_, h⟩ | ⟨_, h⟩
    · exact hapart.laterInside hx h
    · exact hapart.laterNext hx h
    · exact hapart.laterBefore hx h
  unfold declaredAt
  rw [if_neg hne, if_neg hnot]

end

/-- What the walk declares at an element. -/
theorem flatMap_declaredAt {outlines : List Outline} (hf : f.Follows outlines) {id : NodeId}
    (hid : id ∈ namesAll outlines) :
    (namesAll outlines).flatMap (b.declaredAt f id) = b.declarations f id := by
  obtain ⟨t, outline, todo, rfl, rfl⟩ := exists_trail hid
  rw [names_around, List.flatMap_append, List.flatMap_cons, List.flatMap_append, List.flatMap_append,
    declared_before hf, declared_inside hf, declared_next hf, declared_later hf, List.append_nil,
    declaredAt, if_pos rfl, declarations]

/-! ## The whole document -/

/-- A text of a document is declared in the document. -/
theorem inDocument_anchor (hlinked : f.WellLinked) {id anchor : NodeId} (hin : f.InDocument id)
    (hanchor : f.anchor? id = some anchor) : f.InDocument anchor := by
  obtain ⟨place, hplace, hid⟩ := hin
  obtain ⟨before, after, hlist⟩ := List.append_of_mem hid
  unfold Forest.anchor? at hanchor
  rw [hlinked.links hplace hlist] at hanchor
  cases hlast : before.getLast? with
  | some last =>
    rw [hlast] at hanchor
    cases hanchor
    exact ⟨place, hplace, by rw [hlist]; exact List.mem_append_left _ (List.mem_of_getLast? hlast)⟩
  | none =>
    rw [hlast] at hanchor
    cases hplace with
    | roots =>
      have hafter : anchor ∈ after := List.mem_of_head? hanchor
      exact ⟨.roots, .roots, by rw [hlist]; simp [hafter]⟩
    | @childrenOf outer owner houter howner =>
      cases hanchor
      exact ⟨outer, houter, howner⟩

theorem rewrite_nil (content : Content) : b.rewrite false [] content = content := by
  match content with
  | .element .. => simp [rewrite, withDeclarations_nil]
  | .data .text _ | .data .comment _ | .data .directive _ | .data .cdata _ | .bare _ => rfl

/-- The binding attribute is skipped. -/
theorem target_mem_skipped {options : Options} (h : ofOptions options = .ok b) :
    b.target ∈ b.skipped := by
  unfold ofOptions Options.skippedNames at h
  cases hentries : options.checkedEntries with
  | error error =>
    rw [hentries] at h
    cases h
  | ok entries =>
    rw [hentries] at h
    cases h
    exact List.mem_cons_self

/-- The binder visits the nodes of the document one after another, and either comes to the end of it
or gives up at a text that holds a binding insert and is not declared at an element. -/
theorem bound_along (htarget : b.target ∈ b.skipped) {outlines : List Outline}
    (hfollows : s.forest.Follows outlines)
    (hdistinct : ∀ id, s.forest.InDocument id → ∀ name attrs children,
      s.forest.content? id = some (.element name attrs children) → attrs.names.Nodup) :
    (∃ s', b.Bound s.forest (namesAll outlines) s'.forest ∧ b.bind s = (s', .finished)) ∨
      ∃ s' error, (∃ visited id content, b.Bound s.forest visited s'.forest ∧
        (∀ other ∈ visited, other ∈ namesAll outlines) ∧ id ∈ namesAll outlines ∧
        s.forest.text? id = some content ∧ BindingInsert.find? b.binding content ≠ none ∧
        ¬ s.forest.AnchoredAt id) ∧ b.bind s = (s', .stopped error) := by
  have hstart : b.Bound s.forest [] s.forest := by
    refine ⟨.refl _, fun id => ?_⟩
    rw [decide_eq_false List.not_mem_nil, List.flatMap_nil]
    cases s.forest.content? id with
    | none => rfl
    | some content => rw [Option.map_some, rewrite_nil]
  refine @bind_along b s outlines (fun visited s' => b.Bound s.forest visited s'.forest) _
    (fun h => hfollows.shape h.shape) ?_ hstart
  rintro s' t outline todo rfl hs
  have hin := t.name_mem outline todo
  have hnew : outline.name ∉ t.visited := by
    have hnodup := hfollows.nodup
    rw [t.namesAll_fill, namesAll, outline.names_eq] at hnodup
    exact fun hvisited => (List.nodup_append.1 hnodup).2.2 _ hvisited _ List.mem_cons_self rfl
  by_cases hanchored : ∀ content, s.forest.text? outline.name = some content →
      BindingInsert.find? b.binding content ≠ none → s.forest.AnchoredAt outline.name
  · exact .inl (@bound_visitor b s.forest s' htarget _ hs (Focus.visit t outline) hnew
      (hdistinct _ (hfollows.inDocument_iff.2 hin)) hanchored)
  · simp only [not_forall, exists_prop] at hanchored
    obtain ⟨content, htext, hfound, hanchored⟩ := hanchored
    obtain ⟨error, hstop⟩ :=
      @stopped_visitor b s.forest s' _ hs (Focus.visit t outline) hnew content htext hfound hanchored
    refine .inr ⟨s', error, hstop, t.visited, outline.name, content, hs, ?_, hin, htext, hfound,
      hanchored⟩
    intro other hother
    rw [t.namesAll_fill]
    exact List.mem_append_left _ hother

/-- The binder comes to the end of the document, and has visited all of its nodes then. -/
theorem exists_bound (htarget : b.target ∈ b.skipped) {outlines : List Outline}
    (hfollows : s.forest.Follows outlines) (hbindable : b.Bindable s.forest) :
    ∃ s', b.bind s = (s', .finished) ∧ b.Bound s.forest (namesAll outlines) s'.forest := by
  rcases bound_along htarget hfollows hbindable.distinct with ⟨s', hbound, hbind⟩ |
    ⟨_, _, ⟨_, id, content, _, _, hid, htext, hfound, hnot⟩, _⟩
  · exact ⟨s', hbind, hbound⟩
  · exact absurd (hbindable.anchored id (hfollows.inDocument_iff.2 hid) content htext hfound) hnot

/-- **The effect of the binder.** The binder comes to the end of a well-linked forest whose texts
with binding inserts are declared at elements. The lists and links stay as they were; every node of
the document has become what `boundContent` says, and everything else stays. -/
theorem bind_effect {options : Options} (hoptions : ofOptions options = .ok b)
    (hlinked : s.forest.WellLinked) (hbindable : b.Bindable s.forest) :
    ∃ s', b.bind s = (s', .finished) ∧ s'.forest.roots = s.forest.roots ∧
      (∀ id, s'.forest.links id = s.forest.links id) ∧
      (∀ id, s.forest.InDocument id → s'.forest.content? id = b.boundContent s.forest id) ∧
      ∀ id, ¬ s.forest.InDocument id → s'.forest.content? id = s.forest.content? id := by
  obtain ⟨outlines, hfollows⟩ := Forest.wellLinked_iff.1 hlinked
  obtain ⟨s', hbind, hbound⟩ := exists_bound (target_mem_skipped hoptions) hfollows hbindable
  refine ⟨s', hbind, hbound.shape.roots, hbound.shape.links, ?_, ?_⟩
  · intro id hin
    have hid := hfollows.inDocument_iff.1 hin
    rw [hbound.content, decide_eq_true hid, flatMap_declaredAt hfollows hid, boundContent]
  · intro id hout
    have hid : id ∉ namesAll outlines := fun hid => hout (hfollows.inDocument_iff.2 hid)
    have hnone : (namesAll outlines).flatMap (b.declaredAt s.forest id) = [] := by
      refine List.flatMap_eq_nil_iff.2 fun other hother => ?_
      have hin := hfollows.inDocument_iff.2 hother
      unfold declaredAt
      rw [if_neg fun heq : other = id => hid (heq ▸ hother),
        if_neg fun hanchor => hout (inDocument_anchor hlinked hin hanchor)]
    rw [hbound.content, decide_eq_false hid, hnone]
    cases s.forest.content? id with
    | none => rfl
    | some content => rw [Option.map_some, rewrite_nil]

/-- The declarations of two texts come in the order of the texts. -/
theorem bind_effect_sampleTexts :
    ofOptions {} = .ok plain ∧ sampleTexts.forest.WellLinked ∧ plain.Bindable sampleTexts.forest ∧
      ∃ s', plain.bind sampleTexts = (s', .finished) ∧
        s'.forest.content? 0 = some (.data .text "\x7b\x7ba\x7d\x7d".toList) ∧
        s'.forest.content? 1 = some (.element "p".toList
          [("data-bind".toList, "text(prev):this.a,text:this.b".toList)] [2]) ∧
        s'.forest.content? 2 = some (.data .text "\x7b\x7bb\x7d\x7d".toList) := by
  have hoptions : ofOptions {} = .ok plain := rfl
  have hlinked : sampleTexts.forest.WellLinked := (Forest.follows_ofTrees _).wellLinked
  have hbindable : plain.Bindable sampleTexts.forest := by
    constructor
    · intro id _ name attrs children hcontent
      match id with
      | 1 =>
        cases hcontent
        exact List.nodup_nil
      | 0 | 2 | _ + 3 => cases hcontent
    · intro id _ content htext _
      match id with
      | 0 => exact ⟨1, _, _, _, rfl, rfl⟩
      | 2 => exact ⟨1, _, _, _, rfl, rfl⟩
      | 1 | _ + 3 => cases htext
  have hfirst : sampleTexts.forest.InDocument 0 := ⟨.roots, .roots, by decide⟩
  have hparagraph : sampleTexts.forest.InDocument 1 := ⟨.roots, .roots, by decide⟩
  have hsecond : sampleTexts.forest.InDocument 2 :=
    ⟨.childrenOf 1, .childrenOf .roots (by decide), by decide⟩
  obtain ⟨s', hbind, _, _, hin, _⟩ := bind_effect hoptions hlinked hbindable
  refine ⟨hoptions, hlinked, hbindable, s', hbind, (hin 0 hfirst).trans ?_,
    (hin 1 hparagraph).trans ?_, (hin 2 hsecond).trans ?_⟩
  all_goals decide +kernel

end Binder
end MarkupBinding
