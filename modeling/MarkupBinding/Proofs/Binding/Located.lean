import MarkupBinding.Proofs.Binding.Anchored
import MarkupBinding.Proofs.Forest.Unfolding

/-!
# Finding a bound text again

A text is declared at its anchor with a word that says where the text is found from there. The
anchor is chosen by one rule and the word by another; both follow the links of the text, which the
binder never changes, so what the word says is true of the forest in the end.

* `Calls.spec`: where a walk comes that leaves the shape of a forest alone.
* `locates_of_links`: the word fits the anchor.
* `binds_locates`: every text that is bound is found from its anchor, and no other text is.
-/

namespace MarkupBinding

namespace Forest

variable {ε σ : Type} {visitor : Visitor ε σ} {f g : Forest}

/-- A walk from the positions on the stack calls its visitor at a visit, in the state that it has
reached by then. -/
inductive Calls (visitor : Visitor ε σ) : List Cursor → Editing σ → Visit → Editing σ → Prop
  | here {cursor : Cursor} {stack : List Cursor} {s : Editing σ} {node : NodeId}
      (at_node : (s.forest.list cursor.place)[cursor.index]? = some node) :
      Calls visitor (cursor :: stack) s ⟨node, cursor.place, cursor.index⟩ s
  | leave {cursor : Cursor} {stack : List Cursor} {s s' : Editing σ} {visit : Visit}
      (at_end : (s.forest.list cursor.place)[cursor.index]? = none)
      (later : Calls visitor stack s visit s') : Calls visitor (cursor :: stack) s visit s'
  | goOn {cursor : Cursor} {stack : List Cursor} {s s' : Editing σ} {node : NodeId} {visit : Visit}
      (at_node : (s.forest.list cursor.place)[cursor.index]? = some node)
      (goes_on : (visitor ⟨node, cursor.place, cursor.index⟩ s).2 = none)
      (later :
        let next := (visitor ⟨node, cursor.place, cursor.index⟩ s).1
        Calls visitor (next.forest.onward ⟨node, cursor.place, cursor.index⟩ stack) next visit s') :
      Calls visitor (cursor :: stack) s visit s'

/-! ## Walks that leave the shape alone -/

theorem SameShape.list (h : SameShape f g) (place : Place) : g.list place = f.list place := by
  cases place with
  | roots => exact h.roots
  | childrenOf id => exact h.children id

theorem SameShape.anchor? (h : SameShape f g) (id : NodeId) : g.anchor? id = f.anchor? id := by
  unfold Forest.anchor?
  rw [h.links]

theorem SameShape.reached_iff (h : SameShape f g) {place : Place} :
    g.Reached place ↔ f.Reached place := by
  constructor
  all_goals
    intro hplace
    induction hplace with
    | roots => exact .roots
    | childrenOf _ hid ih => exact .childrenOf ih (by simpa only [h.list] using hid)

theorem SameShape.inDocument_iff (h : SameShape f g) {id : NodeId} :
    g.InDocument id ↔ f.InDocument id := by
  unfold InDocument
  simp only [h.reached_iff, h.list]

/-- The positions that a walk comes back to belong to places that can be reached. -/
theorem reached_onward {visit : Visit} {stack : List Cursor} (hplace : f.Reached visit.place)
    (hstack : ∀ cursor ∈ stack, f.Reached cursor.place) :
    ∀ cursor ∈ f.onward visit stack, f.Reached cursor.place := by
  intro cursor hcursor
  unfold onward at hcursor
  split at hcursor
  · next hnode =>
    have hrest : ∀ cursor ∈ Cursor.mk visit.place (visit.index + 1) :: stack,
        f.Reached cursor.place := by
      intro cursor hcursor
      rcases List.mem_cons.1 hcursor with rfl | hcursor
      · exact hplace
      · exact hstack cursor hcursor
    simp only at hcursor
    split at hcursor
    · exact hrest cursor hcursor
    · rcases List.mem_cons.1 hcursor with rfl | hcursor
      · exact .childrenOf hplace (List.mem_of_getElem? hnode)
      · exact hrest cursor hcursor
  · rcases List.mem_cons.1 hcursor with rfl | hcursor
    · exact hplace
    · exact hstack cursor hcursor

section

variable (hshape : ∀ visit s, SameShape s.forest (visitor visit s).1.forest)
include hshape

/-- The visitor is called at nodes of the forest that the walk began with, each where it stands. -/
theorem Calls.spec {stack : List Cursor} {s s' : Editing σ} {visit : Visit}
    (h : Calls visitor stack s visit s') (hstack : ∀ cursor ∈ stack, s.forest.Reached cursor.place) :
    SameShape s.forest s'.forest ∧ s.forest.Reached visit.place ∧
      (s.forest.list visit.place)[visit.index]? = some visit.node := by
  induction h with
  | here at_node => exact ⟨.refl _, hstack _ List.mem_cons_self, at_node⟩
  | leave _ _ ih => exact ih fun cursor hcursor => hstack cursor (List.mem_cons_of_mem _ hcursor)
  | @goOn cursor stack s s' node visit at_node _ later ih =>
    have hnext := hshape ⟨node, cursor.place, cursor.index⟩ s
    have hreached : ∀ other ∈ cursor :: stack,
        (visitor ⟨node, cursor.place, cursor.index⟩ s).1.forest.Reached other.place :=
      fun other hother => hnext.reached_iff.2 (hstack other hother)
    obtain ⟨hlater, hplace, hnode⟩ := ih (@reached_onward _ ⟨node, cursor.place, cursor.index⟩ _
      (hreached _ List.mem_cons_self)
      fun other hother => hreached other (List.mem_cons_of_mem _ hother))
    rw [hnext.list] at hnode
    exact ⟨hnext.trans hlater, hnext.reached_iff.1 hplace, hnode⟩

/-- A walk leaves the shape of a forest alone if its visitor does. -/
theorem sameShape_walkFrom (n : Nat) (stack : List Cursor) (s : Editing σ) :
    SameShape s.forest (walkFrom visitor n stack s).1.forest := by
  refine walkFrom_keeps (P := fun s' => SameShape s.forest s'.forest) ?_ n stack (.refl _)
  exact fun visit s' h => h.trans (hshape visit s')

end

end Forest

/-! ## What a handler says -/

namespace Handler

/-- Where a handler leads from the element that holds a declaration. The declaration of an attribute
leads to no other node. -/
def Locates (f : Forest) (anchor : NodeId) : Handler → NodeId → Prop
  | .value, _ | .attr _, _ => False
  | .onlyText, id => f.children anchor = [id]
  | .firstText, id => ∃ next others, f.children anchor = id :: next :: others
  | .nextText, id => (f.links anchor).next = some id
  | .previousText, id =>
    (f.links anchor).previous = some id ∧ f.roots.head? = some id ∧ anchor ∈ f.roots

/-- The side of its anchor on which a text stands. -/
inductive Side where
  /-- In front of all other children. -/
  | within
  | behind
  | before
deriving DecidableEq, Repr

/-- The side on which a handler looks. -/
def side? : Handler → Option Side
  | .value | .attr _ => none
  | .onlyText | .firstText => some .within
  | .nextText => some .behind
  | .previousText => some .before

variable {f : Forest} {anchor id id' : NodeId} {handler handler' : Handler}

/-- The node on a side of an anchor. -/
def Side.look (f : Forest) (anchor : NodeId) : Side → Option NodeId
  | .within => (f.children anchor).head?
  | .behind => (f.links anchor).next
  | .before => (f.links anchor).previous

/-- What a handler leads to is what stands on its side. -/
theorem Locates.look (h : handler.Locates f anchor id) :
    ∃ side, handler.side? = some side ∧ side.look f anchor = some id := by
  cases handler with
  | value | attr _ => exact h.elim
  | onlyText => exact ⟨.within, rfl, congrArg List.head? h⟩
  | firstText =>
    obtain ⟨next, others, h⟩ := h
    exact ⟨.within, rfl, congrArg List.head? h⟩
  | nextText => exact ⟨.behind, rfl, h⟩
  | previousText => exact ⟨.before, rfl, h.1⟩

/-- Two texts on one side of an anchor are the same. -/
theorem Locates.unique (h : handler.Locates f anchor id) (h' : handler'.Locates f anchor id')
    (hside : handler.side? = handler'.side?) : id = id' := by
  obtain ⟨side, hhas, hlook⟩ := h.look
  obtain ⟨side', hhas', hlook'⟩ := h'.look
  obtain rfl : side = side' := Option.some.inj (hhas.symm.trans (hside.trans hhas'))
  exact Option.some.inj (hlook.symm.trans hlook')

theorem Locates.shape {g : Forest} (h : handler.Locates f anchor id)
    (hshape : Forest.SameShape f g) : handler.Locates g anchor id := by
  cases handler with
  | value | attr _ => exact h.elim
  | _ => simpa only [Locates, hshape.children, hshape.links, hshape.roots] using h

/-- The handler that is chosen by the links of a node leads back to it from the node's anchor. -/
theorem locates_of_links (hlinked : f.WellLinked) {place : Place} (hplace : f.Reached place)
    (hid : id ∈ f.list place) (hanchor : f.anchor? id = some anchor) :
    (Handler.ofLinks (f.links id)).Locates f anchor id := by
  obtain ⟨before, after, hlist⟩ := List.append_of_mem hid
  have hlinks := hlinked.links hplace hlist
  unfold Forest.anchor? at hanchor
  rw [hlinks] at hanchor ⊢
  unfold ofLinks
  cases hlast : before.getLast? with
  | some last =>
    obtain ⟨front, rfl⟩ := List.getLast?_eq_some_iff.1 hlast
    rw [hlast] at hanchor
    obtain rfl : last = anchor := Option.some.inj hanchor
    have hsplit : f.list place = front ++ last :: (id :: after) := by
      rw [hlist, List.append_assoc]
      rfl
    have hbehind := hlinked.links hplace hsplit
    show (f.links last).next = some id
    rw [hbehind]
    rfl
  | none =>
    obtain rfl : before = [] := List.getLast?_eq_none_iff.1 hlast
    cases place with
    | childrenOf owner =>
      obtain rfl : owner = anchor := Option.some.inj hanchor
      cases after with
      | nil => exact hlist
      | cons next others => exact ⟨next, others, hlist⟩
    | roots =>
      cases after with
      | nil => cases hanchor
      | cons next others =>
        obtain rfl : next = anchor := Option.some.inj hanchor
        have hroots : f.roots = id :: next :: others := hlist
        have hsplit : f.list .roots = [id] ++ next :: others := hlist
        have hbehind := hlinked.links .roots hsplit
        refine ⟨?_, by rw [hroots]; rfl, by rw [hroots]; simp⟩
        rw [hbehind]
        rfl

end Handler

namespace Binder

variable {b : Binder} {s : Editing Log}

theorem sameShape_bindText (id : NodeId) (s : Editing Log) :
    Forest.SameShape s.forest (b.bindText id s).1.forest := by
  unfold bindText
  split
  · split
    · exact .refl _
    · simp only
      split
      · exact .refl _
      · split
        · exact (declares_declare _ _ s).shape.trans (.setData ..)
        · exact .refl _
        · exact .refl _
  · exact .refl _

/-- Visits change data and attributes only. -/
theorem sameShape_visitor (visit : Visit) (s : Editing Log) :
    Forest.SameShape s.forest (b.visitor visit s).1.forest := by
  have htext := sameShape_bindText (b := b) visit.node s
  unfold visitor
  split
  · split
    · exact (declares_bindAttributes visit.node s).shape
    · exact .refl _
  · split
    · next heq =>
      rw [heq] at htext
      exact htext
    · next heq =>
      rw [heq] at htext
      exact htext
  · exact .refl _

/-- A text is bound at an anchor with a handler: the walk of the binder comes to it, and binding it
there writes the declaration with the handler at the anchor, and the text anew. -/
def Binds (b : Binder) (s : Editing Log) (id anchor : NodeId) (handler : Handler) : Prop :=
  ∃ visit s' content synthesis, Forest.Calls b.visitor [⟨.roots, 0⟩] s visit s' ∧ visit.node = id ∧
    s'.forest.text? id = some content ∧ b.synthesis? content = some synthesis ∧
    s'.forest.anchor? id = some anchor ∧ Handler.ofLinks (s'.forest.links id) = handler ∧
    let declared := b.declare anchor (handler.declaration synthesis.expression) s'
    b.bindText id s' =
      ({ declared with forest := declared.forest.setData id synthesis.content }, .ok true)

/-- A text is bound in one way only: at the anchor and with the handler that its links tell. -/
theorem bindText_of_ok {id : NodeId} {content : Text} (htext : s.forest.text? id = some content)
    (h : (b.bindText id s).2 = .ok true) :
    ∃ anchor synthesis, b.synthesis? content = some synthesis ∧ s.forest.anchor? id = some anchor ∧
      let declared := b.declare anchor
        ((Handler.ofLinks (s.forest.links id)).declaration synthesis.expression) s
      b.bindText id s =
        ({ declared with forest := declared.forest.setData id synthesis.content }, .ok true) := by
  have hcontent := Forest.content?_of_text? htext
  unfold bindText at h ⊢
  rw [hcontent] at h ⊢
  simp only at h ⊢
  cases hsynthesis : b.synthesis? content with
  | none =>
    rw [hsynthesis] at h
    cases h
  | some synthesis =>
    rw [hsynthesis] at h
    cases hanchor : s.forest.anchor? id with
    | none =>
      rw [hanchor] at h
      cases h
    | some anchor =>
      rw [hanchor] at h
      refine ⟨anchor, synthesis, rfl, rfl, ?_⟩
      simp only at h ⊢
      split at h
      · rfl
      · cases h
      · cases h

/-- What the walk binds is bound at its anchor. -/
theorem binds_of_ok {visit : Visit} {s' : Editing Log} {anchor : NodeId} {handler : Handler}
    (hcall : Forest.Calls b.visitor [⟨.roots, 0⟩] s visit s')
    (htext : (s'.forest.text? visit.node).isSome = true)
    (h : (b.bindText visit.node s').2 = .ok true)
    (hanchor : s'.forest.anchor? visit.node = some anchor)
    (hhandler : Handler.ofLinks (s'.forest.links visit.node) = handler) :
    b.Binds s visit.node anchor handler := by
  subst hhandler
  obtain ⟨content, htext⟩ := Option.isSome_iff_exists.1 htext
  obtain ⟨other, synthesis, hsynthesis, hother, hwritten⟩ := bindText_of_ok htext h
  obtain rfl := Option.some.inj (hanchor.symm.trans hother)
  exact ⟨visit, s', content, synthesis, hcall, rfl, htext, hsynthesis, hanchor, rfl, hwritten⟩

/-- **Handlers locate their text.** Each text that the walk binds is bound at some anchor with some
handler. In the end it is found again from its anchor as its handler says, and no other text that was
bound is found on the same side of that anchor. The walk is never cut off. -/
theorem binds_locates (b : Binder) (s : Editing Log) (hlinked : s.forest.WellLinked) :
    (b.bind s).2 ≠ .exhausted ∧
      (∀ visit s', Forest.Calls b.visitor [⟨.roots, 0⟩] s visit s' →
        (s'.forest.text? visit.node).isSome = true → (b.bindText visit.node s').2 = .ok true →
          ∃ anchor handler, b.Binds s visit.node anchor handler) ∧
      (∀ id anchor handler, b.Binds s id anchor handler →
        handler.Locates (b.bind s).1.forest anchor id) ∧
      ∀ id id' anchor handler handler', b.Binds s id anchor handler →
        b.Binds s id' anchor handler' → handler.side? = handler'.side? → id = id' := by
  have hend : Forest.SameShape s.forest (b.bind s).1.forest :=
    Forest.sameShape_walkFrom sameShape_visitor _ _ s
  have hlocates : ∀ id anchor handler, b.Binds s id anchor handler →
      handler.Locates (b.bind s).1.forest anchor id := by
    rintro id anchor handler ⟨visit, s', _, _, hcall, rfl, _, _, hanchor, rfl, _⟩
    obtain ⟨hshape, hplace, hnode⟩ := hcall.spec sameShape_visitor fun cursor hcursor => by
      obtain rfl := List.mem_singleton.1 hcursor
      exact .roots
    rw [hshape.anchor?] at hanchor
    rw [hshape.links]
    exact (Handler.locates_of_links hlinked hplace (List.mem_of_getElem? hnode) hanchor).shape hend
  refine ⟨?_, ?_, hlocates, ?_⟩
  · obtain ⟨outlines, hfollows⟩ := Forest.wellLinked_iff.1 hlinked
    have hended := @bind_along b s outlines (fun _ s => s.forest.Follows outlines) (fun _ => True)
      (fun h => h) ?_ hfollows
    · rcases hended with ⟨s', _, hbind⟩ | ⟨s', error, _, hbind⟩
      all_goals
        rw [hbind]
        exact (nomatch ·)
    · intro s t outline todo _ hs
      have hvisit := sameShape_visitor (b := b) (Focus.visit t outline) s
      generalize b.visitor (Focus.visit t outline) s = visited at hvisit ⊢
      obtain ⟨s', _ | error⟩ := visited
      · exact .inl ⟨s', rfl, hs.shape hvisit⟩
      · exact .inr ⟨s', error, rfl, trivial⟩
  · intro visit s' hcall htext hbound
    obtain ⟨content, hcontent⟩ := Option.isSome_iff_exists.1 htext
    obtain ⟨anchor, synthesis, hsynthesis, hanchor, hwritten⟩ := bindText_of_ok hcontent hbound
    exact ⟨anchor, _, visit, s', content, synthesis, hcall, rfl, hcontent, hsynthesis, hanchor, rfl,
      hwritten⟩
  · intro id id' anchor handler handler' h h' hside
    exact (hlocates _ _ _ h).unique (hlocates _ _ _ h') hside

/-- A text in front of a paragraph and one inside it. -/
def sampleTexts : Editing Log where
  forest := Forest.ofTrees [.data .text "\x7ba\x7d".toList,
    .element "p".toList [] [.data .text "\x7bb\x7d".toList]]
  notes := []

/-- The binder for the default options. -/
def plain : Binder where
  target := "data-bind".toList
  skipped := ["data-bind".toList]
  template := ⟨"\x7b\x7b".toList, "\x7d\x7d".toList⟩
  binding := ⟨"\x7b".toList, "\x7d".toList⟩
  root := "this".toList

/-- Both texts are bound at the paragraph, which leads to each of them. -/
theorem binds_locates_sampleTexts :
    (plain.bind sampleTexts).2 ≠ .exhausted ∧
      (plain.Binds sampleTexts 0 1 .previousText ∧
        Handler.previousText.Locates (plain.bind sampleTexts).1.forest 1 0) ∧
      plain.Binds sampleTexts 2 1 .onlyText ∧
        Handler.onlyText.Locates (plain.bind sampleTexts).1.forest 1 2 := by
  obtain ⟨hend, _, hlocates, _⟩ :=
    binds_locates plain sampleTexts (Forest.follows_ofTrees _).wellLinked
  have hfirst : plain.Binds sampleTexts 0 1 .previousText :=
    @binds_of_ok plain sampleTexts ⟨0, .roots, 0⟩ sampleTexts 1 _ (.here rfl) (by decide +kernel)
      (by decide +kernel) (by decide +kernel) (by decide +kernel)
  let s₁ := (plain.visitor ⟨0, .roots, 0⟩ sampleTexts).1
  let s₂ := (plain.visitor ⟨1, .roots, 1⟩ s₁).1
  have hstack₁ : s₁.forest.onward ⟨0, .roots, 0⟩ [] = [⟨.roots, 1⟩] := by decide +kernel
  have hstack₂ : s₂.forest.onward ⟨1, .roots, 1⟩ [] = [⟨.childrenOf 1, 0⟩, ⟨.roots, 2⟩] := by
    decide +kernel
  have hcall : Forest.Calls plain.visitor [⟨.roots, 0⟩] sampleTexts ⟨2, .childrenOf 1, 0⟩ s₂ := by
    have hnode₀ : (sampleTexts.forest.list .roots)[0]? = some 0 := rfl
    have hnode₁ : (s₁.forest.list .roots)[1]? = some 1 := by decide +kernel
    refine .goOn hnode₀ (by decide +kernel) ?_
    show Forest.Calls _ (s₁.forest.onward ⟨0, .roots, 0⟩ []) s₁ _ s₂
    rw [hstack₁]
    refine .goOn hnode₁ (by decide +kernel) ?_
    show Forest.Calls _ (s₂.forest.onward ⟨1, .roots, 1⟩ []) s₂ _ s₂
    rw [hstack₂]
    exact .here (by decide +kernel)
  have hsecond : plain.Binds sampleTexts 2 1 .onlyText :=
    @binds_of_ok plain sampleTexts ⟨2, .childrenOf 1, 0⟩ s₂ 1 _ hcall (by decide +kernel)
      (by decide +kernel) (by decide +kernel) (by decide +kernel)
  exact ⟨hend, ⟨hfirst, hlocates 0 1 _ hfirst⟩, hsecond, hlocates 2 1 _ hsecond⟩

end Binder
end MarkupBinding
