import MarkupBinding.Proofs.Forest.Neighbours
import MarkupBinding.Proofs.Forest.Reading
import MarkupBinding.Proofs.Forest.Walk
import MarkupBinding.Proofs.Insert.Search
import MarkupBinding.Proofs.Tree.Backed

/-!
# Binding a forest whose texts are anchored

The binder gives up only at a text that it cannot declare. Where every text with a binding insert
would be declared at an element it comes to the end of the document: it changes data and attributes
only, so the texts stay anchored.

* `Anchored`: what the binder needs of a forest.
* `visitor_anchored`: a visit keeps it.
* `bind_along`, `bind_to_end`: the binder along a document that stays as it is.
* `bind_anchored`: the binder comes to the end.
* `bind_alone`: it gives up at a text that is the whole document.
-/

namespace MarkupBinding

open Outline

/-- Every text with a binding insert would be declared at an element. -/
structure Forest.Anchored (binding : Delimiters) (outlines : List Outline) (f : Forest) : Prop where
  follows : f.Follows outlines
  bareless : f.Bareless
  anchor : ∀ id ∈ namesAll outlines, ∀ content, f.text? id = some content →
    BindingInsert.find? binding content ≠ none →
      ∃ anchor, f.anchor? id = some anchor ∧ f.HasPlace (.childrenOf anchor)

/-- Texts are anchored if each comes first in an element or stands behind one. -/
theorem Forest.anchored_of_backed {binding : Delimiters} {outlines : List Outline} {f : Forest}
    (hfollows : f.Follows outlines) (hbare : f.Bareless)
    (hbacked : Tree.Chained Tree.Backs (f.treesOf outlines))
    (hhead : ∀ tree ∈ (f.treesOf outlines).head?, tree.isText = false) :
    f.Anchored binding outlines := by
  have hstep : ∀ before after : Outline, Tree.Backs (f.treeOf before) (f.treeOf after) →
      (f.text? after.name).isSome = true → f.HasPlace (.childrenOf before.name) :=
    fun _ _ hbacks htext => hasPlace_of_isElement (hbacks (isText_treeOf htext))
  refine ⟨hfollows, hbare, ?_⟩
  intro id hid content htext _
  have hsome : (f.text? id).isSome = true := Option.isSome_iff_exists.2 ⟨content, htext⟩
  obtain ⟨row, hrow, hmem⟩ := exists_documentRow_of_mem hid
  have hstands := hfollows.stands row hrow
  have hchain : row.ids.IsChain fun before after =>
      (f.text? after).isSome = true → f.HasPlace (.childrenOf before) := by
    rcases List.mem_cons.1 hrow with rfl | hrow
    · exact @isChain_ids f Tree.Backs _ hstep _ hbacked.1
    · exact @isChain_rowsAll f Tree.Backs _ hstep _ (fun _ => hfollows.of_mem_rowsAll) hbacked.2 row
        hrow
  obtain ⟨before, after, hsplit⟩ := List.append_of_mem hmem
  rw [hstands.anchor?_eq hsplit]
  cases hlast : before.getLast? with
  | some last =>
    rw [hsplit] at hchain
    exact ⟨last, rfl, (List.isChain_append.1 hchain).2.2 last hlast id rfl hsome⟩
  | none =>
    have hbefore : before = [] := List.getLast?_eq_none_iff.1 hlast
    rw [hbefore, List.nil_append] at hsplit
    rcases List.mem_cons.1 hrow with rfl | hrow
    · -- The first root is no text.
      cases outlines with
      | nil => cases hsplit
      | cons outline outlines =>
        obtain ⟨rfl, _⟩ := List.cons.inj hsplit
        have hfalse := hhead (f.treeOf outline) rfl
        rw [isText_treeOf hsome] at hfalse
        cases hfalse
    · obtain ⟨owner, _, hplace⟩ := exists_owner_of_mem_rowsAll hrow
      have hlist : id ∈ f.list row.place := by
        rw [hstands.list]
        exact hmem
      rw [hplace] at hlist ⊢
      exact ⟨owner, rfl, hasPlace_of_mem hlist⟩

/-- A forest stays anchored if only texts change that would be declared at an element. -/
theorem Forest.Anchored.shape {binding : Delimiters} {outlines : List Outline} {f g : Forest}
    (h : f.Anchored binding outlines) (hshape : SameShape f g)
    (htexts : ∀ id, g.text? id = f.text? id ∨
      ∃ anchor, f.anchor? id = some anchor ∧ f.HasPlace (.childrenOf anchor)) :
    g.Anchored binding outlines := by
  refine ⟨h.follows.shape hshape, hshape.bareless h.bareless, ?_⟩
  intro id hid content htext hfound
  have hanchored : ∃ anchor, f.anchor? id = some anchor ∧ f.HasPlace (.childrenOf anchor) := by
    rcases htexts id with hsame | hanchored
    · exact h.anchor id hid content (hsame.symm.trans htext) hfound
    · exact hanchored
  obtain ⟨anchor, heq, hplace⟩ := hanchored
  refine ⟨anchor, ?_, hshape.element anchor hplace⟩
  unfold anchor? at heq ⊢
  rw [hshape.links]
  exact heq

namespace Binder

variable {b : Binder} {s : Editing Log}

/-- A text has two forms if it holds a binding insert. -/
theorem synthesis?_eq_none_iff {content : Text} :
    b.synthesis? content = none ↔ BindingInsert.find? b.binding content = none := by
  unfold synthesis?
  cases hfound : BindingInsert.find? b.binding content with
  | none => simp [BindingInsert.split_of_find?_eq_none hfound]
  | some found =>
    have hparts := BindingInsert.one_lt_length_split hfound
    simp [Nat.ne_of_gt hparts]

/-! ## Declarations -/

/-- Declarations change attributes only. -/
structure Declares (f g : Forest) : Prop where
  shape : Forest.SameShape f g
  text : ∀ id, g.text? id = f.text? id

theorem Declares.refl (f : Forest) : Declares f f := ⟨.refl f, fun _ => rfl⟩

theorem Declares.trans {f g h : Forest} (hfg : Declares f g) (hgh : Declares g h) : Declares f h :=
  ⟨hfg.shape.trans hgh.shape, fun id => (hgh.text id).trans (hfg.text id)⟩

theorem Declares.setAttribute (f : Forest) (id : NodeId) (name value : Text) :
    Declares f (f.setAttribute id name value) :=
  ⟨.setAttribute f id name value, Forest.text?_setAttribute f id name value⟩

theorem declares_declare (id : NodeId) (declaration : Text) (s : Editing Log) :
    Declares s.forest (b.declare id declaration s).forest := by
  unfold declare
  split
  · exact .setAttribute ..
  · exact .refl _

theorem declares_bindAttribute (id : NodeId) (s : Editing Log) (name : Text) :
    Declares s.forest (b.bindAttribute id s name).1.forest := by
  unfold bindAttribute
  split
  · exact .refl _
  · split
    · exact .refl _
    · exact (declares_declare id _ s).trans (.setAttribute ..)

/-- The attributes that an element has at first. -/
def attributeNames (f : Forest) (id : NodeId) : List Text :=
  match f.content? id with
  | some (.element _ attrs _) => attrs.names
  | _ => []

/-- The attributes of an element are bound one after another; the count does not matter. -/
theorem bindAttributes_fst (id : NodeId) (s : Editing Log) :
    (b.bindAttributes id s).1 =
      (attributeNames s.forest id).foldl (fun s name => (b.bindAttribute id s name).1) s := by
  exact (List.foldl_hom Prod.fst fun _ _ => rfl).symm

/-- Binding the attributes of an element changes attributes only. -/
theorem declares_bindAttributes (id : NodeId) (s : Editing Log) :
    Declares s.forest (b.bindAttributes id s).1.forest := by
  rw [bindAttributes_fst]
  generalize attributeNames s.forest id = names
  induction names generalizing s with
  | nil => exact .refl _
  | cons name names ih => exact (declares_bindAttribute id s name).trans (ih _)

/-! ## Visits -/

variable {outlines : List Outline}

/-- A text that is anchored is bound. -/
theorem bindText_anchored (h : s.forest.Anchored b.binding outlines) {id : NodeId}
    (hid : id ∈ namesAll outlines) {content : Text}
    (hcontent : s.forest.content? id = some (.data .text content)) :
    ∃ s' bound, b.bindText id s = (s', .ok bound) ∧ s'.forest.Anchored b.binding outlines := by
  have htext := Forest.text?_of_content? hcontent
  unfold bindText
  rw [hcontent]
  simp only
  cases hsynthesis : b.synthesis? content with
  | none => exact ⟨s, false, rfl, h⟩
  | some synthesis =>
    have hfound : BindingInsert.find? b.binding content ≠ none := by
      intro hnone
      rw [synthesis?_eq_none_iff.2 hnone] at hsynthesis
      cases hsynthesis
    obtain ⟨anchor, hanchor, hplace⟩ := h.anchor id hid content htext hfound
    obtain ⟨name, attrs, children, helement⟩ := Forest.content?_of_hasPlace hplace
    rw [hanchor]
    simp only
    rw [helement]
    refine ⟨_, true, rfl, ?_⟩
    have hdeclares := @declares_declare b anchor
      ((Handler.ofLinks (s.forest.links id)).declaration synthesis.expression) s
    refine h.shape (hdeclares.shape.trans (.setData ..)) fun other => ?_
    by_cases hother : id = other
    · exact .inr ⟨anchor, hother ▸ hanchor, hplace⟩
    · exact .inl ((Forest.text?_setData_of_ne hother _).trans (hdeclares.text other))

/-- The binder does not give up at any node. -/
theorem visitor_anchored (h : s.forest.Anchored b.binding outlines) {visit : Visit}
    (hvisit : visit.node ∈ namesAll outlines) :
    ∃ s', b.visitor visit s = (s', none) ∧ s'.forest.Anchored b.binding outlines := by
  unfold visitor
  split
  · split
    · have hdeclares := @declares_bindAttributes b visit.node s
      exact ⟨_, rfl, h.shape hdeclares.shape fun id => .inl (hdeclares.text id)⟩
    · exact ⟨s, rfl, h⟩
  · next content hcontent =>
    obtain ⟨s', bound, hbound, hkept⟩ := bindText_anchored h hvisit hcontent
    rw [hbound]
    exact ⟨s', rfl, hkept⟩
  · exact ⟨s, rfl, h⟩

/-! ## The whole document -/

/-- The binder walks a document that stays as it is from one end to the other, unless it gives up at
a node. -/
theorem bind_along {P : List NodeId → Editing Log → Prop} {Q : Editing Log → Prop}
    (hfollows : ∀ {done s}, P done s → s.forest.Follows outlines)
    (hvisit : ∀ {s : Editing Log} {t : Trail} {outline : Outline} {todo : List Outline},
      t.fill (outline :: todo) = outlines → P t.visited s →
        (∃ s', b.visitor (Focus.visit t outline) s = (s', none) ∧
          P (t.visited ++ [outline.name]) s') ∨
        ∃ s' error, b.visitor (Focus.visit t outline) s = (s', some error) ∧ Q s')
    (h : P [] s) :
    (∃ s', P (namesAll outlines) s' ∧ b.bind s = (s', .finished)) ∨
      ∃ s' error, Q s' ∧ b.bind s = (s', .stopped error) := by
  have hsteps : walkSteps s.forest > Forest.stepsLeft ⟨.top [], outlines⟩ := by
    have hnames := (hfollows h).length_names_le_entryCount
    have hpower := @Nat.lt_two_pow_self s.forest.entryCount
    show 2 * (namesAll outlines).length + 1 + 0 < 2 ^ (s.forest.entryCount + 1) + 2
    rw [Nat.pow_succ]
    omega
  rcases @Forest.walkFrom_along _ _ b.visitor P Q outlines hfollows hvisit _ s ⟨.top [], outlines⟩ h
    rfl (Nat.le_refl _) with ⟨s', hs', hend⟩ | ⟨s', error, hs', hend⟩
  · exact .inl ⟨s', hs', hend _ hsteps⟩
  · exact .inr ⟨s', error, hs', hend _ hsteps⟩

/-- It comes to the end if it gives up at no node. -/
theorem bind_to_end {P : List NodeId → Editing Log → Prop}
    (hfollows : ∀ {done s}, P done s → s.forest.Follows outlines)
    (hvisit : ∀ {s : Editing Log} {t : Trail} {outline : Outline} {todo : List Outline},
      t.fill (outline :: todo) = outlines → P t.visited s →
        ∃ s', b.visitor (Focus.visit t outline) s = (s', none) ∧ P (t.visited ++ [outline.name]) s')
    (h : P [] s) : ∃ s', b.bind s = (s', .finished) ∧ P (namesAll outlines) s' := by
  have hended := @bind_along b s outlines P (fun _ => False) hfollows
    (fun hwhole hs => .inl (hvisit hwhole hs)) h
  obtain ⟨s', hs', hbind⟩ := hended.resolve_right fun ⟨_, _, hfalse, _⟩ => hfalse
  exact ⟨s', hbind, hs'⟩

/-- The binder comes to the end of a document whose texts are anchored. -/
theorem bind_anchored (h : s.forest.Anchored b.binding outlines) :
    ∃ s', b.bind s = (s', .finished) ∧ s'.forest.Anchored b.binding outlines := by
  refine @bind_to_end b s outlines (fun _ s => s.forest.Anchored b.binding outlines)
    (fun h => h.follows) ?_ h
  rintro s t outline todo rfl hs
  exact @visitor_anchored b s _ hs (Focus.visit t outline) (t.name_mem outline todo)

/-- The binder gives up at a text with a binding insert that is the whole document. -/
theorem bind_alone {id : NodeId} {content : Text} (h : s.forest.Follows [.node id []])
    (htext : s.forest.text? id = some content)
    (hfound : BindingInsert.find? b.binding content ≠ none) :
    b.bind s = (s, .stopped (.missing (.data .text content))) := by
  have hcontent := Forest.content?_of_text? htext
  have hanchor : s.forest.anchor? id = none := by
    have hstands : s.forest.Stands ⟨.roots, [id]⟩ := h.stands _ List.mem_cons_self
    exact @Forest.Stands.anchor?_eq _ _ hstands [] [] id rfl
  have hvisit : b.visitor (Focus.visit (.top []) (.node id [])) s =
      (s, some (.missing (.data .text content))) := by
    unfold visitor Focus.visit
    simp only [Outline.name]
    rw [hcontent]
    simp only
    unfold bindText
    rw [hcontent]
    simp only
    cases hsynthesis : b.synthesis? content with
    | none => exact absurd (synthesis?_eq_none_iff.1 hsynthesis) hfound
    | some synthesis =>
      simp only
      rw [hanchor]
  exact @Forest.walkFrom_stopped _ _ b.visitor s s (.top []) (.node id []) [] h.nests _ hvisit _

end Binder
end MarkupBinding
