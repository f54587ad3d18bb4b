import MarkupBinding.Proofs.Binding.Covered
import MarkupBinding.Proofs.Binding.Untouched

/-!
# A second pass

The output of a transform can be transformed again. What the first pass has bound is a template
insert by then, so the second pass finds nothing to bind, if the first one left no opening brace
alone: a brace that stays in the text may meet a closing one that it could not reach before.

* `Unmatched`: a node without binding inserts.
* `bind_of_unmatched`: the binder leaves a document of such nodes as it is.
* `prepare_of_notMem`: so does isolation, if the protected markup has no opening brace.
* `transform_again`: the second pass declares nothing.
-/

namespace MarkupBinding

open Outline

/-- No text or attribute value of a node holds a binding insert. -/
def Content.Unmatched (d : Delimiters) : Content → Prop
  | .element _ attrs _ => ∀ entry ∈ attrs, BindingInsert.find? d entry.2 = none
  | .data _ content => BindingInsert.find? d content = none
  | .bare _ => True

/-- A node without opening braces holds no binding insert. -/
theorem Content.unmatched_of_holds {d : Delimiters} (hd : '\x7b' ∈ d.opening) {content : Content}
    (h : content.Holds (· ≠ '\x7b')) : content.Unmatched d := by
  have hnone : ∀ text : Text, text.Holds (· ≠ '\x7b') → BindingInsert.find? d text = none :=
    fun text htext => BindingInsert.find?_eq_none_of_notMem hd fun hmem => htext _ hmem rfl
  cases content with
  | element name attrs children => exact fun entry hentry => hnone _ (h.2.values entry hentry)
  | data kind content => exact hnone _ h
  | bare label => trivial

theorem Content.Unmatched.unbound {d : Delimiters} {content : Content} (h : content.Unmatched d) :
    content.Unbound d := by
  cases content with
  | data kind content =>
    cases kind with
    | text => exact h
    | _ => trivial
  | _ => exact h

/-- The binder leaves a document without binding inserts as it is. -/
theorem Binder.bind_of_unmatched {b : Binder} {s : Editing Log} {outlines : List Outline}
    (hfollows : s.forest.Follows outlines) (h : s.forest.Every (Content.Unmatched b.binding)) :
    b.bind s = (s, .finished) :=
  bind_of_unbound hfollows fun id label hlabel => (h id label hlabel).unbound

namespace Options

variable {options : Options} {markup : Text}

/-- Markup without opening braces has no binding inserts, and none comes about when it is parsed. -/
theorem every_parse_unmatched (hbinding : '\x7b' ∈ options.binding.opening) (h : '\x7b' ∉ markup) :
    (options.parse markup).Every (Content.Unmatched options.binding) := by
  have hholds : markup.Holds (· ≠ '\x7b') := fun c hc heq => h (heq ▸ hc)
  have hsigns : Text.Holds (· ≠ '\x7b') Scanner.signs :=
    fun c hc heq => absurd (heq ▸ hc) (by decide : '\x7b' ∉ Scanner.signs)
  have htrees := Tree.holds_parse hsigns (by decide) hholds options.collapses false
  exact fun id label hlabel =>
    Content.unmatched_of_holds hbinding (Forest.every_ofTrees htrees id label hlabel)

/-- Such markup is only parsed. -/
theorem prepare_of_notMem (hbinding : '\x7b' ∈ options.binding.opening) (h : '\x7b' ∉ markup)
    (protection : Protection) :
    options.prepare markup protection =
      { forest := options.parse markup
        notes := if protection.isActive then [.insertsProtected protection.inserts.length] else [] } :=
  prepare_of_unbound hbinding (by decide) h protection

/-! ## Two passes -/

variable {html out : Text}

/-- The document that the binder is given, with the default options. -/
def prepared (html : Text) : Editing Log :=
  let (markup, protection) := protect {} html
  prepare {} markup protection

/-- All opening braces of a document belong to inserts, and the binding inserts among them are bound. -/
def Settled (html : Text) : Prop :=
  ∀ id, (prepared html).forest.InDocument id → ∀ content,
    (prepared html).forest.content? id = some content → Binder.plain.Settled content

/-- What is written when the binder comes to the end. -/
theorem transform_of_bind {s : Editing Log} {markup : Text}
    (hbind : Binder.plain.bind (prepared html) = (s, .finished))
    (hmarkup : s.forest.markup false = .ok markup) :
    transform {} html = ⟨s.notes, .ok ((protect {} html).2.restore markup)⟩ := by
  have hbinder : Binder.ofOptions {} = .ok Binder.plain := rfl
  have hbind : Binder.plain.bind (prepare {} (protect {} html).1 (protect {} html).2) =
      (s, .finished) := hbind
  unfold transform
  simp only
  rw [hbinder]
  simp only
  rw [hbind]
  simp only
  rw [hmarkup]

/-- Nothing is written for a stranded document. -/
theorem not_stranded (hout : (transform {} html).result = .ok out) (content : Text) :
    ¬ Stranded {} html content := by
  intro hstranded
  obtain ⟨id, hfollows, htext⟩ := prepare_stranded hstranded
  obtain ⟨_, _, _, hfound, _⟩ := hstranded
  have hbinder : Binder.ofOptions {} = .ok Binder.plain := rfl
  have hbind := @Binder.bind_alone Binder.plain _ _ _ hfollows htext
    (Option.isSome_iff_ne_none.1 hfound)
  unfold transform at hout
  simp only at hout
  rw [hbinder] at hout
  simp only at hout
  rw [hbind] at hout
  cases hout

/-- The output of a settled document is covered markup with its template inserts back in place. -/
theorem exists_covered (hsettled : Settled html) (hout : (transform {} html).result = .ok out) :
    ∃ markup, Covered false markup ∧ out = (protect {} html).2.restore markup := by
  obtain ⟨outlines, hanchored⟩ := prepare_anchored (not_stranded hout)
  have hanchored : (prepared html).forest.Anchored Binder.plain.binding outlines := hanchored
  have htarget : Binder.plain.target ∈ Binder.plain.skipped := List.mem_cons_self
  have husual : Binder.plain.Usual := ⟨rfl, by decide, by decide⟩
  have hbindable : Binder.plain.Bindable (prepared html).forest := by
    refine ⟨fun id _ name attrs children hcontent => distinct_prepare _ _ hcontent, ?_⟩
    intro id hin content htext hfound
    obtain ⟨anchor, hanchor, hplace⟩ :=
      hanchored.anchor id (hanchored.follows.inDocument_iff.1 hin) content htext hfound
    obtain ⟨name, attrs, children, hcontent⟩ := Forest.content?_of_hasPlace hplace
    exact ⟨anchor, name, attrs, children, hanchor, hcontent⟩
  obtain ⟨s, hbind, hbound⟩ := Binder.exists_bound htarget hanchored.follows hbindable
  have hfollows := hanchored.follows.shape hbound.shape
  have hmarkup := Forest.markup_eq hfollows (hbound.shape.bareless hanchored.bareless) false
  have hcovers := hbound.covers husual htarget hanchored.follows hsettled
  rw [transform_of_bind hbind hmarkup] at hout
  cases hout
  exact ⟨_, Tree.covered_markupAll false _ hcovers, rfl⟩

/-- The second pass finds no opening brace outside of template inserts. -/
theorem notMem_protect_output (hsettled : Settled html)
    (hout : (transform {} html).result = .ok out) : '\x7b' ∉ (protect {} out).1 := by
  obtain ⟨markup, hcovered, rfl⟩ := exists_covered hsettled hout
  have hstem : Placeholder.Braceless "htmlbind_".toList := ⟨by decide, by decide⟩
  exact Protection.protect_restore hstem hcovered html

/-- **A second pass.** Where no opening brace of a document is left alone, a second pass over its
output finds no binding insert in any text or attribute value, declares nothing, and writes what it
has parsed. -/
theorem transform_again (hsettled : Settled html) (hout : (transform {} html).result = .ok out) :
    (prepared out).forest.Every (Content.Unmatched Binder.plain.binding) ∧
      Binder.plain.bind (prepared out) = (prepared out, .finished) ∧
      (∀ element target value, Note.declared element target value ∉ (transform {} out).log) ∧
      (transform {} out).result = .ok ((protect {} out).2.restore
        (Tree.markupAll false (Tree.parse (protect {} out).1))) := by
  have hbraces := notMem_protect_output hsettled hout
  have hbinding : '\x7b' ∈ ({} : Options).binding.opening := by decide
  have hprepared : prepared out = _ := prepare_of_notMem hbinding hbraces (protect {} out).2
  have hforest : (prepared out).forest = parse {} (protect {} out).1 := by rw [hprepared]
  have hunmatched : (prepared out).forest.Every (Content.Unmatched Binder.plain.binding) := by
    rw [hforest]
    exact every_parse_unmatched hbinding hbraces
  have hfollows : (prepared out).forest.Follows
      (Tree.outlineAll 0 (Tree.parse (protect {} out).1)) := by
    rw [hforest]
    exact Forest.follows_ofTrees _
  have hmarkup : (prepared out).forest.markup false =
      .ok (Tree.markupAll false (Tree.parse (protect {} out).1)) := by
    rw [Forest.markup_eq hfollows (by rw [hforest]; exact Isolation.bareless_parse {} _), hforest]
    exact congrArg _ (congrArg _ (Forest.treesOf_ofTrees _))
  have hbind := Binder.bind_of_unmatched hfollows hunmatched
  have htransform := transform_of_bind hbind hmarkup
  refine ⟨hunmatched, hbind, ?_, by rw [htransform]⟩
  intro element target value
  rw [htransform, hprepared]
  simp only
  split <;> simp

/-- Inserts in an attribute and in two texts. -/
def mixedInserts : Text := "<p class=\"x \x7ba\x7d y\">\x7bb\x7d<i>\x7bc\x7d</i></p>".toList

/-- What becomes of them. -/
def mixedOutput : Text :=
  ("<p class=\"x \x7b\x7ba\x7d\x7d y\" data-bind=\"attr(class):'x '+this.a+' y',text(first):this.b\">" ++
    "\x7b\x7bb\x7d\x7d<i data-bind=\"text:this.c\">\x7b\x7bc\x7d\x7d</i></p>").toList

theorem result_eq_of_toOption (h : (transform {} html).result.toOption = some out) :
    (transform {} html).result = .ok out := by
  cases hresult : (transform {} html).result with
  | ok written =>
    rw [hresult] at h
    cases h
    rfl
  | error error =>
    rw [hresult] at h
    cases h

/-- The second pass over a small document declares nothing. -/
theorem transform_again_mixedInserts :
    Settled mixedInserts ∧ (transform {} mixedInserts).result = .ok mixedOutput ∧
      ∀ element target value, Note.declared element target value ∉ (transform {} mixedOutput).log := by
  have hnodes : ∀ node ∈ (prepared mixedInserts).forest.nodes.toList,
      Binder.plain.Settled node.content := by decide +kernel
  have hsettled : Settled mixedInserts := by
    intro id _ content hcontent
    obtain ⟨node, hnode, rfl⟩ := Option.map_eq_some_iff.1 hcontent
    exact hnodes node (Array.mem_toList_iff.2 (Array.mem_of_getElem? hnode))
  have hout : (transform {} mixedInserts).result = .ok mixedOutput :=
    result_eq_of_toOption (by decide +kernel)
  exact ⟨hsettled, hout, (transform_again hsettled hout).2.2.1⟩

/-- A brace that a line break keeps from its closing brace, around a binding insert. -/
def brokenInsert : Text := "<p>\x7bx \x7b\na\x7d \x7d</p>".toList

/-- The binding insert in the middle is bound. -/
def brokenOutput : Text :=
  "<p data-bind=\"text:'\x7bx '+this.a+' \x7d'\">\x7bx \x7b\x7ba\x7d\x7d \x7d</p>".toList

/-- Not every output is left alone by a second pass: with the insert in the middle gone, the braces
around it meet. -/
theorem transform_again_fails_of_brokenInsert :
    ¬ ∀ html out, (transform {} html).result = .ok out →
      ∀ element target value, Note.declared element target value ∉ (transform {} out).log := by
  intro h
  have hout : (transform {} brokenInsert).result = .ok brokenOutput :=
    result_eq_of_toOption (by decide +kernel)
  have hdeclared : Note.declared "p".toList "data-bind".toList
      "text:'\x7bx '+this.a+' \x7d',text:this.x htmlbind_1_".toList ∈
        (transform {} brokenOutput).log := by decide +kernel
  exact h brokenInsert brokenOutput hout _ _ _ hdeclared

end Options
end MarkupBinding
