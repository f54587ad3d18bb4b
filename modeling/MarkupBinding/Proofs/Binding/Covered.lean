import MarkupBinding.Proofs.Binding.Effect
import MarkupBinding.Proofs.Placeholder.Covered

/-!
# What the binder leaves of opening braces

The binder turns binding inserts into template inserts. Where every opening brace of a document
belongs to a binding insert that is bound, every opening brace of its new markup begins a template
insert: the declarations hold what the inserts held, and no braces of their own.

* `Settled`: a node in which the binder leaves no opening brace alone.
* `covered_rewrite`: what becomes of such a node.
* `covered_markupAll`: the markup of covered nodes.
-/

namespace MarkupBinding

/-! ## Markup -/

namespace Covered

theorem flatMap {α : Type} {list : List α} {g : α → Text} (h : ∀ a ∈ list, Covered false (g a)) :
    Covered false (list.flatMap g) := by
  induction list with
  | nil => exact .nil
  | cons a list ih =>
    obtain ⟨ha, hlist⟩ := List.forall_mem_cons.1 h
    exact ha.append (ih hlist)

end Covered

/-- Every opening brace in the texts of a node begins a template insert, and its names have none. -/
def Content.Covers : Content → Prop
  | .element name attrs _ =>
    '\x7b' ∉ name ∧ ∀ entry ∈ attrs, '\x7b' ∉ entry.1 ∧ Covered false entry.2
  | .data _ content => Covered false content
  | .bare _ => True

namespace Tree

variable {name : Text}

theorem covered_startTagMarkup {attrs : Attributes} (hname : '\x7b' ∉ name)
    (h : ∀ entry ∈ attrs, '\x7b' ∉ entry.1 ∧ Covered false entry.2) :
    Covered false (startTagMarkup name attrs) := by
  have hfront : '\x7b' ∉ '<' :: name := by simpa using hname
  refine (Covered.of_notMem hfront).append (.flatMap fun entry hentry => ?_)
  obtain ⟨hkey, hvalue⟩ := h entry hentry
  have hopening : '\x7b' ∉ ' ' :: entry.1 ++ ['=', '"'] := by simpa using hkey
  exact (hvalue.prepend hopening).append (.of_notMem (by decide))

theorem notMem_endTagMarkup (hname : '\x7b' ∉ name) : '\x7b' ∉ endTagMarkup name := by
  simpa [endTagMarkup] using hname

theorem notMem_emptyClosing (hname : '\x7b' ∉ name) (xhtml : Bool) :
    '\x7b' ∉ emptyClosing xhtml name := by
  unfold emptyClosing
  split
  · split <;> decide
  · simpa using notMem_endTagMarkup hname

theorem covered_dataMarkup {content : Text} (h : Covered false content) (kind : DataKind) :
    Covered false (kind.markup content) := by
  have hbracket : Covered false ('<' :: content ++ ['>']) :=
    (h.char (by decide)).append (.of_notMem (by decide))
  cases kind with
  | text => exact h
  | comment => exact (h.prepend (by decide)).append (.of_notMem (by decide))
  | cdata | directive => exact hbracket

mutual

theorem covered_markup (xhtml : Bool) : ∀ tree : Tree, tree.Labelled Content.Covers →
    Covered false (tree.markup xhtml)
  | .data kind content, h => covered_dataMarkup h kind
  | .element name attrs [], h =>
    (covered_startTagMarkup h.1.1 h.1.2).append (.of_notMem (notMem_emptyClosing h.1.1 xhtml))
  | .element name attrs (child :: children), h => by
    have hfirst := covered_markup xhtml child h.2.1
    have hothers := covered_markupAll xhtml children h.2.2
    have hend : Covered false (endTagMarkup name) := .of_notMem (notMem_endTagMarkup h.1.1)
    exact (((covered_startTagMarkup h.1.1 h.1.2).append
      (hfirst.char (by decide))).append hothers).append hend

/-- The markup of covered nodes is covered. -/
theorem covered_markupAll (xhtml : Bool) : ∀ trees : List Tree,
    LabelledAll Content.Covers trees → Covered false (markupAll xhtml trees)
  | [], _ => .nil
  | tree :: trees, h => (covered_markup xhtml tree h.1).append (covered_markupAll xhtml trees h.2)

end

end Tree

/-! ## Contents -/

namespace Synthesis

variable {parts : List Text}

/-- The template inserts of a content are those that stand for its expressions. -/
theorem covered_contentFrom (h : ∀ part ∈ parts, '\x7b' ∉ part) (index : Nat) :
    Covered false (contentFrom doubleBraces index parts) := by
  induction parts generalizing index with
  | nil => exact .nil
  | cons part parts ih =>
    obtain ⟨hpart, hparts⟩ := List.forall_mem_cons.1 h
    rw [contentFrom]
    refine Covered.append ?_ (ih hparts (index + 1))
    split
    · exact .wrap hpart
    · exact .of_notMem hpart

end Synthesis

/-! ## What becomes of a node -/

namespace Binder

variable {b : Binder}

/-- A binder that writes the usual template inserts, and names without braces. -/
structure Usual (b : Binder) : Prop where
  template : b.template = doubleBraces
  root : '\x7b' ∉ b.root
  target : '\x7b' ∉ b.target

/-- All opening braces of a text belong to the delimiters of its binding inserts. -/
def SettledText (b : Binder) (text : Text) : Prop :=
  ∀ part ∈ BindingInsert.split b.binding text, '\x7b' ∉ part

/-- All opening braces of a node belong to binding inserts that are bound. -/
def Settled (b : Binder) : Content → Prop
  | .element name attrs _ =>
    '\x7b' ∉ name ∧ ∀ entry ∈ attrs, '\x7b' ∉ entry.1 ∧
      if Element.Kind.ofName name = .tag ∧ entry.1 ∉ b.skipped then b.SettledText entry.2
      else '\x7b' ∉ entry.2
  | .data .text content => b.SettledText content
  | .data _ content => '\x7b' ∉ content
  | .bare _ => True

instance (b : Binder) : DecidablePred b.SettledText :=
  fun text => inferInstanceAs (Decidable (∀ part ∈ BindingInsert.split b.binding text, _))

instance (b : Binder) : DecidablePred b.Settled
  | .element _ attrs _ => inferInstanceAs (Decidable (_ ∧ ∀ entry ∈ attrs, _))
  | .data .text content => inferInstanceAs (Decidable (b.SettledText content))
  | .data .comment _ | .data .directive _ | .data .cdata _ => inferInstanceAs (Decidable (¬ _))
  | .bare _ => inferInstanceAs (Decidable True)

theorem covered_boundText (hb : b.Usual) {text : Text} (h : b.SettledText text) :
    Covered false (b.boundText text) := by
  unfold boundText
  split
  · next hnone =>
    unfold SettledText at h
    rw [BindingInsert.split_of_find?_eq_none (synthesis?_eq_none_iff.1 hnone)] at h
    exact .of_notMem (h text List.mem_cons_self)
  · next synthesis hsome =>
    unfold synthesis? at hsome
    simp only at hsome
    split at hsome
    · cases hsome
    · cases hsome
      rw [hb.template]
      exact Synthesis.covered_contentFrom h 0

theorem notMem_declaration? (hb : b.Usual) {handler : Handler} (hhandler : '\x7b' ∉ handler.markup)
    {text : Text} (h : b.SettledText text) :
    ∀ declaration ∈ b.declaration? handler text, '\x7b' ∉ declaration := by
  intro declaration hmem
  obtain ⟨synthesis, hsome, rfl⟩ := Option.map_eq_some_iff.1 hmem
  unfold synthesis? at hsome
  simp only at hsome
  split at hsome
  · cases hsome
  · cases hsome
    have hexpression := Synthesis.notMem_expression (by decide) (by decide) hb.root h b.template
    show '\x7b' ∉ handler.markup ++ ':' :: _
    simpa using ⟨hhandler, hexpression⟩

/-- What a node declares holds no brace. -/
theorem notMem_of_mem_declaredAt (hb : b.Usual) {f : Forest} {element id : NodeId}
    (h : ∀ content, f.content? id = some content → b.Settled content) :
    ∀ declaration ∈ b.declaredAt f element id, '\x7b' ∉ declaration := by
  intro declaration hmem
  rcases eq_of_mem_declaredAt hmem with ⟨name, attrs, children, hcontent, htag, hown⟩ |
    ⟨content, htext, hdeclaration⟩
  · obtain ⟨key, value, hentry, hskip, hdeclaration⟩ := mem_ownDeclarations_iff.1 hown
    obtain ⟨hkey, hvalue⟩ := (h _ hcontent).2 _ hentry
    rw [if_pos ⟨htag, hskip⟩] at hvalue
    refine notMem_declaration? hb (Handler.notMem_markup (by decide) fun name hattr => ?_) hvalue
      declaration hdeclaration
    rw [← Handler.eq_of_ofAttribute hattr]
    exact hkey
  · have hsettled : b.SettledText content := h _ (Forest.content?_of_text? htext)
    exact notMem_declaration? hb (Handler.notMem_markup (by decide) fun name hattr =>
      absurd hattr (Handler.ofLinks_ne_attr _ name)) hsettled declaration hdeclaration

/-- The attributes of a settled element are covered once they are bound, and the binding attribute
is as it was. -/
theorem covered_attributes (hb : b.Usual) (htarget : b.target ∈ b.skipped) {name : Text}
    {attrs : Attributes} {children : List NodeId} (h : b.Settled (.element name attrs children)) :
    ∀ entry ∈ if Element.Kind.ofName name = .tag then b.boundAttributes attrs else attrs,
      '\x7b' ∉ entry.1 ∧ Covered false entry.2 ∧ (entry.1 = b.target → '\x7b' ∉ entry.2) := by
  intro entry hentry
  split at hentry
  · next htag =>
    obtain ⟨⟨key, value⟩, hmem, rfl⟩ := List.mem_map.1 hentry
    obtain ⟨hkey, hvalue⟩ := h.2 _ hmem
    simp only at hkey hvalue ⊢
    split
    · next hskip =>
      rw [if_neg fun hsearched => hsearched.2 (List.contains_iff_mem.1 hskip)] at hvalue
      exact ⟨hkey, .of_notMem hvalue, fun _ => hvalue⟩
    · next hskip =>
      rw [if_pos ⟨htag, fun hmem => hskip (List.contains_iff_mem.2 hmem)⟩] at hvalue
      refine ⟨hkey, covered_boundText hb hvalue, ?_⟩
      rintro rfl
      exact absurd (List.contains_iff_mem.2 htarget) hskip
  · next htag =>
    obtain ⟨hkey, hvalue⟩ := h.2 _ hentry
    rw [if_neg fun hsearched => htag hsearched.1] at hvalue
    exact ⟨hkey, .of_notMem hvalue, fun _ => hvalue⟩

/-- What becomes of a node is covered if its braces belong to inserts that are bound. -/
theorem covers_rewrite (hb : b.Usual) (htarget : b.target ∈ b.skipped) {content : Content}
    (h : b.Settled content) {declarations : List Text}
    (hdeclarations : ∀ declaration ∈ declarations, '\x7b' ∉ declaration) :
    (b.rewrite true declarations content).Covers := by
  match content with
  | .bare _ => trivial
  | .data .text _ => exact covered_boundText hb h
  | .data .comment _ | .data .directive _ | .data .cdata _ => exact .of_notMem h
  | .element name attrs children =>
    have hattrs := covered_attributes hb htarget h
    refine ⟨h.1, ?_⟩
    rw [Bool.true_and]
    simp only [decide_eq_true_eq]
    generalize (if Element.Kind.ofName name = .tag then b.boundAttributes attrs else attrs) =
      bound at hattrs ⊢
    unfold withDeclarations
    split
    · exact fun entry hentry => ⟨(hattrs entry hentry).1, (hattrs entry hentry).2.1⟩
    · intro entry hentry
      rcases Entries.mem_of_mem_set hentry with rfl | hentry
      · refine ⟨hb.target, .of_notMem (notMem_joined (by decide) ?_ hdeclarations)⟩
        exact fun value hvalue => (hattrs _ (Entries.mem_of_get? hvalue)).2.2 rfl
      · exact ⟨(hattrs entry hentry).1, (hattrs entry hentry).2.1⟩

/-- Every node of a document is covered when the binder has come to its end. -/
theorem Bound.covers (hb : b.Usual) (htarget : b.target ∈ b.skipped) {f g : Forest}
    {outlines : List Outline} (hfollows : f.Follows outlines)
    (hbound : b.Bound f (Outline.namesAll outlines) g)
    (h : ∀ id, f.InDocument id → ∀ content, f.content? id = some content → b.Settled content) :
    Tree.LabelledAll Content.Covers (g.treesOf outlines) := by
  refine Forest.labelledAll_treesOf .nil outlines fun id hid label hlabel => ?_
  obtain ⟨written, hwritten, rfl⟩ := Option.map_eq_some_iff.1 hlabel
  rw [hbound.content, decide_eq_true hid] at hwritten
  obtain ⟨content, hcontent, rfl⟩ := Option.map_eq_some_iff.1 hwritten
  have hdeclarations : ∀ declaration ∈ (Outline.namesAll outlines).flatMap (b.declaredAt f id),
      '\x7b' ∉ declaration := by
    intro declaration hmem
    obtain ⟨other, hother, hmem⟩ := List.mem_flatMap.1 hmem
    exact notMem_of_mem_declaredAt hb (h other (hfollows.inDocument_iff.2 hother)) declaration hmem
  have hcovers := covers_rewrite hb htarget (h id (hfollows.inDocument_iff.2 hid) content hcontent)
    hdeclarations
  generalize b.rewrite true _ content = written at hcovers
  cases written <;> exact hcovers

end Binder
end MarkupBinding
