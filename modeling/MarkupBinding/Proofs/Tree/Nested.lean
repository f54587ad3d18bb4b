import MarkupBinding.Proofs.Tree.Written

/-!
# How a builder nests elements

A start tag ends the elements that it ends before its own element is added, and a void element is
never opened. So in the trees that a builder makes no element holds a child whose start tag would have
ended it, and no void element holds anything.

* `Tree.Nested`: elements nested so, on all levels.
* `Builder.Nested.absorb`: what one token keeps.
* `nested_parse`: the elements of a parsed document are nested so.
-/

namespace MarkupBinding

/-- An end that is implied is in the table. -/
theorem Element.exists_of_startEnds {opened started : Text}
    (h : Element.startEnds opened started = true) :
    ∃ starts, (opened, starts) ∈ Element.impliedEnds ∧ started ∈ starts := by
  unfold Element.startEnds at h
  cases hlookup : Element.impliedEnds.lookup opened with
  | none =>
    rw [hlookup] at h
    cases h
  | some starts =>
    rw [hlookup] at h
    obtain ⟨before, after, heq, _⟩ := List.lookup_eq_some_iff.1 hlookup
    exact ⟨starts, by rw [heq]; simp, List.contains_iff_mem.1 h⟩

/-- A start that is in no list of the table ends nothing. -/
theorem Element.startEnds_eq_false {started : Text}
    (h : ∀ entry ∈ Element.impliedEnds, started ∉ entry.2) (opened : Text) :
    Element.startEnds opened started = false := by
  refine Bool.eq_false_iff.2 fun hends => ?_
  obtain ⟨starts, hentry, hstarted⟩ := Element.exists_of_startEnds hends
  exact h _ hentry hstarted

namespace Tree

mutual

/-- No void element holds anything, and no element a child that would have ended it. -/
def Nested : Tree → Prop
  | .data _ _ => True
  | .element name _ children =>
    (Element.isVoid name.lowercase = true → children = []) ∧
      (∀ child ∈ children, Element.startEnds name.lowercase child.loweredName = false) ∧
        NestedAll children

def NestedAll : List Tree → Prop
  | [] => True
  | tree :: trees => Nested tree ∧ NestedAll trees

end

theorem nestedAll_iff {trees : List Tree} : NestedAll trees ↔ ∀ tree ∈ trees, Nested tree := by
  induction trees with
  | nil => simp [NestedAll]
  | cons tree trees ih => simp [NestedAll, ih]

theorem nested_empty (name : Text) (attrs : Attributes) : Nested (.element name attrs []) :=
  ⟨fun _ => rfl, List.forall_mem_nil _, trivial⟩

end Tree

namespace Builder

/-- Neither the finished elements nor the open ones hold anything that would have ended them. -/
structure Nested (b : Builder) : Prop where
  roots : Tree.NestedAll b.roots
  opened : ∀ frame ∈ b.opened, Element.isVoid frame.name.lowercase = false ∧
    (∀ child ∈ frame.children, Element.startEnds frame.name.lowercase child.loweredName = false) ∧
      Tree.NestedAll frame.children
  inside : b.opened.IsChain fun inner outer =>
    Element.startEnds outer.name.lowercase inner.name.lowercase = false

/-- Nothing that is no element ends one. -/
theorem endsNone_nil (b : Builder) : b.EndsNone [] :=
  fun _ _ => Element.startEnds_eq_false (by decide) _

theorem map_name_close (b : Builder) : b.close.opened.map (·.name) = (b.opened.map (·.name)).tail := by
  obtain ⟨collapses, roots, opened⟩ := b
  cases opened with
  | nil => rfl
  | cons frame opened => exact opened_withSiblings _ _

theorem map_name_closeMany (n : Nat) (b : Builder) :
    (closeMany n b).opened.map (·.name) = (b.opened.map (·.name)).drop n := by
  induction n generalizing b with
  | zero => rfl
  | succ n ih => rw [closeMany, ih, map_name_close, List.drop_tail]

/-- What is behind a run of elements. -/
theorem drop_length_takeWhile {α : Type} (p : α → Bool) (xs : List α) :
    xs.drop (xs.takeWhile p).length = xs.dropWhile p := by
  conv_lhs => arg 2; rw [← List.takeWhile_append_dropWhile (p := p) (l := xs)]
  exact List.drop_left

theorem map_name_closeImplied (b : Builder) (lowered : Text) :
    (b.closeImplied lowered).opened.map (·.name) =
      (b.opened.map (·.name)).dropWhile fun name => Element.startEnds name.lowercase lowered := by
  rw [closeImplied, map_name_closeMany, ← drop_length_takeWhile, List.takeWhile_map, List.length_map]
  rfl

/-- What is still open behind the implied ends is not ended. -/
theorem endsNone_closeImplied (b : Builder) (lowered : Text) :
    (b.closeImplied lowered).EndsNone lowered := by
  intro name hname
  obtain ⟨frame, hframe, rfl⟩ := Option.map_eq_some_iff.1 (Option.mem_def.1 hname)
  have hhead : ((b.closeImplied lowered).opened.map (·.name)).head? = some frame.name := by
    rw [List.head?_map, hframe]
    rfl
  have hnot := List.head?_dropWhile_not (fun name => Element.startEnds name.lowercase lowered)
    (b.opened.map (·.name))
  rw [map_name_closeImplied] at hhead
  rw [hhead] at hnot
  simpa using hnot

namespace Nested

variable {b : Builder}

theorem empty (collapses : Bool) : Nested { collapses } :=
  ⟨trivial, List.forall_mem_nil _, .nil⟩

theorem siblings (h : b.Nested) :
    ∀ tree ∈ b.siblings, tree.Nested ∧ b.EndsNone tree.loweredName := by
  obtain ⟨collapses, roots, opened⟩ := b
  intro tree htree
  cases opened with
  | nil => exact ⟨Tree.nestedAll_iff.1 h.roots tree htree, by rintro _ ⟨⟩⟩
  | cons frame opened =>
    obtain ⟨_, hends, hchildren⟩ := h.opened frame List.mem_cons_self
    refine ⟨Tree.nestedAll_iff.1 hchildren tree htree, ?_⟩
    rintro _ ⟨⟩
    exact hends tree htree

theorem withSiblings (h : b.Nested) {trees : List Tree}
    (htrees : ∀ tree ∈ trees, tree.Nested ∧ b.EndsNone tree.loweredName) :
    (b.withSiblings trees).Nested := by
  obtain ⟨collapses, roots, opened⟩ := b
  have hnested : Tree.NestedAll trees := Tree.nestedAll_iff.2 fun tree htree => (htrees tree htree).1
  cases opened with
  | nil => exact ⟨hnested, h.opened, h.inside⟩
  | cons frame opened =>
    obtain ⟨⟨hvoid, _⟩, hothers⟩ := List.forall_mem_cons.1 h.opened
    have hends : ∀ child ∈ trees,
        Element.startEnds frame.name.lowercase child.loweredName = false :=
      fun child hchild => (htrees child hchild).2 _ rfl
    refine ⟨h.roots, List.forall_mem_cons.2 ⟨⟨hvoid, hends, hnested⟩, hothers⟩, ?_⟩
    obtain ⟨hnext, hchain⟩ := List.isChain_cons.1 h.inside
    exact List.isChain_cons.2 ⟨hnext, hchain⟩

theorem insert (h : b.Nested) {tree : Tree} (htree : tree.Nested)
    (hends : b.EndsNone tree.loweredName) : (b.insert tree).Nested :=
  h.withSiblings (List.forall_mem_cons.2 ⟨⟨htree, hends⟩, h.siblings⟩)

theorem close (h : b.Nested) : b.close.Nested := by
  obtain ⟨collapses, roots, opened⟩ := b
  cases opened with
  | nil => exact h
  | cons frame opened =>
    obtain ⟨⟨hvoid, hends, hchildren⟩, hothers⟩ := List.forall_mem_cons.1 h.opened
    obtain ⟨hnext, hchain⟩ := List.isChain_cons.1 h.inside
    have houter : Nested { collapses, roots, opened } := ⟨h.roots, hothers, hchain⟩
    refine houter.insert ⟨?_, ?_, ?_⟩ ?_
    · intro hname
      rw [hvoid] at hname
      cases hname
    · intro child hchild
      exact hends child (List.mem_reverse.1 hchild)
    · exact Tree.nestedAll_iff.2 fun child hchild =>
        Tree.nestedAll_iff.1 hchildren child (List.mem_reverse.1 hchild)
    · intro name hname
      obtain ⟨outer, houter, rfl⟩ := Option.map_eq_some_iff.1 hname
      exact hnext outer houter

theorem closeMany (n : Nat) (h : b.Nested) : (Builder.closeMany n b).Nested :=
  closeMany_induction (fun _ h => h.close) n h

theorem insertText (h : b.Nested) (content : Text) : (b.insertText content).Nested := by
  have htext : ∀ content, Tree.Nested (.text content) ∧ b.EndsNone (Tree.text content).loweredName :=
    fun content => ⟨trivial, endsNone_nil b⟩
  have hsiblings := h.siblings
  unfold Builder.insertText
  split
  · next last before hs =>
    rw [hs] at hsiblings
    exact h.withSiblings (List.forall_mem_cons.2 ⟨htext _, (List.forall_mem_cons.1 hsiblings).2⟩)
  · exact h.insert (htext _).1 (htext _).2

theorem startTag (h : b.Nested) (name : Text) (attrs : Attributes) :
    (b.absorb (.startTag name attrs)).Nested := by
  have hready : (b.closeImplied name.lowercase).Nested := h.closeMany _
  have hends := endsNone_closeImplied b name.lowercase
  unfold Builder.absorb accept Builder.startTag
  simp only
  by_cases hname : name = []
  · rw [if_pos hname]
    exact h
  rw [if_neg hname]
  by_cases hvoid : Element.isVoid name.lowercase = true
  · rw [if_pos hvoid]
    exact hready.insert (Tree.nested_empty name attrs) hends
  · rw [if_neg hvoid]
    refine ⟨hready.roots, List.forall_mem_cons.2 ⟨⟨?_, List.forall_mem_nil _, trivial⟩,
      hready.opened⟩, List.isChain_cons.2 ⟨?_, hready.inside⟩⟩
    · exact Bool.eq_false_iff.2 hvoid
    · intro outer houter
      exact hends _ (Option.map_eq_some_iff.2 ⟨outer, houter, rfl⟩)

/-- An empty element for an end tag ends nothing: no list has a line break, and a paragraph ends
only a paragraph. -/
theorem endTag (h : b.Nested) (name : Text) : (b.endTag name).Nested := by
  unfold Builder.endTag
  simp only
  split
  · split
    · next hbr =>
      refine h.insert (Tree.nested_empty name []) fun _ _ => ?_
      rw [Tree.loweredName, hbr]
      exact Element.startEnds_eq_false (by decide) _
    · exact h
  · split
    · exact h.closeMany _
    · next hnone =>
      split
      · next hp =>
        refine h.insert (Tree.nested_empty name []) fun opened hopened => ?_
        obtain ⟨frame, hframe, rfl⟩ := Option.map_eq_some_iff.1 (Option.mem_def.1 hopened)
        have hother := List.findIdx?_eq_none_iff.1 hnone frame (List.mem_of_mem_head? hframe)
        refine Bool.eq_false_iff.2 fun hends => of_decide_eq_false hother ?_
        obtain ⟨starts, hentry, hstarted⟩ := Element.exists_of_startEnds hends
        rw [Tree.loweredName, hp] at hstarted
        have honly : ∀ entry ∈ Element.impliedEnds, "p".toList ∈ entry.2 → entry.1 = "p".toList := by
          decide
        exact (honly _ hentry hstarted).trans hp.symm
      · exact h

/-- What one token keeps. -/
theorem absorb (h : b.Nested) (token : Token) : (b.absorb token).Nested := by
  cases token with
  | startTag name attrs => exact h.startTag name attrs
  | endTag name attrs => exact h.endTag name
  | data kind content =>
    cases kind with
    | text => exact h.insertText content
    | comment => exact h.insert trivial (endsNone_nil b)
    | cdata => exact h.insert trivial (endsNone_nil b)
    | directive => exact h.insert trivial (endsNone_nil b)
  | endOfInput => exact h.closeMany _

theorem absorbAll (h : b.Nested) (tokens : List Token) : (b.absorbAll tokens).Nested := by
  induction tokens generalizing b with
  | nil => exact h
  | cons token tokens ih => exact ih (h.absorb token)

theorem trees (h : b.Nested) : Tree.NestedAll b.trees :=
  Tree.nestedAll_iff.2 fun tree htree =>
    Tree.nestedAll_iff.1 (h.closeMany _).roots tree (List.mem_reverse.1 htree)

end Nested
end Builder

/-- The elements of a parsed document hold nothing that would have ended them. -/
theorem Tree.nested_parse (text : Text) (collapses sections : Bool) :
    Tree.NestedAll (Tree.parse text collapses sections) :=
  ((Builder.Nested.empty collapses).absorbAll (Scanner.tokens text sections)).trees

end MarkupBinding
