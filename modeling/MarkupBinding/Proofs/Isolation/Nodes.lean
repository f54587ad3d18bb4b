import MarkupBinding.Proofs.Forest.Walk
import MarkupBinding.Proofs.Tree.Labels
import MarkupBinding.Transform

/-!
# The nodes of a prepared document

Isolation puts parsed trees and wrappers into the table and changes no node that is there. So a
document that is prepared for the binder has, node by node, what a parsed document has: above all,
the attributes of an element have distinct names.

* `every_isolate`: what holds of parsed nodes and of wrappers holds of the isolated document.
* `every_prepare`: and of the prepared one.
* `distinct_prepare`: the names of attributes are distinct.
-/

namespace MarkupBinding

namespace Isolation

variable {Q : Content → Prop} {options : Options} {protection : Protection}

theorem every_replaceVisited {f : Forest} (h : f.Every Q) (visit : Visit) (new : List NodeId) :
    (replaceVisited f visit new).Every Q := by
  unfold replaceVisited
  split
  · next hreplace =>
    intro id label hlabel
    rw [Forest.label?_replace hreplace] at hlabel
    exact h id label hlabel
  · exact h

variable (hparse : ∀ text, Tree.LabelledAll Q (Tree.parse text options.collapses))
  (hwrapper : Q (.element wrapperName [] []))
include hparse hwrapper

theorem every_visitor (visit : Visit) (s : Editing Log) (h : s.forest.Every Q) :
    (visitor options protection visit s).1.forest.Every Q := by
  have hsplit : ∀ found, (split options found visit s).forest.Every Q := fun found =>
    every_replaceVisited (Forest.every_graft h (hparse _)) visit _
  have hwrapped : ∀ neighbour, (wrapVisited neighbour visit s).forest.Every Q := by
    intro neighbour
    have hnew : Forest.Every Q (s.forest.allocate { content := .element wrapperName [] [] }).2 := by
      have hgrafted : Forest.Every Q (s.forest.graft [.element wrapperName [] []]).2 :=
        Forest.every_graft h ⟨⟨hwrapper, trivial⟩, trivial⟩
      rw [Forest.graft_element] at hgrafted
      exact hgrafted
    intro id label hlabel
    refine every_replaceVisited hnew visit [s.forest.nodes.size] id label ?_
    rw [← hlabel]
    exact (Forest.label?_link ..).symm
  unfold visitor
  split
  · exact h
  · split
    · exact h
    · simp only
      split
      · exact hsplit _
      · split
        · exact h
        · exact h
        · exact hwrapped _

/-- What holds of parsed nodes and of wrappers holds of the isolated document. -/
theorem every_isolate (length : Nat) {s : Editing Log} (h : s.forest.Every Q) :
    (isolate options protection length s).1.forest.Every Q :=
  Forest.walkFrom_keeps (P := fun s => s.forest.Every Q) (every_visitor hparse hwrapper) _ _ h

end Isolation

namespace Options

variable {Q : Content → Prop} {options : Options}

/-- What holds of parsed nodes and of wrappers holds of the prepared document. -/
theorem every_prepare (hparse : ∀ text, Tree.LabelledAll Q (Tree.parse text options.collapses))
    (hwrapper : Q (.element Isolation.wrapperName [] [])) (markup : Text) (protection : Protection) :
    (options.prepare markup protection).forest.Every Q := by
  have hparsed : ∀ text, (options.parse text).Every Q := fun text => Forest.every_ofTrees (hparse text)
  unfold prepare
  generalize (if protection.isActive then [Note.insertsProtected protection.inserts.length] else []) =
    notes
  have hisolated : Forest.Every Q (Isolation.isolate options protection markup.length
      { forest := options.parse markup, notes }).1.forest :=
    Isolation.every_isolate hparse hwrapper markup.length (hparsed markup)
  simp only
  generalize Isolation.isolate options protection markup.length
    { forest := options.parse markup, notes } = isolated at hisolated ⊢
  split
  · exact hparsed _
  · exact hisolated

/-- The attributes of an element have distinct names when the binder comes to it. -/
theorem distinct_prepare (markup : Text) (protection : Protection) {id : NodeId} {name : Text}
    {attrs : Attributes} {children : List NodeId}
    (h : (options.prepare markup protection).forest.content? id =
      some (.element name attrs children)) : attrs.names.Nodup := by
  have hparse : ∀ text, Tree.LabelledAll (Content.Holds fun _ => True)
      (Tree.parse text options.collapses) :=
    fun text => Tree.holds_parse (fun _ _ => trivial) trivial (fun _ _ => trivial) _ _
  have hevery := every_prepare hparse ⟨fun _ _ => trivial, .nil⟩ markup protection
  exact (hevery id _ (Forest.label?_of_content? h)).2.distinct

end Options
end MarkupBinding
