import MarkupBinding.Proofs.Binding.Anchored
import MarkupBinding.Proofs.Isolation.Finishes

/-!
# A document that is one bare text

Isolation takes only texts out of the root list, so a document that ends as one text was nothing but
text from the beginning. No tag of it opens an element then, and if the wrapper's tags are put around
its markup every text stands in the wrapper or behind an element.

* `anchored_or_alone`: an isolated forest has its texts anchored, or is one bare text.
* `isText_of_alone`: the trees of a document that ends as one bare text.
* `anchored_wrap`: the texts of such a document are anchored once it is wrapped.
-/

namespace MarkupBinding.Isolation

open Outline Scanner Scanner.Config

variable {options : Options} {protection : Protection} {a b : Stage}

/-! ## Kinds of nodes along the walk -/

theorem Moved.bareless (hmoved : Moved options protection a b) (h : a.1.forest.Bareless) :
    b.1.forest.Bareless := by
  cases hmoved with
  | left => exact h
  | entered isolated => exact h
  | split text first mixed labels bare gone follows trees =>
    exact fun id label hlabel => h id label (bare id label hlabel)
  | wrapped text inside labels bare gone follows element =>
    exact fun id label hlabel => h id label (bare id label hlabel)

theorem Moves.bareless (hmoves : Moves options protection a b) (h : a.1.forest.Bareless) :
    b.1.forest.Bareless := by
  induction hmoves with
  | refl => exact h
  | tail _ hmoved ih => exact hmoved.bareless ih

/-- A parsed document has no nodes of a kind of its own. -/
theorem bareless_parse (options : Options) (markup : Text) : (options.parse markup).Bareless := by
  intro id label hlabel
  have hempty : Forest.label? {} id = some (.bare label) := Forest.label?_of_graft_bare hlabel
  cases hempty

/-- What is below a root does not matter for the root list. -/
theorem ids_fill_node (t : Trail) (owner : NodeId) (children children' later : List Outline) :
    ids (t.fill (.node owner children :: later)) = ids (t.fill (.node owner children' :: later)) := by
  induction t generalizing owner children children' later with
  | top done => simp [Trail.fill, ids, name]
  | inside outer owner' later' done ih => exact ih owner' _ _ later'

/-- Only the node that is replaced leaves the root list. -/
theorem mem_ids_of_replaced {t : Trail} {id other : NodeId} {new todo : List Outline}
    (hmem : other ∈ ids (t.fill (.node id [] :: todo))) (hne : other ≠ id) :
    other ∈ ids (t.fill (new ++ todo)) := by
  cases t with
  | top done =>
    simp only [Trail.fill, ids_append, List.mem_append] at hmem ⊢
    rcases hmem with hmem | hmem
    · exact .inl hmem
    · rcases List.mem_cons.1 hmem with heq | hmem
      · exact absurd heq hne
      · exact .inr (.inr hmem)
  | inside outer owner later done =>
    rw [Trail.fill] at hmem ⊢
    rwa [ids_fill_node outer owner _ (done ++ (.node id [] :: todo)) later]

/-- A root that is no text stays what it is and where it is. -/
theorem Moved.root_stays (hmoved : Moved options protection a b) (h : a.Follows) {root : NodeId}
    (hroot : root ∈ ids a.2.whole) (hkind : a.1.forest.text? root = none) :
    root ∈ ids b.2.whole ∧ b.1.forest.text? root = none := by
  have hsize : root < a.1.forest.nodes.size := h.inTable root (mem_namesAll_of_mem_ids hroot)
  have hreplaced : ∀ {s s' : Editing Log} {t : Trail} {id : NodeId} {new todo : List Outline}
      {content : Text}, a = (s, ⟨t, .node id [] :: todo⟩) → b = (s', ⟨t, new ++ todo⟩) →
        s.forest.text? id = some content → KeepsLabels s.forest s'.forest →
          root ∈ ids b.2.whole ∧ b.1.forest.text? root = none := by
    rintro s s' t id new todo content rfl rfl htext hlabels
    refine ⟨mem_ids_of_replaced hroot ?_, ?_⟩
    · rintro rfl
      rw [htext] at hkind
      cases hkind
    · exact (Forest.text?_eq_of_label? (hlabels root hsize)).trans hkind
  cases hmoved with
  | @left s outer owner later done =>
    rw [Focus.whole_leave]
    exact ⟨hroot, hkind⟩
  | @entered s t outline todo isolated =>
    rw [Focus.whole_enter]
    exact ⟨hroot, hkind⟩
  | split text first mixed labels bare gone follows trees => exact hreplaced rfl rfl text labels
  | @wrapped s s' t id wrapper todo content text inside labels bare gone follows element =>
    exact @hreplaced _ _ _ _ [.node wrapper [.node id []]] _ _ rfl rfl text labels

theorem Moves.root_stays (hmoves : Moves options protection a b) (h : a.Follows) {root : NodeId}
    (hroot : root ∈ ids a.2.whole) (hkind : a.1.forest.text? root = none) :
    root ∈ ids b.2.whole ∧ b.1.forest.text? root = none := by
  induction hmoves with
  | refl => exact ⟨hroot, hkind⟩
  | tail hmoves hmoved ih => exact hmoved.root_stays (Moves.follows hmoves h) ih.1 ih.2

/-! ## The end of the walk -/

variable {html : Text} {notes : Log} {s : Editing Log} {done : List Outline} {id : NodeId}
  {content : Text}

/-- An isolated forest has its texts anchored, or is one bare text with a binding insert. -/
theorem anchored_or_alone
    (hmoves : Moves options (options.protect html).2 (start options html notes) (s, ⟨.top done, []⟩)) :
    s.forest.Anchored options.binding done ∨
      ∃ id content, s.forest.roots = [id] ∧ s.forest.text? id = some content ∧
        BindingInsert.find? options.binding content ≠ none := by
  have hstart := isolating_start options html notes
  have hend := isolating_moves hmoves hstart
  have hfollows : s.forest.Follows done := by
    have hwhole := hend.follows
    rwa [Focus.whole, Trail.fill, List.append_nil] at hwhole
  by_cases halone : ∃ id content, s.forest.roots = [id] ∧ s.forest.text? id = some content ∧
      BindingInsert.find? options.binding content ≠ none
  · exact .inr halone
  · refine .inl ⟨hfollows, Moves.bareless hmoves (bareless_parse options _), ?_⟩
    intro id hid content htext hfound
    obtain ⟨row, hrow, hmem⟩ := exists_documentRow_of_mem hid
    obtain ⟨found, heq⟩ := Option.ne_none_iff_exists'.1 hfound
    obtain ⟨_, hanchor⟩ := hend.kept id hid content found htext heq
    cases hnode : s.forest.anchor? id with
    | none =>
      have hroots := hfollows.roots_eq_of_anchor?_eq_none hrow hmem hnode
      exact absurd ⟨id, content, hroots, htext, hfound⟩ halone
    | some anchor => exact ⟨anchor, rfl, hanchor anchor hnode⟩

/-- A forest that is one bare text follows an outline of one node. -/
theorem follows_alone (h : s.forest.Follows done) (hroots : s.forest.roots = [id])
    (htext : s.forest.text? id = some content) : s.forest.Follows [.node id []] := by
  have hids : ids done = [id] := h.roots.symm.trans hroots
  obtain ⟨outline, rfl, rfl⟩ := List.map_eq_singleton_iff.1 hids
  have hleaf := @eq_leaf_of_text? s (.top []) outline [] h _ htext
  rwa [← hleaf]

/-- A document that ends as one bare text was nothing but text. -/
theorem isText_of_alone
    (hmoves : Moves options (options.protect html).2 (start options html notes) (s, ⟨.top done, []⟩))
    (hroots : s.forest.roots = [id]) (htext : s.forest.text? id = some content) :
    ∀ tree ∈ Tree.parse (options.protect html).1 options.collapses, tree.isText = true := by
  have hstart : (start options html notes).Follows := (isolating_start options html notes).follows
  have hend : s.forest.Follows (done ++ []) := Moves.follows hmoves hstart
  intro tree htree
  rw [← Forest.treesOf_ofTrees (Tree.parse (options.protect html).1 options.collapses),
    Forest.treesOf_eq_map] at htree
  obtain ⟨outline, houtline, rfl⟩ := List.mem_map.1 htree
  cases hkind : (options.parse (options.protect html).1).text? outline.name with
  | some content => exact Forest.isText_treeOf (Option.isSome_iff_exists.2 ⟨content, hkind⟩)
  | none =>
    -- A root that is no text would still be there.
    have hroot : outline.name ∈ ids (start options html notes).2.whole :=
      List.mem_map_of_mem houtline
    obtain ⟨hmem, hnone⟩ := Moves.root_stays hmoves hstart hroot hkind
    have hmem : outline.name ∈ ids (done ++ []) := hmem
    rw [← hend.roots, hroots, List.mem_singleton] at hmem
    rw [hmem, htext] at hnone
    cases hnone

/-! ## The wrapped document -/

theorem tokens_wrap (markup : Text) :
    tokens (wrap markup) = .startTag wrapperName [] ::
      run false ⟨.data, [], markup ++ endTagMarkup wrapperName⟩ := by
  have hname : IsTagName wrapperName := by decide
  have hrun := @run_startTag false wrapperName [] ['>'] hname ⟨List.nodup_nil, by simp⟩ (.inl rfl) []
    (markup ++ endTagMarkup wrapperName)
  have hmarkup : wrap markup =
      startTagMarkup wrapperName [] ++ ['>'] ++ (markup ++ endTagMarkup wrapperName) := by
    simp [wrap]
  rw [tokens, hmarkup, hrun]
  rfl

/-- In a wrapped document of texts every text is anchored. -/
theorem anchored_wrap {markup : Text}
    (h : ∀ tree ∈ Tree.parse markup options.collapses, tree.isText = true) :
    (options.parse (wrap markup)).Anchored options.binding
      (Tree.outlineAll 0 (Tree.parse (wrap markup) options.collapses)) := by
  have hname : IsTagName wrapperName := by decide
  have hadds : ∀ token ∈ run false ⟨.data, [], markup⟩, token.adds = false :=
    Tree.adds_eq_false_of_parse h
  have hfirst := run_extended hname ⟨.data, [], markup⟩ (fun _ => Mode.noConfusion) hadds
  obtain ⟨hbacked, hhead⟩ := Tree.backed_parse (tokens_wrap markup) hname.ne_nil hfirst
    options.collapses
  have hfollows := Forest.follows_ofTrees (Tree.parse (wrap markup) options.collapses)
  have htrees := Forest.treesOf_ofTrees (Tree.parse (wrap markup) options.collapses)
  rw [← htrees] at hbacked hhead
  exact Forest.anchored_of_backed hfollows (bareless_parse options _) hbacked hhead

end MarkupBinding.Isolation
