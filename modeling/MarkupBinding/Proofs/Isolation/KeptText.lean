import MarkupBinding.Proofs.Isolation.Alone
import MarkupBinding.Proofs.Text.Collapsed
import MarkupBinding.Proofs.Tree.Labels
import MarkupBinding.Proofs.Tree.Written

/-!
# Isolation keeps the text

Isolation puts elements around texts. A wrapper adds no text of its own, but a text that is split is
written as markup and parsed again, and then its brackets count. In the document they may have been
text because they stood in a script, or because text from both sides of a dropped end tag was put
together. If no bracket of a split text opens markup, the parts are read as they stand, and the text of
the document stays what it was.

* `parse_fragment`: a text without such brackets falls into its parts.
* `keepsText_moves`: the walk keeps the text of the document.
* `isolation_keepsText`: so does the isolation pass.
-/

namespace MarkupBinding

open Outline

/-! ## The text of a document -/

namespace Tree

mutual

/-- The data of the texts of a tree, in document order. -/
def texts : Tree → List Text
  | .data .text content => [content]
  | .data _ _ => []
  | .element _ _ children => textsAll children

def textsAll : List Tree → List Text
  | [] => []
  | tree :: trees => texts tree ++ textsAll trees

end

theorem textsAll_append (first second : List Tree) :
    textsAll (first ++ second) = textsAll first ++ textsAll second := by
  induction first with
  | nil => rfl
  | cons tree first ih => rw [List.cons_append, textsAll, textsAll, ih, List.append_assoc]

mutual

theorem Labelled.of_mem_texts {Q : Content → Prop} {content : Text} : ∀ {tree : Tree},
    tree.Labelled Q → content ∈ tree.texts → Q (.data .text content)
  | .data kind content, h, hmem => by
    cases kind with
    | text => exact List.mem_singleton.1 hmem ▸ h
    | _ => cases hmem
  | .element name attrs children, h, hmem => LabelledAll.of_mem_textsAll h.2 hmem

/-- Texts are nodes. -/
theorem LabelledAll.of_mem_textsAll {Q : Content → Prop} {content : Text} : ∀ {trees : List Tree},
    LabelledAll Q trees → content ∈ textsAll trees → Q (.data .text content)
  | [], _, hmem => nomatch hmem
  | tree :: trees, h, hmem => by
    rcases List.mem_append.1 hmem with hmem | hmem
    · exact Labelled.of_mem_texts h.1 hmem
    · exact LabelledAll.of_mem_textsAll h.2 hmem

end

mutual

theorem allTexts_of_texts {P : Text → Prop} : ∀ {tree : Tree}, (∀ content ∈ tree.texts, P content) →
    AllTexts P tree
  | .data kind content, h => by
    cases kind with
    | text => exact h content List.mem_cons_self
    | _ => trivial
  | .element name attrs children, h => allTextsAll_of_texts h

/-- What holds of all texts. -/
theorem allTextsAll_of_texts {P : Text → Prop} : ∀ {trees : List Tree},
    (∀ content ∈ textsAll trees, P content) → AllTextsAll P trees
  | [], _ => trivial
  | _ :: _, h =>
    ⟨allTexts_of_texts fun content hmem => h content (List.mem_append_left _ hmem),
      allTextsAll_of_texts fun content hmem => h content (List.mem_append_right _ hmem)⟩

end

theorem textsAll_someText (content : Text) : (textsAll (someText content)).flatten = content := by
  unfold someText
  split
  · next h =>
    rw [h]
    rfl
  · simp [textsAll, texts]

theorem mem_textsAll_someText {content text : Text} (h : text ∈ textsAll (someText content)) :
    text = content := by
  unfold someText at h
  split at h
  · cases h
  · simpa [textsAll, texts] using h

end Tree

namespace Forest

variable {f : Forest}

/-- The text of a document: the data of all its texts, one after another. -/
def documentText (f : Forest) : Except ViewError Text :=
  f.trees.map fun trees => (Tree.textsAll trees).flatten

/-- The texts of an outline, in document order. -/
def textsOf (f : Forest) (outlines : List Outline) : List Text :=
  (namesAll outlines).filterMap f.text?

theorem textsOf_append (f : Forest) (first second : List Outline) :
    f.textsOf (first ++ second) = f.textsOf first ++ f.textsOf second := by
  rw [textsOf, namesAll_append, List.filterMap_append]
  rfl

mutual

theorem texts_treeOf (hbare : f.Bareless) : ∀ outline : Outline,
    (∀ row ∈ outline.rows, f.list row.place = row.ids) → (∀ id ∈ outline.names, id < f.nodes.size) →
      (f.treeOf outline).texts = outline.names.filterMap f.text?
  | .node id children, hrows, hnames => by
    rw [rows] at hrows
    rw [names] at hnames
    have hlist : f.children id = ids children := hrows _ List.mem_cons_self
    have hbelow := textsAll_treesOf hbare children
      (fun row hrow => hrows row (List.mem_cons_of_mem _ hrow))
      (fun other hother => hnames other (List.mem_cons_of_mem _ hother))
    have hleaf : f.children id = [] → children = [] := by
      intro hnil
      rw [hlist] at hnil
      exact List.map_eq_nil_iff.1 hnil
    obtain ⟨content, hcontent⟩ : ∃ content, f.content? id = some content := by
      unfold content?
      rw [Array.getElem?_eq_getElem (hnames id List.mem_cons_self)]
      exact ⟨_, rfl⟩
    rw [treeOf, names, List.filterMap_cons]
    unfold label? text?
    rw [hcontent]
    cases content with
    | element name attrs list => exact hbelow
    | bare label => exact absurd (label?_of_content? hcontent) (hbare id label)
    | data kind content =>
      -- Only elements have children.
      obtain rfl : children = [] := hleaf (by unfold Forest.children; rw [hcontent])
      cases kind <;> rfl

/-- The texts of trees that are read off a forest are those of the outline. -/
theorem textsAll_treesOf (hbare : f.Bareless) : ∀ outlines : List Outline,
    (∀ row ∈ rowsAll outlines, f.list row.place = row.ids) →
      (∀ id ∈ namesAll outlines, id < f.nodes.size) →
        Tree.textsAll (f.treesOf outlines) = f.textsOf outlines
  | [], _, _ => rfl
  | outline :: outlines, hrows, hnames => by
    rw [rowsAll] at hrows
    rw [namesAll] at hnames
    rw [treesOf, Tree.textsAll, textsOf, namesAll, List.filterMap_append,
      texts_treeOf hbare outline (fun row hrow => hrows row (List.mem_append_left _ hrow))
        (fun id hid => hnames id (List.mem_append_left _ hid)),
      textsAll_treesOf hbare outlines (fun row hrow => hrows row (List.mem_append_right _ hrow))
        (fun id hid => hnames id (List.mem_append_right _ hid))]
    rfl

end

/-- The texts of a forest are those of the outline that it follows. -/
theorem textsAll_eq {outlines : List Outline} (h : f.Follows outlines) (hbare : f.Bareless) :
    Tree.textsAll (f.treesOf outlines) = f.textsOf outlines :=
  textsAll_treesOf hbare outlines (fun _ hrow => (h.of_mem_rowsAll hrow).list) h.inTable

theorem documentText_eq {outlines : List Outline} (h : f.Follows outlines) (hbare : f.Bareless) :
    f.documentText = .ok (f.textsOf outlines).flatten := by
  rw [documentText, trees_eq h hbare, ← textsAll_eq h hbare]
  rfl

/-- The texts around the list that is being walked, and those in it. -/
theorem textsOf_fill (f : Forest) (t : Trail) (todo : List Outline) :
    f.textsOf (t.fill todo) =
      t.visited.filterMap f.text? ++ (f.textsOf todo ++ t.laterNames.filterMap f.text?) := by
  rw [textsOf, t.namesAll_fill, List.filterMap_append, List.filterMap_append]
  rfl

end Forest

namespace Isolation

variable {options : Options} {protection : Protection} {content document : Text}
  {found : Text.Found BindingInsert} {a b : Stage}

/-! ## A text that is split -/

/-- A text is split if there is a template insert in it and it is more than its first binding
insert. -/
def isMixed (options : Options) (protection : Protection) (content : Text) : Bool :=
  (BindingInsert.find? options.binding content).any fun found =>
    protection.containsPlaceholder content && !(found.before.isEmpty && found.after.isEmpty)

/-- A text that falls into its parts if it is split: no bracket of it opens markup, and its blanks are
collapsed already where they would be. -/
structure Divisible (options : Options) (protection : Protection) (content : Text) : Prop where
  plain : isMixed options protection content = true → Scanner.IsPlain content
  blanks : options.collapses = true → content.IsCollapsed

/-- The parts of a text without brackets that open markup. -/
theorem Divisible.of_within {part : Text} (hplain : Scanner.IsPlain content)
    (hblanks : options.collapses = true → content.IsCollapsed) (hpart : part <:+: content) :
    Divisible options protection part :=
  ⟨fun _ => List.IsChain.infix hplain hpart, fun hcollapses => (hblanks hcollapses).of_within hpart⟩

/-- What a fragment is read as. -/
def parts (options : Options) (found : Text.Found BindingInsert) : List Tree :=
  Tree.someText found.before ++
    .element wrapperName [] [.text (inner options found)] :: Tree.someText found.after

theorem markupAll_parts (options : Options) (found : Text.Found BindingInsert) :
    Tree.markupAll false (parts options found) = fragment options found := by
  rw [parts, Tree.markupAll_append, Tree.markupAll, Tree.markupAll_someText,
    Tree.markupAll_someText]
  simp [Tree.markup, Tree.markupAll, DataKind.markup, fragment, wrap, inner]

/-- The parts of a text are the text again. -/
theorem flatten_textsAll_parts (hfound : BindingInsert.find? options.binding content = some found) :
    (Tree.textsAll (parts options found)).flatten = content := by
  rw [parts, Tree.textsAll_append, Tree.textsAll, List.flatten_append, List.flatten_append,
    Tree.textsAll_someText, Tree.textsAll_someText, Tree.texts, Tree.textsAll, Tree.texts,
    BindingInsert.eq_append_of_find? hfound]
  simp [Tree.textsAll, inner]

theorem infix_of_mem_parts (hfound : BindingInsert.find? options.binding content = some found)
    {part : Text} (hpart : part ∈ Tree.textsAll (parts options found)) : part <:+: content := by
  have hwhole := BindingInsert.eq_append_of_find? hfound
  rw [parts, Tree.textsAll_append, Tree.textsAll] at hpart
  rcases List.mem_append.1 hpart with hbefore | hpart
  · rw [Tree.mem_textsAll_someText hbefore, hwhole]
    exact ⟨[], _, rfl⟩
  rcases List.mem_append.1 hpart with hinside | hafter
  · rw [Tree.texts, Tree.textsAll, Tree.texts, Tree.textsAll] at hinside
    rw [List.mem_singleton.1 hinside, hwhole]
    exact ⟨found.before, found.after, by simp [inner]⟩
  · rw [Tree.mem_textsAll_someText hafter, hwhole]
    exact ⟨found.before ++ found.hit.markup options.binding, [], by simp⟩

theorem textsApart_parts (options : Options) (found : Text.Found BindingInsert) :
    Tree.TextsApart (parts options found) := by
  unfold parts Tree.someText Tree.TextsApart
  split <;> split <;> simp [Tree.AreApart, Tree.isText]

/-- The wrapper is read back, and so is text in which no bracket opens markup. -/
theorem writtenAll_parts (hinner : inner options found ≠ [])
    (h : ∀ part ∈ Tree.textsAll (parts options found), Scanner.IsPlain part) :
    Tree.WrittenAll false (parts options found) := by
  have hsome : ∀ part, (∀ text ∈ Tree.textsAll (Tree.someText part), Scanner.IsPlain text) →
      Tree.WrittenAll false (Tree.someText part) := by
    intro part hpart
    unfold Tree.someText at hpart ⊢
    split
    · trivial
    · next hne =>
      rw [if_neg hne] at hpart
      exact ⟨⟨hne, hpart part List.mem_cons_self⟩, trivial⟩
  rw [parts, Tree.textsAll_append, List.forall_mem_append, Tree.textsAll, List.forall_mem_append] at h
  obtain ⟨hbefore, hinside, hafter⟩ := h
  have hwrapper : Tree.Written false (.element wrapperName [] [.text (inner options found)]) := by
    have hname : Scanner.IsTagName wrapperName := by decide
    have hclose : Tree.ClosesAsWritten wrapperName [.text (inner options found)] := by
      refine ⟨fun hvoid => absurd hvoid (by decide), fun hnil => ?_⟩
      cases hnil
    have hraw : Element.isRawText wrapperName = false := by decide
    rw [Tree.Written, hraw, if_neg Bool.false_ne_true]
    refine ⟨hname, ⟨List.nodup_nil, List.forall_mem_nil _⟩, hclose, ?_, .singleton _, ?_⟩
    · exact ⟨⟨hinner, hinside _ List.mem_cons_self⟩, trivial⟩
    · intro child hchild
      obtain rfl := List.mem_singleton.1 hchild
      show Element.startEnds wrapperName.lowercase [] = false
      decide
  rw [parts, Tree.writtenAll_append, Tree.WrittenAll]
  exact ⟨hsome _ hbefore, hwrapper, hsome _ hafter⟩

/-- A text falls into its parts if no bracket of it opens markup. -/
theorem parse_fragment (hfound : BindingInsert.find? options.binding content = some found)
    (hplain : Scanner.IsPlain content)
    (hblanks : options.collapses = true → content.IsCollapsed) :
    Tree.parse (fragment options found) options.collapses = parts options found := by
  have hpiece : ∀ part ∈ Tree.textsAll (parts options found), Scanner.IsPlain part ∧
      (options.collapses = true → part.collapse = part) := by
    intro part hpart
    have hin := infix_of_mem_parts hfound hpart
    have hstays : Scanner.IsPlain part := List.IsChain.infix hplain hin
    exact ⟨hstays, fun hcollapses => ((hblanks hcollapses).of_within hin).collapse_eq⟩
  rw [← markupAll_parts]
  exact Tree.parse_markupAll_of_written
    (writtenAll_parts (BindingInsert.markup_ne_nil_of_find? hfound) fun part hpart =>
      (hpiece part hpart).1)
    (textsApart_parts options found)
    (fun hcollapses => Tree.allTextsAll_of_texts fun part hpart => (hpiece part hpart).2 hcollapses)
    false

/-! ## Along the walk -/

/-- A forest in the middle of the walk: its texts are together the text of the document, and fall into
their parts if they are split. -/
structure KeepsText (options : Options) (protection : Protection) (document : Text) (f : Forest)
    (outlines : List Outline) : Prop where
  follows : f.Follows outlines
  bareless : f.Bareless
  text : (f.textsOf outlines).flatten = document
  divisible : ∀ content ∈ f.textsOf outlines, Divisible options protection content

/-- Nodes that come in the place of a text, hold it together and are divisible. -/
theorem keepsText_replaced {f g : Forest} {t : Trail} {id : NodeId} {todo new : List Outline}
    (h : KeepsText options protection document f (t.fill (.node id [] :: todo)))
    (htext : f.text? id = some content) (hlabels : KeepsLabels f g) (hbareless : g.Bareless)
    (hfollows : g.Follows (t.fill (new ++ todo))) (hsame : (g.textsOf new).flatten = content)
    (hdivisible : ∀ part ∈ g.textsOf new, Divisible options protection part) :
    KeepsText options protection document g (t.fill (new ++ todo)) := by
  obtain ⟨hf, _, hdocument, hall⟩ := h
  have hkept : ∀ names : List NodeId,
      (∀ other ∈ names, other ∈ namesAll (t.fill (.node id [] :: todo))) →
        names.filterMap g.text? = names.filterMap f.text? := by
    intro names hnames
    refine List.filterMap_congr fun other hother => ?_
    exact Forest.text?_eq_of_label? (hlabels other (hf.inTable other (hnames other hother)))
  rw [t.namesAll_fill, namesAll] at hkept
  have hfirst := hkept t.visited fun other hother => by simp [hother]
  have hothers : g.textsOf todo = f.textsOf todo :=
    hkept (namesAll todo) fun other hother => by simp [hother]
  have hlater := hkept t.laterNames fun other hother => by simp [hother]
  have hbefore : f.textsOf (.node id [] :: todo) = content :: f.textsOf todo := by
    rw [Forest.textsOf, namesAll, Outline.names, namesAll, List.singleton_append,
      List.filterMap_cons, htext]
    rfl
  rw [Forest.textsOf_fill, hbefore] at hdocument hall
  have hnext := g.textsOf_fill t (new ++ todo)
  rw [Forest.textsOf_append, hfirst, hothers, hlater] at hnext
  refine ⟨hfollows, hbareless, ?_, ?_⟩
  · rw [hnext, ← hdocument]
    simp [hsame]
  · rw [hnext]
    simp only [List.forall_mem_append, List.forall_mem_cons] at hall ⊢
    exact ⟨hall.1, ⟨hdivisible, hall.2.1.2⟩, hall.2.2⟩

/-- Whatever the walk does, the document keeps its text. -/
theorem keepsText_moved (hmoved : Moved options protection a b)
    (h : KeepsText options protection document a.1.forest a.2.whole) :
    KeepsText options protection document b.1.forest b.2.whole := by
  have hbareless := hmoved.bareless h.bareless
  cases hmoved with
  | left =>
    rw [Focus.whole_leave]
    exact h
  | entered isolated =>
    rw [Focus.whole_enter]
    exact h
  | @split s s' t id todo new content found text first mixed labels bare gone follows trees contains =>
    have hmem : content ∈ s.forest.textsOf (t.fill (.node id [] :: todo)) :=
      List.mem_filterMap.2 ⟨id, t.name_mem (.node id []) todo, text⟩
    have hmixed : isMixed options protection content = true := by
      rw [isMixed, first, Option.any_some, contains]
      simpa [imp_iff_not_or] using mixed
    have hplain := (h.divisible content hmem).plain hmixed
    have hblanks := (h.divisible content hmem).blanks
    have htexts : s'.forest.textsOf new = Tree.textsAll (parts options found) := by
      rw [← parse_fragment first hplain hblanks, ← trees]
      refine (Forest.textsAll_treesOf hbareless new ?_ ?_).symm
      · intro row hrow
        refine (follows.stands_below ?_).list
        rw [rowsAll_append]
        exact List.mem_append_left _ hrow
      · intro other hother
        refine follows.inTable other ?_
        rw [t.namesAll_fill, namesAll_append]
        simp [hother]
    refine keepsText_replaced h text labels hbareless follows ?_ ?_
    · rw [htexts, flatten_textsAll_parts first]
    · intro part hpart
      rw [htexts] at hpart
      exact .of_within hplain hblanks (infix_of_mem_parts first hpart)
  | @wrapped s s' t id wrapper todo content text inside labels bare gone follows element =>
    have hmem : id ∈ namesAll (t.fill (.node id [] :: todo)) := t.name_mem (.node id []) todo
    have hkept : s'.forest.text? id = some content :=
      (Forest.text?_eq_of_label? (labels id (h.follows.inTable id hmem))).trans text
    have hwrapper : s'.forest.text? wrapper = none :=
      Forest.text?_eq_none_of_hasPlace ⟨wrapperName, [], element⟩
    have htexts : s'.forest.textsOf [.node wrapper [.node id []]] = [content] := by
      simp [Forest.textsOf, namesAll, Outline.names, hwrapper, hkept]
    refine @keepsText_replaced _ _ _ _ _ _ _ _ _ [.node wrapper [.node id []]] h text labels
      hbareless follows ?_ ?_
    · rw [htexts, List.flatten_singleton]
    · intro part hpart
      rw [htexts] at hpart
      obtain rfl := List.mem_singleton.1 hpart
      exact h.divisible part (List.mem_filterMap.2 ⟨id, hmem, text⟩)

theorem keepsText_moves (hmoves : Moves options protection a b)
    (h : KeepsText options protection document a.1.forest a.2.whole) :
    KeepsText options protection document b.1.forest b.2.whole := by
  induction hmoves with
  | refl => exact h
  | tail _ hmoved ih => exact keepsText_moved hmoved ih

/-- Where blanks are collapsed they are so in all texts that are parsed. -/
theorem isCollapsed_parse {collapses : Bool} (hcollapses : collapses = true) (markup : Text) :
    ∀ content ∈ Tree.textsAll (Tree.parse markup collapses), content.IsCollapsed := by
  subst hcollapses
  have hkept : Builder.KeepsTexts true (fun _ => True) fun label =>
      ∀ content, label = .data .text content → content.IsCollapsed := by
    refine ⟨fun content _ kept heq => ?_, fun last content _ _ kept heq => ?_⟩
    · cases heq
      exact Text.isCollapsed_collapse content
    · cases heq
      exact Text.isCollapsed_collapse (last ++ content)
  have htokens : ∀ token ∈ Scanner.tokens markup, token.Labels (fun _ => True) fun label =>
      ∀ content, label = .data .text content → content.IsCollapsed := by
    intro token _
    cases token with
    | data kind content => cases kind <;> first | trivial | exact fun _ heq => by cases heq
    | endOfInput => trivial
    | _ => exact fun _ heq => by cases heq
  exact fun content hmem => (Tree.labelled_parse hkept htokens).of_mem_textsAll hmem content rfl

/-- The walk begins with texts whose blanks are collapsed where they should be. -/
theorem keepsText_start (options : Options) (html : Text) (notes : Log)
    (h : ∀ content ∈ Tree.textsAll (Tree.parse (options.protect html).1 options.collapses),
      isMixed options (options.protect html).2 content = true → Scanner.IsPlain content) :
    KeepsText options (options.protect html).2
      (Tree.textsAll (Tree.parse (options.protect html).1 options.collapses)).flatten
      (start options html notes).1.forest (start options html notes).2.whole := by
  have hfollows := (isolating_start options html notes).follows
  have hbareless := bareless_parse options (options.protect html).1
  have htexts : (start options html notes).1.forest.textsOf (start options html notes).2.whole =
      Tree.textsAll (Tree.parse (options.protect html).1 options.collapses) := by
    have htrees : (start options html notes).1.forest.treesOf (start options html notes).2.whole =
        Tree.parse (options.protect html).1 options.collapses := Forest.treesOf_ofTrees _
    rw [← Forest.textsAll_eq hfollows hbareless, htrees]
  refine ⟨hfollows, hbareless, congrArg List.flatten htexts, ?_⟩
  rw [htexts]
  exact fun content hmem =>
    ⟨h content hmem, fun hcollapses => isCollapsed_parse hcollapses _ content hmem⟩

end Isolation

/-- **Kept text.** If no bracket opens markup in the texts that are split, the text of the document is
at every step of the isolation pass what it was at the beginning. -/
theorem Options.isolation_keepsText (options : Options) (html : Text) (notes : Log) (steps : Nat)
    (h : ∀ content ∈ Tree.textsAll (Tree.parse (options.protect html).1 options.collapses),
      Isolation.isMixed options (options.protect html).2 content = true →
        Scanner.IsPlain content) :
    ∃ text, (options.parse (options.protect html).1).documentText = .ok text ∧
      (options.isolation html notes steps).1.forest.documentText = .ok text := by
  have hstart := Isolation.keepsText_start options html notes h
  obtain ⟨b, hmoves, hstate, _⟩ := @Isolation.walkOn_moves options (options.protect html).2 steps
    (Isolation.start options html notes) hstart.follows
  have hend := Isolation.keepsText_moves hmoves hstart
  have hbefore := Forest.documentText_eq hstart.follows hstart.bareless
  have hafter := Forest.documentText_eq hend.follows hend.bareless
  rw [hstart.text] at hbefore
  rw [hend.text, ← hstate] at hafter
  exact ⟨_, hbefore, hafter⟩

/-- A page with a comparison in a script that is split more than once. -/
def comparingPage : Text :=
  "<script>if (a<1) {x} {{t}} {y}</script><p>{{t}}{x}".toList

theorem Options.isolation_keepsText_comparingPage :
    (∀ content ∈ Tree.textsAll (Tree.parse (Options.protect {} comparingPage).1 false),
      Isolation.isMixed {} (Options.protect {} comparingPage).2 content = true →
        Scanner.IsPlain content) ∧
      ∃ text, (Options.parse {} (Options.protect {} comparingPage).1).documentText = .ok text ∧
        (Options.isolation {} comparingPage [] 40).1.forest.documentText = .ok text := by
  have hplain : ∀ content ∈ Tree.textsAll (Tree.parse (Options.protect {} comparingPage).1 false),
      Isolation.isMixed {} (Options.protect {} comparingPage).2 content = true →
        Scanner.IsPlain content := by decide +kernel
  exact ⟨hplain, Options.isolation_keepsText {} comparingPage [] 40 hplain⟩

/-- A script that holds what would be an end tag elsewhere. -/
def taggedScript : Text := "<script></b {{t}}> {x} {{u}}</script>".toList

/-- The end tag is dropped when the text of the script is split. -/
theorem Options.isolation_losesText_taggedScript :
    (Options.isolation {} taggedScript [] 40).2 = .finished ∧
      (Options.isolation {} taggedScript [] 40).1.forest.documentText.toOption ≠
        (Options.parse {} (Options.protect {} taggedScript).1).documentText.toOption := by
  decide +kernel

end MarkupBinding
