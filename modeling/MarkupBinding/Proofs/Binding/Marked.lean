import MarkupBinding.Proofs.Binding.Effect
import MarkupBinding.Proofs.Tree.Labels

/-!
# Double marks in the binding attribute

Attribute values are written between double marks, so a declaration must not have any. Expressions have
none, whatever the text holds that they are made from. But the name of an attribute goes into its
declaration as it is, and the name of an attribute may have a double mark.

* `Unmarked`: no value of the binding attribute has a double mark.
* `NamesUnmarked`: nor does the name of an attribute that will be bound.
* `Bound.unmarked`, `Bound.namesUnmarked`: the declarations bring in the marks of the names, and no others.
* `unmarked_bind`: the binder on a parsed document, however it ends.
-/

namespace MarkupBinding.Binder

open Outline

variable {b : Binder} {f g : Forest} {visited : List NodeId}

/-- No value of the binding attribute in a document has a double mark. -/
def Unmarked (b : Binder) (f : Forest) : Prop :=
  ∀ id, f.InDocument id → ∀ name attrs children,
    f.content? id = some (.element name attrs children) →
      ∀ value, (b.target, value) ∈ attrs → Text.doubleMark ∉ value

/-- No attribute of a document that holds a binding insert and is searched for one has a double mark in
its name. -/
def NamesUnmarked (b : Binder) (f : Forest) : Prop :=
  ∀ id, f.InDocument id → ∀ name attrs children,
    f.content? id = some (.element name attrs children) → Element.Kind.ofName name = .tag →
      ∀ key value, (key, value) ∈ attrs → key ∉ b.skipped →
        BindingInsert.find? b.binding value ≠ none → Text.doubleMark ∉ key

/-! ## Declarations -/

theorem doubleMark_notMem_expression {text : Text} {synthesis : Synthesis}
    (h : b.synthesis? text = some synthesis) : Text.doubleMark ∉ synthesis.expression := by
  unfold synthesis? at h
  simp only at h
  split at h
  · cases h
  · cases h
    exact Synthesis.doubleMark_notMem_protectMarks _

/-- A declaration has the double marks of its handler, and no others. -/
theorem doubleMark_mem_declaration?_iff {handler : Handler} {text declaration : Text}
    (h : b.declaration? handler text = some declaration) :
    Text.doubleMark ∈ declaration ↔ Text.doubleMark ∈ handler.markup := by
  obtain ⟨synthesis, hsynthesis, rfl⟩ := Option.map_eq_some_iff.1 h
  have hexpression := doubleMark_notMem_expression hsynthesis
  have hcolon : Text.doubleMark ≠ ':' := by decide
  unfold Handler.declaration
  simp [hexpression, hcolon]

theorem doubleMark_mem_markup_ofAttribute_iff (key : Text) :
    Text.doubleMark ∈ (Handler.ofAttribute key).markup ↔ Text.doubleMark ∈ key := by
  unfold Handler.ofAttribute
  split
  · next heq =>
    rw [heq]
    decide
  · show Text.doubleMark ∈ "attr(".toList ++ key ++ [')'] ↔ _
    simp [Text.doubleMark]

/-- What a node declares has no double mark if the names of its attributes have none. -/
theorem doubleMark_notMem_declaredAt (hnames : b.NamesUnmarked f) {element id : NodeId}
    (hin : f.InDocument id) :
    ∀ declaration ∈ b.declaredAt f element id, Text.doubleMark ∉ declaration := by
  intro declaration hmem
  rcases eq_of_mem_declaredAt hmem with ⟨name, attrs, children, hcontent, htag, hown⟩ |
    ⟨content, _, hdeclaration⟩
  · obtain ⟨key, value, hentry, hskip, hdeclaration⟩ := mem_ownDeclarations_iff.1 hown
    have hfound : BindingInsert.find? b.binding value ≠ none := by
      intro hnone
      rw [declaration?, synthesis?_eq_none_iff.2 hnone] at hdeclaration
      cases hdeclaration
    rw [doubleMark_mem_declaration?_iff hdeclaration, doubleMark_mem_markup_ofAttribute_iff]
    exact hnames id hin name attrs children hcontent htag key value hentry hskip hfound
  · rw [doubleMark_mem_declaration?_iff hdeclaration]
    exact Handler.notMem_markup (by decide) fun name hattr =>
      absurd hattr (Handler.ofLinks_ne_attr _ name)

/-! ## Documents -/

/-- What has become of an element. -/
theorem Bound.content_element (h : b.Bound f visited g) {id : NodeId} {name : Text}
    {attrs : Attributes} {children : List NodeId}
    (hcontent : f.content? id = some (.element name attrs children)) :
    g.content? id = some (.element name (b.withDeclarations
      (if decide (id ∈ visited) && Element.Kind.ofName name = .tag then b.boundAttributes attrs
        else attrs) (visited.flatMap (b.declaredAt f id))) children) := by
  rw [h.content, hcontent]
  rfl

/-- The binding attribute is skipped, so its value stays. -/
theorem mem_of_mem_boundAttributes (htarget : b.target ∈ b.skipped) {attrs : Attributes} {value : Text}
    (h : (b.target, value) ∈ b.boundAttributes attrs) : (b.target, value) ∈ attrs := by
  obtain ⟨⟨key, before⟩, hmem, heq⟩ := List.mem_map.1 h
  obtain ⟨rfl, hvalue⟩ := Prod.mk.inj heq
  rw [if_pos (List.contains_iff_mem.2 htarget)] at hvalue
  rw [← hvalue]
  exact hmem

/-- No double mark comes into a binding attribute if the names have none. -/
theorem Bound.unmarked (h : b.Bound f visited g) (htarget : b.target ∈ b.skipped)
    (hvisited : ∀ id ∈ visited, f.InDocument id) (hbefore : b.Unmarked f)
    (hnames : b.NamesUnmarked f) : b.Unmarked g := by
  intro id hin name attrs children hcontent value hvalue
  have hin := h.shape.inDocument_iff.1 hin
  obtain ⟨before, hwas, hrewrite⟩ := Option.map_eq_some_iff.1 ((h.content id).symm.trans hcontent)
  obtain ⟨name', attrs', children', rfl⟩ := element_of_rewrite hrewrite
  have hold : ∀ {value}, (b.target, value) ∈ (if decide (id ∈ visited) &&
      Element.Kind.ofName name' = .tag then b.boundAttributes attrs' else attrs') →
        Text.doubleMark ∉ value := by
    intro value hmem
    refine hbefore id hin name' attrs' children' hwas value ?_
    split at hmem
    · exact mem_of_mem_boundAttributes htarget hmem
    · exact hmem
  have hcontent' := h.content_element hwas
  rw [hcontent] at hcontent'
  obtain ⟨_, hattrs, _⟩ := Content.element.inj (Option.some.inj hcontent')
  rw [hattrs] at hvalue
  unfold withDeclarations at hvalue
  split at hvalue
  · exact hold hvalue
  · rcases Entries.mem_of_mem_set hvalue with heq | hmem
    · rw [(Prod.mk.inj heq).2]
      refine notMem_joined (by decide) (fun value hget => hold (Entries.mem_of_get? hget)) ?_
      intro declaration hmem
      obtain ⟨other, hother, hdeclared⟩ := List.mem_flatMap.1 hmem
      exact doubleMark_notMem_declaredAt hnames (hvisited other hother) declaration hdeclared
    · exact hold hmem

/-- The names of all attributes that were bound are in the binding attributes. -/
theorem Bound.namesUnmarked {outlines : List Outline} (hfollows : f.Follows outlines)
    (h : b.Bound f (namesAll outlines) g) (hafter : b.Unmarked g) : b.NamesUnmarked f := by
  intro id hin name attrs children hcontent htag key value hentry hskip hfound hmark
  obtain ⟨synthesis, hsynthesis⟩ : ∃ synthesis, b.synthesis? value = some synthesis :=
    Option.ne_none_iff_exists'.1 fun hnone => hfound (synthesis?_eq_none_iff.1 hnone)
  have hdeclaration : b.declaration? (.ofAttribute key) value =
      some ((Handler.ofAttribute key).declaration synthesis.expression) := by
    rw [declaration?, hsynthesis]
    rfl
  have hown := mem_ownDeclarations_iff.2 ⟨key, value, hentry, hskip, hdeclaration⟩
  have hmem : (Handler.ofAttribute key).declaration synthesis.expression ∈
      (namesAll outlines).flatMap (b.declaredAt f id) := by
    refine List.mem_flatMap.2 ⟨id, hfollows.inDocument_iff.1 hin, ?_⟩
    rw [declaredAt, if_pos rfl, elementDeclarations, hcontent]
    simp only
    rw [if_pos htag]
    exact hown
  have hmarked := (doubleMark_mem_declaration?_iff hdeclaration).2
    ((doubleMark_mem_markup_ofAttribute_iff key).2 hmark)
  exact hafter id (h.shape.inDocument_iff.2 hin) _ _ _ (h.content_element hcontent) _
    (joined_mem_withDeclarations (List.ne_nil_of_mem hmem)) (mem_joined hmem hmarked)

/-! ## Parsed documents -/

/-- The attributes of a parsed element have distinct names. -/
theorem distinct_parse (html : Text) (collapses sections : Bool) {id : NodeId} {name : Text}
    {attrs : Attributes} {children : List NodeId}
    (h : (Forest.ofTrees (Tree.parse html collapses sections)).content? id =
      some (.element name attrs children)) : attrs.names.Nodup := by
  have hholds : Tree.LabelledAll (Content.Holds fun _ => True) (Tree.parse html collapses sections) :=
    Tree.holds_parse (fun _ _ => trivial) trivial (fun _ _ => trivial) collapses sections
  exact (Forest.every_ofTrees hholds id _ (Forest.label?_of_content? h)).2.distinct

/-- **Declarations between double marks.** Let no value of the binding attribute have a double mark in a
parsed document. If no attribute that will be bound has one in its name, no value of the binding
attribute has one when the binder has come to the end of the document, or has given up. Where it comes
to the end, the names are all that matters. -/
theorem unmarked_bind {options : Options} (hoptions : ofOptions options = .ok b) (html : Text)
    (collapses sections : Bool) (notes : Log)
    (hbefore : b.Unmarked (Forest.ofTrees (Tree.parse html collapses sections))) :
    let s : Editing Log := ⟨Forest.ofTrees (Tree.parse html collapses sections), notes⟩
    (b.bind s).2 ≠ .exhausted ∧
      (b.NamesUnmarked s.forest → b.Unmarked (b.bind s).1.forest) ∧
      ((b.bind s).2 = .finished → b.Unmarked (b.bind s).1.forest → b.NamesUnmarked s.forest) := by
  intro s
  have htarget := target_mem_skipped hoptions
  have hfollows : s.forest.Follows _ := Forest.follows_ofTrees _
  have hdistinct : ∀ id, s.forest.InDocument id → ∀ name attrs children,
      s.forest.content? id = some (.element name attrs children) → attrs.names.Nodup :=
    fun id _ name attrs children => distinct_parse html collapses sections
  rcases bound_along htarget hfollows hdistinct with ⟨s', hbound, hbind⟩ |
    ⟨s', error, ⟨visited, _, _, hbound, hvisited, _⟩, hbind⟩
  · rw [hbind]
    refine ⟨nofun, ?_, fun _ => hbound.namesUnmarked hfollows⟩
    exact hbound.unmarked htarget (fun id hid => hfollows.inDocument_iff.2 hid) hbefore
  · rw [hbind]
    refine ⟨nofun, ?_, nofun⟩
    exact hbound.unmarked htarget (fun id hid => hfollows.inDocument_iff.2 (hvisited id hid)) hbefore

/-- A paragraph with an attribute. -/
def paragraph (key value : Text) : Forest := ⟨#[⟨.element ['p'] [(key, value)] [], {}⟩], [0]⟩

theorem unmarked_paragraph {key : Text} (h : key ≠ b.target) (value : Text) :
    b.Unmarked (paragraph key value) := by
  intro id _ name attrs children hcontent other hother
  match id with
  | 0 =>
    cases hcontent
    exact absurd (Prod.mk.inj (List.mem_singleton.1 hother)).1.symm h
  | _ + 1 => cases hcontent

/-- A title with double marks around a binding insert. -/
def quotedTitle : Text := "<p title='\"\x7ba\x7d\"'>".toList

theorem unmarked_bind_quotedTitle :
    let s : Editing Log := ⟨Forest.ofTrees (Tree.parse quotedTitle false false), []⟩
    ofOptions {} = .ok plain ∧ plain.Unmarked s.forest ∧ plain.NamesUnmarked s.forest ∧
      plain.Unmarked (plain.bind s).1.forest := by
  intro s
  have hparse : s.forest = paragraph "title".toList "\"\x7ba\x7d\"".toList := by decide +kernel
  have hbefore : plain.Unmarked s.forest := by
    rw [hparse]
    exact unmarked_paragraph (by decide) _
  have hnames : plain.NamesUnmarked s.forest := by
    rw [hparse]
    intro id _ name attrs children hcontent _ key value hentry _ _
    match id with
    | 0 =>
      cases hcontent
      rw [(Prod.mk.inj (List.mem_singleton.1 hentry)).1]
      decide
    | _ + 1 => cases hcontent
  have hoptions : ofOptions {} = .ok plain := rfl
  have hafter := (unmarked_bind hoptions quotedTitle false false [] hbefore).2.1 hnames
  exact ⟨hoptions, hbefore, hnames, hafter⟩

/-- The name of an attribute with a binding insert has a double mark. -/
def markedName : Text := "<p x\"=\x7ba\x7d>".toList

/-- The double mark of a name comes into the binding attribute. -/
theorem not_unmarked_bind_markedName :
    ¬ ∀ (options : Options) (b : Binder), ofOptions options = .ok b → ∀ (html : Text) (notes : Log),
      b.Unmarked (Forest.ofTrees (Tree.parse html false false)) →
        b.Unmarked (b.bind ⟨Forest.ofTrees (Tree.parse html false false), notes⟩).1.forest := by
  intro h
  have hparse : Forest.ofTrees (Tree.parse markedName false false) =
      paragraph "x\"".toList "\x7ba\x7d".toList := by decide +kernel
  have hafter := h {} plain rfl markedName [] (by
    rw [hparse]
    exact unmarked_paragraph (by decide) _)
  rw [hparse] at hafter
  have hcontent : (plain.bind ⟨paragraph "x\"".toList "\x7ba\x7d".toList, []⟩).1.forest.content? 0 =
      some (.element ['p'] [("x\"".toList, "\x7b\x7ba\x7d\x7d".toList),
        ("data-bind".toList, "attr(x\"):this.a".toList)] []) := by decide +kernel
  have hin : (plain.bind ⟨paragraph "x\"".toList "\x7ba\x7d".toList, []⟩).1.forest.InDocument 0 :=
    ⟨.roots, .roots, by decide +kernel⟩
  exact hafter 0 hin _ _ _ hcontent "attr(x\"):this.a".toList
    (List.mem_cons_of_mem _ List.mem_cons_self) (by decide)

end MarkupBinding.Binder
