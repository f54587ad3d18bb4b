import MarkupBinding.Proofs.Binding.Outcome
import MarkupBinding.Proofs.Isolation.Nodes

/-!
# Documents without bindings

Three scans look for binding inserts: isolation goes through the texts, the bare-text check through the
markup, and the binder through texts and attribute values. What they read comes from the markup, and
the blanks that are collapsed become spaces. So where the markup lacks the first character of the
opening delimiter, and that is no blank, none of them finds anything and the document is only parsed
and written again.

* `Unbound`: a node in which the scans find nothing.
* `Binder.bind_of_unbound`, `Isolation.isolate_of_unbound`: the two walks leave such nodes alone.
* `transform_untouched`: the whole transform.
-/

namespace MarkupBinding

/-- Where the scans look, a node holds no binding insert. -/
def Content.Unbound (d : Delimiters) : Content → Prop
  | .element _ attrs _ => ∀ entry ∈ attrs, BindingInsert.find? d entry.2 = none
  | .data .text content => BindingInsert.find? d content = none
  | _ => True

/-- A node without a character of the opening delimiter. -/
theorem Content.unbound_of_sourced {d : Delimiters} {c : Char} (hc : c ∈ d.opening)
    {content : Content} (h : content.Sourced (· ≠ c)) : content.Unbound d := by
  have hnone : ∀ text : Text, text.Holds (· ≠ c) → BindingInsert.find? d text = none :=
    fun text htext => BindingInsert.find?_eq_none_of_notMem hc fun hmem => htext _ hmem rfl
  cases content with
  | element name attrs children => exact fun entry hentry => hnone _ (h entry hentry)
  | data kind content =>
    cases kind with
    | text => exact hnone _ h
    | _ => trivial
  | bare label => trivial

/-! ## The walks -/

namespace Binder

variable {b : Binder} {s : Editing Log}

theorem binding_of_ofOptions {options : Options} (h : ofOptions options = .ok b) :
    b.binding = options.binding := by
  unfold ofOptions at h
  cases hskipped : options.skippedNames with
  | error error =>
    rw [hskipped] at h
    cases h
  | ok names =>
    rw [hskipped] at h
    cases h
    rfl

theorem bindAttribute_of_unbound (h : s.forest.Every (Content.Unbound b.binding)) (id : NodeId)
    (name : Text) : b.bindAttribute id s name = (s, false) := by
  have hnone : (attributeValue? s.forest id name).bind b.synthesis? = none := by
    cases hvalue : attributeValue? s.forest id name with
    | none => rfl
    | some value =>
      -- The value is one of the node's, so nothing is found in it.
      refine synthesis?_eq_none_iff.2 ?_
      unfold attributeValue? at hvalue
      split at hvalue
      · next hcontent => exact h id _ (Forest.label?_of_content? hcontent) _ (Entries.mem_of_get? hvalue)
      · cases hvalue
  unfold bindAttribute
  rw [hnone]
  split <;> rfl

/-- A visit of a node without binding inserts. -/
theorem visitor_of_unbound (h : s.forest.Every (Content.Unbound b.binding)) (visit : Visit) :
    b.visitor visit s = (s, none) := by
  unfold visitor
  split
  · split
    · have hattributes : (b.bindAttributes visit.node s).1 = s := by
        rw [bindAttributes_fst]
        generalize attributeNames s.forest visit.node = names
        induction names with
        | nil => rfl
        | cons name names ih =>
          rw [List.foldl_cons, bindAttribute_of_unbound h]
          exact ih
      rw [hattributes]
    · rfl
  · next content hcontent =>
    have hnone : b.synthesis? content = none :=
      synthesis?_eq_none_iff.2 (h _ _ (Forest.label?_of_content? hcontent))
    unfold bindText
    rw [hcontent]
    simp only
    rw [hnone]
  · rfl

/-- The binder leaves a document without binding inserts as it is. -/
theorem bind_of_unbound {outlines : List Outline} (hfollows : s.forest.Follows outlines)
    (h : s.forest.Every (Content.Unbound b.binding)) : b.bind s = (s, .finished) := by
  obtain ⟨s', hbind, rfl⟩ := @bind_to_end b s outlines (fun _ s' => s' = s)
    (fun heq => heq ▸ hfollows)
    (fun _ heq => ⟨s, by rw [heq, visitor_of_unbound h], rfl⟩) rfl
  exact hbind

end Binder

/-- So does isolation. -/
theorem Isolation.isolate_of_unbound {options : Options} {s : Editing Log}
    (h : s.forest.Every (Content.Unbound options.binding)) (protection : Protection) (length : Nat) :
    (isolate options protection length s).1 = s := by
  refine Forest.walkFrom_keeps (P := fun s' => s' = s) ?_ _ _ rfl
  rintro visit s' rfl
  unfold visitor
  split
  · rfl
  · next content htext =>
    rw [show BindingInsert.find? options.binding content = none from
      h _ _ (Forest.label?_of_text? htext)]

namespace Options

variable {options : Options} {markup : Text} {c : Char}

/-- A parsed document is written as its trees are. -/
theorem markup_parse (options : Options) (markup : Text) (xhtml : Bool) :
    (options.parse markup).markup xhtml =
      .ok (Tree.markupAll xhtml (Tree.parse markup options.collapses)) := by
  have hfollows : (options.parse markup).Follows
      (Tree.outlineAll 0 (Tree.parse markup options.collapses)) := Forest.follows_ofTrees _
  rw [Forest.markup_eq hfollows (Isolation.bareless_parse options markup)]
  exact congrArg _ (congrArg _ (Forest.treesOf_ofTrees _))

/-- The steps that come before the walks. -/
def firstNotes (protection : Protection) : Log :=
  if protection.isActive then [.insertsProtected protection.inserts.length] else []

/-- Where the markup lacks a character of the opening delimiter, no text and no value gets it. -/
theorem every_parse_unbound (hc : c ∈ options.binding.opening) (hblank : Text.isBlank c = false)
    (h : c ∉ markup) : (options.parse markup).Every (Content.Unbound options.binding) := by
  have hholds : markup.Holds (· ≠ c) := fun d hd heq => h (heq ▸ hd)
  have hspace : ' ' ≠ c := by
    rintro rfl
    cases hblank
  have htrees := Tree.sourced_parse hspace hholds options.collapses false
  exact fun id label hlabel =>
    Content.unbound_of_sourced hc (Forest.every_ofTrees htrees id label hlabel)

/-- Such markup is only parsed. -/
theorem prepare_of_unbound (hc : c ∈ options.binding.opening) (hblank : Text.isBlank c = false)
    (h : c ∉ markup) (protection : Protection) :
    options.prepare markup protection =
      { forest := options.parse markup, notes := firstNotes protection } := by
  have hnone : BindingInsert.find? options.binding markup = none :=
    BindingInsert.find?_eq_none_of_notMem hc h
  have hisolated : (Isolation.isolate options protection markup.length
      { forest := options.parse markup, notes := firstNotes protection }).1 =
        { forest := options.parse markup, notes := firstNotes protection } :=
    @Isolation.isolate_of_unbound options
      { forest := options.parse markup, notes := firstNotes protection }
      (every_parse_unbound hc hblank h) protection _
  unfold prepare
  rw [← firstNotes]
  simp only
  rw [hisolated, hnone, Option.isSome_none]
  exact if_neg (by simp)

/-- **A document without bindings.** Where the protected markup lacks the first character of the opening
delimiter, and that is no blank, the transform gives what the markup is parsed to, written again with
its template inserts in their places. Neither walk changes a node, and nothing is wrapped or declared. -/
theorem transform_untouched {names : List Text} (hskipped : options.skippedNames = .ok names)
    {opening : Text} (hopening : options.binding.opening = c :: opening)
    (hblank : Text.isBlank c = false) {html : Text} (h : c ∉ (options.protect html).1) :
    (options.transform html).result = .ok ((options.protect html).2.restore
        (Tree.markupAll options.xhtml
          (Tree.parse (options.protect html).1 options.collapses))) ∧
      (options.transform html).log = firstNotes (options.protect html).2 ∧
      (options.prepare (options.protect html).1 (options.protect html).2).forest =
        options.parse (options.protect html).1 ∧
      ∀ b, Binder.ofOptions options = .ok b →
        b.bind (options.prepare (options.protect html).1 (options.protect html).2) =
          (options.prepare (options.protect html).1 (options.protect html).2, .finished) := by
  have hc : c ∈ options.binding.opening := by
    rw [hopening]
    exact List.mem_cons_self
  have hprepared := prepare_of_unbound hc hblank h (options.protect html).2
  have hbind : ∀ b, Binder.ofOptions options = .ok b →
      b.bind (options.prepare (options.protect html).1 (options.protect html).2) =
        (options.prepare (options.protect html).1 (options.protect html).2, .finished) := by
    intro b hb
    rw [hprepared]
    exact Binder.bind_of_unbound (Forest.follows_ofTrees _)
      (Binder.binding_of_ofOptions hb ▸ every_parse_unbound hc hblank h)
  -- The skipped names are valid, so there is a binder.
  obtain ⟨b, hb⟩ : ∃ b, Binder.ofOptions options = .ok b := by
    unfold Binder.ofOptions
    rw [hskipped]
    exact ⟨_, rfl⟩
  have htransform : options.transform html = ⟨firstNotes (options.protect html).2,
      .ok ((options.protect html).2.restore (Tree.markupAll options.xhtml
        (Tree.parse (options.protect html).1 options.collapses)))⟩ := by
    unfold transform
    simp only
    rw [hb]
    simp only
    rw [hbind b hb, hprepared]
    simp only
    rw [markup_parse]
  rw [htransform]
  exact ⟨rfl, rfl, by rw [hprepared], hbind⟩

/-- Binding inserts between brackets, and markup that closes its void elements. -/
def bracketed : Options := { binding := ⟨"[[".toList, "]]".toList⟩, xhtml := true }

/-- Inserts of other sorts are left where they are. -/
theorem transform_untouched_bracketed :
    '[' ∉ (bracketed.protect "<p title={a}>b {{c}}<br><!--d--> e".toList).1 ∧
      (bracketed.transform "<p title={a}>b {{c}}<br><!--d--> e".toList).result =
        .ok "<p title=\"{a}\">b {{c}}<br /><!--d--> e</p>".toList := by
  have hbracket : '[' ∉ (bracketed.protect "<p title={a}>b {{c}}<br><!--d--> e".toList).1 := by
    decide +kernel
  have hskipped : bracketed.skippedNames = .ok ["data-bind".toList] := rfl
  refine ⟨hbracket, ?_⟩
  rw [(transform_untouched hskipped rfl (by decide) hbracket).1]
  exact congrArg _ (by decide +kernel)

end Options
end MarkupBinding
