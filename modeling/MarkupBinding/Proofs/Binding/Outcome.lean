import MarkupBinding.Proofs.Isolation.Alone

/-!
# The outcome of a transform

A transform gives new markup for every document, unless isolation leaves it as one bare text with a
binding insert that the protected markup did not hold: the check for bare documents looks at the
markup, and does not see an insert that the parser has put together. The binder then finds no node
to declare the text at.

* `Stranded`: a document that is left with such a text.
* `prepare_anchored`, `prepare_stranded`: what the binder is given.
* `transform_result`: markup for every document that is not stranded, an error for every other.
-/

namespace MarkupBinding.Options

open Outline

variable {options : Options} {html content : Text}

/-- A document behind the isolation pass of a transform. -/
def isolated (options : Options) (html : Text) : Editing Log :=
  let (markup, protection) := options.protect html
  let notes := if protection.isActive then [.insertsProtected protection.inserts.length] else []
  (Isolation.isolate options protection markup.length { forest := options.parse markup, notes }).1

/-- Isolation leaves a document as one bare text with a binding insert, but there is none in the
markup that the document was parsed from. -/
def Stranded (options : Options) (html content : Text) : Prop :=
  ∃ id, (options.isolated html).forest.roots = [id] ∧
    (options.isolated html).forest.text? id = some content ∧
      (BindingInsert.find? options.binding content).isSome = true ∧
        BindingInsert.find? options.binding (options.protect html).1 = none

/-- The isolation pass walks the document to its end. -/
theorem exists_moves_isolated (options : Options) (html : Text) :
    ∃ notes done, Isolation.Moves options (options.protect html).2
      (Isolation.start options html notes) (options.isolated html, ⟨.top done, []⟩) := by
  let notes : Log := if (options.protect html).2.isActive then
    [.insertsProtected (options.protect html).2.inserts.length] else []
  have hfollows : (Isolation.start options html notes).Follows :=
    (Isolation.isolating_start options html notes).follows
  obtain ⟨s, done, hmoves, hend⟩ := @Isolation.exists_finished options (options.protect html).2 _ _
    hfollows (Nat.le_refl _)
  have hisolated : options.isolated html = s :=
    congrArg Prod.fst (hend _ (Isolation.cost_start_lt options html notes))
  rw [← hisolated] at hmoves
  exact ⟨notes, done, hmoves⟩

/-- The binder is given the isolated document, or the wrapped one if it is one bare text and there is
a binding insert in its markup. -/
theorem prepare_eq (options : Options) (html : Text) :
    options.prepare (options.protect html).1 (options.protect html).2 =
      if isBareText (options.isolated html).forest &&
          (BindingInsert.find? options.binding (options.protect html).1).isSome then
        { forest := options.parse (Isolation.wrap (options.protect html).1)
          notes := (options.isolated html).notes ++ [.documentWrapped Isolation.wrapperName] }
      else options.isolated html := rfl

theorem isBareText_iff {f : Forest} :
    isBareText f = true ↔ ∃ id content, f.roots = [id] ∧ f.text? id = some content := by
  unfold isBareText
  split
  · next id hroots => simp [hroots, Option.isSome_iff_exists]
  · next hroots =>
    constructor
    · exact fun h => by cases h
    · rintro ⟨id, content, heq, _⟩
      exact absurd heq (hroots id)

/-- The binder is given a document whose texts are anchored. -/
theorem prepare_anchored (h : ∀ content, ¬ options.Stranded html content) :
    ∃ outlines, (options.prepare (options.protect html).1 (options.protect html).2).forest.Anchored
      options.binding outlines := by
  obtain ⟨notes, done, hmoves⟩ := exists_moves_isolated options html
  rw [prepare_eq]
  split
  · next hwraps =>
    obtain ⟨id, content, hroots, htext⟩ := isBareText_iff.1 (Bool.and_eq_true_iff.1 hwraps).1
    exact ⟨_, Isolation.anchored_wrap (Isolation.isText_of_alone hmoves hroots htext)⟩
  · next hkeeps =>
    rcases Isolation.anchored_or_alone hmoves with hanchored | ⟨id, content, hroots, htext, hfound⟩
    · exact ⟨done, hanchored⟩
    · -- The text is bare, so there is no insert in the markup.
      have hbare : isBareText (options.isolated html).forest = true :=
        isBareText_iff.2 ⟨id, content, hroots, htext⟩
      have hnone : BindingInsert.find? options.binding (options.protect html).1 = none := by
        rw [hbare, Bool.true_and] at hkeeps
        exact Option.not_isSome_iff_eq_none.1 hkeeps
      exact absurd ⟨id, hroots, htext, Option.isSome_iff_ne_none.2 hfound, hnone⟩ (h content)

/-- The binder is given a text that is the whole document. -/
theorem prepare_stranded (h : options.Stranded html content) :
    ∃ id, (options.prepare (options.protect html).1 (options.protect html).2).forest.Follows
        [.node id []] ∧
      (options.prepare (options.protect html).1 (options.protect html).2).forest.text? id =
        some content := by
  obtain ⟨id, hroots, htext, _, hnone⟩ := h
  obtain ⟨notes, done, hmoves⟩ := exists_moves_isolated options html
  have hstart : (Isolation.start options html notes).Follows :=
    (Isolation.isolating_start options html notes).follows
  have hend : (options.isolated html).forest.Follows (done ++ []) :=
    Isolation.Moves.follows hmoves hstart
  rw [prepare_eq, hnone, Option.isSome_none, Bool.and_false]
  exact ⟨id, Isolation.follows_alone hend hroots htext, htext⟩

/-- **The outcome of a transform.** Where no skipped entry is refused, a transform gives markup for
every document that is not stranded, and says which text cannot be declared for every other. -/
theorem transform_result {names : List Text} (hskipped : options.skippedNames = .ok names)
    (html : Text) :
    ((∀ content, ¬ options.Stranded html content) →
      ∃ markup, (options.transform html).result = .ok markup) ∧
    ∀ content, options.Stranded html content →
      (options.transform html).result = .error (.anchor (.missing (.data .text content))) := by
  obtain ⟨b, hbinder, hbinding⟩ : ∃ b, Binder.ofOptions options = .ok b ∧
      b.binding = options.binding := by
    unfold Binder.ofOptions
    rw [hskipped]
    exact ⟨_, rfl, rfl⟩
  constructor
  · intro hnot
    obtain ⟨outlines, hanchored⟩ := prepare_anchored hnot
    rw [← hbinding] at hanchored
    obtain ⟨s, hbind, hbound⟩ := Binder.bind_anchored hanchored
    have hmarkup := Forest.markup_eq hbound.follows hbound.bareless options.xhtml
    unfold transform
    simp only
    rw [hbinder]
    simp only
    rw [hbind]
    simp only
    rw [hmarkup]
    exact ⟨_, rfl⟩
  · intro content hstranded
    obtain ⟨id, hfollows, htext⟩ := prepare_stranded hstranded
    obtain ⟨_, _, _, hfound, _⟩ := hstranded
    rw [← hbinding] at hfound
    have hbind := Binder.bind_alone hfollows htext (Option.isSome_iff_ne_none.1 hfound)
    unfold transform
    simp only
    rw [hbinder]
    simp only
    rw [hbind]

/-- A binding insert that an end tag with a line break goes through is found in the text only. -/
def joinedInsert : Text := "\x7ba</x\n>\x7d".toList

/-- A bare insert is bound; one that the parser puts together is not. -/
theorem transform_result_joinedInsert :
    (∃ markup, (transform {} "\x7ba\x7d".toList).result = .ok markup) ∧
      (transform {} joinedInsert).result = .error (.anchor (.missing (.data .text "\x7ba\x7d".toList))) := by
  have hskipped : skippedNames {} = .ok ["data-bind".toList] := rfl
  refine ⟨(transform_result hskipped "\x7ba\x7d".toList).1 ?_,
    (transform_result hskipped joinedInsert).2 _ ⟨0, ?_⟩⟩
  · rintro content ⟨_, _, _, _, hnone⟩
    have hsome : (BindingInsert.find? ({} : Options).binding
        (protect {} "\x7ba\x7d".toList).1).isSome = true := by decide +kernel
    rw [hnone] at hsome
    cases hsome
  · decide +kernel

/-- Not every document is transformed. -/
theorem transform_fails_of_joinedInsert :
    ¬ ∀ (options : Options) (html : Text), (∃ names, options.skippedNames = .ok names) →
      ∃ markup, (options.transform html).result = .ok markup := by
  intro h
  obtain ⟨markup, hmarkup⟩ := h {} joinedInsert ⟨_, rfl⟩
  have hfails : (transform {} joinedInsert).result.isOk = false := by decide +kernel
  rw [hmarkup] at hfails
  cases hfails

end MarkupBinding.Options
