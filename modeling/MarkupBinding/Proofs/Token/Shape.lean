import MarkupBinding.Proofs.Entries
import MarkupBinding.Proofs.Text.Mark
import MarkupBinding.Proofs.Token.Tag

/-!
# The shape of tokens

A scanner reads names up to what ends them and data up to what closes them. So the names in its tokens
are names, an attribute value lacks what would have ended it, no text is empty, and a comment, a
directive or a marked section holds nothing that closes it. Two things do not come out in a shape that
could be read again: an attribute value may hold a double mark, and a marked section that is read as a
comment may hold what closes a comment.

* `Token.Formed`: the shape.
* `formed_step`: one step.
* `formed_tokens`: the tokens of a text.
-/

namespace MarkupBinding.Scanner

/-- A value that an attribute can be given. Between marks it lacks the mark; without marks it does not
begin with one and lacks what ends it. -/
def IsValue (value : Text) : Prop :=
  Text.doubleMark ∉ value ∨ Text.singleMark ∉ value ∨
    (∀ c ∈ value, endsBareValue c = false) ∧ ∀ c ∈ value.head?, isMark c = false

theorem isValue_nil : IsValue [] := .inl List.not_mem_nil

/-- Attributes whose names are names. -/
def NamesFormed (attrs : Attributes) : Prop := ∀ attr ∈ attrs, IsAttributeName attr.1

/-- Attributes as they are read: their names are names and differ, and their values are values. -/
structure AttributesFormed (attrs : Attributes) : Prop where
  names : NamesFormed attrs
  distinct : attrs.names.Nodup
  values : ∀ attr ∈ attrs, IsValue attr.2

theorem AttributesFormed.nil : AttributesFormed [] :=
  ⟨List.forall_mem_nil _, List.nodup_nil, List.forall_mem_nil _⟩

/-- A token as it comes from a scan. -/
def Token.Formed (sections : Bool) : Token → Prop
  | .startTag name attrs | .endTag name attrs => IsTagName name ∧ AttributesFormed attrs
  | .data .text content => content ≠ []
  | .data .comment content => Config.IsContent .comment content ∨
      ∃ inside, content = Config.sectionOpening ++ inside ++ "]]".toList ∧
        ¬ Config.sectionClosing <:+: inside
  | .data .cdata content => sections = true ∧ Config.IsContent .cdata content
  | .data .directive content => Config.IsContent .directive content
  | .endOfInput => True

structure Draft.Formed (draft : Draft) : Prop where
  name : IsTagName draft.name
  attrs : AttributesFormed draft.attrs

/-- One more attribute is added unless there is one of its name. -/
theorem Draft.Formed.add {draft : Draft} (h : draft.Formed) {name value : Text}
    (hname : IsAttributeName name) (hvalue : IsValue value) : (draft.add name value).Formed := by
  refine ⟨h.name, fun attr hattr => ?_, Entries.nodup_names_insertNew h.attrs.distinct name value,
    fun attr hattr => ?_⟩
  · rcases Entries.mem_of_mem_insertNew hattr with hattr | rfl
    · exact h.attrs.names attr hattr
    · exact hname
  · rcases Entries.mem_of_mem_insertNew hattr with hattr | rfl
    · exact h.attrs.values attr hattr
    · exact hvalue

/-- What a mode remembers, and what it knows of the text still to be read. -/
def Mode.Formed (rest : Text) : Mode → Prop
  | .tagName _ => (rest.head?.any Text.isLetter) = true
  | .beforeAttribute draft | .selfClosing draft => draft.Formed
  | .attributeName draft => draft.Formed ∧ ∀ c ∈ rest.head?, endsName c = false
  | .afterAttributeName draft name | .beforeValue draft name => draft.Formed ∧ IsAttributeName name
  | .quotedValue draft name mark => draft.Formed ∧ IsAttributeName name ∧ isMark mark = true
  | .bareValue draft name =>
    draft.Formed ∧ IsAttributeName name ∧ ∀ c ∈ rest.head?, isMark c = false
  | .declaration => ¬ "--".toList <+: rest ∧ ¬ Config.sectionOpening <+: rest
  | _ => True

/-- What a step gives out, and the configuration behind it. -/
def Step.Formed (sections : Bool) : Step → Prop
  | .advance tokens config =>
    (∀ token ∈ tokens, Token.Formed sections token) ∧ config.mode.Formed config.rest
  | .finish tokens => ∀ token ∈ tokens, Token.Formed sections token

theorem formed_flush (sections : Bool) (pending : Text) :
    ∀ token ∈ flush pending, Token.Formed sections token := by
  unfold flush
  split
  · exact List.forall_mem_nil _
  · next hne =>
    refine List.forall_mem_singleton.2 ?_
    intro h
    exact hne (List.isEmpty_iff.2 h)

/-- The name of an attribute, as it is read. -/
theorem isAttributeName_of_read {first : Char} (hfirst : endsName first = false) (text : Text) :
    IsAttributeName (first :: text.takeWhile (!endsAttributeName ·)) := by
  have hrest : ∀ c ∈ text.takeWhile (!endsAttributeName ·), endsAttributeName c = false := by
    intro c hc
    simpa using List.mem_takeWhile_imp hc
  refine ⟨List.cons_ne_nil _ _, List.forall_mem_cons.2 ⟨hfirst, fun c hc => ?_⟩, fun hsign => ?_⟩
  · have hends := hrest c hc
    simp only [endsAttributeName, Bool.or_eq_false_iff] at hends
    exact hends.1
  · have hends := hrest '=' hsign
    simp [endsAttributeName] at hends

/-- No letter ends the name of a tag. -/
theorem endsName_of_isLetter {c : Char} (h : Text.isLetter c = true) : endsName c = false := by
  refine Bool.eq_false_iff.2 fun hends => absurd h ?_
  simp only [endsName, isSpace, Bool.or_eq_true, decide_eq_true_eq] at hends
  rcases hends with ((((((rfl | rfl) | rfl) | rfl) | rfl)) | rfl) | rfl <;> decide

/-- The name of a tag, as it is read. -/
theorem isTagName_of_read {text : Text} (h : (text.head?.any Text.isLetter) = true) :
    IsTagName (text.takeWhile (!endsName ·)) := by
  cases text with
  | nil => cases h
  | cons c text =>
    have hletter : Text.isLetter c = true := h
    have hends := endsName_of_isLetter hletter
    rw [List.takeWhile_cons_of_pos (by simp [hends])]
    refine ⟨hletter, List.forall_mem_cons.2 ⟨hends, fun d hd => ?_⟩⟩
    simpa using List.mem_takeWhile_imp hd

/-- A value between marks, as it is read. -/
theorem isValue_of_quoted {mark : Char} (h : isMark mark = true) (text : Text) :
    IsValue (text.takeWhile (· ≠ mark)) := by
  have hmark : mark ∉ text.takeWhile (· ≠ mark) := by
    intro hmem
    have hne := List.mem_takeWhile_imp hmem
    simp at hne
  simp only [isMark, Bool.or_eq_true, decide_eq_true_eq] at h
  rcases h with rfl | rfl
  · exact .inl hmark
  · exact .inr (.inl hmark)

/-- A value without marks, as it is read. -/
theorem isValue_of_bare {text : Text} (h : ∀ c ∈ text.head?, isMark c = false) :
    IsValue (text.takeWhile (!endsBareValue ·)) := by
  refine .inr (.inr ⟨fun c hc => by simpa using List.mem_takeWhile_imp hc, fun c hc => h c ?_⟩)
  cases text with
  | nil => exact hc
  | cons first text =>
    rw [List.takeWhile_cons] at hc
    split at hc
    · exact hc
    · cases hc

namespace Config

variable {sections : Bool} {config : Config}

theorem formed_close : config.close.Formed sections :=
  List.forall_mem_append.2 ⟨formed_flush _ _, List.forall_mem_singleton.2 trivial⟩

theorem formed_emit {token : Token} (htoken : Token.Formed sections token) (rest : Text) :
    (config.emit token rest).Formed sections :=
  ⟨List.forall_mem_append.2 ⟨formed_flush _ _, List.forall_mem_singleton.2 htoken⟩, trivial⟩

theorem formed_emitTag {draft : Draft} (hdraft : draft.Formed) (rest : Text) :
    (config.emitTag draft rest).Formed sections := by
  have htoken : Token.Formed sections draft.token := by
    unfold Draft.token
    split <;> exact ⟨hdraft.name, hdraft.attrs⟩
  refine ⟨List.forall_mem_append.2 ⟨formed_flush _ _, List.forall_mem_singleton.2 htoken⟩, ?_⟩
  simp only
  split <;> trivial

theorem formed_enter {mode : Mode} {rest : Text} (hmode : mode.Formed rest) :
    (config.enter mode rest).Formed sections :=
  ⟨List.forall_mem_nil _, hmode⟩

/-- Data of which every part up to a mark is of the right shape. -/
theorem formed_stepData {mark sign : Text} {kind : DataKind} (hmark : mark ≠ [])
    (hdata : ∀ content, content <+: config.rest → ¬ mark <:+: content →
      Token.Formed sections (.data kind (sign ++ content))) :
    (config.stepData mark kind sign).Formed sections := by
  unfold stepData
  split
  · next content rest hcut =>
    refine formed_emit (hdata content ?_ (Text.not_infix_of_cut? hmark hcut)) rest
    exact ⟨mark ++ rest, by rw [Text.eq_append_of_cut? hcut, List.append_assoc]⟩
  · next hcut =>
    refine List.forall_mem_append.2 ⟨formed_flush _ _, List.forall_mem_cons.2 ⟨?_,
      List.forall_mem_singleton.2 trivial⟩⟩
    exact hdata _ List.prefix_rfl (Text.not_infix_of_cut?_eq_none hcut)

theorem formed_tagOpen (pending rest : Text) :
    (step sections ⟨.tagOpen, pending, rest⟩).Formed sections := by
  simp only [step, stepTagOpen]
  split
  · exact formed_close
  · split
    · exact formed_enter trivial
    · split
      · exact formed_enter trivial
      · split
        · exact formed_enter trivial
        · split
          · next hletter => exact formed_enter hletter
          · exact ⟨List.forall_mem_nil _, trivial⟩

theorem formed_endTagOpen (pending rest : Text) :
    (step sections ⟨.endTagOpen, pending, rest⟩).Formed sections := by
  simp only [step, stepEndTagOpen]
  split
  · exact formed_close
  · split
    · next hletter => exact formed_enter hletter
    · split <;> exact formed_enter trivial

theorem formed_declarationOpen (pending rest : Text) :
    (step sections ⟨.declarationOpen, pending, rest⟩).Formed sections := by
  have hfront : ∀ {mark : Text}, mark.isPrefixOf? rest = none → ¬ mark <+: rest := by
    rintro mark hnone ⟨after, hafter⟩
    rw [Text.isPrefixOf?_eq_some_iff.2 hafter.symm] at hnone
    cases hnone
  have htoken : ∀ {inside : Text}, ¬ sectionClosing <:+: inside →
      Token.Formed sections (sectionToken sections inside) := by
    intro inside hinside
    unfold sectionToken
    simp only
    split
    · next hsections => exact ⟨hsections, inside, by simp, hinside⟩
    · exact .inr ⟨inside, rfl, hinside⟩
  simp only [step, stepDeclarationOpen]
  split
  · exact formed_enter trivial
  · next hdash =>
    split
    · split
      · next hcut => exact formed_emit (htoken (Text.not_infix_of_cut? (by decide) hcut)) _
      · next hcut => exact formed_emit (htoken (Text.not_infix_of_cut?_eq_none hcut)) _
    · next hsection => exact formed_enter ⟨hfront hdash, hfront hsection⟩

theorem formed_of_names {mode : Mode} {text name after : Text} {draft : Draft}
    (h : mode.Names text draft name after) (hmode : mode.Formed text) :
    draft.Formed ∧ IsAttributeName name := by
  cases h with
  | read => exact ⟨hmode.1, isAttributeName_of_read (hmode.2 _ rfl) _⟩
  | behind | before => exact hmode

theorem formed_of_completes {mode : Mode} {text after : Text} {draft : Draft}
    (h : mode.Completes text draft after) (hmode : mode.Formed text) : draft.Formed := by
  cases h with
  | name => exact ⟨isTagName_of_read hmode, .nil⟩
  | spaces | slash => exact hmode
  | empty hnames =>
    obtain ⟨hdraft, hname⟩ := formed_of_names hnames hmode
    exact hdraft.add hname isValue_nil
  | quoted => exact hmode.1.add hmode.2.1 (isValue_of_quoted hmode.2.2 text)
  | bare => exact hmode.1.add hmode.2.1 (isValue_of_bare hmode.2.2)

/-- A step inside of a tag. -/
theorem formed_tag (hmode : config.mode.IsTag) (h : config.mode.Formed config.rest) :
    (config.step sections).Formed sections := by
  have hstep := @tagStep_step sections config hmode
  generalize config.step sections = outcome at hstep
  cases hstep with
  | dropped => exact formed_close
  | given hread => exact formed_emitTag (formed_of_completes hread h) _
  | selfClosing hread => exact formed_enter (formed_of_completes hread h)
  | beforeAttribute hread _ => exact formed_enter (formed_of_completes hread h)
  | attributeName hread hc =>
    refine formed_enter ⟨formed_of_completes hread h, ?_⟩
    rintro _ ⟨⟩
    exact hc
  | afterAttributeName hread => exact formed_enter (formed_of_names hread h)
  | beforeValue hread => exact formed_enter (formed_of_names hread h)
  | quotedValue hread hc =>
    obtain ⟨hdraft, hname⟩ := formed_of_names hread h
    exact formed_enter ⟨hdraft, hname, hc⟩
  | bareValue hread hc =>
    obtain ⟨hdraft, hname⟩ := formed_of_names hread h
    refine formed_enter ⟨hdraft, hname, ?_⟩
    rintro _ ⟨⟩
    exact hc

/-- One step. -/
theorem formed_step (h : config.mode.Formed config.rest) :
    (config.step sections).Formed sections := by
  by_cases htag : config.mode.IsTag
  · exact formed_tag htag h
  obtain ⟨mode, pending, rest⟩ := config
  have hclosing : ∀ {content : Text}, ¬ ['>'] <:+: content → '>' ∉ content := by
    intro content hcontent hmem
    obtain ⟨before, after, rfl⟩ := List.append_of_mem hmem
    exact hcontent ⟨before, after, by simp⟩
  cases mode with
  | data =>
    simp only [step, stepCharacters]
    split
    · exact formed_close
    · exact ⟨List.forall_mem_nil _, trivial⟩
  | tagOpen => exact formed_tagOpen pending rest
  | endTagOpen => exact formed_endTagOpen pending rest
  | declarationOpen => exact formed_declarationOpen pending rest
  | comment => exact formed_stepData (by decide) fun _ _ hcontent => .inl hcontent
  | declaration =>
    refine formed_stepData (by decide) fun content hfront hcontent => ?_
    refine ⟨.inl rfl, ?_, ?_, ?_⟩
    · simpa using hclosing hcontent
    · intro hdash
      exact h.1 ((List.cons_prefix_cons.1 hdash).2.trans hfront)
    · intro hsection
      exact h.2 ((List.cons_prefix_cons.1 hsection).2.trans hfront)
  | instruction =>
    refine formed_stepData (by decide) fun content hfront hcontent => ?_
    refine ⟨.inr rfl, ?_, ?_, ?_⟩
    · simpa using hclosing hcontent
    · intro hdash
      exact absurd (List.cons_prefix_cons.1 hdash).1 (by decide)
    · intro hsection
      exact absurd (List.cons_prefix_cons.1 hsection).1 (by decide)
  | bogusComment =>
    refine formed_stepData (by decide) fun content _ hcontent => .inl fun hclose => ?_
    exact hclosing hcontent (hclose.subset (by decide))
  | rawText name =>
    simp only [step, stepRawText]
    split
    · exact formed_close
    · exact ⟨formed_flush _ _, trivial⟩
  | _ => exact absurd trivial htag

/-- The tokens of a run. -/
theorem formed_run (config : Config) (h : config.mode.Formed config.rest) :
    ∀ token ∈ config.run sections, Token.Formed sections token := by
  refine forall_mem_run (I := fun config => config.mode.Formed config.rest)
    (fun hconfig heq => ?_) (fun hconfig heq => ?_) config h
  · have hstep : (step sections _).Formed sections := formed_step hconfig
    rwa [heq] at hstep
  · have hstep : (step sections _).Formed sections := formed_step hconfig
    rwa [heq] at hstep

end Config

/-- The tokens of a text are formed. -/
theorem formed_tokens (text : Text) (sections : Bool) :
    ∀ token ∈ tokens text sections, Token.Formed sections token :=
  Config.formed_run _ trivial

end MarkupBinding.Scanner
