import MarkupBinding.Proofs.Entries
import MarkupBinding.Proofs.Token.Tag

/-!
# What tokens hold

A scanner keeps what it reads as it was written, so the characters in its tokens are characters of
the text, or signs of markup that a comment or a declaration holds. And of two attributes of one name
it keeps the first, so the names of a tag's attributes are distinct.

* `Token.Holds`: a token whose characters are of some sort, and whose attributes have distinct names.
* `holds_step`: one step.
* `holds_tokens`: the tokens of a text.
-/

namespace MarkupBinding

variable {P : Char → Prop}

/-- All characters of a text are of some sort. -/
def Text.Holds (P : Char → Prop) (text : Text) : Prop := ∀ c ∈ text, P c

namespace Text.Holds

variable {text other : Text}

theorem nil : Text.Holds P [] := List.forall_mem_nil P

theorem append (h : text.Holds P) (hother : other.Holds P) : Text.Holds P (text ++ other) :=
  List.forall_mem_append.2 ⟨h, hother⟩

theorem cons {c : Char} (hc : P c) (h : text.Holds P) : Text.Holds P (c :: text) :=
  List.forall_mem_cons.2 ⟨hc, h⟩

theorem sub (h : text.Holds P) (hsub : other ⊆ text) : other.Holds P := fun c hc => h c (hsub hc)

theorem takeWhile (h : text.Holds P) (p : Char → Bool) : Text.Holds P (text.takeWhile p) :=
  h.sub (List.takeWhile_sublist p).subset

theorem dropWhile (h : text.Holds P) (p : Char → Bool) : Text.Holds P (text.dropWhile p) :=
  h.sub (List.dropWhile_sublist p).subset

end Text.Holds

namespace Scanner

/-- Attributes with distinct names whose characters are of some sort. -/
structure AttributesHold (P : Char → Prop) (attrs : Attributes) : Prop where
  distinct : attrs.names.Nodup
  names : ∀ entry ∈ attrs, entry.1.Holds P
  values : ∀ entry ∈ attrs, entry.2.Holds P

theorem AttributesHold.nil : AttributesHold P [] :=
  ⟨List.nodup_nil, List.forall_mem_nil _, List.forall_mem_nil _⟩

/-- An attribute is added unless there is one of its name. -/
theorem AttributesHold.insertNew {attrs : Attributes} (h : AttributesHold P attrs)
    {name value : Text} (hname : name.Holds P) (hvalue : value.Holds P) :
    AttributesHold P (attrs.insertNew name value) := by
  refine ⟨Entries.nodup_names_insertNew h.distinct name value, fun entry hentry => ?_,
    fun entry hentry => ?_⟩
  · rcases Entries.mem_of_mem_insertNew hentry with hentry | rfl
    · exact h.names entry hentry
    · exact hname
  · rcases Entries.mem_of_mem_insertNew hentry with hentry | rfl
    · exact h.values entry hentry
    · exact hvalue

/-- The characters of a token are of some sort, and its attributes have distinct names. -/
def Token.Holds (P : Char → Prop) : Token → Prop
  | .startTag name attrs | .endTag name attrs => name.Holds P ∧ AttributesHold P attrs
  | .data _ content => content.Holds P
  | .endOfInput => True

structure Draft.Holds (P : Char → Prop) (draft : Draft) : Prop where
  name : draft.name.Holds P
  attrs : AttributesHold P draft.attrs

theorem Draft.Holds.add {draft : Draft} (h : draft.Holds P) {name value : Text}
    (hname : name.Holds P) (hvalue : value.Holds P) : (draft.add name value).Holds P :=
  ⟨h.name, h.attrs.insertNew hname hvalue⟩

/-- What a mode remembers. -/
def Mode.Holds (P : Char → Prop) : Mode → Prop
  | .beforeAttribute draft | .attributeName draft | .selfClosing draft => draft.Holds P
  | .afterAttributeName draft name | .beforeValue draft name | .quotedValue draft name _
  | .bareValue draft name => draft.Holds P ∧ name.Holds P
  | _ => True

structure Config.Holds (P : Char → Prop) (config : Config) : Prop where
  mode : config.mode.Holds P
  pending : config.pending.Holds P
  rest : config.rest.Holds P

/-- What a step gives out, and the configuration behind it. -/
def Step.Holds (P : Char → Prop) : Step → Prop
  | .advance tokens config => (∀ token ∈ tokens, Token.Holds P token) ∧ config.Holds P
  | .finish tokens => ∀ token ∈ tokens, Token.Holds P token

/-- The signs that a scanner adds to what it reads. -/
def signs : Text := "<>/!?[]CDAT".toList

theorem holds_flush {pending : Text} (h : pending.Holds P) :
    ∀ token ∈ flush pending, Token.Holds P token := by
  unfold flush
  split
  · exact List.forall_mem_nil _
  · exact List.forall_mem_singleton.2 h

namespace Config

variable {sections : Bool} {config : Config}

theorem holds_close (h : config.pending.Holds P) : config.close.Holds P :=
  List.forall_mem_append.2 ⟨holds_flush h, List.forall_mem_singleton.2 trivial⟩

theorem holds_emit (h : config.Holds P) {token : Token} {rest : Text} (htoken : Token.Holds P token)
    (hrest : rest.Holds P) : (config.emit token rest).Holds P :=
  ⟨List.forall_mem_append.2 ⟨holds_flush h.pending, List.forall_mem_singleton.2 htoken⟩,
    trivial, .nil, hrest⟩

theorem holds_emitTag (h : config.Holds P) {draft : Draft} {rest : Text} (hdraft : draft.Holds P)
    (hrest : rest.Holds P) : (config.emitTag draft rest).Holds P := by
  have htoken : Token.Holds P draft.token := by
    unfold Draft.token
    split <;> exact ⟨hdraft.name, hdraft.attrs⟩
  refine ⟨List.forall_mem_append.2 ⟨holds_flush h.pending, List.forall_mem_singleton.2 htoken⟩,
    ?_, .nil, hrest⟩
  simp only
  split <;> trivial

theorem holds_enter (h : config.Holds P) {mode : Mode} {rest : Text} (hmode : mode.Holds P)
    (hrest : rest.Holds P) : (config.enter mode rest).Holds P :=
  ⟨List.forall_mem_nil _, hmode, h.pending, hrest⟩

/-- What is read up to the end of a run. -/
theorem holds_of_dropWhile {p : Char → Bool} {text rest : Text} {c : Char} (h : text.Holds P)
    (hdrop : text.dropWhile p = c :: rest) : P c ∧ rest.Holds P := by
  have hall := h.dropWhile p
  rw [hdrop] at hall
  exact List.forall_mem_cons.1 hall

theorem holds_of_cut? {mark text before after : Text} (h : text.Holds P)
    (hcut : Text.cut? mark text = some (before, after)) : before.Holds P ∧ after.Holds P := by
  rw [Text.eq_append_of_cut? hcut] at h
  obtain ⟨hfront, hafter⟩ := List.forall_mem_append.1 h
  exact ⟨(List.forall_mem_append.1 hfront).1, hafter⟩

theorem holds_of_isPrefixOf? {mark text rest : Text} (h : text.Holds P)
    (hstarts : mark.isPrefixOf? text = some rest) : rest.Holds P := by
  rw [Text.isPrefixOf?_eq_some_iff.1 hstarts] at h
  exact (List.forall_mem_append.1 h).2

theorem holds_of_rawEnd? {name text raw rest : Text} (h : text.Holds P)
    (hraw : rawEnd? name text = some (raw, rest)) : raw.Holds P ∧ rest.Holds P := by
  rw [eq_append_of_rawEnd? hraw] at h
  obtain ⟨hfront, hrest⟩ := List.forall_mem_append.1 h
  exact ⟨hfront, (List.forall_mem_cons.1 (List.forall_mem_cons.1 hrest).2).2⟩

theorem holds_stepData (h : config.Holds P) {mark sign : Text} {kind : DataKind}
    (hsign : sign.Holds P) : (config.stepData mark kind sign).Holds P := by
  unfold stepData
  split
  · next content rest hcut =>
    obtain ⟨hcontent, hrest⟩ := holds_of_cut? h.rest hcut
    exact holds_emit h (hsign.append hcontent) hrest
  · exact List.forall_mem_append.2 ⟨holds_flush h.pending,
      List.forall_mem_cons.2 ⟨hsign.append h.rest, List.forall_mem_singleton.2 trivial⟩⟩

theorem holds_tagOpen (hsigns : Text.Holds P signs) {pending rest : Text}
    (hpending : pending.Holds P) (h : rest.Holds P) :
    (step sections ⟨.tagOpen, pending, rest⟩).Holds P := by
  have hbracket : Text.Holds P (pending ++ ['<']) :=
    hpending.append (.cons (hsigns _ (by decide)) .nil)
  have hconfig : Config.Holds P ⟨.tagOpen, pending, rest⟩ := ⟨trivial, hpending, h⟩
  simp only [step, stepTagOpen]
  split
  · show (Config.close ⟨.tagOpen, pending ++ ['<'], []⟩).Holds P
    exact holds_close hbracket
  · have hlater := (List.forall_mem_cons.1 h).2
    split
    · exact holds_enter hconfig trivial hlater
    · split
      · exact holds_enter hconfig trivial hlater
      · split
        · exact holds_enter hconfig trivial hlater
        · split
          · exact holds_enter hconfig trivial h
          · exact ⟨List.forall_mem_nil _, trivial, hbracket, h⟩

theorem holds_endTagOpen (hsigns : Text.Holds P signs) {pending rest : Text}
    (hpending : pending.Holds P) (h : rest.Holds P) :
    (step sections ⟨.endTagOpen, pending, rest⟩).Holds P := by
  have hconfig : Config.Holds P ⟨.endTagOpen, pending, rest⟩ := ⟨trivial, hpending, h⟩
  simp only [step, stepEndTagOpen]
  split
  · show (Config.close ⟨.endTagOpen, pending ++ ['<', '/'], []⟩).Holds P
    exact holds_close
      (hpending.append (.cons (hsigns _ (by decide)) (.cons (hsigns _ (by decide)) .nil)))
  · split
    · exact holds_enter hconfig trivial h
    · split
      · exact holds_enter hconfig trivial (List.forall_mem_cons.1 h).2
      · exact holds_enter hconfig trivial h

theorem holds_declarationOpen (hsigns : Text.Holds P signs) {pending rest : Text}
    (hpending : pending.Holds P) (h : rest.Holds P) :
    (step sections ⟨.declarationOpen, pending, rest⟩).Holds P := by
  have hconfig : Config.Holds P ⟨.declarationOpen, pending, rest⟩ := ⟨trivial, hpending, h⟩
  have htoken : ∀ {content : Text}, content.Holds P →
      Token.Holds P (sectionToken sections content) := by
    intro content hcontent
    have hbody : Text.Holds P (sectionOpening ++ content ++ "]]".toList) :=
      ((hsigns.sub (by decide)).append hcontent).append (hsigns.sub (by decide))
    unfold sectionToken
    simp only
    split
    · exact .cons (hsigns _ (by decide)) hbody
    · exact hbody
  simp only [step, stepDeclarationOpen]
  split
  · next hdash => exact holds_enter hconfig trivial (holds_of_isPrefixOf? h hdash)
  · split
    · next hopening =>
      have hinside := holds_of_isPrefixOf? h hopening
      split
      · next hcut =>
        obtain ⟨hcontent, hrest⟩ := holds_of_cut? hinside hcut
        exact holds_emit hconfig (htoken hcontent) hrest
      · exact holds_emit hconfig (htoken hinside) .nil
    · exact holds_enter hconfig trivial h

theorem holds_of_names {mode : Mode} {text name after : Text} {draft : Draft}
    (h : mode.Names text draft name after) (hmode : mode.Holds P) (htext : text.Holds P) :
    (draft.Holds P ∧ name.Holds P) ∧ after.Holds P := by
  cases h with
  | read hdrop =>
    obtain ⟨hfirst, htext⟩ := List.forall_mem_cons.1 htext
    exact ⟨⟨hmode, .cons hfirst (Text.Holds.takeWhile htext _)⟩,
      hdrop ▸ Text.Holds.dropWhile htext _⟩
  | behind hdrop | before hdrop => exact ⟨hmode, hdrop ▸ htext.dropWhile _⟩

theorem holds_of_completes {mode : Mode} {text after : Text} {draft : Draft}
    (h : mode.Completes text draft after) (hmode : mode.Holds P) (htext : text.Holds P) :
    draft.Holds P ∧ after.Holds P := by
  cases h with
  | name hdrop => exact ⟨⟨htext.takeWhile _, .nil⟩, hdrop ▸ htext.dropWhile _⟩
  | spaces hdrop => exact ⟨hmode, hdrop ▸ htext.dropWhile _⟩
  | slash => exact ⟨hmode, htext⟩
  | empty hnames =>
    obtain ⟨⟨hdraft, hname⟩, hafter⟩ := holds_of_names hnames hmode htext
    exact ⟨hdraft.add hname .nil, hafter⟩
  | quoted hdrop | bare hdrop =>
    exact ⟨hmode.1.add hmode.2 (htext.takeWhile _), hdrop ▸ htext.dropWhile _⟩

/-- A step inside of a tag. -/
theorem holds_tag (hmode : config.mode.IsTag) (h : config.Holds P) :
    (config.step sections).Holds P := by
  have hcompletes : ∀ {draft : Draft} {after : Text},
      config.mode.Completes config.rest draft after → draft.Holds P ∧ after.Holds P :=
    fun hread => holds_of_completes hread h.mode h.rest
  have hnames : ∀ {draft : Draft} {name after : Text},
      config.mode.Names config.rest draft name after →
        (draft.Holds P ∧ name.Holds P) ∧ after.Holds P :=
    fun hread => holds_of_names hread h.mode h.rest
  have hbehind : ∀ {c : Char} {rest : Text}, Text.Holds P (c :: rest) → rest.Holds P :=
    fun hafter => (List.forall_mem_cons.1 hafter).2
  have hstep := @tagStep_step sections config hmode
  generalize config.step sections = outcome at hstep
  cases hstep with
  | dropped => exact holds_close h.pending
  | given hread => exact holds_emitTag h (hcompletes hread).1 (hbehind (hcompletes hread).2)
  | selfClosing hread => exact holds_enter h (hcompletes hread).1 (hbehind (hcompletes hread).2)
  | beforeAttribute hread hafter =>
    obtain ⟨hdraft, hrest⟩ := hcompletes hread
    rcases hafter with rfl | rfl
    · exact holds_enter h hdraft (hbehind hrest)
    · exact holds_enter h hdraft hrest
  | attributeName hread _ => exact holds_enter h (hcompletes hread).1 (hcompletes hread).2
  | afterAttributeName hread => exact holds_enter h (hnames hread).1 (hbehind (hnames hread).2)
  | beforeValue hread => exact holds_enter h (hnames hread).1 (hbehind (hnames hread).2)
  | quotedValue hread _ => exact holds_enter h (hnames hread).1 (hbehind (hnames hread).2)
  | bareValue hread _ => exact holds_enter h (hnames hread).1 (hnames hread).2

/-- One step. -/
theorem holds_step (hsigns : Text.Holds P signs) (h : config.Holds P) :
    (config.step sections).Holds P := by
  by_cases htag : config.mode.IsTag
  · exact holds_tag htag h
  obtain ⟨mode, pending, rest⟩ := config
  obtain ⟨_, hpending, hrest⟩ := id h
  cases mode with
  | data =>
    have hdata := hpending.append (hrest.takeWhile (· ≠ '<'))
    simp only [step, stepCharacters]
    split
    · show (Config.close ⟨.data, pending ++ rest.takeWhile (· ≠ '<'), rest⟩).Holds P
      exact holds_close hdata
    · next hdrop =>
      exact ⟨List.forall_mem_nil _, trivial, hdata, (holds_of_dropWhile hrest hdrop).2⟩
  | tagOpen => exact holds_tagOpen hsigns hpending hrest
  | endTagOpen => exact holds_endTagOpen hsigns hpending hrest
  | declarationOpen => exact holds_declarationOpen hsigns hpending hrest
  | comment => exact holds_stepData h .nil
  | declaration => exact holds_stepData h (hsigns.sub (by decide))
  | instruction => exact holds_stepData h (hsigns.sub (by decide))
  | bogusComment => exact holds_stepData h .nil
  | rawText name =>
    simp only [step, stepRawText]
    split
    · show (Config.close ⟨.rawText name, pending ++ rest, rest⟩).Holds P
      exact holds_close (hpending.append hrest)
    · next hraw =>
      obtain ⟨hinside, hafter⟩ := holds_of_rawEnd? hrest hraw
      exact ⟨holds_flush (hpending.append hinside), trivial, .nil, hafter⟩
  | _ => exact absurd trivial htag

/-- The tokens of a run. -/
theorem holds_run (hsigns : Text.Holds P signs) (config : Config) (h : config.Holds P) :
    ∀ token ∈ config.run sections, Token.Holds P token := by
  refine forall_mem_run (fun hconfig heq => ?_) (fun hconfig heq => ?_) config h
  · have hstep : (step sections _).Holds P := holds_step hsigns hconfig
    rwa [heq] at hstep
  · have hstep : (step sections _).Holds P := holds_step hsigns hconfig
    rwa [heq] at hstep

end Config

/-- The tokens of a text hold characters of the text and signs, and their attributes have distinct
names. -/
theorem holds_tokens (hsigns : Text.Holds P signs) {text : Text} (h : text.Holds P)
    (sections : Bool) : ∀ token ∈ tokens text sections, Token.Holds P token :=
  Config.holds_run hsigns _ ⟨trivial, .nil, h⟩

end Scanner
end MarkupBinding
