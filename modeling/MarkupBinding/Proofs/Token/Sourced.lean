import MarkupBinding.Proofs.Token.Content
import MarkupBinding.Proofs.Token.Stream

/-!
# Where texts and attribute values come from

A scanner adds signs of its own to comments, directives and marked sections. Texts and attribute values
have none: an angle bracket that turns out to open no markup, and a slash behind it, are given back as
they were read.

* `Token.Sourced`: what is known of a token.
* `Config.sourced_step`: what a step keeps.
* `sourced_tokens`: the texts and values of a text are made of its characters.
-/

namespace MarkupBinding.Scanner

variable {P : Char → Prop}

/-- The texts and the attribute values of a token hold characters of some sort. -/
def Token.Sourced (P : Char → Prop) : Token → Prop
  | .startTag _ attrs => ∀ attr ∈ attrs, attr.2.Holds P
  | .data .text content => content.Holds P
  | _ => True

theorem Token.Holds.sourced {token : Token} (h : Token.Holds P token) : Token.Sourced P token := by
  cases token with
  | startTag name attrs => exact h.2.values
  | data kind content =>
    cases kind with
    | text => exact h
    | _ => trivial
  | _ => trivial

/-- The signs that have been read and may still be given back as text. -/
def Mode.owed : Mode → Text
  | .tagOpen => ['<']
  | .endTagOpen => ['<', '/']
  | _ => []

structure Config.Sourced (P : Char → Prop) (config : Config) : Prop where
  holds : config.Holds P
  owed : config.mode.owed.Holds P

/-- What a step gives out, and the configuration behind it. -/
def Step.Sourced (P : Char → Prop) : Step → Prop
  | .advance tokens config => (∀ token ∈ tokens, Token.Sourced P token) ∧ config.Sourced P
  | .finish tokens => ∀ token ∈ tokens, Token.Sourced P token

theorem sourced_flush {pending : Text} (h : pending.Holds P) :
    ∀ token ∈ flush pending, Token.Sourced P token :=
  fun token htoken => (holds_flush h token htoken).sourced

namespace Config

variable {sections : Bool} {config : Config}

theorem sourced_close (h : config.pending.Holds P) : config.close.Sourced P :=
  List.forall_mem_append.2 ⟨sourced_flush h, List.forall_mem_singleton.2 trivial⟩

theorem sourced_enter (h : config.Holds P) {mode : Mode} {rest : Text} (hmode : mode.Holds P)
    (howed : mode.owed.Holds P) (hrest : rest.Holds P) : (config.enter mode rest).Sourced P :=
  ⟨List.forall_mem_nil _, ⟨hmode, h.pending, hrest⟩, howed⟩

/-- What is no text is not asked about. -/
theorem sourced_emit (h : config.Holds P) {kind : DataKind} (hkind : kind ≠ .text) {content rest : Text}
    (hrest : rest.Holds P) : (config.emit (.data kind content) rest).Sourced P := by
  refine ⟨List.forall_mem_append.2 ⟨sourced_flush h.pending, List.forall_mem_singleton.2 ?_⟩,
    ⟨trivial, .nil, hrest⟩, .nil⟩
  cases kind <;> trivial

theorem sourced_stepData (h : config.Holds P) {mark sign : Text} {kind : DataKind}
    (hkind : kind ≠ .text) : (config.stepData mark kind sign).Sourced P := by
  unfold stepData
  split
  · next content rest hcut => exact sourced_emit h hkind (holds_of_cut? h.rest hcut).2
  · refine List.forall_mem_append.2 ⟨sourced_flush h.pending,
      List.forall_mem_cons.2 ⟨?_, List.forall_mem_singleton.2 trivial⟩⟩
    cases kind <;> trivial

/-- Inside of a tag no sign waits to be given back. -/
theorem sourced_tag {tag : Side × Text} (htag : config.mode.tag? config.rest = some tag)
    (h : config.Holds P) : (config.step sections).Sourced P := by
  have hholds : (config.step sections).Holds P := holds_tag (isTag_of_tag? htag) h
  have hkeeps : config.KeepsName tag.1 tag.2 (config.step sections) := keepsName_step htag
  generalize config.step sections = result at hholds hkeeps
  have htokens : ∀ {tokens : List Token}, (∀ token ∈ tokens, Token.Holds P token) →
      ∀ token ∈ tokens, Token.Sourced P token := fun h token htoken => (h token htoken).sourced
  cases hkeeps with
  | dropped => exact htokens hholds
  | @inside mode rest hinside =>
    refine ⟨htokens hholds.1, hholds.2, ?_⟩
    cases mode <;> first | exact .nil | cases hinside
  | given rest =>
    refine ⟨htokens hholds.1, hholds.2, ?_⟩
    simp only
    split <;> exact .nil

/-- The bracket behind character data is no text yet. It is owed until the next character decides. -/
theorem sourced_data {pending rest : Text} (hpending : pending.Holds P) (hrest : rest.Holds P) :
    (step sections ⟨.data, pending, rest⟩).Sourced P := by
  have hdata := hpending.append (hrest.takeWhile (· ≠ '<'))
  simp only [step, stepCharacters]
  split
  · exact sourced_close hdata
  · next c later hdrop =>
    obtain ⟨hc, hlater⟩ := holds_of_dropWhile hrest hdrop
    have hhead := List.head?_dropWhile_not (· ≠ '<') rest
    rw [hdrop] at hhead
    obtain rfl : c = '<' := by simpa using hhead
    exact ⟨List.forall_mem_nil _, ⟨trivial, hdata, hlater⟩, .cons hc .nil⟩

theorem sourced_tagOpen {pending rest : Text} (h : Config.Sourced P ⟨.tagOpen, pending, rest⟩) :
    (step sections ⟨.tagOpen, pending, rest⟩).Sourced P := by
  obtain ⟨hconfig, howed⟩ := h
  have hdata : Text.Holds P (pending ++ ['<']) := hconfig.pending.append howed
  simp only [step, stepTagOpen]
  split
  · exact sourced_close hdata
  · next c later =>
    obtain ⟨hc, hlater⟩ := List.forall_mem_cons.1 hconfig.rest
    split
    · exact sourced_enter hconfig trivial .nil hlater
    · split
      · next hslash =>
        exact sourced_enter hconfig trivial (howed.append (.cons (hslash ▸ hc) .nil)) hlater
      · split
        · exact sourced_enter hconfig trivial .nil hlater
        · split
          · exact sourced_enter hconfig trivial .nil hconfig.rest
          · exact ⟨List.forall_mem_nil _, ⟨trivial, hdata, hconfig.rest⟩, .nil⟩

theorem sourced_endTagOpen {pending rest : Text}
    (h : Config.Sourced P ⟨.endTagOpen, pending, rest⟩) :
    (step sections ⟨.endTagOpen, pending, rest⟩).Sourced P := by
  obtain ⟨hconfig, howed⟩ := h
  simp only [step, stepEndTagOpen]
  split
  · exact sourced_close (hconfig.pending.append howed)
  · split
    · exact sourced_enter hconfig trivial .nil hconfig.rest
    · split
      · exact sourced_enter hconfig trivial .nil (List.forall_mem_cons.1 hconfig.rest).2
      · exact sourced_enter hconfig trivial .nil hconfig.rest

theorem sourced_declarationOpen {pending rest : Text}
    (h : Config.Holds P ⟨.declarationOpen, pending, rest⟩) :
    (step sections ⟨.declarationOpen, pending, rest⟩).Sourced P := by
  have htoken : ∀ (content : Text) {later : Text}, later.Holds P →
      (emit ⟨.declarationOpen, pending, rest⟩ (sectionToken sections content) later).Sourced P := by
    intro content later hlater
    simp only [sectionToken]
    split <;> exact sourced_emit h (by decide) hlater
  simp only [step, stepDeclarationOpen]
  split
  · next hdash => exact sourced_enter h trivial .nil (holds_of_isPrefixOf? h.rest hdash)
  · split
    · next hopening =>
      have hinside := holds_of_isPrefixOf? h.rest hopening
      split
      · next hcut => exact htoken _ (holds_of_cut? hinside hcut).2
      · exact htoken _ .nil
    · exact sourced_enter h trivial .nil h.rest

/-- The bracket and the slash of the end tag that was found behind raw text are owed. -/
theorem sourced_rawText {name pending rest : Text} (hpending : pending.Holds P)
    (hrest : rest.Holds P) : (step sections ⟨.rawText name, pending, rest⟩).Sourced P := by
  simp only [step, stepRawText]
  split
  · exact sourced_close (hpending.append hrest)
  · next raw later hraw =>
    obtain ⟨hinside, hlater⟩ := holds_of_rawEnd? hrest hraw
    rw [eq_append_of_rawEnd? hraw] at hrest
    obtain ⟨hopen, hsigns⟩ := List.forall_mem_cons.1 (List.forall_mem_append.1 hrest).2
    exact ⟨sourced_flush (hpending.append hinside), ⟨trivial, .nil, hlater⟩,
      .cons hopen (.cons (List.forall_mem_cons.1 hsigns).1 .nil)⟩

/-- One step. -/
theorem sourced_step (h : config.Sourced P) : (config.step sections).Sourced P := by
  cases htag : config.mode.tag? config.rest with
  | some tag => exact sourced_tag htag h.holds
  | none =>
    obtain ⟨mode, pending, rest⟩ := config
    cases mode <;> simp only [Mode.tag?, reduceCtorEq] at htag
    case data => exact sourced_data h.holds.pending h.holds.rest
    case tagOpen => exact sourced_tagOpen h
    case endTagOpen => exact sourced_endTagOpen h
    case declarationOpen => exact sourced_declarationOpen h.holds
    case comment => exact sourced_stepData h.holds (by decide)
    case declaration => exact sourced_stepData h.holds (by decide)
    case instruction => exact sourced_stepData h.holds (by decide)
    case bogusComment => exact sourced_stepData h.holds (by decide)
    case rawText name => exact sourced_rawText h.holds.pending h.holds.rest

/-- The tokens of a run. -/
theorem sourced_run (config : Config) (h : config.Sourced P) :
    ∀ token ∈ config.run sections, Token.Sourced P token := by
  refine forall_mem_run (fun hconfig heq => ?_) (fun hconfig heq => ?_) config h
  · have hstep : (step sections _).Sourced P := sourced_step hconfig
    rwa [heq] at hstep
  · have hstep : (step sections _).Sourced P := sourced_step hconfig
    rwa [heq] at hstep

end Config

/-- The texts and attribute values in the tokens of a text hold characters of the text alone. -/
theorem sourced_tokens {text : Text} (h : text.Holds P) (sections : Bool) :
    ∀ token ∈ tokens text sections, Token.Sourced P token :=
  Config.sourced_run _ ⟨⟨trivial, .nil, h⟩, .nil⟩

end MarkupBinding.Scanner
