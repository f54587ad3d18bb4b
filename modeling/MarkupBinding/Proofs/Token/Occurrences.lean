import MarkupBinding.Proofs.Text.Occurrences
import MarkupBinding.Proofs.Token.Content
import MarkupBinding.Proofs.Tree.Sum

/-!
# Words in tokens

A scanner cuts a text into names, values and data and adds only signs of markup to them. So a word that
has none of these signs stands in the tokens at most as often as in the text, unless text that waits is
joined with the text behind an end tag that has no name and is dropped, and the word lies across the
seam.

* `Config.seams`: where a run joins texts.
* `times_step`: one step.
* `timesAll_tokens_le`: the tokens of a text.
-/

namespace MarkupBinding

open Text (timesIn Crosses)

/-- How often a word stands in the names and values of attributes. -/
def Attributes.times (word : Text) (attrs : Attributes) : Nat :=
  (attrs.map fun attr => timesIn word attr.1 + timesIn word attr.2).sum

theorem Attributes.times_append (word : Text) (first second : Attributes) :
    Attributes.times word (first ++ second) =
      Attributes.times word first + Attributes.times word second := by
  unfold Attributes.times
  rw [List.map_append, List.sum_append]

/-- How often a word stands in a node, its children left out. -/
def Content.times (word : Text) : Content → Nat
  | .element name attrs _ => timesIn word name + Attributes.times word attrs
  | .data _ content => timesIn word content
  | .bare _ => 0

namespace Scanner

/-- The text before and behind an end tag without a name, which is dropped. -/
def Config.seam? (config : Config) : Option (Text × Text) :=
  match config.mode, config.rest with
  | .endTagOpen, '>' :: rest => some (config.pending, rest)
  | _, _ => none

/-- The texts that a run joins, each with what follows it. -/
def Config.seams (sections : Bool) (config : Config) : List (Text × Text) :=
  config.seam?.toList ++
    match _h : config.step sections with
    | .finish _ => []
    | .advance _ next => seams sections next
termination_by config.measure
decreasing_by exact step_measure_lt _h

theorem Config.mem_seams_of_mem_seam? {sections : Bool} {config : Config} {seam : Text × Text}
    (h : seam ∈ config.seam?) : seam ∈ config.seams sections := by
  rw [seams]
  exact List.mem_append_left _ (Option.mem_toList.2 h)

theorem Config.mem_seams_of_advance {sections : Bool} {config next : Config} {tokens : List Token}
    {seam : Text × Text} (hstep : config.step sections = .advance tokens next)
    (h : seam ∈ next.seams sections) : seam ∈ config.seams sections := by
  rw [seams]
  refine List.mem_append_right _ ?_
  split
  · next hfinish =>
    rw [hstep] at hfinish
    cases hfinish
  · next hadvance =>
    rw [hstep] at hadvance
    cases hadvance
    exact h

variable (word : Text)

/-- How often a word stands in the nodes that come from some tokens. -/
def timesAll (tokens : List Token) : Nat := (tokens.map (Builder.share (Content.times word))).sum

def Draft.times (draft : Draft) : Nat := timesIn word draft.name + Attributes.times word draft.attrs

/-- How often a word stands in what a mode remembers. -/
def Mode.times : Mode → Nat
  | .beforeAttribute draft | .attributeName draft | .selfClosing draft => draft.times word
  | .afterAttributeName draft name | .beforeValue draft name | .quotedValue draft name _
  | .bareValue draft name => draft.times word + timesIn word name
  | _ => 0

/-- In these modes the text that waits goes on with the text still to be read. -/
def Mode.goesOn : Mode → Bool
  | .data | .rawText _ => true
  | _ => false

/-- How often a word stands in the parts of a configuration. -/
def Config.parts (config : Config) : Nat :=
  timesIn word config.pending + config.mode.times word + timesIn word config.rest

/-- How often it stands in a configuration. -/
def Config.times (config : Config) : Nat :=
  if config.mode.goesOn then timesIn word (config.pending ++ config.rest) else config.parts word

/-- How often it stands in what a step gives out and in the configuration behind it. -/
def Step.times : Step → Nat
  | .advance tokens config => timesAll word tokens + config.times word
  | .finish tokens => timesAll word tokens

variable {word}

/-- An attribute brings its name and its value, if it is added at all. -/
theorem Draft.times_add_le (draft : Draft) (name value : Text) :
    (draft.add name value).times word ≤
      draft.times word + (timesIn word name + timesIn word value) := by
  have hattrs : Attributes.times word (draft.attrs.insertNew name value) ≤
      Attributes.times word draft.attrs + (timesIn word name + timesIn word value) := by
    unfold Entries.insertNew
    split
    · exact Nat.le_add_right _ _
    · rw [Attributes.times_append]
      exact Nat.le_refl _
  show timesIn word draft.name + Attributes.times word (draft.attrs.insertNew name value) ≤ _
  unfold Draft.times
  omega

theorem timesAll_append (first second : List Token) :
    timesAll word (first ++ second) = timesAll word first + timesAll word second := by
  unfold timesAll
  rw [List.map_append, List.sum_append]

/-- A mode that the text which waits does not go on in. -/
theorem Config.times_enter_le {config : Config} {mode : Mode} {rest : Text}
    (hgoes : mode.goesOn = false)
    (h : mode.times word + timesIn word rest ≤
      config.mode.times word + timesIn word config.rest) :
    (config.enter mode rest).times word ≤ config.parts word := by
  show 0 + Config.times word ⟨mode, config.pending, rest⟩ ≤ _
  rw [Config.times, if_neg (by simp [hgoes])]
  unfold Config.parts
  simp only
  omega

section

variable (hword : word ≠ [])
include hword

theorem timesAll_flush (pending : Text) : timesAll word (flush pending) = timesIn word pending := by
  cases pending with
  | nil => exact (Text.timesIn_nil hword).symm
  | cons c pending => exact Nat.add_zero _

/-- A run that is read behind some characters, and the text from what ends it. -/
theorem times_takeWhile_add_le (p : Char → Bool) (front text : Text) :
    timesIn word (front ++ text.takeWhile p) + timesIn word (text.dropWhile p) ≤
      timesIn word (front ++ text) := by
  have hsplit := Text.timesIn_add_le hword (front ++ text.takeWhile p) (text.dropWhile p)
  rwa [List.append_assoc, List.takeWhile_append_dropWhile] at hsplit

/-- An attribute without a value. -/
theorem times_add_nil_le (draft : Draft) (name : Text) :
    (draft.add name []).times word ≤ draft.times word + timesIn word name := by
  have hadd := @Draft.times_add_le word draft name []
  rwa [Text.timesIn_nil hword] at hadd

namespace Config

variable {sections : Bool} {config : Config}

theorem parts_le_times (config : Config) : config.parts word ≤ config.times word := by
  obtain ⟨mode, pending, rest⟩ := config
  unfold times
  split
  · next hgoes =>
    have hmode : mode.times word = 0 := by
      cases mode <;> first | rfl | cases hgoes
    have hadd := Text.timesIn_add_le hword pending rest
    show timesIn word pending + mode.times word + timesIn word rest ≤ timesIn word (pending ++ rest)
    omega
  · exact Nat.le_refl _

theorem times_close (config : Config) : config.close.times word = timesIn word config.pending := by
  show timesAll word (flush config.pending ++ [.endOfInput]) = _
  rw [timesAll_append, timesAll_flush hword]
  exact Nat.add_zero _

theorem times_close_le : config.close.times word ≤ config.parts word := by
  rw [times_close hword, parts, Nat.add_assoc]
  exact Nat.le_add_right _ _

theorem times_emit_le {token : Token} {rest : Text}
    (h : Builder.share (Content.times word) token + timesIn word rest ≤
      config.mode.times word + timesIn word config.rest) :
    (config.emit token rest).times word ≤ config.parts word := by
  show timesAll word (flush config.pending ++ [token]) + timesIn word ([] ++ rest) ≤ _
  rw [timesAll_append, timesAll_flush hword, List.nil_append]
  show timesIn word config.pending + Builder.share (Content.times word) token + timesIn word rest ≤ _
  unfold parts
  omega

theorem times_emitTag_le {draft : Draft} {rest : Text}
    (h : draft.times word + timesIn word rest ≤
      config.mode.times word + timesIn word config.rest) :
    (config.emitTag draft rest).times word ≤ config.parts word := by
  have htoken : Builder.share (Content.times word) draft.token ≤ draft.times word := by
    obtain ⟨side, name, attrs⟩ := draft
    cases side with
    | opening => exact Nat.le_refl _
    | closing => exact Nat.add_le_add_left (Nat.zero_le _) _
  have hgoes : ∀ mode : Mode, mode.goesOn = true →
      Config.times word ⟨mode, [], rest⟩ = timesIn word rest := by
    intro mode hmode
    rw [times, if_pos hmode, List.nil_append]
  unfold emitTag
  simp only [Step.times, timesAll_append, timesAll_flush hword]
  rw [hgoes _ (by split <;> rfl)]
  show timesIn word config.pending + Builder.share (Content.times word) draft.token +
    timesIn word rest ≤ _
  unfold parts
  omega

/-- Data with a sign before them. -/
theorem times_stepData_le {mark sign : Text} {kind : DataKind} (hsign : ∀ c ∈ sign, c ∉ word) :
    (config.stepData mark kind sign).times word ≤ config.parts word := by
  have hdata : ∀ content, Builder.share (Content.times word) (.data kind (sign ++ content)) =
      timesIn word content := fun content => Text.timesIn_append_of_notMem hword hsign content
  unfold stepData
  split
  · next content rest hcut =>
    refine times_emit_le hword ?_
    rw [hdata, Text.eq_append_of_cut? hcut, List.append_assoc]
    have hwhole := Text.timesIn_add_le hword content (mark ++ rest)
    have hrest := Text.timesIn_le_of_within hword (List.suffix_append mark rest).isInfix
    omega
  · show timesAll word (flush config.pending ++ [_, .endOfInput]) ≤ _
    rw [timesAll_append, timesAll_flush hword]
    show timesIn word config.pending + (Builder.share (Content.times word) _ + 0) ≤ _
    rw [hdata]
    unfold parts
    omega

/-- A draft and a name hold no more than the mode that they come from and the text read. -/
theorem times_of_names {mode : Mode} {text name after : Text} {draft : Draft}
    (h : mode.Names text draft name after) :
    draft.times word + timesIn word name + timesIn word after ≤
      mode.times word + timesIn word text := by
  cases h with
  | @read _ first text _ hdrop =>
    have hread := times_takeWhile_add_le hword (!endsAttributeName ·) [first] text
    rw [hdrop] at hread
    show _ ≤ draft.times word + _
    simp only [List.singleton_append] at hread
    omega
  | behind hdrop | before hdrop =>
    have hread := times_takeWhile_add_le hword isSpace [] text
    rw [hdrop, List.nil_append, List.nil_append] at hread
    exact Nat.add_le_add_left (Nat.le_of_add_left_le hread) _

theorem times_of_completes {mode : Mode} {text after : Text} {draft : Draft}
    (h : mode.Completes text draft after) :
    draft.times word + timesIn word after ≤ mode.times word + timesIn word text := by
  have hrun : ∀ p : Char → Bool,
      timesIn word (text.takeWhile p) + timesIn word (text.dropWhile p) ≤ timesIn word text :=
    fun p => times_takeWhile_add_le hword p [] text
  cases h with
  | name hdrop =>
    have hread := hrun (!endsName ·)
    rw [hdrop] at hread
    show timesIn word (text.takeWhile (!endsName ·)) + 0 + _ ≤ 0 + _
    omega
  | spaces hdrop =>
    have hread := hrun isSpace
    rw [hdrop] at hread
    exact Nat.add_le_add_left (Nat.le_of_add_left_le hread) _
  | slash => exact Nat.le_refl _
  | @empty _ draft name _ _ hnames =>
    have hplain := times_add_nil_le hword draft name
    have hnamed := times_of_names hword hnames
    omega
  | @quoted draft mark name _ _ hdrop =>
    have hread := hrun (· ≠ mark)
    have hadd := @Draft.times_add_le word draft name (text.takeWhile (· ≠ mark))
    rw [hdrop] at hread
    show _ ≤ draft.times word + timesIn word name + _
    omega
  | @bare draft name _ _ hdrop =>
    have hread := hrun (!endsBareValue ·)
    have hadd := @Draft.times_add_le word draft name (text.takeWhile (!endsBareValue ·))
    rw [hdrop] at hread
    show _ ≤ draft.times word + timesIn word name + _
    omega

/-- A step inside of a tag. -/
theorem times_tag_le (hmode : config.mode.IsTag) :
    (config.step sections).times word ≤ config.parts word := by
  have hbehind : ∀ (c : Char) (rest : Text), timesIn word rest ≤ timesIn word (c :: rest) :=
    fun c rest => Text.timesIn_le_of_within hword (List.suffix_cons c rest).isInfix
  have hcompletes : ∀ {draft : Draft} {c : Char} {rest : Text},
      config.mode.Completes config.rest draft (c :: rest) →
        draft.times word + timesIn word rest ≤
          config.mode.times word + timesIn word config.rest :=
    fun hread => Nat.le_trans (Nat.add_le_add_left (hbehind _ _) _) (times_of_completes hword hread)
  have hnames : ∀ {draft : Draft} {name : Text} {c : Char} {rest : Text},
      config.mode.Names config.rest draft name (c :: rest) →
        draft.times word + timesIn word name + timesIn word rest ≤
          config.mode.times word + timesIn word config.rest :=
    fun hread => Nat.le_trans (Nat.add_le_add_left (hbehind _ _) _) (times_of_names hword hread)
  have hstep := @tagStep_step sections config hmode
  generalize config.step sections = outcome at hstep
  cases hstep with
  | dropped => exact times_close_le hword
  | given hread => exact times_emitTag_le hword (hcompletes hread)
  | selfClosing hread => exact times_enter_le rfl (hcompletes hread)
  | beforeAttribute hread hafter =>
    rcases hafter with rfl | rfl
    · exact times_enter_le rfl (hcompletes hread)
    · exact times_enter_le rfl (times_of_completes hword hread)
  | attributeName hread _ => exact times_enter_le rfl (times_of_completes hword hread)
  | afterAttributeName hread => exact times_enter_le rfl (hnames hread)
  | beforeValue hread => exact times_enter_le rfl (hnames hread)
  | quotedValue hread _ => exact times_enter_le rfl (hnames hread)
  | bareValue hread _ => exact times_enter_le rfl (times_of_names hword hread)

variable (hsigns : Text.Holds (· ∉ word) signs)
include hsigns

/-- A bracket that opens no markup is text. -/
theorem times_tagOpen_le (pending rest : Text) :
    (step sections ⟨.tagOpen, pending, rest⟩).times word ≤
      parts word ⟨.tagOpen, pending, rest⟩ := by
  have hbracket : '<' ∉ word := hsigns '<' (by decide)
  simp only [step, stepTagOpen]
  split
  · have hfront := Text.timesIn_separated_le hword hbracket pending []
    rw [times_close hword]
    exact hfront
  · next c rest =>
    have hrest := Text.timesIn_le_of_within hword (List.suffix_cons c rest).isInfix
    have hpassed := Nat.add_le_add_left hrest 0
    split
    · exact times_enter_le rfl hpassed
    · split
      · exact times_enter_le rfl hpassed
      · split
        · exact times_enter_le rfl hpassed
        · split
          · exact times_enter_le rfl (Nat.le_refl _)
          · show 0 + timesIn word (pending ++ ['<'] ++ c :: rest) ≤ _
            have hboth := Text.timesIn_separated_le hword hbracket pending (c :: rest)
            rw [List.append_assoc, List.singleton_append, Nat.zero_add]
            exact hboth

/-- An end tag without a name is dropped, and the word may not lie across the seam. -/
theorem times_endTagOpen_le (pending rest : Text)
    (hseam : ∀ seam ∈ seam? ⟨.endTagOpen, pending, rest⟩, ¬ Crosses word seam.1 seam.2) :
    (step sections ⟨.endTagOpen, pending, rest⟩).times word ≤
      parts word ⟨.endTagOpen, pending, rest⟩ := by
  have hnone : ∀ c ∈ ['<', '/'], c ∉ word := hsigns.sub (by decide)
  simp only [step, stepEndTagOpen]
  split
  · rw [times_close hword]
    exact Nat.le_add_right_of_le (Text.timesIn_append_le_of_notMem hword hnone pending)
  · next c rest =>
    split
    · exact times_enter_le rfl (Nat.le_refl _)
    · split
      · next hc =>
        subst hc
        have hjoined := Text.timesIn_append_le hword (hseam _ rfl)
        have hrest := Text.timesIn_le_of_within hword (List.suffix_cons '>' rest).isInfix
        show 0 + timesIn word (pending ++ rest) ≤ timesIn word pending + 0 + timesIn word ('>' :: rest)
        simp only at hjoined
        omega
      · exact times_enter_le rfl (Nat.le_refl _)

/-- A marked section, with the signs around it. -/
theorem times_declarationOpen_le (pending rest : Text) :
    (step sections ⟨.declarationOpen, pending, rest⟩).times word ≤
      parts word ⟨.declarationOpen, pending, rest⟩ := by
  have htoken : ∀ content, Builder.share (Content.times word) (sectionToken sections content) ≤
      timesIn word content := by
    intro content
    have hopening : ∀ c ∈ sectionOpening, c ∉ word := hsigns.sub (by decide)
    have hclosing : ∀ c ∈ "]]".toList, c ∉ word := hsigns.sub (by decide)
    have hbody : timesIn word (sectionOpening ++ content ++ "]]".toList) ≤ timesIn word content := by
      refine Nat.le_trans (Text.timesIn_append_le_of_notMem hword hclosing _) ?_
      rw [Text.timesIn_append_of_notMem hword hopening]
    unfold sectionToken
    simp only
    split
    · refine Nat.le_trans (Nat.le_of_eq ?_) hbody
      exact Text.timesIn_cons_of_notMem hword (hsigns '!' (by decide)) _
    · exact hbody
  have hsuffix : ∀ {mark after : Text}, mark.isPrefixOf? rest = some after →
      timesIn word after ≤ timesIn word rest := by
    intro mark after hafter
    rw [Text.isPrefixOf?_eq_some_iff.1 hafter]
    exact Text.timesIn_le_of_within hword (List.suffix_append mark after).isInfix
  simp only [step, stepDeclarationOpen]
  split
  · next hdash => exact times_enter_le rfl (Nat.add_le_add_left (hsuffix hdash) 0)
  · split
    · next inside hopening =>
      have hinside := hsuffix hopening
      split
      · next content after hcut =>
        refine times_emit_le hword ?_
        have hsplit := Text.timesIn_add_le hword content (sectionClosing ++ after)
        have hafter := Text.timesIn_le_of_within hword (List.suffix_append sectionClosing after).isInfix
        rw [← List.append_assoc, ← Text.eq_append_of_cut? hcut] at hsplit
        have hcontent := htoken content
        show _ ≤ 0 + timesIn word rest
        omega
      · refine times_emit_le hword ?_
        have hcontent := htoken inside
        have hempty := Text.timesIn_nil hword
        show _ ≤ 0 + timesIn word rest
        omega
    · exact times_enter_le rfl (Nat.le_refl _)

/-- One step. -/
theorem times_step_le (hseam : ∀ seam ∈ config.seam?, ¬ Crosses word seam.1 seam.2) :
    (config.step sections).times word ≤ config.times word := by
  by_cases htag : config.mode.IsTag
  · exact Nat.le_trans (times_tag_le hword htag) (parts_le_times hword config)
  obtain ⟨mode, pending, rest⟩ := config
  cases mode with
  | data =>
    show _ ≤ timesIn word (pending ++ rest)
    simp only [step, stepCharacters]
    split
    · rw [times_close hword]
      have hfront : pending ++ rest.takeWhile (· ≠ '<') <+: pending ++ rest :=
        (List.prefix_append_right_inj pending).2 (List.takeWhile_prefix _)
      exact Text.timesIn_le_of_within hword hfront.isInfix
    · next c after hdrop =>
      have hread := times_takeWhile_add_le hword (· ≠ '<') pending rest
      have hafter := Text.timesIn_le_of_within hword (List.suffix_cons c after).isInfix
      rw [hdrop] at hread
      show 0 + (timesIn word (pending ++ rest.takeWhile (· ≠ '<')) + 0 + timesIn word after) ≤ _
      omega
  | tagOpen => exact times_tagOpen_le hword hsigns pending rest
  | endTagOpen => exact times_endTagOpen_le hword hsigns pending rest hseam
  | declarationOpen => exact times_declarationOpen_le hword hsigns pending rest
  | comment => exact times_stepData_le hword (List.forall_mem_nil _)
  | declaration => exact times_stepData_le hword (hsigns.sub (by decide))
  | instruction => exact times_stepData_le hword (hsigns.sub (by decide))
  | bogusComment => exact times_stepData_le hword (List.forall_mem_nil _)
  | rawText name =>
    show _ ≤ timesIn word (pending ++ rest)
    simp only [step, stepRawText]
    split
    · rw [times_close hword]
    · next raw after hraw =>
      have hsplit := Text.timesIn_add_le hword (pending ++ raw) ('<' :: '/' :: after)
      have hafter : timesIn word after ≤ timesIn word ('<' :: '/' :: after) :=
        Text.timesIn_le_of_within hword ⟨['<', '/'], [], List.append_nil _⟩
      have hempty := Text.timesIn_nil hword
      rw [List.append_assoc, ← eq_append_of_rawEnd? hraw] at hsplit
      simp only [Step.times, timesAll_flush hword]
      show _ + (timesIn word [] + 0 + timesIn word after) ≤ _
      omega
  | _ => exact absurd trivial htag

/-- What a run gives out. -/
theorem times_run_le (config : Config)
    (hseams : ∀ seam ∈ config.seams sections, ¬ Crosses word seam.1 seam.2) :
    timesAll word (config.run sections) ≤ config.times word := by
  induction config using run.induct sections with
  | case1 config tokens hstep =>
    have htimes := @times_step_le word hword sections config hsigns fun seam hseam =>
      hseams seam (mem_seams_of_mem_seam? hseam)
    rw [hstep] at htimes
    rw [run_of_finish hstep]
    exact htimes
  | case2 config tokens next hstep ih =>
    have htimes := @times_step_le word hword sections config hsigns fun seam hseam =>
      hseams seam (mem_seams_of_mem_seam? hseam)
    have hrest := ih fun seam hseam => hseams seam (mem_seams_of_advance hstep hseam)
    rw [hstep] at htimes
    rw [run_of_advance hstep, timesAll_append]
    exact Nat.le_trans (Nat.add_le_add_left hrest _) htimes

end Config

end

/-- **Words in tokens.** In the tokens of a text a word stands at most as often as in the text, if it
does not lie across a seam. -/
theorem timesAll_tokens_le (hword : word ≠ []) (hsigns : Text.Holds (· ∉ word) signs) {text : Text}
    {sections : Bool}
    (hseams : ∀ seam ∈ Config.seams sections ⟨.data, [], text⟩, ¬ Crosses word seam.1 seam.2) :
    timesAll word (tokens text sections) ≤ timesIn word text :=
  Config.times_run_le hword hsigns _ hseams

end Scanner

end MarkupBinding
