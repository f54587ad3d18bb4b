import Mathlib.Data.List.TakeWhile
import MarkupBinding.Proofs.Token.Weight

/-!
# A text with an end tag behind it

The scan of a text with more text behind it goes like that of the text alone up to where the latter
ends. If it ends inside of a tag, the tag goes on into what stands behind, and ends there at the
earliest with the first closing bracket.

* `Within`, `run_within`: a scan inside of markup, in a text of which only the last character closes
  markup, brings no more text.
* `step_extended`: a step inside of a tag with more text behind it.
* `run_extended`: a scan that adds nothing but text, with an end tag behind it.
-/

namespace MarkupBinding

namespace Token

/-- Whether a token is a comment, a section or a directive. -/
def isAside : Token → Bool
  | .data .text _ => false
  | .data _ _ => true
  | _ => false

/-- Whether a token always adds a node that is no text. -/
def adds : Token → Bool
  | .startTag name _ => !name.isEmpty
  | token => token.isAside

theorem isAside_of_adds {token : Token} (h : token.adds = false) : token.isAside = false := by
  cases token with
  | startTag name attrs => rfl
  | _ => exact h

/-- No text comes behind a comment, a section or a directive. -/
def TextsFirst (tokens : List Token) : Prop :=
  ∃ first second, tokens = first ++ second ∧ (∀ token ∈ first, token.isAside = false) ∧
    ∀ token ∈ second, ∀ content, token ≠ .data .text content

theorem TextsFirst.append {tokens rest : List Token} (h : TextsFirst rest)
    (htokens : ∀ token ∈ tokens, token.isAside = false) : TextsFirst (tokens ++ rest) := by
  obtain ⟨first, second, rfl, hfirst, hsecond⟩ := h
  refine ⟨tokens ++ first, second, (List.append_assoc ..).symm, ?_, hsecond⟩
  intro token htoken
  rcases List.mem_append.1 htoken with htoken | htoken
  · exact htokens token htoken
  · exact hfirst token htoken

end Token

namespace Scanner

/-- The modes inside of a comment, a section or a directive. -/
def Mode.IsAside : Mode → Prop
  | .declarationOpen | .comment | .declaration | .instruction | .bogusComment => True
  | _ => False

namespace Config

variable {sections : Bool} {tail : Text} {config : Config}

/-! ## Inside of markup up to the end -/

/-- What a step inside of markup can be that goes on in a part of `tail`. -/
inductive Within (tail pending : Text) : Step → Prop
  | pass {mode : Mode} {rest : Text} (inner : mode.IsInner) (suffix : rest <:+ tail) :
      Within tail pending (.advance [] ⟨mode, pending, rest⟩)
  | emit {token : Token} {mode : Mode} {rest : Text} (text : ∀ content, token ≠ .data .text content)
      (behind : '>' :: rest <:+ tail ∨ rest = []) (isBehind : mode = .data ∨ ∃ name, mode = .rawText name) :
      Within tail pending (.advance (flush pending ++ [token]) ⟨mode, [], rest⟩)
  | finish {tokens : List Token} (text : ∀ token ∈ tokens, ∀ content, token ≠ .data .text content) :
      Within tail pending (.finish (flush pending ++ tokens))

theorem within_step (hinner : config.mode.IsInner) (hrest : config.rest <:+ tail) :
    Within tail config.pending (config.step sections) := by
  have hstep := @step_inner sections config hinner
  generalize config.step sections = outcome at hstep
  cases hstep with
  | pass inner suffix weight => exact .pass inner (suffix.trans hrest)
  | emit text behind isBehind weight =>
    refine .emit text (behind.imp_left fun h => h.trans hrest) ?_
    rcases isBehind with rfl | ⟨name, attrs, _, _, rfl⟩
    · exact .inl rfl
    · exact .inr ⟨name, rfl⟩
  | finish text weight => exact .finish text

theorem within_close : Within tail config.pending config.close := by
  refine .finish ?_
  intro token htoken
  rw [List.mem_singleton.1 htoken]
  exact fun _ => Token.noConfusion

theorem within_emitTag {draft : Draft} {rest : Text} (hrest : '>' :: rest <:+ tail) :
    Within tail config.pending (config.emitTag draft rest) := by
  obtain ⟨side, name, attrs⟩ := draft
  refine .emit ?_ (.inl hrest) ?_
  · cases side <;> exact fun _ => Token.noConfusion
  · split
    · exact .inr ⟨_, rfl⟩
    · exact .inl rfl

/-- At the end of the input nothing comes of an empty rest. -/
theorem run_empty {mode : Mode} (hmode : mode = .data ∨ ∃ name, mode = .rawText name) :
    run sections ⟨mode, [], []⟩ = [.endOfInput] := by
  rcases hmode with rfl | ⟨name, rfl⟩
  · exact run_data_nil []
  · refine run_of_finish ?_
    simp [step, stepRawText, rawEnd?, close, flush]

/-- Inside of markup, if only the last character closes markup, no more text comes. -/
theorem run_within (htail : ∀ part, '>' :: part <:+ tail → part = []) (config : Config) :
    Within tail config.pending (config.step sections) →
      ∃ last, config.run sections = flush config.pending ++ last ∧
        ∀ token ∈ last, ∀ content, token ≠ .data .text content := by
  induction config using run.induct sections with
  | case1 config tokens hstep =>
    intro hwithin
    rw [run_of_finish hstep]
    rw [hstep] at hwithin
    cases hwithin with
    | finish text => exact ⟨_, rfl, text⟩
  | case2 config tokens next hstep ih =>
    intro hwithin
    rw [run_of_advance hstep]
    rw [hstep] at hwithin
    cases hwithin with
    | pass inner suffix =>
      obtain ⟨last, hrun, hlast⟩ := ih (within_step inner suffix)
      exact ⟨last, hrun, hlast⟩
    | @emit token mode rest text behind isBehind =>
      have hrest : rest = [] := by
        rcases behind with hsuffix | hnil
        · exact htail rest hsuffix
        · exact hnil
      subst hrest
      refine ⟨[token, .endOfInput], ?_, ?_⟩
      · rw [run_empty isBehind, List.append_assoc]
        rfl
      · intro other hother
        rcases List.mem_cons.1 hother with rfl | hother
        · exact text
        · rw [List.mem_singleton.1 hother]
          exact fun _ => Token.noConfusion

/-! ## Steps inside of a tag with more text behind it -/

/-- A step with more text behind what it reads: the same step, or one that goes on in that text if
there was nothing left to go on in. -/
inductive Extended (tail pending : Text) : Step → Step → Prop
  | on (tokens : List Token) (next : Config) :
      Extended tail pending (.advance tokens next)
        (.advance tokens { next with rest := next.rest ++ tail })
  | beyond {tokens : List Token} {outcome : Step} (within : Within tail pending outcome) :
      Extended tail pending (.finish tokens) outcome

/-- A run of characters ends where it did, or goes on into the text behind. -/
theorem dropWhile_append_cases (p : Char → Bool) (text tail : Text) :
    (∃ c after, text.dropWhile p = c :: after ∧ (text ++ tail).dropWhile p = c :: (after ++ tail) ∧
      (text ++ tail).takeWhile p = text.takeWhile p) ∨
    (text.dropWhile p = [] ∧ (text ++ tail).dropWhile p <:+ tail) := by
  induction text with
  | nil => exact .inr ⟨rfl, List.dropWhile_suffix p⟩
  | cons d text ih =>
    by_cases hd : p d = true
    · rw [List.cons_append, List.dropWhile_cons_of_pos hd, List.dropWhile_cons_of_pos hd,
        List.takeWhile_cons_of_pos hd, List.takeWhile_cons_of_pos hd]
      rcases ih with ⟨c, after, hdrop, hlong, htake⟩ | hbeyond
      · exact .inl ⟨c, after, hdrop, hlong, by rw [htake]⟩
      · exact .inr hbeyond
    · rw [List.cons_append, List.dropWhile_cons_of_neg hd, List.dropWhile_cons_of_neg hd,
        List.takeWhile_cons_of_neg hd, List.takeWhile_cons_of_neg hd]
      exact .inl ⟨d, text, rfl, rfl, rfl⟩

theorem extended_goesOn {base : Nat} {pending : Text} {next : Text → Char → Text → Step}
    (h : GoesOn base pending next) (front rest : Text) (c : Char) :
    Extended tail pending (next front c rest) (next front c (rest ++ tail)) := by
  induction h with
  | behind mode carries => exact .on _ _
  | again mode carries => exact .on _ _
  | close draft carries _ ih =>
    beta_reduce
    split
    · exact .on _ _
    · exact ih
  | ite q _ _ ih ihother =>
    beta_reduce
    by_cases hc : q c
    · rw [if_pos hc, if_pos hc]
      exact ih
    · rw [if_neg hc, if_neg hc]
      exact ihother

theorem within_goesOn {base : Nat} {pending : Text} {next : Text → Char → Text → Step}
    (h : GoesOn base pending next) {front rest : Text} {c : Char} (hrest : c :: rest <:+ tail) :
    Within tail pending (next front c rest) := by
  induction h with
  | behind mode carries => exact .pass (carries front c).1 ((List.suffix_cons c rest).trans hrest)
  | again mode carries => exact .pass (carries front c).1 hrest
  | close draft carries _ ih =>
    beta_reduce
    split
    · next hc => exact @within_emitTag tail ⟨.data, pending, []⟩ _ _ (hc ▸ hrest)
    · exact ih
  | ite q _ _ ih ihother =>
    beta_reduce
    split
    · exact ih
    · exact ihother

theorem extended_readRun {base : Nat} {p : Char → Bool} {next : Text → Char → Text → Step}
    {pending : Text} (h : GoesOn base pending next) (text : Text) :
    Extended tail pending (readRun p next pending text) (readRun p next pending (text ++ tail)) := by
  unfold readRun
  rcases dropWhile_append_cases p text tail with ⟨c, after, hdrop, hlong, htake⟩ | ⟨hdrop, hlong⟩
  · rw [hdrop, hlong, htake]
    exact extended_goesOn h _ after c
  · rw [hdrop]
    refine .beyond ?_
    split
    · exact @within_close tail ⟨.data, pending, []⟩
    · next c rest hbeyond =>
      rw [hbeyond] at hlong
      exact within_goesOn h hlong

/-- A step inside of a tag, with more text behind what it reads. -/
theorem step_extended (hmode : config.mode.IsTag) :
    Extended tail config.pending (config.step sections)
      (step sections { config with rest := config.rest ++ tail }) := by
  obtain ⟨mode, pending, text⟩ := config
  rcases @step_tag sections mode hmode pending with ⟨p, next, hnext, hstep⟩ | ⟨hnil, hcons⟩
  · rw [hstep, hstep]
    exact extended_readRun hnext text
  · cases text with
    | nil =>
      -- Not even the first character of the name was there.
      rw [hnil]
      exact .beyond (@within_step sections tail ⟨mode, pending, tail⟩ (Mode.isInner_of_isTag hmode)
        List.suffix_rfl)
    | cons first text =>
      obtain ⟨p, next, hnext, hstep⟩ := hcons first
      rw [List.cons_append, hstep, hstep]
      exact extended_readRun hnext text

/-! ## Scans that add nothing but text -/

theorem exists_adds_of_emit {token : Token} {rest : Text} (htoken : token.adds = true)
    (hstep : config.step sections = config.emit token rest) :
    ∃ token ∈ config.run sections, token.adds = true := by
  rw [run_of_advance hstep]
  exact ⟨token, by simp, htoken⟩

/-- Data that are no text come out of a scan that reads them, closed or not. -/
theorem exists_adds_of_stepData {mark sign : Text} {kind : DataKind} (hkind : kind ≠ .text)
    (hstep : config.step sections = config.stepData mark kind sign) :
    ∃ token ∈ config.run sections, token.adds = true := by
  have hadds : ∀ content, (Token.data kind content).adds = true := by
    intro content
    cases kind with
    | text => exact absurd rfl hkind
    | _ => rfl
  unfold stepData at hstep
  split at hstep
  · next content rest _ => exact exists_adds_of_emit (hadds (sign ++ content)) hstep
  · rw [run_of_finish hstep]
    exact ⟨_, by simp, hadds (sign ++ config.rest)⟩

theorem exists_adds_of_aside (hmode : config.mode.IsAside) :
    ∃ token ∈ config.run sections, token.adds = true := by
  obtain ⟨mode, pending, text⟩ := config
  cases mode with
  | comment => exact exists_adds_of_stepData (by decide) rfl
  | declaration => exact exists_adds_of_stepData (by decide) rfl
  | instruction => exact exists_adds_of_stepData (by decide) rfl
  | bogusComment => exact exists_adds_of_stepData (by decide) rfl
  | declarationOpen =>
    have hsection : ∀ content, (sectionToken sections content).adds = true := by
      intro content
      cases sections <;> rfl
    have hstep : step sections ⟨.declarationOpen, pending, text⟩ =
      stepDeclarationOpen ⟨.declarationOpen, pending, text⟩ sections := rfl
    unfold stepDeclarationOpen at hstep
    split at hstep
    · rw [run_of_advance hstep, List.nil_append]
      exact exists_adds_of_stepData (by decide) rfl
    · split at hstep
      · split at hstep <;> exact exists_adds_of_emit (hsection _) hstep
      · rw [run_of_advance hstep, List.nil_append]
        exact exists_adds_of_stepData (by decide) rfl
  | _ => cases hmode

/-- Text that waits is no aside. -/
theorem isAside_flush {pending : Text} : ∀ token ∈ flush pending, token.isAside = false := by
  intro token htoken
  unfold flush at htoken
  split at htoken
  · cases htoken
  · rw [List.mem_singleton.1 htoken]
    rfl

variable {name : Text}

/-- A scan inside of markup that finds an end tag brings no more text. -/
theorem textsFirst_within (hname : IsTagName name)
    (h : Within (endTagMarkup name) config.pending (config.step sections)) :
    Token.TextsFirst (config.run sections) := by
  obtain ⟨last, hrun, hlast⟩ := run_within (fun _ => eq_nil_of_bracket hname) config h
  exact ⟨flush config.pending, last, hrun, isAside_flush, hlast⟩

/-- Where text is read the end tag is read as one. -/
theorem textsFirst_data (hname : IsTagName name) (pending : Text) :
    Token.TextsFirst (run sections ⟨.data, pending, endTagMarkup name⟩) := by
  have hrun := @run_endTag sections name hname pending []
  rw [List.append_nil, run_data_nil] at hrun
  refine ⟨flush pending, _, hrun, isAside_flush, ?_⟩
  intro token htoken
  simp only [flush, List.isEmpty_nil, if_true, List.nil_append, List.mem_cons, List.not_mem_nil,
    or_false] at htoken
  rcases htoken with rfl | rfl <;> exact fun _ => Token.noConfusion

/-- With an end tag behind what it reads a scan brings no text behind a comment, a section or a
directive, or its next step is the same as without the end tag. -/
def EndsOrGoesOn (sections : Bool) (name : Text) (config : Config) : Prop :=
  Token.TextsFirst (run sections { config with rest := config.rest ++ endTagMarkup name }) ∨
    ∃ tokens next, config.step sections = .advance tokens next ∧
      step sections { config with rest := config.rest ++ endTagMarkup name } =
        .advance tokens { next with rest := next.rest ++ endTagMarkup name } ∧
      ∀ raw, next.mode ≠ .rawText raw

theorem endsOrGoesOn_data (hname : IsTagName name) (pending text : Text) :
    EndsOrGoesOn sections name ⟨.data, pending, text⟩ := by
  rcases dropWhile_append_cases (· ≠ '<') text (endTagMarkup name) with
    ⟨c, after, hdrop, hlong, htake⟩ | ⟨hdrop, -⟩
  · refine .inr ⟨[], ⟨.tagOpen, pending ++ text.takeWhile (· ≠ '<'), after⟩, ?_, ?_,
      fun _ => Mode.noConfusion⟩
    · simp only [step, stepCharacters]
      rw [hdrop]
    · simp only [step, stepCharacters]
      rw [hlong, htake]
  · -- Without a bracket all of it is text, up to the end tag.
    have hnone : '<' ∉ text := by
      intro hmem
      simpa using List.dropWhile_eq_nil_iff.1 hdrop _ hmem
    left
    rw [run_text hnone]
    exact textsFirst_data hname _

theorem endsOrGoesOn_tagOpen (hname : IsTagName name) (pending text : Text) :
    EndsOrGoesOn sections name ⟨.tagOpen, pending, text⟩ := by
  cases text with
  | nil =>
    -- The bracket is text, for another bracket follows.
    left
    have hbracket := @run_tagOpen_bracket sections pending ('/' :: name ++ ['>'])
    exact (congrArg _ hbracket).mpr (textsFirst_data hname _)
  | cons c text =>
    right
    simp only [step, stepTagOpen, List.cons_append]
    split
    · exact ⟨_, _, rfl, rfl, fun _ => Mode.noConfusion⟩
    · split
      · exact ⟨_, _, rfl, rfl, fun _ => Mode.noConfusion⟩
      · split
        · exact ⟨_, _, rfl, rfl, fun _ => Mode.noConfusion⟩
        · split <;> exact ⟨_, _, rfl, rfl, fun _ => Mode.noConfusion⟩

theorem endsOrGoesOn_endTagOpen (hname : IsTagName name) (pending text : Text) :
    EndsOrGoesOn sections name ⟨.endTagOpen, pending, text⟩ := by
  cases text with
  | nil =>
    -- The end tag becomes the content of a comment.
    left
    have hstep : step sections ⟨.endTagOpen, pending, endTagMarkup name⟩ =
        .advance [] ⟨.bogusComment, pending, endTagMarkup name⟩ := by
      have hletter : Text.isLetter '<' = false := by decide
      simp [step, stepEndTagOpen, endTagMarkup, enter, hletter]
    refine @textsFirst_within sections ⟨.endTagOpen, pending, endTagMarkup name⟩ name hname ?_
    rw [hstep]
    exact .pass trivial List.suffix_rfl
  | cons c text =>
    right
    simp only [step, stepEndTagOpen, List.cons_append]
    split
    · exact ⟨_, _, rfl, rfl, fun _ => Mode.noConfusion⟩
    · split <;> exact ⟨_, _, rfl, rfl, fun _ => Mode.noConfusion⟩

theorem endsOrGoesOn_tag (hname : IsTagName name) (htag : config.mode.IsTag)
    (hadds : ∀ token ∈ config.run sections, token.adds = false) :
    EndsOrGoesOn sections name config := by
  have hlong := @step_extended sections (endTagMarkup name) config htag
  have hinner := @step_inner sections config (Mode.isInner_of_isTag htag)
  unfold EndsOrGoesOn
  generalize hstep : config.step sections = outcome at hlong hinner
  generalize hstep' : step sections { config with rest := config.rest ++ endTagMarkup name } =
    outcome' at hlong
  cases hlong with
  | beyond within =>
    rw [← hstep'] at within
    exact .inl (textsFirst_within hname within)
  | on tokens next =>
    refine .inr ⟨tokens, next, rfl, rfl, ?_⟩
    rintro raw hraw
    cases hinner with
    | pass inner =>
      cases hraw
      exact inner
    | @emit token mode rest text behind isBehind weight =>
      -- Only a start tag opens a raw text element, and a start tag adds an element.
      rcases isBehind with rfl | ⟨tag, attrs, rfl, htagName, _⟩
      · cases hraw
      · have hfalse := hadds (.startTag tag attrs) (by rw [run_of_advance hstep]; simp)
        cases tag with
        | nil => exact absurd htagName (by decide)
        | cons c tag => cases hfalse

/-- One step of a scan that adds nothing but text. -/
theorem step_endsOrGoesOn (hname : IsTagName name) (hmode : ∀ raw, config.mode ≠ .rawText raw)
    (hadds : ∀ token ∈ config.run sections, token.adds = false) :
    EndsOrGoesOn sections name config := by
  by_cases haside : config.mode.IsAside
  · obtain ⟨token, htoken, htrue⟩ := @exists_adds_of_aside sections config haside
    rw [hadds token htoken] at htrue
    cases htrue
  by_cases htag : config.mode.IsTag
  · exact endsOrGoesOn_tag hname htag hadds
  obtain ⟨mode, pending, text⟩ := config
  cases mode with
  | data => exact endsOrGoesOn_data hname pending text
  | tagOpen => exact endsOrGoesOn_tagOpen hname pending text
  | endTagOpen => exact endsOrGoesOn_endTagOpen hname pending text
  | rawText raw => exact absurd rfl (hmode raw)
  | _ => first | exact absurd trivial htag | exact absurd trivial haside

/-- If a scan adds nothing but text, and an end tag is put behind what it reads, no text comes behind
a comment, a section or a directive. -/
theorem run_extended (hname : IsTagName name) (config : Config) :
    (∀ raw, config.mode ≠ .rawText raw) → (∀ token ∈ config.run sections, token.adds = false) →
      Token.TextsFirst
        (run sections { config with rest := config.rest ++ endTagMarkup name }) := by
  induction config using run.induct sections with
  | case1 config tokens hstep =>
    intro hmode hadds
    rcases step_endsOrGoesOn hname hmode hadds with hend | ⟨tokens, next, hgo, _, _⟩
    · exact hend
    · rw [hstep] at hgo
      cases hgo
  | case2 config tokens next hstep ih =>
    intro hmode hadds
    rcases step_endsOrGoesOn hname hmode hadds with hend | ⟨tokens, next, hgo, hlong, hnext⟩
    · exact hend
    · rw [hstep] at hgo
      cases hgo
      rw [run_of_advance hstep] at hadds
      rw [run_of_advance hlong]
      refine Token.TextsFirst.append (ih hnext fun token htoken =>
        hadds token (List.mem_append_right _ htoken)) ?_
      intro token htoken
      exact Token.isAside_of_adds (hadds token (List.mem_append_left _ htoken))

end Config
end Scanner
end MarkupBinding
