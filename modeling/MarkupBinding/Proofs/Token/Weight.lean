import MarkupBinding.Proofs.Token.Tag

/-!
# What a scan makes of the weight of a text

Inside of a tag, a comment or a directive a step of the scanner gives nothing to the text that
waits: it passes some of the input over, or gives out one token that is no text. With that said once,
the weight of all tokens is bounded by one induction over the run.

* `InnerStep`, `step_inner`: the steps inside of markup.
* `weightAll_run_le`: tokens weigh no more than the text they were read from.
-/

namespace MarkupBinding

namespace Token

/-- The weight of a token: that of a text, the name of a start tag with its bracket, and one for any
other part of the input. -/
def weight : Token → Nat
  | .data .text content => max 1 content.weight
  | .startTag name _ => name.weight + 1
  | .endOfInput => 0
  | _ => 1

/-- The weight of the text in a token. -/
def textWeight : Token → Nat
  | .data .text content => content.weight
  | _ => 0

/-- The weight of some tokens. -/
def weightAll (tokens : List Token) : Nat := (tokens.map weight).sum

/-- The weight of the text in some tokens. -/
def textWeightAll (tokens : List Token) : Nat := (tokens.map textWeight).sum

@[simp] theorem weightAll_nil : weightAll [] = 0 := rfl

@[simp] theorem weightAll_cons (token : Token) (tokens : List Token) :
    weightAll (token :: tokens) = token.weight + weightAll tokens := rfl

@[simp] theorem weightAll_append (first second : List Token) :
    weightAll (first ++ second) = weightAll first + weightAll second := by
  unfold weightAll
  rw [List.map_append, List.sum_append]

@[simp] theorem textWeightAll_cons (token : Token) (tokens : List Token) :
    textWeightAll (token :: tokens) = token.textWeight + textWeightAll tokens := rfl

@[simp] theorem textWeightAll_append (first second : List Token) :
    textWeightAll (first ++ second) = textWeightAll first + textWeightAll second := by
  unfold textWeightAll
  rw [List.map_append, List.sum_append]

/-- Only text has text in it. -/
theorem textWeight_eq_zero {token : Token} (h : ∀ content, token ≠ .data .text content) :
    token.textWeight = 0 := by
  unfold textWeight
  split
  · exact absurd rfl (h _)
  · rfl

theorem textWeightAll_eq_zero {tokens : List Token}
    (h : ∀ token ∈ tokens, ∀ content, token ≠ .data .text content) : textWeightAll tokens = 0 := by
  induction tokens with
  | nil => rfl
  | cons token tokens ih =>
    rw [textWeightAll_cons, textWeight_eq_zero (h token List.mem_cons_self),
      ih fun other hother => h other (List.mem_cons_of_mem token hother)]

/-- Texts are a part of the tokens. -/
theorem textWeightAll_le_weightAll (tokens : List Token) :
    textWeightAll tokens ≤ weightAll tokens := by
  have hone : ∀ token : Token, token.textWeight ≤ token.weight := by
    intro token
    unfold textWeight
    split
    · exact Nat.le_max_right 1 _
    · exact Nat.zero_le _
  induction tokens with
  | nil => exact Nat.le_refl 0
  | cons token tokens ih => exact Nat.add_le_add (hone token) ih

/-- A token that is no text adds its own weight to that of the text. -/
theorem textWeightAll_add_weight_le {tokens : List Token} {token : Token} (h : token ∈ tokens)
    (htext : token.textWeight = 0) :
    textWeightAll tokens + token.weight ≤ weightAll tokens := by
  obtain ⟨before, after, rfl⟩ := List.append_of_mem h
  have hbefore := textWeightAll_le_weightAll before
  have hafter := textWeightAll_le_weightAll after
  rw [textWeightAll_append, textWeightAll_cons, weightAll_append, weightAll_cons, htext]
  omega

end Token

namespace Scanner

@[simp] theorem weightAll_flush (pending : Text) :
    Token.weightAll (flush pending) = pending.weight := by
  unfold flush
  cases pending with
  | nil => rfl
  | cons c pending => exact Nat.max_eq_right (Text.weight_pos (List.cons_ne_nil c pending))

@[simp] theorem textWeightAll_flush (pending : Text) :
    Token.textWeightAll (flush pending) = pending.weight := by
  unfold flush
  cases pending with
  | nil => rfl
  | cons c pending => exact Nat.add_zero _

/-- The mode that a token leads to. Only the start tag of a raw text element does not lead back to
character data. -/
def Mode.IsBehind (mode : Mode) (token : Token) : Prop :=
  mode = .data ∨
    ∃ name attrs, token = .startTag name attrs ∧ Element.isRawText name = true ∧
      mode = .rawText name

namespace Config

variable {sections : Bool} {config : Config}

/-- What a step inside of markup can be. It passes a part of the input over, gives out one token and
goes on behind a closing bracket, or finishes. -/
inductive InnerStep (config : Config) : Step → Prop
  | pass {mode : Mode} {rest : Text} (inner : mode.IsInner) (suffix : rest <:+ config.rest)
      (weight : mode.nameWeight + rest.weight ≤ config.mode.nameWeight + config.rest.weight) :
      InnerStep config (.advance [] ⟨mode, config.pending, rest⟩)
  | emit {token : Token} {mode : Mode} {rest : Text} (text : ∀ content, token ≠ .data .text content)
      (behind : '>' :: rest <:+ config.rest ∨ rest = []) (isBehind : mode.IsBehind token)
      (weight : token.weight + rest.weight ≤ config.mode.nameWeight + config.rest.weight + 1) :
      InnerStep config (.advance (flush config.pending ++ [token]) ⟨mode, [], rest⟩)
  | finish {tokens : List Token} (text : ∀ token ∈ tokens, ∀ content, token ≠ .data .text content)
      (weight : Token.weightAll tokens ≤ 1) :
      InnerStep config (.finish (flush config.pending ++ tokens))

theorem inner_close : InnerStep config config.close := by
  refine .finish ?_ (Nat.zero_le 1)
  intro token htoken content
  rw [List.mem_singleton.1 htoken]
  exact Token.noConfusion

theorem inner_enter {mode : Mode} {rest : Text} (hinner : mode.IsInner)
    (hsuffix : rest <:+ config.rest) (hname : mode.nameWeight = config.mode.nameWeight) :
    InnerStep config (config.enter mode rest) := by
  have hrest := Text.weight_le_of_suffix hsuffix
  exact .pass hinner hsuffix (by omega)

theorem inner_emitTag {draft : Draft} {rest : Text} (hsuffix : '>' :: rest <:+ config.rest)
    (hweight : draft.name.weight + rest.weight ≤ config.mode.nameWeight + config.rest.weight) :
    InnerStep config (config.emitTag draft rest) := by
  obtain ⟨side, name, attrs⟩ := draft
  cases side with
  | closing =>
    refine .emit (fun _ => Token.noConfusion) (.inl hsuffix) (.inl rfl) ?_
    show 1 + rest.weight ≤ _
    have hdrop : rest.weight ≤ name.weight + rest.weight := Nat.le_add_left _ _
    omega
  | opening =>
    refine .emit (fun _ => Token.noConfusion) (.inl hsuffix) ?_ ?_
    · by_cases hraw : Element.isRawText name = true
      · exact .inr ⟨name, attrs, rfl, hraw, by simp [hraw]⟩
      · exact .inl (by simp [hraw])
    · show name.weight + 1 + rest.weight ≤ _
      have hdrop : name.weight + rest.weight ≤ config.mode.nameWeight + config.rest.weight := hweight
      omega

/-- Inside of a tag the name takes no more weight than the run has that leaves the input. -/
theorem inner_goesOn {next : Text → Char → Text → Step}
    (h : GoesOn config.mode.nameWeight config.pending next) {front rest : Text} {c : Char}
    (hsuffix : c :: rest <:+ config.rest)
    (hweight : front.weight + Text.weight (c :: rest) ≤ config.rest.weight) :
    InnerStep config (next front c rest) := by
  have hafter := (List.suffix_cons c rest).trans hsuffix
  rw [Text.weight_cons] at hweight
  induction h with
  | behind mode carries =>
    have hname := (carries front c).2
    exact .pass (carries front c).1 hafter (by omega)
  | again mode carries =>
    have hname := (carries front c).2
    refine .pass (carries front c).1 hsuffix ?_
    rw [Text.weight_cons]
    omega
  | close draft carries _ ih =>
    beta_reduce
    split
    · next hc =>
      have hname := carries front
      exact inner_emitTag (hc ▸ hsuffix) (by omega)
    · exact ih
  | ite q _ _ ih ihother =>
    beta_reduce
    split
    · exact ih
    · exact ihother

theorem inner_readRun {p : Char → Bool} {next : Text → Char → Text → Step} {text : Text}
    (h : GoesOn config.mode.nameWeight config.pending next) (htext : text <:+ config.rest) :
    InnerStep config (readRun p next config.pending text) := by
  have hsplit : Text.weight (text.takeWhile p) + Text.weight (text.dropWhile p) = text.weight := by
    rw [← Text.weight_append, List.takeWhile_append_dropWhile]
  have hlight := Text.weight_le_of_suffix htext
  unfold readRun
  split
  · exact inner_close
  · next c rest hdrop =>
    have hsuffix : c :: rest <:+ text := hdrop ▸ List.dropWhile_suffix p
    rw [hdrop] at hsplit
    exact inner_goesOn h (hsuffix.trans htext) (by omega)

theorem inner_stepData {mark sign : Text} {kind : DataKind} (hkind : kind ≠ .text)
    (hmark : ['>'] <:+ mark) : InnerStep config (config.stepData mark kind sign) := by
  have hlight : ∀ content, (Token.data kind content).weight = 1 := by
    intro content
    cases kind with
    | text => exact absurd rfl hkind
    | comment => rfl
    | cdata => rfl
    | directive => rfl
  have htext : ∀ content content', Token.data kind content ≠ .data .text content' :=
    fun _ _ heq => hkind (Token.data.inj heq).1
  unfold stepData
  split
  · next content rest hcut =>
    have hsuffix : '>' :: rest <:+ config.rest := by
      obtain ⟨front, rfl⟩ := hmark
      exact ⟨content ++ front, by rw [Text.eq_append_of_cut? hcut]; simp⟩
    have hrest := Text.weight_le_of_suffix ((List.suffix_cons '>' rest).trans hsuffix)
    refine .emit (htext _) (.inl hsuffix) (.inl rfl) ?_
    rw [hlight]
    omega
  · refine .finish ?_ ?_
    · intro token htoken
      rcases List.mem_cons.1 htoken with rfl | htoken
      · exact htext _
      · rw [List.mem_singleton.1 htoken]
        exact fun _ => Token.noConfusion
    · rw [Token.weightAll_cons, hlight]
      exact Nat.le_refl 1

theorem inner_tag (h : config.mode.IsTag) : InnerStep config (config.step sections) := by
  obtain ⟨mode, pending, rest⟩ := config
  rcases @step_tag sections mode h pending with ⟨p, next, hnext, hstep⟩ | ⟨hnil, hcons⟩
  · rw [hstep]
    exact @inner_readRun ⟨mode, pending, rest⟩ _ _ _ hnext List.suffix_rfl
  · cases rest with
    | nil =>
      rw [hnil]
      exact inner_close
    | cons first text =>
      obtain ⟨p, next, hnext, hstep⟩ := hcons first
      rw [hstep]
      exact @inner_readRun ⟨mode, pending, first :: text⟩ _ _ _ hnext (List.suffix_cons first text)

/-- What a step inside of markup can be. -/
theorem step_inner (h : config.mode.IsInner) : InnerStep config (config.step sections) := by
  by_cases htag : config.mode.IsTag
  · exact inner_tag htag
  obtain ⟨mode, pending, rest⟩ := config
  cases mode with
  | data => cases h
  | tagOpen => cases h
  | endTagOpen => cases h
  | rawText name => cases h
  | declarationOpen =>
    have hlight : ∀ content, (sectionToken sections content).weight = 1 ∧
        ∀ content', sectionToken sections content ≠ .data .text content' := by
      intro content
      cases sections <;> exact ⟨rfl, fun _ heq => by cases heq⟩
    simp only [step, stepDeclarationOpen]
    split
    · next after hdash =>
      have hafter : after <:+ rest := ⟨_, (Text.isPrefixOf?_eq_some_iff.1 hdash).symm⟩
      exact inner_enter trivial hafter rfl
    · split
      · next inside hopening =>
        have hinside : inside <:+ rest := ⟨_, (Text.isPrefixOf?_eq_some_iff.1 hopening).symm⟩
        split
        · next content after hcut =>
          have hsuffix : '>' :: after <:+ rest := by
            refine List.IsSuffix.trans ⟨content ++ [']', ']'], ?_⟩ hinside
            rw [Text.eq_append_of_cut? hcut]
            simp [sectionClosing]
          have hweight := Text.weight_le_of_suffix ((List.suffix_cons '>' after).trans hsuffix)
          refine .emit (hlight _).2 (.inl hsuffix) (.inl rfl) ?_
          rw [(hlight _).1]
          show 1 + after.weight ≤ 0 + rest.weight + 1
          omega
        · refine .emit (hlight _).2 (.inr rfl) (.inl rfl) ?_
          rw [(hlight _).1]
          exact Nat.le_add_left 1 _
      · exact inner_enter trivial List.suffix_rfl rfl
  | comment => exact inner_stepData (by decide) ⟨['-', '-'], rfl⟩
  | declaration => exact inner_stepData (by decide) ⟨[], rfl⟩
  | instruction => exact inner_stepData (by decide) ⟨[], rfl⟩
  | bogusComment => exact inner_stepData (by decide) ⟨[], rfl⟩
  | _ => exact absurd trivial htag

/-! ## The weight of all tokens -/

/-- What was read and is neither given out nor waits: an open bracket, and the name of a tag. -/
def credit : Mode → Nat
  | .data | .rawText _ => 0
  | .tagOpen => 1
  | .endTagOpen => 2
  | mode => mode.nameWeight + 1

/-- The weight that can still be given out. -/
def potential (config : Config) : Nat :=
  config.pending.weight + credit config.mode + config.rest.weight

/-- The weight that a step gives out or leaves to be given out. -/
def stepWeight : Step → Nat
  | .advance tokens next => Token.weightAll tokens + next.potential
  | .finish tokens => Token.weightAll tokens

@[simp] theorem stepWeight_close (config : Config) :
    stepWeight config.close = config.pending.weight := by
  show Token.weightAll (flush config.pending ++ [.endOfInput]) = _
  rw [Token.weightAll_append, weightAll_flush]
  rfl

@[simp] theorem stepWeight_enter (config : Config) (mode : Mode) (rest : Text) :
    stepWeight (config.enter mode rest) = config.pending.weight + credit mode + rest.weight :=
  Nat.zero_add _

theorem credit_of_inner {mode : Mode} (h : mode.IsInner) : credit mode = mode.nameWeight + 1 := by
  cases mode <;> first | rfl | cases h

theorem credit_of_isBehind {mode : Mode} {token : Token} (h : mode.IsBehind token) :
    credit mode = 0 := by
  rcases h with rfl | ⟨name, attrs, _, _, rfl⟩ <;> rfl

/-- Raw text and the bracket and slash behind it are a part of the text. -/
theorem weight_of_rawEnd? {name text raw rest : Text} (h : rawEnd? name text = some (raw, rest)) :
    raw.weight + 2 + rest.weight = text.weight := by
  rw [eq_append_of_rawEnd? h, Text.weight_append, Text.weight_cons, Text.weight_cons]
  have hbracket := Text.letterWeight_bracket
  have hslash := Text.letterWeight_slash
  omega

theorem stepWeight_inner_le (hinner : config.mode.IsInner) :
    stepWeight (config.step sections) ≤ config.potential := by
  have hcredit := credit_of_inner hinner
  have hstep := @step_inner sections config hinner
  generalize config.step sections = outcome at hstep
  unfold potential
  cases hstep with
  | @pass mode rest inner suffix weight =>
    have hmode := credit_of_inner inner
    show 0 + (config.pending.weight + credit mode + rest.weight) ≤ _
    omega
  | @emit token mode rest text behind isBehind weight =>
    have hmode := credit_of_isBehind isBehind
    simp only [stepWeight, potential, Token.weightAll_append, weightAll_flush,
      Token.weightAll_cons, Token.weightAll_nil, Text.weight_nil]
    omega
  | finish text weight =>
    simp only [stepWeight, Token.weightAll_append, weightAll_flush]
    omega

theorem stepWeight_characters_le (pending text : Text) :
    stepWeight (stepCharacters ⟨.data, pending, text⟩) ≤ potential ⟨.data, pending, text⟩ := by
  have hsplit : Text.weight (text.takeWhile (· ≠ '<')) +
      Text.weight (text.dropWhile (· ≠ '<')) = text.weight := by
    rw [← Text.weight_append, List.takeWhile_append_dropWhile]
  unfold stepCharacters
  split
  · rw [stepWeight_close]
    simp only [potential, credit, Text.weight_append]
    omega
  · next c after hdrop =>
    have hc : c = '<' := by
      have hnot := List.head?_dropWhile_not (fun c => decide (c ≠ '<')) text
      rw [hdrop] at hnot
      simpa using hnot
    have hbracket := Text.letterWeight_bracket
    rw [hdrop, Text.weight_cons, hc] at hsplit
    simp only [stepWeight, potential, credit, Token.weightAll_nil, Text.weight_append]
    omega

/-- The bracket joins the text that waits, or is paid for by what comes of it. -/
theorem stepWeight_tagOpen_le (pending text : Text) :
    stepWeight (stepTagOpen ⟨.tagOpen, pending, text⟩) ≤ potential ⟨.tagOpen, pending, text⟩ := by
  have hbracket := Text.letterWeight_bracket
  unfold stepTagOpen
  split
  · rw [stepWeight_close]
    simp only [potential, credit, Text.weight_append, Text.weight_cons, Text.weight_nil]
    omega
  · next c after heq =>
    obtain rfl : text = c :: after := heq
    have hpos := Text.one_le_letterWeight c
    simp only [potential, credit, Text.weight_cons]
    split
    · rw [stepWeight_enter]
      show pending.weight + 1 + Text.weight after ≤ _
      omega
    · split
      · rw [stepWeight_enter]
        show pending.weight + 2 + Text.weight after ≤ _
        omega
      · split
        · rw [stepWeight_enter]
          show pending.weight + 1 + Text.weight after ≤ _
          omega
        · split
          · rw [stepWeight_enter]
            show pending.weight + 1 + Text.weight (c :: after) ≤ _
            rw [Text.weight_cons]
          · simp only [stepWeight, potential, credit, Token.weightAll_nil, Text.weight_append,
              Text.weight_cons, Text.weight_nil]
            omega

theorem stepWeight_endTagOpen_le (pending text : Text) :
    stepWeight (stepEndTagOpen ⟨.endTagOpen, pending, text⟩) ≤
      potential ⟨.endTagOpen, pending, text⟩ := by
  have hbracket := Text.letterWeight_bracket
  have hslash := Text.letterWeight_slash
  unfold stepEndTagOpen
  split
  · rw [stepWeight_close]
    simp only [potential, credit, Text.weight_append, Text.weight_cons, Text.weight_nil]
    omega
  · next c after heq =>
    obtain rfl : text = c :: after := heq
    simp only [potential, credit]
    split
    · rw [stepWeight_enter]
      show pending.weight + 1 + Text.weight (c :: after) ≤ _
      omega
    · split
      · rw [stepWeight_enter, Text.weight_cons]
        show pending.weight + 0 + Text.weight after ≤ _
        omega
      · rw [stepWeight_enter]
        show pending.weight + 1 + Text.weight (c :: after) ≤ _
        omega

theorem stepWeight_rawText_le (name pending text : Text) :
    stepWeight (stepRawText ⟨.rawText name, pending, text⟩ name) ≤
      potential ⟨.rawText name, pending, text⟩ := by
  unfold stepRawText
  split
  · rw [stepWeight_close]
    simp only [potential, credit, Text.weight_append]
    omega
  · next raw after hraw =>
    have heq : Text.weight raw + 2 + Text.weight after = text.weight := weight_of_rawEnd? hraw
    simp only [stepWeight, potential, credit, weightAll_flush, Text.weight_append, Text.weight_nil]
    omega

/-- A step gives out no more weight than there is. -/
theorem stepWeight_step_le (config : Config) :
    stepWeight (config.step sections) ≤ config.potential := by
  by_cases hinner : config.mode.IsInner
  · exact stepWeight_inner_le hinner
  obtain ⟨mode, pending, text⟩ := config
  cases mode with
  | data => exact stepWeight_characters_le pending text
  | tagOpen => exact stepWeight_tagOpen_le pending text
  | endTagOpen => exact stepWeight_endTagOpen_le pending text
  | rawText name => exact stepWeight_rawText_le name pending text
  | _ => exact absurd trivial hinner

/-- Tokens weigh no more than the text they were read from. -/
theorem weightAll_run_le (config : Config) :
    Token.weightAll (config.run sections) ≤ config.potential := by
  induction config using run.induct sections with
  | case1 config tokens hstep =>
    have hle := @stepWeight_step_le sections config
    rw [hstep] at hle
    rw [run_of_finish hstep]
    exact hle
  | case2 config tokens next hstep ih =>
    have hle := @stepWeight_step_le sections config
    rw [hstep] at hle
    rw [run_of_advance hstep, Token.weightAll_append]
    exact Nat.le_trans (Nat.add_le_add_left ih _) hle

end Config

theorem weightAll_tokens_le (text : Text) (sections : Bool) :
    Token.weightAll (tokens text sections) ≤ text.weight := by
  have hle := @Config.weightAll_run_le sections ⟨.data, [], text⟩
  rw [Config.potential, Config.credit, Text.weight_nil, Nat.zero_add] at hle
  exact hle

end Scanner
end MarkupBinding
