import MarkupBinding.Proofs.Token.Weight

/-!
# The added tags do not come back as text

A split puts the tags of the wrapper between the characters of a text. Unless the text opens a raw
text element, no part of an added tag is read as text: its bracket opens markup wherever the scanner
looks at it, and inside of markup the next closing bracket is its own at the latest. So the text
that comes back weighs no more than the text that was there before.

* `Woven`: a text with wrapper tags between its characters, known by the weight it has without them.
* `Fits`: where a scan can be in such a text, and what it can still bring.
* `textWeightAll_run_le`: the text that a scan brings.
* `run_literal_or_lost`: a text is read as it stands, or a bracket of it is lost.
-/

namespace MarkupBinding.Isolation

open Scanner Scanner.Config

/-- What is left of the wrapper's start tag behind the bracket. -/
def openingRest : Text := "span>".toList

/-- What is left of the wrapper's end tag behind the bracket. -/
def closingRest : Text := "/span>".toList

/-- A text that weighs `n` without the wrapper tags that were put between its characters. -/
inductive Woven : Nat → Text → Prop
  | nil : Woven 0 []
  | own (c : Char) {n : Nat} {text : Text} (h : Woven n text) :
      Woven (Text.letterWeight c + n) (c :: text)
  | opening {n : Nat} {text : Text} (h : Woven n text) : Woven n ('<' :: (openingRest ++ text))
  | closing {n : Nat} {text : Text} (h : Woven n text) : Woven n ('<' :: (closingRest ++ text))

/-- Such a text behind a part of a wrapper tag. -/
def Torn (n : Nat) (text : Text) : Prop :=
  ∃ part rest, text = part ++ rest ∧ part <:+ closingRest ∧ Woven n rest

variable {n : Nat} {text rest : Text}

theorem Woven.append (h : Woven n rest) (text : Text) : Woven (text.weight + n) (text ++ rest) := by
  induction text with
  | nil =>
    rw [Text.weight_nil, Nat.zero_add]
    exact h
  | cons c text ih =>
    rw [Text.weight_cons, Nat.add_assoc]
    exact .own c ih

/-- Any character but a bracket is the text's own. -/
theorem Woven.tail_of_ne {c : Char} (h : Woven n (c :: text)) (hc : c ≠ '<') :
    ∃ m, Woven m text ∧ n = Text.letterWeight c + m := by
  cases h with
  | own _ h => exact ⟨_, h, rfl⟩
  | opening h => exact absurd rfl hc
  | closing h => exact absurd rfl hc

theorem Woven.torn (h : Woven n text) : Torn n text :=
  ⟨[], text, rfl, List.nil_suffix, h⟩

theorem Torn.tail {c : Char} (h : Torn n (c :: text)) : ∃ m ≤ n, Torn m text := by
  obtain ⟨part, rest, heq, hpart, hrest⟩ := h
  cases part with
  | cons a part =>
    obtain ⟨rfl, rfl⟩ := List.cons.inj heq
    exact ⟨n, Nat.le_refl n, part, rest, rfl, (List.suffix_cons c part).trans hpart, hrest⟩
  | nil =>
    rw [List.nil_append] at heq
    subst heq
    cases hrest with
    | own _ h => exact ⟨_, Nat.le_add_left _ _, h.torn⟩
    | opening h => exact ⟨n, Nat.le_refl n, openingRest, _, rfl, ⟨['/'], rfl⟩, h⟩
    | closing h => exact ⟨n, Nat.le_refl n, closingRest, _, rfl, List.suffix_rfl, h⟩

theorem Torn.suffix (h : Torn n text) (hrest : rest <:+ text) : ∃ m ≤ n, Torn m rest := by
  obtain ⟨front, rfl⟩ := hrest
  induction front generalizing n with
  | nil => exact ⟨n, Nat.le_refl n, h⟩
  | cons c front ih =>
    obtain ⟨m, hm, htail⟩ := h.tail
    obtain ⟨k, hk, hrest⟩ := ih htail
    exact ⟨k, Nat.le_trans hk hm, hrest⟩

/-- The closing bracket of a wrapper tag is its last character. -/
theorem eq_nil_of_bracket_suffix {part : Text} (h : '>' :: part <:+ closingRest) : part = [] := by
  have hname : IsTagName "span".toList := by decide
  exact eq_nil_of_bracket hname (h.trans (List.suffix_cons '<' closingRest))

/-- A closing bracket is the text's own or ends a wrapper tag. -/
theorem Torn.behind (h : Torn n ('>' :: text)) : ∃ m ≤ n, Woven m text := by
  obtain ⟨part, rest, heq, hpart, hrest⟩ := h
  cases part with
  | nil =>
    rw [List.nil_append] at heq
    subst heq
    obtain ⟨m, hm, rfl⟩ := hrest.tail_of_ne (by decide)
    exact ⟨m, Nat.le_add_left _ _, hm⟩
  | cons a part =>
    obtain ⟨rfl, rfl⟩ := List.cons.inj heq
    rw [eq_nil_of_bracket_suffix hpart]
    exact ⟨n, Nat.le_refl n, hrest⟩

/-- A text without brackets has no wrapper tags in it. -/
theorem Woven.weight_eq (h : Woven n text) (hno : '<' ∉ text) : n = text.weight := by
  induction h with
  | nil => rfl
  | own c _ ih => rw [ih fun hmem => hno (List.mem_cons_of_mem c hmem), Text.weight_cons]
  | opening => exact absurd List.mem_cons_self hno
  | closing => exact absurd List.mem_cons_self hno

/-- Where a scan can be in a woven text, in a mode, if the rest can bring no more than `n` of text.
Inside of a wrapper tag a scan can be at the beginning of its name only, or inside of markup. -/
inductive Fits : Mode → Text → Nat → Prop
  | data {n : Nat} {text : Text} (h : Woven n text) : Fits .data text n
  | bracket {n : Nat} {text : Text} (h : Woven n text) : Fits .tagOpen text (n + 1)
  | slash {n : Nat} {text : Text} (h : Woven n text) : Fits .endTagOpen text (n + 2)
  | opening {n : Nat} {text : Text} (h : Woven n text) : Fits .tagOpen (openingRest ++ text) n
  | closing {n : Nat} {text : Text} (h : Woven n text) : Fits .tagOpen (closingRest ++ text) n
  | name {n : Nat} {text : Text} (h : Woven n text) : Fits .endTagOpen (openingRest ++ text) n
  | inner {mode : Mode} {n : Nat} {text : Text} (hmode : mode.IsInner) (h : Torn n text) :
      Fits mode text n

/-- The first bracket is the text's own or that of a wrapper tag. -/
theorem Woven.cut {front behind : Text} (h : Woven n (front ++ '<' :: behind))
    (hfront : '<' ∉ front) : ∃ m, Fits .tagOpen behind m ∧ n = front.weight + m := by
  induction front generalizing n with
  | nil =>
    rw [Text.weight_nil]
    cases h with
    | @own _ m _ h =>
      have hbracket := Text.letterWeight_bracket
      exact ⟨m + 1, .bracket h, by omega⟩
    | opening h => exact ⟨n, .opening h, (Nat.zero_add n).symm⟩
    | closing h => exact ⟨n, .closing h, (Nat.zero_add n).symm⟩
  | cons c front ih =>
    have hc : c ≠ '<' := fun heq => hfront (heq ▸ List.mem_cons_self)
    obtain ⟨m, htail, rfl⟩ := h.tail_of_ne hc
    obtain ⟨k, hfits, rfl⟩ := ih htail fun hmem => hfront (List.mem_cons_of_mem c hmem)
    exact ⟨k, hfits, by rw [Text.weight_cons, Nat.add_assoc]⟩

/-- No start tag of a raw text element is among some tokens. -/
def NoRawTag (tokens : List Token) : Prop :=
  ∀ name attrs, .startTag name attrs ∈ tokens → Element.isRawText name = false

/-- A step gives out and leaves to be given out no more text than there was. -/
def Bounded (total : Nat) : Step → Prop
  | .advance tokens next => NoRawTag tokens → ∃ m, Fits next.mode next.rest m ∧
      Token.textWeightAll tokens + next.pending.weight + m ≤ total
  | .finish tokens => Token.textWeightAll tokens ≤ total

theorem bounded_close {config : Config} {total : Nat} (h : config.pending.weight ≤ total) :
    Bounded total config.close := by
  show Token.textWeightAll (flush config.pending ++ [.endOfInput]) ≤ total
  rw [Token.textWeightAll_append, textWeightAll_flush]
  exact h

/-- A step that gives out nothing and leaves the text that waits. -/
theorem bounded_enter {config : Config} {mode : Mode} {rest : Text} {total m : Nat}
    (hfits : Fits mode rest m) (htotal : config.pending.weight + m ≤ total) :
    Bounded total (config.enter mode rest) := by
  intro _
  refine ⟨m, hfits, ?_⟩
  show 0 + config.pending.weight + m ≤ total
  omega

theorem bounded_inner {sections : Bool} {config : Config} (hmode : config.mode.IsInner)
    (h : Torn n config.rest) :
    Bounded (config.pending.weight + n) (config.step sections) := by
  have hstep := @step_inner sections config hmode
  generalize config.step sections = outcome at hstep
  cases hstep with
  | pass inner suffix weight =>
    obtain ⟨m, hm, hrest⟩ := h.suffix suffix
    intro _
    refine ⟨m, .inner inner hrest, ?_⟩
    show 0 + config.pending.weight + m ≤ _
    omega
  | @emit token mode rest text behind isBehind weight =>
    intro hraw
    have hdata : mode = .data := by
      rcases isBehind with rfl | ⟨name, attrs, rfl, hname, _⟩
      · rfl
      · rw [hraw name attrs (by simp)] at hname
        cases hname
    subst hdata
    have hrest : ∃ m ≤ n, Woven m rest := by
      rcases behind with hsuffix | rfl
      · obtain ⟨m, hm, hbehind⟩ := h.suffix hsuffix
        obtain ⟨k, hk, hrest⟩ := hbehind.behind
        exact ⟨k, Nat.le_trans hk hm, hrest⟩
      · exact ⟨0, Nat.zero_le n, .nil⟩
    obtain ⟨m, hm, hrest⟩ := hrest
    refine ⟨m, .data hrest, ?_⟩
    rw [Token.textWeightAll_append, textWeightAll_flush, Token.textWeightAll_cons,
      Token.textWeight_eq_zero text]
    show config.pending.weight + 0 + 0 + m ≤ _
    omega
  | finish text weight =>
    show Token.textWeightAll (flush config.pending ++ _) ≤ _
    rw [Token.textWeightAll_append, textWeightAll_flush, Token.textWeightAll_eq_zero text]
    omega

theorem bounded_tagOpen {pending : Text} (h : Fits .tagOpen rest n) :
    Bounded (pending.weight + n) (stepTagOpen ⟨.tagOpen, pending, rest⟩) := by
  cases h with
  | inner hmode => cases hmode
  | opening h =>
    exact bounded_enter (.inner trivial ⟨openingRest, _, rfl, ⟨['/'], rfl⟩, h⟩) (Nat.le_refl _)
  | closing h => exact bounded_enter (.name h) (Nat.le_refl _)
  | @bracket m _ h =>
    cases rest with
    | nil =>
      refine bounded_close ?_
      show Text.weight (pending ++ ['<']) ≤ _
      rw [Text.weight_append]
      show pending.weight + 1 ≤ _
      omega
    | cons c after =>
      -- What the sign behind the bracket weighs is lost with it.
      have hinner : ∀ {mode : Mode}, mode.IsInner → c ≠ '<' →
          Bounded (pending.weight + (m + 1)) (enter ⟨.tagOpen, pending, c :: after⟩ mode after) := by
        intro mode hmode hc
        obtain ⟨k, hk, rfl⟩ := h.tail_of_ne hc
        refine bounded_enter (.inner hmode hk.torn) ?_
        show pending.weight + k ≤ _
        omega
      simp only [stepTagOpen]
      split
      · next hc => exact hinner trivial (by rw [hc]; decide)
      · split
        · next hc =>
          subst hc
          obtain ⟨k, hk, rfl⟩ := h.tail_of_ne (by decide)
          have hslash := Text.letterWeight_slash
          refine bounded_enter (.slash hk) ?_
          show pending.weight + (k + 2) ≤ _
          omega
        · split
          · next hc => exact hinner trivial (by rw [hc]; decide)
          · split
            · refine bounded_enter (.inner trivial h.torn) ?_
              show pending.weight + m ≤ _
              omega
            · intro _
              refine ⟨m, .data h, ?_⟩
              show 0 + Text.weight (pending ++ ['<']) + m ≤ _
              rw [Text.weight_append]
              show 0 + (pending.weight + 1) + m ≤ _
              omega

theorem bounded_endTagOpen {pending : Text} (h : Fits .endTagOpen rest n) :
    Bounded (pending.weight + n) (stepEndTagOpen ⟨.endTagOpen, pending, rest⟩) := by
  cases h with
  | inner hmode => cases hmode
  | name h =>
    exact bounded_enter (.inner trivial ⟨openingRest, _, rfl, ⟨['/'], rfl⟩, h⟩) (Nat.le_refl _)
  | @slash m _ h =>
    have hlost : pending.weight + m ≤ pending.weight + (m + 2) := by omega
    cases rest with
    | nil =>
      refine bounded_close ?_
      show Text.weight (pending ++ ['<', '/']) ≤ _
      rw [Text.weight_append]
      show pending.weight + 2 ≤ _
      omega
    | cons c after =>
      simp only [stepEndTagOpen]
      split
      · exact bounded_enter (.inner trivial h.torn) hlost
      · split
        · next hc =>
          subst hc
          obtain ⟨k, hk, rfl⟩ := h.tail_of_ne (by decide)
          refine bounded_enter (.data hk) ?_
          show pending.weight + k ≤ _
          omega
        · exact bounded_enter (.inner trivial h.torn) hlost

theorem bounded_step {sections : Bool} (config : Config) (h : Fits config.mode config.rest n) :
    Bounded (config.pending.weight + n) (config.step sections) := by
  by_cases hinner : config.mode.IsInner
  · refine bounded_inner hinner ?_
    generalize config.mode = mode at h hinner
    generalize config.rest = rest at h
    cases h with
    | inner _ h => exact h
    | _ => cases hinner
  · obtain ⟨mode, pending, rest⟩ := config
    cases mode with
    | tagOpen => exact bounded_tagOpen h
    | endTagOpen => exact bounded_endTagOpen h
    | data =>
      cases h with
      | inner hmode => cases hmode
      | data h =>
        have hsplit := List.takeWhile_append_dropWhile (p := (· ≠ '<')) (l := rest)
        have hfront : '<' ∉ rest.takeWhile (· ≠ '<') := by
          intro hmem
          have hall := List.all_eq_true.1 (List.all_takeWhile (p := (· ≠ '<')) (l := rest)) _ hmem
          simp at hall
        simp only [step, stepCharacters]
        split
        · next hdrop =>
          rw [hdrop, List.append_nil] at hsplit
          rw [hsplit] at hfront ⊢
          refine bounded_close ?_
          show Text.weight (pending ++ rest) ≤ _
          exact Nat.le_of_eq (by rw [Text.weight_append, h.weight_eq hfront])
        · next c after hdrop =>
          have hc : c = '<' := by
            have hnot := List.head?_dropWhile_not (fun c => decide (c ≠ '<')) rest
            rw [hdrop] at hnot
            simpa using hnot
          rw [hdrop, hc] at hsplit
          rw [← hsplit] at h
          obtain ⟨m, hfits, rfl⟩ := h.cut hfront
          intro _
          refine ⟨m, hfits, ?_⟩
          show 0 + Text.weight (pending ++ rest.takeWhile (· ≠ '<')) + m ≤ _
          rw [Text.weight_append]
          omega
    | rawText name =>
      cases h with
      | inner hmode => cases hmode
    | _ => exact absurd trivial hinner

/-- The text that a scan brings, if no raw text element is opened. -/
theorem textWeightAll_run_le {sections : Bool} (config : Config) :
    ∀ {n : Nat}, Fits config.mode config.rest n → NoRawTag (config.run sections) →
      Token.textWeightAll (config.run sections) ≤ config.pending.weight + n := by
  induction config using run.induct sections with
  | case1 config tokens hstep =>
    intro n h _
    have hbounded := @bounded_step _ sections config h
    rw [hstep] at hbounded
    rw [run_of_finish hstep]
    exact hbounded
  | case2 config tokens next hstep ih =>
    intro n h hraw
    have hbounded := @bounded_step _ sections config h
    rw [hstep] at hbounded
    rw [run_of_advance hstep] at hraw ⊢
    obtain ⟨m, hfits, hle⟩ := hbounded fun name attrs hmem =>
      hraw name attrs (List.mem_append_left _ hmem)
    have hrest := ih hfits fun name attrs hmem => hraw name attrs (List.mem_append_right _ hmem)
    rw [Token.textWeightAll_append]
    omega

/-! ## A text is read as it stands, or a bracket of it is lost -/

variable {sections : Bool} {pending : Text}

/-- Behind a bracket and a slash that were the text's own both are lost. -/
theorem textWeightAll_endTagOpen_le {c : Char} (h : Woven n (c :: text))
    (hraw : NoRawTag (run sections ⟨.endTagOpen, pending, c :: text⟩)) :
    Token.textWeightAll (run sections ⟨.endTagOpen, pending, c :: text⟩) ≤ pending.weight + n := by
  have hstep : ∃ mode rest m, m ≤ n ∧ Fits mode rest m ∧
      run sections ⟨.endTagOpen, pending, c :: text⟩ = run sections ⟨mode, pending, rest⟩ := by
    by_cases hletter : Text.isLetter c = true
    · refine ⟨.tagName .closing, c :: text, n, Nat.le_refl n, .inner trivial h.torn, ?_⟩
      exact run_of_advance (by simp [step, stepEndTagOpen, enter, hletter] : _ = Step.advance [] _)
    · by_cases hclose : c = '>'
      · subst hclose
        obtain ⟨m, hm, rfl⟩ := h.tail_of_ne (by decide)
        refine ⟨.data, text, m, Nat.le_add_left _ _, .data hm, ?_⟩
        exact run_of_advance (by simp [step, stepEndTagOpen, enter, hletter] : _ = Step.advance [] _)
      · refine ⟨.bogusComment, c :: text, n, Nat.le_refl n, .inner trivial h.torn, ?_⟩
        exact run_of_advance
          (by simp [step, stepEndTagOpen, enter, hletter, hclose] : _ = Step.advance [] _)
  obtain ⟨mode, rest, m, hm, hfits, hrun⟩ := hstep
  rw [hrun] at hraw ⊢
  have hle := textWeightAll_run_le ⟨mode, pending, rest⟩ hfits hraw
  exact Nat.le_trans hle (Nat.add_le_add_left hm _)

/-- A bracket is read as text, or is lost. -/
theorem run_tagOpen_literal_or_lost {c : Char} (h : Woven n (c :: text))
    (hne : text ≠ []) (hraw : NoRawTag (run sections ⟨.tagOpen, pending, c :: text⟩)) :
    run sections ⟨.tagOpen, pending, c :: text⟩ =
        run sections ⟨.data, pending ++ ['<'], c :: text⟩ ∨
      Token.textWeightAll (run sections ⟨.tagOpen, pending, c :: text⟩) ≤ pending.weight + n := by
  by_cases hc : c = '<'
  · subst hc
    exact .inl (run_tagOpen_bracket _ text)
  obtain ⟨m, hm, hn⟩ := h.tail_of_ne hc
  have hinner : ∀ (mode : Mode) {rest : Text} {k : Nat}, mode.IsInner → Woven k rest → k ≤ n →
      step sections ⟨.tagOpen, pending, c :: text⟩ = .advance [] ⟨mode, pending, rest⟩ →
      Token.textWeightAll (run sections ⟨.tagOpen, pending, c :: text⟩) ≤ pending.weight + n := by
    intro mode rest k hmode hk hle hstep
    rw [run_of_advance hstep] at hraw ⊢
    have hrun := textWeightAll_run_le ⟨mode, pending, rest⟩ (.inner hmode hk.torn) hraw
    exact Nat.le_trans hrun (Nat.add_le_add_left hle _)
  by_cases hmark : c = '!'
  · exact .inr (hinner .declarationOpen trivial hm (by omega)
      (by simp [step, stepTagOpen, enter, hmark]))
  by_cases hslash : c = '/'
  · have hstep : step sections ⟨.tagOpen, pending, c :: text⟩ =
        .advance [] ⟨.endTagOpen, pending, text⟩ := by
      simp [step, stepTagOpen, enter, hslash]
    rw [run_of_advance hstep] at hraw ⊢
    obtain ⟨d, rest, rfl⟩ := List.exists_cons_of_ne_nil hne
    have hle := textWeightAll_endTagOpen_le hm hraw
    exact .inr (Nat.le_trans hle (by omega))
  by_cases hquestion : c = '?'
  · exact .inr (hinner .instruction trivial hm (by omega)
      (by simp [step, stepTagOpen, enter, hquestion]))
  by_cases hletter : Text.isLetter c = true
  · refine .inr (hinner (.tagName .opening) trivial h (Nat.le_refl n) ?_)
    simp [step, stepTagOpen, enter, hmark, hslash, hquestion, hletter]
  · refine .inl (run_of_advance (?_ : _ = Step.advance [] _))
    simp [step, stepTagOpen, hmark, hslash, hquestion, hletter]

/-- Before a wrapper tag, where no raw text element is opened, a text is read as it stands; or one
of its brackets opens markup, and is lost. -/
theorem run_literal_or_lost {after : Text} (h : Woven n ('<' :: after)) (length : Nat) :
    ∀ {text pending : Text}, text.length ≤ length →
      NoRawTag (run sections ⟨.data, pending, text ++ '<' :: after⟩) →
      run sections ⟨.data, pending, text ++ '<' :: after⟩ =
          run sections ⟨.data, pending ++ text, '<' :: after⟩ ∨
        Token.textWeightAll (run sections ⟨.data, pending, text ++ '<' :: after⟩) + 1 ≤
          pending.weight + text.weight + n := by
  -- The induction is on the length of the text: behind a bracket that is text a shorter one is left.
  induction length with
  | zero =>
    intro text pending hlength _
    obtain rfl := List.length_eq_zero_iff.1 (Nat.le_zero.1 hlength)
    exact .inl (by rw [List.append_nil]; rfl)
  | succ length ih =>
    intro text pending hlength hraw
    by_cases hbracket : '<' ∈ text
    · obtain ⟨front, back, rfl, hfront⟩ := List.eq_append_cons_of_mem hbracket
      have hrun : run sections ⟨.data, pending, (front ++ '<' :: back) ++ '<' :: after⟩ =
          run sections ⟨.tagOpen, pending ++ front, back ++ '<' :: after⟩ := by
        rw [List.append_assoc, run_text hfront, List.cons_append, run_bracket]
      rw [hrun] at hraw ⊢
      rw [List.length_append, List.length_cons] at hlength
      cases back with
      | nil =>
        refine .inl ?_
        rw [List.nil_append, run_tagOpen_bracket, List.append_assoc]
      | cons c back =>
        rw [List.length_cons] at hlength
        have hback := h.append (c :: back)
        have hne : back ++ '<' :: after ≠ [] := by simp
        have hpending : Text.weight (pending ++ front) = pending.weight + Text.weight front :=
          Text.weight_append _ _
        have htotal : Text.weight (front ++ '<' :: c :: back) =
            Text.weight front + 1 + Text.weight (c :: back) := by
          have hbracket := Text.letterWeight_bracket
          rw [Text.weight_append, Text.weight_cons, hbracket]
          omega
        rw [htotal]
        rw [List.cons_append] at hback hraw ⊢
        rcases run_tagOpen_literal_or_lost hback hne hraw with hliteral | hlost
        · rw [hliteral] at hraw ⊢
          have hshorter : (c :: back).length ≤ length := by
            rw [List.length_cons]
            omega
          rcases ih hshorter hraw with hread | hlost
          · refine .inl ?_
            rw [← List.cons_append, hread]
            simp
          · refine .inr ?_
            have hone : Text.weight (pending ++ front ++ ['<']) = pending.weight + Text.weight front + 1 := by
              rw [Text.weight_append, hpending]
              rfl
            rw [hone, List.cons_append] at hlost
            omega
        · refine .inr ?_
          rw [hpending] at hlost
          omega
    · exact .inl (run_text hbracket pending _)

end MarkupBinding.Isolation
