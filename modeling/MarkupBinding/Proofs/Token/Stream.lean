import MarkupBinding.Proofs.Text.Lowercase
import MarkupBinding.Proofs.Token.Shape

/-!
# The order of tokens

A scanner gives out the text that waits only before something else, so no two texts follow one
another. Behind the start tag of an element whose content is raw text it looks for the end tag first:
there come one text at most and then an end tag whose name the search has read letter by letter, or
the end of the input.

The search reads more letters than the alphabet has: a long s, a dotted capital I and a dotless i.
Such an end tag does not have the name of the element in lower case.

* `Turn.next?`: the order as an automaton over tokens.
* `Config.keepsName_step`: a tag keeps the name that it has.
* `Config.follows_step`: one step follows the order.
* `accepts_tokens`: so do the tokens of a text.
* `shaped_tokens`: what that says of them.
-/

namespace MarkupBinding.Scanner

/-! ## Names that end raw text -/

/-- Whether an end tag has a name that the search for the end of raw text takes for the element's. -/
def spells : Text → Text → Bool
  | [], [] => true
  | letter :: name, c :: closed => matchesLetter letter c && spells name closed
  | _, _ => false

/-- A letter that only the search for the end of raw text reads as one of the alphabet. -/
def isLookAlike (c : Char) : Bool := c = 'ſ' || c = 'İ' || c = 'ı'

theorem isLatin_of_mem_rawTextNames {name : Text} (h : name ∈ Element.rawTextNames) :
    ∀ c ∈ name, Text.isLatin c = true := by
  have hall : Element.rawTextNames.all (·.all Text.isLatin) = true := by decide
  exact List.all_eq_true.1 (List.all_eq_true.1 hall name h)

/-- The names of raw text elements are those that the alphabet alone brings to lower case. -/
theorem mem_rawTextNames_of_isRawText {name : Text} (h : Element.isRawText name = true) :
    name.map Char.toLower ∈ Element.rawTextNames ∧ name.lowercase = name.map Char.toLower := by
  have hmem : name.lowercase ∈ Element.rawTextNames := List.contains_iff_mem.1 h
  have hlower := (Text.lowercase_eq_iff (isLatin_of_mem_rawTextNames hmem) name).1 rfl
  rw [hlower]
  exact ⟨hmem, rfl⟩

theorem isLatin_of_isRawText {name : Text} (h : Element.isRawText name = true) :
    ∀ c ∈ name, Text.isLatin c.toLower = true := fun _ hc =>
  isLatin_of_mem_rawTextNames (mem_rawTextNames_of_isRawText h).1 _ (List.mem_map_of_mem hc)

/-- A character that may stand for a letter is that letter in either case or looks like it. -/
theorem toLower_eq_of_matchesLetter {letter c : Char} (h : matchesLetter letter c = true) :
    c.toLower = letter.toLower ∨ isLookAlike c = true := by
  simp only [matchesLetter, Bool.or_eq_true, Bool.and_eq_true, decide_eq_true_eq] at h
  rcases h with (heq | ⟨-, rfl⟩) | ⟨-, rfl | rfl⟩
  · exact .inl heq
  · exact .inr rfl
  · exact .inr rfl
  · exact .inr rfl

/-- What looks like a letter of the alphabet is none of its letters. -/
theorem isLatin_of_isLookAlike {c : Char} (h : isLookAlike c = true) :
    Text.isLatin c.toLower = false := by
  simp only [isLookAlike, Bool.or_eq_true, decide_eq_true_eq] at h
  rcases h with (rfl | rfl) | rfl <;> decide

/-- A character that may stand for a letter of such a name is a letter. -/
theorem isLetter_of_matchesLetter {letter c : Char} (hletter : Text.isLatin letter.toLower = true)
    (h : matchesLetter letter c = true) : Text.isLetter c = true := by
  rcases toLower_eq_of_matchesLetter h with hlower | hlook
  · have hbounds := Text.bounds_of_isLatin hletter
    rw [← hlower, Text.toNat_toLower] at hbounds
    have hranges : Text.letterRanges = (65, 90) :: (97, 122) :: Text.letterRanges.tail.tail := rfl
    rw [Text.isLetter, hranges, Text.Ranges.contains, Text.Ranges.contains]
    split at hbounds
    · next hupper => rw [if_neg (by omega), if_pos hupper.2]
    · rw [if_neg (by omega), if_neg (by omega), if_neg (by omega), if_pos hbounds.2.1]
  · simp only [isLookAlike, Bool.or_eq_true, decide_eq_true_eq] at hlook
    rcases hlook with (rfl | rfl) | rfl <;> decide

/-- The search finds an end tag of the name. -/
theorem beginsWithName_of_rawEnd? {name text raw rest : Text}
    (h : rawEnd? name text = some (raw, rest)) : beginsWithName name rest = true := by
  induction text generalizing raw with
  | nil => cases h
  | cons c text ih =>
    have hlater : (rawEnd? name text).map (fun found => (c :: found.1, found.2)) =
        some (raw, rest) → beginsWithName name rest = true := by
      intro hmap
      obtain ⟨⟨raw', rest'⟩, hraw, hfound⟩ := Option.map_eq_some_iff.1 hmap
      obtain ⟨-, rfl⟩ := Prod.mk.inj hfound
      exact ih hraw
    unfold rawEnd? at h
    split at h
    · split at h
      · next hhit =>
        cases h
        exact (Bool.and_eq_true_iff.1 hhit).2
      · exact hlater h
    · exact hlater h

/-- What the search has found is read as a name by the tag. -/
theorem spells_takeWhile {name : Text} (hname : ∀ c ∈ name, Text.isLatin c.toLower = true)
    {rest : Text} (h : beginsWithName name rest = true) :
    spells name (rest.takeWhile (!endsName ·)) = true := by
  induction name generalizing rest with
  | nil =>
    cases rest with
    | nil => rfl
    | cons c rest =>
      have hends : endsName c = true := h
      rw [List.takeWhile_cons_of_neg (by simp [hends])]
      rfl
  | cons letter name ih =>
    obtain ⟨hletter, hname⟩ := List.forall_mem_cons.1 hname
    cases rest with
    | nil => cases h
    | cons c rest =>
      obtain ⟨hmatches, hrest⟩ := Bool.and_eq_true_iff.1 h
      have hends := endsName_of_isLetter (isLetter_of_matchesLetter hletter hmatches)
      rw [List.takeWhile_cons_of_pos (by simp [hends])]
      exact Bool.and_eq_true_iff.2 ⟨hmatches, ih hname hrest⟩

/-- An end tag that the search has found has the name of the element in lower case unless one of its
letters only looks like one. -/
theorem lowercase_eq_iff_of_spells {name closed : Text} (hname : Element.isRawText name = true)
    (h : spells name closed = true) :
    closed.lowercase = name.lowercase ↔ ∀ c ∈ closed, isLookAlike c = false := by
  obtain ⟨hmem, hlower⟩ := mem_rawTextNames_of_isRawText hname
  have hlatin := isLatin_of_isRawText hname
  rw [hlower, Text.lowercase_eq_iff (isLatin_of_mem_rawTextNames hmem)]
  clear hname hmem hlower
  induction name generalizing closed with
  | nil =>
    cases closed with
    | nil => simp
    | cons c closed => cases h
  | cons letter name ih =>
    cases closed with
    | nil => cases h
    | cons c closed =>
      obtain ⟨hletter, hlatin⟩ := List.forall_mem_cons.1 hlatin
      obtain ⟨hmatches, hrest⟩ := Bool.and_eq_true_iff.1 h
      rw [List.map_cons, List.map_cons, List.cons.injEq, List.forall_mem_cons]
      -- A letter is brought to that of the name just if it does not only look like it.
      refine and_congr ?_ (ih hrest hlatin)
      constructor
      · intro heq
        refine Bool.eq_false_iff.2 fun hlook => ?_
        rw [← heq, isLatin_of_isLookAlike hlook] at hletter
        cases hletter
      · intro hlook
        refine (toLower_eq_of_matchesLetter hmatches).resolve_right ?_
        rw [hlook]
        exact Bool.false_ne_true

/-! ## The order -/

/-- Where a stream of tokens stands. -/
inductive Turn where
  /-- Behind anything but a text. -/
  | free
  /-- Behind a text. -/
  | behindText
  /-- Behind the start tag of an element whose content is raw text. -/
  | inside (name : Text)
  /-- Behind the text of such an element. -/
  | leaving (name : Text)
deriving DecidableEq, Repr

namespace Turn

/-- Where a stream stands behind one more token; none if the token may not follow. The end of the input
ends every stream. -/
def next? (turn : Turn) : Token → Option Turn
  | .endOfInput => none
  | .data .text _ =>
    match turn with
    | free => some behindText
    | inside name => some (leaving name)
    | behindText | leaving _ => none
  | .startTag name _ =>
    match turn with
    | free | behindText => some (if Element.isRawText name then inside name else free)
    | inside _ | leaving _ => none
  | .endTag closed _ =>
    match turn with
    | free | behindText => some free
    | inside name | leaving name => if spells name closed then some free else none
  | .data _ _ =>
    match turn with
    | free | behindText => some free
    | inside _ | leaving _ => none

/-- A stream that follows the order from here on, up to the end of the input. -/
def Accepts (turn : Turn) (tokens : List Token) : Prop :=
  ∃ front last, tokens = front ++ [.endOfInput] ∧ front.foldlM next? turn = some last

theorem Accepts.append {turn later : Turn} {front tokens : List Token}
    (hfront : front.foldlM next? turn = some later) (h : later.Accepts tokens) :
    turn.Accepts (front ++ tokens) := by
  obtain ⟨middle, last, rfl, hmiddle⟩ := h
  refine ⟨front ++ middle, last, (List.append_assoc _ _ _).symm, ?_⟩
  rw [List.foldlM_append, hfront]
  exact hmiddle

/-- The text that waits may stand before whatever may come without it. -/
theorem foldlM_flush {token : Token} {last : Turn} (pending : Text)
    (hfree : next? free token = some last) (hbehind : next? behindText token = some last) :
    (flush pending ++ [token]).foldlM next? free = some last := by
  unfold flush
  split
  · exact (List.foldlM_cons ..).trans (congrArg (· >>= _) hfree)
  · exact (List.foldlM_cons ..).trans ((List.foldlM_cons ..).trans (congrArg (· >>= _) hbehind))

theorem foldlM_flush_free (pending : Text) :
    ∃ last, (flush pending).foldlM next? free = some last := by
  unfold flush
  split
  · exact ⟨free, rfl⟩
  · exact ⟨behindText, rfl⟩

end Turn

/-- The tag that a mode is reading, with the side that it stands on. -/
def Mode.tag? (rest : Text) : Mode → Option (Side × Text)
  | .tagName side => some (side, rest.takeWhile (!endsName ·))
  | .beforeAttribute draft | .attributeName draft | .afterAttributeName draft _
  | .beforeValue draft _ | .quotedValue draft _ _ | .bareValue draft _ | .selfClosing draft =>
    some (draft.side, draft.name)
  | _ => none

/-- Whether the search for the end of raw text has led to this moment: before the end tag or inside it. -/
def Config.Leaves (config : Config) (name : Text) : Prop :=
  config.mode = .endTagOpen ∧ beginsWithName name config.rest = true ∨
    ∃ closed, config.mode.tag? config.rest = some (.closing, closed) ∧ spells name closed = true

/-- What the scan knows where the stream stands. -/
def Turn.At (config : Config) : Turn → Prop
  | .free => ∀ name, config.mode ≠ .rawText name
  | .behindText => False
  | .inside name => Element.isRawText name = true ∧ config.pending = [] ∧
      (config.mode = .rawText name ∨ config.Leaves name)
  | .leaving name => Element.isRawText name = true ∧ config.pending = [] ∧ config.Leaves name

/-- A step whose tokens follow the order. -/
def Step.Follows (turn : Turn) : Step → Prop
  | .advance tokens config =>
    ∃ later, tokens.foldlM Turn.next? turn = some later ∧ later.At config
  | .finish tokens => turn.Accepts tokens

namespace Config

variable {sections : Bool} {config : Config}

/-- What a step inside of a tag can do: the tag is dropped, read further or given out. -/
inductive KeepsName (config : Config) (side : Side) (name : Text) : Step → Prop
  | dropped : config.KeepsName side name config.close
  | inside {mode : Mode} {rest : Text} (h : mode.tag? rest = some (side, name)) :
      config.KeepsName side name (config.enter mode rest)
  | given {draft : Draft} (rest : Text) (hside : draft.side = side) (hname : draft.name = name) :
      config.KeepsName side name (config.emitTag draft rest)

theorem isTag_of_tag? {mode : Mode} {rest : Text} {tag : Side × Text}
    (h : mode.tag? rest = some tag) : mode.IsTag := by
  cases mode <;> trivial

theorem tag?_of_names {mode : Mode} {text name after : Text} {draft : Draft}
    (h : mode.Names text draft name after) : mode.tag? text = some (draft.side, draft.name) := by
  cases h <;> rfl

theorem tag?_of_completes {mode : Mode} {text after : Text} {draft : Draft}
    (h : mode.Completes text draft after) : mode.tag? text = some (draft.side, draft.name) := by
  cases h with
  | @empty _ draft _ _ _ hnames => exact @tag?_of_names _ _ _ _ draft hnames
  | _ => rfl

/-- A step inside of a tag keeps its name. -/
theorem keepsName_step {side : Side} {name : Text}
    (h : config.mode.tag? config.rest = some (side, name)) :
    config.KeepsName side name (config.step sections) := by
  have hcompletes : ∀ {draft : Draft} {after : Text},
      config.mode.Completes config.rest draft after →
        some (draft.side, draft.name) = some (side, name) :=
    fun hread => (tag?_of_completes hread).symm.trans h
  have hnames : ∀ {draft : Draft} {attr after : Text},
      config.mode.Names config.rest draft attr after →
        some (draft.side, draft.name) = some (side, name) :=
    fun hread => (tag?_of_names hread).symm.trans h
  have hstep := @tagStep_step sections config (isTag_of_tag? h)
  generalize config.step sections = outcome at hstep
  cases hstep with
  | dropped => exact .dropped
  | given hread =>
    obtain ⟨hside, hname⟩ := Prod.mk.inj (Option.some.inj (hcompletes hread))
    exact .given _ hside hname
  | selfClosing hread => exact .inside (hcompletes hread)
  | beforeAttribute hread _ => exact .inside (hcompletes hread)
  | attributeName hread _ => exact .inside (hcompletes hread)
  | afterAttributeName hread => exact .inside (hnames hread)
  | beforeValue hread => exact .inside (hnames hread)
  | quotedValue hread _ => exact .inside (hnames hread)
  | bareValue hread _ => exact .inside (hnames hread)

/-! ### Outside of raw text -/

/-- The end of the input may come at any time. -/
theorem follows_close : config.close.Follows .free := by
  obtain ⟨last, hlast⟩ := Turn.foldlM_flush_free config.pending
  exact ⟨_, last, rfl, hlast⟩

theorem follows_enter {mode : Mode} {rest : Text} (hmode : ∀ name, mode ≠ .rawText name) :
    (config.enter mode rest).Follows .free := ⟨.free, rfl, hmode⟩

theorem follows_emit {kind : DataKind} (hkind : kind ≠ .text) (content rest : Text) :
    (config.emit (.data kind content) rest).Follows .free := by
  refine ⟨.free, Turn.foldlM_flush _ ?_ ?_, fun _ => Mode.noConfusion⟩ <;>
    cases kind <;> first | rfl | exact absurd rfl hkind

theorem follows_emitTag (draft : Draft) (rest : Text) :
    (config.emitTag draft rest).Follows .free := by
  obtain ⟨side, name, attrs⟩ := draft
  cases side with
  | closing => exact ⟨.free, Turn.foldlM_flush _ rfl rfl, fun _ => Mode.noConfusion⟩
  | opening =>
    refine ⟨_, Turn.foldlM_flush _ rfl rfl, ?_⟩
    simp only [decide_true, Bool.true_and]
    split
    · next hraw => exact ⟨hraw, rfl, .inl rfl⟩
    · exact fun _ => Mode.noConfusion

theorem follows_stepData {kind : DataKind} (hkind : kind ≠ .text) (mark sign : Text) :
    (config.stepData mark kind sign).Follows .free := by
  unfold stepData
  split
  · exact follows_emit hkind _ _
  · -- The data stand between the text that waits and the end of the input.
    refine ⟨flush config.pending ++ [.data kind (sign ++ config.rest)], .free, by simp,
      Turn.foldlM_flush _ ?_ ?_⟩ <;> cases kind <;> first | rfl | exact absurd rfl hkind

/-- A step outside of raw text. -/
theorem follows_free (h : ∀ name, config.mode ≠ .rawText name) :
    (config.step sections).Follows .free := by
  cases htag : config.mode.tag? config.rest with
  | some tag =>
    have hkeeps : config.KeepsName tag.1 tag.2 (config.step sections) := keepsName_step htag
    generalize config.step sections = result at hkeeps
    cases hkeeps with
    | dropped => exact follows_close
    | inside hinside => exact follows_enter fun name hname => by simp [hname, Mode.tag?] at hinside
    | given rest => exact follows_emitTag _ rest
  | none =>
    obtain ⟨mode, pending, rest⟩ := config
    cases mode <;> simp only [Mode.tag?, reduceCtorEq] at htag
    case data =>
      simp only [step, stepCharacters]
      split
      · exact follows_close
      · exact ⟨.free, rfl, fun _ => Mode.noConfusion⟩
    case tagOpen =>
      simp only [step, stepTagOpen]
      split
      · exact follows_close
      · split
        · exact follows_enter fun _ => Mode.noConfusion
        · split
          · exact follows_enter fun _ => Mode.noConfusion
          · split
            · exact follows_enter fun _ => Mode.noConfusion
            · split
              · exact follows_enter fun _ => Mode.noConfusion
              · exact ⟨.free, rfl, fun _ => Mode.noConfusion⟩
    case endTagOpen =>
      simp only [step, stepEndTagOpen]
      split
      · exact follows_close
      · split
        · exact follows_enter fun _ => Mode.noConfusion
        · split <;> exact follows_enter fun _ => Mode.noConfusion
    case declarationOpen =>
      have htoken : ∀ content later,
          (emit ⟨.declarationOpen, pending, rest⟩ (sectionToken sections content) later).Follows .free := by
        intro content later
        simp only [sectionToken]
        split <;> exact follows_emit (by decide) _ _
      simp only [step, stepDeclarationOpen]
      split
      · exact follows_enter fun _ => Mode.noConfusion
      · split
        · split
          · exact htoken _ _
          · exact htoken _ _
        · exact follows_enter fun _ => Mode.noConfusion
    case comment => exact follows_stepData (by decide) _ _
    case declaration => exact follows_stepData (by decide) _ _
    case instruction => exact follows_stepData (by decide) _ _
    case bogusComment => exact follows_stepData (by decide) _ _
    case rawText name => exact absurd rfl (h name)

/-! ### Inside of raw text -/

/-- A step that leads on to the end tag, or inside it. -/
theorem follows_leaves {turn : Turn} {name : Text} (hname : Element.isRawText name = true)
    (hturn : turn = .inside name ∨ turn = .leaving name) (hpending : config.pending = [])
    (h : config.Leaves name) : (config.step sections).Follows turn := by
  have hat : ∀ {next : Config}, next.pending = [] → next.Leaves name → turn.At next := by
    intro next hnext hleaves
    rcases hturn with rfl | rfl
    · exact ⟨hname, hnext, .inr hleaves⟩
    · exact ⟨hname, hnext, hleaves⟩
  rcases h with ⟨hmode, hbegins⟩ | ⟨closed, htag, hspells⟩
  · obtain ⟨mode, pending, rest⟩ := config
    simp only at hmode hpending hbegins
    subst hmode hpending
    have hlatin := isLatin_of_isRawText hname
    -- The name is not empty, so a letter stands behind the slash.
    cases name with
    | nil => cases hname
    | cons letter name =>
      cases rest with
      | nil => cases hbegins
      | cons c rest =>
        have hletter : Text.isLetter c = true :=
          isLetter_of_matchesLetter (hlatin letter List.mem_cons_self) (Bool.and_eq_true_iff.1 hbegins).1
        simp only [step, stepEndTagOpen, if_pos hletter]
        exact ⟨turn, rfl, hat rfl (.inr ⟨_, rfl, spells_takeWhile hlatin hbegins⟩)⟩
  · have hkeeps : config.KeepsName .closing closed (config.step sections) := keepsName_step htag
    generalize config.step sections = result at hkeeps
    cases hkeeps with
    | dropped =>
      refine ⟨[], turn, ?_, rfl⟩
      rw [hpending]
      rfl
    | inside hinside => exact ⟨turn, rfl, hat hpending (.inr ⟨closed, hinside, hspells⟩)⟩
    | @given draft rest hside hclosed =>
      obtain ⟨side, closed', attrs⟩ := draft
      simp only at hside hclosed
      subst hside hclosed
      have hnext : turn.next? (.endTag closed' attrs) = some .free := by
        rcases hturn with rfl | rfl <;> simp [Turn.next?, hspells]
      refine ⟨.free, ?_, fun _ => Mode.noConfusion⟩
      rw [hpending]
      exact (List.foldlM_cons ..).trans (congrArg (· >>= _) hnext)

/-- A step that looks for the end of raw text. -/
theorem follows_rawText {name : Text} (hname : Element.isRawText name = true)
    (hpending : config.pending = []) (hmode : config.mode = .rawText name) :
    (config.step sections).Follows (.inside name) := by
  obtain ⟨mode, pending, rest⟩ := config
  simp only at hmode hpending
  subst hmode hpending
  simp only [step, stepRawText, List.nil_append]
  have hflush : ∀ raw, ∃ last, (flush raw).foldlM Turn.next? (.inside name) = some last ∧
      (last = .inside name ∨ last = .leaving name) := by
    intro raw
    unfold flush
    split
    · exact ⟨_, rfl, .inl rfl⟩
    · exact ⟨_, rfl, .inr rfl⟩
  split
  · obtain ⟨last, hlast, -⟩ := hflush rest
    exact ⟨_, last, rfl, hlast⟩
  · next raw rest' hraw =>
    obtain ⟨last, hlast, hturn⟩ := hflush raw
    have hleaves : Leaves ⟨.endTagOpen, [], rest'⟩ name := .inl ⟨rfl, beginsWithName_of_rawEnd? hraw⟩
    refine ⟨last, hlast, ?_⟩
    rcases hturn with rfl | rfl
    · exact ⟨hname, rfl, .inr hleaves⟩
    · exact ⟨hname, rfl, hleaves⟩

/-- One step follows the order. -/
theorem follows_step {turn : Turn} (h : turn.At config) : (config.step sections).Follows turn := by
  cases turn with
  | free => exact follows_free h
  | behindText => cases h
  | inside name =>
    obtain ⟨hname, hpending, hmode | hleaves⟩ := h
    · exact follows_rawText hname hpending hmode
    · exact follows_leaves hname (.inl rfl) hpending hleaves
  | leaving name => exact follows_leaves h.1 (.inr rfl) h.2.1 h.2.2

/-- The tokens of a run follow the order. -/
theorem accepts_run (config : Config) {turn : Turn} (h : turn.At config) :
    turn.Accepts (config.run sections) := by
  -- A step may hand on another turn.
  induction config using run.induct sections generalizing turn with
  | case1 config tokens heq =>
    have hstep : (config.step sections).Follows turn := follows_step h
    rw [heq] at hstep
    rw [run_of_finish heq]
    exact hstep
  | case2 config tokens next heq ih =>
    have hstep : (config.step sections).Follows turn := follows_step h
    rw [heq] at hstep
    obtain ⟨later, hlater, hat⟩ := hstep
    rw [run_of_advance heq]
    exact .append hlater (ih hat)

end Config

/-- The tokens of a text follow the order. -/
theorem accepts_tokens (text : Text) (sections : Bool) : Turn.free.Accepts (tokens text sections) :=
  Config.accepts_run _ fun _ => Mode.noConfusion

/-! ## The shape of a stream -/

/-- Whether a token is a text. -/
def isText : Token → Bool
  | .data .text _ => true
  | _ => false

/-- An end tag of an element whose content is raw text, as the scanner finds it, or the end of the
input. -/
def EndsRawText (name : Text) : Token → Prop
  | .endOfInput => True
  | .endTag closed _ => spells name closed = true
  | _ => False

/-- A stream of tokens as it comes from a scan. -/
structure Shaped (sections : Bool) (tokens : List Token) : Prop where
  /-- The end of the input comes once, at the end. -/
  ends : ∃ front, tokens = front ++ [.endOfInput] ∧ .endOfInput ∉ front
  /-- No two texts follow one another. -/
  apart : tokens.IsChain fun token next => ¬ (isText token = true ∧ isText next = true)
  formed : ∀ token ∈ tokens, Token.Formed sections token
  /-- Behind a start tag that opens raw text comes a text at most, and then what ends it. -/
  rawText : ∀ before name attrs after, tokens = before ++ .startTag name attrs :: after →
    Element.isRawText name = true → ∃ texts closing later, after = texts ++ closing :: later ∧
      texts.length ≤ 1 ∧ (∀ token ∈ texts, isText token = true) ∧ EndsRawText name closing

namespace Turn

theorem accepts_cons {turn : Turn} {token : Token} {tokens : List Token}
    (h : turn.Accepts (token :: tokens)) :
    token = .endOfInput ∧ tokens = [] ∨
      ∃ later, next? turn token = some later ∧ later.Accepts tokens := by
  obtain ⟨front, last, htokens, hfront⟩ := h
  cases front with
  | nil => exact .inl (List.cons.inj htokens)
  | cons first front =>
    obtain ⟨rfl, rfl⟩ := List.cons.inj htokens
    obtain ⟨later, hnext, hlater⟩ := Option.bind_eq_some_iff.1 ((List.foldlM_cons ..).symm.trans hfront)
    exact .inr ⟨later, hnext, front, last, rfl, hlater⟩

theorem not_accepts_nil (turn : Turn) : ¬ turn.Accepts [] := by
  rintro ⟨front, last, htokens, -⟩
  cases front <;> cases htokens

/-- Every rest of a stream follows the order from somewhere. -/
theorem accepts_of_append {turn : Turn} {front tokens : List Token} {token : Token}
    (h : turn.Accepts (front ++ token :: tokens)) : ∃ later : Turn, later.Accepts (token :: tokens) := by
  induction front generalizing turn with
  | nil => exact ⟨turn, h⟩
  | cons first front ih =>
    rcases accepts_cons h with ⟨-, hnil⟩ | ⟨later, -, hlater⟩
    · cases front <;> cases hnil
    · exact ih hlater

/-- What follows the order ends once. -/
theorem notMem_of_foldlM {turn last : Turn} {front : List Token}
    (h : front.foldlM next? turn = some last) : .endOfInput ∉ front := by
  induction front generalizing turn with
  | nil => exact List.not_mem_nil
  | cons token front ih =>
    obtain ⟨later, hnext, hlater⟩ := Option.bind_eq_some_iff.1 ((List.foldlM_cons ..).symm.trans h)
    rw [List.mem_cons]
    rintro (rfl | hmem)
    · cases hnext
    · exact ih hlater hmem

/-- Behind a text no text may come. -/
theorem next?_eq_none_of_isText {turn later : Turn} {token next : Token}
    (h : next? turn token = some later) (htoken : isText token = true) (hnext : isText next = true) :
    next? later next = none := by
  unfold isText at htoken hnext
  split at htoken
  · split at hnext
    · cases turn <;> cases h <;> rfl
    · cases hnext
  · cases htoken

theorem Accepts.isChain {turn : Turn} {tokens : List Token} (h : turn.Accepts tokens) :
    tokens.IsChain fun token next => ¬ (isText token = true ∧ isText next = true) := by
  induction tokens generalizing turn with
  | nil => exact .nil
  | cons token tokens ih =>
    rcases accepts_cons h with ⟨-, rfl⟩ | ⟨later, hlater, haccepts⟩
    · exact .singleton _
    · cases tokens with
      | nil => exact .singleton _
      | cons next tokens =>
        refine .cons_cons ?_ (ih haccepts)
        rintro ⟨htoken, hnext⟩
        rcases accepts_cons haccepts with ⟨rfl, -⟩ | ⟨last, hlast, -⟩
        · cases hnext
        · rw [next?_eq_none_of_isText hlater htoken hnext] at hlast
          cases hlast

/-- What stands behind the start tag of a raw text element. -/
theorem accepts_inside {turn : Turn} {before after : List Token} {name : Text} {attrs : Attributes}
    (hname : Element.isRawText name = true)
    (h : turn.Accepts (before ++ .startTag name attrs :: after)) : (inside name).Accepts after := by
  obtain ⟨turn, hturn⟩ := accepts_of_append h
  rcases accepts_cons hturn with ⟨hend, -⟩ | ⟨later, hlater, hafter⟩
  · cases hend
  · have hinside : later = inside name := by
      cases turn <;> simp [next?, hname] at hlater <;> exact hlater.symm
    exact hinside ▸ hafter

/-- Inside of raw text there is one text at most before what ends it. -/
theorem next?_inside {name : Text} {token : Token} {later : Turn}
    (h : next? (inside name) token = some later) :
    isText token = true ∧ later = leaving name ∨ EndsRawText name token := by
  cases token with
  | endTag closed attrs =>
    simp only [next?, Option.ite_none_right_eq_some] at h
    exact .inr h.1
  | data kind content =>
    cases kind with
    | text => exact .inl ⟨rfl, (Option.some.inj h).symm⟩
    | _ => cases h
  | _ => cases h

theorem endsRawText_of_leaving {name : Text} {token : Token} {later : Turn}
    (h : next? (leaving name) token = some later) : EndsRawText name token := by
  cases token with
  | endTag closed attrs =>
    simp only [next?, Option.ite_none_right_eq_some] at h
    exact h.1
  | data kind content => cases kind <;> cases h
  | _ => cases h

/-- The rest of a stream behind the start tag of a raw text element. -/
theorem exists_of_inside {name : Text} {tokens : List Token} (h : (inside name).Accepts tokens) :
    ∃ texts closing later, tokens = texts ++ closing :: later ∧ texts.length ≤ 1 ∧
      (∀ token ∈ texts, isText token = true) ∧ EndsRawText name closing := by
  cases tokens with
  | nil => exact absurd h (not_accepts_nil _)
  | cons token tokens =>
    have hnow : EndsRawText name token → ∃ texts closing later, token :: tokens =
        texts ++ closing :: later ∧ texts.length ≤ 1 ∧ (∀ token ∈ texts, isText token = true) ∧
        EndsRawText name closing := fun hends =>
      ⟨[], token, tokens, rfl, Nat.zero_le _, List.forall_mem_nil _, hends⟩
    rcases accepts_cons h with ⟨rfl, -⟩ | ⟨later, hlater, haccepts⟩
    · exact hnow trivial
    rcases next?_inside hlater with ⟨htext, rfl⟩ | hends
    · cases tokens with
      | nil => exact absurd haccepts (not_accepts_nil _)
      | cons closing tokens =>
        refine ⟨[token], closing, tokens, rfl, Nat.le_refl _, List.forall_mem_singleton.2 htext, ?_⟩
        rcases accepts_cons haccepts with ⟨rfl, -⟩ | ⟨last, hlast, -⟩
        · trivial
        · exact endsRawText_of_leaving hlast
    · exact hnow hends

end Turn

/-- The tokens of every text have the shape of a scan. -/
theorem shaped_tokens (text : Text) (sections : Bool) : Shaped sections (tokens text sections) := by
  have haccepts := accepts_tokens text sections
  refine ⟨?_, haccepts.isChain, formed_tokens text sections, ?_⟩
  · obtain ⟨front, last, htokens, hfront⟩ := haccepts
    exact ⟨front, htokens, Turn.notMem_of_foldlM hfront⟩
  · intro before name attrs after htokens hraw
    exact Turn.exists_of_inside (Turn.accepts_inside hraw (htokens ▸ haccepts))

end MarkupBinding.Scanner
