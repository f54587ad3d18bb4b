import MarkupBinding.Proofs.Text.Weight
import MarkupBinding.Proofs.Token.Reading

/-!
# Steps inside of a tag

A step inside of a tag reads a run of characters and the one that ends it. That one says where the
scan goes on: behind it, at it again, or, if it is a closing bracket, with the tag given out. All
modes of a tag are of this form, so what holds of a step of the form holds inside of every tag.

What a mode knows when its run is over is either a whole draft or a draft and the name of one more
attribute. So a fact about a step inside of a tag needs no look at the steps themselves: it takes what
these two keep, and the few ways to go on from them.

* `GoesOn`: where a scan goes on behind a run.
* `step_tag`: the steps inside of a tag are of this form.
* `Mode.Names`, `Mode.Completes`: what a mode knows when its run is over.
* `TagStep`, `tagStep_step`: all that a step inside of a tag can do.
-/

namespace MarkupBinding.Scanner

/-- Whether a character is a quotation mark around attribute values. -/
def isMark (c : Char) : Bool := c = Text.doubleMark || c = Text.singleMark

/-- What stands behind a run of spaces is no space. -/
theorem endsName_of_dropWhile {text rest : Text} {c : Char} (hdrop : text.dropWhile isSpace = c :: rest)
    (hslash : c ≠ '/') (hclose : c ≠ '>') : endsName c = false := by
  have hspace : isSpace c = false := by
    have hhead := List.head?_dropWhile_not isSpace text
    rw [hdrop] at hhead
    simpa using hhead
  simp [endsName, hspace, hslash, hclose]

namespace Mode

/-- The modes inside of a tag, a comment or a directive. -/
def IsInner : Mode → Prop
  | .data | .tagOpen | .endTagOpen | .rawText _ => False
  | _ => True

/-- The modes inside of a tag. -/
def IsTag : Mode → Prop
  | .tagName _ | .beforeAttribute _ | .attributeName _ | .afterAttributeName _ _ | .beforeValue _ _
  | .quotedValue _ _ _ | .bareValue _ _ | .selfClosing _ => True
  | _ => False

theorem isInner_of_isTag {mode : Mode} (h : mode.IsTag) : mode.IsInner := by
  cases mode <;> trivial

/-- The weight of the name that a tag has so far. -/
def nameWeight : Mode → Nat
  | .beforeAttribute draft | .attributeName draft | .afterAttributeName draft _
  | .beforeValue draft _ | .quotedValue draft _ _ | .bareValue draft _ | .selfClosing draft =>
    draft.name.weight
  | _ => 0

/-- A mode inside of markup whose name is no heavier than one that weighs `base` and a run. -/
def Carries (base : Nat) (front : Text) (mode : Mode) : Prop :=
  mode.IsInner ∧ mode.nameWeight ≤ base + front.weight

/-- What is known when `text` has been read up to `after`: a draft and the name of one more attribute,
whose value may follow. -/
inductive Names : Mode → Text → Draft → Text → Text → Prop
  | read {draft : Draft} {first : Char} {text after : Text}
      (hdrop : text.dropWhile (!endsAttributeName ·) = after) :
      Names (.attributeName draft) (first :: text) draft
        (first :: text.takeWhile (!endsAttributeName ·)) after
  | behind {draft : Draft} {name text after : Text} (hdrop : text.dropWhile isSpace = after) :
      Names (.afterAttributeName draft name) text draft name after
  | before {draft : Draft} {name text after : Text} (hdrop : text.dropWhile isSpace = after) :
      Names (.beforeValue draft name) text draft name after

/-- What is known when `text` has been read up to `after`: the draft of a tag that may end here. -/
inductive Completes : Mode → Text → Draft → Text → Prop
  | name {side : Side} {text after : Text} (hdrop : text.dropWhile (!endsName ·) = after) :
      Completes (.tagName side) text { side, name := text.takeWhile (!endsName ·) } after
  | spaces {draft : Draft} {text after : Text} (hdrop : text.dropWhile isSpace = after) :
      Completes (.beforeAttribute draft) text draft after
  | slash {draft : Draft} {text : Text} : Completes (.selfClosing draft) text draft text
  | empty {mode : Mode} {draft : Draft} {name text after : Text}
      (h : Names mode text draft name after) : Completes mode text (draft.add name []) after
  | quoted {draft : Draft} {mark : Char} {name text after : Text}
      (hdrop : text.dropWhile (· ≠ mark) = after) :
      Completes (.quotedValue draft name mark) text (draft.add name (text.takeWhile (· ≠ mark))) after
  | bare {draft : Draft} {name text after : Text}
      (hdrop : text.dropWhile (!endsBareValue ·) = after) :
      Completes (.bareValue draft name) text
        (draft.add name (text.takeWhile (!endsBareValue ·))) after

end Mode

namespace Config

/-- A step that reads a run of characters and the one that ends it, and goes on from there. -/
def readRun (p : Char → Bool) (next : Text → Char → Text → Step) (pending text : Text) : Step :=
  match text.dropWhile p with
  | [] => .finish (flush pending ++ [.endOfInput])
  | c :: rest => next (text.takeWhile p) c rest

/-- Where a scan goes on behind a run, with a name that weighs `base` before it. What stands behind
the character that ends the run does not matter. -/
inductive GoesOn (base : Nat) (pending : Text) : (Text → Char → Text → Step) → Prop
  | behind (mode : Text → Char → Mode) (carries : ∀ front c, (mode front c).Carries base front) :
      GoesOn base pending fun front c rest => .advance [] ⟨mode front c, pending, rest⟩
  | again (mode : Text → Char → Mode) (carries : ∀ front c, (mode front c).Carries base front) :
      GoesOn base pending fun front c rest => .advance [] ⟨mode front c, pending, c :: rest⟩
  | close (draft : Text → Draft) (carries : ∀ front, (draft front).name.weight ≤ base + front.weight)
      {next : Text → Char → Text → Step} (h : GoesOn base pending next) :
      GoesOn base pending fun front c rest =>
        if c = '>' then emitTag ⟨.data, pending, []⟩ (draft front) rest else next front c rest
  | ite (q : Char → Prop) [DecidablePred q] {next other : Text → Char → Text → Step}
      (h : GoesOn base pending next) (hother : GoesOn base pending other) :
      GoesOn base pending fun front c rest =>
        if q c then next front c rest else other front c rest

/-- A step inside of a tag reads a run and goes on. The name of an attribute begins with any
character, so there the run begins behind the first one. -/
theorem step_tag {sections : Bool} {mode : Mode} (h : mode.IsTag) (pending : Text) :
    (∃ p next, GoesOn mode.nameWeight pending next ∧
      ∀ text, step sections ⟨mode, pending, text⟩ = readRun p next pending text) ∨
    (step sections ⟨mode, pending, []⟩ = .finish (flush pending ++ [.endOfInput]) ∧
      ∀ first, ∃ p next, GoesOn mode.nameWeight pending next ∧
        ∀ text, step sections ⟨mode, pending, first :: text⟩ = readRun p next pending text) := by
  have hsame : ∀ {base : Nat} {front : Text}, base ≤ base + front.weight := Nat.le_add_right _ _
  cases mode with
  | tagName side =>
    -- The run is the name.
    have hname : ∀ {front : Text}, front.weight ≤ 0 + front.weight := Nat.le_add_left _ _
    exact .inl ⟨(!endsName ·), _,
      .ite (· = '/') (.behind (fun name _ => .selfClosing { side, name }) fun _ _ => ⟨trivial, hname⟩)
        (.close (fun name => { side, name }) (fun _ => hname)
          (.behind (fun name _ => .beforeAttribute { side, name }) fun _ _ => ⟨trivial, hname⟩)),
      fun _ => rfl⟩
  | beforeAttribute draft =>
    exact .inl ⟨isSpace, _,
      .ite (· = '/') (.behind (fun _ _ => .selfClosing draft) fun _ _ => ⟨trivial, hsame⟩)
        (.close (fun _ => draft) (fun _ => hsame)
          (.again (fun _ _ => .attributeName draft) fun _ _ => ⟨trivial, hsame⟩)),
      fun _ => rfl⟩
  | attributeName draft =>
    exact .inr ⟨rfl, fun first => ⟨(!endsAttributeName ·), _,
      .ite (· = '/')
        (.behind (fun name _ => .selfClosing (draft.add (first :: name) []))
          fun _ _ => ⟨trivial, hsame⟩)
        (.ite (· = '=')
          (.behind (fun name _ => .beforeValue draft (first :: name)) fun _ _ => ⟨trivial, hsame⟩)
          (.close (fun name => draft.add (first :: name) []) (fun _ => hsame)
            (.behind (fun name _ => .afterAttributeName draft (first :: name))
              fun _ _ => ⟨trivial, hsame⟩))),
      fun _ => rfl⟩⟩
  | afterAttributeName draft name =>
    exact .inl ⟨isSpace, _,
      .ite (· = '/')
        (.behind (fun _ _ => .selfClosing (draft.add name [])) fun _ _ => ⟨trivial, hsame⟩)
        (.ite (· = '=') (.behind (fun _ _ => .beforeValue draft name) fun _ _ => ⟨trivial, hsame⟩)
          (.close (fun _ => draft.add name []) (fun _ => hsame)
            (.again (fun _ _ => .attributeName (draft.add name [])) fun _ _ => ⟨trivial, hsame⟩))),
      fun _ => rfl⟩
  | beforeValue draft name =>
    exact .inl ⟨isSpace, _,
      .ite (fun c => (c = Text.doubleMark || c = Text.singleMark) = true)
        (.behind (fun _ c => .quotedValue draft name c) fun _ _ => ⟨trivial, hsame⟩)
        (.close (fun _ => draft.add name []) (fun _ => hsame)
          (.again (fun _ _ => .bareValue draft name) fun _ _ => ⟨trivial, hsame⟩)),
      fun _ => rfl⟩
  | quotedValue draft name mark =>
    exact .inl ⟨(· ≠ mark), _,
      .behind (fun value _ => .beforeAttribute (draft.add name value)) fun _ _ => ⟨trivial, hsame⟩,
      fun _ => rfl⟩
  | bareValue draft name =>
    exact .inl ⟨(!endsBareValue ·), _,
      .close (fun value => draft.add name value) (fun _ => hsame)
        (.behind (fun value _ => .beforeAttribute (draft.add name value)) fun _ _ => ⟨trivial, hsame⟩),
      fun _ => rfl⟩
  | selfClosing draft =>
    -- The run is empty, for every character ends it.
    refine .inl ⟨fun _ => false, _,
      .close (fun _ => draft) (fun _ => hsame)
        (.again (fun _ _ => .beforeAttribute draft) fun _ _ => ⟨trivial, hsame⟩), fun text => ?_⟩
    cases text <;> rfl
  | _ => cases h

/-! ## All that a step inside of a tag can do -/

/-- The step after a run: the tag is dropped at the end of the input, given out, or read further. -/
inductive TagStep (config : Config) : Step → Prop
  | dropped : TagStep config config.close
  | given {draft : Draft} {rest : Text}
      (h : config.mode.Completes config.rest draft ('>' :: rest)) :
      TagStep config (config.emitTag draft rest)
  | selfClosing {draft : Draft} {rest : Text}
      (h : config.mode.Completes config.rest draft ('/' :: rest)) :
      TagStep config (config.enter (.selfClosing draft) rest)
  | beforeAttribute {draft : Draft} {c : Char} {rest after : Text}
      (h : config.mode.Completes config.rest draft (c :: rest))
      (hafter : after = rest ∨ after = c :: rest) :
      TagStep config (config.enter (.beforeAttribute draft) after)
  | attributeName {draft : Draft} {c : Char} {rest : Text}
      (h : config.mode.Completes config.rest draft (c :: rest)) (hc : endsName c = false) :
      TagStep config (config.enter (.attributeName draft) (c :: rest))
  | afterAttributeName {draft : Draft} {name : Text} {c : Char} {rest : Text}
      (h : config.mode.Names config.rest draft name (c :: rest)) :
      TagStep config (config.enter (.afterAttributeName draft name) rest)
  | beforeValue {draft : Draft} {name rest : Text}
      (h : config.mode.Names config.rest draft name ('=' :: rest)) :
      TagStep config (config.enter (.beforeValue draft name) rest)
  | quotedValue {draft : Draft} {name : Text} {c : Char} {rest : Text}
      (h : config.mode.Names config.rest draft name (c :: rest)) (hc : isMark c = true) :
      TagStep config (config.enter (.quotedValue draft name c) rest)
  | bareValue {draft : Draft} {name : Text} {c : Char} {rest : Text}
      (h : config.mode.Names config.rest draft name (c :: rest)) (hc : isMark c = false) :
      TagStep config (config.enter (.bareValue draft name) (c :: rest))

/-- A step inside of a tag. -/
theorem tagStep_step {sections : Bool} {config : Config} (hmode : config.mode.IsTag) :
    config.TagStep (config.step sections) := by
  obtain ⟨mode, pending, rest⟩ := config
  cases mode with
  | tagName side =>
    simp only [step, stepTagName]
    split
    · exact .dropped
    · next c after hdrop =>
      have hread : Mode.Completes (.tagName side) rest _ (c :: after) := .name hdrop
      split
      · next hc => exact .selfClosing (hc ▸ hread)
      · split
        · next hc => exact .given (hc ▸ hread)
        · exact .beforeAttribute hread (.inl rfl)
  | beforeAttribute draft =>
    simp only [step, stepBeforeAttribute]
    split
    · exact .dropped
    · next c after hdrop =>
      have hread : Mode.Completes (.beforeAttribute draft) rest _ (c :: after) := .spaces hdrop
      split
      · next hc => exact .selfClosing (hc ▸ hread)
      · next hslash =>
        split
        · next hc => exact .given (hc ▸ hread)
        · next hclose => exact .attributeName hread (endsName_of_dropWhile hdrop hslash hclose)
  | attributeName draft =>
    simp only [step, stepAttributeName]
    split
    · exact .dropped
    · next first text =>
      split
      · exact .dropped
      · next c after hdrop =>
        have hread : Mode.Names (.attributeName draft) (first :: text) _ _ (c :: after) := .read hdrop
        split
        · next hc => exact .selfClosing (.empty (hc ▸ hread))
        · split
          · next hc => exact .beforeValue (hc ▸ hread)
          · split
            · next hc => exact .given (.empty (hc ▸ hread))
            · exact .afterAttributeName hread
  | afterAttributeName draft name =>
    simp only [step, stepAfterAttributeName]
    split
    · exact .dropped
    · next c after hdrop =>
      have hread : Mode.Names (.afterAttributeName draft name) rest _ _ (c :: after) := .behind hdrop
      split
      · next hc => exact .selfClosing (.empty (hc ▸ hread))
      · next hslash =>
        split
        · next hc => exact .beforeValue (hc ▸ hread)
        · split
          · next hc => exact .given (.empty (hc ▸ hread))
          · next hclose =>
            exact .attributeName (.empty hread) (endsName_of_dropWhile hdrop hslash hclose)
  | beforeValue draft name =>
    simp only [step, stepBeforeValue]
    split
    · exact .dropped
    · next c after hdrop =>
      have hread : Mode.Names (.beforeValue draft name) rest _ _ (c :: after) := .before hdrop
      split
      · next hmark => exact .quotedValue hread hmark
      · next hmark =>
        split
        · next hc => exact .given (.empty (hc ▸ hread))
        · exact .bareValue hread (Bool.eq_false_iff.2 hmark)
  | quotedValue draft name mark =>
    simp only [step, stepQuotedValue]
    split
    · exact .dropped
    · next hdrop => exact .beforeAttribute (.quoted hdrop) (.inl rfl)
  | bareValue draft name =>
    simp only [step, stepBareValue]
    split
    · exact .dropped
    · next c after hdrop =>
      have hread : Mode.Completes (.bareValue draft name) rest _ (c :: after) := .bare hdrop
      split
      · next hc => exact .given (hc ▸ hread)
      · exact .beforeAttribute hread (.inl rfl)
  | selfClosing draft =>
    simp only [step, stepSelfClosing]
    split
    · exact .dropped
    · split
      · next hc => exact .given (hc ▸ .slash)
      · exact .beforeAttribute .slash (.inr rfl)
  | _ => cases hmode

end Config
end MarkupBinding.Scanner
