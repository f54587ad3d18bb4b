import MarkupBinding.Proofs.Text.Mark
import MarkupBinding.Token.Scanner

/-!
# A scanner with a position

The scanner once more, as a machine with registers. It keeps the whole text and a position in it. A
character that a state has read and does not want is held back, and the next state reads it again. The
tag that is being read lies in registers of its own, and so does the name whose end tag closes raw
text. A state is known by its number; a number that is not one of a state means character data.

Such a cursor has two gaits. Leaping, it looks for the end of a run of characters and takes the run at
once, whatever it holds back. Walking, it takes one character at a time and looks at every place
whether what ends the run stands there.

A pass is what a state does before it looks for the next character. Nothing keeps a pass from failing:
raw text may have no name, and a character that is held back may be looked for before the text begins.

* `Cursor.pass`: one pass.
* `Cursor.Scans`: passes up to the end of the text.
-/

namespace MarkupBinding.Scanner

/-- The states of a cursor. Only a walking cursor is ever inside of a marked section. -/
inductive State where
  | data
  | tagOpen
  | endTagOpen
  | tagName
  | beforeAttribute
  | attributeName
  | afterAttributeName
  | beforeValue
  | doubleValue
  | singleValue
  | bareValue
  | selfClosing
  | declarationOpen
  | comment
  | declaration
  | instruction
  | bogusComment
  | rawText
  | markedSection
deriving DecidableEq, Repr

namespace State

/-- All states, by their numbers. -/
def all : List State :=
  [data, tagOpen, endTagOpen, tagName, beforeAttribute, attributeName, afterAttributeName,
    beforeValue, doubleValue, singleValue, bareValue, selfClosing, declarationOpen, comment,
    declaration, instruction, bogusComment, rawText, markedSection]

/-- The number of a state. -/
def code (state : State) : Nat := all.idxOf state

/-- The state with a number. -/
def ofCode? (n : Nat) : Option State := all[n]?

@[simp] theorem ofCode?_code (state : State) : ofCode? state.code = some state := by
  cases state <;> rfl

/-- How many passes a state may make before one of them takes a character. -/
def rank : State → Nat
  | .tagOpen | .endTagOpen | .beforeValue | .selfClosing | .declarationOpen | .markedSection => 1
  | _ => 0

end State

/-- The two ways to pass over a run of characters. -/
inductive Gait where
  /-- At once, up to what ends it. -/
  | leaping
  /-- One character at a time. -/
  | walking
deriving DecidableEq, Repr

/-- A position in a text and what has been read before it. -/
structure Cursor where
  text : Text
  position : Nat := 0
  /-- Whether the last character is held back. -/
  held : Bool := false
  /-- The last character that was read, if it was not the end of the text. -/
  current : Option Char := none
  /-- Character data read but not yet given out. -/
  pending : Text := []
  side : Side := .opening
  name : Text := []
  attrs : Attributes := []
  attributeName : Text := []
  attributeValue : Text := []
  /-- The name whose end tag closes raw text. -/
  rawName : Option Text := none
  /-- What a walking cursor has read of a comment, a directive or a section. -/
  content : Text := []
deriving DecidableEq, Repr

/-- What can be wrong with the registers of a cursor. -/
inductive Fault where
  /-- Raw text without a name. -/
  | noRawName
  /-- A character that is held back at the beginning of the text. -/
  | beforeText
deriving DecidableEq, Repr

/-- The outcome of a pass: tokens, and the number of the state and the cursor to go on with if there are
such, or a fault. -/
inductive Pass where
  | advance (tokens : List Token) (state : Nat) (cursor : Cursor)
  | finish (tokens : List Token)
  | fail (fault : Fault)
deriving DecidableEq, Repr

namespace Cursor

/-! ## Registers -/

/-- The text from the position on. -/
def ahead (m : Cursor) : Text := m.text.drop m.position

/-- Passes over what stands ahead. -/
def skip (m : Cursor) (front : Text) : Cursor := { m with position := m.position + front.length }

/-- Reads the next character, or once more the one that is held back. -/
def read (m : Cursor) : Option Char × Cursor :=
  if m.held then (m.current, { m with held := false })
  else
    match m.text[m.position]? with
    | some c => (some c, { m with position := m.position + 1, current := some c })
    | none => (none, { m with current := none })

/-- Holds the last character back. -/
def hold (m : Cursor) : Cursor := { m with held := true }

/-- Adds to the character data that wait. -/
def addText (m : Cursor) (text : Text) : Cursor := { m with pending := m.pending ++ text }

/-- Begins a tag with the first letter of its name. -/
def startTag (m : Cursor) (side : Side) (c : Char) : Cursor :=
  { m with side, name := [c], attrs := [], attributeName := [], attributeValue := [] }

/-- Begins an attribute with the first character of its name. -/
def startAttribute (m : Cursor) (c : Char) : Cursor :=
  { m with attributeName := [c], attributeValue := [] }

/-- Adds the attribute that has been read, if there is one, to those of the tag. -/
def finishAttribute (m : Cursor) : Cursor :=
  if m.attributeName = [] then { m with attributeValue := [] }
  else
    { m with
      attrs := m.attrs.insertNew m.attributeName m.attributeValue
      attributeName := []
      attributeValue := [] }

/-! ## Outcomes -/

/-- Goes on in another state. -/
def enter (m : Cursor) (state : State) : Pass := .advance [] state.code m

/-- Goes on in a state that reads a comment, a directive or a section. -/
def enterContent (m : Cursor) (state : State) : Pass := { m with content := [] }.enter state

/-- The end of the text. -/
def close (m : Cursor) : Pass := .finish (flush m.pending ++ [.endOfInput])

/-- Gives out a token after the data that wait and goes on with character data. -/
def emit (m : Cursor) (token : Token) : Pass :=
  .advance (flush m.pending ++ [token]) State.data.code { m with pending := [] }

/-- Gives out a token after the data that wait, at the end of the text. -/
def emitLast (m : Cursor) (token : Token) : Pass :=
  .finish (flush m.pending ++ [token, .endOfInput])

/-- Gives out the tag that has been read. -/
def emitTag (m : Cursor) : Pass :=
  let m := m.finishAttribute
  let draft : Draft := ⟨m.side, m.name, m.attrs⟩
  let raw := m.side = .opening && Element.isRawText m.name
  .advance (flush m.pending ++ [draft.token])
    (if raw then State.rawText.code else State.data.code)
    { m with
      pending := []
      name := []
      attrs := []
      rawName := if raw then some m.name else m.rawName }

/-! ## Passes -/

variable (gait : Gait) (sections : Bool) (m : Cursor)

/-- Takes character data up to the next angle bracket. -/
def leapData : Pass :=
  match Text.cut? ['<'] m.ahead with
  | some (before, _) => ((m.addText before).skip (before ++ ['<'])).enter .tagOpen
  | none => (m.addText m.ahead).close

def passData : Pass :=
  match gait with
  | .leaping =>
    if m.held then
      match m.current with
      | none => m.close
      | some c =>
        let m := { m with held := false }
        if c = '<' then m.enter .tagOpen else (m.addText [c]).leapData
    else m.leapData
  | .walking =>
    match m.read with
    | (none, m) => m.close
    | (some c, m) => if c = '<' then m.enter .tagOpen else (m.addText [c]).enter .data

def passTagOpen : Pass :=
  match m.read with
  | (none, m) => (m.addText ['<']).close
  | (some c, m) =>
    if c = '!' then m.enter .declarationOpen
    else if c = '/' then m.enter .endTagOpen
    else if c = '?' then m.enterContent .instruction
    else if Text.isLetter c then (m.startTag .opening c).enter .tagName
    else (m.addText ['<']).hold.enter .data

def passEndTagOpen : Pass :=
  match m.read with
  | (none, m) => (m.addText ['<', '/']).close
  | (some c, m) =>
    if Text.isLetter c then (m.startTag .closing c).enter .tagName
    else if c = '>' then m.enter .data
    else m.hold.enterContent .bogusComment

def passTagName : Pass :=
  match m.read with
  | (none, m) => m.close
  | (some c, m) =>
    if isSpace c then m.enter .beforeAttribute
    else if c = '/' then m.enter .selfClosing
    else if c = '>' then m.emitTag
    else enter { m with name := m.name ++ [c] } .tagName

def passBeforeAttribute : Pass :=
  match m.read with
  | (none, m) => m.close
  | (some c, m) =>
    if isSpace c then m.enter .beforeAttribute
    else if c = '/' then m.enter .selfClosing
    else if c = '>' then m.emitTag
    else (m.startAttribute c).enter .attributeName

/-- The run of characters ahead up to one that stops it, if the cursor leaps over it. Over no characters
it does not leap, nor with one held back. -/
def run? (stop : Char → Bool) : Option Text :=
  let run := m.ahead.takeWhile (!stop ·)
  if gait = .leaping && !m.held && run ≠ [] then some run else none

def passAttributeName : Pass :=
  match m.run? gait endsAttributeName with
  | some run =>
    enter { m.skip run with attributeName := m.attributeName ++ run } .attributeName
  | none =>
    match m.read with
    | (none, m) => m.close
    | (some c, m) =>
      if isSpace c then m.enter .afterAttributeName
      else if c = '/' then m.finishAttribute.enter .selfClosing
      else if c = '=' then m.enter .beforeValue
      else if c = '>' then m.emitTag
      else enter { m with attributeName := m.attributeName ++ [c] } .attributeName

def passAfterAttributeName : Pass :=
  match m.read with
  | (none, m) => m.close
  | (some c, m) =>
    if isSpace c then m.enter .afterAttributeName
    else if c = '/' then m.finishAttribute.enter .selfClosing
    else if c = '=' then m.enter .beforeValue
    else if c = '>' then m.emitTag
    else (m.finishAttribute.startAttribute c).enter .attributeName

def passBeforeValue : Pass :=
  match m.read with
  | (none, m) => m.close
  | (some c, m) =>
    if isSpace c then m.enter .beforeValue
    else if c = Text.doubleMark then m.enter .doubleValue
    else if c = Text.singleMark then m.enter .singleValue
    else if c = '>' then m.emitTag
    else m.hold.enter .bareValue

/-- Reads a value up to its closing mark, in the state of that mark. -/
def passQuotedValue (mark : Char) (state : State) : Pass :=
  match m.run? gait (· = mark) with
  | some run => enter { m.skip run with attributeValue := m.attributeValue ++ run } state
  | none =>
    match m.read with
    | (none, m) => m.close
    | (some c, m) =>
      if c = mark then m.finishAttribute.enter .beforeAttribute
      else enter { m with attributeValue := m.attributeValue ++ [c] } state

def passBareValue : Pass :=
  match m.run? gait endsBareValue with
  | some run => enter { m.skip run with attributeValue := m.attributeValue ++ run } .bareValue
  | none =>
    match m.read with
    | (none, m) => m.close
    | (some c, m) =>
      if isSpace c then m.finishAttribute.enter .beforeAttribute
      else if c = '>' then m.emitTag
      else enter { m with attributeValue := m.attributeValue ++ [c] } .bareValue

def passSelfClosing : Pass :=
  match m.read with
  | (none, m) => m.close
  | (some c, m) => if c = '>' then m.emitTag else m.hold.enter .beforeAttribute

/-- Takes a marked section up to its end. Without the end it reaches to that of the text. -/
def leapSection : Pass :=
  match Text.cut? Config.sectionClosing m.ahead with
  | some (content, _) =>
    (m.skip (content ++ Config.sectionClosing)).emit (Config.sectionToken sections content)
  | none => (m.skip m.ahead).emit (Config.sectionToken sections m.ahead)

def passDeclarationOpen : Pass :=
  if "--".toList <+: m.ahead then (m.skip "--".toList).enterContent .comment
  else if Config.sectionOpening <+: m.ahead then
    let m := m.skip Config.sectionOpening
    match gait with
    | .leaping => m.leapSection sections
    | .walking => m.enterContent .markedSection
  else m.enterContent .declaration

def passSection : Pass :=
  if Config.sectionClosing <+: m.ahead then
    (m.skip Config.sectionClosing).emit (Config.sectionToken sections m.content)
  else
    match m.read with
    | (none, m) => m.emit (Config.sectionToken sections m.content)
    | (some c, m) => enter { m with content := m.content ++ [c] } .markedSection

/-- Takes data up to a mark. Without the mark they reach to the end of the text. -/
def leapTo (mark : Text) (kind : DataKind) (sign : Text) : Pass :=
  match Text.cut? mark m.ahead with
  | some (content, _) => (m.skip (content ++ mark)).emit (.data kind (sign ++ content))
  | none => m.emitLast (.data kind (sign ++ m.ahead))

def passComment : Pass :=
  match gait with
  | .leaping => m.leapTo "-->".toList .comment []
  | .walking =>
    if "-->".toList <+: m.ahead then (m.skip "-->".toList).emit (.data .comment m.content)
    else
      match m.read with
      | (none, m) => m.emitLast (.data .comment m.content)
      | (some c, m) => enter { m with content := m.content ++ [c] } .comment

/-- Reads up to a closing bracket. A leaping cursor steps back to the character that is held back. -/
def passDirective (kind : DataKind) (sign : Text) (state : State) : Pass :=
  match gait with
  | .leaping =>
    if m.held && m.position = 0 then .fail .beforeText
    else
      let m := if m.held then { m with held := false, position := m.position - 1 } else m
      m.leapTo ['>'] kind sign
  | .walking =>
    match m.read with
    | (none, m) => m.emitLast (.data kind (sign ++ m.content))
    | (some c, m) =>
      if c = '>' then m.emit (.data kind (sign ++ m.content))
      else enter { m with content := m.content ++ [c] } state

/-- Whether the end tag of an element stands at the front of a text. -/
def endsRaw (name : Text) : Text → Bool
  | '<' :: '/' :: rest => beginsWithName name rest
  | _ => false

/-- Goes on with the end tag of raw text. -/
def leaveRaw : Pass :=
  .advance (flush m.pending) State.endTagOpen.code
    { m.skip ['<', '/'] with pending := [], rawName := none }

def passRawText : Pass :=
  match m.rawName with
  | none => .fail .noRawName
  | some name =>
    match gait with
    | .leaping =>
      match rawEnd? name m.ahead with
      | some (raw, _) => ((m.addText raw).skip raw).leaveRaw
      | none => (m.addText m.ahead).close
    | .walking =>
      if endsRaw name m.ahead then m.leaveRaw
      else
        match m.read with
        | (none, m) => m.close
        | (some c, m) => (m.addText [c]).enter .rawText

/-- One pass in a state. -/
def passIn : State → Pass
  | .data => m.passData gait
  | .tagOpen => m.passTagOpen
  | .endTagOpen => m.passEndTagOpen
  | .tagName => m.passTagName
  | .beforeAttribute => m.passBeforeAttribute
  | .attributeName => m.passAttributeName gait
  | .afterAttributeName => m.passAfterAttributeName
  | .beforeValue => m.passBeforeValue
  | .doubleValue => m.passQuotedValue gait Text.doubleMark .doubleValue
  | .singleValue => m.passQuotedValue gait Text.singleMark .singleValue
  | .bareValue => m.passBareValue gait
  | .selfClosing => m.passSelfClosing
  | .declarationOpen => m.passDeclarationOpen gait sections
  | .comment => m.passComment gait
  | .declaration => m.passDirective gait .directive ['!'] .declaration
  | .instruction => m.passDirective gait .directive ['?'] .instruction
  | .bogusComment => m.passDirective gait .comment [] .bogusComment
  | .rawText => m.passRawText gait
  | .markedSection => m.passSection sections

/-- One pass in the state with a number. A number that is not one of a state means character data. -/
def pass (n : Nat) : Pass :=
  match State.ofCode? n with
  | some state => m.passIn gait sections state
  | none => m.enter .data

/-- What a cursor can come to from the beginning of a text: after how many passes, in the state with
which number, with which registers, and having given out which tokens. -/
inductive Reaches (text : Text) : Nat → Nat → Cursor → List Token → Prop
  | start : Reaches text 0 State.data.code { text } []
  | pass {passes n next : Nat} {m cursor : Cursor} {front tokens : List Token}
      (h : Reaches text passes n m front)
      (hpass : m.pass gait sections n = .advance tokens next cursor) :
      Reaches text (passes + 1) next cursor (front ++ tokens)

/-- A cursor comes to the end of a text, and these are the tokens it has given out. -/
def Scans (text : Text) (tokens : List Token) : Prop :=
  ∃ passes n m front last, Reaches gait sections text passes n m front ∧
    m.pass gait sections n = .finish last ∧ front ++ last = tokens

end Cursor
end MarkupBinding.Scanner
