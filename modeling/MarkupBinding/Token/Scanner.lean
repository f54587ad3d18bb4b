import MarkupBinding.Element
import MarkupBinding.Text.Letter
import MarkupBinding.Token.Basic

/-!
# Scanning markup

A forgiving scanner that turns any text into tokens. It is a machine whose configuration holds the
text still to be read, the character data that wait to become one token, and a mode; a step reads
one run of characters. A character that belongs to the next mode simply stays in the text.

Names are kept as written, character references are left alone and attribute values stay raw, so
that printing the tokens again reproduces the text wherever nothing had to be repaired.

* `Config.step_measure_lt`: every step that goes on makes the configuration smaller, so a run ends.
-/

namespace MarkupBinding.Scanner

/-- White space between the parts of a tag. -/
def isSpace (c : Char) : Bool :=
  c = '\t' || c = '\n' || c = '\x0c' || c = '\r' || c = ' '

/-- Whether a character ends the name of a tag. -/
def endsName (c : Char) : Bool := isSpace c || c = '/' || c = '>'

/-- Whether a character ends the name of an attribute. -/
def endsAttributeName (c : Char) : Bool := endsName c || c = '='

/-- Whether a character ends an attribute value without quotation marks. -/
def endsBareValue (c : Char) : Bool := isSpace c || c = '>'

/-- The two sides of an element that a tag can stand on. -/
inductive Side where
  | opening
  | closing
deriving DecidableEq, Repr

/-- A tag that is being read: its attributes so far. -/
structure Draft where
  side : Side
  name : Text
  attrs : Attributes := []
deriving DecidableEq, Repr

namespace Draft

/-- The draft with one more attribute; the first occurrence of a name wins. -/
def add (draft : Draft) (name value : Text) : Draft :=
  { draft with attrs := draft.attrs.insertNew name value }

/-- The finished tag. -/
def token (draft : Draft) : Token :=
  match draft.side with
  | .opening => .startTag draft.name draft.attrs
  | .closing => .endTag draft.name draft.attrs

end Draft

/-- What the scanner is in the middle of. -/
inductive Mode where
  /-- Character data. -/
  | data
  /-- After an opening angle bracket. -/
  | tagOpen
  /-- After an opening angle bracket and a slash. -/
  | endTagOpen
  /-- At the first letter of a tag's name. -/
  | tagName (side : Side)
  /-- Between the parts of a tag. -/
  | beforeAttribute (draft : Draft)
  /-- At the first character of an attribute's name. -/
  | attributeName (draft : Draft)
  /-- After an attribute's name and white space. -/
  | afterAttributeName (draft : Draft) (name : Text)
  /-- After an attribute's name and an equals sign. -/
  | beforeValue (draft : Draft) (name : Text)
  /-- Inside quotation marks. -/
  | quotedValue (draft : Draft) (name : Text) (mark : Char)
  /-- Inside a value without quotation marks. -/
  | bareValue (draft : Draft) (name : Text)
  /-- After a slash inside a tag. -/
  | selfClosing (draft : Draft)
  /-- After an opening angle bracket and an exclamation mark. -/
  | declarationOpen
  /-- Inside a comment. -/
  | comment
  /-- Inside a declaration. -/
  | declaration
  /-- Inside a processing instruction. -/
  | instruction
  /-- Inside an end tag that has no name, which is read as a comment. -/
  | bogusComment
  /-- Inside an element whose content is raw text. -/
  | rawText (name : Text)
deriving DecidableEq, Repr

/-- A moment of a scan. -/
structure Config where
  mode : Mode
  /-- Character data read but not yet given out. -/
  pending : Text
  /-- The text still to be read. -/
  rest : Text
deriving DecidableEq, Repr

/-- The outcome of a step: tokens, and the configuration to go on with if there is one. -/
inductive Step where
  | advance (tokens : List Token) (config : Config)
  | finish (tokens : List Token)
deriving DecidableEq, Repr

/-- Character data as a token; no token if there are none. -/
def flush (pending : Text) : List Token :=
  if pending.isEmpty then [] else [.data .text pending]

/-! ## The end of raw text -/

/-- Whether a character may stand for a letter of an element's name: the letter in either case, the
long s for `s`, and the dotted capital and the dotless small letter for `i`. -/
def matchesLetter (letter c : Char) : Bool :=
  c.toLower = letter.toLower ||
    (letter.toLower = 's' && c = 'ſ') ||
    (letter.toLower = 'i' && (c = 'İ' || c = 'ı'))

/-- Whether a text begins with the name, in any case, and a character that ends it. -/
def beginsWithName : Text → Text → Bool
  | [], c :: _ => endsName c
  | letter :: name, c :: text => matchesLetter letter c && beginsWithName name text
  | _, [] => false

/-- Raw text up to the end tag of the element, and what follows the bracket and slash of the tag. -/
def rawEnd? (name : Text) : Text → Option (Text × Text)
  | [] => none
  | c :: text =>
    match text with
    | '/' :: rest =>
      if c = '<' && beginsWithName name rest then some ([], rest)
      else (rawEnd? name text).map fun (raw, rest) => (c :: raw, rest)
    | _ => (rawEnd? name text).map fun (raw, rest) => (c :: raw, rest)

/-! ## Steps -/

namespace Config

/-- The end of the input: the character data that wait are given out, an open tag is dropped. -/
def close (config : Config) : Step := .finish (flush config.pending ++ [.endOfInput])

/-- Gives out a token after the data that wait and goes on with character data. -/
def emit (config : Config) (token : Token) (rest : Text) : Step :=
  .advance (flush config.pending ++ [token]) ⟨.data, [], rest⟩

/-- Gives out a finished tag. The content of a raw text element is read as such. -/
def emitTag (config : Config) (draft : Draft) (rest : Text) : Step :=
  let mode := if draft.side = .opening && Element.isRawText draft.name then .rawText draft.name
    else .data
  .advance (flush config.pending ++ [draft.token]) ⟨mode, [], rest⟩

/-- Goes on in another mode with the character data that wait. -/
def enter (config : Config) (mode : Mode) (rest : Text) : Step :=
  .advance [] { config with mode, rest }

/-- Reads data up to `mark`; without the mark they reach to the end of the input. -/
def stepData (config : Config) (mark : Text) (kind : DataKind) (sign : Text) : Step :=
  match Text.cut? mark config.rest with
  | some (content, rest) => config.emit (.data kind (sign ++ content)) rest
  | none => .finish (flush config.pending ++ [.data kind (sign ++ config.rest), .endOfInput])

/-- After an opening angle bracket. A bracket that opens no markup is character data. -/
def stepTagOpen (config : Config) : Step :=
  match config.rest with
  | [] => close { config with pending := config.pending ++ ['<'] }
  | c :: rest =>
    if c = '!' then config.enter .declarationOpen rest
    else if c = '/' then config.enter .endTagOpen rest
    else if c = '?' then config.enter .instruction rest
    else if Text.isLetter c then config.enter (.tagName .opening) config.rest
    else .advance [] ⟨.data, config.pending ++ ['<'], config.rest⟩

/-- After a bracket and a slash. An end tag with neither name nor content is dropped. -/
def stepEndTagOpen (config : Config) : Step :=
  match config.rest with
  | [] => close { config with pending := config.pending ++ ['<', '/'] }
  | c :: rest =>
    if Text.isLetter c then config.enter (.tagName .closing) config.rest
    else if c = '>' then config.enter .data rest
    else config.enter .bogusComment config.rest

/-- Reads the name of a tag and the character that ends it. -/
def stepTagName (config : Config) (side : Side) : Step :=
  let draft : Draft := { side, name := config.rest.takeWhile (!endsName ·) }
  match config.rest.dropWhile (!endsName ·) with
  | [] => config.close
  | c :: rest =>
    if c = '/' then config.enter (.selfClosing draft) rest
    else if c = '>' then config.emitTag draft rest
    else config.enter (.beforeAttribute draft) rest

/-- Between the parts of a tag. -/
def stepBeforeAttribute (config : Config) (draft : Draft) : Step :=
  match config.rest.dropWhile isSpace with
  | [] => config.close
  | c :: rest =>
    if c = '/' then config.enter (.selfClosing draft) rest
    else if c = '>' then config.emitTag draft rest
    else config.enter (.attributeName draft) (c :: rest)

/-- Reads the name of an attribute, whose first character may be any, and the character that ends
it. -/
def stepAttributeName (config : Config) (draft : Draft) : Step :=
  match config.rest with
  | [] => config.close
  | first :: text =>
    -- Even an equals sign belongs to the name if it comes first.
    let name := first :: text.takeWhile (!endsAttributeName ·)
    match text.dropWhile (!endsAttributeName ·) with
    | [] => config.close
    | c :: rest =>
      if c = '/' then config.enter (.selfClosing (draft.add name [])) rest
      else if c = '=' then config.enter (.beforeValue draft name) rest
      else if c = '>' then config.emitTag (draft.add name []) rest
      else config.enter (.afterAttributeName draft name) rest

/-- After the name of an attribute and white space: a value may still follow. -/
def stepAfterAttributeName (config : Config) (draft : Draft) (name : Text) : Step :=
  match config.rest.dropWhile isSpace with
  | [] => config.close
  | c :: rest =>
    if c = '/' then config.enter (.selfClosing (draft.add name [])) rest
    else if c = '=' then config.enter (.beforeValue draft name) rest
    else if c = '>' then config.emitTag (draft.add name []) rest
    else config.enter (.attributeName (draft.add name [])) (c :: rest)

/-- After the equals sign of an attribute. -/
def stepBeforeValue (config : Config) (draft : Draft) (name : Text) : Step :=
  match config.rest.dropWhile isSpace with
  | [] => config.close
  | c :: rest =>
    if c = Text.doubleMark || c = Text.singleMark then
      config.enter (.quotedValue draft name c) rest
    else if c = '>' then config.emitTag (draft.add name []) rest
    else config.enter (.bareValue draft name) (c :: rest)

/-- Reads a value up to its closing mark. -/
def stepQuotedValue (config : Config) (draft : Draft) (name : Text) (mark : Char) : Step :=
  match config.rest.dropWhile (· ≠ mark) with
  | [] => config.close
  | _ :: rest =>
    config.enter (.beforeAttribute (draft.add name (config.rest.takeWhile (· ≠ mark)))) rest

/-- Reads a value without marks and the character that ends it. -/
def stepBareValue (config : Config) (draft : Draft) (name : Text) : Step :=
  let draft := draft.add name (config.rest.takeWhile (!endsBareValue ·))
  match config.rest.dropWhile (!endsBareValue ·) with
  | [] => config.close
  | c :: rest =>
    if c = '>' then config.emitTag draft rest else config.enter (.beforeAttribute draft) rest

/-- After a slash inside a tag, which means nothing. -/
def stepSelfClosing (config : Config) (draft : Draft) : Step :=
  match config.rest with
  | [] => config.close
  | c :: rest =>
    if c = '>' then config.emitTag draft rest
    else config.enter (.beforeAttribute draft) config.rest

/-- What opens a marked section, after the angle bracket and the exclamation mark. -/
def sectionOpening : Text := "[CDATA[".toList

/-- What closes a marked section. -/
def sectionClosing : Text := "]]>".toList

/-- A marked section as a token. Where sections are not recognized it is a comment. -/
def sectionToken (sections : Bool) (content : Text) : Token :=
  let body := sectionOpening ++ content ++ "]]".toList
  if sections then .data .cdata ('!' :: body) else .data .comment body

/-- After a bracket and an exclamation mark: a comment, a marked section or a declaration. -/
def stepDeclarationOpen (config : Config) (sections : Bool) : Step :=
  match "--".toList.isPrefixOf? config.rest with
  | some rest => config.enter .comment rest
  | none =>
    match sectionOpening.isPrefixOf? config.rest with
    | some text =>
      match Text.cut? sectionClosing text with
      | some (content, rest) => config.emit (sectionToken sections content) rest
      | none => config.emit (sectionToken sections text) []
    | none => config.enter .declaration config.rest

/-- Reads character data up to the next angle bracket. -/
def stepCharacters (config : Config) : Step :=
  let pending := config.pending ++ config.rest.takeWhile (· ≠ '<')
  match config.rest.dropWhile (· ≠ '<') with
  | [] => close { config with pending }
  | _ :: rest => .advance [] ⟨.tagOpen, pending, rest⟩

/-- Reads raw text up to the end tag of its element. -/
def stepRawText (config : Config) (name : Text) : Step :=
  match rawEnd? name config.rest with
  | none => close { config with pending := config.pending ++ config.rest }
  | some (raw, rest) => .advance (flush (config.pending ++ raw)) ⟨.endTagOpen, [], rest⟩

/-- One step of the scanner. `sections` says whether marked sections are recognized. -/
def step (sections : Bool) (config : Config) : Step :=
  match config.mode with
  | .data => config.stepCharacters
  | .tagOpen => config.stepTagOpen
  | .endTagOpen => config.stepEndTagOpen
  | .tagName side => config.stepTagName side
  | .beforeAttribute draft => config.stepBeforeAttribute draft
  | .attributeName draft => config.stepAttributeName draft
  | .afterAttributeName draft name => config.stepAfterAttributeName draft name
  | .beforeValue draft name => config.stepBeforeValue draft name
  | .quotedValue draft name mark => config.stepQuotedValue draft name mark
  | .bareValue draft name => config.stepBareValue draft name
  | .selfClosing draft => config.stepSelfClosing draft
  | .declarationOpen => config.stepDeclarationOpen sections
  | .comment => config.stepData "-->".toList .comment []
  | .declaration => config.stepData ['>'] .directive ['!']
  | .instruction => config.stepData ['>'] .directive ['?']
  | .bogusComment => config.stepData ['>'] .comment []
  | .rawText name => config.stepRawText name

/-! ## Runs -/

/-- How many steps a mode may pass on before one of them reads a character. -/
def rank : Mode → Nat
  | .selfClosing _ => 2
  | .tagOpen | .endTagOpen | .beforeAttribute _ | .afterAttributeName _ _ | .beforeValue _ _
  | .declarationOpen => 1
  | _ => 0

/-- Three for each character still to be read, and what the mode may pass on. -/
def measure (config : Config) : Nat := 3 * config.rest.length + rank config.mode

/-- What follows a run and one more character is shorter than the text. -/
theorem length_lt_of_dropWhile {p : Char → Bool} {text rest : Text} {c : Char}
    (h : text.dropWhile p = c :: rest) : rest.length < text.length := by
  have hle := (List.dropWhile_suffix (l := text) p).length_le
  rw [h, List.length_cons] at hle
  omega

theorem rank_le_two (mode : Mode) : rank mode ≤ 2 := by
  cases mode <;> simp [rank]

/-- A step that reads a character makes the configuration smaller, whatever the mode. -/
theorem measure_lt_of_length_lt {config next : Config}
    (h : next.rest.length < config.rest.length) : next.measure < config.measure := by
  have := rank_le_two next.mode
  unfold measure
  omega

/-- Passing the text on makes the configuration smaller if the mode has a lower rank. -/
theorem measure_lt_of_rank_lt {config next : Config}
    (h : next.rest.length ≤ config.rest.length) (hr : rank next.mode < rank config.mode) :
    next.measure < config.measure := by
  unfold measure
  omega

/-- The end tag that closes raw text lies inside it. -/
theorem length_lt_of_rawEnd? {name text raw rest : Text}
    (h : rawEnd? name text = some (raw, rest)) : rest.length < text.length := by
  induction text generalizing raw with
  | nil => cases h
  | cons c text ih =>
    unfold rawEnd? at h
    split at h
    · split at h
      · cases h
        simp only [List.length_cons]
        omega
      · obtain ⟨⟨raw', rest'⟩, hraw, heq⟩ := Option.map_eq_some_iff.1 h
        cases heq
        exact Nat.lt_succ_of_lt (ih hraw)
    · obtain ⟨⟨raw', rest'⟩, hraw, heq⟩ := Option.map_eq_some_iff.1 h
      cases heq
      exact Nat.lt_succ_of_lt (ih hraw)

theorem length_le_of_cut? {mark text before after : Text}
    (h : Text.cut? mark text = some (before, after)) :
    mark.length + after.length ≤ text.length := by
  rw [Text.eq_append_of_cut? h]
  simp only [List.length_append]
  omega

theorem length_of_isPrefixOf? {mark text rest : Text} (h : mark.isPrefixOf? text = some rest) :
    text.length = mark.length + rest.length := by
  rw [Text.isPrefixOf?_eq_some_iff.1 h, List.length_append]

/-- Data that are read up to a mark are followed by a shorter text. -/
theorem stepData_measure_lt {config next : Config} {mark sign : Text} {kind : DataKind}
    {tokens : List Token} (hmark : 0 < mark.length)
    (h : config.stepData mark kind sign = .advance tokens next) :
    next.measure < config.measure := by
  unfold stepData at h
  split at h
  · next content rest hcut =>
    cases h
    exact measure_lt_of_length_lt (by have := length_le_of_cut? hcut; simp only; omega)
  · cases h

/-- Every step that goes on makes the configuration smaller. -/
theorem step_measure_lt {sections : Bool} {config next : Config} {tokens : List Token}
    (h : config.step sections = .advance tokens next) : next.measure < config.measure := by
  obtain ⟨mode, pending, rest⟩ := config
  cases mode with
  | data =>
    simp only [step, stepCharacters, close] at h
    split at h
    · cases h
    · next hd => cases h; exact measure_lt_of_length_lt (length_lt_of_dropWhile hd)
  | tagOpen =>
    simp only [step, stepTagOpen, close, enter] at h
    grind [measure, rank]
  | endTagOpen =>
    simp only [step, stepEndTagOpen, close, enter] at h
    grind [measure, rank]
  | tagName side =>
    simp only [step, stepTagName, close, enter, emitTag] at h
    split at h
    · cases h
    · next hd =>
      have := length_lt_of_dropWhile hd
      grind [measure, rank]
  | beforeAttribute draft =>
    simp only [step, stepBeforeAttribute, close, enter, emitTag] at h
    split at h
    · cases h
    · next hd =>
      have := length_lt_of_dropWhile hd
      grind [measure, rank]
  | attributeName draft =>
    simp only [step, stepAttributeName, close, enter, emitTag] at h
    split at h
    · cases h
    · split at h
      · cases h
      · next hd =>
        have := length_lt_of_dropWhile hd
        grind [measure, rank]
  | afterAttributeName draft name =>
    simp only [step, stepAfterAttributeName, close, enter, emitTag] at h
    split at h
    · cases h
    · next hd =>
      have := length_lt_of_dropWhile hd
      grind [measure, rank]
  | beforeValue draft name =>
    simp only [step, stepBeforeValue, close, enter, emitTag] at h
    split at h
    · cases h
    · next hd =>
      have := length_lt_of_dropWhile hd
      grind [measure, rank]
  | quotedValue draft name mark =>
    simp only [step, stepQuotedValue, close, enter] at h
    split at h
    · cases h
    · next hd =>
      have := length_lt_of_dropWhile hd
      grind [measure, rank]
  | bareValue draft name =>
    simp only [step, stepBareValue, close, enter, emitTag] at h
    split at h
    · cases h
    · next hd =>
      have := length_lt_of_dropWhile hd
      grind [measure, rank]
  | selfClosing draft =>
    simp only [step, stepSelfClosing, close, enter, emitTag] at h
    grind [measure, rank]
  | declarationOpen =>
    simp only [step, stepDeclarationOpen, enter, emit] at h
    split at h
    · next hp =>
      have := length_of_isPrefixOf? hp
      grind [measure, rank]
    · split at h
      · next hs =>
        have hlen := length_of_isPrefixOf? hs
        have hmark : sectionOpening.length = 7 := by decide
        split at h
        · next hc =>
          cases h
          exact measure_lt_of_length_lt (by have := length_le_of_cut? hc; simp only; omega)
        · cases h
          exact measure_lt_of_length_lt (by simp only [List.length_nil]; omega)
      · cases h
        exact measure_lt_of_rank_lt (Nat.le_refl _) (by simp [rank])
  | comment => exact stepData_measure_lt (by decide) h
  | declaration => exact stepData_measure_lt (by decide) h
  | instruction => exact stepData_measure_lt (by decide) h
  | bogusComment => exact stepData_measure_lt (by decide) h
  | rawText name =>
    simp only [step, stepRawText, close] at h
    split at h
    · cases h
    · next hr => cases h; exact measure_lt_of_length_lt (length_lt_of_rawEnd? hr)

/-- The tokens from a configuration to the end of the input. -/
def run (sections : Bool) (config : Config) : List Token :=
  match _h : config.step sections with
  | .finish tokens => tokens
  | .advance tokens next => tokens ++ run sections next
termination_by config.measure
decreasing_by exact step_measure_lt _h

end Config

/-- The tokens of a text, closed by the end of the input. -/
def tokens (text : Text) (sections : Bool := false) : List Token :=
  Config.run sections ⟨.data, [], text⟩

end MarkupBinding.Scanner
