import MarkupBinding.Text.Digit
import MarkupBinding.Text.Quoted

/-!
# Arguments

The arguments of a command are flags with their values, and the name of a file. A flag may be
written in full or as any beginning that no other flag shares; its value may follow as an argument
of its own or be attached, behind an equals sign after a long name and directly after a short one.
Short flags without values can be run together. After a lone pair of dashes nothing is a flag.

First every argument is classed by itself, then the classed arguments are read from left to right.
-/

namespace MarkupBinding.Command

/-- The flags. -/
inductive Flag where
  | help
  | output
  | target
  | skipped
  | template
  | binding
  | root
  | xhtml
  | collapses
  | verbose
deriving DecidableEq, Repr

namespace Flag

/-- All flags, in the order in which they are listed. -/
def all : List Flag :=
  [help, output, target, skipped, template, binding, root, xhtml, collapses, verbose]

/-- The names of a flag. -/
def names : Flag → List String
  | help => ["-h", "--help"]
  | output => ["-o", "--output"]
  | target => ["--binding-attribute"]
  | skipped => ["--skip-attribute"]
  | template => ["--template-delimiters"]
  | binding => ["--binding-delimiters"]
  | root => ["--root"]
  | xhtml => ["--xhtml"]
  | collapses => ["--normalize-whitespace"]
  | verbose => ["-v", "--verbose"]

/-- How many values a flag takes. -/
def arity : Flag → Nat
  | help | xhtml | collapses | verbose => 0
  | output | target | skipped | root => 1
  | template | binding => 2

/-- Every name with its flag. -/
def listing : List (Text × Flag) :=
  all.flatMap fun flag => flag.names.map fun name => (name.toList, flag)

/-- The flag that has just this name. -/
def ofName? (name : Text) : Option Flag := listing.lookup name

/-- All names of a flag, for messages. -/
def display (flag : Flag) : Text := ['/'].intercalate (flag.names.map String.toList)

end Flag

/-- What is wrong with some arguments. -/
inductive ArgumentError where
  | ambiguous (argument : Text) (names : List Text)
  | missingValues (flag : Flag)
  | ignoredValue (flag : Flag) (value : Text)
  | unrecognized (arguments : List Text)
deriving DecidableEq, Repr

/-- The message for wrong arguments. -/
def ArgumentError.message : ArgumentError → Text
  | .ambiguous argument names =>
    "ambiguous option: ".toList ++ argument ++ " could match ".toList ++
      [',', ' '].intercalate names
  | .missingValues flag =>
    let count := if flag.arity = 1 then "one argument".toList
      else Text.ofNat flag.arity ++ " arguments".toList
    "argument ".toList ++ flag.display ++ ": expected ".toList ++ count
  | .ignoredValue flag value =>
    "argument ".toList ++ flag.display ++ ": ignored explicit argument ".toList ++
      Text.quoted value
  | .unrecognized arguments =>
    "unrecognized arguments: ".toList ++ [' '].intercalate arguments

/-! ## Classing single arguments -/

/-- What an argument is by itself. -/
inductive Shape where
  | value
  /-- A flag, whether its name is a short one, and the value attached to it. -/
  | flag (flag : Flag) (short : Bool) (attached : Option Text)
  /-- It looks like a flag, but there is none of this name. -/
  | unknown
  /-- The pair of dashes that ends the flags. -/
  | separator
deriving DecidableEq, Repr

/-- An argument and what it is. -/
structure Argument where
  text : Text
  shape : Shape
deriving DecidableEq, Repr

/-- The text before the first equals sign and the text behind it. -/
def attachedValue (argument : Text) : Text × Option Text :=
  match Text.cut? ['='] argument with
  | some (name, value) => (name, some value)
  | none => (argument, none)

/-- Whether a name has the form of a short one. -/
def isShort : Text → Bool
  | '-' :: '-' :: _ => false
  | _ => true

/-- The flags that an abbreviated argument may mean, with their names and attached values. -/
def candidates (argument : Text) : List (Text × Flag × Option Text) :=
  if isShort argument then
    (Flag.listing.filter fun (name, _) => name = argument.take 2).map fun (name, flag) =>
      (name, flag, some (argument.drop 2))
  else
    let (beginning, attached) := attachedValue argument
    (Flag.listing.filter fun (name, _) => beginning.isPrefixOf name).map fun (name, flag) =>
      (name, flag, attached)

/-- Whether digits make up a text, a point among them at most once and not at the end. -/
def isDecimalNumber (text : Text) : Bool :=
  match text.dropWhile Text.isDecimal with
  | [] => !text.isEmpty
  | '.' :: fraction => !fraction.isEmpty && fraction.all Text.isDecimal
  | _ => false

/-- Whether an argument is a negative number. A line feed may end it. -/
def isNegativeNumber : Text → Bool
  | '-' :: text =>
    let digits := if text.getLast? = some '\n' then text.dropLast else text
    isDecimalNumber digits
  | _ => false

/-- Classes an argument that stands before the pair of dashes. -/
def classify (argument : Text) : Except ArgumentError Shape :=
  match argument with
  | '-' :: _ :: _ =>
    match Flag.ofName? argument with
    | some flag => .ok (.flag flag (isShort argument) none)
    | none =>
      let (name, attached) := attachedValue argument
      match attached, Flag.ofName? name with
      | some value, some flag => .ok (.flag flag (isShort name) (some value))
      | _, _ =>
        match candidates argument with
        | [(name, flag, attached)] => .ok (.flag flag (isShort name) attached)
        | first :: second :: rest =>
          .error (.ambiguous argument ((first :: second :: rest).map (·.1)))
        | [] =>
          if isNegativeNumber argument || argument.contains ' ' then .ok .value else .ok .unknown
  | _ => .ok .value

/-- Classes all arguments. -/
def classifyAll : List Text → Except ArgumentError (List Argument)
  | [] => .ok []
  | argument :: arguments =>
    if argument = ['-', '-'] then
      .ok (⟨argument, .separator⟩ :: arguments.map fun text => ⟨text, .value⟩)
    else do
      let shape ← classify argument
      pure (⟨argument, shape⟩ :: (← classifyAll arguments))

/-! ## Reading classed arguments -/

/-- A flag and the values that came with it. -/
structure Occurrence where
  flag : Flag
  values : List Text
deriving DecidableEq, Repr

/-- What arguments ask for. -/
structure Request where
  occurrences : List Occurrence := []
  file : Option Text := none
  /-- Arguments that nothing asks for. -/
  extras : List Text := []
  /-- Whether help is asked for, which ends the reading once no values are missing. -/
  help : Bool := false
deriving DecidableEq, Repr

/-- The values that an attached text gives. A pair of dashes gives none. -/
def attachedValues (value : Text) : List Text := if value = ['-', '-'] then [] else [value]

/-- Reads what is attached to a short flag. The result is the occurrences that are complete, and the
last flag if its values are still to come. -/
def readCluster (flag : Flag) : Text → Except ArgumentError (List Occurrence × Option Flag)
  | [] => .ok ([], some flag)
  | c :: rest =>
    match flag.arity with
    | 0 =>
      match Flag.ofName? ['-', c] with
      | some next => do
        let (occurrences, open?) ← readCluster next rest
        pure (⟨flag, []⟩ :: occurrences, open?)
      | none => .error (.ignoredValue flag (c :: rest))
    | 1 => .ok ([⟨flag, attachedValues (c :: rest)⟩], none)
    | _ => .error (.missingValues flag)

/-- Reads what is attached to a flag. -/
def readAttached (flag : Flag) (short : Bool) (value : Text) :
    Except ArgumentError (List Occurrence × Option Flag) :=
  match flag.arity with
  | 0 =>
    if short && !value.isEmpty then readCluster flag value
    else .error (.ignoredValue flag value)
  | 1 => .ok ([⟨flag, attachedValues value⟩], none)
  | _ => .error (.missingValues flag)

/-- What the next argument may be. -/
inductive Expecting where
  /-- Anything. -/
  | anything
  /-- Anything; the file was read just before. -/
  | afterFile
  /-- A value of a flag: so many more than one are missing, and some have come. -/
  | value (flag : Flag) (missing : Nat) (values : List Text)
deriving DecidableEq, Repr

namespace Request

/-- Adds the occurrence of a flag with all its values. -/
def add (request : Request) (occurrences : List Occurrence) : Request :=
  { request with
    occurrences := request.occurrences ++ occurrences
    help := request.help || occurrences.any (·.flag = .help) }

/-- Adds an argument that nothing asks for. -/
def addExtra (request : Request) (text : Text) : Request :=
  { request with extras := request.extras ++ [text] }

/-- Adds an argument that belongs to no flag: it is the file if there is none yet. The dashes that
end the flags are passed over before the file and right behind it. -/
def addPlain (request : Request) (expecting : Expecting) (text : Text) (isSeparator : Bool) :
    Request × Expecting :=
  if isSeparator then
    if request.file.isNone || expecting = .afterFile then (request, .anything)
    else (request.addExtra text, .anything)
  else if request.file.isNone then ({ request with file := some text }, .afterFile)
  else (request.addExtra text, .anything)

/-- Adds a flag: the occurrences that are complete, and the flag whose values come next. -/
def addFlag (request : Request) (flag : Flag) (short : Bool) (attached : Option Text) :
    Except ArgumentError (Request × Expecting) := do
  let (occurrences, open?) ← match attached with
    | some value => readAttached flag short value
    | none => .ok ([], some flag)
  match open? with
  | none => pure (request.add occurrences, .anything)
  | some flag =>
    match flag.arity with
    | 0 => pure (request.add (occurrences ++ [⟨flag, []⟩]), .anything)
    | missing + 1 => pure (request.add occurrences, .value flag missing [])

/-- Reads one argument. -/
def read (request : Request) (expecting : Expecting) (argument : Argument) :
    Except ArgumentError (Request × Expecting) :=
  match expecting, argument.shape with
  | .value flag 0 values, .value =>
    .ok (request.add [⟨flag, values ++ [argument.text]⟩], .anything)
  | .value flag (missing + 1) values, .value =>
    .ok (request, .value flag missing (values ++ [argument.text]))
  -- Nothing but values may stand between a flag and the last of its values.
  | .value flag _ _, _ => .error (.missingValues flag)
  | _, .value => .ok (request.addPlain expecting argument.text false)
  | _, .separator => .ok (request.addPlain expecting argument.text true)
  | _, .unknown => .ok (request.addExtra argument.text, .anything)
  | _, .flag flag short attached => request.addFlag flag short attached

/-- Reads arguments up to their end or to a flag that asks for help. A flag that is run together
with it still gets its values. -/
def readAll (request : Request) (expecting : Expecting) :
    List Argument → Except ArgumentError Request
  | [] =>
    match expecting with
    | .value flag _ _ => .error (.missingValues flag)
    | _ => .ok request
  | argument :: arguments => do
    let (request, expecting) ← request.read expecting argument
    match expecting with
    | .value .. => readAll request expecting arguments
    | .anything | .afterFile =>
      if request.help then pure request else readAll request expecting arguments

/-- What the arguments of a command ask for. Extra arguments are refused at the end. -/
def ofArguments (arguments : List Text) : Except ArgumentError Request := do
  let request ← readAll {} .anything (← classifyAll arguments)
  if request.extras.isEmpty || request.help then pure request
  else .error (.unrecognized request.extras)

/-- The values of the last occurrence of a flag. -/
def last? (request : Request) (flag : Flag) : Option (List Text) :=
  (request.occurrences.reverse.find? (·.flag = flag)).map (·.values)

/-- Whether a flag occurs. -/
def has (request : Request) (flag : Flag) : Bool := request.occurrences.any (·.flag = flag)

end Request
end MarkupBinding.Command
