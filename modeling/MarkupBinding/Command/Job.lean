import MarkupBinding.Command.Arguments
import MarkupBinding.Command.Directory
import MarkupBinding.Text.Lines
import MarkupBinding.Text.Utf8
import MarkupBinding.Transform

/-!
# Jobs

A job is what the arguments of a command ask for: a document is read from a file or from the
standard input, transformed, and written to a file or to the standard output. The options are
checked before anything is read.
-/

namespace MarkupBinding.Command

/-- The name that messages begin with. -/
def programName : Text := "htmlbind".toList

/-- A transform with the places that it reads from and writes to. -/
structure Job where
  options : Options
  input : Option Path
  output : Option Path
  verbose : Bool
deriving Repr

/-- Why a command is not carried out. -/
inductive Refusal where
  | arguments (error : ArgumentError)
  | options (error : Options.Error)
deriving Repr

/-- The message for a command that is not carried out. -/
def Refusal.message : Refusal → Text
  | .arguments error => error.message
  | .options error => error.message

/-- The value of an option that is given as the values of a flag. -/
def optionValue : List Text → Value
  | [value] => .text value
  | values => .list (values.map .text)

/-- The options that the flags give. Skipped attributes add up; of other flags the last counts. -/
def givenOptions (request : Request) : Options.Given :=
  let given (flag : Flag) (field : Options.Field) : Options.Given :=
    ((request.last? flag).map fun values => (field, optionValue values)).toList
  let skipped := request.occurrences.filterMap fun occurrence =>
    if occurrence.flag = .skipped then some (optionValue occurrence.values) else none
  given .target .target ++ [(.skipped, .list skipped)] ++ given .template .template ++
    given .binding .binding ++ given .root .root ++
    [(.xhtml, .bool (request.has .xhtml)), (.collapses, .bool (request.has .collapses))]

namespace Job

/-- The job that a request asks for. An output flag without a value stands for no file. -/
def ofRequest (request : Request) : Except Options.Error Job := do
  let options ← Options.construct (givenOptions request)
  pure { options, input := request.file.map Path.ofText,
         output := ((request.last? .output).bind List.head?).map Path.ofText,
         verbose := request.has .verbose }

/-- The job that the arguments of a command ask for; none if they ask for help. -/
def ofArguments (arguments : List Text) : Except Refusal (Option Job) := do
  let request ← (Request.ofArguments arguments).mapError .arguments
  if request.help then pure none
  else
    let job ← (ofRequest request).mapError .options
    pure (some job)

/-- The outcome for a document that is read as bytes. -/
def process (job : Job) (bytes : List UInt8) : Except Utf8.Error Options.Outcome :=
  (Utf8.decode bytes).map fun text => job.options.transform text.unifyLines

/-- What is logged of an outcome. -/
def logged (job : Job) (outcome : Options.Outcome) : Text :=
  if job.verbose then outcome.log.flatMap Note.line else []

end Job

/-- The line for a command that is not carried out. -/
def refusalLine (refusal : Refusal) : Text :=
  programName ++ ": error: ".toList ++ refusal.message

/-- The line for a document that cannot be read. -/
def unreadableLine (path : Path) (fault : PathFault) : Text :=
  programName ++ ": cannot read ".toList ++ path.toText ++ ": ".toList ++ fault.reason.toList

/-- Why a job breaks off. -/
inductive Failure where
  | undecodable (error : Utf8.Error)
  | transform (error : TransformError)
  | unwritable (path : Path) (fault : PathFault)
  /-- The path of the input or of the output cannot be that of any file. -/
  | nullInPath
deriving Repr

/-- The message for a job that breaks off. -/
def Failure.message : Failure → Text
  | .undecodable error => error.message
  | .transform error => error.message
  | .unwritable path fault =>
    "[Errno ".toList ++ Text.ofNat fault.number ++ "] ".toList ++ fault.reason.toList ++
      ": ".toList ++ Text.quoted path.toText
  | .nullInPath => "embedded null byte".toList

/-- How a command ends. -/
inductive Ending where
  | code (number : Nat)
  | failed (failure : Failure)
deriving Repr

/-- What a command leaves behind. -/
structure Report where
  ending : Ending
  output : Text := []
  errors : Text := []
  directory : Directory

/-- Writes a text to a file in a directory. -/
def Directory.write (d : Directory) (path : Path) (text : Text) : Except PathFault Directory := do
  let names ← d.target path
  let bytes := (String.ofList text).toUTF8.toList
  pure { entries := (names, .file bytes) :: d.entries.filter (·.1 ≠ names) }

/-- Carries out a job on a document that has been read. -/
def Job.finish (job : Job) (d : Directory) (bytes : List UInt8) : Report :=
  match job.process bytes with
  | .error error => { ending := .failed (.undecodable error), directory := d }
  | .ok outcome =>
    let errors := job.logged outcome
    match outcome.result, job.output with
    | .error error, _ => { ending := .failed (.transform error), errors, directory := d }
    | .ok text, none => { ending := .code 0, output := text, errors, directory := d }
    | .ok text, some path =>
      if path.hasNull then { ending := .failed .nullInPath, errors, directory := d }
      else match d.write path text with
      | .ok directory => { ending := .code 0, errors, directory }
      | .error fault => { ending := .failed (.unwritable path fault), errors, directory := d }

/-- Carries out a command in a directory. -/
def run (d : Directory) (input : List UInt8) (arguments : List Text) : Report :=
  match Job.ofArguments arguments with
  | .error refusal => { ending := .code 2, errors := refusalLine refusal ++ ['\n'], directory := d }
  | .ok none => { ending := .code 0, directory := d }
  | .ok (some job) =>
    match job.input with
    | none => job.finish d input
    | some path =>
      if path.hasNull then { ending := .failed .nullInPath, directory := d }
      else match d.read path with
      | .ok bytes => job.finish d bytes
      | .error fault =>
        { ending := .code 1, errors := unreadableLine path fault ++ ['\n'], directory := d }

end MarkupBinding.Command
