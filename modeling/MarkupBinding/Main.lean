import MarkupBinding.Command.Job

/-!
# The command

The outer layer of the command: it reads and writes files and the standard streams. What is read and
written, and all that is said, is settled by the job.
-/

namespace MarkupBinding.Command

/-- The arguments that the command takes, for help. -/
def usage : Text :=
  let flags := Flag.all.map fun flag => ['['] ++ flag.display ++ [']']
  "usage: ".toList ++ programName ++ [' '] ++ [' '].intercalate flags ++ " [file]\n".toList

/-- The fault that an error of the system stands for. -/
def faultOf : IO.Error → PathFault
  | .inappropriateType .. => .isDirectory
  | .illegalOperation .. => .isDirectory
  | .unsupportedOperation .. => .isDirectory
  | _ => .notFound

/-- Writes to the standard output. -/
def putOut (text : Text) : IO Unit := do
  let out ← IO.getStdout
  out.putStr (String.ofList text)
  out.flush

/-- Writes to the standard error stream. -/
def putErr (text : Text) : IO Unit := do
  let err ← IO.getStderr
  err.putStr (String.ofList text)
  err.flush

/-- Reads a stream to its end. -/
partial def readToEnd (stream : IO.FS.Stream) (bytes : ByteArray) : IO ByteArray := do
  let more ← stream.read 65536
  if more.isEmpty then pure bytes else readToEnd stream (bytes ++ more)

/-- Says why a job breaks off. -/
def fail (failure : Failure) : IO UInt32 := do
  putErr (failure.message ++ ['\n'])
  pure 1

/-- Carries out a job on a document that has been read. -/
def finish (job : Job) (bytes : ByteArray) : IO UInt32 := do
  match job.process bytes.toList with
  | .error error => fail (.undecodable error)
  | .ok outcome =>
    putErr (job.logged outcome)
    match outcome.result, job.output with
    | .error error, _ => fail (.transform error)
    | .ok text, none =>
      putOut text
      pure 0
    | .ok text, some path =>
      if path.hasNull then fail .nullInPath
      else try
        IO.FS.writeFile (String.ofList path.toText) (String.ofList text)
        pure 0
      catch error => fail (.unwritable path (faultOf error))

/-- Carries out a job. -/
def carryOut (job : Job) : IO UInt32 := do
  match job.input with
  | none => finish job (← readToEnd (← IO.getStdin) ByteArray.empty)
  | some path =>
    if path.hasNull then return ← fail .nullInPath
    let bytes? ← try
        let bytes ← IO.FS.readBinFile (String.ofList path.toText)
        pure (Except.ok bytes)
      catch error => pure (Except.error (faultOf error))
    match bytes? with
    | .ok bytes => finish job bytes
    | .error fault =>
      putErr (unreadableLine path fault ++ ['\n'])
      pure 1

end MarkupBinding.Command

open MarkupBinding.Command in
/-- Carries out the command with the given arguments. -/
def main (arguments : List String) : IO UInt32 := do
  match Job.ofArguments (arguments.map String.toList) with
  | .error refusal =>
    putErr (usage ++ refusalLine refusal ++ ['\n'])
    pure 2
  | .ok none =>
    putOut usage
    pure 0
  | .ok (some job) => carryOut job
