/-
The command line on the file system of the machine.
-/
import UtteranceGrammar.Command.Help

set_option autoImplicit false

namespace UtteranceGrammar

/-- A store's error for one of the system. -/
def StoreError.ofSystem : IO.Error → StoreError
  | .noFileOrDirectory .. => .notFound
  | .inappropriateType _ 20 _ => .notDirectory
  | .inappropriateType _ 21 _ => .isDirectory
  | .invalidArgument _ 36 _ => .nameTooLong
  | .invalidArgument _ code details => .other code.toNat details
  | .permissionDenied _ code details => .other code.toNat details
  | .resourceExhausted _ code details => .other code.toNat details
  | e => .other 5 e.toString

/-- Does what touches the system, and keeps its error. -/
def attempt {α : Type} (action : IO α) : IO (Except StoreError α) := do
  try
    return .ok (← action)
  catch e =>
    return .error (.ofSystem e)

/-- The file system of the machine. -/
instance : Store IO where
  isFile path := do
    try
      return (← (System.mkFilePath [path]).metadata).type == .file
    catch _ =>
      return false
  read path := attempt (IO.FS.readBinFile path)
  occupied path := (System.mkFilePath [path]).pathExists
  write path content := attempt (IO.FS.writeBinFile path content)

/-- The environment variable that sets the verbosity of the log. -/
def verbosityVariable : String := "RUST_LOG"

/-- Runs a command: its product goes to the standard output, the log to the standard error. -/
def runProgram (arguments : List String) : IO UInt32 := do
  let outcome : Outcome ← runArguments arguments
  let verbosity := Verbosity.ofSetting ((← IO.getEnv verbosityVariable).getD "info")
  for line in outcome.shownLog verbosity do
    IO.eprint line
  if outcome.code = 2 then
    IO.eprint HelpTopic.program.text
  IO.print outcome.stdout
  return outcome.code.toUInt32

end UtteranceGrammar

/-- Runs the command that the arguments give, and exits with its status. -/
def main (arguments : List String) : IO UInt32 := UtteranceGrammar.runProgram arguments
