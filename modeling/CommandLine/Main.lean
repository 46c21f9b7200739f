import CommandLine.Shell.Arguments
import CommandLine.Shell.Basic

/-!
# The interactive program

Reads one command per line from standard input and prints what the shell answers. Everything that is
decided here is decided by pure functions; this module only reads and prints.
-/

set_option autoImplicit false

namespace CommandLine.Shell

/-- The variable of the environment that names a log level. -/
def levelVariable : String := "CMDTREE_LOG"

/-- What is found at a path. -/
def findFile (path : String) : IO Config.FileStatus := do
  try
    return .found (← IO.FS.readFile path)
  catch
    | .noFileOrDirectory .. => return .missing
    | _ => return .unreadable

/-- Answers the lines that are left. -/
partial def answerLines (shell : Shell) (input output : IO.FS.Stream) : IO Unit := do
  let line ← input.getLine
  if line.isEmpty then return
  let (answer, shell) := shell.process line
  answer.forM output.putStrLn
  output.flush
  answerLines shell input output

/-- What the program says when it cannot run. -/
def ArgumentError.message : ArgumentError → String
  | .unknownArgument => "error: unexpected argument"
  | .invalidValue => "error: invalid or missing value"
  | .repeated => "error: an argument cannot be used twice"
  | .unexpectedValue => "error: unexpected value"
  | .helpAsked => "Options: -c/--config PATH, -L/--log-level LEVEL, --admin, --user NAME"
  | .versionAsked => "0.1.0"

/-- Runs the shell on standard input with the given arguments. -/
def runProgram (arguments : Arguments) : IO UInt32 := do
  let config ← match arguments.config with
    | none => pure (Except.ok {})
    | some path => do pure (Config.ofFile path (← findFile path))
  let user : User := ⟨arguments.userName, arguments.admin⟩
  match config >>= fun config => (ofConfig config user).map fun shell => (config, shell) with
  | .error e =>
    IO.eprintln ("Error: " ++ e.message)
    return 1
  | .ok (config, shell) =>
    let level := LogLevel.resolve arguments.logLevel (← IO.getEnv levelVariable) config.logLevel
    if level ∈ [LogLevel.info, .debug, .trace] then
      IO.eprintln ("Shell ready for " ++ user.name)
    answerLines shell (← IO.getStdin) (← IO.getStdout)
    return 0

end CommandLine.Shell

/-- The program. -/
def main (arguments : List String) : IO UInt32 :=
  match CommandLine.Shell.Arguments.ofList arguments with
  | .ok arguments => CommandLine.Shell.runProgram arguments
  | .error .helpAsked => do
    IO.println CommandLine.Shell.ArgumentError.helpAsked.message
    return 0
  | .error .versionAsked => do
    IO.println CommandLine.Shell.ArgumentError.versionAsked.message
    return 0
  | .error e => do
    IO.eprintln e.message
    return 2
