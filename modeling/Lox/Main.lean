/-
**The program.**

Reads the arguments, files and lines of the outside world and shows what the command line gives
for them.
-/

import Lox.CommandLine.Basic

set_option relaxedAutoImplicit false
set_option autoImplicit false

namespace Lox

/-- What the clock of the machine shows, in seconds. -/
def currentTime : IO Number := return Decimal.toNumber ⟨← IO.monoMsNow, -3⟩

/-- Why a file could not be read. -/
def readErrorOf : IO.Error → ReadError
  | .noFileOrDirectory .. => .missing
  | .inappropriateType none .. => .isDirectory
  | .inappropriateType (some _) .. => .notDirectory
  | .invalidArgument (some _) .. => .nameTooLong
  | .permissionDenied .. => .other "Permission denied"
  | e => .other e.toString

/-- Shows the output of a session and takes it away. -/
def showOutput (s : Session) : IO Session := do
  (← IO.getStdout).putStr s.stdout
  (← IO.getStderr).putStr s.stderr
  return s.flush

/-- Reads and runs lines until the input ends. -/
partial def promptLoop (s : Session) : IO UInt32 := do
  let out ← IO.getStdout
  out.putStr promptText
  out.flush
  let line ← (← IO.getStdin).getLine
  if line.isEmpty then
    out.putStrLn farewell
    return 0
  let s := { s with machine := { s.machine with time := ← currentTime } }
  let (s, escaped) := s.runLine (line.dropSuffix "\n").toString
  let s ← showOutput s
  if escaped.isSome then return exitFailure.toUInt32 else promptLoop s

/-- Carries out the command that the arguments ask for. -/
def program (arguments : List String) : IO UInt32 := do
  let traced := (← IO.getEnv "TREELOX_DEBUG").any fun v => !v.isEmpty
  let session := Session.initial (← currentTime) traced
  match Command.ofArguments arguments with
  | .prompt => promptLoop session
  | .script mode path =>
    let contents ← try
        pure (Except.ok (← IO.FS.readBinFile path))
      catch e => pure (.error (readErrorOf e))
    let outcome := runScript session mode path contents
    (← IO.getStdout).putStr outcome.stdout
    (← IO.getStderr).putStr outcome.stderr
    return outcome.exitCode.toUInt32
  | command =>
    let outcome := runCommand session (.ofPaths [] []) "" command
    (← IO.getStderr).putStr outcome.stderr
    return outcome.exitCode.toUInt32

end Lox

/-- The entry point. -/
def main (arguments : List String) : IO UInt32 := Lox.program arguments
