/-
**The command line.**

Without arguments, lines are read and run one after the other in a session; with a path, the file
is run; with a word and a path, the file is treated as the word says.

Main definitions:

* `Lox.Command`, `Lox.Command.ofArguments` — what the arguments ask for;
* `Lox.decodeSource` — the text of a file;
* `Lox.Outcome` — output and exit code;
* `Lox.Session.converse` — lines run one after the other;
* `Lox.runScript`, `Lox.runPrompt`, `Lox.runCommand` — **what a command does**.
-/

import Lox.CommandLine.FileTree
import Lox.Session

set_option relaxedAutoImplicit false
set_option autoImplicit false

namespace Lox

/-- What the arguments ask for. -/
inductive Command where
  | prompt
  | script (mode : Mode) (path : String)
  | unknown (word : String)
  | misuse
deriving DecidableEq

/-- What the arguments ask for: a single argument is a path, whatever it looks like. -/
def Command.ofArguments : List String → Command
  | [] => prompt
  | [path] => script .run path
  | [word, path] =>
    match Mode.ofWord? word with
    | some mode => script mode path
    | none => unknown word
  | _ => misuse

/-- How the program is called. -/
def usage : String :=
  "Usage: treelox [script] | treelox <" ++ "|".intercalate (Mode.all.map Mode.word) ++ "> <file>"

/-- Output and exit code. -/
structure Outcome where
  stdout : String
  stderr : String
  exitCode : Nat
deriving DecidableEq

/-- The exit code for a command that cannot be carried out. -/
def exitFailure : Nat := 1

/-- A command that is not carried out, for the given reasons. -/
def Outcome.refused (lines : List String) : Outcome where
  stdout := ""
  stderr := Session.joinLines lines
  exitCode := exitFailure

/-! ### Files -/

/-- Both a carriage return and the pair it makes with a line feed end a line. -/
def normalizeLineEnds : List Char → List Char
  | [] => []
  | '\r' :: '\n' :: cs => '\n' :: normalizeLineEnds cs
  | '\r' :: cs => '\n' :: normalizeLineEnds cs
  | c :: cs => c :: normalizeLineEnds cs

/-- The text of a file, which must be UTF-8. -/
def decodeSource (bytes : ByteArray) : Option String :=
  (String.fromUTF8? bytes).map fun s => String.ofList (normalizeLineEnds s.toList)

/-- The line that is written when the program itself is at fault. -/
def internalFailure (path : String) : String :=
  "ERROR treelox: Internal interpreter failure while running '" ++ path ++ "'"

/-- Output and exit code of a session. -/
def Session.outcome (s : Session) : Outcome where
  stdout := s.stdout
  stderr := s.stderr
  exitCode := s.exitCode

/-- The outcome of a session that is at fault itself. -/
def Session.brokenOff (s : Session) (path : String) : Outcome where
  stdout := s.stdout
  stderr := s.stderr ++ internalFailure path ++ "\n"
  exitCode := exitFailure

/-- Treats a file as the mode says; `contents` is what reading it gave. -/
def runScript (s : Session) (mode : Mode) (path : String)
    (contents : Except ReadError ByteArray) : Outcome :=
  if path.toList.contains '\x00' then s.brokenOff path
  else
    match contents with
    | .error e => .refused ["Could not read '" ++ path ++ "': " ++ e.message]
    | .ok bytes =>
      match decodeSource bytes with
      | none => s.brokenOff path
      | some source =>
        match s.perform mode source with
        | (s, none) => s.outcome
        | (s, some _) => s.brokenOff path

/-! ### Lines -/

/-- What is shown before a line is read. -/
def promptText : String := "> "

/-- What is shown at the end. -/
def farewell : String := "Bye."

/-- The lines of an input; one that ends with a line end has no empty line behind it. -/
def inputLines (stdin : String) : List String :=
  let lines := stdin.splitOn "\n"
  if lines.getLast? == some "" then lines.dropLast else lines

/-- Runs a line and resets the report. -/
def Session.runLine (s : Session) (line : String) : Session × Option Interrupt :=
  let (s, escaped) := s.run line
  (s.reset, escaped)

/-- The output for one line. -/
structure Reply where
  stdout : String
  stderr : String
deriving DecidableEq

/-- Runs lines one after the other.  The result is the output for each line, the session at the
end, and the interrupt that put an end to it before the last line. -/
def Session.converse (s : Session) : List String → List Reply × Session × Option Interrupt
  | [] => ([], s, none)
  | line :: lines =>
    match s.flush.runLine line with
    | (s, some i) => ([⟨s.stdout, s.stderr⟩], s, some i)
    | (s, none) =>
      let (replies, last, escaped) := s.converse lines
      (⟨s.stdout, s.stderr⟩ :: replies, last, escaped)

/-- Runs the lines of an input.  The prompt stands before the output for each line, and once more
before the farewell. -/
def runPrompt (s : Session) (stdin : String) : Outcome :=
  let (replies, last, escaped) := s.converse (inputLines stdin)
  let shown := String.join (replies.map fun r => promptText ++ r.stdout)
  let written := String.join (replies.map (·.stderr))
  match escaped with
  | none => ⟨shown ++ promptText ++ farewell ++ "\n", written, last.exitCode⟩
  | some _ => ⟨shown, written, exitFailure⟩

/-! ### Commands -/

/-- Carries out a command with the given files and input. -/
def runCommand (s : Session) (files : FileTree) (stdin : String) : Command → Outcome
  | .prompt => runPrompt s stdin
  | .script mode path => runScript s mode path (files.read path)
  | .unknown word => .refused ["Unknown command: " ++ word, usage]
  | .misuse => .refused [usage]

end Lox
